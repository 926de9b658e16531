/-
Which root tables `acpi_init` enumerates.

In an XSDT every second pointer is the upper half of an address, so the headers are
those of the tables with the bottom of memory between them.  In an RSDT they are
right, but the bytes behind the one page of each table are read from a mapped page
only when something else has mapped it: before `acpi_init`, or for an earlier table.
-/

import Osdev64.AcpiRoot
import Mathlib.Algebra.Order.BigOperators.Group.List

namespace Osdev64

open Word64 Bytes Orbit Log

variable {memory : Word → Byte} {start : AcpiPages} {tables : List Word} {apic : IoApic}
  {rounds fuel : Nat} {value : Nat × IoApic}

/-- The headers that are examined are those of the tables, and what is read of the root table and of
an MADT is in a page that is mapped to the frame that holds it. -/
structure Enumerates (memory : Word → Byte) (start : AcpiPages) (tables : List Word) (apic : IoApic) :
    Prop where
  only : ∀ rounds fuel, tableHeaders (acpiInit memory rounds fuel apic).events <+: tables.map p2v
  all : ∃ rounds fuel, tableHeaders (acpiInit memory rounds fuel apic).events = tables.map p2v
  reads : ∀ rounds fuel, ReadsMapped start (acpiInit memory rounds fuel apic).events

theorem enumerates_of_returned (returned : (acpiInit memory rounds fuel apic).result = some value) :
    Enumerates memory start tables apic ↔
      ((List.range (tableCount memory (rootTable memory))).map fun i =>
        p2v (pointerAt memory (rootTable memory) i)) = tables.map p2v ∧ BytesMapped memory fuel start := by
  rw [← tableHeaders_acpiInit returned, ← acpiInit_mapped_iff returned]
  constructor
  · intro enumerates
    obtain ⟨rounds', fuel', all⟩ := enumerates.all
    refine ⟨?_, enumerates.reads rounds fuel⟩
    apply List.IsPrefix.eq_of_length (enumerates.only rounds fuel)
    apply Nat.le_antisymm (enumerates.only rounds fuel).length_le
    rw [← all]
    exact ((acpiInit_starts returned rounds' fuel').filterMap _).length_le
  · rintro ⟨headers, reads⟩
    refine ⟨fun rounds' fuel' => ?_, ⟨rounds, fuel, headers⟩, fun rounds' fuel' => ?_⟩
    · rw [← headers]
      exact (acpiInit_starts returned rounds' fuel').filterMap _
    · exact Obeys.of_prefix reads (acpiInit_starts returned rounds' fuel')

theorem exists_returned (apic : IoApic)
    (parsed : ∀ i < tableCount memory (rootTable memory),
      Parsed memory fuel (p2v (pointerAt memory (rootTable memory) i))) :
    ∃ rounds value, (acpiInit memory rounds fuel apic).result = some value := by
  have returns : (acpiInit memory (tableCount memory (rootTable memory) - 0 + 1) fuel apic).result.isSome = true := by
    rw [acpiInit_eq]
    exact returns_of_parsed (Nat.zero_le _) fun i _ => parsed i
  exact ⟨_, Option.isSome_iff_exists.mp returns⟩

/-! ### Valid tables -/

/-- A root table with these tables; its entries have a width and are read so. -/
@[mk_iff]
structure RootTable (memory : Word → Byte) (width : Nat) (entryAt : Word → Word) (root : Word)
    (tables : List Word) : Prop where
  inside : root.toNat + 36 + width * tables.length ≤ 2 ^ 31
  length : (dwordAt memory (p2v root + 4)).toNat = 36 + width * tables.length
  entries : ∀ i (below : i < tables.length),
    entryAt (p2v root + acpiHeaderSize + BitVec.ofNat 64 (width * i)) = tables.get ⟨i, below⟩

instance (memory : Word → Byte) (width : Nat) (entryAt : Word → Word) (root : Word) (tables : List Word) :
    Decidable (RootTable memory width entryAt root tables) :=
  decidable_of_iff _ (rootTable_iff memory width entryAt root tables).symm

/-- An RSDP of revision 0 or at least 2 with its root tables, all below two gigabytes. -/
structure ValidAcpi (memory : Word → Byte) (tables : List Word) : Prop where
  rsdp : ValidRsdp memory (acpiScan memory)
  revision : rsdpRev memory (acpiScan memory) = 0 ∨ 2 ≤ (rsdpRev memory (acpiScan memory)).toNat
  rsdt : RootTable memory 4 (fun address => (dwordAt memory address).setWidth 64)
    (rsdtPtr memory (acpiScan memory)) tables
  xsdt : 2 ≤ (rsdpRev memory (acpiScan memory)).toNat →
    RootTable memory 8 (qwordAt memory) (xsdtPtr memory (acpiScan memory)) tables
  below : ∀ table ∈ tables, table.toNat < 2 ^ 31

theorem RootTable.count {width : Nat} {entryAt : Word → Word} {root : Word}
    (listed : RootTable memory width entryAt root tables) :
    tableCount memory (p2v root) = width * tables.length / 4 := by
  have length := listed.length
  have word := (dwordAt memory (p2v root + 4)).isLt
  unfold tableCount
  rw [BitVec.toNat_udiv, BitVec.toNat_sub, BitVec.toNat_setWidth, length]
  change (2 ^ 64 - 36 + (36 + width * tables.length) % 2 ^ 64) % 2 ^ 64 / 4 = _
  rw [length] at word
  generalize width * tables.length = size at *
  omega

theorem ValidAcpi.count (valid : ValidAcpi memory tables) :
    tableCount memory (rootTable memory) =
      if rsdpRev memory (acpiScan memory) = 0 then tables.length else 2 * tables.length := by
  unfold rootTable rootPtr
  split
  · rw [valid.rsdt.count]
    omega
  · rename_i newer
    rw [(valid.xsdt (valid.revision.resolve_left newer)).count]
    omega

theorem ValidAcpi.pointer (valid : ValidAcpi memory tables)
    (old : rsdpRev memory (acpiScan memory) = 0 ∨ tables = []) {i : Nat} (below : i < tables.length) :
    pointerAt memory (rootTable memory) i = tables.get ⟨i, below⟩ := by
  rcases old with zero | rfl
  · rw [← valid.rsdt.entries i below]
    unfold pointerAt tablePtr rootTable rootPtr
    rw [if_pos zero, Nat.mul_comm, BitVec.ofNat_mul]
    rfl
  · exact absurd below (Nat.not_lt_zero i)

namespace ValidAcpi

theorem count_eq (valid : ValidAcpi memory tables) (old : rsdpRev memory (acpiScan memory) = 0 ∨ tables = []) :
    tableCount memory (rootTable memory) = tables.length := by
  rw [valid.count]
  split
  · rfl
  · rename_i newer
    rw [old.resolve_left newer]
    rfl

theorem headers_eq (valid : ValidAcpi memory tables) (old : rsdpRev memory (acpiScan memory) = 0 ∨ tables = []) :
    ((List.range (tableCount memory (rootTable memory))).map fun i =>
      p2v (pointerAt memory (rootTable memory) i)) = tables.map p2v := by
  rw [valid.count_eq old]
  apply List.ext_get
  · simp
  · intro i below below'
    rw [List.length_map] at below'
    have here := valid.pointer old below'
    simp [here]

theorem parsed_iff (valid : ValidAcpi memory tables) (old : rsdpRev memory (acpiScan memory) = 0 ∨ tables = []) :
    (∀ i < tableCount memory (rootTable memory),
      Parsed memory fuel (p2v (pointerAt memory (rootTable memory) i))) ↔
      ∀ table ∈ tables, Parsed memory fuel (p2v table) := by
  rw [valid.count_eq old]
  constructor
  · intro parsed table member
    obtain ⟨⟨i, below⟩, rfl⟩ := List.get_of_mem member
    rw [← valid.pointer old below]
    exact parsed i below
  · intro parsed i below
    rw [valid.pointer old below]
    exact parsed _ (List.get_mem _ _)

end ValidAcpi

theorem tableHeaders_loop (memory : Word → Byte) (rounds fuel : Nat) (apic : IoApic) :
    tableHeaders (acpiInit memory rounds fuel apic).events =
      tableHeaders (rootLoop memory fuel (rootTable memory) rounds (BitVec.ofNat 64 0) (0, apic)).events := by
  rw [acpiInit_eq, tableHeaders_append, tableHeaders_assert, tableHeaders_append]
  rfl

theorem headers_reached {r : Word} {i n : Nat} {state : Nat × IoApic} (within : i + n < tableCount memory r)
    (parsed : ∀ j, i ≤ j → j < i + n → Parsed memory fuel (p2v (pointerAt memory r j))) :
    ((List.range' i (n + 1)).map fun j => p2v (pointerAt memory r j)) <+:
      tableHeaders (rootLoop memory fuel r (n + 1) (BitVec.ofNat 64 i) state).events := by
  induction n generalizing i state with
  | zero =>
    have below : i < tableCount memory r := within
    rw [rootLoop_of_lt below, tell_andThen, tableHeaders_append, tableHeaders_roundHead]
    exact List.prefix_append _ _
  | succ n ih =>
    have below : i < tableCount memory r := by omega
    have returns : (examineEntry memory fuel (p2v (pointerAt memory r i)) state).result.isSome = true :=
      examineEntry_isSome_iff.mpr (parsed i (Nat.le_refl i) (by omega))
    obtain ⟨next, examined⟩ := Option.isSome_iff_exists.mp returns
    rw [rootLoop_of_lt below, tell_andThen, andThen_of_some examined, tableHeaders_append,
      tableHeaders_append, examineEntry_events (parsed i (Nat.le_refl i) (by omega)),
      tableHeaders_entryEvents, tableHeaders_roundHead, List.range'_succ, List.map_cons]
    exact List.cons_prefix_cons.mpr ⟨rfl, ih (by omega) fun j from' before =>
      parsed j (by omega) (by omega)⟩

/-! ### The bytes of the tables -/

section Bytes

variable (memory : Word → Byte) (tables : List Word) (lengths : Word → List Nat)

/-- The MADTs among the tables are well formed and end in front of the last byte of the address space. -/
def MadtsFormed : Prop :=
  ∀ table ∈ tables, isMadt memory (p2v table) = true →
    WellFormedMadt memory (p2v table) (lengths table) ∧
      (p2v table).toNat + 44 + (lengths table).sum < 2 ^ 64

/-- The bytes of the root table, and of the MADTs up to the records in front of the parser's stop, with
the number of tables of which a page is mapped by then. -/
inductive TableByte (root : Word) : Nat → Word → Prop where
  | length (k : Nat) (below : k < 4) : TableByte root 0 (p2v root + 4 + BitVec.ofNat 64 k)
  | pointer (i : Nat) (inside : i < tables.length) (k : Nat) (below : k < 4) :
      TableByte root i (pointerAddress (p2v root) i + BitVec.ofNat 64 k)
  | head (i : Nat) (inside : i < tables.length) (madt : isMadt memory (p2v (tables.get ⟨i, inside⟩)) = true)
      (k : Nat) (below : k < 8) :
      TableByte root (i + 1) (p2v (tables.get ⟨i, inside⟩) + BitVec.ofNat 64 k)
  | field (i : Nat) (inside : i < tables.length) (madt : isMadt memory (p2v (tables.get ⟨i, inside⟩)) = true)
      (k : Nat) (entry : k < (lengths (tables.get ⟨i, inside⟩)).length)
      (front : 44 + ((lengths (tables.get ⟨i, inside⟩)).take k).sum < (lengths (tables.get ⟨i, inside⟩)).sum)
      (field : Nat) (read : field ∈ 0 :: 1 :: recordFields
        (memory (entryAddress (p2v (tables.get ⟨i, inside⟩)) (lengths (tables.get ⟨i, inside⟩)) k))) :
      TableByte root (i + 1)
        (entryAddress (p2v (tables.get ⟨i, inside⟩)) (lengths (tables.get ⟨i, inside⟩)) k + BitVec.ofNat 64 field)

/-- No I/O APIC has an address whose page, in the direct map, holds such a byte. -/
def IoApicsApart (root : Word) : Prop :=
  ∀ table ∈ tables, ∀ k < (lengths table).length,
    ∀ call ∈ recordCalls memory (entryAddress (p2v table) (lengths table) k),
      ∀ count address, TableByte memory tables lengths root count address →
        roundDown (p2v call) pageSize ≠ roundDown address pageSize

/-- The page was mapped before, or it is the page of the first byte of one of these tables. -/
def Provided (start : AcpiPages) (mapped : List Word) (page : Word) : Prop :=
  start.mapped page ∨ start.large page = false ∧ ∃ table ∈ mapped, roundDown (p2v table) pageSize = page

/-- Every byte is in such a page of the RSDT or of the tables up to its own. -/
def TablesReached (rsdt root : Word) (start : AcpiPages) : Prop :=
  ∀ count address, TableByte memory tables lengths root count address →
    Provided start (rsdt :: tables.take count) (roundDown address pageSize)

end Bytes

theorem afterCalls_large (start : AcpiPages) (calls : List Word) :
    (afterCalls start calls).large = start.large := by
  induction calls generalizing start with
  | nil => rfl
  | cons call calls ih => exact ih (callPages start call)

theorem afterCalls_mapped_iff {calls : List Word} {page : Word}
    (right : ∀ call ∈ calls, call.toNat < 2 ^ 31 ∨ roundDown (p2v call) pageSize ≠ page) :
    (afterCalls start calls).mapped page ↔ Provided start calls page := by
  unfold Provided
  induction calls using List.reverseRecOn with
  | nil => simp [afterCalls]
  | append_singleton calls last ih =>
    have earlier := ih fun call member => right call (List.mem_append_left _ member)
    have split : afterCalls start (calls ++ [last]) = callPages (afterCalls start calls) last :=
      List.foldl_append
    rw [split]
    change (if page = roundDown (p2v last) pageSize ∧ (afterCalls start calls).large page = false then
      roundDown last pageSize = v2p page else (afterCalls start calls).mapped page) ↔ _
    rw [afterCalls_large, earlier]
    by_cases here : page = roundDown (p2v last) pageSize
    · rcases right last (List.mem_append_right _ List.mem_cons_self) with small | elsewhere
      · have home : roundDown last pageSize = v2p (roundDown (p2v last) pageSize) := by
          apply BitVec.eq_of_toNat_eq
          rw [v2p_toNat, roundDown_page, roundDown_page, p2v_toNat]
          omega
        by_cases plain : start.large page = false
        · rw [if_pos ⟨here, plain⟩, here]
          refine iff_of_true home (Or.inr ⟨here ▸ plain, last, ?_, rfl⟩)
          exact List.mem_append_right _ List.mem_cons_self
        · rw [if_neg fun both => plain both.2]
          simp [plain]
      · exact absurd here.symm elsewhere
    · rw [if_neg fun both => here both.1]
      refine or_congr_right (and_congr_right fun _ => ?_)
      simp [List.mem_append, or_and_right, exists_or, Ne.symm here]

theorem Provided.mono {mapped more : List Word} {page : Word} (provided : Provided start mapped page)
    (subset : mapped ⊆ more) : Provided start more page :=
  provided.imp_right fun here => ⟨here.1, here.2.imp fun _ table => ⟨subset table.1, table.2⟩⟩

section Reached

variable {lengths : Word → List Nat} {count : Nat} {address call : Word}
  (valid : ValidAcpi memory tables) (old : rsdpRev memory (acpiScan memory) = 0 ∨ tables = [])
  (formed : MadtsFormed memory tables lengths)
  (apart : IoApicsApart memory tables lengths (rootPtr memory (acpiScan memory)))
  (enough : ∀ table ∈ tables, (lengths table).length ≤ fuel)

include valid old formed apart enough

omit valid old apart in
theorem recordCount_formed {table : Word} (member : table ∈ tables) (madt : isMadt memory (p2v table) = true) :
    (madtCursors memory fuel (p2v table)).isSome = true ∧
      (∀ k, k < recordCount memory fuel (p2v table) ↔
        k < (lengths table).length ∧ 44 + ((lengths table).take k).sum < (lengths table).sum) ∧
      ∀ k < (lengths table).length, cursor memory (p2v table) k = entryAddress (p2v table) (lengths table) k := by
  obtain ⟨wellFormed, strict⟩ := formed table member madt
  obtain ⟨count, front, traced⟩ := wellFormed.exists_cursors strict (enough table member)
  refine ⟨Option.isSome_of_eq_some traced, ?_, fun k below => wellFormed.cursor_eq (Nat.le_of_lt below)⟩
  unfold recordCount
  rw [traced, Option.getD_some, List.length_iterate]
  exact front

omit valid old in
theorem madtCalls_elsewhere {table : Word} (member : table ∈ tables)
    (madt : isMadt memory (p2v table) = true) {k : Nat} (within : k ≤ recordCount memory fuel (p2v table))
    (byte : TableByte memory tables lengths (rootPtr memory (acpiScan memory)) count address)
    (here : roundDown (p2v call) pageSize = roundDown address pageSize) :
    call ∉ madtCalls memory (p2v table) k := by
  intro made
  obtain ⟨_, front, atEntry⟩ := recordCount_formed formed enough member madt
  obtain ⟨j, below, made⟩ := List.mem_flatMap.mp made
  have inside := ((front j).mp (by have := List.mem_range.mp below; omega)).1
  rw [atEntry j inside] at made
  exact apart table member j inside call made count address byte here

omit valid old in
theorem entryCalls_elsewhere {table : Word} (member : table ∈ tables)
    (byte : TableByte memory tables lengths (rootPtr memory (acpiScan memory)) count address)
    (here : roundDown (p2v call) pageSize = roundDown address pageSize) :
    call ∉ entryCalls memory fuel (p2v table) := by
  unfold entryCalls
  split
  · rename_i madt
    exact madtCalls_elsewhere formed apart enough member madt (Nat.le_refl _) byte here
  · exact List.not_mem_nil

theorem mem_callsBefore_iff {i : Nat} (within : i ≤ tables.length)
    (byte : TableByte memory tables lengths (rootPtr memory (acpiScan memory)) count address)
    (here : roundDown (p2v call) pageSize = roundDown address pageSize) :
    call ∈ callsBefore memory fuel i ↔ call ∈ rsdtPtr memory (acpiScan memory) :: tables.take i := by
  unfold callsBefore
  rw [List.mem_cons, List.mem_cons, List.mem_flatMap]
  refine or_congr_right ?_
  constructor
  · rintro ⟨j, below, made⟩
    have inside : j < tables.length := by
      have := List.mem_range.mp below
      omega
    rw [valid.pointer old inside, List.mem_cons] at made
    rcases made with rfl | made
    · exact List.mem_take_iff_getElem.mpr ⟨j, by have := List.mem_range.mp below; omega, rfl⟩
    · exact absurd made (entryCalls_elsewhere formed apart enough (List.get_mem _ _) byte here)
  · intro member
    obtain ⟨j, below, rfl⟩ := List.mem_take_iff_getElem.mp member
    refine ⟨j, List.mem_range.mpr (by omega), ?_⟩
    rw [valid.pointer old (show j < tables.length by omega)]
    exact List.mem_cons_self

omit old formed apart enough in
theorem mapped_iff_provided {calls mapped : List Word}
    (tablesOnly : mapped ⊆ rsdtPtr memory (acpiScan memory) :: tables)
    (same : ∀ call, roundDown (p2v call) pageSize = roundDown address pageSize →
      (call ∈ calls ↔ call ∈ mapped)) :
    (afterCalls start calls).mapped (roundDown address pageSize) ↔
      Provided start mapped (roundDown address pageSize) := by
  have rsdt := valid.rsdt.inside
  rw [afterCalls_mapped_iff]
  · refine or_congr_right (and_congr_right fun _ => exists_congr fun call => ?_)
    exact and_congr_left fun here => same call here
  · intro call member
    by_cases here : roundDown (p2v call) pageSize = roundDown address pageSize
    · rcases List.mem_cons.mp (tablesOnly ((same call here).mp member)) with rfl | table
      · exact Or.inl (by omega)
      · exact Or.inl (valid.below call table)
    · exact Or.inr here

theorem mapped_before_iff {i : Nat} (within : i ≤ tables.length)
    (byte : TableByte memory tables lengths (rootPtr memory (acpiScan memory)) count address) :
    (afterCalls start (callsBefore memory fuel i)).mapped (roundDown address pageSize) ↔
      Provided start (rsdtPtr memory (acpiScan memory) :: tables.take i) (roundDown address pageSize) :=
  mapped_iff_provided valid (List.cons_subset_cons _ (List.take_subset i tables))
    fun _ here => mem_callsBefore_iff valid old formed apart enough within byte here

theorem mapped_during_iff {i k : Nat} (inside : i < tables.length)
    (madt : isMadt memory (p2v (tables.get ⟨i, inside⟩)) = true)
    (within : k ≤ recordCount memory fuel (p2v (tables.get ⟨i, inside⟩)))
    (byte : TableByte memory tables lengths (rootPtr memory (acpiScan memory)) count address) :
    (afterCalls start (callsBefore memory fuel i ++ [pointerAt memory (rootTable memory) i] ++
        madtCalls memory (p2v (tables.get ⟨i, inside⟩)) k)).mapped (roundDown address pageSize) ↔
      Provided start (rsdtPtr memory (acpiScan memory) :: tables.take (i + 1)) (roundDown address pageSize) := by
  refine mapped_iff_provided valid
    (List.cons_subset_cons _ (List.take_subset _ tables)) fun call here => ?_
  have elsewhere := madtCalls_elsewhere formed apart enough (List.get_mem _ _) madt within byte here
  rw [List.mem_append, List.mem_append, or_iff_left elsewhere,
    mem_callsBefore_iff valid old formed apart enough (Nat.le_of_lt inside) byte here,
    valid.pointer old inside, List.mem_singleton, List.mem_cons, List.mem_cons, or_assoc,
    List.take_succ_eq_append_getElem inside, List.mem_append, List.mem_singleton]
  rfl

theorem bytesMapped_iff : BytesMapped memory fuel start ↔
    TablesReached memory tables lengths (rsdtPtr memory (acpiScan memory)) (rootPtr memory (acpiScan memory))
      start := by
  have before {i count : Nat} {address : Word} (within : i ≤ tables.length)
      (byte : TableByte memory tables lengths (rootPtr memory (acpiScan memory)) count address) :
      (afterCalls start (callsBefore memory fuel i)).mapped _ ↔ _ :=
    mapped_before_iff valid old formed apart enough within byte
  have during {i k count : Nat} {address : Word} (inside : i < tables.length)
      (madt : isMadt memory (p2v (tables.get ⟨i, inside⟩)) = true)
      (within : k ≤ recordCount memory fuel (p2v (tables.get ⟨i, inside⟩)))
      (byte : TableByte memory tables lengths (rootPtr memory (acpiScan memory)) count address) :
      (afterCalls start _).mapped _ ↔ _ :=
    mapped_during_iff valid old formed apart enough inside madt within byte
  have number := valid.count_eq old
  have second (madt : Word) (k : Nat) : madt + 4 + BitVec.ofNat 64 k = madt + BitVec.ofNat 64 (4 + k) := by
    rw [BitVec.ofNat_add, ← BitVec.add_assoc]
    rfl
  constructor
  · rintro ⟨length, pointers, madts⟩ count address byte
    have own := byte
    cases byte with
    | length k below =>
      exact (before (Nat.zero_le _) own).mp (length 0 (Nat.zero_le _) k below)
    | pointer _ inside k below =>
      exact (before (Nat.le_of_lt inside) own).mp (pointers _ (by rw [number]; exact inside) k below)
    | head i inside madt k below =>
      have known := madts i (by rw [number]; exact inside) (by rw [valid.pointer old inside]; exact madt)
      rw [valid.pointer old inside] at known
      refine (during inside madt (Nat.zero_le _) own).mp ?_
      rw [valid.pointer old inside]
      by_cases first : k < 4
      · have here := known.signature k first
        rwa [← List.append_nil (_ ++ _)] at here
      · have here := known.length 0 (Nat.zero_le _) (k - 4) (by omega)
        rwa [second, Nat.add_sub_cancel' (Nat.le_of_not_lt first)] at here
    | field i inside madt k entry front field read =>
      obtain ⟨_, processed, atEntry⟩ := recordCount_formed formed enough (List.get_mem _ _) madt
      have known := madts i (by rw [number]; exact inside) (by rw [valid.pointer old inside]; exact madt)
      have below := (processed k).mpr ⟨entry, front⟩
      refine (during inside madt (Nat.le_of_lt below) own).mp ?_
      rw [valid.pointer old inside] at known ⊢
      have here := known.records k below
      rw [atEntry k entry] at here
      exact here field read
  · intro reached
    refine ⟨fun i within k below => ?_, fun i inside k below => ?_, fun i inside madt => ?_⟩
    · rw [number] at within
      have byte : TableByte memory tables lengths (rootPtr memory (acpiScan memory)) 0
          (rootTable memory + 4 + BitVec.ofNat 64 k) := .length k below
      refine (before within byte).mpr ((reached _ _ byte).mono ?_)
      exact List.cons_subset_cons _ (List.nil_subset _)
    · rw [number] at inside
      have byte : TableByte memory tables lengths (rootPtr memory (acpiScan memory)) i
          (pointerAddress (rootTable memory) i + BitVec.ofNat 64 k) := .pointer i inside k below
      exact (before (Nat.le_of_lt inside) byte).mpr (reached _ _ byte)
    · rw [number] at inside
      have pointer := valid.pointer old inside
      rw [pointer] at madt
      obtain ⟨_, processed, atEntry⟩ := recordCount_formed formed enough (List.get_mem _ _) madt
      have during' {k count : Nat} {address : Word}
          (within : k ≤ recordCount memory fuel (p2v (tables.get ⟨i, inside⟩)))
          (byte : TableByte memory tables lengths (rootPtr memory (acpiScan memory)) count address) :=
        during (k := k) inside madt within byte
      rw [pointer] at during' ⊢
      refine ⟨fun k below => ?_, fun k within x below => ?_, fun k below field read => ?_⟩
      · have byte : TableByte memory tables lengths (rootPtr memory (acpiScan memory)) (i + 1)
            (p2v (tables.get ⟨i, inside⟩) + BitVec.ofNat 64 k) := .head i inside madt k (by omega)
        have here := (during' (Nat.zero_le _) byte).mpr (reached _ _ byte)
        rwa [show madtCalls memory (p2v (tables.get ⟨i, inside⟩)) 0 = [] from rfl, List.append_nil] at here
      · have byte : TableByte memory tables lengths (rootPtr memory (acpiScan memory)) (i + 1)
            (p2v (tables.get ⟨i, inside⟩) + BitVec.ofNat 64 (4 + x)) := .head i inside madt (4 + x) (by omega)
        rw [second]
        exact (during' within byte).mpr (reached _ _ byte)
      · obtain ⟨entry, front⟩ := (processed k).mp below
        rw [atEntry k entry] at read ⊢
        have byte : TableByte memory tables lengths (rootPtr memory (acpiScan memory)) _ _ :=
          .field i inside madt k entry front field read
        exact (during' (Nat.le_of_lt below) byte).mpr (reached _ _ byte)

end Reached

theorem exists_fuel {lengths : Word → List Nat} (formed : MadtsFormed memory tables lengths) :
    ∃ fuel, (∀ table ∈ tables, (lengths table).length ≤ fuel) ∧
      ∀ table ∈ tables, Parsed memory fuel (p2v table) := by
  have enough : ∀ table ∈ tables,
      (lengths table).length ≤ (tables.map fun table => (lengths table).length).sum := fun table member =>
    List.le_sum_of_mem (List.mem_map_of_mem member)
  exact ⟨_, enough, fun table member madt => (recordCount_formed formed enough member madt).1⟩

theorem enumerates_old_iff {lengths : Word → List Nat} (valid : ValidAcpi memory tables)
    (old : rsdpRev memory (acpiScan memory) = 0 ∨ tables = []) (formed : MadtsFormed memory tables lengths)
    (apart : IoApicsApart memory tables lengths (rootPtr memory (acpiScan memory))) :
    Enumerates memory start tables apic ↔
      TablesReached memory tables lengths (rsdtPtr memory (acpiScan memory))
        (rootPtr memory (acpiScan memory)) start := by
  obtain ⟨fuel, enough, parsed⟩ := exists_fuel formed
  obtain ⟨rounds, value, returned⟩ := exists_returned apic ((valid.parsed_iff old).mpr parsed)
  rw [enumerates_of_returned returned, and_iff_right (valid.headers_eq old)]
  exact bytesMapped_iff valid old formed apart enough

/-- A newer root table with tables in it is not enumerated: the headers go on behind the last table. -/
theorem not_enumerates_newer {lengths : Word → List Nat} (valid : ValidAcpi memory tables)
    (newer : ¬(rsdpRev memory (acpiScan memory) = 0 ∨ tables = []))
    (formed : MadtsFormed memory tables lengths) : ¬Enumerates memory start tables apic := by
  intro enumerates
  obtain ⟨fuel, _, parsed⟩ := exists_fuel formed
  have positive := List.length_pos_iff.mpr fun none => newer (Or.inr none)
  have count := valid.count
  rw [if_neg fun zero => newer (Or.inl zero)] at count
  have listed {n : Nat} (within : n ≤ tables.length)
      (parsed : ∀ j < n, Parsed memory fuel (p2v (pointerAt memory (rootTable memory) j))) :
      ((List.range' 0 (n + 1)).map fun j => p2v (pointerAt memory (rootTable memory) j)) <+:
        tables.map p2v := by
    have reached : ((List.range' 0 (n + 1)).map fun j => p2v (pointerAt memory (rootTable memory) j)) <+:
        tableHeaders (rootLoop memory fuel (rootTable memory) (n + 1) (BitVec.ofNat 64 0) (0, apic)).events :=
      headers_reached (by omega) fun j _ below => parsed j (by omega)
    refine reached.trans ?_
    rw [← tableHeaders_loop]
    exact enumerates.only (n + 1) fuel
  have all (n : Nat) (within : n ≤ tables.length) :
      ∀ j < n, Parsed memory fuel (p2v (pointerAt memory (rootTable memory) j)) := by
    induction n with
    | zero => exact fun j below => absurd below (Nat.not_lt_zero j)
    | succ n ih =>
      intro j below
      rcases Nat.lt_succ_iff_lt_or_eq.mp below with before | rfl
      · exact ih (by omega) j before
      · have here := (listed (by omega) (ih (by omega))).getElem (i := j) (by simp)
        simp only [List.getElem_map, List.getElem_range', Nat.zero_add, Nat.one_mul] at here
        rw [here]
        exact parsed _ (List.getElem_mem _)
  have tooMany := (listed (Nat.le_refl _) (all _ (Nat.le_refl _))).length_le
  rw [List.length_map, List.length_map, List.length_range'] at tooMany
  omega

/-- Memory with these bytes at physical addresses, and zero bytes elsewhere. -/
def placed : List (Word × List Byte) → Word → Byte
  | [], _ => 0
  | (start, bytes) :: regions, address =>
    match bytes[(address - p2v start).toNat]? with
    | some byte => byte
    | none => placed regions address

/-- A machine with an RSDP, an RSDT, an XSDT at 0x07FE4000, and an MADT without entries as the only
table. -/
def acpiImage (checksum rev : Byte) (rsdt : Word) : Word → Byte :=
  placed [(0xE0000, [0x52, 0x53, 0x44, 0x20, 0x50, 0x54, 0x52, 0x20, checksum, 0, 0, 0, 0, 0, 0, rev,
      rsdt.setWidth 8, (rsdt >>> 8).setWidth 8, 0xFE, 0x07, 0, 0, 0, 0, 0, 0x40, 0xFE, 0x07, 0, 0, 0, 0]),
    (rsdt, [0, 0, 0, 0, 40, 0, 0, 0]), (rsdt + 36, [0, 0x50, 0xFE, 0x07]),
    (0x07FE4000, [0, 0, 0, 0, 44, 0, 0, 0]), (0x07FE4024, [0, 0x50, 0xFE, 0x07, 0, 0, 0, 0]),
    (0x07FE5000, [0x41, 0x50, 0x49, 0x43, 44, 0, 0, 0])]

/-- What is checked of such a machine. -/
@[mk_iff]
structure ImageRight (checksum rev : Byte) (rsdt : Word) : Prop where
  signed : qwordAt (acpiImage checksum rev rsdt) (paragraph 0) = rsdpSignature
  sum : byteSum (acpiImage checksum rev rsdt) (paragraph 0) % 256 = 0
  revision : rsdpRev (acpiImage checksum rev rsdt) (paragraph 0) = rev ∧ (rev = 0 ∨ 2 ≤ rev.toNat)
  atOld : rsdtPtr (acpiImage checksum rev rsdt) (paragraph 0) = rsdt
  atNew : xsdtPtr (acpiImage checksum rev rsdt) (paragraph 0) = 0x07FE4000
  old : RootTable (acpiImage checksum rev rsdt) 4
    (fun address => (dwordAt (acpiImage checksum rev rsdt) address).setWidth 64) rsdt [0x07FE5000]
  new : RootTable (acpiImage checksum rev rsdt) 8 (qwordAt (acpiImage checksum rev rsdt)) 0x07FE4000 [0x07FE5000]
  empty : (dwordAt (acpiImage checksum rev rsdt) (p2v 0x07FE5000 + 4)).toNat = 44

instance (checksum rev : Byte) (rsdt : Word) : Decidable (ImageRight checksum rev rsdt) :=
  decidable_of_iff _ (imageRight_iff checksum rev rsdt).symm

namespace ImageRight

variable {checksum rev : Byte} {rsdt : Word}

theorem scan (right : ImageRight checksum rev rsdt) : acpiScan (acpiImage checksum rev rsdt) = paragraph 0 :=
  acpiScan_of_first (by decide) right.signed fun j impossible => absurd impossible (Nat.not_lt_zero j)

theorem rev_eq (right : ImageRight checksum rev rsdt) :
    rsdpRev (acpiImage checksum rev rsdt) (acpiScan (acpiImage checksum rev rsdt)) = rev := by
  rw [right.scan]
  exact right.revision.1

theorem rsdt_eq (right : ImageRight checksum rev rsdt) :
    rsdtPtr (acpiImage checksum rev rsdt) (acpiScan (acpiImage checksum rev rsdt)) = rsdt := by
  rw [right.scan]
  exact right.atOld

theorem valid (right : ImageRight checksum rev rsdt) :
    ValidAcpi (acpiImage checksum rev rsdt) [0x07FE5000] := by
  have rsdp : ValidRsdp (acpiImage checksum rev rsdt) (paragraph 0) :=
    (validRsdp_paragraph_iff (by decide)).mpr ⟨by decide, right.signed, (acpiChecksum_iff _ _).mpr right.sum⟩
  refine ⟨?_, ?_, ?_, fun _ => ?_, List.forall_mem_singleton.mpr (by decide)⟩
  · rw [right.scan]
    exact rsdp
  · rw [right.rev_eq]
    exact right.revision.2
  · rw [right.rsdt_eq]
    exact right.old
  · rw [right.scan, right.atNew]
    exact right.new

theorem formed (right : ImageRight checksum rev rsdt) :
    MadtsFormed (acpiImage checksum rev rsdt) [0x07FE5000] fun _ => [] :=
  List.forall_mem_singleton.mpr fun _ => ⟨⟨right.empty, by decide, fun i below => absurd below (Nat.not_lt_zero i),
    fun _ member => absurd member List.not_mem_nil, fun i below => absurd below (Nat.not_lt_zero i)⟩, by decide⟩

theorem apart (root : Word) : IoApicsApart (acpiImage checksum rev rsdt) [0x07FE5000] (fun _ => []) root :=
  fun _ _ k below => absurd below (Nat.not_lt_zero k)

end ImageRight

theorem image_one_page : ImageRight 0xCC 0 0x07FE1000 := by
  decide +kernel

theorem image_newer : ImageRight 0xCA 2 0x07FE1000 := by
  decide +kernel

theorem image_two_pages : ImageRight 0xE1 0 0x07FE1FDC := by
  decide +kernel

theorem reached_one_page : TablesReached (acpiImage 0xCC 0 0x07FE1000) [0x07FE5000] (fun _ => [])
    0x07FE1000 0x07FE1000 ⟨fun _ => False, fun _ => false⟩ := by
  intro count address byte
  cases byte with
  | length k below =>
    refine Or.inr ⟨rfl, 0x07FE1000, List.mem_cons_self, ?_⟩
    revert k
    decide
  | pointer i inside k below =>
    obtain rfl : count = 0 := Nat.lt_one_iff.mp inside
    refine Or.inr ⟨rfl, 0x07FE1000, List.mem_cons_self, ?_⟩
    revert k
    decide
  | head i inside madt k below =>
    obtain rfl : i = 0 := Nat.lt_one_iff.mp inside
    refine Or.inr ⟨rfl, 0x07FE5000, List.mem_cons_of_mem _ List.mem_cons_self, ?_⟩
    change _ = roundDown (p2v 0x07FE5000 + _) _
    clear inside madt
    revert k
    decide
  | field i inside madt k entry front field read => exact absurd entry (Nat.not_lt_zero k)

end Osdev64
