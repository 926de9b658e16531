/-
The walk of `acpi_parse_madt` through the table.

The step from record to record is a byte of the table, read as a signed `char`.
The cursor starts behind the header, and the loop stops 44 bytes in front of the
end of the table.
-/

import Osdev64.Acpi
import Osdev64.Lib.Orbit
import Mathlib.Algebra.BigOperators.Group.List.Basic

namespace Osdev64

open Word64 Bytes Orbit

variable {memory : Word → Byte} {madt : Word}

def cursor (memory : Word → Byte) (madt : Word) (k : Nat) : Word :=
  (nextRecord memory)^[k] (madt + madtHeaderSize)

/-- The loop comes to this cursor. -/
def Visited (memory : Word → Byte) (madt : Word) (k : Nat) : Prop :=
  ∀ j < k, cursor memory madt j < madtEnd memory madt

/-- The cursors at which a record is processed, in order. -/
def madtCursors (memory : Word → Byte) (fuel : Nat) (madt : Word) : Option (List Word) :=
  trace (nextRecord memory) (· < madtEnd memory madt) fuel (madt + madtHeaderSize)

theorem recordsFrom_eq (memory : Word → Byte) (stop : Word) (fuel : Nat) (entries : Word) :
    recordsFrom memory stop fuel entries =
      (trace (nextRecord memory) (· < stop) fuel entries).map (List.map (recordAt memory)) := by
  induction fuel generalizing entries with
  | zero =>
    unfold recordsFrom trace
    split <;> rfl
  | succ fuel ih =>
    unfold recordsFrom trace
    split
    · rw [ih, Option.map_map, Option.map_map]
      rfl
    · rfl

theorem acpiParseMadt_eq (memory : Word → Byte) (fuel : Nat) (madt : Word) (apic : IoApic) :
    acpiParseMadt memory fuel madt apic =
      (madtCursors memory fuel madt).map fun cursors =>
        (cursors.map (recordAt memory)).foldl MadtRecord.handle (0, apic) := by
  unfold acpiParseMadt madtCursors
  rw [parseLoop_eq, recordsFrom_eq, Option.map_map]
  rfl

theorem cursor_succ (memory : Word → Byte) (madt : Word) (k : Nat) :
    cursor memory madt (k + 1) = nextRecord memory (cursor memory madt k) :=
  Function.iterate_succ_apply' _ _ _

/-! ### Any table -/

/-- The loop ends, and no cursor is below the first record. -/
def EndsAbove (memory : Word → Byte) (madt : Word) (apic : IoApic) : Prop :=
  (∃ fuel, (acpiParseMadt memory fuel madt apic).isSome = true) ∧
    ∀ k, Visited memory madt k → madt + madtHeaderSize ≤ cursor memory madt k

theorem parser_ends_iff (apic : IoApic) :
    (∃ fuel, (acpiParseMadt memory fuel madt apic).isSome = true) ↔
      ∀ i j, i < j → Visited memory madt j → cursor memory madt i ≠ cursor memory madt j := by
  have finite : Finite Word := finite_bitVec 64
  simp only [acpiParseMadt_eq, Option.isSome_map]
  exact exists_trace_iff.trans ends_iff

def lengthAt (memory : Word → Byte) (madt : Word) (k : Nat) : Nat :=
  (memory (cursor memory madt k + 1)).toNat

theorem nextRecord_of_le {entries : Word} (positive : (memory (entries + 1)).toNat ≤ 127) :
    nextRecord memory entries = entries + BitVec.ofNat 64 (memory (entries + 1)).toNat := by
  unfold nextRecord
  have plus : (memory (entries + 1)).msb = false := by
    rw [BitVec.msb_eq_false_iff_two_mul_lt]
    omega
  rw [BitVec.signExtend_eq_setWidth_of_msb_false plus, BitVec.ofNat_toNat]

/-- Lengths between 1 and 127 are safe, as long as the cursor stays in the address space. -/
theorem endsAbove_of_lengths {apic : IoApic}
    (steps : ∀ k, Visited memory madt (k + 1) → 1 ≤ lengthAt memory madt k ∧
      lengthAt memory madt k ≤ 127 ∧ (cursor memory madt k).toNat + lengthAt memory madt k < 2 ^ 64) :
    EndsAbove memory madt apic := by
  have later {k : Nat} (visited : Visited memory madt (k + 1)) :
      cursor memory madt k < cursor memory madt (k + 1) := by
    obtain ⟨positive, small, inside⟩ := steps k visited
    unfold lengthAt at positive small inside
    rw [cursor_succ, nextRecord_of_le small, BitVec.lt_def, BitVec.toNat_add, BitVec.toNat_ofNat,
      Nat.mod_eq_of_lt (Nat.lt_of_le_of_lt small (by decide)), Nat.mod_eq_of_lt inside]
    omega
  have ordered {i j : Nat} (earlier : i < j) (visited : Visited memory madt j) :
      cursor memory madt i < cursor memory madt j := by
    induction j with
    | zero => exact absurd earlier (Nat.not_lt_zero i)
    | succ j ih =>
      rcases Nat.lt_succ_iff_lt_or_eq.mp earlier with before | rfl
      · have visitedBefore : Visited memory madt j := fun k below => visited k (Nat.lt_succ_of_lt below)
        exact BitVec.lt_trans (ih before visitedBefore) (later visited)
      · exact later visited
  refine ⟨(parser_ends_iff apic).mpr ?_, ?_⟩
  · intro i j earlier visited
    exact BitVec.ne_of_lt (ordered earlier visited)
  · intro k visited
    cases k with
    | zero => exact BitVec.le_refl _
    | succ k => exact BitVec.le_of_lt (ordered (Nat.succ_pos k) visited)

/-! The bytes of the table decide where its records are: each is as long as its length byte says. -/

/-- Where record `k` begins, counted from the header. -/
def recordOffset (memory : Word → Byte) (madt : Word) : Nat → Nat
  | 0 => 44
  | k + 1 => recordOffset memory madt k +
      (memory (madt + BitVec.ofNat 64 (recordOffset memory madt k) + 1)).toNat

def recordStart (memory : Word → Byte) (madt : Word) (k : Nat) : Word :=
  madt + BitVec.ofNat 64 (recordOffset memory madt k)

/-- The records before this one begin in front of the place where the loop stops. -/
def InFront (memory : Word → Byte) (madt : Word) (k : Nat) : Prop :=
  ∀ j < k, recordStart memory madt j < madtEnd memory madt

/-- A length that a signed byte can hold, and not 0; the record ends inside the address space. -/
structure GoodRecord (memory : Word → Byte) (madt : Word) (k : Nat) : Prop where
  positive : 1 ≤ (memory (recordStart memory madt k + 1)).toNat
  small : (memory (recordStart memory madt k + 1)).toNat ≤ 127
  inside : (recordStart memory madt k).toNat + (memory (recordStart memory madt k + 1)).toNat < 2 ^ 64

theorem recordStart_succ (memory : Word → Byte) (madt : Word) (k : Nat) :
    recordStart memory madt (k + 1) =
      recordStart memory madt k + BitVec.ofNat 64 (memory (recordStart memory madt k + 1)).toNat := by
  unfold recordStart
  rw [recordOffset, BitVec.ofNat_add]
  exact (BitVec.add_assoc ..).symm

theorem cursor_of_good {k : Nat} (good : ∀ j < k, GoodRecord memory madt j) {j : Nat} (within : j ≤ k) :
    cursor memory madt j = recordStart memory madt j := by
  induction j with
  | zero => rfl
  | succ j ih =>
    rw [cursor_succ, ih (Nat.le_of_succ_le within), nextRecord_of_le (good j within).small,
      recordStart_succ]

theorem visited_of_good {k : Nat} (good : ∀ j < k, GoodRecord memory madt j) :
    Visited memory madt (k + 1) ↔ InFront memory madt (k + 1) := by
  refine forall₂_congr fun j below => ?_
  rw [cursor_of_good good (Nat.le_of_lt_succ below)]

/-- The first record that is not good does not lead back into the table. -/
def NoWayBack (memory : Word → Byte) (madt : Word) : Prop :=
  ∀ k, InFront memory madt (k + 1) → (∀ j < k, GoodRecord memory madt j) → ¬GoodRecord memory madt k →
    (memory (recordStart memory madt k + 1)).toNat = 0 ∨
      nextRecord memory (recordStart memory madt k) < madt + madtHeaderSize

/-- Such a record of length 0 is processed for ever, and another one takes the cursor to below the first
entry. -/
theorem not_endsAbove_of_bad {apic : IoApic} {k : Nat} (front : InFront memory madt (k + 1))
    (good : ∀ j < k, GoodRecord memory madt j)
    (leads : (memory (recordStart memory madt k + 1)).toNat = 0 ∨
      nextRecord memory (recordStart memory madt k) < madt + madtHeaderSize) :
    ¬EndsAbove memory madt apic := by
  rintro ⟨ends, above⟩
  have here := cursor_of_good good (Nat.le_refl k)
  have visited := (visited_of_good good).mpr front
  rcases leads with zero | below
  · refine (parser_ends_iff apic).mp ends k (k + 1) (Nat.lt_succ_self k) visited ?_
    rw [cursor_succ, here, nextRecord_of_le (by omega), zero, BitVec.add_zero]
  · have lowest := above (k + 1) visited
    rw [cursor_succ, here, BitVec.le_def] at lowest
    rw [BitVec.lt_def] at below
    omega

def lapicBytes : List Byte := [0, 8, 0, 0, 1, 0, 0, 0]

/-- The size of the structure of a type; an entry of another type has its two first bytes. -/
def entrySize (type : Byte) : Nat :=
  if type = 0 then 8 else if type = 1 then 12 else if type = 2 then 7 else if type = 9 then 16 else 2

/-- The address of entry `i`, behind the header and the entries before. -/
def entryAddress (madt : Word) (lengths : List Nat) (i : Nat) : Word :=
  madt + BitVec.ofNat 64 (44 + (lengths.take i).sum)

def entryAddresses (madt : Word) (lengths : List Nat) : List Word :=
  (List.range lengths.length).map (entryAddress madt lengths)

/-- A table whose entries have these lengths, somewhere in the address space. -/
structure WellFormedMadt (memory : Word → Byte) (madt : Word) (lengths : List Nat) : Prop where
  length : (dwordAt memory (madt + 4)).toNat = 44 + lengths.sum
  inside : madt.toNat + 44 + lengths.sum ≤ 2 ^ 64
  bytes : ∀ i (below : i < lengths.length),
    (memory (entryAddress madt lengths i + 1)).toNat = lengths.get ⟨i, below⟩
  range : ∀ length ∈ lengths, 2 ≤ length ∧ length ≤ 127
  sizes : ∀ i (below : i < lengths.length),
    entrySize (memory (entryAddress madt lengths i)) ≤ lengths.get ⟨i, below⟩

/-- Entries of a processor. -/
def isProcessor (type : Byte) : Bool := type = 0 || type = 9

/-- Every entry is processed once, in order, and the entries of processors are counted. -/
def SeesEveryEntry (memory : Word → Byte) (madt : Word) (lengths : List Nat) : Prop :=
  ∃ fuel, madtCursors memory fuel madt = some (entryAddresses madt lengths) ∧
    ∀ apic, acpiParseMadt memory fuel madt apic = some
      ((entryAddresses madt lengths).countP fun entry => isProcessor (memory entry),
        (((entryAddresses madt lengths).map (recordAt memory)).foldl MadtRecord.handle (0, apic)).2)

theorem count_handle (records : List MadtRecord) (state : Nat × IoApic) :
    (records.foldl MadtRecord.handle state).1 =
      state.1 + records.countP fun record => record = .lapic || record = .x2apic := by
  induction records generalizing state with
  | nil => rfl
  | cons record records ih =>
    rw [List.foldl_cons, ih, List.countP_cons]
    cases record with
    | lapic => simp [MadtRecord.handle]; omega
    | x2apic => simp [MadtRecord.handle]; omega
    | ioapic address => simp [MadtRecord.handle]
    | iso irqSrc gsi => simp [MadtRecord.handle]
    | unsupported type => simp [MadtRecord.handle]

theorem recordAt_isProcessor (memory : Word → Byte) (entry : Word) :
    (recordAt memory entry = .lapic || recordAt memory entry = .x2apic) = isProcessor (memory entry) := by
  unfold recordAt isProcessor
  by_cases lapic : memory entry = 0
  · simp [lapic]
  by_cases ioapic : memory entry = 1
  · simp [ioapic]
  by_cases iso : memory entry = 2
  · simp [iso]
  by_cases x2apic : memory entry = 9
  · simp [x2apic]
  · rw [if_neg lapic, if_neg ioapic, if_neg iso, if_neg x2apic, decide_eq_false lapic,
      decide_eq_false x2apic]
    rfl

theorem acpiParseMadt_of_cursors {fuel : Nat} {cursors : List Word}
    (visited : madtCursors memory fuel madt = some cursors) (apic : IoApic) :
    acpiParseMadt memory fuel madt apic = some
      (cursors.countP fun entry => isProcessor (memory entry),
        ((cursors.map (recordAt memory)).foldl MadtRecord.handle (0, apic)).2) := by
  rw [acpiParseMadt_eq, visited, Option.map_some]
  refine congrArg some (Prod.ext ?_ rfl)
  rw [count_handle, List.countP_map, Nat.zero_add]
  exact List.countP_congr fun entry _ => by rw [← recordAt_isProcessor]; rfl

namespace WellFormedMadt

variable {lengths : List Nat}

theorem cursor_eq (table : WellFormedMadt memory madt lengths) {i : Nat} (within : i ≤ lengths.length) :
    cursor memory madt i = entryAddress madt lengths i := by
  induction i with
  | zero => rfl
  | succ i ih =>
    have here := table.bytes i within
    have small := (table.range _ (List.get_mem lengths ⟨i, within⟩)).2
    rw [cursor_succ, ih (Nat.le_of_lt within), nextRecord_of_le (by omega), here]
    unfold entryAddress
    rw [List.sum_take_succ lengths i within, BitVec.add_assoc, ← BitVec.ofNat_add, Nat.add_assoc]
    rfl

theorem end_toNat (table : WellFormedMadt memory madt lengths) :
    (madtEnd memory madt).toNat = madt.toNat + lengths.sum := by
  have inside := table.inside
  have word := (dwordAt memory (madt + 4)).isLt
  have length : (dwordAt memory (madt + 4)).setWidth 64 - madtHeaderSize = BitVec.ofNat 64 lengths.sum := by
    apply BitVec.eq_of_toNat_eq
    rw [BitVec.toNat_sub, BitVec.toNat_setWidth, table.length, BitVec.toNat_ofNat]
    change (2 ^ 64 - 44 + _) % 2 ^ 64 = _
    omega
  unfold madtEnd
  rw [length, BitVec.toNat_add, BitVec.toNat_ofNat]
  omega

theorem sum_take_lt (table : WellFormedMadt memory madt lengths) {i : Nat} (below : i < lengths.length) :
    (lengths.take i).sum + 2 ≤ lengths.sum := by
  have whole := congrArg List.sum (List.take_append_drop (i + 1) lengths)
  have long := (table.range _ (List.get_mem lengths ⟨i, below⟩)).1
  have next := List.sum_take_succ lengths i below
  rw [List.sum_append] at whole
  change 2 ≤ lengths[i] at long
  omega

theorem below_end_iff (table : WellFormedMadt memory madt lengths) {i : Nat} (below : i < lengths.length) :
    cursor memory madt i < madtEnd memory madt ↔ 44 + (lengths.take i).sum < lengths.sum := by
  have inside := table.inside
  have less := table.sum_take_lt below
  rw [table.cursor_eq (Nat.le_of_lt below), BitVec.lt_def, table.end_toNat, entryAddress,
    BitVec.toNat_add, BitVec.toNat_ofNat]
  omega

theorem stops_iff (table : WellFormedMadt memory madt lengths) :
    ¬cursor memory madt lengths.length < madtEnd memory madt ↔
      madt.toNat + 44 + lengths.sum < 2 ^ 64 := by
  have inside := table.inside
  have header := madt.isLt
  rw [table.cursor_eq (Nat.le_refl _), BitVec.lt_def, table.end_toNat, entryAddress, List.take_length,
    BitVec.toNat_add, BitVec.toNat_ofNat]
  omega

theorem visited_iff (table : WellFormedMadt memory madt lengths) :
    Visited memory madt lengths.length ↔ ∀ last ∈ lengths.getLast?, 44 < last := by
  rcases List.eq_nil_or_concat' lengths with rfl | ⟨front, last, rfl⟩
  · exact iff_of_true (fun j below => absurd below (Nat.not_lt_zero j)) (by simp)
  · have whole : (front ++ [last]).sum = front.sum + last := List.sum_append.trans (by simp)
    have length : (front ++ [last]).length = front.length + 1 := List.length_append
    have lastOnly : (∀ other ∈ (front ++ [last]).getLast?, 44 < other) ↔ 44 < last := by
      simp
    rw [lastOnly]
    constructor
    · intro visited
      have here := (table.below_end_iff (by omega)).mp (visited front.length (by omega))
      rw [List.take_left, whole] at here
      omega
    · intro long j below
      apply (table.below_end_iff below).mpr
      have split := congrArg List.sum (List.take_append_drop j front)
      rw [List.sum_append] at split
      rw [List.take_append_of_le_length (by omega), whole]
      omega

theorem exists_cursors (table : WellFormedMadt memory madt lengths)
    (strict : madt.toNat + 44 + lengths.sum < 2 ^ 64) {fuel : Nat} (enough : lengths.length ≤ fuel) :
    ∃ count, (∀ k, k < count ↔ k < lengths.length ∧ 44 + (lengths.take k).sum < lengths.sum) ∧
      madtCursors memory fuel madt =
        some (List.iterate (nextRecord memory) (madt + madtHeaderSize) count) := by
  have stops : ∃ k, ¬(k < lengths.length ∧ 44 + (lengths.take k).sum < lengths.sum) :=
    ⟨lengths.length, fun front => Nat.lt_irrefl _ front.1⟩
  have grows {j k : Nat} (le : j ≤ k) : (lengths.take j).sum ≤ (lengths.take k).sum := by
    have split := congrArg List.sum (List.take_append_drop j (lengths.take k))
    rw [List.sum_append, List.take_take, Nat.min_eq_left le] at split
    omega
  have before {k : Nat} : k < Nat.find stops ↔
      k < lengths.length ∧ 44 + (lengths.take k).sum < lengths.sum := by
    constructor
    · intro earlier
      exact not_not.mp (Nat.find_min stops earlier)
    · intro front
      by_contra later
      have further := grows (Nat.le_of_not_lt later)
      exact Nat.find_spec stops ⟨by omega, by omega⟩
  have within : Nat.find stops ≤ lengths.length := Nat.find_min' stops fun front => Nat.lt_irrefl _ front.1
  refine ⟨Nat.find stops, fun k => before, trace_eq_some_iff.mpr ?_⟩
  rw [List.length_iterate]
  refine ⟨by omega, rfl, fun k below => ?_, ?_⟩
  · exact (table.below_end_iff (before.mp below).1).mpr (before.mp below).2
  · change ¬cursor memory madt (Nat.find stops) < madtEnd memory madt
    rcases Nat.eq_or_lt_of_le within with last | inner
    · rw [last]
      exact table.stops_iff.mpr strict
    · rw [table.below_end_iff inner]
      exact fun front => Nat.find_spec stops ⟨inner, front⟩

theorem madtCursors_iff (table : WellFormedMadt memory madt lengths) :
    (∃ fuel, madtCursors memory fuel madt = some (entryAddresses madt lengths)) ↔
      (∀ last ∈ lengths.getLast?, 44 < last) ∧ madt.toNat + 44 + lengths.sum < 2 ^ 64 := by
  have length : (entryAddresses madt lengths).length = lengths.length := by
    unfold entryAddresses
    rw [List.length_map, List.length_range]
  have addresses : entryAddresses madt lengths =
      List.iterate (nextRecord memory) (madt + madtHeaderSize) lengths.length := by
    rw [← List.range_map_iterate]
    refine List.map_congr_left fun i member => ?_
    exact (table.cursor_eq (Nat.le_of_lt (List.mem_range.mp member))).symm
  rw [← table.visited_iff, ← table.stops_iff]
  unfold madtCursors
  simp only [trace_eq_some_iff, length]
  constructor
  · rintro ⟨fuel, -, -, visits, stops⟩
    exact ⟨visits, stops⟩
  · rintro ⟨visits, stops⟩
    exact ⟨lengths.length, Nat.le_refl _, addresses, visits, stops⟩

end WellFormedMadt

/-- All entries are seen exactly when the last one is longer than the header, and the table does not
end with the address space. -/
theorem seesEveryEntry_iff (memory : Word → Byte) (madt : Word) (lengths : List Nat)
    (table : WellFormedMadt memory madt lengths) :
    SeesEveryEntry memory madt lengths ↔
      (∀ last ∈ lengths.getLast?, 44 < last) ∧ madt.toNat + 44 + lengths.sum < 2 ^ 64 := by
  rw [← table.madtCursors_iff]
  constructor
  · rintro ⟨fuel, visited, -⟩
    exact ⟨fuel, visited⟩
  · rintro ⟨fuel, visited⟩
    exact ⟨fuel, visited, acpiParseMadt_of_cursors visited⟩

theorem wellFormed_reserved : WellFormedMadt (madtMemory (lapicBytes ++ reservedBytes)) 0 [8, 45] :=
  ⟨by decide, by decide, by decide, by decide, by decide⟩

theorem wellFormed_lapic : WellFormedMadt (madtMemory lapicBytes) 0 [8] :=
  ⟨by decide, by decide, by decide, by decide, by decide⟩

theorem seesEveryEntry_reserved :
    WellFormedMadt (madtMemory (lapicBytes ++ reservedBytes)) 0 [8, 45] ∧
      SeesEveryEntry (madtMemory (lapicBytes ++ reservedBytes)) 0 [8, 45] :=
  ⟨wellFormed_reserved, (seesEveryEntry_iff _ _ _ wellFormed_reserved).mpr ⟨by decide, by decide⟩⟩

/-- The only processor of a table is not seen. -/
theorem only_processor_missed :
    WellFormedMadt (madtMemory lapicBytes) 0 [8] ∧ ¬SeesEveryEntry (madtMemory lapicBytes) 0 [8] := by
  refine ⟨wellFormed_lapic, ?_⟩
  rintro ⟨fuel, visited, -⟩
  have long := (wellFormed_lapic.madtCursors_iff.mp ⟨fuel, visited⟩).1 8 rfl
  exact absurd long (by decide)

end Osdev64
