/-
The root table, as `acpi_init` goes through it.

The loop reads its pointers 32 bits wide, in the RSDT and in the XSDT.  Of each
table one page is mapped, the one its first byte is in, and of the root tables only
that of the RSDT.  A call for an address of two gigabytes or more, as those for the
I/O APIC mostly are, takes the page of an address below it.
-/

import Osdev64.AcpiInit

namespace Osdev64

open Word64 Bytes Orbit Log

variable {memory : Word → Byte} {madt r : Word} {fuel rounds : Nat} {state : Nat × IoApic}

/-! ### Runs with more fuel -/

theorem parseReport_cut (memory : Word → Byte) (madt : Word) {fuel fuel' : Nat} (less : fuel ≤ fuel')
    (entries : Word) (state : Nat × IoApic) :
    Cut (parseReport memory madt fuel entries state) (parseReport memory madt fuel' entries state) := by
  induction fuel generalizing fuel' entries state with
  | zero =>
    cases fuel' with
    | zero => exact .refl _
    | succ fuel' =>
      unfold parseReport
      refine Cut.andThen (.refl _) fun _ => ?_
      split
      · exact cut_stop _
      · exact .refl _
  | succ fuel ih =>
    obtain ⟨more, rfl⟩ : ∃ more, fuel' = more + 1 := ⟨fuel' - 1, by omega⟩
    unfold parseReport
    refine Cut.andThen (.refl _) fun _ => ?_
    split
    · exact Cut.andThen (.refl _) fun _ => ih (Nat.le_of_succ_le_succ less) _ _
    · exact .refl _

theorem examineEntry_cut (memory : Word → Byte) {fuel fuel' : Nat} (less : fuel ≤ fuel') (entry : Word)
    (state : Nat × IoApic) :
    Cut (examineEntry memory fuel entry state) (examineEntry memory fuel' entry state) := by
  unfold examineEntry
  refine Cut.andThen (.refl _) fun _ => ?_
  split
  · exact parseReport_cut memory entry less _ _
  · exact .refl _

theorem rootLoop_cut (memory : Word → Byte) (r : Word) {fuel fuel' rounds rounds' : Nat}
    (less : fuel ≤ fuel') (fewer : rounds ≤ rounds') (i : Word) (state : Nat × IoApic) :
    Cut (rootLoop memory fuel r rounds i state) (rootLoop memory fuel' r rounds' i state) := by
  induction rounds generalizing rounds' i state with
  | zero =>
    unfold rootLoop
    exact cut_stop _
  | succ rounds ih =>
    obtain ⟨more, rfl⟩ : ∃ more, rounds' = more + 1 := ⟨rounds' - 1, by omega⟩
    unfold rootLoop
    refine Cut.andThen (.refl _) fun _ => ?_
    split
    · refine Cut.andThen (.refl _) fun _ => ?_
      refine Cut.andThen (.refl _) fun _ => ?_
      exact Cut.andThen (examineEntry_cut memory less _ _) fun state =>
        ih (Nat.le_of_succ_le_succ fewer) _ state
    · exact .refl _

theorem acpiInit_cut (memory : Word → Byte) (apic : IoApic) {fuel fuel' rounds rounds' : Nat}
    (less : fuel ≤ fuel') (fewer : rounds ≤ rounds') :
    Cut (acpiInit memory rounds fuel apic) (acpiInit memory rounds' fuel' apic) := by
  unfold acpiInit
  refine Cut.andThen (.refl _) fun _ => ?_
  exact Cut.andThen (.refl _) fun _ => rootLoop_cut memory _ less fewer _ _

theorem acpiInit_starts {apic : IoApic} {value : Nat × IoApic}
    (returned : (acpiInit memory rounds fuel apic).result = some value) (rounds' fuel' : Nat) :
    (acpiInit memory rounds' fuel' apic).events <+: (acpiInit memory rounds fuel apic).events := by
  have whole := (acpiInit_cut memory apic (Nat.le_max_left fuel fuel')
    (Nat.le_max_left rounds rounds')).eq_of_some returned
  rw [whole]
  exact (acpiInit_cut memory apic (Nat.le_max_right fuel fuel') (Nat.le_max_right rounds rounds')).events

/-! ### The rounds of the parser -/

theorem acpiParseReport_result (memory : Word → Byte) (fuel : Nat) (madt : Word) (apic : IoApic) :
    (acpiParseReport memory fuel madt apic).result = acpiParseMadt memory fuel madt apic :=
  parseReport_result memory madt fuel _ _

def parseRound (memory : Word → Byte) (madt entries : Word) : List AcpiEvent :=
  reads .madt (madt + 4) 4 ++ recordEvents memory entries

theorem parseReport_events {entries : Word} {count : Nat} (inTime : count ≤ fuel)
    (visits : Visits (nextRecord memory) (· < madtEnd memory madt) entries count)
    (stops : ¬(nextRecord memory)^[count] entries < madtEnd memory madt) :
    (parseReport memory madt fuel entries state).events =
      ((List.range count).flatMap fun k => parseRound memory madt ((nextRecord memory)^[k] entries)) ++
        reads .madt (madt + 4) 4 := by
  induction count generalizing fuel entries state with
  | zero =>
    change ¬entries < madtEnd memory madt at stops
    cases fuel with
    | zero =>
      unfold parseReport
      rw [tell_andThen, if_neg stops]
      exact List.append_nil _
    | succ fuel =>
      unfold parseReport
      rw [tell_andThen, if_neg stops]
      exact List.append_nil _
  | succ count ih =>
    obtain ⟨more, rfl⟩ : ∃ more, fuel = more + 1 := ⟨fuel - 1, by omega⟩
    obtain ⟨go, later⟩ := visits_succ_iff.mp visits
    rw [parseReport, tell_andThen, if_pos go, tell_andThen, List.range_succ_eq_map, List.flatMap_cons,
      List.flatMap_map, ih (Nat.le_of_succ_le_succ inTime) later stops]
    unfold parseRound
    simp only [List.append_assoc]
    rfl

def recordCount (memory : Word → Byte) (fuel : Nat) (madt : Word) : Nat :=
  ((madtCursors memory fuel madt).getD []).length

theorem acpiParseReport_events {apic : IoApic} (returned : (madtCursors memory fuel madt).isSome = true) :
    (acpiParseReport memory fuel madt apic).events =
      ((List.range (recordCount memory fuel madt)).flatMap fun k =>
        parseRound memory madt (cursor memory madt k)) ++ reads .madt (madt + 4) 4 := by
  obtain ⟨cursors, traced⟩ := Option.isSome_iff_exists.mp returned
  obtain ⟨inTime, -, visits, stops⟩ := trace_eq_some_iff.mp traced
  unfold recordCount
  rw [traced]
  exact parseReport_events inTime visits stops

/-! ### The rounds of the loop -/

/-- The parser returns, if the table is for it. -/
def Parsed (memory : Word → Byte) (fuel : Nat) (entry : Word) : Prop :=
  isMadt memory entry = true → (madtCursors memory fuel entry).isSome = true

theorem examineEntry_isSome_iff {entry : Word} :
    (examineEntry memory fuel entry state).result.isSome = true ↔ Parsed memory fuel entry := by
  unfold examineEntry Parsed
  rw [tell_andThen]
  split
  · rename_i isTable
    rw [acpiParseReport_result, acpiParseMadt_eq, Option.isSome_map]
    exact ⟨fun returned _ => returned, fun returned => returned isTable⟩
  · rename_i other
    exact iff_of_true rfl fun isTable => absurd isTable other

def entryEvents (memory : Word → Byte) (fuel : Nat) (entry : Word) : List AcpiEvent :=
  if isMadt memory entry then
    reads .madt entry 4 ++ (((List.range (recordCount memory fuel entry)).flatMap fun k =>
      parseRound memory entry (cursor memory entry k)) ++ reads .madt (entry + 4) 4)
  else reads .other entry 4

theorem examineEntry_events {entry : Word} (parsed : Parsed memory fuel entry) :
    (examineEntry memory fuel entry state).events = entryEvents memory fuel entry := by
  unfold examineEntry entryEvents
  rw [tell_andThen]
  split
  · rename_i isTable
    rw [acpiParseReport_events (parsed isTable)]
  · exact List.append_nil _

/-- The number of pointers the loop takes from the root table. -/
def tableCount (memory : Word → Byte) (r : Word) : Nat :=
  (((dwordAt memory (r + 4)).setWidth 64 - acpiHeaderSize) / 4).toNat

/-- The address of a pointer, and the pointer. -/
def pointerAddress (r : Word) (i : Nat) : Word := r + acpiHeaderSize + BitVec.ofNat 64 i * 4

def pointerAt (memory : Word → Byte) (r : Word) (i : Nat) : Word := tablePtr memory r (BitVec.ofNat 64 i)

/-- What happens in a round before the entry is examined. -/
def roundHead (memory : Word → Byte) (r : Word) (i : Nat) : List AcpiEvent :=
  reads .root (r + 4) 4 ++ (reads .root (pointerAddress r i) 4 ++
    [mapTable (pointerAt memory r i), .header (p2v (pointerAt memory r i))])

def roundEvents (memory : Word → Byte) (fuel : Nat) (r : Word) (i : Nat) : List AcpiEvent :=
  roundHead memory r i ++ entryEvents memory fuel (p2v (pointerAt memory r i))

theorem index_lt_iff {i : Nat} (within : i ≤ tableCount memory r) :
    BitVec.ofNat 64 i < ((dwordAt memory (r + 4)).setWidth 64 - acpiHeaderSize) / 4 ↔
      i < tableCount memory r := by
  have small : i < 2 ^ 64 := Nat.lt_of_le_of_lt within (BitVec.isLt _)
  rw [BitVec.lt_def, BitVec.toNat_ofNat, Nat.mod_eq_of_lt small]
  rfl

theorem rootLoop_of_lt {i : Nat} (below : i < tableCount memory r) :
    rootLoop memory fuel r (rounds + 1) (BitVec.ofNat 64 i) state =
      tell (roundHead memory r i) >>= fun _ =>
        examineEntry memory fuel (p2v (pointerAt memory r i)) state >>=
          rootLoop memory fuel r rounds (BitVec.ofNat 64 (i + 1)) := by
  rw [rootLoop, tell_andThen, if_pos ((index_lt_iff (Nat.le_of_lt below)).mpr below), tell_andThen,
    tell_andThen, tell_andThen, BitVec.ofNat_add]
  unfold roundHead pointerAt pointerAddress
  simp only [List.append_assoc]
  rfl

theorem rootLoop_of_eq {i : Nat} (last : i = tableCount memory r) :
    rootLoop memory fuel r (rounds + 1) (BitVec.ofNat 64 i) state =
      ⟨reads .root (r + 4) 4, some state⟩ := by
  rw [rootLoop, tell_andThen, if_neg (mt (index_lt_iff (Nat.le_of_eq last)).mp (by omega))]
  exact congrArg (Log.mk · (some state)) (List.append_nil _)

/-- A run that returned has parsed every MADT from here on, and went through all the rounds. -/
theorem rootLoop_returned {i : Nat} {value : Nat × IoApic} (within : i ≤ tableCount memory r)
    (returned : (rootLoop memory fuel r rounds (BitVec.ofNat 64 i) state).result = some value) :
    (∀ j, i ≤ j → j < tableCount memory r → Parsed memory fuel (p2v (pointerAt memory r j))) ∧
      (rootLoop memory fuel r rounds (BitVec.ofNat 64 i) state).events =
        (List.range' i (tableCount memory r - i)).flatMap (roundEvents memory fuel r) ++
          reads .root (r + 4) 4 := by
  induction rounds generalizing i state with
  | zero => cases returned
  | succ rounds ih =>
    rcases Nat.eq_or_lt_of_le within with last | below
    · rw [rootLoop_of_eq last, last, Nat.sub_self]
      exact ⟨fun j from' below => absurd below (Nat.not_lt_of_le from'), rfl⟩
    · rw [rootLoop_of_lt below, tell_andThen] at returned ⊢
      cases examined : (examineEntry memory fuel (p2v (pointerAt memory r i)) state).result with
      | none =>
        rw [andThen_of_none examined] at returned
        cases returned
      | some next =>
        have parsed := examineEntry_isSome_iff.mp (Option.isSome_of_eq_some examined)
        rw [andThen_of_some examined] at returned ⊢
        obtain ⟨later, events⟩ := ih below returned
        constructor
        · intro j from' inside
          rcases Nat.eq_or_lt_of_le from' with rfl | after
          · exact parsed
          · exact later j after inside
        · rw [events, examineEntry_events parsed,
            show tableCount memory r - i = tableCount memory r - (i + 1) + 1 by omega,
            List.range'_succ, List.flatMap_cons, roundEvents]
          simp only [List.append_assoc]

theorem returns_of_parsed {i : Nat} (within : i ≤ tableCount memory r)
    (parsed : ∀ j, i ≤ j → j < tableCount memory r → Parsed memory fuel (p2v (pointerAt memory r j))) :
    (rootLoop memory fuel r (tableCount memory r - i + 1) (BitVec.ofNat 64 i) state).result.isSome = true := by
  induction left : tableCount memory r - i generalizing i state with
  | zero =>
    rw [rootLoop_of_eq (by omega)]
    rfl
  | succ left' ih =>
    have below : i < tableCount memory r := by omega
    have returns : (examineEntry memory fuel (p2v (pointerAt memory r i)) state).result.isSome = true :=
      examineEntry_isSome_iff.mpr (parsed i (Nat.le_refl i) below)
    obtain ⟨next, examined⟩ := Option.isSome_iff_exists.mp returns
    rw [rootLoop_of_lt below, tell_andThen, andThen_of_some examined]
    exact ih below (fun j from' => parsed j (Nat.le_of_succ_le from')) (by omega)

/-! ### Headers -/

def AcpiEvent.examined : AcpiEvent → Option Word
  | .header entry => some entry
  | _ => none

def tableHeaders (events : List AcpiEvent) : List Word := events.filterMap AcpiEvent.examined

theorem tableHeaders_append (events more : List AcpiEvent) :
    tableHeaders (events ++ more) = tableHeaders events ++ tableHeaders more := List.filterMap_append

theorem tableHeaders_flatMap {α : Type} (items : List α) (events : α → List AcpiEvent) :
    tableHeaders (items.flatMap events) = items.flatMap fun item => tableHeaders (events item) :=
  List.filterMap_flatMap

theorem tableHeaders_map {α : Type} {event : α → AcpiEvent} (none : ∀ item, (event item).examined = .none)
    (items : List α) : tableHeaders (items.map event) = [] := by
  unfold tableHeaders
  rw [List.filterMap_map]
  exact List.filterMap_eq_nil_iff.mpr fun item _ => none item

theorem tableHeaders_reads (source : AcpiSource) (address : Word) (count : Nat) :
    tableHeaders (reads source address count) = [] := tableHeaders_map (fun _ => rfl) _

theorem tableHeaders_parseRound (memory : Word → Byte) (madt entries : Word) :
    tableHeaders (parseRound memory madt entries) = [] := by
  unfold parseRound recordEvents recordReads
  rw [tableHeaders_append, tableHeaders_append, tableHeaders_reads, tableHeaders_map fun _ => rfl,
    tableHeaders_map fun _ => rfl]
  rfl

theorem tableHeaders_entryEvents (memory : Word → Byte) (fuel : Nat) (entry : Word) :
    tableHeaders (entryEvents memory fuel entry) = [] := by
  unfold entryEvents
  split
  · simp only [tableHeaders_append, tableHeaders_flatMap, tableHeaders_reads, tableHeaders_parseRound]
    simp
  · exact tableHeaders_reads _ _ _

theorem tableHeaders_roundHead (memory : Word → Byte) (r : Word) (i : Nat) :
    tableHeaders (roundHead memory r i) = [p2v (pointerAt memory r i)] := by
  unfold roundHead
  rw [tableHeaders_append, tableHeaders_append, tableHeaders_reads, tableHeaders_reads]
  rfl

theorem tableHeaders_roundEvents (memory : Word → Byte) (fuel : Nat) (r : Word) (i : Nat) :
    tableHeaders (roundEvents memory fuel r i) = [p2v (pointerAt memory r i)] := by
  unfold roundEvents
  rw [tableHeaders_append, tableHeaders_roundHead, tableHeaders_entryEvents]
  rfl

theorem tableHeaders_assert (memory : Word → Byte) (rsdp : Word) :
    tableHeaders (if acpiChecksum memory rsdp = 0 then [] else [.assertFailed]) = [] := by
  split <;> rfl

/-! ### Pages -/

/-- What matters of the page tables. -/
structure AcpiPages where
  /-- The pages that are mapped to the frame that holds what is meant to be in them. -/
  mapped : Word → Prop
  /-- The pages that are part of one of two megabytes: `mmu_map_page` leaves them alone. -/
  large : Word → Bool

def AcpiEvent.remap (pages : AcpiPages) : AcpiEvent → AcpiPages
  | .map frame address =>
    { pages with mapped := fun page =>
        if page = roundDown address pageSize ∧ pages.large page = false then frame = v2p page
        else pages.mapped page }
  | _ => pages

/-- A byte of the root table or of an MADT is read from a page that is mapped. -/
def AcpiEvent.reached (pages : AcpiPages) : AcpiEvent → Prop
  | .read .root address => pages.mapped (roundDown address pageSize)
  | .read .madt address => pages.mapped (roundDown address pageSize)
  | _ => True

/-- Each of these bytes is in such a page when it is read. -/
def ReadsMapped (pages : AcpiPages) (events : List AcpiEvent) : Prop :=
  Obeys AcpiEvent.reached AcpiEvent.remap pages events

/-- The page tables after a call for this physical address. -/
def callPages (pages : AcpiPages) (call : Word) : AcpiPages :=
  { pages with mapped := fun page =>
      if page = roundDown (p2v call) pageSize ∧ pages.large page = false then
        roundDown call pageSize = v2p page
      else pages.mapped page }

def afterCalls (start : AcpiPages) (calls : List Word) : AcpiPages := calls.foldl callPages start

/-- The calls among the events are for these addresses. -/
def HasCalls (events : List AcpiEvent) (calls : List Word) : Prop :=
  ∀ pages, events.foldl AcpiEvent.remap pages = calls.foldl callPages pages

variable {pages start : AcpiPages} {events more : List AcpiEvent} {calls calls' : List Word}

theorem HasCalls.append (first : HasCalls events calls) (second : HasCalls more calls') :
    HasCalls (events ++ more) (calls ++ calls') := by
  intro pages
  rw [List.foldl_append, List.foldl_append, first, second]

theorem HasCalls.loop {round : Nat → List AcpiEvent} {calls : Nat → List Word}
    (each : ∀ k, HasCalls (round k) (calls k)) (count : Nat) :
    HasCalls ((List.range count).flatMap round) ((List.range count).flatMap calls) := by
  induction count with
  | zero => exact fun pages => rfl
  | succ count ih =>
    rw [List.range_succ, List.flatMap_append, List.flatMap_append, List.flatMap_singleton,
      List.flatMap_singleton]
    exact ih.append (each count)

theorem HasCalls.after (has : HasCalls events calls') :
    events.foldl AcpiEvent.remap (afterCalls start calls) = afterCalls start (calls ++ calls') := by
  unfold afterCalls
  rw [has, List.foldl_append]

theorem hasCalls_reads (source : AcpiSource) (address : Word) (count : Nat) :
    HasCalls (reads source address count) [] := by
  intro pages
  unfold reads
  rw [List.foldl_map]
  exact List.foldl_fixed _

theorem hasCalls_mapTable (table : Word) : HasCalls [mapTable table] [table] := by
  intro pages
  have again : roundDown (roundDown (p2v table) pageSize) pageSize = roundDown (p2v table) pageSize := by
    apply BitVec.eq_of_toNat_eq
    rw [roundDown_page, roundDown_page]
    omega
  change AcpiPages.mk (fun page =>
    if page = roundDown (roundDown (p2v table) pageSize) pageSize ∧ _ then _ else _) _ = _
  rw [again]
  rfl

theorem hasCalls_recordEvents (memory : Word → Byte) (entries : Word) :
    HasCalls (recordEvents memory entries) (recordCalls memory entries) := by
  intro pages
  unfold recordEvents recordReads
  rw [List.foldl_append, List.foldl_map, List.foldl_map]
  exact congrArg (List.foldl _ · _) (List.foldl_fixed _)

theorem hasCalls_parseRound (memory : Word → Byte) (madt entries : Word) :
    HasCalls (parseRound memory madt entries) (recordCalls memory entries) :=
  (hasCalls_reads _ _ _).append (hasCalls_recordEvents memory entries)

/-- The calls for the records of an MADT up to one of them. -/
def madtCalls (memory : Word → Byte) (madt : Word) (k : Nat) : List Word :=
  (List.range k).flatMap fun j => recordCalls memory (cursor memory madt j)

/-- The calls that examining an entry leads to. -/
def entryCalls (memory : Word → Byte) (fuel : Nat) (entry : Word) : List Word :=
  if isMadt memory entry then madtCalls memory entry (recordCount memory fuel entry) else []

theorem hasCalls_entryEvents (memory : Word → Byte) (fuel : Nat) (entry : Word) :
    HasCalls (entryEvents memory fuel entry) (entryCalls memory fuel entry) := by
  unfold entryEvents entryCalls
  split
  · have records := HasCalls.loop (fun k => hasCalls_parseRound memory entry (cursor memory entry k))
      (recordCount memory fuel entry)
    have all := (hasCalls_reads .madt entry 4).append (records.append (hasCalls_reads .madt (entry + 4) 4))
    rw [List.append_nil] at all
    exact all
  · exact hasCalls_reads _ _ _

theorem hasCalls_roundHead (memory : Word → Byte) (r : Word) (i : Nat) :
    HasCalls (roundHead memory r i) [pointerAt memory r i] :=
  (hasCalls_reads _ _ _).append ((hasCalls_reads _ _ _).append (hasCalls_mapTable _))

theorem hasCalls_roundEvents (memory : Word → Byte) (fuel : Nat) (r : Word) (i : Nat) :
    HasCalls (roundEvents memory fuel r i)
      (pointerAt memory r i :: entryCalls memory fuel (p2v (pointerAt memory r i))) :=
  (hasCalls_roundHead memory r i).append (hasCalls_entryEvents memory fuel _)

/-! ### Bytes -/

def DwordMapped (pages : AcpiPages) (address : Word) : Prop :=
  ∀ k < 4, pages.mapped (roundDown (address + BitVec.ofNat 64 k) pageSize)

theorem readsMapped_append :
    ReadsMapped pages (events ++ more) ↔
      ReadsMapped pages events ∧ ReadsMapped (events.foldl AcpiEvent.remap pages) more := obeys_append

theorem readsMapped_map {α : Type} {source : AcpiSource} (counts : source ≠ .other) (items : List α)
    (address : α → Word) :
    ReadsMapped pages (items.map fun item => .read source (address item)) ↔
      ∀ item ∈ items, pages.mapped (roundDown (address item) pageSize) := by
  have still : ∀ event ∈ items.map fun item => AcpiEvent.read source (address item),
      event.remap pages = pages := by
    intro event member
    obtain ⟨item, -, rfl⟩ := List.mem_map.mp member
    rfl
  refine (obeys_iff_of_still still).trans (List.forall_mem_map.trans ?_)
  cases source with
  | root => rfl
  | madt => rfl
  | other => exact absurd rfl counts

theorem reads_mapped_iff {source : AcpiSource} (counts : source ≠ .other) (address : Word) :
    ReadsMapped pages (reads source address 4) ↔ DwordMapped pages address := by
  refine (readsMapped_map counts _ _).trans ?_
  simp only [List.mem_range]
  rfl

theorem other_mapped (address : Word) (count : Nat) : ReadsMapped pages (reads .other address count) := by
  have still : ∀ event ∈ reads .other address count, event.remap pages = pages := by
    intro event member
    obtain ⟨k, -, rfl⟩ := List.mem_map.mp member
    rfl
  apply (obeys_iff_of_still still).mpr
  intro event member
  obtain ⟨k, -, rfl⟩ := List.mem_map.mp member
  trivial

/-- The fields of a record are in mapped pages. -/
def RecordMapped (memory : Word → Byte) (pages : AcpiPages) (entries : Word) : Prop :=
  ∀ field ∈ 0 :: 1 :: recordFields (memory entries),
    pages.mapped (roundDown (entries + BitVec.ofNat 64 field) pageSize)

theorem recordEvents_mapped_iff (entries : Word) :
    ReadsMapped pages (recordEvents memory entries) ↔ RecordMapped memory pages entries := by
  have calls (pages : AcpiPages) : ReadsMapped pages
      ((recordCalls memory entries).map fun address => .map (roundDown address pageSize) (p2v address)) := by
    unfold recordCalls
    split
    · exact ⟨trivial, trivial⟩
    · trivial
  unfold recordEvents recordReads
  rw [readsMapped_append, and_iff_left (calls _)]
  exact readsMapped_map (by decide) _ _

/-- The bytes of an MADT that are read are mapped, after these calls. -/
structure MadtMapped (memory : Word → Byte) (fuel : Nat) (start : AcpiPages) (calls : List Word)
    (madt : Word) : Prop where
  signature : DwordMapped (afterCalls start calls) madt
  length : ∀ k ≤ recordCount memory fuel madt,
    DwordMapped (afterCalls start (calls ++ madtCalls memory madt k)) (madt + 4)
  records : ∀ k < recordCount memory fuel madt,
    RecordMapped memory (afterCalls start (calls ++ madtCalls memory madt k)) (cursor memory madt k)

theorem forall_le_iff {property : Nat → Prop} {count : Nat} :
    (∀ k ≤ count, property k) ↔ (∀ k < count, property k) ∧ property count := by
  simp only [← Nat.lt_succ_iff]
  exact Nat.forall_lt_succ_right

theorem loop_mapped_iff {round : Nat → List AcpiEvent} {made : Nat → List Word}
    (each : ∀ k, HasCalls (round k) (made k)) (count : Nat) :
    ReadsMapped (afterCalls start calls) ((List.range count).flatMap round) ↔
      ∀ k < count, ReadsMapped (afterCalls start (calls ++ (List.range k).flatMap made)) (round k) := by
  refine obeys_rounds.trans (forall₂_congr fun k _ => ?_)
  rw [(HasCalls.loop each k).after]
  rfl

theorem parseRound_mapped_iff (madt entries : Word) :
    ReadsMapped pages (parseRound memory madt entries) ↔
      DwordMapped pages (madt + 4) ∧ RecordMapped memory pages entries := by
  unfold parseRound
  rw [readsMapped_append, reads_mapped_iff (by decide), hasCalls_reads]
  exact and_congr_right fun _ => recordEvents_mapped_iff _

theorem entryEvents_mapped_iff (entry : Word) :
    ReadsMapped (afterCalls start calls) (entryEvents memory fuel entry) ↔
      (isMadt memory entry = true → MadtMapped memory fuel start calls entry) := by
  have made (k : Nat) := hasCalls_parseRound memory entry (cursor memory entry k)
  unfold entryEvents
  split
  · rename_i isTable
    rw [readsMapped_append, reads_mapped_iff (by decide), hasCalls_reads, List.foldl_nil, readsMapped_append,
      reads_mapped_iff (by decide), (HasCalls.loop made _).after, loop_mapped_iff made]
    simp only [parseRound_mapped_iff]
    constructor
    · rintro ⟨signature, rounds, last⟩ -
      exact ⟨signature, forall_le_iff.mpr ⟨fun k below => (rounds k below).1, last⟩,
        fun k below => (rounds k below).2⟩
    · intro known
      obtain ⟨signature, length, records⟩ := known isTable
      exact ⟨signature, fun k below => ⟨length k (Nat.le_of_lt below), records k below⟩,
        length _ (Nat.le_refl _)⟩
  · rename_i other
    exact iff_of_true (other_mapped _ _) fun isTable => absurd isTable other

theorem roundEvents_mapped_iff (i : Nat) :
    ReadsMapped (afterCalls start calls) (roundEvents memory fuel r i) ↔
      DwordMapped (afterCalls start calls) (r + 4) ∧
        DwordMapped (afterCalls start calls) (pointerAddress r i) ∧
        (isMadt memory (p2v (pointerAt memory r i)) = true →
          MadtMapped memory fuel start (calls ++ [pointerAt memory r i]) (p2v (pointerAt memory r i))) := by
  have quiet (pages : AcpiPages) (table entry : Word) : ReadsMapped pages [mapTable table, .header entry] :=
    ⟨trivial, trivial, trivial⟩
  unfold roundEvents
  rw [readsMapped_append, (hasCalls_roundHead memory r i).after, entryEvents_mapped_iff, ← and_assoc]
  refine and_congr_left fun _ => ?_
  unfold roundHead
  rw [readsMapped_append, reads_mapped_iff (by decide), hasCalls_reads, List.foldl_nil, readsMapped_append,
    reads_mapped_iff (by decide), and_iff_left (quiet _ _ _)]

/-! ### The whole of `acpi_init` -/

/-- The root table that is used, where it is read. -/
def rootTable (memory : Word → Byte) : Word := p2v (rootPtr memory (acpiScan memory))

def callsBefore (memory : Word → Byte) (fuel i : Nat) : List Word :=
  rsdtPtr memory (acpiScan memory) :: (List.range i).flatMap fun j =>
    pointerAt memory (rootTable memory) j ::
      entryCalls memory fuel (p2v (pointerAt memory (rootTable memory) j))

/-- All bytes of the root table and of the MADTs that are read are in a page that is mapped by then. -/
structure BytesMapped (memory : Word → Byte) (fuel : Nat) (start : AcpiPages) : Prop where
  length : ∀ i ≤ tableCount memory (rootTable memory),
    DwordMapped (afterCalls start (callsBefore memory fuel i)) (rootTable memory + 4)
  pointers : ∀ i < tableCount memory (rootTable memory),
    DwordMapped (afterCalls start (callsBefore memory fuel i)) (pointerAddress (rootTable memory) i)
  madts : ∀ i < tableCount memory (rootTable memory),
    isMadt memory (p2v (pointerAt memory (rootTable memory) i)) = true →
      MadtMapped memory fuel start
        (callsBefore memory fuel i ++ [pointerAt memory (rootTable memory) i])
        (p2v (pointerAt memory (rootTable memory) i))

variable {apic : IoApic} {value : Nat × IoApic}

theorem acpiInit_eq (memory : Word → Byte) (rounds fuel : Nat) (apic : IoApic) :
    acpiInit memory rounds fuel apic =
      ⟨(if acpiChecksum memory (acpiScan memory) = 0 then [] else [.assertFailed]) ++
          ([mapTable (rsdtPtr memory (acpiScan memory))] ++
            (rootLoop memory fuel (rootTable memory) rounds (BitVec.ofNat 64 0) (0, apic)).events),
        (rootLoop memory fuel (rootTable memory) rounds (BitVec.ofNat 64 0) (0, apic)).result⟩ := rfl

theorem acpiInit_events (returned : (acpiInit memory rounds fuel apic).result = some value) :
    (acpiInit memory rounds fuel apic).events =
      (if acpiChecksum memory (acpiScan memory) = 0 then [] else [.assertFailed]) ++
        ([mapTable (rsdtPtr memory (acpiScan memory))] ++
          ((List.range (tableCount memory (rootTable memory))).flatMap
            (roundEvents memory fuel (rootTable memory)) ++ reads .root (rootTable memory + 4) 4)) := by
  rw [acpiInit_eq] at returned ⊢
  have loop := (rootLoop_returned (Nat.zero_le _) returned).2
  rw [Nat.sub_zero, ← List.range_eq_range'] at loop
  rw [loop]

theorem tableHeaders_acpiInit (returned : (acpiInit memory rounds fuel apic).result = some value) :
    tableHeaders (acpiInit memory rounds fuel apic).events =
      (List.range (tableCount memory (rootTable memory))).map fun i =>
        p2v (pointerAt memory (rootTable memory) i) := by
  rw [acpiInit_events returned, tableHeaders_append, tableHeaders_assert, tableHeaders_append,
    tableHeaders_append, tableHeaders_flatMap, tableHeaders_reads, List.append_nil]
  simp only [tableHeaders_roundEvents]
  exact List.flatMap_pure_eq_map _ _

theorem acpiInit_mapped_iff (returned : (acpiInit memory rounds fuel apic).result = some value) :
    ReadsMapped start (acpiInit memory rounds fuel apic).events ↔ BytesMapped memory fuel start := by
  have first : ReadsMapped start
      (if acpiChecksum memory (acpiScan memory) = 0 then [] else [.assertFailed]) ∧
      (if acpiChecksum memory (acpiScan memory) = 0 then [] else [.assertFailed]).foldl AcpiEvent.remap start =
        afterCalls start [] := by
    split
    · exact ⟨trivial, rfl⟩
    · exact ⟨⟨trivial, trivial⟩, rfl⟩
  have made := hasCalls_roundEvents memory fuel (rootTable memory)
  rw [acpiInit_events returned, readsMapped_append, first.2, and_iff_right first.1, readsMapped_append,
    (hasCalls_mapTable _).after, and_iff_right ⟨trivial, trivial⟩, readsMapped_append,
    reads_mapped_iff (by decide), (HasCalls.loop made _).after, loop_mapped_iff made]
  simp only [roundEvents_mapped_iff]
  constructor
  · rintro ⟨rounds, last⟩
    exact ⟨forall_le_iff.mpr ⟨fun i below => (rounds i below).1, last⟩, fun i below => (rounds i below).2.1,
      fun i below => (rounds i below).2.2⟩
  · rintro ⟨length, pointers, madts⟩
    exact ⟨fun i below => ⟨length i (Nat.le_of_lt below), pointers i below, madts i below⟩,
      length _ (Nat.le_refl _)⟩

end Osdev64
