/-
The MADT parser of `src/acpi.c`.

`acpi_parse_madt` acts on each record as it comes to it.  An override that comes
before the I/O APIC finds the pointer `IOAPIC` null; `ioapic_remap` returns -1,
nobody looks, and the override is lost.  In `bin/kernel` an override that is not
lost clears what the one before it selected.
-/

import Osdev64.IoApic
import Osdev64.Lib.Bytes
import Mathlib.Data.List.Nodup
import Mathlib.Data.List.Perm.Basic

namespace Osdev64

open Word64 Bytes

/-- The fields the parser reads, apart from those it only prints. -/
inductive MadtRecord where
  | lapic
  | ioapic (ioapicAddr : BitVec 32)
  | iso (irqSrc gsi : BitVec 8)
  | x2apic
  | unsupported (type : Byte)
deriving DecidableEq

/-- `sizeof(struct madt_header)`. -/
def madtHeaderSize : Word := 44

def dwordAt (memory : Word → Byte) (address : Word) : BitVec 32 :=
  memory (address + 3) ++ memory (address + 2) ++ memory (address + 1) ++ memory address

/-- Where the loop stops: `h.length` counts the header, and it is subtracted from a pointer to the
header. -/
def madtEnd (memory : Word → Byte) (madt : Word) : Word :=
  ((dwordAt memory (madt + 4)).setWidth 64 - madtHeaderSize) + madt

def recordAt (memory : Word → Byte) (entries : Word) : MadtRecord :=
  let type := memory entries
  if type = 0 then .lapic
  else if type = 1 then .ioapic (dwordAt memory (entries + 4))
  else if type = 2 then .iso (memory (entries + 3)) (memory (entries + 4))
  else if type = 9 then .x2apic
  else .unsupported type

/-- One round of the `switch`, on the number of local APICs and the I/O APIC. -/
def MadtRecord.handle (state : Nat × IoApic) : MadtRecord → Nat × IoApic
  | .lapic => (state.1 + 1, state.2)
  | .ioapic ioapicAddr => (state.1, ioapicInit (ioapicAddr.setWidth 64) state.2)
  | .iso irqSrc gsi => (state.1, (ioapicRemap irqSrc gsi 0 state.2).2)
  | .x2apic => (state.1 + 1, state.2)
  | .unsupported _ => state

/-- `len` is a signed `char`. -/
def nextRecord (memory : Word → Byte) (entries : Word) : Word :=
  entries + (memory (entries + 1)).signExtend 64

/-- `none` when the loop takes more rounds than it is given. -/
def parseLoop (memory : Word → Byte) (stop : Word) : Nat → Word → Nat × IoApic → Option (Nat × IoApic)
  | 0, entries, state => if entries < stop then none else some state
  | fuel + 1, entries, state =>
    if entries < stop then
      parseLoop memory stop fuel (nextRecord memory entries) ((recordAt memory entries).handle state)
    else some state

def acpiParseMadt (memory : Word → Byte) (fuel : Nat) (madt : Word) (apic : IoApic) :
    Option (Nat × IoApic) :=
  parseLoop memory (madtEnd memory madt) fuel (madt + madtHeaderSize) (0, apic)

/-! ### The records of a table -/

def recordsFrom (memory : Word → Byte) (stop : Word) : Nat → Word → Option (List MadtRecord)
  | 0, entries => if entries < stop then none else some []
  | fuel + 1, entries =>
    if entries < stop then
      (recordsFrom memory stop fuel (nextRecord memory entries)).map (recordAt memory entries :: ·)
    else some []

/-- The records that `acpi_parse_madt` processes, in order. -/
def madtRecords (memory : Word → Byte) (fuel : Nat) (madt : Word) : Option (List MadtRecord) :=
  recordsFrom memory (madtEnd memory madt) fuel (madt + madtHeaderSize)

theorem parseLoop_eq (memory : Word → Byte) (stop : Word) (fuel : Nat) (entries : Word)
    (state : Nat × IoApic) :
    parseLoop memory stop fuel entries state =
      (recordsFrom memory stop fuel entries).map (List.foldl MadtRecord.handle state) := by
  induction fuel generalizing entries state with
  | zero =>
    simp only [parseLoop, recordsFrom]
    split_ifs <;> rfl
  | succ fuel ih =>
    simp only [parseLoop, recordsFrom]
    split_ifs with more
    · rw [ih, Option.map_map]
      rfl
    · rfl

theorem acpiParseMadt_of_records {memory : Word → Byte} {fuel : Nat} {madt : Word}
    {records : List MadtRecord} (processed : madtRecords memory fuel madt = some records)
    (apic : IoApic) :
    acpiParseMadt memory fuel madt apic = some (records.foldl MadtRecord.handle (0, apic)) := by
  unfold acpiParseMadt
  rw [parseLoop_eq]
  unfold madtRecords at processed
  rw [processed]
  rfl

/-! ### What a list of records does to the I/O APIC -/

def MadtRecord.isIoApic : MadtRecord → Bool
  | .ioapic _ => true
  | _ => false

/-- An override as a call of the driver. -/
def MadtRecord.override : MadtRecord → Option PinCall
  | .iso irqSrc gsi => some (.remap irqSrc gsi 0)
  | _ => none

def overrides (records : List MadtRecord) : List PinCall := records.filterMap MadtRecord.override

/-- The records from the I/O APIC on. -/
def fromIoApic (records : List MadtRecord) : List MadtRecord :=
  records.dropWhile fun record => !record.isIoApic

theorem mem_overrides_iff (records : List MadtRecord) (src gsi : BitVec 8) :
    .remap src gsi 0 ∈ overrides records ↔ .iso src gsi ∈ records := by
  unfold overrides
  rw [List.mem_filterMap]
  constructor
  · rintro ⟨record, member, found⟩
    cases record with
    | iso irqSrc g =>
      cases found
      exact member
    | _ => cases found
  · intro member
    exact ⟨_, member, rfl⟩

theorem foldl_handle_null (front : List MadtRecord) (none : ∀ record ∈ front, record.isIoApic = false)
    (state : Nat × IoApic) (null : state.2.ioapic = 0) :
    (front.foldl MadtRecord.handle state).2 = state.2 := by
  induction front generalizing state with
  | nil => rfl
  | cons record front ih =>
    have same : (record.handle state).2 = state.2 := by
      cases record with
      | ioapic address => cases none _ List.mem_cons_self
      | iso irqSrc gsi =>
        have refused : ioapicRemap irqSrc gsi 0 state.2 = (-1, state.2) := if_pos null
        simp only [MadtRecord.handle, refused]
      | _ => rfl
    rw [List.foldl_cons, ih (fun other later => none other (List.mem_cons_of_mem _ later)), same]
    rw [same]
    exact null

theorem foldl_handle_calls (back : List MadtRecord) (none : ∀ record ∈ back, record.isIoApic = false)
    (state : Nat × IoApic) :
    (back.foldl MadtRecord.handle state).2 = (overrides back).foldl PinCall.run state.2 := by
  induction back generalizing state with
  | nil => rfl
  | cons record back ih =>
    have rest := ih (fun other later => none other (List.mem_cons_of_mem _ later)) (record.handle state)
    rw [List.foldl_cons, rest]
    cases record with
    | ioapic address => cases none _ List.mem_cons_self
    | _ => rfl

theorem lastCall_of_mem {calls : List PinCall} (distinct : (calls.map PinCall.pin).Nodup)
    {call : PinCall} (member : call ∈ calls) : lastCall call.pin calls = some call := by
  cases found : lastCall call.pin calls with
  | none => exact absurd rfl ((lastCall_eq_none_iff _ calls).mp found call member)
  | some last =>
    have inside : last ∈ calls := List.mem_reverse.mp (List.mem_of_find?_eq_some found)
    have accepted := List.find?_some found
    have named : last.pin = call.pin := by simpa using accepted
    rw [List.inj_on_of_nodup_map distinct inside member named]

/-- One I/O APIC, and overrides of distinct sources. -/
structure OneIoApic (records : List MadtRecord) : Prop where
  one : ∃ address, records.filter MadtRecord.isIoApic = [.ioapic address]
  distinct : ((overrides records).map PinCall.pin).Nodup

theorem OneIoApic.perm {records records' : List MadtRecord} (one : OneIoApic records)
    (perm : records.Perm records') : OneIoApic records' := by
  obtain ⟨address, only⟩ := one.one
  refine ⟨⟨address, ?_⟩, ?_⟩
  · have filtered := perm.filter MadtRecord.isIoApic
    rw [only] at filtered
    exact List.perm_singleton.mp filtered.symm
  · have mapped := (perm.filterMap MadtRecord.override).map PinCall.pin
    exact mapped.nodup_iff.mp one.distinct

/-- The device after the records: initialised, and then called for each override behind. -/
theorem OneIoApic.device {records : List MadtRecord} (one : OneIoApic records) (state : Nat × IoApic)
    (null : state.2.ioapic = 0) :
    ∃ address back, fromIoApic records = .ioapic address :: back ∧ back.Sublist records ∧
      (records.foldl MadtRecord.handle state).2 =
        (overrides back).foldl PinCall.run (ioapicInit (address.setWidth 64) state.2) := by
  obtain ⟨address, only⟩ := one.one
  obtain ⟨front, back, rfl, before, _, after⟩ := List.filter_eq_cons_iff.mp only
  have inFront : ∀ record ∈ front, record.isIoApic = false :=
    fun record member => Bool.eq_false_iff.mpr (before record member)
  have inBack : ∀ record ∈ back, record.isIoApic = false :=
    fun record member => Bool.eq_false_iff.mpr (List.filter_eq_nil_iff.mp after record member)
  refine ⟨address, back, ?_, ?_, ?_⟩
  · unfold fromIoApic
    rw [List.dropWhile_append_of_pos fun record member => by rw [inFront record member]; rfl,
      List.dropWhile_cons_of_neg (by simp [MadtRecord.isIoApic])]
  · exact (List.sublist_cons_self _ back).trans (List.sublist_append_right front _)
  · rw [List.foldl_append, List.foldl_cons, foldl_handle_calls back inBack]
    simp only [MadtRecord.handle, foldl_handle_null front inFront state null]

/-- The entry of a pin that an override names, as the code is written: the override acts when it is
behind the I/O APIC. -/
theorem OneIoApic.entry_of_mem {records : List MadtRecord} (one : OneIoApic records)
    (state : Nat × IoApic) (null : state.2.ioapic = 0) (written : state.2.build = .asWritten)
    {src gsi : BitVec 8} (member : .iso src gsi ∈ records) :
    (records.foldl MadtRecord.handle state).2.entry src =
      if .iso src gsi ∈ fromIoApic records then routedEntry gsi 0
      else (ioapicInit 0 state.2).entry src := by
  obtain ⟨address, back, split, sublist, device⟩ := one.device state null
  have behind : .iso src gsi ∈ fromIoApic records ↔ .iso src gsi ∈ back := by
    rw [split, List.mem_cons]
    exact or_iff_right (by rintro ⟨⟩)
  rw [device, ((plain_init written _).1.runs _).2]
  by_cases inBack : .iso src gsi ∈ back
  · rw [if_pos (behind.mpr inBack)]
    have distinct := one.distinct.sublist ((sublist.filterMap MadtRecord.override).map PinCall.pin)
    have last : lastCall src (overrides back) = some (.remap src gsi 0) :=
      lastCall_of_mem distinct ((mem_overrides_iff back src gsi).mpr inBack)
    rw [last]
    rfl
  · rw [if_neg fun later => inBack (behind.mp later)]
    have unnamed : lastCall src (overrides back) = none := by
      apply (lastCall_eq_none_iff src _).mpr
      intro call inside named
      have mine := (mem_overrides_iff records src gsi).mpr member
      have theirs := (sublist.filterMap MadtRecord.override).subset inside
      have same : call = .remap src gsi 0 := List.inj_on_of_nodup_map one.distinct theirs mine named
      rw [same] at inside
      exact inBack ((mem_overrides_iff back src gsi).mp inside)
    rw [unnamed, Option.map_none, Option.getD_none, (plain_init written _).2, (plain_init written _).2]

theorem OneIoApic.entry_of_not_mem {records : List MadtRecord} (one : OneIoApic records)
    (state : Nat × IoApic) (null : state.2.ioapic = 0) (written : state.2.build = .asWritten)
    {pin : BitVec 8} (unnamed : ∀ gsi, .iso pin gsi ∉ records) :
    (records.foldl MadtRecord.handle state).2.entry pin = (ioapicInit 0 state.2).entry pin := by
  obtain ⟨address, back, _, sublist, device⟩ := one.device state null
  have none : lastCall pin (overrides back) = none := by
    apply (lastCall_eq_none_iff pin _).mpr
    intro call inside named
    obtain ⟨record, member, found⟩ := List.mem_filterMap.mp inside
    cases record with
    | iso irqSrc gsi =>
      cases found
      cases named
      exact unnamed gsi (sublist.subset member)
    | _ => cases found
  rw [device, ((plain_init written _).1.runs _).2, none, Option.map_none, Option.getD_none,
    (plain_init written _).2, (plain_init written _).2]

/-- The registers that `bin/kernel` clears: each override behind the I/O APIC clears the one selected
before it, first by `ioapic_init`, so that the register of the last override stays. -/
def clearedBy (apic : IoApic) (records : List MadtRecord) : List Register :=
  (apic.initSelects ::
    (overrides (fromIoApic records)).map fun call => entryRegister call.pin + 1).dropLast

theorem windowStores_overrides (back : List MadtRecord) :
    ∀ sel, windowStores sel (overrides back) =
      (sel :: (overrides back).map fun call => entryRegister call.pin + 1).dropLast.map (·, 0) := by
  induction back with
  | nil =>
    intro sel
    rfl
  | cons record back ih =>
    intro sel
    cases record with
    | iso irqSrc gsi =>
      change (sel, _) :: windowStores (entryRegister irqSrc + 1) (overrides back) = _
      rw [ih (entryRegister irqSrc + 1)]
      rfl
    | _ => exact ih sel

theorem OneIoApic.entry_shipped {records : List MadtRecord} (one : OneIoApic records) {apic : IoApic}
    (null : apic.ioapic = 0) (shipped : apic.build = .shipped) (pin : BitVec 8) :
    (records.foldl MadtRecord.handle (0, apic)).2.entry pin =
      ⟨(apic.entry pin).low,
        if entryRegister pin + 1 ∈ clearedBy apic records then 0 else (apic.entry pin).high⟩ := by
  obtain ⟨address, back, split, _, device⟩ := one.device (0, apic) null
  have same : overrides (fromIoApic records) = overrides back := by
    rw [split]
    rfl
  rw [device, merged_entry shipped]
  apply congrArg (Redirection.mk _)
  unfold IoApic.lastHigh clearedBy
  rw [same, windowStores_overrides]
  generalize (apic.initSelects :: (overrides back).map fun call => entryRegister call.pin + 1).dropLast =
    cleared
  by_cases member : entryRegister pin + 1 ∈ cleared
  · have found : ((cleared.map ((·, 0) : Register → Register × Register)).reverse.find? fun store =>
        store.1 = entryRegister pin + 1) = some (entryRegister pin + 1, 0) := by
      cases here : (cleared.map ((·, 0) : Register → Register × Register)).reverse.find? fun store =>
          store.1 = entryRegister pin + 1 with
      | none =>
        refine absurd ?_ (List.find?_eq_none.mp here (entryRegister pin + 1, 0)
          (List.mem_reverse.mpr (List.mem_map_of_mem member)))
        exact decide_eq_true rfl
      | some store =>
        obtain ⟨reg, _, rfl⟩ := List.mem_map.mp (List.mem_reverse.mp (List.mem_of_find?_eq_some here))
        have found := List.find?_some here
        have named : reg = entryRegister pin + 1 := of_decide_eq_true found
        rw [named]
    rw [if_pos member, found]
    rfl
  · have missing : ((cleared.map ((·, 0) : Register → Register × Register)).reverse.find? fun store =>
        store.1 = entryRegister pin + 1) = none := by
      apply List.find?_eq_none.mpr
      intro store inside named
      obtain ⟨reg, inCleared, rfl⟩ := List.mem_map.mp (List.mem_reverse.mp inside)
      have equal : reg = entryRegister pin + 1 := of_decide_eq_true named
      exact member (equal ▸ inCleared)
    rw [if_neg member, missing]
    rfl

/-! ### The order of the records -/

/-- The redirection tables have the same contents. -/
def SameRouting (apic after after' : IoApic) : Prop :=
  ∀ pin : BitVec 8, pin.toNat < apic.pins → after.entry pin = after'.entry pin

/-- As written: each override of a pin of the device is behind the I/O APIC in both orders or in
neither, unless it asks for what the last entry, which `ioapic_init` leaves as it is, holds anyway.
In `bin/kernel`: each entry with a destination is cleared in both orders or in neither. -/
def SameSides (apic : IoApic) (records records' : List MadtRecord) : Prop :=
  match apic.build with
  | .asWritten =>
    ∀ src gsi, .iso src gsi ∈ records → src.toNat < apic.pins →
      (.iso src gsi ∈ fromIoApic records ↔ .iso src gsi ∈ fromIoApic records') ∨
        (src.toNat = apic.maxEntry ∧ apic.entry src = routedEntry gsi 0)
  | .shipped =>
    ∀ pin : BitVec 8, pin.toNat < apic.pins → (apic.entry pin).high = 0 ∨
      (entryRegister pin + 1 ∈ clearedBy apic records ↔
        entryRegister pin + 1 ∈ clearedBy apic records')

theorem entry_init_eq_routed_iff {apic : IoApic} (written : apic.build = .asWritten) (address : Word)
    {src : BitVec 8} (below : src.toNat < apic.pins) (gsi : BitVec 8) :
    (ioapicInit address apic).entry src = routedEntry gsi 0 ↔
      src.toNat = apic.maxEntry ∧ apic.entry src = routedEntry gsi 0 := by
  unfold IoApic.pins at below
  rw [(plain_init written address).2]
  by_cases inside : src.toNat < apic.maxEntry
  · rw [if_pos inside]
    refine iff_of_false (fun same => ?_) (fun last => by omega)
    have masked := disabledEntry_masked src
    rw [same, routedEntry_masked] at masked
    cases masked
  · rw [if_neg inside]
    exact ⟨fun same => ⟨by omega, same⟩, And.right⟩

theorem sameRouting_written_iff {records records' : List MadtRecord} (one : OneIoApic records)
    (perm : records.Perm records') {apic : IoApic} (null : apic.ioapic = 0)
    (written : apic.build = .asWritten) :
    SameRouting apic (records.foldl MadtRecord.handle (0, apic)).2
        (records'.foldl MadtRecord.handle (0, apic)).2 ↔
      ∀ src gsi, .iso src gsi ∈ records → src.toNat < apic.pins →
        (.iso src gsi ∈ fromIoApic records ↔ .iso src gsi ∈ fromIoApic records') ∨
          (src.toNat = apic.maxEntry ∧ apic.entry src = routedEntry gsi 0) := by
  have one' := one.perm perm
  have pinwise {src gsi : BitVec 8} (member : .iso src gsi ∈ records) (below : src.toNat < apic.pins) :
      (records.foldl MadtRecord.handle (0, apic)).2.entry src =
          (records'.foldl MadtRecord.handle (0, apic)).2.entry src ↔
        (.iso src gsi ∈ fromIoApic records ↔ .iso src gsi ∈ fromIoApic records') ∨
          (src.toNat = apic.maxEntry ∧ apic.entry src = routedEntry gsi 0) := by
    rw [one.entry_of_mem (0, apic) null written member,
      one'.entry_of_mem (0, apic) null written (perm.mem_iff.mp member),
      ← entry_init_eq_routed_iff written 0 below gsi]
    split_ifs with here there there
    · simp [here, there]
    · simp [here, there, eq_comm]
    · simp [here, there]
    · simp [here, there]
  constructor
  · intro same src gsi member below
    exact (pinwise member below).mp (same src below)
  · intro sides pin below
    by_cases named : ∃ gsi, .iso pin gsi ∈ records
    · obtain ⟨gsi, member⟩ := named
      exact (pinwise member below).mpr (sides pin gsi member below)
    · have unnamed : ∀ gsi, .iso pin gsi ∉ records := fun gsi member => named ⟨gsi, member⟩
      rw [one.entry_of_not_mem (0, apic) null written unnamed,
        one'.entry_of_not_mem (0, apic) null written fun gsi member => unnamed gsi (perm.mem_iff.mpr member)]

theorem sameRouting_foldl_iff {records records' : List MadtRecord} (one : OneIoApic records)
    (perm : records.Perm records') {apic : IoApic} (null : apic.ioapic = 0) :
    SameRouting apic (records.foldl MadtRecord.handle (0, apic)).2
        (records'.foldl MadtRecord.handle (0, apic)).2 ↔
      SameSides apic records records' := by
  unfold SameSides
  cases built : apic.build with
  | asWritten => exact sameRouting_written_iff one perm null built
  | shipped =>
    refine forall₂_congr fun pin below => ?_
    rw [one.entry_shipped null built, (one.perm perm).entry_shipped null built, Redirection.mk.injEq,
      and_iff_right rfl]
    generalize entryRegister pin + 1 = second
    split_ifs with here there there
    · simp [here, there]
    · simp [here, there, eq_comm]
    · simp [here, there]
    · simp [here, there]

/-- Two tables whose processed records are permutations of each other leave the same redirection
table exactly when no override changes sides. -/
theorem sameRouting_iff {memory memory' : Word → Byte} {madt madt' : Word} {fuel fuel' : Nat}
    {records records' : List MadtRecord} (processed : madtRecords memory fuel madt = some records)
    (processed' : madtRecords memory' fuel' madt' = some records') (perm : records.Perm records')
    (one : OneIoApic records) (apic : IoApic) (null : apic.ioapic = 0) :
    ∃ result result', acpiParseMadt memory fuel madt apic = some result ∧
      acpiParseMadt memory' fuel' madt' apic = some result' ∧
      (SameRouting apic result.2 result'.2 ↔ SameSides apic records records') :=
  ⟨_, _, acpiParseMadt_of_records processed apic, acpiParseMadt_of_records processed' apic,
    sameRouting_foldl_iff one perm null⟩

/-- A table at address zero: the header with its length, and the bytes of the records. -/
def madtMemory (bytes : List Byte) : Word → Byte := fun address =>
  if address.toNat = 4 then BitVec.ofNat 8 (44 + bytes.length)
  else if address.toNat < 44 then 0
  else bytes.getD (address.toNat - 44) 0

/-- The I/O APIC at 0xFEC00000. -/
def ioapicBytes : List Byte := [1, 12, 0, 0, 0, 0, 0xC0, 0xFE, 0, 0, 0, 0]

def isoBytes (irqSrc gsi : Byte) : List Byte := [2, 10, 0, irqSrc, gsi, 0, 0, 0, 0, 0]

/-- A record of a type the parser does not know, longer than the part of a table it never sees. -/
def reservedBytes : List Byte := 0x80 :: 45 :: List.replicate 43 0

theorem sameRouting_two_overrides :
    ∃ result result',
      acpiParseMadt (madtMemory (ioapicBytes ++ isoBytes 0 2 ++ isoBytes 9 9 ++ reservedBytes)) 4 0
        (openApic .shipped) = some result ∧
      acpiParseMadt (madtMemory (ioapicBytes ++ isoBytes 9 9 ++ isoBytes 0 2 ++ reservedBytes)) 4 0
        (openApic .shipped) = some result' ∧
      SameRouting (openApic .shipped) result.2 result'.2 := by
  have processed : madtRecords
      (madtMemory (ioapicBytes ++ isoBytes 0 2 ++ isoBytes 9 9 ++ reservedBytes)) 4 0 =
      some [.ioapic 0xFEC00000, .iso 0 2, .iso 9 9, .unsupported 0x80] := by decide +kernel
  have processed' : madtRecords
      (madtMemory (ioapicBytes ++ isoBytes 9 9 ++ isoBytes 0 2 ++ reservedBytes)) 4 0 =
      some [.ioapic 0xFEC00000, .iso 9 9, .iso 0 2, .unsupported 0x80] := by decide +kernel
  have perm : [MadtRecord.ioapic 0xFEC00000, .iso 0 2, .iso 9 9, .unsupported 0x80].Perm
      [.ioapic 0xFEC00000, .iso 9 9, .iso 0 2, .unsupported 0x80] := by decide
  have one : OneIoApic [.ioapic 0xFEC00000, .iso 0 2, .iso 9 9, .unsupported 0x80] :=
    ⟨⟨0xFEC00000, rfl⟩, by decide⟩
  obtain ⟨result, result', parsed, parsed', same⟩ :=
    sameRouting_iff processed processed' perm one (openApic .shipped) rfl
  refine ⟨result, result', parsed, parsed', same.mpr fun pin _ => Or.inl ?_⟩
  have second := entryRegister_succ_toNat pin
  have notVersion : entryRegister pin + 1 ≠ 0x01 := fun same => by
    have value := congrArg BitVec.toNat same
    change _ = 1 at value
    omega
  exact if_neg notVersion

/-- Like `openApic`, with another processor as the destination of pin 0. -/
def directedApic (build : Build) : IoApic :=
  ⟨build, 0, 0, fun reg => if reg = 0x01 then 0x00170011 else if reg = 0x11 then 0x01000000 else 0⟩

/-- Two overrides in front of the I/O APIC, or behind it.  As written, pin 0 stays masked in the first
order and is routed in the second; in `bin/kernel` it keeps its destination in the first and loses it
in the second. -/
theorem early_override_lost :
    madtRecords (madtMemory (isoBytes 0 2 ++ isoBytes 9 9 ++ ioapicBytes ++ reservedBytes)) 4 0 =
        some [.iso 0 2, .iso 9 9, .ioapic 0xFEC00000, .unsupported 0x80] ∧
      madtRecords (madtMemory (ioapicBytes ++ isoBytes 0 2 ++ isoBytes 9 9 ++ reservedBytes)) 4 0 =
        some [.ioapic 0xFEC00000, .iso 0 2, .iso 9 9, .unsupported 0x80] ∧
      OneIoApic [.iso 0 2, .iso 9 9, .ioapic 0xFEC00000, .unsupported 0x80] ∧
      ∀ build, ∃ result result',
        acpiParseMadt (madtMemory (isoBytes 0 2 ++ isoBytes 9 9 ++ ioapicBytes ++ reservedBytes)) 4 0
          (directedApic build) = some result ∧
        acpiParseMadt (madtMemory (ioapicBytes ++ isoBytes 0 2 ++ isoBytes 9 9 ++ reservedBytes)) 4 0
          (directedApic build) = some result' ∧
        ¬SameRouting (directedApic build) result.2 result'.2 := by
  have processed : madtRecords
      (madtMemory (isoBytes 0 2 ++ isoBytes 9 9 ++ ioapicBytes ++ reservedBytes)) 4 0 =
      some [.iso 0 2, .iso 9 9, .ioapic 0xFEC00000, .unsupported 0x80] := by decide +kernel
  have processed' : madtRecords
      (madtMemory (ioapicBytes ++ isoBytes 0 2 ++ isoBytes 9 9 ++ reservedBytes)) 4 0 =
      some [.ioapic 0xFEC00000, .iso 0 2, .iso 9 9, .unsupported 0x80] := by decide +kernel
  have one : OneIoApic [.iso 0 2, .iso 9 9, .ioapic 0xFEC00000, .unsupported 0x80] :=
    ⟨⟨0xFEC00000, rfl⟩, by decide⟩
  refine ⟨processed, processed', one, fun build => ⟨_, _, acpiParseMadt_of_records processed _,
    acpiParseMadt_of_records processed' _, ?_⟩⟩
  rw [sameRouting_foldl_iff one (by decide) rfl]
  intro sides
  cases build with
  | asWritten =>
    rcases sides 0 2 (by decide) (by decide) with same | last
    · exact absurd same (by decide)
    · exact absurd last.1 (by decide)
  | shipped =>
    rcases sides 0 (by decide) with zero | same
    · exact absurd zero (by decide)
    · exact absurd same (by decide)

end Osdev64
