/-
The memory map from the firmware to `pmm_init`.

`memory_map` of `src/boot/boot.asm` asks the firmware for one record after the
other and keeps those that are neither empty nor marked as ignored, 24 bytes
each from `0x7000` on.  The length of the table is stored as a word at `0x6FF0`;
`main` of `src/kernel.c` reads one byte of it.
-/

import Osdev64.Lib.Bytes
import Osdev64.Pmm

namespace Osdev64

open Word64 Bytes

/-- One answer of INT 15h, function E820. -/
structure E820Response where
  size : BitVec 32
  base : Word
  len : Word
  type : BitVec 32
  ext : BitVec 32

/-- The 24 bytes of an answer, as one number. -/
def E820Response.record (response : E820Response) : Nat :=
  response.base.toNat + 2 ^ 64 * (response.len.toNat +
    2 ^ 64 * (response.type.toNat + 2 ^ 32 * response.ext.toNat))

/-- The firmware writes as many bytes as it says, and no more than the 24 it was asked for. -/
def int15 (response : E820Response) (memory : Memory) (di : BitVec 16) : Memory :=
  put memory (min response.size.toNat 24) di.toNat response.record

/-- `mov [es:di + 20], dword 1`. -/
def forceEntry (memory : Memory) (di : BitVec 16) : Memory := put memory 4 (di.toNat + 20) 1

/-- The block from `.loop` to `.skip`: the next place in the table. -/
def keepEntry (memory : Memory) (di : BitVec 16) (ecx : BitVec 32) : BitVec 16 :=
  if ecx.extractLsb' 0 16 = 0 then di
  else if 20 < (ecx.extractLsb' 0 8).toNat ∧ memory (di.toNat + 20) &&& 1 = 0 then di
  else if BitVec.ofNat 32 (value memory 4 (di.toNat + 8)) |||
      BitVec.ofNat 32 (value memory 4 (di.toNat + 12)) = 0 then di
  else di + 24

/-- The loop over the answers; the list ends with `ebx = 0`, or with the carry flag of one
more call. -/
def e820Loop (carry : Bool) : List E820Response → Memory → BitVec 16 → Memory × BitVec 16
  | [], memory, di => (if carry then forceEntry memory di else memory, di)
  | response :: rest, memory, di =>
    let memory := int15 response (forceEntry memory di) di
    e820Loop carry rest memory (keepEntry memory di response.size)

/-- `memory_map`.  A first call that fails, or whose answer is said to be the only one,
leaves `di` where it was. -/
def memoryMap (carry : Bool) (responses : List E820Response) (memory : Memory) (di : BitVec 16) :
    Memory × BitVec 16 :=
  match carry, responses with
  | _, [] => (forceEntry memory di, di)
  | false, [response] => (int15 response (forceEntry memory di) di, di)
  | carry, responses => e820Loop carry responses memory di

/-- The part of `entry` that stores the table and its length. -/
def storeMap (carry : Bool) (responses : List E820Response) (memory : Memory) : Memory :=
  let stored := memoryMap carry responses memory 0x7000
  put stored.1 2 0x6FF0 (stored.2 - 0x7000).toNat

/-- `struct memory_map` number `i` of the table. -/
def mapEntry (memory : Memory) (i : Nat) : MemoryMap where
  base := BitVec.ofNat 64 (value memory 8 (0x7000 + 24 * i))
  len := BitVec.ofNat 64 (value memory 8 (0x7000 + 24 * i + 8))
  type := BitVec.ofNat 64 (value memory 8 (0x7000 + 24 * i + 16))

/-- The table the bootloader stored. -/
def storedMap (memory : Memory) : List MemoryMap :=
  (List.range (value memory 2 0x6FF0 / 24)).map (mapEntry memory)

/-- `memlen` of `main`. -/
def memlen (memory : Memory) : BitVec 8 := memory 0x6FF0 / 24

/-- The entries `pmm_init` goes through when `main` calls it. -/
def mainMap (memory : Memory) : List MemoryMap :=
  (List.range (memlen memory).toNat).map (mapEntry memory)

/-- The call of `pmm_init` in `main`. -/
def mainPmmInit (memory : Memory) (kernelEnd : Word) (frames : Frames) : Frames :=
  pmmInit (mainMap memory) kernelEnd frames

/-! ### What the table should hold -/

/-- An answer is empty, or holds a record of 20 bytes with up to four more. -/
def E820Response.Valid (response : E820Response) : Prop :=
  response.size.toNat = 0 ∨ 20 ≤ response.size.toNat ∧ response.size.toNat ≤ 24

/-- The extended attributes are there and their first bit is clear. -/
def E820Response.ignored (response : E820Response) : Bool :=
  20 < response.size.toNat ∧ response.ext.getLsbD 0 = false

def E820Response.kept (response : E820Response) : Bool :=
  response.size ≠ 0 ∧ response.len ≠ 0 ∧ response.ignored = false

/-- An entry of the table holds an answer; the upper half of its type are the extended
attributes, where the answer has them. -/
structure MemoryMap.Holds (entry : MemoryMap) (response : E820Response) : Prop where
  base : entry.base = response.base
  len : entry.len = response.len
  type : entry.type.extractLsb' 0 32 = response.type
  ext : response.size = 24 → entry.type.extractLsb' 32 32 = response.ext

/-- The table holds the answers to keep, and `pmm_init` goes through all of the table. -/
def MapHandedOver (carry : Bool) (responses : List E820Response) (memory : Memory) : Prop :=
  List.Forall₂ MemoryMap.Holds (storedMap (storeMap carry responses memory))
      (responses.filter E820Response.kept) ∧
    mainMap (storeMap carry responses memory) = storedMap (storeMap carry responses memory)

variable {memory memory' : Memory} {di : BitVec 16} {response : E820Response}
  {kept : List E820Response} {carry : Bool}

/-! ### One answer -/

private theorem record_parts (response : E820Response) :
    response.record % 256 ^ 8 = response.base.toNat ∧
      response.record / 256 ^ 8 % 256 ^ 8 = response.len.toNat ∧
      response.record / 256 ^ 16 % 256 ^ 4 = response.type.toNat ∧
      response.record / 256 ^ 20 = response.ext.toNat := by
  have base := response.base.isLt
  have len := response.len.isLt
  have type := response.type.isLt
  unfold E820Response.record
  refine ⟨?_, ?_, ?_, ?_⟩
  · omega
  · omega
  · omega
  · omega

/-- Memory after an answer. -/
def answered (response : E820Response) (memory : Memory) (di : BitVec 16) : Memory :=
  int15 response (forceEntry memory di) di

private theorem answered_before {place : Nat} (before : place < di.toNat) :
    answered response memory di place = memory place := by
  unfold answered int15 forceEntry
  rw [put_of_outside (by omega), put_of_outside (by omega)]

private theorem answered_field {offset width : Nat}
    (inside : offset + width ≤ min response.size.toNat 24) :
    value (answered response memory di) width (di.toNat + offset) =
      response.record / 256 ^ offset % 256 ^ width := by
  unfold answered int15
  exact value_put_field inside

private theorem answered_attribute (extended : 20 < response.size.toNat) :
    answered response memory di (di.toNat + 20) &&& 1 = 0 ↔ response.ext.getLsbD 0 = false := by
  have byte : answered response memory di (di.toNat + 20) = BitVec.ofNat 8 response.ext.toNat := by
    unfold answered int15 put
    rw [if_pos (by omega), Nat.add_sub_cancel_left, (record_parts response).2.2.2]
  have bit : BitVec.ofNat 8 response.ext.toNat &&& 1 ≠ 0 ↔
      (BitVec.ofNat 8 response.ext.toNat).getLsbD 0 = true :=
    and_twoPow_ne_zero_iff (BitVec.ofNat 8 response.ext.toNat) 0 (by decide)
  rw [byte, ← not_iff_not, ← ne_eq, bit]
  simp

private theorem answered_holds {k : Nat} (place : di.toNat = 0x7000 + 24 * k)
    (whole : 20 ≤ response.size.toNat) :
    (mapEntry (answered response memory di) k).Holds response := by
  obtain ⟨base, len, type, ext⟩ := record_parts response
  refine ⟨?_, ?_, ?_, ?_⟩
  · unfold mapEntry
    simp only
    rw [← place, ← Nat.add_zero di.toNat, answered_field (by omega), Nat.pow_zero, Nat.div_one,
      base, BitVec.ofNat_toNat, BitVec.setWidth_eq]
  · unfold mapEntry
    simp only
    rw [← place, answered_field (by omega), len, BitVec.ofNat_toNat, BitVec.setWidth_eq]
  · unfold mapEntry
    simp only
    rw [← place]
    have low : value (answered response memory di) 8 (di.toNat + 16) % 256 ^ 4 =
        response.type.toNat := by
      rw [value_mod (by decide), answered_field (by omega), type]
    apply BitVec.eq_of_toNat_eq
    rw [BitVec.extractLsb'_toNat, BitVec.toNat_ofNat, Nat.shiftRight_zero, ← low]
    omega
  · intro extended
    have size : response.size.toNat = 24 := by rw [extended]; rfl
    unfold mapEntry
    simp only
    rw [← place]
    have high : value (answered response memory di) 8 (di.toNat + 16) / 2 ^ 32 =
        response.ext.toNat := by
      have bound := response.ext.isLt
      rw [answered_field (by omega), ← ext]
      omega
    apply BitVec.eq_of_toNat_eq
    rw [BitVec.extractLsb'_toNat, BitVec.toNat_ofNat, Nat.shiftRight_eq_div_pow, ← high]
    have bound := response.ext.isLt
    omega

private theorem answered_length (whole : 20 ≤ response.size.toNat) :
    BitVec.ofNat 32 (value (answered response memory di) 4 (di.toNat + 8)) |||
        BitVec.ofNat 32 (value (answered response memory di) 4 (di.toNat + 12)) = 0 ↔
      response.len = 0 := by
  have len := (record_parts response).2.1
  have bound := response.len.isLt
  have low : value (answered response memory di) 4 (di.toNat + 8) = response.len.toNat % 2 ^ 32 := by
    rw [answered_field (by omega), ← len]
    omega
  have high : value (answered response memory di) 4 (di.toNat + 12) = response.len.toNat / 2 ^ 32 := by
    rw [answered_field (by omega), ← len]
    omega
  have either : BitVec.ofNat 32 (response.len.toNat % 2 ^ 32) |||
      BitVec.ofNat 32 (response.len.toNat / 2 ^ 32) = 0 ↔
        BitVec.ofNat 32 (response.len.toNat % 2 ^ 32) = 0 ∧
          BitVec.ofNat 32 (response.len.toNat / 2 ^ 32) = 0 := BitVec.or_eq_zero_iff
  rw [low, high, either, ← BitVec.toNat_inj, ← BitVec.toNat_inj, ← BitVec.toNat_inj,
    BitVec.toNat_ofNat, BitVec.toNat_ofNat]
  change response.len.toNat % 2 ^ 32 % 2 ^ 32 = 0 ∧ response.len.toNat / 2 ^ 32 % 2 ^ 32 = 0 ↔
    response.len.toNat = 0
  omega

private theorem keepEntry_answered (valid : response.Valid) :
    keepEntry (answered response memory di) di response.size =
      if response.kept then di + 24 else di := by
  have cx : (response.size.extractLsb' 0 16).toNat = response.size.toNat % 2 ^ 16 := by
    rw [BitVec.extractLsb'_toNat, Nat.shiftRight_zero]
  have cl : (response.size.extractLsb' 0 8).toNat = response.size.toNat % 2 ^ 8 := by
    rw [BitVec.extractLsb'_toNat, Nat.shiftRight_zero]
  have sizeZero : response.size = 0 ↔ response.size.toNat = 0 := by
    rw [← BitVec.toNat_inj]
    rfl
  have cxZero : response.size.extractLsb' 0 16 = 0 ↔ response.size.toNat % 2 ^ 16 = 0 := by
    rw [← BitVec.toNat_inj, cx]
    rfl
  unfold keepEntry
  rw [cl]
  rcases valid with empty | ⟨whole, atMost⟩
  · have skipped : response.kept = false := by
      unfold E820Response.kept
      simp [sizeZero.mpr empty]
    rw [if_pos (cxZero.mpr (by omega)), skipped]
    rfl
  · have notEmpty : response.size ≠ 0 := fun zero => by
      have := sizeZero.mp zero
      omega
    rw [if_neg (fun zero => by have := cxZero.mp zero; omega)]
    have low : response.size.toNat % 2 ^ 8 = response.size.toNat := by omega
    rw [low]
    by_cases ignored : response.ignored = true
    · have facts : 20 < response.size.toNat ∧ response.ext.getLsbD 0 = false := by
        simpa [E820Response.ignored] using ignored
      have skipped : response.kept = false := by
        simp [E820Response.kept, ignored]
      rw [if_pos ⟨facts.1, (answered_attribute facts.1).mpr facts.2⟩, skipped]
      rfl
    · have seen : ¬(20 < response.size.toNat ∧
          answered response memory di (di.toNat + 20) &&& 1 = 0) := by
        intro marked
        apply ignored
        simp only [E820Response.ignored, decide_eq_true_eq]
        exact ⟨marked.1, (answered_attribute marked.1).mp marked.2⟩
      rw [if_neg seen]
      by_cases noLength : response.len = 0
      · have skipped : response.kept = false := by
          simp [E820Response.kept, noLength]
        rw [if_pos ((answered_length whole).mpr noLength), skipped]
        rfl
      · have isKept : response.kept = true := by
          simp only [E820Response.kept, decide_eq_true_eq]
          exact ⟨notEmpty, noLength, by simpa using ignored⟩
        rw [if_neg (fun zero => noLength ((answered_length whole).mp zero)), isKept]
        rfl

/-! ### The table -/

/-- The table up to `di` holds these answers. -/
structure TableHolds (memory : Memory) (di : BitVec 16) (kept : List E820Response) : Prop where
  place : di.toNat = 0x7000 + 24 * kept.length
  entries : ∀ k response, kept[k]? = some response → (mapEntry memory k).Holds response

private theorem mapEntry_congr {k : Nat}
    (same : ∀ place, 0x7000 + 24 * k ≤ place → place < 0x7000 + 24 * k + 24 →
      memory' place = memory place) : mapEntry memory' k = mapEntry memory k := by
  have field : ∀ offset, offset + 8 ≤ 24 → value memory' 8 (0x7000 + 24 * k + offset) =
      value memory 8 (0x7000 + 24 * k + offset) := by
    intro offset inside
    apply value_congr
    intro x below
    exact same _ (by omega) (by omega)
  have base := field 0 (by decide)
  rw [Nat.add_zero] at base
  unfold mapEntry
  rw [base, field 8 (by decide), field 16 (by decide)]

private theorem TableHolds.congr (holds : TableHolds memory di kept)
    (same : ∀ place, 0x7000 ≤ place → place < di.toNat → memory' place = memory place) :
    TableHolds memory' di kept := by
  refine ⟨holds.place, ?_⟩
  intro k response here
  have inside := (List.getElem?_eq_some_iff.mp here).1
  have place := holds.place
  rw [mapEntry_congr (fun place low high => same place (by omega) (by omega))]
  exact holds.entries k response here

private theorem TableHolds.answer (holds : TableHolds memory di kept) (valid : response.Valid)
    (room : 24 * (kept.length + 1) ≤ 0x8000) :
    TableHolds (answered response memory di)
      (keepEntry (answered response memory di) di response.size)
      (kept ++ [response].filter E820Response.kept) := by
  have old : TableHolds (answered response memory di) di kept :=
    holds.congr fun place _ before => answered_before before
  have place := holds.place
  rw [keepEntry_answered valid]
  cases isKept : response.kept with
  | false =>
    have none : [response].filter E820Response.kept = [] := by simp [isKept]
    rw [none, List.append_nil]
    exact old
  | true =>
    have one : [response].filter E820Response.kept = [response] := by simp [isKept]
    have whole : 20 ≤ response.size.toNat := by
      rcases valid with empty | bounds
      · have notZero : response.size ≠ 0 := by
          simp only [E820Response.kept, decide_eq_true_eq] at isKept
          exact isKept.1
        exact absurd (BitVec.eq_of_toNat_eq empty) notZero
      · exact bounds.1
    rw [one]
    refine ⟨?_, ?_⟩
    · rw [if_pos rfl, BitVec.toNat_add, List.length_append]
      change (di.toNat + 24) % 2 ^ 16 = 0x7000 + 24 * (kept.length + 1)
      omega
    · intro k answer here
      rcases Nat.lt_or_ge k kept.length with before | last
      · rw [List.getElem?_append_left before] at here
        exact old.entries k answer here
      · rw [List.getElem?_append_right last] at here
        obtain ⟨inside, value⟩ := List.getElem?_eq_some_iff.mp here
        have atEnd : k = kept.length := by
          rw [List.length_singleton] at inside
          omega
        subst atEnd
        simp only [Nat.sub_self, List.getElem_cons_zero] at value
        subst value
        exact answered_holds place whole

private theorem TableHolds.run (carry : Bool) (responses : List E820Response) (holds : TableHolds memory di kept)
    (valid : ∀ response ∈ responses, response.Valid)
    (room : 24 * (kept.length + (responses.filter E820Response.kept).length) ≤ 0xC00) :
    TableHolds (e820Loop carry responses memory di).1 (e820Loop carry responses memory di).2
      (kept ++ responses.filter E820Response.kept) := by
  induction responses generalizing memory di kept with
  | nil =>
    simp only [e820Loop, List.filter_nil, List.append_nil]
    cases carry with
    | false => exact holds
    | true =>
      apply holds.congr
      intro place _ before
      unfold forceEntry
      rw [if_pos rfl, put_of_outside (by omega)]
  | cons response rest ih =>
    have split : (response :: rest).filter E820Response.kept =
        [response].filter E820Response.kept ++ rest.filter E820Response.kept := by
      rw [← List.filter_append]
      rfl
    have next := holds.answer (valid response List.mem_cons_self) (by omega)
    rw [split] at room ⊢
    rw [List.length_append] at room
    rw [← List.append_assoc]
    apply ih next (fun answer member => valid answer (List.mem_cons_of_mem response member))
    rw [List.length_append]
    omega

/-! ### Handing it over -/

private theorem memoryMap_loop {responses : List E820Response} (two : 2 ≤ responses.length) :
    memoryMap carry responses memory di = e820Loop carry responses memory di := by
  match carry, responses with
  | _, [] => exact absurd two (by decide)
  | _, [_] => exact absurd two (Nat.not_succ_le_self 1)
  | true, _ :: _ :: _ => rfl
  | false, _ :: _ :: _ => rfl

private theorem storeMap_facts (carry : Bool) (memory : Memory) (responses : List E820Response) (two : 2 ≤ responses.length)
    (valid : ∀ response ∈ responses, response.Valid)
    (fits : 24 * (responses.filter E820Response.kept).length ≤ 0xC00) :
    value (storeMap carry responses memory) 2 0x6FF0 =
        24 * (responses.filter E820Response.kept).length ∧
      ∀ k response, (responses.filter E820Response.kept)[k]? = some response →
        (mapEntry (storeMap carry responses memory) k).Holds response := by
  have empty : TableHolds memory 0x7000 [] := by
    refine ⟨rfl, ?_⟩
    intro k response impossible
    cases impossible
  have table := empty.run carry responses valid (by simpa using fits)
  rw [List.nil_append, ← memoryMap_loop two] at table
  have place := table.place
  constructor
  · unfold storeMap
    simp only
    rw [value_put, BitVec.toNat_sub, place]
    change (2 ^ 16 - 0x7000 + _) % 2 ^ 16 % 256 ^ 2 = _
    omega
  · intro k response here
    unfold storeMap
    simp only
    rw [mapEntry_congr (fun place low _ => put_of_outside (by omega))]
    exact table.entries k response here

private theorem memlen_toNat (length : value memory 2 0x6FF0 = size) :
    (memlen memory).toNat = size % 256 / 24 := by
  have low : (memory 0x6FF0).toNat = value memory 2 0x6FF0 % 256 := toNat_first (by decide)
  unfold memlen
  rw [BitVec.toNat_udiv, low, length]
  rfl

private theorem mainMap_length (length : value memory 2 0x6FF0 = 24 * count)
    (same : mainMap memory = storedMap memory) (fits : 24 * count ≤ 0xC00) : count ≤ 10 := by
  have lengths := congrArg List.length same
  unfold mainMap storedMap at lengths
  rw [List.length_map, List.length_map, List.length_range, List.length_range,
    memlen_toNat length, length] at lengths
  omega

/-- The map is handed over when the table is no longer than a byte can count. -/
theorem mapHandedOver_iff (carry : Bool) (responses : List E820Response)
    (two : 2 ≤ responses.length) (valid : ∀ response ∈ responses, response.Valid)
    (fits : 24 * (responses.filter E820Response.kept).length ≤ 0xC00) (memory : Memory) :
    MapHandedOver carry responses memory ↔ (responses.filter E820Response.kept).length ≤ 10 := by
  obtain ⟨length, entries⟩ := storeMap_facts carry memory responses two valid fits
  unfold MapHandedOver
  generalize storeMap carry responses memory = stored at length entries
  generalize responses.filter E820Response.kept = kept at fits length entries
  have count : value stored 2 0x6FF0 / 24 = kept.length := by
    rw [length]
    omega
  constructor
  · intro handed
    exact mainMap_length length handed.2 fits
  · intro short
    constructor
    · unfold storedMap
      rw [count, List.forall₂_iff_get]
      refine ⟨by simp, ?_⟩
      intro k inTable inKept
      rw [List.get_eq_getElem, List.getElem_map, List.getElem_range]
      exact entries k _ (List.getElem?_eq_getElem inKept)
    · -- ten entries of 24 bytes are 240 bytes, so the low byte is the whole length
      have inByte : 24 * kept.length % 256 = 24 * kept.length := Nat.mod_eq_of_lt (by omega)
      have all : (memlen stored).toNat = kept.length := by
        rw [memlen_toNat length, inByte]
        omega
      unfold mainMap storedMap
      rw [all, count]

/-- `count` usable regions of one megabyte. -/
def regions (count : Nat) : List E820Response :=
  (List.range count).map fun k => ⟨20, BitVec.ofNat 64 (k * 0x100000), 0x100000, 1, 0⟩

private theorem regions_facts (count : Nat) :
    (∀ response ∈ regions count, response.Valid) ∧
      (regions count).filter E820Response.kept = regions count := by
  have each : ∀ response ∈ regions count, response.size = 20 ∧ response.len = 0x100000 := by
    intro response member
    obtain ⟨k, _, rfl⟩ := List.mem_map.mp member
    exact ⟨rfl, rfl⟩
  constructor
  · intro response member
    unfold E820Response.Valid
    rw [(each response member).1]
    decide
  · apply List.filter_eq_self.mpr
    intro response member
    obtain ⟨size, len⟩ := each response member
    unfold E820Response.kept E820Response.ignored
    rw [size, len]
    simp

/-- Ten regions are handed over. -/
theorem mapHandedOver_ten : MapHandedOver false (regions 10) fun _ => 0 := by
  obtain ⟨valid, kept⟩ := regions_facts 10
  have all : (regions 10).length = 10 := by simp [regions]
  exact (mapHandedOver_iff false (regions 10) (by rw [all]; decide) valid (by rw [kept, all]; decide)
    fun _ => 0).mpr (by rw [kept, all])

/-- Of eleven regions `pmm_init` sees none. -/
theorem eleven_regions_not_handed_over :
    (∀ response ∈ regions 11, response.Valid) ∧ (regions 11).length = 11 ∧
      (regions 11).filter E820Response.kept = regions 11 ∧
      ¬MapHandedOver false (regions 11) fun _ => 0 := by
  obtain ⟨valid, kept⟩ := regions_facts 11
  have all : (regions 11).length = 11 := by simp [regions]
  refine ⟨valid, all, kept, ?_⟩
  intro handed
  obtain ⟨length, _⟩ := storeMap_facts false (fun _ => 0) (regions 11) (by rw [all]; decide) valid
    (by rw [kept, all]; decide)
  rw [kept, all] at length
  exact absurd (mainMap_length length handed.2 (by decide)) (by decide)

end Osdev64
