/-
The page tables `src/boot/boot.asm` builds before it enters long mode.

Memory is written in double words, as the 32-bit code does.  The clearing loop
covers four frames; of the fifth, the second page table, only the low halves of
the entries are ever written.
-/

import Osdev64.Lib.Paging

namespace Osdev64

open Word64 Paging

def dwordFrame (address : Nat) : Frame := BitVec.ofNat 40 (address / 4096)

def dwordIndex (address : Nat) : Index := BitVec.ofNat 9 (address % 4096 / 8)

def storeDword (tables : Tables) (address : Nat) (value : BitVec 32) : Tables :=
  let word := tables (dwordFrame address) (dwordIndex address)
  setEntry tables (dwordFrame address) (dwordIndex address)
    (if address % 8 < 4 then word.extractLsb' 32 32 ++ value else value ++ word.extractLsb' 0 32)

/-- `rep stosd`. -/
def repStosd (tables : Tables) (edi ecx : Nat) (eax : BitVec 32) : Tables :=
  (List.range ecx).foldl (fun tables k => storeDword tables (edi + 4 * k) eax) tables

def pagingPml4 : Nat := 0x003F1000
def pagingPdp : Nat := 0x003F2000
def pagingPd : Nat := 0x003F3000
def pagingPt : Nat := 0x003F4000
def pagingPt2 : Nat := 0x003F5000

/-- The loop that fills both page tables. -/
def fillTables (tables : Tables) (edi esi ecx : Nat) (eax edx : BitVec 32) : Tables :=
  (List.range ecx).foldl (fun tables k =>
    storeDword (storeDword tables (esi + 8 * k) (edx + BitVec.ofNat 32 k * 0x1000)) (edi + 8 * k)
      (eax + BitVec.ofNat 32 k * 0x1000)) tables

/-- The tables `preplongmode` leaves; `cr3` is set to `paging.pml4`. -/
def preplongmode (tables : Tables) : Tables :=
  let tables := repStosd tables pagingPml4 0x1000 0
  let eax : BitVec 32 := BitVec.ofNat 32 pagingPdp ||| 3
  let tables := storeDword tables pagingPml4 eax
  let tables := storeDword tables (pagingPml4 + 0xFF8) eax
  let eax : BitVec 32 := BitVec.ofNat 32 pagingPd ||| 3
  let tables := storeDword tables pagingPdp eax
  let tables := storeDword tables (pagingPdp + 0xFF0) eax
  let tables := storeDword tables pagingPd (BitVec.ofNat 32 pagingPt ||| 3)
  let tables := storeDword tables (pagingPd + 8) (BitVec.ofNat 32 pagingPt2 ||| 3)
  fillTables tables pagingPt pagingPt2 512 3 0x00200003

/-! ### Reading double words back -/

def loadDword (tables : Tables) (address : Nat) : BitVec 32 :=
  let word := tables (dwordFrame address) (dwordIndex address)
  if address % 8 < 4 then word.extractLsb' 0 32 else word.extractLsb' 32 32

private theorem slot_eq {left right : Nat} (leftSmall : left < 2 ^ 52) (rightSmall : right < 2 ^ 52) :
    dwordFrame left = dwordFrame right ∧ dwordIndex left = dwordIndex right ↔
      left / 8 = right / 8 := by
  constructor
  · rintro ⟨sameFrame, sameIndex⟩
    have frames := congrArg BitVec.toNat sameFrame
    have indices := congrArg BitVec.toNat sameIndex
    simp only [dwordFrame, dwordIndex, BitVec.toNat_ofNat] at frames indices
    omega
  · intro same
    constructor
    · apply BitVec.eq_of_toNat_eq
      simp only [dwordFrame, BitVec.toNat_ofNat]
      omega
    · apply BitVec.eq_of_toNat_eq
      simp only [dwordIndex, BitVec.toNat_ofNat]
      omega

theorem loadDword_storeDword (tables : Tables) {address other : Nat} (value : BitVec 32)
    (addressSmall : address < 2 ^ 52) (otherSmall : other < 2 ^ 52)
    (aligned : address % 4 = 0) (otherAligned : other % 4 = 0) :
    loadDword (storeDword tables address value) other =
      if other = address then value else loadDword tables other := by
  unfold loadDword storeDword
  simp only
  by_cases sameWord : other / 8 = address / 8
  · obtain ⟨sameFrame, sameIndex⟩ := (slot_eq otherSmall addressSmall).mpr sameWord
    rw [sameFrame, sameIndex, setEntry_same]
    by_cases same : other = address
    · subst same
      rw [if_pos rfl]
      split
      · exact BitVec.extractLsb'_append_eq_right
      · exact BitVec.extractLsb'_append_eq_left
    · rw [if_neg same]
      split
      · rename_i low
        rw [if_neg (by omega)]
        exact BitVec.extractLsb'_append_eq_right
      · rename_i high
        rw [if_pos (by omega)]
        exact BitVec.extractLsb'_append_eq_left
  · have different : other ≠ address := by
      rintro rfl
      exact sameWord rfl
    rw [if_neg different, setEntry_of_ne]
    rintro slot
    exact sameWord ((slot_eq otherSmall addressSmall).mp slot)

theorem loadDword_repStosd (tables : Tables) {edi ecx other : Nat} (eax : BitVec 32)
    (inside : edi + 4 * ecx < 2 ^ 52) (otherSmall : other < 2 ^ 52) (aligned : edi % 4 = 0)
    (otherAligned : other % 4 = 0) :
    loadDword (repStosd tables edi ecx eax) other =
      if edi ≤ other ∧ other < edi + 4 * ecx then eax else loadDword tables other := by
  induction ecx with
  | zero =>
    rw [if_neg (by omega)]
    rfl
  | succ ecx ih =>
    unfold repStosd at ih ⊢
    rw [List.range_succ, List.foldl_append, List.foldl_cons, List.foldl_nil,
      loadDword_storeDword _ _ (by omega) otherSmall (by omega) otherAligned, ih (by omega)]
    by_cases last : other = edi + 4 * ecx
    · rw [if_pos last, if_pos (by omega)]
    · rw [if_neg last]
      by_cases earlier : edi ≤ other ∧ other < edi + 4 * ecx
      · rw [if_pos earlier, if_pos (by omega)]
      · rw [if_neg earlier, if_neg (by omega)]

theorem loadDword_fillTables (tables : Tables) {edi esi ecx other : Nat} (eax edx : BitVec 32)
    (short : ecx ≤ 512) (apart : edi + 4096 ≤ esi) (inside : esi + 8 * ecx < 2 ^ 52)
    (otherSmall : other < 2 ^ 52) (aligned : edi % 8 = 0) (aligned' : esi % 8 = 0)
    (otherAligned : other % 4 = 0) :
    loadDword (fillTables tables edi esi ecx eax edx) other =
      if other % 8 = 0 ∧ edi ≤ other ∧ other < edi + 8 * ecx then
        eax + BitVec.ofNat 32 ((other - edi) / 8) * 0x1000
      else if other % 8 = 0 ∧ esi ≤ other ∧ other < esi + 8 * ecx then
        edx + BitVec.ofNat 32 ((other - esi) / 8) * 0x1000
      else loadDword tables other := by
  induction ecx with
  | zero =>
    rw [if_neg (by omega), if_neg (by omega)]
    rfl
  | succ ecx ih =>
    unfold fillTables at ih ⊢
    rw [List.range_succ, List.foldl_append, List.foldl_cons, List.foldl_nil,
      loadDword_storeDword _ _ (by omega) otherSmall (by omega) otherAligned,
      loadDword_storeDword _ _ (by omega) otherSmall (by omega) otherAligned,
      ih (by omega) (by omega)]
    by_cases first : other = edi + 8 * ecx
    · have count : (other - edi) / 8 = ecx := by omega
      rw [if_pos first, if_pos (by omega), count]
    · rw [if_neg first]
      by_cases second : other = esi + 8 * ecx
      · have count : (other - esi) / 8 = ecx := by omega
        rw [if_pos second, if_neg (by omega), if_pos (by omega), count]
      · rw [if_neg second]
        by_cases inFirst : other % 8 = 0 ∧ edi ≤ other ∧ other < edi + 8 * ecx
        · rw [if_pos inFirst, if_pos (by omega)]
        · by_cases inSecond : other % 8 = 0 ∧ esi ≤ other ∧ other < esi + 8 * ecx
          · rw [if_neg inFirst, if_pos inSecond, if_neg (by omega), if_pos (by omega)]
          · rw [if_neg inFirst, if_neg inSecond, if_neg (by omega), if_neg (by omega)]

theorem loadDword_preplongmode (tables : Tables) {address : Nat} (small : address < 2 ^ 52)
    (aligned : address % 4 = 0) :
    loadDword (preplongmode tables) address =
      if address % 8 = 0 ∧ 0x3F4000 ≤ address ∧ address < 0x3F5000 then
        3 + BitVec.ofNat 32 ((address - 0x3F4000) / 8) * 0x1000
      else if address % 8 = 0 ∧ 0x3F5000 ≤ address ∧ address < 0x3F6000 then
        0x00200003 + BitVec.ofNat 32 ((address - 0x3F5000) / 8) * 0x1000
      else if address = 0x3F3008 then 0x3F5003
      else if address = 0x3F3000 then 0x3F4003
      else if address = 0x3F2FF0 then 0x3F3003
      else if address = 0x3F2000 then 0x3F3003
      else if address = 0x3F1FF8 then 0x3F2003
      else if address = 0x3F1000 then 0x3F2003
      else if 0x3F1000 ≤ address ∧ address < 0x3F5000 then 0
      else loadDword tables address := by
  unfold preplongmode pagingPml4 pagingPdp pagingPd pagingPt pagingPt2
  simp only
  rw [loadDword_fillTables _ _ _ (by omega) (by omega) (by omega) small (by omega) (by omega) aligned,
    loadDword_storeDword _ _ (by omega) small (by omega) aligned,
    loadDword_storeDword _ _ (by omega) small (by omega) aligned,
    loadDword_storeDword _ _ (by omega) small (by omega) aligned,
    loadDword_storeDword _ _ (by omega) small (by omega) aligned,
    loadDword_storeDword _ _ (by omega) small (by omega) aligned,
    loadDword_storeDword _ _ (by omega) small (by omega) aligned,
    loadDword_repStosd _ _ (by omega) small (by omega) aligned]
  rfl

/-! ### The tables as words -/

def wordAddress (frame : Frame) (index : Index) : Nat := frame.toNat * 4096 + index.toNat * 8

theorem word_eq_dwords (tables : Tables) (frame : Frame) (index : Index) :
    tables frame index =
      loadDword tables (wordAddress frame index + 4) ++ loadDword tables (wordAddress frame index) := by
  have frameBound := frame.isLt
  have indexBound := index.isLt
  have frameEq : ∀ offset < 8, dwordFrame (wordAddress frame index + offset) = frame := by
    intro offset small
    apply BitVec.eq_of_toNat_eq
    simp only [dwordFrame, wordAddress, BitVec.toNat_ofNat]
    omega
  have indexEq : ∀ offset < 8, dwordIndex (wordAddress frame index + offset) = index := by
    intro offset small
    apply BitVec.eq_of_toNat_eq
    simp only [dwordIndex, wordAddress, BitVec.toNat_ofNat]
    omega
  have low : loadDword tables (wordAddress frame index) =
      (tables frame index).extractLsb' 0 32 := by
    unfold loadDword
    have frameHere := frameEq 0 (by omega)
    have indexHere := indexEq 0 (by omega)
    rw [Nat.add_zero] at frameHere indexHere
    rw [frameHere, indexHere]
    exact if_pos (by unfold wordAddress; omega)
  have high : loadDword tables (wordAddress frame index + 4) =
      (tables frame index).extractLsb' 32 32 := by
    unfold loadDword
    rw [frameEq 4 (by omega), indexEq 4 (by omega)]
    exact if_neg (by unfold wordAddress; omega)
  rw [low, high]
  apply BitVec.eq_of_toNat_eq
  have bound := (tables frame index).isLt
  rw [BitVec.toNat_append, BitVec.extractLsb'_toNat, BitVec.extractLsb'_toNat,
    Nat.shiftRight_zero, Nat.shiftRight_eq_div_pow, ← Nat.shiftLeft_add_eq_or_of_lt (by omega),
    Nat.shiftLeft_eq]
  omega

private theorem zero_append (value : Nat) (small : value < 2 ^ 32) :
    (0 : BitVec 32) ++ BitVec.ofNat 32 value = (BitVec.ofNat 64 value : Word) := by
  apply BitVec.eq_of_toNat_eq
  rw [BitVec.toNat_append, BitVec.toNat_ofNat, BitVec.toNat_ofNat]
  change 0 <<< 32 ||| value % 2 ^ 32 = value % 2 ^ 64
  rw [Nat.zero_shiftLeft, Nat.zero_or]
  omega

variable (tables : Tables)

private theorem index_eq_iff (index : Index) (value : Nat) (small : value < 512) :
    index = BitVec.ofNat 9 value ↔ index.toNat = value := by
  constructor
  · rintro rfl
    rw [BitVec.toNat_ofNat]
    omega
  · intro same
    apply BitVec.eq_of_toNat_eq
    rw [same, BitVec.toNat_ofNat]
    omega

/-- The clearing loop leaves the high half of every entry of the first four tables zero. -/
private theorem high_cleared {frame : Frame} (index : Index) (low : 0x3F1 ≤ frame.toNat)
    (high : frame.toNat ≤ 0x3F4) :
    loadDword (preplongmode tables) (wordAddress frame index + 4) = 0 := by
  have indexBound := index.isLt
  unfold wordAddress
  rw [loadDword_preplongmode tables (by omega) (by omega), if_neg (by omega), if_neg (by omega),
    if_neg (by omega), if_neg (by omega), if_neg (by omega), if_neg (by omega),
    if_neg (by omega), if_neg (by omega), if_pos (by omega)]

theorem preplongmode_pml4 (index : Index) :
    preplongmode tables 0x3F1 index = if index = 0 ∨ index = 0x1FF then 0x3F2003 else 0 := by
  have indexBound := index.isLt
  have first : index = 0 ↔ index.toNat = 0 := index_eq_iff index 0 (by omega)
  have last : index = 0x1FF ↔ index.toNat = 511 := index_eq_iff index 511 (by omega)
  rw [word_eq_dwords (preplongmode tables), high_cleared tables index (by decide) (by decide)]
  have address : wordAddress 0x3F1 index = 0x3F1000 + index.toNat * 8 := rfl
  rw [address, loadDword_preplongmode tables (by omega) (by omega), if_neg (by omega),
    if_neg (by omega), if_neg (by omega), if_neg (by omega), if_neg (by omega), if_neg (by omega)]
  simp only [first, last]
  by_cases set : index.toNat = 0 ∨ index.toNat = 511
  · rw [if_pos set]
    rcases set with atFirst | atLast
    · rw [if_neg (by omega), if_pos (by omega)]
      rfl
    · rw [if_pos (by omega)]
      rfl
  · rw [if_neg set, if_neg (by omega), if_neg (by omega), if_pos (by omega)]
    rfl

theorem preplongmode_pdp (index : Index) :
    preplongmode tables 0x3F2 index = if index = 0 ∨ index = 0x1FE then 0x3F3003 else 0 := by
  have indexBound := index.isLt
  have first : index = 0 ↔ index.toNat = 0 := index_eq_iff index 0 (by omega)
  have last : index = 0x1FE ↔ index.toNat = 510 := index_eq_iff index 510 (by omega)
  rw [word_eq_dwords (preplongmode tables), high_cleared tables index (by decide) (by decide)]
  have address : wordAddress 0x3F2 index = 0x3F2000 + index.toNat * 8 := rfl
  rw [address, loadDword_preplongmode tables (by omega) (by omega), if_neg (by omega),
    if_neg (by omega), if_neg (by omega), if_neg (by omega)]
  simp only [first, last]
  by_cases set : index.toNat = 0 ∨ index.toNat = 510
  · rw [if_pos set]
    rcases set with atFirst | atLast
    · rw [if_neg (by omega), if_pos (by omega)]
      rfl
    · rw [if_pos (by omega)]
      rfl
  · rw [if_neg set, if_neg (by omega), if_neg (by omega), if_neg (by omega), if_neg (by omega),
      if_pos (by omega)]
    rfl

theorem preplongmode_pd (index : Index) :
    preplongmode tables 0x3F3 index =
      if index = 0 then 0x3F4003 else if index = 1 then 0x3F5003 else 0 := by
  have indexBound := index.isLt
  have first : index = 0 ↔ index.toNat = 0 := index_eq_iff index 0 (by omega)
  have second : index = 1 ↔ index.toNat = 1 := index_eq_iff index 1 (by omega)
  rw [word_eq_dwords (preplongmode tables), high_cleared tables index (by decide) (by decide)]
  have address : wordAddress 0x3F3 index = 0x3F3000 + index.toNat * 8 := rfl
  rw [address, loadDword_preplongmode tables (by omega) (by omega), if_neg (by omega),
    if_neg (by omega)]
  simp only [first, second]
  by_cases atFirst : index.toNat = 0
  · rw [if_pos atFirst, if_neg (by omega), if_pos (by omega)]
    rfl
  · by_cases atSecond : index.toNat = 1
    · rw [if_neg atFirst, if_pos atSecond, if_pos (by omega)]
      rfl
    · rw [if_neg atFirst, if_neg atSecond, if_neg (by omega), if_neg (by omega), if_neg (by omega),
        if_neg (by omega), if_neg (by omega), if_neg (by omega), if_pos (by omega)]
      rfl

private theorem fill_value (start index : Nat) :
    BitVec.ofNat 32 start + BitVec.ofNat 32 index * 0x1000 =
      BitVec.ofNat 32 (start + index * 4096) := by
  apply BitVec.eq_of_toNat_eq
  rw [BitVec.toNat_add, BitVec.toNat_mul, BitVec.toNat_ofNat, BitVec.toNat_ofNat,
    BitVec.toNat_ofNat]
  change (start % 2 ^ 32 + index % 2 ^ 32 * 4096 % 2 ^ 32) % 2 ^ 32 = _
  omega

theorem preplongmode_pt (index : Index) :
    preplongmode tables 0x3F4 index = BitVec.ofNat 64 (3 + index.toNat * 4096) := by
  have indexBound := index.isLt
  rw [word_eq_dwords (preplongmode tables), high_cleared tables index (by decide) (by decide)]
  have address : wordAddress 0x3F4 index = 0x3F4000 + index.toNat * 8 := rfl
  have offset : (0x3F4000 + index.toNat * 8 - 0x3F4000) / 8 = index.toNat := by omega
  rw [address, loadDword_preplongmode tables (by omega) (by omega), if_pos (by omega), offset]
  have low : (3 : BitVec 32) + BitVec.ofNat 32 index.toNat * 0x1000 =
      BitVec.ofNat 32 (3 + index.toNat * 4096) := fill_value 3 index.toNat
  rw [low, zero_append _ (by omega)]

theorem preplongmode_pt2 (index : Index) :
    preplongmode tables 0x3F5 index =
      (tables 0x3F5 index).extractLsb' 32 32 ++
        BitVec.ofNat 32 (0x200003 + index.toNat * 4096) := by
  have indexBound := index.isLt
  have address : wordAddress 0x3F5 index = 0x3F5000 + index.toNat * 8 := rfl
  have offset : (0x3F5000 + index.toNat * 8 - 0x3F5000) / 8 = index.toNat := by omega
  have old := word_eq_dwords tables 0x3F5 index
  have high : loadDword (preplongmode tables) (wordAddress 0x3F5 index + 4) =
      loadDword tables (wordAddress 0x3F5 index + 4) := by
    rw [address, loadDword_preplongmode tables (by omega) (by omega), if_neg (by omega),
      if_neg (by omega), if_neg (by omega), if_neg (by omega), if_neg (by omega),
      if_neg (by omega), if_neg (by omega), if_neg (by omega), if_neg (by omega)]
  have low : loadDword (preplongmode tables) (wordAddress 0x3F5 index) =
      BitVec.ofNat 32 (0x200003 + index.toNat * 4096) := by
    rw [address, loadDword_preplongmode tables (by omega) (by omega), if_neg (by omega),
      if_pos (by omega), offset]
    exact fill_value 0x200003 index.toNat
  rw [word_eq_dwords (preplongmode tables), high, low, old, BitVec.extractLsb'_append_eq_left]

theorem preplongmode_elsewhere {frame : Frame} (index : Index)
    (outside : frame.toNat < 0x3F1 ∨ 0x3F5 < frame.toNat) :
    preplongmode tables frame index = tables frame index := by
  have indexBound := index.isLt
  have frameBound := frame.isLt
  have same : ∀ offset, offset < 8 → offset % 4 = 0 →
      loadDword (preplongmode tables) (wordAddress frame index + offset) =
        loadDword tables (wordAddress frame index + offset) := by
    intro offset inside aligned
    unfold wordAddress
    rw [loadDword_preplongmode tables (by omega) (by omega), if_neg (by omega), if_neg (by omega),
      if_neg (by omega), if_neg (by omega), if_neg (by omega), if_neg (by omega),
      if_neg (by omega), if_neg (by omega), if_neg (by omega)]
  rw [word_eq_dwords (preplongmode tables), same 4 (by omega) (by omega)]
  have low := same 0 (by omega) (by omega)
  rw [Nat.add_zero] at low
  rw [low, ← word_eq_dwords]

-- The lemmas above say all that is used; unfolding runs the clearing loop.
attribute [irreducible] preplongmode

end Osdev64
