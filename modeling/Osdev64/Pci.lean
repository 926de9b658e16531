/-
The configuration space of PCI, as `src/drivers/pci.c` reads it.

`ind` reads 32 bits into `eax`, but `kernel.h` declares it to return 16 of them.
The half of the register that is to be shifted down is gone by then, and a word at
an offset of two modulo four reads as zero.
-/

import Osdev64.Lib.Bytes

namespace Osdev64

open Bytes Word64

/-- The bytes of each function of each slot of each bus. -/
abbrev PciSpace := BitVec 8 → BitVec 5 → BitVec 3 → BitVec 8 → Byte

/-- The devices, and the address last written to `PCI_CONFIG_ADDRESS`. -/
structure PciHost where
  space : PciSpace
  latch : BitVec 32

def pciConfigAddress : BitVec 16 := 0xCF8

def pciConfigData : BitVec 16 := 0xCFC

/-- The register that the address selects; bit 31 enables the mechanism. -/
def PciHost.register (host : PciHost) : BitVec 32 :=
  let bytes := host.space (host.latch.extractLsb' 16 8) (host.latch.extractLsb' 11 5)
    (host.latch.extractLsb' 8 3)
  let offset : BitVec 8 := host.latch.extractLsb' 2 6 ++ 0#2
  if host.latch.getLsbD 31 then
    bytes (offset + 3) ++ bytes (offset + 2) ++ bytes (offset + 1) ++ bytes offset
  else 0xFFFFFFFF

def outd (port : BitVec 16) (data : BitVec 32) (host : PciHost) : PciHost :=
  if port = pciConfigAddress then { host with latch := data } else host

/-- `in eax, dx`. -/
def inEax (port : BitVec 16) (host : PciHost) : BitVec 32 :=
  if port = pciConfigData then host.register else 0xFFFFFFFF

/-- `ind` as it is declared: the caller takes `ax`. -/
def ind (port : BitVec 16) (host : PciHost) : BitVec 16 := (inEax port host).setWidth 16

/-- The value for `PCI_CONFIG_ADDRESS`. -/
def pciAddress (bus slot func offset : BitVec 8) : BitVec 32 :=
  bus.setWidth 32 <<< 16 ||| slot.setWidth 32 <<< 11 ||| func.setWidth 32 <<< 8 |||
    (offset.setWidth 32 &&& 0xFC#32) ||| 1#32 <<< 31

def pciReadWord (bus slot func offset : BitVec 8) (host : PciHost) : BitVec 16 × PciHost :=
  let host := outd pciConfigAddress (pciAddress bus slot func offset) host
  -- `ind` returns 16 bits, which are promoted to `int`
  let data := (ind pciConfigData host).setWidth 32
  ((data >>> ((offset.setWidth 32 &&& 2#32) * 8#32)).setWidth 16, host)

/-- The little-endian word at an offset. -/
def pciWordAt (space : PciSpace) (bus : BitVec 8) (slot : BitVec 5) (func : BitVec 3) (offset : BitVec 8) :
    BitVec 16 :=
  space bus slot func (offset + 1) ++ space bus slot func offset

/-! ### The address -/

section Address

variable (bus slot func offset : BitVec 8)

theorem toNat_low : (offset.setWidth 32 &&& 0xFC#32).toNat = offset.toNat / 4 * 4 := by
  have all : ∀ offset : BitVec 8, (offset.setWidth 32 &&& 0xFC#32).toNat = offset.toNat / 4 * 4 := by
    decide
  exact all offset

variable {slot func}

theorem toNat_pciAddress (slots : slot.toNat < 32) (functions : func.toNat < 8) :
    (pciAddress bus slot func offset).toNat =
      2 ^ 31 + (bus.toNat * 2 ^ 16 + slot.toNat * 2 ^ 11 + func.toNat * 2 ^ 8 + offset.toNat / 4 * 4) := by
  have buses := bus.isLt
  have offsets := offset.isLt
  have atBus := toNat_shifted bus (show 8 + 16 ≤ 32 by decide)
  have atSlot := toNat_shifted slot (show 8 + 11 ≤ 32 by decide)
  have atFunc := toNat_shifted func (show 8 + 8 ≤ 32 by decide)
  have atOffset := toNat_low offset
  have enable : (1#32 <<< 31).toNat = 2 ^ 31 := by decide
  have first : (bus.setWidth 32 <<< 16 ||| slot.setWidth 32 <<< 11).toNat =
      bus.toNat * 2 ^ 16 + slot.toNat * 2 ^ 11 := by
    rw [toNat_or_of_lt 16 (by rw [atBus]; omega) (by rw [atSlot]; omega), atBus, atSlot]
  have second : (bus.setWidth 32 <<< 16 ||| slot.setWidth 32 <<< 11 ||| func.setWidth 32 <<< 8).toNat =
      bus.toNat * 2 ^ 16 + slot.toNat * 2 ^ 11 + func.toNat * 2 ^ 8 := by
    rw [toNat_or_of_lt 11 (by rw [first]; omega) (by rw [atFunc]; omega), first, atFunc]
  have third : (bus.setWidth 32 <<< 16 ||| slot.setWidth 32 <<< 11 ||| func.setWidth 32 <<< 8 |||
      (offset.setWidth 32 &&& 0xFC#32)).toNat =
      bus.toNat * 2 ^ 16 + slot.toNat * 2 ^ 11 + func.toNat * 2 ^ 8 + offset.toNat / 4 * 4 := by
    rw [toNat_or_of_lt 8 (by rw [second]; omega) (by rw [atOffset]; omega), second, atOffset]
  unfold pciAddress
  rw [BitVec.or_comm, toNat_or_of_lt 31 (by decide) (by rw [third]; omega), enable, third]

theorem fields_pciAddress (slots : slot.toNat < 32) (functions : func.toNat < 8) :
    (pciAddress bus slot func offset).getLsbD 31 = true ∧
      (pciAddress bus slot func offset).extractLsb' 16 8 = bus ∧
      (pciAddress bus slot func offset).extractLsb' 11 5 = slot.setWidth 5 ∧
      (pciAddress bus slot func offset).extractLsb' 8 3 = func.setWidth 3 ∧
      ((pciAddress bus slot func offset).extractLsb' 2 6 ++ 0#2 : BitVec 8).toNat = offset.toNat / 4 * 4 := by
  have buses := bus.isLt
  have offsets := offset.isLt
  have value := toNat_pciAddress bus offset slots functions
  refine ⟨(getLsbD_iff _ 31).mpr (by omega), ?_, ?_, ?_, ?_⟩
  · apply BitVec.eq_of_toNat_eq
    rw [BitVec.extractLsb'_toNat, Nat.shiftRight_eq_div_pow, value]
    omega
  · apply BitVec.eq_of_toNat_eq
    rw [BitVec.extractLsb'_toNat, Nat.shiftRight_eq_div_pow, value, BitVec.toNat_setWidth]
    omega
  · apply BitVec.eq_of_toNat_eq
    rw [BitVec.extractLsb'_toNat, Nat.shiftRight_eq_div_pow, value, BitVec.toNat_setWidth]
    omega
  · rw [BitVec.toNat_append, BitVec.extractLsb'_toNat, Nat.shiftRight_eq_div_pow, value,
      BitVec.toNat_zero, Nat.or_zero, Nat.shiftLeft_eq]
    omega

end Address

theorem setWidth_low (third second first zeroth : Byte) :
    (third ++ second ++ first ++ zeroth : BitVec 32).setWidth 16 = first ++ zeroth := by
  ext i below
  rw [BitVec.getElem_setWidth, BitVec.getLsbD_append, BitVec.getLsbD_append, BitVec.getElem_append]
  by_cases low : i < 8
  · rw [dif_pos low, if_pos low]
    exact BitVec.getLsbD_eq_getElem low
  · rw [dif_neg low, if_neg low, if_pos (by omega)]
    exact BitVec.getLsbD_eq_getElem (by omega)

/-- Sixteen bits of the register are left, those of the word at the multiple of four below. -/
theorem ind_pciAddress (bus : BitVec 8) {slot func : BitVec 8} (offset : BitVec 8) (host : PciHost)
    (slots : slot.toNat < 32) (functions : func.toNat < 8) {aligned : BitVec 8}
    (below : aligned.toNat = offset.toNat / 4 * 4) :
    ind pciConfigData (outd pciConfigAddress (pciAddress bus slot func offset) host) =
      pciWordAt host.space bus (slot.setWidth 5) (func.setWidth 3) aligned := by
  obtain ⟨enabled, atBus, atSlot, atFunc, atOffset⟩ := fields_pciAddress bus offset slots functions
  have same : (pciAddress bus slot func offset).extractLsb' 2 6 ++ 0#2 = aligned :=
    BitVec.eq_of_toNat_eq (atOffset.trans below.symm)
  unfold ind inEax PciHost.register outd
  rw [if_pos rfl, if_pos rfl]
  dsimp only
  rw [if_pos enabled, setWidth_low, atBus, atSlot, atFunc, same]
  rfl

theorem pciReadWord_eq (bus : BitVec 8) {slot func offset : BitVec 8} (host : PciHost)
    (slots : slot.toNat < 32) (functions : func.toNat < 8) (even : offset.toNat % 2 = 0) :
    (pciReadWord bus slot func offset host).1 =
      if offset.toNat % 4 = 0 then
        pciWordAt host.space bus (slot.setWidth 5) (func.setWidth 3) offset
      else 0 := by
  have shift : ((offset.setWidth 32 &&& 2#32) * 8#32).toNat = if offset.toNat % 4 = 0 then 0 else 16 := by
    have all : ∀ offset : BitVec 8, offset.toNat % 2 = 0 →
        ((offset.setWidth 32 &&& 2#32) * 8#32).toNat = if offset.toNat % 4 = 0 then 0 else 16 := by
      decide
    exact all offset even
  unfold pciReadWord
  dsimp only
  rw [BitVec.ushiftRight_eq', shift]
  split
  · rename_i multiple
    rw [ind_pciAddress bus offset host slots functions (show offset.toNat = _ by omega),
      BitVec.ushiftRight_zero, BitVec.setWidth_setWidth_of_le _ (by decide), BitVec.setWidth_eq]
  · apply BitVec.eq_of_toNat_eq
    have narrow := (ind pciConfigData
      (outd pciConfigAddress (pciAddress bus slot func offset) host)).isLt
    rw [BitVec.toNat_setWidth, BitVec.toNat_ushiftRight, BitVec.toNat_setWidth, Nat.shiftRight_eq_div_pow]
    change _ = 0
    omega

/-- The word read is the one addressed exactly at the multiples of four, and where the word is zero. -/
theorem pciReadWord_iff (bus slot func offset : BitVec 8) (host : PciHost)
    (slots : slot.toNat < 32) (functions : func.toNat < 8) (even : offset.toNat % 2 = 0) :
    (pciReadWord bus slot func offset host).1 =
        pciWordAt host.space bus (slot.setWidth 5) (func.setWidth 3) offset ↔
      offset.toNat % 4 = 0 ∨ pciWordAt host.space bus (slot.setWidth 5) (func.setWidth 3) offset = 0 := by
  rw [pciReadWord_eq bus host slots functions even]
  split
  · rename_i multiple
    exact iff_of_true rfl (Or.inl multiple)
  · rename_i other
    rw [or_iff_right other]
    exact eq_comm

/-- Each byte of the configuration space is its offset. -/
def countingHost : PciHost := ⟨fun _ _ _ offset => offset, 0⟩

theorem pciReadWord_bar :
    (pciReadWord 0 3 1 0x10 countingHost).1 = pciWordAt countingHost.space 0 3 1 0x10 :=
  (pciReadWord_iff 0 3 1 0x10 countingHost (by decide) (by decide) (by decide)).mpr (Or.inl (by decide))

/-- The device of a function, behind its vendor. -/
theorem upper_word_lost :
    (pciReadWord 0 3 1 2 countingHost).1 = 0 ∧ pciWordAt countingHost.space 0 3 1 2 = 0x0302 := by
  decide

end Osdev64
