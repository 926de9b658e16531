/-
The bytes of physical memory, and accesses to single bytes.

Memory is made of words, with the low byte first.  A byte is stored by storing
the word around it again with that byte changed.
-/

import Osdev64.Lib.Bytes
import Osdev64.Lib.Program

namespace Paging

open Word64 Bytes

/-! ### Bytes of a word -/

def wordByte (word : Word) (k : Nat) : Byte := word.extractLsb' (8 * k) 8

def setWordByte (word : Word) (k : Nat) (byte : Byte) : Word :=
  (word &&& ~~~((0xFF : Word) <<< (8 * k))) ||| (byte.setWidth 64 <<< (8 * k))

private theorem getLsbD_ones (i : Nat) : (0xFF : Word).getLsbD i = decide (i < 8) := by
  rw [show (0xFF : Word) = BitVec.ofNat 64 (2 ^ 8 - 1) from rfl, BitVec.getLsbD_ofNat, Nat.testBit_two_pow_sub_one]
  by_cases low : i < 8
  · simp [low, show i < 64 by omega]
  · simp [low]

theorem wordByte_setWordByte {j k : Nat} (first : j < 8) (second : k < 8) (word : Word) (byte : Byte) :
    wordByte (setWordByte word k byte) j = if j = k then byte else wordByte word j := by
  apply BitVec.eq_of_getLsbD_eq
  intro i low
  have inside : 8 * j + i < 64 := by omega
  unfold wordByte setWordByte
  simp only [BitVec.getLsbD_extractLsb', BitVec.getLsbD_or, BitVec.getLsbD_and, BitVec.getLsbD_not,
    BitVec.getLsbD_shiftLeft, BitVec.getLsbD_setWidth, getLsbD_ones, low, inside, decide_true,
    Bool.true_and]
  rcases Nat.lt_trichotomy j k with below | same | above
  · rw [if_neg (by omega), BitVec.getLsbD_extractLsb']
    simp [low, show 8 * j + i < 8 * k by omega]
  · subst same
    simp [low, show ¬8 * j + i < 8 * j by omega, show i < 64 by omega]
  · have far : ¬8 * j + i - 8 * k < 8 := by omega
    have outside : byte.getLsbD (8 * j + i - 8 * k) = false := BitVec.getLsbD_of_ge _ _ (by omega)
    rw [if_neg (by omega), BitVec.getLsbD_extractLsb']
    simp [low, far, outside]

theorem wordByte_value (memory : Memory) (place : Nat) {k : Nat} (below : k < 8) :
    wordByte (BitVec.ofNat 64 (value memory 8 place)) k = memory (place + k) := by
  have whole : value memory 8 place % 256 ^ 8 = value memory 8 place := value_mod (Nat.le_refl 8)
  apply BitVec.eq_of_toNat_eq
  unfold wordByte
  rw [BitVec.extractLsb'_toNat, BitVec.toNat_ofNat]
  change (value memory 8 place % 256 ^ 8) >>> (8 * k) % 256 = _
  rw [whole, Nat.shiftRight_eq_div_pow, Nat.pow_mul]
  exact value_byte below

/-! ### Bytes of a frame -/

def frameByte (tables : Tables) (frame : Frame) (offset : Nat) : Byte :=
  wordByte (tables frame (BitVec.ofNat 9 (offset / 8))) (offset % 8)

def setFrameByte (tables : Tables) (frame : Frame) (offset : Nat) (byte : Byte) : Tables :=
  setEntry tables frame (BitVec.ofNat 9 (offset / 8))
    (setWordByte (tables frame (BitVec.ofNat 9 (offset / 8))) (offset % 8) byte)

theorem frameByte_setFrameByte {tables : Tables} {frame other : Frame} {offset place : Nat}
    (inside : offset < 4096) (inside' : place < 4096) (byte : Byte) :
    frameByte (setFrameByte tables frame offset byte) other place =
      if other = frame ∧ place = offset then byte else frameByte tables other place := by
  unfold frameByte setFrameByte
  by_cases sameWord : other = frame ∧ BitVec.ofNat 9 (place / 8) = BitVec.ofNat 9 (offset / 8)
  · obtain ⟨rfl, sameIndex⟩ := sameWord
    have quotient : place / 8 = offset / 8 := by
      have values := congrArg BitVec.toNat sameIndex
      rw [BitVec.toNat_ofNat, BitVec.toNat_ofNat] at values
      omega
    rw [sameIndex, setEntry_same,
      wordByte_setWordByte (Nat.mod_lt _ (by decide)) (Nat.mod_lt _ (by decide))]
    by_cases samePlace : place = offset
    · rw [if_pos (by rw [samePlace]), if_pos ⟨rfl, samePlace⟩]
    · rw [if_neg (by omega), if_neg fun both => samePlace both.2]
  · rw [setEntry_of_ne sameWord, if_neg]
    rintro ⟨rfl, rfl⟩
    exact sameWord ⟨rfl, rfl⟩

theorem frameByte_congr {tables tables' : Tables} {frame : Frame} (same : tables' frame = tables frame)
    (offset : Nat) : frameByte tables' frame offset = frameByte tables frame offset := by
  unfold frameByte
  rw [same]

theorem setFrameByte_other {tables : Tables} {frame other : Frame} (different : other ≠ frame)
    (offset : Nat) (byte : Byte) : setFrameByte tables frame offset byte other = tables other := by
  funext place
  exact setEntry_of_ne fun same => different same.1

/-! ### Accesses -/

variable {σ : Type} {machine : Machine σ} {address : Word} {leaf : Leaf}

/-- The byte an address reads; `none` is a page fault. -/
def Machine.byteAt (machine : Machine σ) (address : Word) : Option Byte :=
  (walk machine.tables machine.root address).map fun leaf =>
    frameByte machine.tables leaf.frame (address.toNat % 4096)

/-- The word around an address. -/
def wordAround (address : Word) : Pointer := { address := address &&& ~~~7, target := none }

def Prog.readByte (address : Word) : Prog σ Byte := do
  let word ← Prog.read (wordAround address) 0
  pure (wordByte word (address.toNat % 8))

def Prog.writeByte (address : Word) (byte : Byte) : Prog σ Unit := do
  let word ← Prog.read (wordAround address) 0
  Prog.write (wordAround address) 0 (setWordByte word (address.toNat % 8) byte)

private theorem wordAround_toNat (address : Word) :
    ((wordAround address).entry 0).toNat = address.toNat / 8 * 8 := by
  have mask : ~~~(7 : Word) = BitVec.allOnes 64 <<< 3 := by decide
  have start : (wordAround address).entry 0 = address &&& ~~~7 := BitVec.add_zero _
  rw [start, mask, toNat_and_high]
  rfl

theorem locate_wordAround (machine : Machine σ) (address : Word) :
    machine.locate (wordAround address) 0 =
      (walk machine.tables machine.root address).map fun leaf =>
        (leaf.frame, BitVec.ofNat 9 (address.toNat % 4096 / 8)) := by
  have value := wordAround_toNat address
  have samePage : ((wordAround address).entry 0).toNat / 4096 = address.toNat / 4096 := by omega
  have sameIndex : ((wordAround address).entry 0).extractLsb' 3 9 =
      BitVec.ofNat 9 (address.toNat % 4096 / 8) := by
    apply BitVec.eq_of_toNat_eq
    rw [BitVec.extractLsb'_toNat, value, Nat.shiftRight_eq_div_pow, BitVec.toNat_ofNat]
    omega
  unfold Machine.locate
  rw [walk_page samePage, sameIndex]

theorem readByte_run (machine : Machine σ) (address : Word) :
    (Prog.readByte address).run machine = (machine.byteAt address).map fun byte => (byte, machine) := by
  have place : address.toNat % 4096 % 8 = address.toNat % 8 := by omega
  unfold Prog.readByte Machine.byteAt
  rw [Prog.run_andThen]
  simp only [Prog.read, Prog.run, locate_wordAround]
  cases walk machine.tables machine.root address with
  | none => rfl
  | some leaf =>
    simp only [Option.map_some, Option.bind_some, Prog.run_pure, frameByte, place]

theorem writeByte_run (found : walk machine.tables machine.root address = some leaf) (byte : Byte) :
    (Prog.writeByte address byte).run machine =
      some ((), { machine with
        tables := setFrameByte machine.tables leaf.frame (address.toNat % 4096) byte }) := by
  have place : address.toNat % 4096 % 8 = address.toNat % 8 := by omega
  unfold Prog.writeByte
  rw [Prog.run_andThen]
  simp only [Prog.read, Prog.write, Prog.run, locate_wordAround, found, Option.map_some,
    Option.bind_some, Machine.write, setFrameByte, place]

theorem writeByte_fault (absent : walk machine.tables machine.root address = none) (byte : Byte) :
    (Prog.writeByte address byte).run machine = none := by
  unfold Prog.writeByte
  rw [Prog.run_andThen]
  simp only [Prog.read, Prog.run, locate_wordAround, absent, Option.map_none, Option.bind_none]

end Paging
