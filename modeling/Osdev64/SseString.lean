/-
The string functions on 16 bytes at a time: `sse_strlen` and `sse_strcmp`, beside
the bytewise `strlen` and `strncmp`.

Both loops step through the string in blocks and leave at the block that holds a
terminator.  The block is read to its end, which may lie behind the last mapped
page.  `sse_strlen` needs nothing else.  `sse_strcmp` looks at the flag of the
second string only, forgets what an earlier block said, and reads the two bytes of its
answer at the index inside the block instead of inside the string.
-/

import Osdev64.Lib.Bytes
import Osdev64.Lib.PackedCompare
import Mathlib.Data.BitVec
import Mathlib.Data.Int.Order.Basic
import Mathlib.Order.Compare

namespace Osdev64

open Word64 Bytes PackedCompare

/-! ### Strings in memory -/

/-- `s[index]`. -/
def charAt (memory : Word → Byte) (s : Word) (index : Nat) : Byte := memory (s + BitVec.ofNat 64 index)

/-- A string of this length, with a terminator. -/
structure StringAt (memory : Word → Byte) (s : Word) (length : Nat) : Prop where
  terminator : charAt memory s length = 0
  nonzero : ∀ index < length, charAt memory s index ≠ 0

/-- The 16 bytes at an address, as an xmm register takes them. -/
def xmmAt (memory : Word → Byte) (address : Word) : Fin 16 → Byte := fun lane => charAt memory address lane

/-- The bytes at the mapped addresses. -/
def seen (translation : Translation) (memory : Memory) : Word → Byte := fun address =>
  memory ((translation address).getD 0)

/-- One byte, and 16 bytes; `none` is a page fault. -/
def loadByte (translation : Translation) (memory : Memory) (address : Word) : Option Byte :=
  (translation address).map memory

def loadXmm (translation : Translation) (memory : Memory) (address : Word) : Option (Fin 16 → Byte) :=
  if ∀ lane : Fin 16, (translation (address + BitVec.ofNat 64 lane)).isSome then
    some (xmmAt (seen translation memory) address)
  else none

/-! ### The functions -/

def Asm.strlenLoop (translation : Translation) (memory : Memory) : Nat → Word → Word → Option Word
  | 0, _, _ => none
  | fuel + 1, rsi, rcx => do
    -- lodsb
    let al ← loadByte translation memory rsi
    if al = 0 then pure rcx else Asm.strlenLoop translation memory fuel (rsi + 1) (rcx + 1)

/-- `strlen`; `none` is a page fault, or no fuel left. -/
def Asm.strlen (translation : Translation) (memory : Memory) (fuel : Nat) (rdi : Word) : Option Word :=
  Asm.strlenLoop translation memory fuel rdi 0

def sseStrlenLoop (translation : Translation) (memory : Memory) (rdi : Word) : Nat → Word → Option Word
  | 0, _ => none
  | fuel + 1, rax => do
    let rax := rax + 16
    let operand ← loadXmm translation memory (rdi + rax)
    let outcome := pcmpistri false (fun _ => 0) operand
    if outcome.zero then pure (rax + BitVec.ofNat 64 outcome.index)
    else sseStrlenLoop translation memory rdi fuel rax

def sseStrlen (translation : Translation) (memory : Memory) (fuel : Nat) (rdi : Word) : Option Word :=
  sseStrlenLoop translation memory rdi fuel (-16)

def strncmpLoop (memory : Word → Byte) : Nat → Word → Word → Int
  | 0, _, _ => 0
  | n + 1, s1, s2 =>
    if memory s1 ≠ memory s2 then (if (memory s1).toNat < (memory s2).toNat then -1 else 1)
    else if memory s1 = 0 then 0
    else strncmpLoop memory n (s1 + 1) (s2 + 1)

def strncmp (memory : Word → Byte) (s1 s2 n : Word) : Int := strncmpLoop memory n.toNat s1 s2

/-- The loop leaves with the flags and the index of its last comparison. -/
def sseStrcmpLoop (translation : Translation) (memory : Memory) (rdi rsi : Word) :
    Nat → Word → Option Outcome
  | 0, _ => none
  | fuel + 1, rax => do
    let rax := rax + 16
    let xmm1 ← loadXmm translation memory (rdi + rax)
    let operand ← loadXmm translation memory (rsi + rax)
    let outcome := pcmpistri true xmm1 operand
    if outcome.zero then pure outcome else sseStrcmpLoop translation memory rdi rsi fuel rax

/-- What is done with them: `rax` is not added to the index. -/
def sseStrcmpAnswer (translation : Translation) (memory : Memory) (rdi rsi : Word) (outcome : Outcome) :
    Option Word :=
  if outcome.carry then do
    let rax ← loadByte translation memory (rdi + BitVec.ofNat 64 outcome.index)
    let rdx ← loadByte translation memory (rsi + BitVec.ofNat 64 outcome.index)
    pure (rax.setWidth 64 - rdx.setWidth 64)
  else pure 0

def sseStrcmp (translation : Translation) (memory : Memory) (fuel : Nat) (rdi rsi : Word) : Option Word :=
  do
    let outcome ← sseStrcmpLoop translation memory rdi rsi fuel (-16)
    sseStrcmpAnswer translation memory rdi rsi outcome

/-- The `int` of a returned register. -/
def asInt (rax : Word) : Int := (rax.setWidth 32).toInt

variable {memory : Word → Byte} {s s1 s2 : Word} {length fuel : Nat}

/-! ### Blocks of a string -/

theorem charAt_shift (offset index : Nat) :
    charAt memory (s + BitVec.ofNat 64 offset) index = charAt memory s (offset + index) := by
  unfold charAt
  rw [BitVec.ofNat_add, BitVec.add_assoc]

theorem StringAt.shift (string : StringAt memory s length) (offset : Nat) (inside : offset ≤ length) :
    StringAt memory (s + BitVec.ofNat 64 offset) (length - offset) := by
  constructor
  · rw [charAt_shift, Nat.add_sub_cancel' inside]
    exact string.terminator
  · intro index below
    rw [charAt_shift]
    exact string.nonzero _ (by omega)

theorem StringAt.endsAt (string : StringAt memory s length) (short : length < 16) :
    EndsAt (xmmAt memory s) ⟨length, short⟩ :=
  ⟨string.terminator, fun before lower => string.nonzero before lower⟩

theorem charAt_zero (memory : Word → Byte) (s : Word) : charAt memory s 0 = memory s := by
  unfold charAt
  rw [BitVec.add_zero]

theorem next_address (start : Word) (index : Nat) :
    start + 1 + BitVec.ofNat 64 index = start + BitVec.ofNat 64 (index + 1) := by
  rw [BitVec.add_assoc, BitVec.add_comm 1, BitVec.ofNat_add]
  rfl

theorem charAt_tail (memory : Word → Byte) (s : Word) (index : Nat) :
    charAt memory (s + 1) index = charAt memory s (index + 1) := by
  unfold charAt
  rw [next_address]

theorem StringAt.head_zero (string : StringAt memory s 0) : memory s = 0 := by
  have zero := string.terminator
  rwa [charAt_zero] at zero

theorem StringAt.head_nonzero (string : StringAt memory s (length + 1)) : memory s ≠ 0 := by
  have nonzero := string.nonzero 0 (Nat.succ_pos length)
  rwa [charAt_zero] at nonzero

theorem StringAt.tail (string : StringAt memory s (length + 1)) : StringAt memory (s + 1) length :=
  string.shift 1 (Nat.succ_pos length)

theorem StringAt.zero_iff (string : StringAt memory s length) (negative : Bool) (first : Fin 16 → Byte) :
    (pcmpistri negative first (xmmAt memory s)).zero = true ↔ length < 16 := by
  rw [zero_eq_true_iff]
  constructor
  · rintro ⟨lane, zero⟩
    by_contra long
    exact string.nonzero lane (by omega) zero
  · intro short
    exact ⟨⟨length, short⟩, string.terminator⟩

private theorem next_block (address rax : Word) :
    address + (rax + 16) + 16 = address + rax + 16 + BitVec.ofNat 64 16 := by
  rw [BitVec.add_assoc address, BitVec.add_assoc address rax, BitVec.add_assoc address]
  rfl

/-! ### Mapped blocks -/

/-- The blocks of a string are mapped, up to the end of the one with the terminator. -/
def BlocksMapped (translation : Translation) (s : Word) (length : Nat) : Prop :=
  ∀ index < 16 * (length / 16 + 1), (translation (s + BitVec.ofNat 64 index)).isSome

section Mapped

variable {translation : Translation} {memory : Memory} {s : Word} {length : Nat}

theorem loadByte_of_mapped (mapped : (translation s).isSome) :
    loadByte translation memory s = some (seen translation memory s) := by
  obtain ⟨place, found⟩ := Option.isSome_iff_exists.mp mapped
  unfold loadByte seen
  rw [found]
  rfl

theorem blocksMapped_long_iff (long : ¬length < 16) : BlocksMapped translation s length ↔
    (∀ lane : Fin 16, (translation (s + BitVec.ofNat 64 lane)).isSome) ∧
      BlocksMapped translation (s + BitVec.ofNat 64 16) (length - 16) := by
  have fewer : 16 * (length / 16 + 1) = 16 + 16 * ((length - 16) / 16 + 1) := by omega
  unfold BlocksMapped
  rw [fewer]
  constructor
  · intro blocks
    refine ⟨fun lane => blocks lane (by omega), fun index below => ?_⟩
    rw [BitVec.add_assoc, ← BitVec.ofNat_add]
    exact blocks _ (by omega)
  · rintro ⟨first, rest⟩ index below
    by_cases inside : index < 16
    · exact first ⟨index, inside⟩
    · have here := rest (index - 16) (by omega)
      rwa [BitVec.add_assoc, ← BitVec.ofNat_add, Nat.add_sub_cancel' (Nat.le_of_not_lt inside)] at here

theorem blocksMapped_short_iff (short : length < 16) : BlocksMapped translation s length ↔
    ∀ lane : Fin 16, (translation (s + BitVec.ofNat 64 lane)).isSome := by
  have one : 16 * (length / 16 + 1) = 16 := by omega
  unfold BlocksMapped
  rw [one]
  exact ⟨fun blocks lane => blocks lane lane.isLt, fun blocks index below => blocks ⟨index, below⟩⟩

end Mapped

/-! ### `strlen` -/

section Strlen

variable {translation : Translation} {memory : Memory}

theorem strlenLoop_eq {rsi rcx : Word} (string : StringAt (seen translation memory) rsi length)
    (mapped : ∀ index ≤ length, (translation (rsi + BitVec.ofNat 64 index)).isSome)
    (enough : length < fuel) :
    Asm.strlenLoop translation memory fuel rsi rcx = some (rcx + BitVec.ofNat 64 length) := by
  induction fuel generalizing rsi rcx length with
  | zero => omega
  | succ fuel ih =>
    have here := mapped 0 (Nat.zero_le length)
    rw [BitVec.add_zero] at here
    rw [Asm.strlenLoop, loadByte_of_mapped here]
    simp only [Option.bind_eq_bind, Option.bind_some]
    cases length with
    | zero =>
      rw [if_pos string.head_zero, BitVec.add_zero]
      rfl
    | succ length =>
      have rest : ∀ index ≤ length, (translation (rsi + 1 + BitVec.ofNat 64 index)).isSome := by
        intro index inside
        rw [next_address]
        exact mapped (index + 1) (Nat.succ_le_succ inside)
      rw [if_neg string.head_nonzero, ih string.tail rest (by omega), next_address]

theorem sseStrlenLoop_eq {rdi rax : Word}
    (string : StringAt (seen translation memory) (rdi + rax + 16) length) (enough : length / 16 < fuel) :
    sseStrlenLoop translation memory rdi fuel rax = some (rax + 16 + BitVec.ofNat 64 length) ↔
      BlocksMapped translation (rdi + rax + 16) length := by
  induction fuel generalizing rax length with
  | zero => omega
  | succ fuel ih =>
    have block : rdi + (rax + 16) = rdi + rax + 16 := (BitVec.add_assoc rdi rax 16).symm
    have flag := string.zero_iff false fun _ => 0
    simp only [sseStrlenLoop, block, loadXmm]
    by_cases short : length < 16
    · rw [blocksMapped_short_iff short]
      by_cases mapped : ∀ lane : Fin 16, (translation (rdi + rax + 16 + BitVec.ofNat 64 lane)).isSome
      · rw [if_pos mapped]
        simp only [Option.bind_eq_bind, Option.bind_some, if_pos (flag.mpr short),
          index_of_empty (string.endsAt short)]
        exact iff_of_true rfl mapped
      · rw [if_neg mapped]
        exact iff_of_false nofun mapped
    · have rest : StringAt (seen translation memory) (rdi + (rax + 16) + 16) (length - 16) := by
        rw [next_block]
        exact string.shift 16 (by omega)
      have parts : BitVec.ofNat 64 length = 16 + BitVec.ofNat 64 (length - 16) := by
        rw [← Nat.add_sub_cancel' (Nat.le_of_not_lt short), BitVec.ofNat_add, Nat.add_sub_cancel_left]
        rfl
      rw [blocksMapped_long_iff short]
      by_cases mapped : ∀ lane : Fin 16, (translation (rdi + rax + 16 + BitVec.ofNat 64 lane)).isSome
      · rw [if_pos mapped, and_iff_right mapped, ← next_block, ← ih rest (by omega), parts,
          ← BitVec.add_assoc (rax + 16)]
        simp only [Option.bind_eq_bind, Option.bind_some, if_neg fun zero => short (flag.mp zero)]
      · rw [if_neg mapped]
        exact iff_of_false nofun fun both => mapped both.1

/-- `strlen` returns the length of a mapped string, and `sse_strlen` the same exactly when the blocks
of the string are mapped to their ends. -/
theorem sseStrlen_eq_strlen_iff (translation : Translation) (memory : Memory) (s : Word) (length fuel : Nat)
    (string : StringAt (seen translation memory) s length)
    (mapped : ∀ index ≤ length, (translation (s + BitVec.ofNat 64 index)).isSome)
    (enough : length < fuel) :
    Asm.strlen translation memory fuel s = some (BitVec.ofNat 64 length) ∧
      (sseStrlen translation memory fuel s = Asm.strlen translation memory fuel s ↔
        BlocksMapped translation s length) := by
  have bytewise : Asm.strlen translation memory fuel s = some (BitVec.ofNat 64 length) := by
    unfold Asm.strlen
    rw [strlenLoop_eq string mapped enough, zero_add]
  refine ⟨bytewise, ?_⟩
  have string' : StringAt (seen translation memory) (s + -16 + 16) length := by rwa [neg_add_cancel_right]
  have blocks : sseStrlenLoop translation memory s fuel (-16) = _ ↔ _ :=
    sseStrlenLoop_eq string' (by omega)
  rw [neg_add_cancel, zero_add, neg_add_cancel_right] at blocks
  rw [bytewise]
  exact blocks

/-- A byte that is not zero everywhere but at one place. -/
def endedAt (last : Nat) : Memory := fun place => if place = last then 0 else 0x41

/-- The first 4 MB, each address its own place. -/
def lowTranslation : Translation := fun address =>
  if address.toNat < 0x400000 then some address.toNat else none

/-- A string of 17 bytes that is not aligned, with other bytes behind its terminator. -/
theorem sseStrlen_two_blocks :
    Asm.strlen lowTranslation (endedAt 0x1018) 18 0x1007 = some 17 ∧
      sseStrlen lowTranslation (endedAt 0x1018) 18 0x1007 =
        Asm.strlen lowTranslation (endedAt 0x1018) 18 0x1007 := by
  have string : StringAt (seen lowTranslation (endedAt 0x1018)) 0x1007 17 := ⟨by decide, by decide⟩
  obtain ⟨bytewise, blocks⟩ := sseStrlen_eq_strlen_iff lowTranslation (endedAt 0x1018) 0x1007 17 18 string
    (by decide) (by decide)
  exact ⟨bytewise, blocks.mpr (by unfold BlocksMapped; decide)⟩

/-- Three bytes and their terminator at the end of the mapped memory. -/
theorem sseStrlen_last_bytes :
    StringAt (seen lowTranslation (endedAt 0x3FFFFF)) 0x3FFFFC 3 ∧
      Asm.strlen lowTranslation (endedAt 0x3FFFFF) 4 0x3FFFFC = some 3 ∧
      ∀ fuel, sseStrlen lowTranslation (endedAt 0x3FFFFF) fuel 0x3FFFFC = none := by
  refine ⟨⟨by decide, by decide⟩, by decide, fun fuel => ?_⟩
  have unmapped : loadXmm lowTranslation (endedAt 0x3FFFFF) (0x3FFFFC + (-16 + 16)) = none := by decide
  cases fuel with
  | zero => rfl
  | succ fuel =>
    unfold sseStrlen sseStrlenLoop
    dsimp only
    rw [unmapped]
    rfl

end Strlen

/-! ### `strcmp` -/

/-- The offset of the block that holds the terminator. -/
def lastBlock (length : Nat) : Word := BitVec.ofNat 64 (16 * (length / 16))

/-- The comparison that the loop leaves with. -/
def lastOutcome (memory : Word → Byte) (s1 s2 : Word) (length : Nat) : Outcome :=
  pcmpistri true (xmmAt memory (s1 + lastBlock length)) (xmmAt memory (s2 + lastBlock length))

theorem lastBlock_of_short (short : length < 16) : lastBlock length = 0 := by
  unfold lastBlock
  rw [Nat.div_eq_of_lt short]
  rfl

private theorem lastBlock_succ (address : Word) (long : ¬length < 16) :
    address + BitVec.ofNat 64 16 + lastBlock (length - 16) = address + lastBlock length := by
  have blocks : 16 * (length / 16) = 16 + 16 * ((length - 16) / 16) := by omega
  unfold lastBlock
  rw [blocks, BitVec.ofNat_add, BitVec.add_assoc]

section Strcmp

variable {translation : Translation} {memory : Memory}

/-- The blocks of both strings that `sse_strcmp` reads are mapped. -/
def BothMapped (translation : Translation) (s1 s2 : Word) (length : Nat) : Prop :=
  BlocksMapped translation s1 length ∧ BlocksMapped translation s2 length

/-- No block in front of the last one leaves the loop, whatever is in the first string. -/
theorem sseStrcmpLoop_eq_some_iff {rdi rsi rax : Word} {outcome : Outcome}
    (string : StringAt (seen translation memory) (rsi + rax + 16) length) :
    sseStrcmpLoop translation memory rdi rsi fuel rax = some outcome ↔
      length / 16 < fuel ∧ BothMapped translation (rdi + rax + 16) (rsi + rax + 16) length ∧
        lastOutcome (seen translation memory) (rdi + rax + 16) (rsi + rax + 16) length = outcome := by
  induction fuel generalizing rax length with
  | zero => exact iff_of_false nofun fun enough => Nat.not_lt_zero _ enough.1
  | succ fuel ih =>
    have block : ∀ address : Word, address + (rax + 16) = address + rax + 16 := fun address =>
      (BitVec.add_assoc address rax 16).symm
    have flag := string.zero_iff true (xmmAt (seen translation memory) (rdi + rax + 16))
    simp only [sseStrcmpLoop, block, loadXmm, Option.bind_eq_bind]
    unfold BothMapped
    by_cases mapped : (∀ lane : Fin 16, (translation (rdi + rax + 16 + BitVec.ofNat 64 lane)).isSome) ∧
        ∀ lane : Fin 16, (translation (rsi + rax + 16 + BitVec.ofNat 64 lane)).isSome
    · rw [if_pos mapped.1, if_pos mapped.2, Option.bind_some, Option.bind_some]
      by_cases short : length < 16
      · rw [if_pos (flag.mpr short), blocksMapped_short_iff short, blocksMapped_short_iff short,
          and_iff_right mapped, and_iff_right (by omega)]
        unfold lastOutcome
        rw [lastBlock_of_short short, add_zero, add_zero]
        exact Option.some_inj
      · have rest : StringAt (seen translation memory) (rsi + (rax + 16) + 16) (length - 16) := by
          rw [next_block]
          exact string.shift 16 (by omega)
        have fewer : (length - 16) / 16 < fuel ↔ length / 16 < fuel + 1 := by omega
        rw [if_neg fun zero => short (flag.mp zero), ih rest, blocksMapped_long_iff short,
          blocksMapped_long_iff short, and_iff_right mapped.1, and_iff_right mapped.2]
        unfold lastOutcome BothMapped
        simp only [next_block, lastBlock_succ _ short, fewer]
    · refine iff_of_false (fun left => ?_) fun right =>
        mapped ⟨fun lane => right.2.1.1 lane (by omega), fun lane => right.2.1.2 lane (by omega)⟩
      obtain ⟨xmm1, loaded, left⟩ := Option.bind_eq_some_iff.mp left
      obtain ⟨operand, loaded', _⟩ := Option.bind_eq_some_iff.mp left
      exact mapped ⟨(Option.ite_none_right_eq_some.mp loaded).1, (Option.ite_none_right_eq_some.mp loaded').1⟩

/-- The answer from the bytes of the strings. -/
def answerOf (memory : Word → Byte) (rdi rsi : Word) (outcome : Outcome) : Word :=
  if outcome.carry then
    (charAt memory rdi outcome.index).setWidth 64 - (charAt memory rsi outcome.index).setWidth 64
  else 0

theorem sseStrcmpAnswer_eq {first second : Fin 16 → Byte} (mapped : BothMapped translation s1 s2 length) :
    sseStrcmpAnswer translation memory s1 s2 (pcmpistri true first second) =
      some (answerOf (seen translation memory) s1 s2 (pcmpistri true first second)) := by
  unfold sseStrcmpAnswer answerOf
  by_cases carry : (pcmpistri true first second).carry = true
  · have lane := index_lt_of_carry carry
    rw [if_pos carry, if_pos carry, loadByte_of_mapped (mapped.1 _ (by omega)),
      loadByte_of_mapped (mapped.2 _ (by omega))]
    rfl
  · rw [if_neg carry, if_neg carry]
    rfl

theorem sseStrcmp_eq_some_iff {rax : Word} (string : StringAt (seen translation memory) s2 length) :
    sseStrcmp translation memory fuel s1 s2 = some rax ↔
      length / 16 < fuel ∧ BothMapped translation s1 s2 length ∧
        answerOf (seen translation memory) s1 s2 (lastOutcome (seen translation memory) s1 s2 length) = rax := by
  have string' : StringAt (seen translation memory) (s2 + -16 + 16) length := by
    rwa [neg_add_cancel_right]
  have loop (outcome : Outcome) :
      sseStrcmpLoop translation memory s1 s2 fuel (-16) = some outcome ↔ _ :=
    sseStrcmpLoop_eq_some_iff string'
  simp only [neg_add_cancel_right] at loop
  unfold sseStrcmp
  simp only [Option.bind_eq_bind, Option.bind_eq_some_iff, loop]
  constructor
  · rintro ⟨outcome, ⟨enough, mapped, rfl⟩, answer⟩
    rw [lastOutcome, sseStrcmpAnswer_eq mapped] at answer
    exact ⟨enough, mapped, Option.some.inj answer⟩
  · rintro ⟨enough, mapped, rfl⟩
    exact ⟨_, ⟨enough, mapped, rfl⟩, sseStrcmpAnswer_eq mapped⟩

end Strcmp

/-- The bytes at this index differ and those before it do not; the second string reaches to it. -/
structure FirstDifference (memory : Word → Byte) (s1 s2 : Word) (length index : Nat) : Prop where
  inside : index ≤ length
  differs : charAt memory s1 index ≠ charAt memory s2 index
  agree : ∀ before < index, charAt memory s1 before = charAt memory s2 before

/-- The strings are the same up to the terminator of the second. -/
def SameString (memory : Word → Byte) (s1 s2 : Word) (length : Nat) : Prop :=
  ∀ index ≤ length, charAt memory s1 index = charAt memory s2 index

def byteDifference (memory : Word → Byte) (s1 s2 : Word) (index : Nat) : Int :=
  (charAt memory s1 index).toNat - (charAt memory s2 index).toNat

theorem same_or_differs (memory : Word → Byte) (s1 s2 : Word) (length : Nat) :
    SameString memory s1 s2 length ∨ ∃ index, FirstDifference memory s1 s2 length index := by
  by_cases differ : ∃ index, index ≤ length ∧ charAt memory s1 index ≠ charAt memory s2 index
  · right
    obtain ⟨inside, differs⟩ := Nat.find_spec differ
    refine ⟨Nat.find differ, inside, differs, ?_⟩
    intro before lower
    have least := Nat.find_min differ lower
    by_contra other
    exact least ⟨by omega, other⟩
  · left
    intro index inside
    by_contra other
    exact differ ⟨index, inside, other⟩

theorem not_same_of_differs {index : Nat} (diff : FirstDifference memory s1 s2 length index) :
    ¬SameString memory s1 s2 length :=
  fun same => diff.differs (same index diff.inside)

/-! #### The answers -/

theorem asInt_sub (first second : Byte) :
    asInt (first.setWidth 64 - second.setWidth 64) = (first.toNat : Int) - second.toNat := by
  have left := first.isLt
  have right := second.isLt
  unfold asInt
  rw [BitVec.toInt_setWidth, BitVec.toNat_sub, BitVec.toNat_setWidth_of_le (by decide),
    BitVec.toNat_setWidth_of_le (by decide), Int.bmod_def]
  omega

theorem sign_order {first second : Byte} (differs : first ≠ second) :
    (if first.toNat < second.toNat then (-1 : Int) else 1) =
      Int.sign ((first.toNat : Int) - second.toNat) := by
  have other : first.toNat ≠ second.toNat := fun same => differs (BitVec.eq_of_toNat_eq same)
  by_cases lower : first.toNat < second.toNat
  · rw [if_pos lower, Int.sign_eq_neg_one_of_neg (by omega)]
  · rw [if_neg lower, Int.sign_eq_one_of_pos (by omega)]

theorem FirstDifference.tail {index : Nat}
    (diff : FirstDifference memory s1 s2 (length + 1) (index + 1)) :
    FirstDifference memory (s1 + 1) (s2 + 1) length index := by
  constructor
  · exact Nat.le_of_succ_le_succ diff.inside
  · rw [charAt_tail, charAt_tail]
    exact diff.differs
  · intro before lower
    rw [charAt_tail, charAt_tail]
    exact diff.agree _ (Nat.succ_lt_succ lower)

theorem strncmpLoop_differ {n : Nat} (differ : memory s1 ≠ memory s2) : strncmpLoop memory (n + 1) s1 s2 =
    if (memory s1).toNat < (memory s2).toNat then -1 else 1 := by
  rw [strncmpLoop, if_pos differ]

theorem strncmpLoop_end {n : Nat} (same : memory s1 = memory s2) (zero : memory s1 = 0) :
    strncmpLoop memory (n + 1) s1 s2 = 0 := by
  rw [strncmpLoop, if_neg (not_not_intro same), if_pos zero]

theorem strncmpLoop_next {n : Nat} (same : memory s1 = memory s2) (nonzero : memory s1 ≠ 0) :
    strncmpLoop memory (n + 1) s1 s2 = strncmpLoop memory n (s1 + 1) (s2 + 1) := by
  rw [strncmpLoop, if_neg (not_not_intro same), if_neg nonzero]

theorem strncmpLoop_same {n : Nat} (string : StringAt memory s2 length)
    (same : SameString memory s1 s2 length) : strncmpLoop memory n s1 s2 = 0 := by
  induction n generalizing s1 s2 length with
  | zero => rfl
  | succ n ih =>
    have head := same 0 (Nat.zero_le length)
    rw [charAt_zero, charAt_zero] at head
    cases length with
    | zero => exact strncmpLoop_end head (head.trans string.head_zero)
    | succ length =>
      have nonzero : memory s1 ≠ 0 := by
        rw [head]
        exact string.head_nonzero
      rw [strncmpLoop_next head nonzero]
      apply ih string.tail
      intro index inside
      rw [charAt_tail, charAt_tail]
      exact same _ (Nat.succ_le_succ inside)

theorem sign_strncmpLoop {n index : Nat} (string : StringAt memory s2 length)
    (diff : FirstDifference memory s1 s2 length index) (within : index < n) :
    (strncmpLoop memory n s1 s2).sign = (byteDifference memory s1 s2 index).sign := by
  induction n generalizing s1 s2 length index with
  | zero => omega
  | succ n ih =>
    cases index with
    | zero =>
      have differs := diff.differs
      unfold byteDifference
      rw [charAt_zero, charAt_zero] at differs ⊢
      rw [strncmpLoop_differ differs, sign_order differs, Int.sign_sign]
    | succ index =>
      obtain ⟨rest, rfl⟩ := Nat.exists_eq_add_of_le' (Nat.lt_of_lt_of_le (Nat.succ_pos index) diff.inside)
      have head := diff.agree 0 (Nat.succ_pos index)
      rw [charAt_zero, charAt_zero] at head
      have nonzero : memory s1 ≠ 0 := by
        rw [head]
        exact string.head_nonzero
      have shifted : byteDifference memory (s1 + 1) (s2 + 1) index =
          byteDifference memory s1 s2 (index + 1) := by
        unfold byteDifference
        rw [charAt_tail, charAt_tail]
      rw [strncmpLoop_next head nonzero, ih string.tail diff.tail (by omega), shifted]

theorem StringAt.lastBlock (string : StringAt memory s length) :
    EndsAt (xmmAt memory (s + lastBlock length)) ⟨length % 16, Nat.mod_lt length (by decide)⟩ := by
  have shifted := string.shift (16 * (length / 16)) (by omega)
  have left : length - 16 * (length / 16) = length % 16 := by omega
  rw [left] at shifted
  exact shifted.endsAt (Nat.mod_lt length (by decide))

theorem asInt_answer_same (string : StringAt memory s2 length)
    (same : SameString memory (s1 + lastBlock length) (s2 + lastBlock length) (length % 16)) :
    asInt (answerOf memory s1 s2 (lastOutcome memory s1 s2 length)) = 0 := by
  have carry : (lastOutcome memory s1 s2 length).carry = false :=
    carry_of_agree string.lastBlock fun lane le => same lane le
  unfold answerOf
  rw [carry]
  rfl

/-- The index is one inside the last block; the bytes of the answer are read there from the start
of the strings. -/
theorem asInt_answer_differs {index : Nat} (string : StringAt memory s2 length)
    (diff : FirstDifference memory (s1 + lastBlock length) (s2 + lastBlock length) (length % 16) index) :
    asInt (answerOf memory s1 s2 (lastOutcome memory s1 s2 length)) =
      byteDifference memory s1 s2 index := by
  have lane : index < 16 := lt_of_le_of_lt diff.inside (Nat.mod_lt length (by decide))
  have differs : DiffersAt (xmmAt memory (s1 + lastBlock length)) (xmmAt memory (s2 + lastBlock length))
      ⟨index, lane⟩ := ⟨diff.differs, fun before lower => diff.agree before lower⟩
  obtain ⟨found, carry⟩ := index_of_differs string.lastBlock differs diff.inside
  unfold answerOf lastOutcome
  rw [carry, if_pos rfl, found, asInt_sub]
  rfl

/-! #### When the order is right -/

/-- `sse_strcmp` returns a number of the sign of `strncmp`. -/
def ComparesAs (translation : Translation) (memory : Memory) (s1 s2 n : Word) : Prop :=
  ∃ fuel rax, sseStrcmp translation memory fuel s1 s2 = some rax ∧
    (asInt rax).sign = (strncmp (seen translation memory) s1 s2 n).sign

/-- The strings are the same, or the second ends in its first block, or the last block has a
difference, at an index where the bytes of the strings happen to be ordered as the strings are. -/
def StrcmpRight (memory : Word → Byte) (s1 s2 : Word) (length : Nat) : Prop :=
  SameString memory s1 s2 length ∨ length < 16 ∨
    ∃ index first,
      FirstDifference memory (s1 + lastBlock length) (s2 + lastBlock length) (length % 16) index ∧
        FirstDifference memory s1 s2 length first ∧
          (byteDifference memory s1 s2 index).sign = (byteDifference memory s1 s2 first).sign

theorem comparesAs_iff {translation : Translation} {memory : Memory} {n : Word}
    (string : StringAt (seen translation memory) s2 length) :
    ComparesAs translation memory s1 s2 n ↔ BothMapped translation s1 s2 length ∧
      (asInt (answerOf (seen translation memory) s1 s2
        (lastOutcome (seen translation memory) s1 s2 length))).sign =
          (strncmp (seen translation memory) s1 s2 n).sign := by
  constructor
  · rintro ⟨fuel, rax, returned, sign⟩
    obtain ⟨_, mapped, rfl⟩ := (sseStrcmp_eq_some_iff string).mp returned
    exact ⟨mapped, sign⟩
  · rintro ⟨mapped, sign⟩
    exact ⟨length / 16 + 1, _, (sseStrcmp_eq_some_iff string).mpr ⟨Nat.lt_succ_self _, mapped, rfl⟩, sign⟩

theorem SameString.lastBlock (same : SameString memory s1 s2 length) :
    SameString memory (s1 + lastBlock length) (s2 + lastBlock length) (length % 16) := by
  intro index inside
  unfold Osdev64.lastBlock
  rw [charAt_shift, charAt_shift]
  exact same _ (by omega)

theorem sign_byteDifference_ne_zero {index : Nat} (diff : FirstDifference memory s1 s2 length index) :
    (byteDifference memory s1 s2 index).sign ≠ 0 := by
  intro zero
  rw [Int.sign_eq_zero_iff_zero] at zero
  unfold byteDifference at zero
  exact diff.differs (BitVec.eq_of_toNat_eq (by omega))

theorem firstDifference_of_short {index : Nat} (short : length < 16)
    (diff : FirstDifference memory s1 s2 length index) :
    FirstDifference memory (s1 + lastBlock length) (s2 + lastBlock length) (length % 16) index := by
  rwa [lastBlock_of_short short, add_zero, add_zero, Nat.mod_eq_of_lt short]

theorem FirstDifference.unique {index other : Nat} (left : FirstDifference memory s1 s2 length index)
    (right : FirstDifference memory s1 s2 length other) : index = other := by
  rcases Nat.lt_trichotomy index other with lower | same | higher
  · exact absurd (right.agree index lower) left.differs
  · exact same
  · exact absurd (left.agree other higher) right.differs

theorem sign_answer_iff {n : Word} (string : StringAt memory s2 length) (long : length < n.toNat) :
    (asInt (answerOf memory s1 s2 (lastOutcome memory s1 s2 length))).sign =
      (strncmp memory s1 s2 n).sign ↔ StrcmpRight memory s1 s2 length := by
  unfold strncmp
  rcases same_or_differs memory s1 s2 length with same | ⟨first, diff⟩
  · rw [strncmpLoop_same string same, asInt_answer_same string same.lastBlock]
    exact iff_of_true rfl (Or.inl same)
  · rw [sign_strncmpLoop string diff (lt_of_le_of_lt diff.inside long)]
    constructor
    · intro sign
      -- a last block without a difference answers 0
      rcases same_or_differs memory (s1 + lastBlock length) (s2 + lastBlock length) (length % 16) with
        same | ⟨index, last⟩
      · rw [asInt_answer_same string same, Int.sign_zero] at sign
        exact absurd sign.symm (sign_byteDifference_ne_zero diff)
      · rw [asInt_answer_differs string last] at sign
        exact Or.inr (Or.inr ⟨index, first, last, diff, sign⟩)
    · rintro (same | short | ⟨index, first', last, diff', sign⟩)
      · exact absurd same (not_same_of_differs diff)
      · rw [asInt_answer_differs string (firstDifference_of_short short diff)]
      · rw [asInt_answer_differs string last, sign, diff.unique diff']

/-- The sign is that of `strncmp` exactly for these strings, with their blocks mapped. -/
theorem sseStrcmp_sign_iff {translation : Translation} {memory : Memory} {n : Word}
    (string : StringAt (seen translation memory) s2 length) (long : length < n.toNat) :
    ComparesAs translation memory s1 s2 n ↔
      BothMapped translation s1 s2 length ∧ StrcmpRight (seen translation memory) s1 s2 length := by
  rw [comparesAs_iff string, sign_answer_iff string long]

/-- Memory with a string at 0x1000 and a string at 0x2000. -/
def twoStrings (first second : List Byte) : Memory := fun place =>
  if 0x1000 ≤ place ∧ place < 0x2000 then first.getD (place - 0x1000) 0
  else second.getD (place - 0x2000) 0

/-- Two strings of 17 bytes that differ in their first byte and in the first byte of their last block. -/
def differTwice : Memory :=
  twoStrings (0x62 :: List.replicate 15 0x61 ++ [0x62]) (List.replicate 17 0x61)

/-- Both differences are the same way round. -/
theorem sseStrcmp_sign_17 : ComparesAs lowTranslation differTwice 0x1000 0x2000 18 := by
  have string : StringAt (seen lowTranslation differTwice) 0x2000 17 := ⟨by decide, by decide⟩
  refine (sseStrcmp_sign_iff string (by decide)).mpr ⟨?_, Or.inr (Or.inr ⟨0, 0, ?_, ?_, by decide⟩)⟩
  · unfold BothMapped BlocksMapped
    decide
  · exact ⟨by decide, by decide, by decide⟩
  · exact ⟨by decide, by decide, by decide⟩

/-- Two strings of 16 bytes that differ in their first byte only. -/
def differFirst : Memory := twoStrings (0x62 :: List.replicate 15 0x61) (List.replicate 16 0x61)

/-- The last block holds the terminators and no difference, so the answer is 0. -/
theorem first_block_forgotten :
    StringAt (seen lowTranslation differFirst) 0x1000 16 ∧
      StringAt (seen lowTranslation differFirst) 0x2000 16 ∧
      sseStrcmp lowTranslation differFirst 2 0x1000 0x2000 = some 0 ∧
      strncmp (seen lowTranslation differFirst) 0x1000 0x2000 17 = 1 ∧
        ¬ComparesAs lowTranslation differFirst 0x1000 0x2000 17 := by
  have string : StringAt (seen lowTranslation differFirst) 0x2000 16 := ⟨by decide, by decide⟩
  refine ⟨⟨by decide, by decide⟩, string, by decide +kernel, by decide +kernel, ?_⟩
  rw [comparesAs_iff string, not_and]
  intro _
  decide +kernel

end Osdev64
