/-
`sse_memcpy_aligned` beside `memcpy`.

The count is divided by 16 once, and is then taken for a number of bytes: the loop
takes 128 from it for each round of 128 bytes.  A round is the eight moves that fall
through from one label to the next; what is left below 128 is not moved at all.
-/

import Osdev64.BootRounds

namespace Osdev64

open Word64 Bytes

/-! ### The functions -/

def Asm.memcpy (translation : Translation) (rdi rsi rdx : Word) (memory : Memory) : Option Memory :=
  repMovsb translation rdx.toNat rdi rsi memory

/-- `movdqa xmm, [address]`; an address that is not aligned is a fault too. -/
def movdqaLoad (translation : Translation) (memory : Memory) (address : Word) : Option Nat :=
  if address.toNat % 16 = 0 then load translation memory 16 address else none

/-- `movdqa [address], xmm`. -/
def movdqaStore (translation : Translation) (memory : Memory) (address : Word) (xmm : Nat) : Option Memory :=
  if address.toNat % 16 = 0 then store translation memory 16 address xmm else none

/-- The labels `.M7` to `.M0`, of which each falls through to the next: from `.M7` on there are
eight moves, the highest offset first. -/
def moves (translation : Translation) (rdi rsi : Word) : Nat → Memory → Option Memory
  | 0, memory => some memory
  | label + 1, memory => do
    let xmm ← movdqaLoad translation memory (rsi + BitVec.ofNat 64 (16 * label))
    let memory ← movdqaStore translation memory (rdi + BitVec.ofNat 64 (16 * label)) xmm
    moves translation rdi rsi label memory

/-- The loop at `.L1`; `none` is a fault, or no fuel left. -/
def sseMemcpyLoop (translation : Translation) : Nat → Word → Word → Word → Memory → Option Memory
  | 0, _, _, _, _ => none
  | fuel + 1, rdi, rsi, rdx, memory =>
    if 128 ≤ rdx.toNat then do
      let memory ← moves translation rdi rsi 8 memory
      sseMemcpyLoop translation fuel (rdi + 128) (rsi + 128) (rdx - 128) memory
    else some memory

def sseMemcpyAligned (translation : Translation) (fuel : Nat) (rdi rsi rdx : Word) (memory : Memory) :
    Option Memory :=
  let rdx := rdx >>> 4
  if rdx = 0 then some memory else sseMemcpyLoop translation fuel rdi rsi rdx memory

variable {translation : Translation} {memory : Memory} {rdi rsi rdx : Word}
  {source target count fuel : Nat}

/-! ### One round -/

theorem aligned_add {address : Word} {offset : Nat} (aligned : address.toNat % 16 = 0)
    (even : offset % 16 = 0) : (address + BitVec.ofNat 64 offset).toNat % 16 = 0 := by
  rw [BitVec.toNat_add, BitVec.toNat_ofNat]
  omega

theorem moves_eq {label : Nat} (alignedFrom : rsi.toNat % 16 = 0) (alignedTo : rdi.toNat % 16 = 0)
    (reads : Maps translation rsi source (16 * label)) (writes : Maps translation rdi target (16 * label))
    (apart : source + 16 * label ≤ target ∨ target + 16 * label ≤ source) :
    moves translation rdi rsi label memory = some (copied memory source target (16 * label)) := by
  induction label generalizing memory with
  | zero =>
    rw [Nat.mul_zero, copied_zero]
    rfl
  | succ label ih =>
    have readsHere : Maps translation (rsi + BitVec.ofNat 64 (16 * label)) (source + 16 * label) 16 :=
      (reads.shift (by omega)).mono (by omega)
    have writesHere : Maps translation (rdi + BitVec.ofNat 64 (16 * label)) (target + 16 * label) 16 :=
      (writes.shift (by omega)).mono (by omega)
    have evenOffset : 16 * label % 16 = 0 := Nat.mul_mod_right 16 label
    simp only [moves, movdqaLoad, movdqaStore, if_pos (aligned_add alignedFrom evenOffset),
      if_pos (aligned_add alignedTo evenOffset), load_of_maps readsHere, store_of_maps writesHere,
      Option.bind_eq_bind, Option.bind_some, put_value]
    rw [ih (reads.mono (by omega)) (writes.mono (by omega)) (by omega), copied_below (by omega),
      Nat.mul_succ]

/-! ### The loop -/

theorem sseMemcpyLoop_eq (alignedFrom : rsi.toNat % 16 = 0) (alignedTo : rdi.toNat % 16 = 0)
    (reads : Maps translation rsi source (128 * (rdx.toNat / 128)))
    (writes : Maps translation rdi target (128 * (rdx.toNat / 128)))
    (apart : source + 128 * (rdx.toNat / 128) ≤ target ∨ target + 128 * (rdx.toNat / 128) ≤ source) :
    sseMemcpyLoop translation fuel rdi rsi rdx memory =
      if rdx.toNat / 128 < fuel then some (copied memory source target (128 * (rdx.toNat / 128)))
      else none := by
  induction fuel generalizing rdi rsi rdx source target memory with
  | zero =>
    rw [if_neg (by omega)]
    rfl
  | succ fuel ih =>
    simp only [sseMemcpyLoop]
    by_cases more : 128 ≤ rdx.toNat
    · have fewer : (rdx - 128).toNat = rdx.toNat - 128 := BitVec.toNat_sub_of_le more
      have rounds : 128 * (rdx.toNat / 128) = 128 + 128 * ((rdx - 128).toNat / 128) := by omega
      have enough : (rdx - 128).toNat / 128 < fuel ↔ rdx.toNat / 128 < fuel + 1 := by omega
      rw [rounds] at reads writes apart ⊢
      have moved : moves translation rdi rsi 8 memory = some (copied memory source target 128) :=
        moves_eq alignedFrom alignedTo (reads.mono (by omega)) (writes.mono (by omega)) (by omega)
      have readsRest : Maps translation (rsi + 128) (source + 128) (128 * ((rdx - 128).toNat / 128)) :=
        (reads.shift (Nat.le_add_right 128 _)).mono (by omega)
      have writesRest : Maps translation (rdi + 128) (target + 128) (128 * ((rdx - 128).toNat / 128)) :=
        (writes.shift (Nat.le_add_right 128 _)).mono (by omega)
      have fromRest : (rsi + 128).toNat % 16 = 0 := aligned_add alignedFrom (by decide : 128 % 16 = 0)
      have toRest : (rdi + 128).toNat % 16 = 0 := aligned_add alignedTo (by decide : 128 % 16 = 0)
      rw [if_pos more, moved, Option.bind_eq_bind, Option.bind_some,
        ih fromRest toRest readsRest writesRest (by omega), copied_above apart]
      simp only [enough]
    · have none : rdx.toNat / 128 = 0 := by omega
      rw [if_neg more, none, if_pos (Nat.succ_pos fuel), Nat.mul_zero, copied_zero]

/-- The bytes that are moved: 128 for each 2048 of the count. -/
def movedBytes (count : Nat) : Nat := 128 * (count / 2048)

theorem movedBytes_le (count : Nat) : movedBytes count ≤ count := by
  unfold movedBytes
  omega

theorem sseMemcpyAligned_eq (alignedFrom : rsi.toNat % 16 = 0) (alignedTo : rdi.toNat % 16 = 0)
    (reads : Maps translation rsi source rdx.toNat) (writes : Maps translation rdi target rdx.toNat)
    (apart : source + rdx.toNat ≤ target ∨ target + rdx.toNat ≤ source)
    (enough : rdx.toNat / 2048 < fuel) :
    sseMemcpyAligned translation fuel rdi rsi rdx memory =
      some (copied memory source target (movedBytes rdx.toNat)) := by
  have shifted : (rdx >>> 4).toNat = rdx.toNat / 16 := by
    rw [BitVec.toNat_ushiftRight, Nat.shiftRight_eq_div_pow]
  have rounds : (rdx >>> 4).toNat / 128 = rdx.toNat / 2048 := by omega
  have within : 128 * (rdx.toNat / 2048) ≤ rdx.toNat := movedBytes_le rdx.toNat
  unfold sseMemcpyAligned movedBytes
  by_cases nothing : rdx >>> 4 = 0
  · have zero : rdx.toNat / 2048 = 0 := by
      rw [← rounds, nothing]
      rfl
    rw [if_pos nothing, zero, Nat.mul_zero, copied_zero]
  · rw [if_neg nothing]
    rw [← rounds] at within enough ⊢
    rw [sseMemcpyLoop_eq alignedFrom alignedTo (reads.mono within) (writes.mono within) (by omega),
      if_pos enough]

/-! ### Against `memcpy` -/

/-- Two ranges of memory that do not meet and start on a boundary of 16 bytes. -/
structure AlignedApart (dest src count : Word) : Prop where
  alignedTo : dest.toNat % 16 = 0
  alignedFrom : src.toNat % 16 = 0
  insideTo : dest.toNat + count.toNat ≤ 2 ^ 64
  insideFrom : src.toNat + count.toNat ≤ 2 ^ 64
  apart : src.toNat + count.toNat ≤ dest.toNat ∨ dest.toNat + count.toNat ≤ src.toNat

theorem maps_flat {address : Word} (inside : address.toNat + count ≤ 2 ^ 64) :
    Maps flatTranslation address address.toNat count := by
  intro x below
  unfold flatTranslation
  rw [BitVec.toNat_add, BitVec.toNat_ofNat, Nat.mod_eq_of_lt (by omega : x < 2 ^ 64),
    Nat.mod_eq_of_lt (by omega)]

/-- Both functions return, and leave the same memory. -/
def CopiesAs (fuel : Nat) (dest src count : Word) (memory : Memory) : Prop :=
  ∃ after, sseMemcpyAligned flatTranslation fuel dest src count memory = some after ∧
    Asm.memcpy flatTranslation dest src count memory = some after

theorem copiesAs_iff {dest src count : Word} (ranges : AlignedApart dest src count)
    (enough : count.toNat / 2048 < fuel) :
    CopiesAs fuel dest src count memory ↔
      copied memory src.toNat dest.toNat (movedBytes count.toNat) =
        copied memory src.toNat dest.toNat count.toNat := by
  have reads : Maps flatTranslation src src.toNat count.toNat := maps_flat ranges.insideFrom
  have writes : Maps flatTranslation dest dest.toNat count.toNat := maps_flat ranges.insideTo
  unfold CopiesAs Asm.memcpy
  rw [sseMemcpyAligned_eq ranges.alignedFrom ranges.alignedTo reads writes ranges.apart enough,
    repMovsb_of_maps reads writes ranges.apart]
  simp only [Option.some.injEq, exists_eq_left']
  exact eq_comm

/-- The memory is that of `memcpy` exactly if the destination already held the bytes of the source
behind those that are moved. -/
theorem sseMemcpyAligned_iff {dest src count : Word} (ranges : AlignedApart dest src count)
    (enough : count.toNat / 2048 < fuel) :
    CopiesAs fuel dest src count memory ↔
      ∀ x, 128 * (count.toNat / 2048) ≤ x → x < count.toNat →
        memory (dest.toNat + x) = memory (src.toNat + x) := by
  rw [copiesAs_iff ranges enough, copied_eq_iff (movedBytes_le count.toNat)]
  rfl

/-- Memory with one byte set. -/
def oneByteAt (place : Nat) : Memory := fun other => if other = place then 1 else 0

/-- A byte among the first 128 of 2048 is moved, and the rest of the source is zero as the
destination is. -/
theorem sseMemcpyAligned_2048 : CopiesAs 2 0x2000 0x1000 2048 (oneByteAt 0x1005) := by
  have ranges : AlignedApart 0x2000 0x1000 2048 :=
    ⟨by decide, by decide, by decide, by decide, by decide⟩
  refine (sseMemcpyAligned_iff ranges (by decide)).mpr ?_
  intro x behind below
  change 128 ≤ x at behind
  change (if 0x2000 + x = 0x1005 then (1 : Byte) else 0) = if 0x1000 + x = 0x1005 then 1 else 0
  rw [if_neg (by omega), if_neg (by omega)]

/-- Sixteen bytes: nothing is moved. -/
theorem one_oword_not_moved : AlignedApart 0x2000 0x1000 16 ∧
    sseMemcpyAligned flatTranslation 1 0x2000 0x1000 16 (oneByteAt 0x1000) =
        some (oneByteAt 0x1000) ∧
      ¬CopiesAs 1 0x2000 0x1000 16 (oneByteAt 0x1000) := by
  have ranges : AlignedApart 0x2000 0x1000 16 :=
    ⟨by decide, by decide, by decide, by decide, by decide⟩
  have reads : Maps flatTranslation 0x1000 0x1000 16 := maps_flat ranges.insideFrom
  have writes : Maps flatTranslation 0x2000 0x2000 16 := maps_flat ranges.insideTo
  refine ⟨ranges, ?_, ?_⟩
  · refine (sseMemcpyAligned_eq ranges.alignedFrom ranges.alignedTo reads writes ranges.apart
      (by decide)).trans ?_
    exact congrArg some copied_zero
  · rw [copiesAs_iff ranges (by decide)]
    intro same
    have first := congrFun same 0x2000
    revert first
    decide

end Osdev64
