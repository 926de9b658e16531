/-
What `strrev`, `ulltostr` and `strncpy` leave in a buffer.

`ulltostr` writes the digits from the lowest up and then reverses them.
`strncpy` fills the whole length it is given, with zeros behind the string.
-/

import Osdev64.Printf

namespace Osdev64

open Bytes CString Word64

/-! ### Reversing -/

theorem peek_strrevLoop (s : Buffer) {length rounds : Nat} (half : rounds ≤ length / 2 + 1) (j : Nat) :
    peek (strrevLoop s length rounds) j =
      if j ≤ length ∧ (j < rounds ∨ length < j + rounds) then peek s (length - j) else peek s j := by
  induction rounds generalizing j with
  | zero => rw [strrevLoop, if_neg (by omega)]
  | succ i ih =>
    have before (j : Nat) := ih (by omega) j
    simp only [strrevLoop, peek_poke, before]
    -- the middle byte of an odd number is exchanged with itself
    split_ifs <;> first | rfl | omega | (congr 1; omega)

theorem peek_strrev (s : Buffer) (j : Nat) :
    peek (strrev s).2 j = if j < strlen s then peek s (strlen s - 1 - j) else peek s j := by
  unfold strrev
  rw [peek_strrevLoop s (Nat.le_refl _)]
  split_ifs <;> first | rfl | omega | (congr 1; omega)

theorem strrev_holds {s : Buffer} {string : List Byte} (holds : Holds s string) :
    Holds (strrev s).2 string.reverse := by
  have length := holds.strlen_eq
  refine ⟨?_, ?_, ?_⟩
  · intro j inside
    rw [List.length_reverse] at inside
    rw [peek_strrev, if_pos (by omega), length, holds.bytes _ (by omega),
      List.getD_eq_getElem _ _ (by omega), List.getD_eq_getElem _ _ (by simpa using inside),
      List.getElem_reverse]
  · rw [peek_strrev, length, List.length_reverse, if_neg (Nat.lt_irrefl _)]
    exact holds.zero
  · intro byte member
    exact holds.nonzero byte (List.mem_reverse.1 member)

/-! ### Numerals -/

/-- The digits that `ulltostr` writes, the lowest first. -/
def lowDigits (base : Nat) : Nat → Nat → List Byte
  | 0, _ => []
  | len + 1, num =>
    if num = 0 then [] else digitChar (num % base) :: lowDigits base len (num / base)

/-- The string it leaves. -/
def numeral (num : Word) (base len : Nat) : List Byte :=
  if num = 0 then [0x30] else (lowDigits base len num.toNat).reverse

theorem length_lowDigits_le (base len num : Nat) : (lowDigits base len num).length ≤ len := by
  induction len generalizing num with
  | zero => exact Nat.le_refl 0
  | succ len ih =>
    unfold lowDigits
    split
    · exact Nat.zero_le _
    · exact Nat.succ_le_succ (ih (num / base))

theorem length_numeral_le (num : Word) (base : Nat) {len : Nat} (digits : 0 < len) :
    (numeral num base len).length ≤ len := by
  unfold numeral
  split
  · exact digits
  · rw [List.length_reverse]
    exact length_lowDigits_le base len num.toNat

theorem length_numeral_pos (num : Word) (base : Nat) {len : Nat} (digits : 0 < len) :
    0 < (numeral num base len).length := by
  unfold numeral
  split
  · exact Nat.one_pos
  · rename_i nonzero
    have positive : num.toNat ≠ 0 := Nat.ne_of_gt (toNat_pos_of_ne nonzero)
    obtain ⟨count, rfl⟩ := Nat.exists_eq_succ_of_ne_zero (Nat.ne_of_gt digits)
    rw [List.length_reverse, lowDigits, if_neg positive]
    exact Nat.succ_pos _

theorem digitChar_ne_zero {remainder : Nat} (small : remainder < 36) : digitChar remainder ≠ 0 := by
  have all : ∀ r < 36, digitChar r ≠ 0 := by decide
  exact all remainder small

theorem lowDigits_ne_zero {base len num : Nat} (positive : 0 < base) (most : base ≤ 36) :
    ∀ byte ∈ lowDigits base len num, byte ≠ 0 := by
  induction len generalizing num with
  | zero =>
    intro byte member
    exact absurd member List.not_mem_nil
  | succ len ih =>
    intro byte member
    unfold lowDigits at member
    split_ifs at member with zero
    · exact absurd member List.not_mem_nil
    · rcases List.mem_cons.1 member with rfl | rest
      · exact digitChar_ne_zero (Nat.lt_of_lt_of_le (Nat.mod_lt _ positive) most)
      · exact ih byte rest

theorem ulltostrLoop_eq (base len num i : Nat) (buffer : Buffer) :
    (ulltostrLoop base len num i buffer).1 = i + (lowDigits base len num).length ∧
      ∀ j, peek (ulltostrLoop base len num i buffer).2 j =
        if i ≤ j ∧ j < i + (lowDigits base len num).length then
          (lowDigits base len num).getD (j - i) 0
        else peek buffer j := by
  induction len generalizing num i buffer with
  | zero => exact ⟨rfl, fun j => (if_neg (by simp [lowDigits])).symm⟩
  | succ len ih =>
    unfold ulltostrLoop lowDigits
    by_cases zero : num = 0
    · rw [if_pos zero, if_pos zero]
      exact ⟨rfl, fun j => (if_neg (by simp)).symm⟩
    · rw [if_neg zero, if_neg zero]
      obtain ⟨index, bytes⟩ := ih (num / base) (i + 1) (poke buffer i (digitChar (num % base)))
      refine ⟨by rw [index, List.length_cons]; omega, ?_⟩
      intro j
      rw [bytes j, peek_poke, List.length_cons]
      by_cases here : j = i
      · subst here
        rw [if_neg (by omega), if_pos rfl, if_pos (by omega), Nat.sub_self]
        rfl
      · by_cases later : i + 1 ≤ j ∧ j < i + 1 + (lowDigits base len (num / base)).length
        · rw [if_pos later, if_pos (by omega), show j - i = j - (i + 1) + 1 by omega]
          rfl
        · rw [if_neg later, if_neg here, if_neg (by omega)]

theorem ulltostr_eq (num : Word) (buffer : Buffer) {base : Nat} (len : Nat) (positive : 0 < base)
    (most : base ≤ 36) :
    (ulltostr num buffer base len).1 = (numeral num base len).length ∧
    Holds (ulltostr num buffer base len).2 (numeral num base len) ∧
      ∀ j, (numeral num base len).length < j →
        peek (ulltostr num buffer base len).2 j = peek buffer j := by
  unfold ulltostr numeral
  by_cases zero : num = 0
  · rw [if_pos zero, if_pos zero]
    refine ⟨rfl, ⟨?_, ?_, by decide⟩, ?_⟩
    · intro j inside
      have first : j = 0 := Nat.lt_one_iff.1 inside
      rw [first, peek_poke, peek_poke]
      rfl
    · rw [peek_poke]
      rfl
    · intro j behind
      change 1 < j at behind
      rw [peek_poke, peek_poke, if_neg (by omega), if_neg (by omega)]
  · rw [if_neg zero, if_neg zero]
    obtain ⟨index, bytes⟩ := ulltostrLoop_eq base len num.toNat 0 buffer
    rw [Nat.zero_add] at index
    simp only [Nat.zero_le, true_and, Nat.zero_add, Nat.sub_zero] at bytes
    have holds : Holds (poke (ulltostrLoop base len num.toNat 0 buffer).2
        (ulltostrLoop base len num.toNat 0 buffer).1 0) (lowDigits base len num.toNat) := by
      refine ⟨?_, ?_, lowDigits_ne_zero positive most⟩
      · intro j inside
        rw [peek_poke, index, if_neg (by omega), bytes, if_pos inside]
      · rw [peek_poke, index, if_pos rfl]
    refine ⟨?_, strrev_holds holds, ?_⟩
    · rw [List.length_reverse]
      exact holds.strlen_eq
    · intro j behind
      rw [List.length_reverse] at behind
      rw [peek_strrev, holds.strlen_eq, if_neg (by omega), peek_poke, index, if_neg (by omega),
        bytes, if_neg (by omega)]

/-! ### Copying a string -/

theorem strncpyLoop_eq (source : List Byte) (rdi : Nat) (rdx : Word) (buffer : Buffer)
    (positive : 0 < rdx.toNat) :
    (strncpyLoop source rdi rdx buffer).1 = rdi + min (content source).length rdx.toNat ∧
    (strncpyLoop source rdi rdx buffer).2.1.toNat =
      rdx.toNat - min (content source).length rdx.toNat ∧
      ∀ j, peek (strncpyLoop source rdi rdx buffer).2.2 j =
        if rdi ≤ j ∧ j < rdi + min (content source).length rdx.toNat then
          (content source).getD (j - rdi) 0
        else peek buffer j := by
  induction source generalizing rdi rdx buffer with
  | nil =>
    unfold strncpyLoop
    refine ⟨by simp [content], by simp [content], fun j => (if_neg ?_).symm⟩
    simp [content]
  | cons al rsi ih =>
    unfold strncpyLoop
    by_cases zero : al = 0
    · rw [if_pos zero, zero, content_zero]
      exact ⟨by simp, by simp, fun j => (if_neg (by simp)).symm⟩
    · have less : (rdx - 1).toNat = rdx.toNat - 1 := BitVec.toNat_sub_of_le positive
      rw [if_neg zero, content_cons zero, List.length_cons]
      by_cases last : rdx - 1 = 0
      · have one : rdx.toNat = 1 := by
          rw [last] at less
          change 0 = _ at less
          omega
        rw [if_pos last, one]
        refine ⟨by simp, by simp, ?_⟩
        intro j
        change peek (poke buffer rdi al) j = _
        rw [peek_poke]
        by_cases here : j = rdi
        · rw [if_pos here, if_pos (by omega), here, Nat.sub_self]
          rfl
        · rw [if_neg here, if_neg (by omega)]
      · rw [if_neg last]
        obtain ⟨index, left, bytes⟩ :=
          ih (rdi + 1) (rdx - 1) (poke buffer rdi al) (toNat_pos_of_ne last)
        rw [less] at index left bytes
        refine ⟨by omega, by omega, ?_⟩
        intro j
        rw [bytes j, peek_poke]
        by_cases here : j = rdi
        · subst here
          rw [if_neg (by omega), if_pos rfl, if_pos (by omega), Nat.sub_self]
          rfl
        · by_cases later : rdi + 1 ≤ j ∧ j < rdi + 1 + min (content rsi).length (rdx.toNat - 1)
          · rw [if_pos later, if_pos (by omega), show j - rdi = j - (rdi + 1) + 1 by omega]
            rfl
          · rw [if_neg later, if_neg here, if_neg (by omega)]

theorem peek_strncpy (dest : Buffer) (source : List Byte) {length : Word}
    (positive : 0 < length.toNat) (j : Nat) :
    peek (strncpy dest source length) j =
      if j < length.toNat then (content source).getD j 0 else peek dest j := by
  obtain ⟨index, left, bytes⟩ := strncpyLoop_eq source 0 length dest positive
  unfold strncpy
  rw [peek_memset, index, left, bytes]
  simp only [Nat.zero_add, Nat.zero_le, true_and, Nat.sub_zero]
  by_cases copied : j < min (content source).length length.toNat
  · rw [if_neg (by omega), if_pos copied, if_pos (by omega)]
  · rw [if_neg copied]
    by_cases filled : j < length.toNat
    · rw [if_pos (by omega), if_pos filled, List.getD_eq_default _ _ (by omega)]
    · rw [if_neg (by omega), if_neg filled]

end Osdev64
