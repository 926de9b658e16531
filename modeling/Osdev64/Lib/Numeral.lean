/-
Numerals over any alphabet.

A numeral is a string of digits, the highest first.  `char` writes a digit and
`read` is its inverse on the digits of the base.
-/

import Mathlib.Data.Nat.Digits.Lemmas

namespace Numeral

variable {α : Type} {char : Nat → α} {read : α → Nat} {base : Nat}

/-- The digits of a number, lowest first, as a string. -/
def spell (char : Nat → α) (digits : List Nat) : List α := (digits.map char).reverse

/-- The numeral without leading zeros. -/
def canonical (char : Nat → α) (base n : Nat) : List α :=
  if n = 0 then [char 0] else spell char (Nat.digits base n)

def evaluate (read : α → Nat) (base : Nat) (text : List α) : Nat :=
  text.foldl (fun number c => number * base + read c) 0

theorem evaluate_append_singleton (text : List α) (c : α) :
    evaluate read base (text ++ [c]) = evaluate read base text * base + read c := by
  unfold evaluate
  rw [List.foldl_append]
  rfl

theorem evaluate_spell {digits : List Nat} (inverse : ∀ d ∈ digits, read (char d) = d) :
    evaluate read base (spell char digits) = Nat.ofDigits base digits := by
  induction digits with
  | nil => rfl
  | cons d digits ih =>
    have here : read (char d) = d := inverse d List.mem_cons_self
    have rest := ih fun e member => inverse e (List.mem_cons_of_mem d member)
    have front : spell char (d :: digits) = spell char digits ++ [char d] := by
      unfold spell
      rw [List.map_cons, List.reverse_cons]
    rw [front, evaluate_append_singleton, rest, here, Nat.ofDigits_cons, Nat.mul_comm, Nat.add_comm]

theorem evaluate_canonical (large : 1 < base) (inverse : ∀ d < base, read (char d) = d) (n : Nat) :
    evaluate read base (canonical char base n) = n := by
  unfold canonical
  split
  · rename_i zero
    have first : read (char 0) = 0 := inverse 0 (Nat.lt_trans Nat.zero_lt_one large)
    rw [zero]
    change 0 * base + read (char 0) = 0
    rw [first, Nat.zero_mul]
  · rw [evaluate_spell fun d member => inverse d (Nat.digits_lt_base large member), Nat.ofDigits_digits]

theorem canonical_ne_nil (base n : Nat) : canonical char base n ≠ [] := by
  unfold canonical spell
  split
  · exact List.cons_ne_nil _ _
  · rename_i positive
    rw [ne_eq, List.reverse_eq_nil_iff, List.map_eq_nil_iff]
    exact Nat.digits_ne_nil_iff_ne_zero.mpr positive

theorem canonical_inj (large : 1 < base) (inverse : ∀ d < base, read (char d) = d) {m n : Nat} :
    canonical char base m = canonical char base n ↔ m = n := by
  constructor
  · intro same
    have value := congrArg (evaluate read base) same
    rwa [evaluate_canonical large inverse, evaluate_canonical large inverse] at value
  · rintro rfl
    rfl

theorem mem_canonical {c : α} (large : 1 < base) {n : Nat} (member : c ∈ canonical char base n) :
    ∃ d < base, c = char d := by
  unfold canonical at member
  split at member
  · exact ⟨0, Nat.lt_trans Nat.zero_lt_one large, List.mem_singleton.mp member⟩
  · obtain ⟨d, here, rfl⟩ := List.mem_map.mp (List.mem_reverse.mp member)
    exact ⟨d, Nat.digits_lt_base large here, rfl⟩

end Numeral
