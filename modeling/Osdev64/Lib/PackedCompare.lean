/-
The packed comparison of two strings of implicit length.

An operand is a row of lanes; its string ends in front of the first zero, and the
lanes from there on are not valid.  The comparison is "equal each": the lanes of
one position are compared, two lanes that are not valid count as equal and a valid
lane never equals one that is not.
-/

import Mathlib.Data.Fintype.Basic
import Mathlib.Data.List.FinRange

namespace PackedCompare

variable {α : Type} [Zero α] [DecidableEq α] {n : Nat}

/-- No lane up to this one is zero. -/
def valid (operand : Fin n → α) (lane : Fin n) : Bool := decide (∀ before ≤ lane, operand before ≠ 0)

/-- The first intermediate result, with the overrides for lanes that are not valid. -/
def equalEach (first second : Fin n → α) (lane : Fin n) : Bool :=
  match valid first lane, valid second lane with
  | true, true => first lane = second lane
  | false, false => true
  | _, _ => false

/-- The index register and the two flags that a comparison leaves. -/
structure Outcome where
  index : Nat
  carry : Bool
  zero : Bool
deriving DecidableEq

/-- `pcmpistri` for "equal each" and the lowest index.  Negative polarity turns every
bit of the first result around; with no bit set the index is the number of lanes. -/
def pcmpistri (negative : Bool) (first second : Fin n → α) : Outcome where
  index := (List.finRange n).findIdx fun lane => equalEach first second lane ^^ negative
  carry := (List.finRange n).any fun lane => equalEach first second lane ^^ negative
  zero := (List.finRange n).any fun lane => second lane = 0

/-- The string of an operand ends in this lane. -/
structure EndsAt (operand : Fin n → α) (lane : Fin n) : Prop where
  zero : operand lane = 0
  nonzero : ∀ before < lane, operand before ≠ 0

/-- The operands differ in this lane and in none before it. -/
structure DiffersAt (first second : Fin n → α) (lane : Fin n) : Prop where
  differs : first lane ≠ second lane
  agree : ∀ before < lane, first before = second before

variable {first second operand : Fin n → α} {lane last : Fin n}

/-! ### Valid lanes -/

theorem valid_iff : valid operand lane = true ↔ ∀ before ≤ lane, operand before ≠ 0 := by
  unfold valid
  rw [decide_eq_true_iff]

theorem EndsAt.valid_iff (ends : EndsAt operand last) : valid operand lane = true ↔ lane < last := by
  rw [PackedCompare.valid_iff]
  constructor
  · intro nonzero
    by_contra behind
    exact nonzero last (not_lt.mp behind) ends.zero
  · intro inside before le
    exact ends.nonzero before (lt_of_le_of_lt le inside)

theorem valid_of_nonzero (nonzero : ∀ before < lane, operand before ≠ 0) :
    valid operand lane = decide (operand lane ≠ 0) := by
  unfold valid
  rw [decide_eq_decide]
  constructor
  · intro all
    exact all lane le_rfl
  · intro here before le
    rcases lt_or_eq_of_le le with lower | rfl
    · exact nonzero before lower
    · exact here

theorem valid_eq_of_agree (agree : ∀ before ≤ lane, first before = second before) :
    valid first lane = valid second lane := by
  rw [Bool.eq_iff_iff, PackedCompare.valid_iff, PackedCompare.valid_iff]
  constructor
  · intro nonzero before le
    rw [← agree before le]
    exact nonzero before le
  · intro nonzero before le
    rw [agree before le]
    exact nonzero before le

/-! ### The comparison of a lane -/

theorem equalEach_eq_true_of_agree (agree : ∀ before ≤ lane, first before = second before) :
    equalEach first second lane = true := by
  unfold equalEach
  rw [valid_eq_of_agree agree, agree lane le_rfl]
  cases valid second lane with
  | true => exact decide_eq_true rfl
  | false => rfl

theorem equalEach_eq_true_of_ends (left : EndsAt first last) (right : EndsAt second last)
    (behind : last ≤ lane) : equalEach first second lane = true := by
  have leftInvalid : valid first lane = false := by
    rw [Bool.eq_false_iff, Ne, left.valid_iff]
    exact not_lt.mpr behind
  have rightInvalid : valid second lane = false := by
    rw [Bool.eq_false_iff, Ne, right.valid_iff]
    exact not_lt.mpr behind
  unfold equalEach
  rw [leftInvalid, rightInvalid]

theorem equalEach_eq_false (diff : DiffersAt first second lane)
    (nonzero : ∀ before < lane, second before ≠ 0) : equalEach first second lane = false := by
  have firstNonzero : ∀ before < lane, first before ≠ 0 := by
    intro before lower
    rw [diff.agree before lower]
    exact nonzero before lower
  unfold equalEach
  rw [valid_of_nonzero firstNonzero, valid_of_nonzero nonzero]
  by_cases left : first lane = 0
  · have right : second lane ≠ 0 := fun zero => diff.differs (left.trans zero.symm)
    rw [decide_eq_false (not_not_intro left), decide_eq_true right]
  · by_cases right : second lane = 0
    · rw [decide_eq_true left, decide_eq_false (not_not_intro right)]
    · rw [decide_eq_true left, decide_eq_true right]
      exact decide_eq_false diff.differs

/-! ### The flags and the index -/

theorem zero_eq_true_iff {negative : Bool} :
    (pcmpistri negative first second).zero = true ↔ ∃ lane, second lane = 0 := by
  simp [pcmpistri]

theorem pcmpistri_of_first {negative : Bool} (set : (equalEach first second lane ^^ negative) = true)
    (clear : ∀ before < lane, (equalEach first second before ^^ negative) = false) :
    (pcmpistri negative first second).index = lane ∧
      (pcmpistri negative first second).carry = true := by
  constructor
  · unfold pcmpistri
    have inside : lane.val < (List.finRange n).length := by
      rw [List.length_finRange]
      exact lane.isLt
    rw [List.findIdx_eq inside]
    simp only [List.getElem_finRange]
    constructor
    · exact set
    · intro before lower
      exact clear ⟨before, lower.trans lane.isLt⟩ lower
  · unfold pcmpistri
    rw [List.any_eq_true]
    exact ⟨lane, List.mem_finRange lane, set⟩

theorem carry_eq_false_iff {negative : Bool} : (pcmpistri negative first second).carry = false ↔
    ∀ lane, (equalEach first second lane ^^ negative) = false := by
  simp [pcmpistri, -Bool.bne_false]

theorem index_lt_of_carry {negative : Bool} (carry : (pcmpistri negative first second).carry = true) :
    (pcmpistri negative first second).index < n := by
  have found := List.findIdx_lt_length.mpr (List.any_eq_true.mp carry)
  rwa [List.length_finRange] at found

theorem index_of_empty (ends : EndsAt second last) :
    (pcmpistri false (fun _ => 0) second).index = last := by
  have positions : ∀ lane, (equalEach (fun _ => (0 : α)) second lane ^^ false) = !decide (lane < last) := by
    intro lane
    have invalid : valid (fun _ => (0 : α)) lane = false := by
      rw [Bool.eq_false_iff, Ne, PackedCompare.valid_iff]
      intro nonzero
      exact nonzero lane le_rfl rfl
    have other : valid second lane = decide (lane < last) := by
      rw [Bool.eq_iff_iff, ends.valid_iff, decide_eq_true_iff]
    unfold equalEach
    rw [invalid, other]
    cases decide (lane < last) <;> rfl
  refine (pcmpistri_of_first ?_ ?_).1
  · rw [positions, decide_eq_false (lt_irrefl last), Bool.not_false]
  · intro before lower
    rw [positions, decide_eq_true lower, Bool.not_true]

theorem carry_of_agree (ends : EndsAt second last) (agree : ∀ lane ≤ last, first lane = second lane) :
    (pcmpistri true first second).carry = false := by
  have left : EndsAt first last := by
    constructor
    · rw [agree last le_rfl]
      exact ends.zero
    · intro before lower
      rw [agree before lower.le]
      exact ends.nonzero before lower
  rw [carry_eq_false_iff]
  intro lane
  have equal : equalEach first second lane = true := by
    rcases le_total lane last with inside | behind
    · apply equalEach_eq_true_of_agree
      intro before le
      exact agree before (le.trans inside)
    · exact equalEach_eq_true_of_ends left ends behind
  rw [equal]
  rfl

theorem index_of_differs (ends : EndsAt second last) (diff : DiffersAt first second lane)
    (inside : lane ≤ last) :
    (pcmpistri true first second).index = lane ∧ (pcmpistri true first second).carry = true := by
  apply pcmpistri_of_first
  · rw [equalEach_eq_false diff fun before lower => ends.nonzero before (lower.trans_le inside)]
    rfl
  · intro before lower
    rw [equalEach_eq_true_of_agree fun other le => diff.agree other (le.trans_lt lower)]
    rfl

end PackedCompare
