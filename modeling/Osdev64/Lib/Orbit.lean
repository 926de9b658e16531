/-
Loops that only move on: `while (go x) x = next x`.

On a finite type such a loop ends exactly when it comes to no state twice.
-/

import Mathlib.Logic.Function.Iterate
import Mathlib.Data.List.Iterate
import Mathlib.Data.Fintype.EquivFin

namespace Orbit

variable {α : Type} {next : α → α} {go : α → Prop} {first : α}

/-- The loop comes to its state number `k`. -/
def Visits (next : α → α) (go : α → Prop) (first : α) (k : Nat) : Prop := ∀ j < k, go (next^[j] first)

def Ends (next : α → α) (go : α → Prop) (first : α) : Prop := ∃ k, ¬go (next^[k] first)

theorem visits_succ_iff {k : Nat} :
    Visits next go first (k + 1) ↔ go first ∧ Visits next go (next first) k := by
  constructor
  · intro visits
    exact ⟨visits 0 (Nat.succ_pos k), fun j below => visits (j + 1) (Nat.succ_lt_succ below)⟩
  · rintro ⟨here, visits⟩ j below
    cases j with
    | zero => exact here
    | succ j => exact visits j (Nat.lt_of_succ_lt_succ below)

theorem forever_of_repeat {i j : Nat} (earlier : i < j) (visits : Visits next go first j)
    (same : next^[i] first = next^[j] first) (k : Nat) : go (next^[k] first) := by
  induction k using Nat.strong_induction_on with
  | _ k ih =>
    by_cases before : k < j
    · exact visits k before
    · obtain ⟨more, rfl⟩ : ∃ more, k = more + j := ⟨k - j, by omega⟩
      rw [Function.iterate_add_apply, ← same, ← Function.iterate_add_apply]
      exact ih (more + i) (by omega)

theorem ends_iff [Finite α] :
    Ends next go first ↔ ∀ i j, i < j → Visits next go first j → next^[i] first ≠ next^[j] first := by
  constructor
  · rintro ⟨k, stops⟩ i j earlier visits same
    exact stops (forever_of_repeat earlier visits same k)
  · intro different
    by_contra endless
    have forever : ∀ k, go (next^[k] first) := by
      intro k
      by_contra stops
      exact endless ⟨k, stops⟩
    obtain ⟨i, j, same, distinct⟩ := Function.not_injective_iff.mp
      (not_injective_infinite_finite fun k => next^[k] first)
    rcases Nat.lt_or_gt_of_ne distinct with earlier | later
    · exact different i j earlier (fun k _ => forever k) same
    · exact different j i later (fun k _ => forever k) same.symm

theorem finite_bitVec (w : Nat) : Finite (BitVec w) :=
  Finite.of_injective BitVec.toFin fun _ _ same => BitVec.eq_of_toFin_eq same

/-- The states at which the loop runs its body, or `none` when it takes more rounds than it is given. -/
def trace (next : α → α) (go : α → Prop) [DecidablePred go] : Nat → α → Option (List α)
  | 0, x => if go x then none else some []
  | fuel + 1, x => if go x then (trace next go fuel (next x)).map (x :: ·) else some []

variable [DecidablePred go]

theorem trace_eq_nil_iff {fuel : Nat} : trace next go fuel first = some [] ↔ ¬go first := by
  cases fuel with
  | zero =>
    unfold trace
    split
    · rename_i more
      exact iff_of_false (by simp) (not_not.mpr more)
    · rename_i stops
      exact iff_of_true rfl stops
  | succ fuel =>
    unfold trace
    split
    · rename_i more
      refine iff_of_false ?_ (not_not.mpr more)
      intro same
      obtain ⟨rest, _, impossible⟩ := Option.map_eq_some_iff.mp same
      cases impossible
    · rename_i stops
      exact iff_of_true rfl stops

theorem trace_eq_cons_iff {fuel : Nat} {x : α} {states : List α} :
    trace next go (fuel + 1) first = some (x :: states) ↔
      x = first ∧ go first ∧ trace next go fuel (next first) = some states := by
  rw [trace]
  split
  · rename_i more
    rw [Option.map_eq_some_iff]
    constructor
    · rintro ⟨rest, traced, same⟩
      obtain ⟨rfl, rfl⟩ := List.cons.inj same
      exact ⟨rfl, more, traced⟩
    · rintro ⟨rfl, _, traced⟩
      exact ⟨states, traced, rfl⟩
  · rename_i stops
    refine iff_of_false (by simp) ?_
    rintro ⟨_, more, _⟩
    exact stops more

theorem trace_eq_some_iff {fuel : Nat} {states : List α} :
    trace next go fuel first = some states ↔
      states.length ≤ fuel ∧ states = List.iterate next first states.length ∧
        Visits next go first states.length ∧ ¬go (next^[states.length] first) := by
  induction states generalizing fuel first with
  | nil =>
    rw [trace_eq_nil_iff]
    exact ⟨fun stops => ⟨Nat.zero_le _, rfl, fun j below => absurd below (Nat.not_lt_zero j), stops⟩,
      fun stops => stops.2.2.2⟩
  | cons x states ih =>
    cases fuel with
    | zero =>
      refine iff_of_false ?_ fun few => absurd few.1 (Nat.not_succ_le_zero _)
      unfold trace
      split <;> simp
    | succ fuel =>
      rw [trace_eq_cons_iff, ih, List.length_cons, List.iterate, visits_succ_iff,
        Nat.succ_le_succ_iff, List.cons.injEq, Function.iterate_succ_apply]
      tauto

theorem exists_trace_iff : (∃ fuel, (trace next go fuel first).isSome = true) ↔ Ends next go first := by
  constructor
  · rintro ⟨fuel, ended⟩
    obtain ⟨states, traced⟩ := Option.isSome_iff_exists.mp ended
    exact ⟨states.length, (trace_eq_some_iff.mp traced).2.2.2⟩
  · intro ends
    classical
    let k := Nat.find ends
    have length : (List.iterate next first k).length = k := List.length_iterate next first k
    have visits : Visits next go first k := fun j below => not_not.mp (Nat.find_min ends below)
    have traced : trace next go k first = some (List.iterate next first k) := by
      apply trace_eq_some_iff.mpr
      rw [length]
      exact ⟨Nat.le_refl k, rfl, visits, Nat.find_spec ends⟩
    exact ⟨k, Option.isSome_iff_exists.mpr ⟨_, traced⟩⟩

end Orbit
