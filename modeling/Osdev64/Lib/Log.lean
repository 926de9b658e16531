/-
Computations that list what they do.

A log has the events up to the end of a computation, or up to the point where it
stops for good.  With more fuel a computation that was cut off goes on, and one
that returned stays as it is.
-/

import Mathlib.Data.List.Infix

structure Log (ε α : Type) where
  events : List ε
  result : Option α

namespace Log

variable {ε α β : Type} {first : Log ε α} {rest : α → Log ε β} {value : α}

def tell (events : List ε) : Log ε Unit := ⟨events, some ()⟩

def stop : Log ε α := ⟨[], none⟩

def andThen (first : Log ε α) (rest : α → Log ε β) : Log ε β :=
  match first.result with
  | none => ⟨first.events, none⟩
  | some value => ⟨first.events ++ (rest value).events, (rest value).result⟩

instance : Monad (Log ε) where
  pure value := ⟨[], some value⟩
  bind := andThen

theorem andThen_of_none (stopped : first.result = none) : first >>= rest = ⟨first.events, none⟩ := by
  change andThen first rest = _
  unfold andThen
  rw [stopped]

theorem andThen_of_some (returned : first.result = some value) :
    first >>= rest = ⟨first.events ++ (rest value).events, (rest value).result⟩ := by
  change andThen first rest = _
  unfold andThen
  rw [returned]

theorem tell_andThen (events : List ε) (rest : Unit → Log ε β) :
    (tell events >>= rest) = ⟨events ++ (rest ()).events, (rest ()).result⟩ := rfl

/-! ### Computations cut off -/

/-- The first is the second, or stopped on its way. -/
def Cut (first second : Log ε α) : Prop :=
  first = second ∨ first.result = none ∧ first.events <+: second.events

theorem Cut.refl (log : Log ε α) : Cut log log := .inl rfl

theorem cut_stop (log : Log ε α) : Cut stop log := .inr ⟨rfl, List.nil_prefix⟩

theorem Cut.events {second : Log ε α} (cut : Cut first second) : first.events <+: second.events := by
  rcases cut with rfl | ⟨-, before⟩
  · exact List.prefix_rfl
  · exact before

theorem Cut.eq_of_some {second : Log ε α} (cut : Cut first second) (returned : first.result = some value) :
    first = second := by
  rcases cut with same | ⟨stopped, -⟩
  · exact same
  · rw [stopped] at returned
    cases returned

theorem Cut.andThen {second : Log ε α} {rest' : α → Log ε β} (cut : Cut first second)
    (cuts : ∀ value, Cut (rest value) (rest' value)) : Cut (first >>= rest) (second >>= rest') := by
  rcases cut with rfl | ⟨stopped, before⟩
  · cases returned : first.result with
    | none =>
      rw [andThen_of_none returned, andThen_of_none returned]
      exact .refl _
    | some value =>
      rw [andThen_of_some returned, andThen_of_some returned]
      rcases cuts value with same | ⟨stopped, before⟩
      · rw [same]
        exact .refl _
      · exact .inr ⟨stopped, (List.prefix_append_right_inj _).mpr before⟩
  · rw [andThen_of_none stopped]
    refine .inr ⟨rfl, before.trans ?_⟩
    cases returned : second.result with
    | none =>
      rw [andThen_of_none returned]
    | some value =>
      rw [andThen_of_some returned]
      exact List.prefix_append _ _

/-! ### Watching the events -/

variable {σ : Type} {ok : σ → ε → Prop} {step : σ → ε → σ} {state : σ} {events : List ε}

/-- Each event is allowed in the state that the events before it lead to. -/
def Obeys (ok : σ → ε → Prop) (step : σ → ε → σ) : σ → List ε → Prop
  | _, [] => True
  | state, event :: events => ok state event ∧ Obeys ok step (step state event) events

theorem obeys_append {more : List ε} :
    Obeys ok step state (events ++ more) ↔
      Obeys ok step state events ∧ Obeys ok step (events.foldl step state) more := by
  induction events generalizing state with
  | nil => exact (true_and _).symm.to_iff
  | cons event events ih =>
    change ok state event ∧ Obeys ok step _ (events ++ more) ↔ _
    rw [ih, ← and_assoc]
    rfl

theorem Obeys.of_prefix {more : List ε} (obeys : Obeys ok step state more) (before : events <+: more) :
    Obeys ok step state events := by
  obtain ⟨others, rfl⟩ := before
  exact (obeys_append.mp obeys).1

theorem obeys_iff_of_still (still : ∀ event ∈ events, step state event = state) :
    Obeys ok step state events ↔ ∀ event ∈ events, ok state event := by
  induction events with
  | nil => exact iff_of_true trivial fun event member => absurd member List.not_mem_nil
  | cons event events ih =>
    change ok state event ∧ Obeys ok step (step state event) events ↔ _
    rw [still event List.mem_cons_self, List.forall_mem_cons,
      ih fun other member => still other (List.mem_cons_of_mem _ member)]

theorem obeys_rounds {round : Nat → List ε} {count : Nat} :
    Obeys ok step state ((List.range count).flatMap round) ↔
      ∀ k < count, Obeys ok step (((List.range k).flatMap round).foldl step state) (round k) := by
  induction count with
  | zero => exact iff_of_true trivial fun k below => absurd below (Nat.not_lt_zero k)
  | succ count ih =>
    rw [List.range_succ, List.flatMap_append, obeys_append, ih, Nat.forall_lt_succ_right,
      List.flatMap_singleton]

end Log
