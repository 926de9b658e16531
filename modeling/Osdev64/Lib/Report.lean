/-
Computations on a machine that report what they do.

A report lists the events up to the end of a computation, or up to the point
where it stops for good: at a page fault, or in a loop that does not end.
-/

import Osdev64.Lib.Program

namespace Paging

open Word64

/-- The events, and what the computation returns if it does. -/
structure Report (ε σ α : Type) where
  events : List ε
  result : Option (α × Machine σ)

def Reporting (ε σ α : Type) := Machine σ → Report ε σ α

namespace Reporting

variable {ε σ α β : Type} {machine machine' : Machine σ} {value : α}

def report (event : ε) : Reporting ε σ Unit := fun machine => ⟨[event], some ((), machine)⟩

def perform (program : Prog σ α) : Reporting ε σ α := fun machine => ⟨[], program.run machine⟩

/-- Run the program and report what it returned. -/
def call (event : Option α → ε) (program : Prog σ α) : Reporting ε σ α := fun machine =>
  ⟨[event ((program.run machine).map Prod.fst)], program.run machine⟩

def stop : Reporting ε σ α := fun _ => ⟨[], none⟩

def andThen (first : Reporting ε σ α) (rest : α → Reporting ε σ β) : Reporting ε σ β := fun machine =>
  match (first machine).result with
  | none => ⟨(first machine).events, none⟩
  | some (value, machine') =>
    ⟨(first machine).events ++ (rest value machine').events, (rest value machine').result⟩

instance : Monad (Reporting ε σ) where
  pure value := fun machine => ⟨[], some (value, machine)⟩
  bind := andThen

/-! ### Sequences -/

section Sequence

variable {first : Reporting ε σ α} {rest : α → Reporting ε σ β}

theorem result_andThen :
    ((first >>= rest) machine).result =
      (first machine).result.bind fun returned => (rest returned.1 returned.2).result := by
  change (andThen first rest machine).result = _
  unfold andThen
  cases (first machine).result with
  | none => rfl
  | some returned => rfl

theorem events_andThen (returned : (first machine).result = some (value, machine')) :
    ((first >>= rest) machine).events = (first machine).events ++ (rest value machine').events := by
  change (andThen first rest machine).events = _
  unfold andThen
  rw [returned]

theorem events_stopped (stopped : (first machine).result = none) :
    ((first >>= rest) machine).events = (first machine).events := by
  change (andThen first rest machine).events = _
  unfold andThen
  rw [stopped]

theorem mem_events_andThen {event : ε} :
    event ∈ ((first >>= rest) machine).events ↔
      event ∈ (first machine).events ∨
        ∃ value machine', (first machine).result = some (value, machine') ∧
          event ∈ (rest value machine').events := by
  cases returned : (first machine).result with
  | none =>
    rw [events_stopped returned]
    simp
  | some result =>
    obtain ⟨value, machine'⟩ := result
    rw [events_andThen returned, List.mem_append]
    simp

theorem returned_andThen {returned : β × Machine σ} :
    ((first >>= rest) machine).result = some returned ↔
      ∃ value machine', (first machine).result = some (value, machine') ∧
        (rest value machine').result = some returned := by
  rw [result_andThen, Option.bind_eq_some_iff]
  constructor
  · rintro ⟨⟨value, machine'⟩, ran, later⟩
    exact ⟨value, machine', ran, later⟩
  · rintro ⟨value, machine', ran, later⟩
    exact ⟨(value, machine'), ran, later⟩

theorem result_perform {program : Prog σ α} (ran : program.run machine = some (value, machine')) :
    ((perform program >>= rest) machine).result = (rest value machine').result := by
  rw [result_andThen]
  change (program.run machine).bind _ = _
  rw [ran]
  rfl

theorem events_perform {program : Prog σ α} (ran : program.run machine = some (value, machine')) :
    ((perform program >>= rest) machine).events = (rest value machine').events := by
  rw [events_andThen (show (perform program machine).result = some (value, machine') from ran)]
  rfl

theorem result_call {event : Option α → ε} {program : Prog σ α}
    (ran : program.run machine = some (value, machine')) :
    ((call event program >>= rest) machine).result = (rest value machine').result := by
  rw [result_andThen]
  change (program.run machine).bind _ = _
  rw [ran]
  rfl

theorem events_call {event : Option α → ε} {program : Prog σ α}
    (ran : program.run machine = some (value, machine')) :
    ((call event program >>= rest) machine).events = event (some value) :: (rest value machine').events := by
  rw [events_andThen (show (call event program machine).result = some (value, machine') from ran)]
  change event ((program.run machine).map Prod.fst) :: _ = _
  rw [ran]
  rfl

end Sequence

/-! ### What a computation can report -/

/-- Every event of the computation is `good`, on whatever machine it runs. -/
def Only (good : ε → Prop) (computation : Reporting ε σ α) : Prop :=
  ∀ machine, ∀ event ∈ (computation machine).events, good event

section Only

variable {good : ε → Prop} {first : Reporting ε σ α} {rest : α → Reporting ε σ β}

theorem only_pure (value : α) : Only good (pure value : Reporting ε σ α) := by
  intro machine event member
  cases member

theorem only_stop : Only good (stop : Reporting ε σ α) := by
  intro machine event member
  cases member

theorem only_perform (program : Prog σ α) : Only good (perform program : Reporting ε σ α) := by
  intro machine event member
  cases member

theorem only_report {event : ε} (isGood : good event) : Only good (report event : Reporting ε σ Unit) := by
  intro machine other member
  rw [List.mem_singleton.mp member]
  exact isGood

theorem only_call {event : Option α → ε} (isGood : ∀ value, good (event value)) (program : Prog σ α) :
    Only good (call event program) := by
  intro machine other member
  rw [List.mem_singleton.mp member]
  exact isGood _

theorem Only.andThen (only : Only good first) (later : ∀ value, Only good (rest value)) :
    Only good (first >>= rest) := by
  intro machine event member
  rcases mem_events_andThen.mp member with early | ⟨value, machine', _, late⟩
  · exact only machine event early
  · exact later value machine' event late

end Only

/-! ### Events that lead to others -/

/-- Where the computation reports a `cause` it reports an `effect` too. -/
def Leads (cause effect : ε → Prop) (computation : Reporting ε σ α) : Prop :=
  ∀ machine, ∀ event ∈ (computation machine).events, cause event →
    ∃ other ∈ (computation machine).events, effect other

section Leads

variable {cause effect : ε → Prop} {first : Reporting ε σ α} {rest : α → Reporting ε σ β}

theorem leads_of_only (only : Only (fun event => ¬cause event) first) : Leads cause effect first :=
  fun machine event member isCause => absurd isCause (only machine event member)

theorem Leads.andThen (leads : Leads cause effect first) (later : ∀ value, Leads cause effect (rest value)) :
    Leads cause effect (first >>= rest) := by
  intro machine event member isCause
  rcases mem_events_andThen.mp member with early | ⟨value, machine', ran, late⟩
  · obtain ⟨other, found, isEffect⟩ := leads machine event early isCause
    exact ⟨other, mem_events_andThen.mpr (Or.inl found), isEffect⟩
  · obtain ⟨other, found, isEffect⟩ := later value machine' event late isCause
    exact ⟨other, mem_events_andThen.mpr (Or.inr ⟨value, machine', ran, found⟩), isEffect⟩

theorem leads_call {event : Option α → ε} {program : Prog σ α} (fault : ¬cause (event none))
    (answer : ∀ value machine', cause (event (some value)) →
      ∃ other ∈ (rest value machine').events, effect other)
    (later : ∀ value, Leads cause effect (rest value)) :
    Leads cause effect (call event program >>= rest) := by
  intro machine other member isCause
  cases ran : program.run machine with
  | none =>
    have only : (call event program machine).events = [event none] := by
      change [event ((program.run machine).map Prod.fst)] = _
      rw [ran]
      rfl
    rw [events_stopped (show (call event program machine).result = none from ran), only,
      List.mem_singleton] at member
    exact absurd (member ▸ isCause) fault
  | some returned =>
    obtain ⟨value, machine'⟩ := returned
    rw [events_call ran] at member ⊢
    rcases List.mem_cons.mp member with here | late
    · obtain ⟨effect', found, isEffect⟩ := answer value machine' (here ▸ isCause)
      exact ⟨effect', List.mem_cons_of_mem _ found, isEffect⟩
    · obtain ⟨effect', found, isEffect⟩ := later value machine' other late isCause
      exact ⟨effect', List.mem_cons_of_mem _ found, isEffect⟩

end Leads

end Reporting

end Paging
