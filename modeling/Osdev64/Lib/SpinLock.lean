/-
Sections of code behind a test-and-set lock, on any number of processors.

A call spins until it finds the flag clear and sets it, runs its section in steps
and clears the flag.  An interrupt may call a section on top of whatever its
processor is doing, so a processor has a stack of calls, and only the top one
moves.  Memory is sequentially consistent.

A call that interrupts the section it waits for waits for ever.
-/

import Osdev64.Lib.Runs
import Mathlib.Logic.Function.Basic

namespace SpinLock

open Runs

/-- The code of the calls.  `admits` is tested before the lock is taken; `finished` gives the result
once a section is at its end; `ambient` is what others than the sections do to the shared state. -/
structure Code (σ τ γ ρ : Type) where
  admits : γ → σ → Prop
  enter : γ → τ
  work : γ → τ → σ → τ → σ → Prop
  finished : γ → τ → Option ρ
  ambient : σ → σ → Prop

inductive Place (γ τ : Type) where
  | spinning (call : γ)
  | inside (call : γ) (locals : τ)

structure Machine (ι σ τ γ : Type) where
  shared : σ
  flag : Bool
  stack : ι → List (Place γ τ)

inductive Event (ι γ ρ : Type) where
  | called (cpu : ι) (call : γ)
  | refused (cpu : ι) (call : γ)
  | returned (cpu : ι) (call : γ) (result : ρ)

variable {ι σ τ γ ρ α : Type} [DecidableEq ι]

/-- One step of one processor.  A section starts only where `safe` holds, which the code does not
test: it restricts the runs. -/
inductive StepIf (safe : γ → σ → Prop) (code : Code σ τ γ ρ) (machine : Machine ι σ τ γ) :
    Option (Event ι γ ρ) → Machine ι σ τ γ → Prop where
  | called (cpu : ι) (call : γ) (admitted : code.admits call machine.shared) :
      StepIf safe code machine (some (.called cpu call))
        { machine with
          stack := Function.update machine.stack cpu (.spinning call :: machine.stack cpu) }
  | refused (cpu : ι) (call : γ) (shut : ¬code.admits call machine.shared) :
      StepIf safe code machine (some (.refused cpu call)) machine
  | waited (cpu : ι) (call : γ) (rest : List (Place γ τ))
      (top : machine.stack cpu = .spinning call :: rest) (busy : machine.flag = true) :
      StepIf safe code machine none machine
  | acquired (cpu : ι) (call : γ) (rest : List (Place γ τ))
      (top : machine.stack cpu = .spinning call :: rest) (clear : machine.flag = false)
      (allowed : safe call machine.shared) :
      StepIf safe code machine none
        { machine with
          flag := true
          stack := Function.update machine.stack cpu (.inside call (code.enter call) :: rest) }
  | worked (cpu : ι) (call : γ) (locals locals' : τ) (shared' : σ) (rest : List (Place γ τ))
      (top : machine.stack cpu = .inside call locals :: rest)
      (work : code.work call locals machine.shared locals' shared') :
      StepIf safe code machine none
        { machine with
          shared := shared'
          stack := Function.update machine.stack cpu (.inside call locals' :: rest) }
  | released (cpu : ι) (call : γ) (locals : τ) (result : ρ) (rest : List (Place γ τ))
      (top : machine.stack cpu = .inside call locals :: rest)
      (finished : code.finished call locals = some result) :
      StepIf safe code machine (some (.returned cpu call result))
        { machine with
          flag := false
          stack := Function.update machine.stack cpu rest }
  | moved (shared' : σ) (ambient : code.ambient machine.shared shared') :
      StepIf safe code machine none { machine with shared := shared' }

/-- Every step of the code. -/
abbrev Step (code : Code σ τ γ ρ) : Machine ι σ τ γ → Option (Event ι γ ρ) → Machine ι σ τ γ → Prop :=
  StepIf (fun _ _ => True) code

/-- Nobody is in a call and the flag is clear. -/
def Machine.idle (shared : σ) : Machine ι σ τ γ where
  shared := shared
  flag := false
  stack := fun _ => []

/-! ### One owner -/

/-- The call that holds the lock, and the calls it interrupted. -/
structure Owner (ι τ γ : Type) where
  cpu : ι
  call : γ
  locals : τ
  below : List γ

/-- The same with one owner by construction, and the calls of each processor that spin on top. -/
structure Owned (ι σ τ γ : Type) where
  shared : σ
  owner : Option (Owner ι τ γ)
  piles : ι → List γ

def Owner.stack (owner : Owner ι τ γ) (cpu : ι) : List (Place γ τ) :=
  if owner.cpu = cpu then .inside owner.call owner.locals :: owner.below.map .spinning else []

def Owned.stack (owned : Owned ι σ τ γ) (cpu : ι) : List (Place γ τ) :=
  (owned.piles cpu).map .spinning ++ owned.owner.elim [] fun owner => owner.stack cpu

def Owned.machine (owned : Owned ι σ τ γ) : Machine ι σ τ γ where
  shared := owned.shared
  flag := owned.owner.isSome
  stack := owned.stack

inductive Owned.Step (safe : γ → σ → Prop) (code : Code σ τ γ ρ) (owned : Owned ι σ τ γ) :
    Option (Event ι γ ρ) → Owned ι σ τ γ → Prop where
  | called (cpu : ι) (call : γ) (admitted : code.admits call owned.shared) :
      Owned.Step safe code owned (some (.called cpu call))
        { owned with piles := Function.update owned.piles cpu (call :: owned.piles cpu) }
  | refused (cpu : ι) (call : γ) (shut : ¬code.admits call owned.shared) :
      Owned.Step safe code owned (some (.refused cpu call)) owned
  | waited : Owned.Step safe code owned none owned
  | acquired (cpu : ι) (call : γ) (below : List γ) (clear : owned.owner = none)
      (top : owned.piles cpu = call :: below) (allowed : safe call owned.shared) :
      Owned.Step safe code owned none
        { owned with
          owner := some ⟨cpu, call, code.enter call, below⟩
          piles := Function.update owned.piles cpu [] }
  | worked (owner : Owner ι τ γ) (locals' : τ) (shared' : σ) (held : owned.owner = some owner)
      (top : owned.piles owner.cpu = [])
      (work : code.work owner.call owner.locals owned.shared locals' shared') :
      Owned.Step safe code owned none
        { owned with
          shared := shared'
          owner := some { owner with locals := locals' } }
  | released (owner : Owner ι τ γ) (result : ρ) (held : owned.owner = some owner)
      (top : owned.piles owner.cpu = []) (finished : code.finished owner.call owner.locals = some result) :
      Owned.Step safe code owned (some (.returned owner.cpu owner.call result))
        { owned with
          owner := none
          piles := Function.update owned.piles owner.cpu owner.below }
  | moved (shared' : σ) (ambient : code.ambient owned.shared shared') :
      Owned.Step safe code owned none { owned with shared := shared' }

def Owned.idle (shared : σ) : Owned ι σ τ γ where
  shared := shared
  owner := none
  piles := fun _ => []

variable {safe : γ → σ → Prop} {code : Code σ τ γ ρ} {owned : Owned ι σ τ γ} {cpu : ι} {call : γ} {locals : τ}
  {rest : List (Place γ τ)}

theorem Owned.machine_idle (shared : σ) :
    (Owned.idle shared : Owned ι σ τ γ).machine = Machine.idle shared := rfl

theorem Owned.stack_inside (top : owned.stack cpu = .inside call locals :: rest) :
    ∃ below, owned.owner = some ⟨cpu, call, locals, below⟩ ∧ owned.piles cpu = [] ∧
      rest = below.map .spinning := by
  unfold Owned.stack at top
  cases pile : owned.piles cpu with
  | cons first more =>
    rw [pile, List.map_cons, List.cons_append] at top
    injection top with head
    cases head
  | nil =>
    rw [pile, List.map_nil, List.nil_append] at top
    cases held : owned.owner with
    | none =>
      rw [held] at top
      cases top
    | some owner =>
      rw [held] at top
      change owner.stack cpu = _ at top
      unfold Owner.stack at top
      by_cases same : owner.cpu = cpu
      · rw [if_pos same] at top
        injection top with head tail
        injection head with sameCall sameLocals
        subst same sameCall sameLocals
        exact ⟨owner.below, rfl, rfl, tail.symm⟩
      · rw [if_neg same] at top
        cases top

theorem Owned.stack_spinning (clear : owned.owner = none)
    (top : owned.stack cpu = .spinning call :: rest) :
    ∃ below, owned.piles cpu = call :: below ∧ rest = below.map .spinning := by
  unfold Owned.stack at top
  rw [clear, Option.elim_none, List.append_nil] at top
  cases pile : owned.piles cpu with
  | nil =>
    rw [pile] at top
    cases top
  | cons first below =>
    rw [pile, List.map_cons] at top
    injection top with head tail
    injection head with sameCall
    subst sameCall
    exact ⟨below, rfl, tail.symm⟩

theorem Owner.stack_of_ne {other : ι} (different : other ≠ cpu) (below : List γ) :
    Owner.stack ⟨cpu, call, locals, below⟩ other = [] :=
  if_neg (Ne.symm different)

theorem Owned.update_stack {owned' : Owned ι σ τ γ} {changed : List (Place γ τ)}
    (here : owned'.stack cpu = changed)
    (others : ∀ other, other ≠ cpu → owned'.stack other = owned.stack other) :
    Function.update owned.stack cpu changed = owned'.stack := by
  funext other
  by_cases same : other = cpu
  · rw [same, Function.update_self, here]
  · rw [Function.update_of_ne same, others other same]

theorem Owned.step_of_machine {event : Option (Event ι γ ρ)} {machine' : Machine ι σ τ γ}
    (step : StepIf safe code owned.machine event machine') :
    ∃ owned', Owned.Step safe code owned event owned' ∧ machine' = owned'.machine := by
  cases step with
  | called cpu call admitted =>
    refine ⟨_, Owned.Step.called cpu call admitted, ?_⟩
    apply congrArg (Machine.mk owned.shared owned.owner.isSome)
    apply Owned.update_stack
    · simp only [Owned.stack, Function.update_self, List.map_cons, List.cons_append]
      rfl
    · intro other different
      simp only [Owned.stack, Function.update_of_ne different]
  | refused cpu call shut => exact ⟨owned, Owned.Step.refused cpu call shut, rfl⟩
  | waited cpu call rest top busy => exact ⟨owned, Owned.Step.waited, rfl⟩
  | acquired cpu call rest top clear allowed =>
    have none' : owned.owner = none :=
      Option.not_isSome_iff_eq_none.mp (ne_true_of_eq_false clear)
    obtain ⟨below, pile, rfl⟩ := Owned.stack_spinning none' top
    refine ⟨_, Owned.Step.acquired cpu call below none' pile allowed, ?_⟩
    apply congrArg (Machine.mk owned.shared true)
    apply Owned.update_stack
    · simp only [Owned.stack, Function.update_self, Option.elim_some, Owner.stack, if_true, List.map_nil,
        List.nil_append]
    · intro other different
      simp only [Owned.stack, Function.update_of_ne different, none', Option.elim_some,
        Owner.stack_of_ne different, Option.elim_none]
  | worked cpu call locals locals' shared' rest top work =>
    obtain ⟨below, held, pile, rfl⟩ := Owned.stack_inside top
    refine ⟨_, Owned.Step.worked ⟨cpu, call, locals, below⟩ locals' shared' held pile work, ?_⟩
    have busy : owned.owner.isSome = true := by
      rw [held]
      rfl
    change Machine.mk shared' owned.owner.isSome _ = _
    rw [busy]
    apply congrArg (Machine.mk shared' true)
    apply Owned.update_stack
    · simp only [Owned.stack, pile, Option.elim_some, Owner.stack, if_true, List.map_nil,
        List.nil_append]
    · intro other different
      simp only [Owned.stack, held, Option.elim_some, Owner.stack_of_ne different]
  | released cpu call locals result rest top finished =>
    obtain ⟨below, held, pile, rfl⟩ := Owned.stack_inside top
    refine ⟨_, Owned.Step.released ⟨cpu, call, locals, below⟩ result held pile finished, ?_⟩
    apply congrArg (Machine.mk owned.shared false)
    apply Owned.update_stack
    · simp only [Owned.stack, Function.update_self, Option.elim_none, List.append_nil]
    · intro other different
      simp only [Owned.stack, Function.update_of_ne different, held, Option.elim_some,
        Owner.stack_of_ne different, Option.elim_none]
  | moved shared' ambient => exact ⟨_, Owned.Step.moved shared' ambient, rfl⟩

theorem Owned.run_of_machine {log : List (Event ι γ ρ)} {machine : Machine ι σ τ γ}
    (run : Logged (StepIf safe code) owned.machine log machine) :
    ∃ owned', Logged (Owned.Step safe code) owned log owned' ∧ machine = owned'.machine := by
  apply run.simulated fun machine (owned : Owned ι σ τ γ) => machine = owned.machine
  · rfl
  · intro log machine event machine' owned same step before
    subst same
    obtain ⟨owned', taken, same'⟩ := Owned.step_of_machine step
    exact ⟨owned', Logged.step log owned event owned' before taken, same'⟩

theorem owned_of_run {shared : σ} {log : List (Event ι γ ρ)} {machine : Machine ι σ τ γ}
    (run : Logged (StepIf safe code) (Machine.idle shared) log machine) :
    ∃ owned, Logged (Owned.Step safe code) (Owned.idle shared) log owned ∧ machine = owned.machine := by
  rw [← Owned.machine_idle] at run
  exact Owned.run_of_machine run

/-! ### The calls that return -/

def Event.return? : Event ι γ ρ → Option (γ × ρ)
  | .returned _ call result => some (call, result)
  | _ => none

/-- The calls that returned, in order, with their results. -/
def returns (log : List (Event ι γ ρ)) : List (γ × ρ) := log.filterMap Event.return?

variable {log : List (Event ι γ ρ)} {shared : σ}

omit [DecidableEq ι] in
theorem returns_other {event : Event ι γ ρ} (other : event.return? = none) :
    returns (log ++ (some event).toList) = returns log := by
  unfold returns
  rw [Option.toList_some, List.filterMap_append, List.filterMap_cons_none other]
  exact List.append_nil _

omit [DecidableEq ι] in
theorem returns_silent : returns (log ++ (none : Option (Event ι γ ρ)).toList) = returns log := by
  rw [Option.toList_none, List.append_nil]

theorem Owned.owner_of_mem (inside : Place.inside call locals ∈ owned.stack cpu) :
    ∃ below, owned.owner = some ⟨cpu, call, locals, below⟩ := by
  unfold Owned.stack at inside
  rcases List.mem_append.mp inside with above | within
  · obtain ⟨_, _, impossible⟩ := List.mem_map.mp above
    cases impossible
  · cases busy : owned.owner with
    | none =>
      rw [busy] at within
      cases within
    | some owner =>
      rw [busy] at within
      change _ ∈ owner.stack cpu at within
      unfold Owner.stack at within
      by_cases same : owner.cpu = cpu
      · rw [if_pos same, List.mem_cons] at within
        rcases within with here | beneath
        · injection here with sameCall sameLocals
          subst same sameCall sameLocals
          exact ⟨owner.below, rfl⟩
        · obtain ⟨_, _, impossible⟩ := List.mem_map.mp beneath
          cases impossible
      · rw [if_neg same] at within
        cases within

/-! ### Waiting for oneself -/

/-- An owner with a call on top of it never moves again, and the shared state changes only as
others than the sections change it. -/
theorem Owned.stuck {owner : Owner ι τ γ} {owned' : Owned ι σ τ γ} {holds : σ → Prop}
    (stable : ∀ shared shared', holds shared → code.ambient shared shared' → holds shared')
    (initially : holds owned.shared) (held : owned.owner = some owner)
    (covered : owned.piles owner.cpu ≠ []) (run : Logged (Owned.Step safe code) owned log owned') :
    owned'.owner = some owner ∧ (∃ more, owned'.piles owner.cpu = more ++ owned.piles owner.cpu) ∧
      returns log = [] ∧ holds owned'.shared := by
  apply run.invariant fun log (later : Owned ι σ τ γ) => later.owner = some owner ∧
    (∃ more, later.piles owner.cpu = more ++ owned.piles owner.cpu) ∧ returns log = [] ∧
      holds later.shared
  · exact ⟨held, ⟨[], rfl⟩, rfl, initially⟩
  · rintro log later event later' ⟨still, ⟨more, pile⟩, none', kept⟩ step
    have top : later.piles owner.cpu ≠ [] := by
      rw [pile]
      exact List.append_ne_nil_of_right_ne_nil more covered
    cases step with
    | called cpu call admitted =>
      rw [returns_other rfl]
      refine ⟨still, ?_, none', kept⟩
      by_cases same : owner.cpu = cpu
      · refine ⟨call :: more, ?_⟩
        subst same
        rw [List.cons_append, ← pile]
        exact Function.update_self ..
      · refine ⟨more, ?_⟩
        rw [← pile]
        exact Function.update_of_ne same ..
    | refused cpu call shut =>
      rw [returns_other rfl]
      exact ⟨still, ⟨more, pile⟩, none', kept⟩
    | waited =>
      rw [returns_silent]
      exact ⟨still, ⟨more, pile⟩, none', kept⟩
    | acquired cpu call below clear _ allowed =>
      rw [still] at clear
      cases clear
    | worked other locals' shared' busy bare work =>
      rw [still] at busy
      injection busy with same
      subst same
      exact absurd bare top
    | released other result busy bare finished =>
      rw [still] at busy
      injection busy with same
      subst same
      exact absurd bare top
    | moved shared' ambient =>
      rw [returns_silent]
      exact ⟨still, ⟨more, pile⟩, none', stable _ _ kept ambient⟩

/-- A call that interrupts the section it waits for waits for ever, and so does every other call:
the lock is never free again and no call returns. -/
theorem deadlock {machine machine' : Machine ι σ τ γ} {log' : List (Event ι γ ρ)} {holds : σ → Prop}
    (stable : ∀ shared shared', holds shared → code.ambient shared shared' → holds shared')
    (initially : holds machine.shared)
    (before : Logged (StepIf safe code) (Machine.idle shared) log machine)
    {above below : List (Place γ τ)} (covered : above ≠ [])
    (stack : machine.stack cpu = above ++ .inside call locals :: below)
    (run : Logged (StepIf safe code) machine log' machine') :
    machine'.flag = true ∧ (∃ more, machine'.stack cpu = more ++ machine.stack cpu) ∧
      returns log' = [] ∧ holds machine'.shared := by
  obtain ⟨owned, _, rfl⟩ := owned_of_run before
  have inside : Place.inside call locals ∈ owned.stack cpu := by
    change owned.stack cpu = _ at stack
    rw [stack]
    exact List.mem_append_right _ List.mem_cons_self
  obtain ⟨beneath, held⟩ := Owned.owner_of_mem inside
  have shape : owned.stack cpu =
      (owned.piles cpu).map .spinning ++ .inside call locals :: beneath.map .spinning := by
    rw [Owned.stack, held, Option.elim_some, Owner.stack, if_pos rfl]
  have pile : owned.piles cpu ≠ [] := by
    intro bare
    obtain ⟨first, more, rfl⟩ := List.exists_cons_of_ne_nil covered
    change owned.stack cpu = _ at stack
    rw [shape, bare] at stack
    injection stack with _ rest
    have again : Place.inside call locals ∈ beneath.map (Place.spinning : γ → Place γ τ) := by
      rw [rest]
      exact List.mem_append_right more List.mem_cons_self
    obtain ⟨_, _, impossible⟩ := List.mem_map.mp again
    cases impossible
  obtain ⟨owned', ownedRun, rfl⟩ := Owned.run_of_machine run
  obtain ⟨still, ⟨more, piles⟩, none', kept⟩ := Owned.stuck stable initially held pile ownedRun
  refine ⟨?_, ⟨more.map .spinning, ?_⟩, none', kept⟩
  · change owned'.owner.isSome = true
    rw [still]
    rfl
  · change owned'.stack cpu = _ ++ owned.stack cpu
    unfold Owned.stack
    rw [piles, List.map_append, List.append_assoc, still, held]

end SpinLock
