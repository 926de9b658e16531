/-
Runs of a transition system and their invariants.
-/

import Mathlib.Data.List.Induction

namespace Runs

/-- The states of the runs that start in `start` and only take steps of `next`. -/
inductive Reachable {σ κ : Type} (start : σ → Prop) (next : σ → κ → σ → Prop) : σ → Prop where
  | start (state : σ) (initial : start state) : Reachable start next state
  | step (state : σ) (call : κ) (state' : σ) (before : Reachable start next state)
      (taken : next state call state') : Reachable start next state'

/-- What holds at the start and is kept by every step holds in every reachable state. -/
theorem Reachable.invariant {σ κ : Type} {start : σ → Prop} {next : σ → κ → σ → Prop}
    {state : σ} (holds : σ → Prop) (reached : Reachable start next state)
    (initially : ∀ state, start state → holds state)
    (kept : ∀ state call state', holds state → next state call state' → holds state') :
    holds state := by
  induction reached with
  | start state initial => exact initially state initial
  | step state call state' _ taken ih => exact kept state call state' ih taken

/-- Where a condition on a step is exactly what keeps `good`, a run is good throughout exactly when
every step of it meets the condition. -/
theorem good_throughout_iff {σ κ : Type} {step : σ → κ → σ} {good : σ → Prop}
    {condition : σ → κ → Prop} {state : σ}
    (exact : ∀ state call, good state → (good (step state call) ↔ condition state call))
    (initially : good state) (calls : List κ) :
    (∀ front, front <+: calls → good (front.foldl step state)) ↔
      ∀ front call, front ++ [call] <+: calls → condition (front.foldl step state) call := by
  constructor
  · intro throughout front call inside
    have before := throughout front ((List.prefix_append front [call]).trans inside)
    have after := throughout (front ++ [call]) inside
    rw [List.foldl_append] at after
    exact (exact _ call before).mp after
  · intro met front
    induction front using List.reverseRecOn with
    | nil => exact fun _ => initially
    | append_singleton front call ih =>
      intro inside
      have before := ih ((List.prefix_append front [call]).trans inside)
      rw [List.foldl_append]
      exact (exact _ call before).mpr (met front call inside)

/-! ### Runs with a log -/

/-- A run and the events of its steps that can be seen. -/
inductive Logged {σ ε : Type} (step : σ → Option ε → σ → Prop) (start : σ) : List ε → σ → Prop where
  | start : Logged step start [] start
  | step (log : List ε) (state : σ) (event : Option ε) (state' : σ)
      (before : Logged step start log state) (taken : step state event state') :
      Logged step start (log ++ event.toList) state'

theorem Logged.invariant {σ ε : Type} {step : σ → Option ε → σ → Prop} {start state : σ} {log : List ε}
    (holds : List ε → σ → Prop) (run : Logged step start log state) (initially : holds [] start)
    (kept : ∀ log state event state', holds log state → step state event state' →
      holds (log ++ event.toList) state') : holds log state := by
  induction run with
  | start => exact initially
  | step log state event state' _ taken ih => exact kept log state event state' ih taken

/-- A run is matched by one of another system that is seen to do the same.  A step may be matched
by any number of steps. -/
theorem Logged.simulated {σ α ε : Type} {step : σ → Option ε → σ → Prop}
    {step' : α → Option ε → α → Prop} {start state : σ} {start' : α} {log : List ε}
    (relates : σ → α → Prop) (run : Logged step start log state) (initially : relates start start')
    (matched : ∀ log state event state' abstract, relates state abstract →
      step state event state' → Logged step' start' log abstract →
        ∃ abstract', Logged step' start' (log ++ event.toList) abstract' ∧ relates state' abstract') :
    ∃ abstract, Logged step' start' log abstract ∧ relates state abstract := by
  induction run with
  | start => exact ⟨start', Logged.start, initially⟩
  | step log state event state' _ taken ih =>
    obtain ⟨abstract, abstractRun, related⟩ := ih
    exact matched log state event state' abstract related taken abstractRun

theorem Logged.silent {σ ε : Type} {step : σ → Option ε → σ → Prop} {start state state' : σ}
    {log : List ε} (before : Logged step start log state) (taken : step state none state') :
    Logged step start log state' := by
  have after := Logged.step log state none state' before taken
  rwa [Option.toList_none, List.append_nil] at after

end Runs
