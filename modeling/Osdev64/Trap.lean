/-
Traps and the end of an interrupt: `src/interrupts.c` and `src/lapic.c`.

`trap` is entered for CPU exceptions, for `int` instructions and for external
interrupts alike, and it writes the EOI register of the local APIC in all of
them.  The write retires the highest vector in service, whoever entered `trap`.
-/

import Osdev64.Lib.Word
import Mathlib.Data.Finset.Max
import Mathlib.Order.Interval.Finset.Nat

namespace Osdev64

open Word64

/-- The part of `struct registers` that `trap` and the handlers of `trap_init` test. -/
structure Registers where
  intNo : Nat
  rax : Word

/-- A handler returns a number, or it halts the machine. -/
abbrev TrapHandler := Registers → Option Int

structure TrapState where
  handlers : Nat → Option TrapHandler
  lapicUp : Bool
  /-- The registers of the local APIC as they were last written. -/
  lapic : Nat → BitVec 32
  inService : Finset Nat
  /-- Everything written to a port, the last first. -/
  ports : List (Nat × Nat)

def breakpointNo : Nat := 3
def pageFaultNo : Nat := 14

def breakpointHandler : TrapHandler := fun r => if r.rax = 0 then none else some 0

def pageFault : TrapHandler := fun _ => none

/-- An `int` below zero is not modelled; every caller passes a vector. -/
def trapRegister (num : Nat) (handler : Option TrapHandler) (state : TrapState) :
    Option TrapState :=
  if num < 256 then
    some { state with handlers := fun n => if n = num then handler else state.handlers n }
  else none

def trapInit (state : TrapState) : Option TrapState := do
  let state := { state with handlers := fun _ => none }
  let state ← trapRegister breakpointNo (some breakpointHandler) state
  trapRegister pageFaultNo (some pageFault) state

/-! ### The local APIC -/

def lapicEoiRegister : Nat := 0x0B0

/-- Writing the EOI register takes the highest vector out of service. -/
def retire (inService : Finset Nat) : Finset Nat :=
  if nonempty : inService.Nonempty then inService.erase (inService.max' nonempty) else inService

def lapicWrite (index : Nat) (value : BitVec 32) (state : TrapState) : TrapState :=
  { state with
    lapic := fun register => if register = index then value else state.lapic register
    inService := if index = lapicEoiRegister then retire state.inService else state.inService }

def lapicActive (state : TrapState) : Bool := state.lapicUp

def lapicEoi (state : TrapState) : TrapState :=
  if ¬state.lapicUp then state else lapicWrite lapicEoiRegister 0 state

def lapicTimerConfig (mode : BitVec 8) (initialCount : BitVec 32) (divideBy : BitVec 8)
    (state : TrapState) : TrapState :=
  let state := lapicWrite 0x320 ((mode.setWidth 32 <<< 17) ||| 0x20) state
  let state := lapicWrite 0x3E0 (divideBy.setWidth 32) state
  lapicWrite 0x380 initialCount state

/-- `lapic_init`, once its registers are mapped; `ver` is the version register, and the
INIT message it broadcasts has been delivered. -/
def lapicInit (ver : BitVec 32) (state : TrapState) : TrapState :=
  let state := lapicWrite 0x0F0 (0x100 ||| (0x20 + 0xDF)) state
  let state := lapicWrite 0x320 0x100000 state
  let state := lapicWrite 0x350 0x10000 state
  let state := lapicWrite 0x360 0x10000 state
  let state := if 4 ≤ ((ver >>> 16) &&& 0xFF).toNat then lapicWrite 0x0340 0x10000 state else state
  let state := lapicWrite 0x280 (0x20 + 0x13) state
  let state := lapicWrite 0x280 0 state
  let state := lapicWrite lapicEoiRegister 0 state
  let state := lapicWrite 0x310 0 state
  let state := lapicWrite 0x300 (0x500 ||| 0x8000 ||| 0x80000) state
  let state := lapicWrite 0x080 0 state
  lapicTimerConfig 1 0x10000 0x0A { state with lapicUp := true }

/-! ### A trap, and the traps inside it -/

def outb (port value : Nat) (state : TrapState) : TrapState :=
  { state with ports := (port, value) :: state.ports }

/-- `trap` from the handler's call on: without a handler, or with one that fails, it halts. -/
def trap (r : Registers) (state : TrapState) : Option TrapState := do
  let handler ← state.handlers r.intNo
  let err ← handler r
  if err ≠ 0 then none
  else
    let state := if 40 < r.intNo then outb 0xA0 0x20 state else state
    let state := if lapicActive state then lapicEoi state else state
    some (outb 0x20 0x20 state)

inductive TrapSource where
  | external
  | internal
  deriving DecidableEq

/-- Traps one after the other, each with the traps that interrupt it before and after the
EOI register is written. -/
inductive Nesting where
  | none
  | trap (source : TrapSource) (r : Registers) (during after next : Nesting)

/-- Only an external interrupt goes through the local APIC. -/
def deliver (source : TrapSource) (r : Registers) (state : TrapState) : TrapState :=
  match source with
  | .external => { state with inService := insert r.intNo state.inService }
  | .internal => state

def Nesting.run : Nesting → TrapState → Option TrapState
  | .none, state => some state
  | .trap source r during after next, state => do
    let state ← during.run (deliver source r state)
    let state ← Osdev64.trap r state
    let state ← after.run state
    next.run state

/-- Every trap has a handler that returns zero. -/
def Nesting.Handled (handlers : Nat → Option TrapHandler) : Nesting → Prop
  | .none => True
  | .trap _ r during after next =>
    (∃ handler, handlers r.intNo = some handler ∧ handler r = some 0) ∧
      during.Handled handlers ∧ after.Handled handlers ∧ next.Handled handlers

/-- What the write to the EOI register does to the set in service. -/
def EoiRight (source : TrapSource) (vector : Nat) (before after : Finset Nat) : Prop :=
  match source with
  | .external => vector ∈ before ∧ after = before.erase vector
  | .internal => after = before

/-- What the whole execution of `trap` does to it, from its entry to its end. -/
def TrapRight (source : TrapSource) (vector : Nat) (entry exit : Finset Nat) : Prop :=
  match source with
  | .external => exit = entry.erase vector
  | .internal => exit = entry

/-- Each trap of the nesting retires the interrupt it was entered for and nothing else. -/
def Nesting.AllRight : Nesting → TrapState → Prop
  | .none, _ => True
  | .trap source r during after next, state =>
    during.AllRight (deliver source r state) ∧
    ∀ handled, during.run (deliver source r state) = some handled →
    ∀ written, Osdev64.trap r handled = some written →
      EoiRight source r.intNo handled.inService written.inService ∧ after.AllRight written ∧
      ∀ left, after.run written = some left →
        TrapRight source r.intNo (deliver source r state).inService left.inService ∧
        next.AllRight left

/-- Exceptions and `int` instructions come only when nothing is in service, and an external
interrupt only above everything in service; `inService` holds the interrupts whose EOI is
still to be written. -/
def Nesting.Ordered : Nesting → Finset Nat → Prop
  | .none, _ => True
  | .trap .external r during after next, inService =>
    (∀ vector ∈ inService, vector < r.intNo) ∧ during.Ordered (insert r.intNo inService) ∧
      after.Ordered inService ∧ next.Ordered inService
  | .trap .internal _ during after next, inService =>
    inService = ∅ ∧ during.Ordered ∅ ∧ after.Ordered ∅ ∧ next.Ordered ∅

/-- The vectors of the outermost external interrupts. -/
def Nesting.outermost : Nesting → Finset Nat
  | .none => ∅
  | .trap .external r _ _ next => insert r.intNo next.outermost
  | .trap .internal _ _ _ next => next.outermost

/-! ### The set in service -/

theorem retire_eq_self_iff (inService : Finset Nat) :
    retire inService = inService ↔ inService = ∅ := by
  unfold retire
  constructor
  · intro same
    by_contra nonempty
    rw [dif_pos (Finset.nonempty_iff_ne_empty.2 nonempty), Finset.erase_eq_self] at same
    exact same (Finset.max'_mem _ _)
  · intro empty
    rw [dif_neg (by simp [empty])]

theorem retire_eq_erase_iff {inService : Finset Nat} {vector : Nat} (inside : vector ∈ inService) :
    retire inService = inService.erase vector ↔ ∀ other ∈ inService, other ≤ vector := by
  have highest := inService.max'_mem ⟨vector, inside⟩
  unfold retire
  rw [dif_pos ⟨vector, inside⟩]
  constructor
  · intro same other member
    have absent : vector ∉ inService.erase (inService.max' ⟨vector, inside⟩) := by
      rw [same]
      exact Finset.notMem_erase vector inService
    have equal : vector = inService.max' ⟨vector, inside⟩ := by
      by_contra different
      exact absent (Finset.mem_erase.2 ⟨different, inside⟩)
    rw [equal]
    exact Finset.le_max' inService other member
  · intro top
    have equal : inService.max' ⟨vector, inside⟩ = vector :=
      le_antisymm (top _ highest) (Finset.le_max' _ _ inside)
    rw [equal]

theorem trap_handled {r : Registers} {state : TrapState} (up : state.lapicUp = true)
    (handled : ∃ handler, state.handlers r.intNo = some handler ∧ handler r = some 0) :
    ∃ written, trap r state = some written ∧ written.inService = retire state.inService ∧
      written.lapicUp = true ∧ written.handlers = state.handlers := by
  obtain ⟨handler, registered, zero⟩ := handled
  unfold trap
  rw [registered]
  simp only [Option.bind_eq_bind, Option.bind_some, zero]
  refine ⟨_, rfl, ?_⟩
  by_cases slave : 40 < r.intNo
  · simp [slave, outb, lapicActive, lapicEoi, lapicWrite, up]
  · simp [slave, outb, lapicActive, lapicEoi, lapicWrite, up]

variable {source : TrapSource} {r : Registers} {during after next nesting : Nesting}
variable {state : TrapState}

/-- The states one trap of a nesting goes through. -/
structure TrapPasses (source : TrapSource) (r : Registers) (during after : Nesting)
    (state handled written left : TrapState) : Prop where
  during : during.run (deliver source r state) = some handled
  trap : trap r handled = some written
  after : after.run written = some left
  retired : written.inService = retire handled.inService
  up : handled.lapicUp = true ∧ written.lapicUp = true ∧ left.lapicUp = true
  handlers : handled.handlers = state.handlers ∧ written.handlers = state.handlers ∧
    left.handlers = state.handlers

theorem TrapPasses.run {handled written left : TrapState}
    (passes : TrapPasses source r during after state handled written left) :
    (Nesting.trap source r during after next).run state = next.run left := by
  simp only [Nesting.run, Option.bind_eq_bind, passes.during, passes.trap, passes.after,
    Option.bind_some]

/-- For a trap that passes through these states, each state is the only one it can reach. -/
theorem TrapPasses.allRight_iff {handled written left : TrapState}
    (passes : TrapPasses source r during after state handled written left) :
    (Nesting.trap source r during after next).AllRight state ↔
      during.AllRight (deliver source r state) ∧
      EoiRight source r.intNo handled.inService (retire handled.inService) ∧
      after.AllRight written ∧
      TrapRight source r.intNo (deliver source r state).inService left.inService ∧
      next.AllRight left := by
  simp only [Nesting.AllRight, passes.during, passes.trap, passes.after, passes.retired,
    Option.some.injEq, forall_eq']

@[simp] theorem deliver_lapicUp : (deliver source r state).lapicUp = state.lapicUp := by
  cases source <;> rfl

@[simp] theorem deliver_handlers : (deliver source r state).handlers = state.handlers := by
  cases source <;> rfl

namespace Nesting

/-- The nesting runs to its end from every state with these handlers. -/
def Returns (nesting : Nesting) (handlers : Nat → Option TrapHandler) : Prop :=
  ∀ state : TrapState, state.lapicUp = true → state.handlers = handlers →
    ∃ last, nesting.run state = some last ∧ last.lapicUp = true ∧ last.handlers = handlers

theorem exists_trapPasses (up : state.lapicUp = true)
    (good : ∃ handler, state.handlers r.intNo = some handler ∧ handler r = some 0)
    (duringReturns : during.Returns state.handlers) (afterReturns : after.Returns state.handlers) :
    ∃ handled written left, TrapPasses source r during after state handled written left := by
  obtain ⟨handled, ranDuring, up₁, same₁⟩ :=
    duringReturns (deliver source r state) (deliver_lapicUp.trans up) deliver_handlers
  obtain ⟨written, returned, retired, up₂, same₂⟩ := trap_handled up₁ (by rwa [same₁])
  obtain ⟨left, ranAfter, up₃, same₃⟩ := afterReturns written up₂ (same₂.trans same₁)
  exact ⟨handled, written, left, ranDuring, returned, ranAfter, retired, ⟨up₁, up₂, up₃⟩,
    same₁, same₂.trans same₁, same₃⟩

theorem Handled.returns {handlers : Nat → Option TrapHandler} (handled : nesting.Handled handlers) :
    nesting.Returns handlers := by
  induction nesting with
  | none =>
    intro state up same
    exact ⟨state, rfl, up, same⟩
  | trap source r during after next ihDuring ihAfter ihNext =>
    intro state up same
    subst same
    obtain ⟨good, inDuring, inAfter, inNext⟩ := handled
    obtain ⟨first, written, left, passes⟩ :=
      exists_trapPasses up good (ihDuring inDuring) (ihAfter inAfter)
    rw [passes.run]
    exact ihNext inNext left passes.up.2.2 passes.handlers.2.2

theorem Handled.passes (up : state.lapicUp = true)
    (handled : (trap source r during after next).Handled state.handlers) :
    ∃ first written left, TrapPasses source r during after state first written left :=
  exists_trapPasses up handled.1 handled.2.1.returns handled.2.2.1.returns

/-- A nesting that is right in every trap takes its outermost vectors out of service. -/
theorem AllRight.inService_run (up : state.lapicUp = true) (handled : nesting.Handled state.handlers)
    (right : nesting.AllRight state) {last : TrapState} (ran : nesting.run state = some last) :
    last.inService = state.inService \ nesting.outermost := by
  induction nesting generalizing state with
  | none =>
    cases ran
    exact (Finset.sdiff_empty).symm
  | trap source r during after next _ _ ihNext =>
    obtain ⟨first, written, left, passes⟩ := handled.passes up
    rw [passes.allRight_iff] at right
    obtain ⟨-, -, -, whole, rightNext⟩ := right
    rw [passes.run] at ran
    have rest := ihNext passes.up.2.2 (by rw [passes.handlers.2.2]; exact handled.2.2.2)
      rightNext ran
    cases source with
    | external =>
      have removed : left.inService = (insert r.intNo state.inService).erase r.intNo := whole
      rw [rest, removed]
      ext vector
      simp only [outermost, Finset.mem_sdiff, Finset.mem_erase, Finset.mem_insert]
      tauto
    | internal =>
      have kept : left.inService = state.inService := whole
      rw [rest, kept]
      rfl

theorem Ordered.eoi (ordered : (trap source r during after next).Ordered state.inService) :
    EoiRight source r.intNo (deliver source r state).inService
      (retire (deliver source r state).inService) ∧
    retire (deliver source r state).inService = state.inService := by
  cases source with
  | external =>
    have above : ∀ vector ∈ state.inService, vector < r.intNo := ordered.1
    have fresh : r.intNo ∉ state.inService := fun inside => lt_irrefl _ (above _ inside)
    have top : ∀ other ∈ insert r.intNo state.inService, other ≤ r.intNo := by
      intro other member
      rcases Finset.mem_insert.1 member with same | inside
      · exact le_of_eq same
      · exact le_of_lt (above other inside)
    have erased := (retire_eq_erase_iff (Finset.mem_insert_self _ _)).2 top
    exact ⟨⟨Finset.mem_insert_self _ _, erased⟩, erased.trans (Finset.erase_insert fresh)⟩
  | internal =>
    have back : retire state.inService = state.inService := (retire_eq_self_iff _).2 ordered.1
    exact ⟨back, back⟩

theorem Ordered.parts (ordered : (trap source r during after next).Ordered state.inService) :
    during.Ordered (deliver source r state).inService ∧ after.Ordered state.inService ∧
      next.Ordered state.inService := by
  cases source with
  | external => exact ordered.2
  | internal =>
    obtain ⟨empty, rest⟩ := ordered
    rw [← empty] at rest
    exact rest

theorem trapRight_of_eoiRight {vector : Nat} {before after : Finset Nat}
    (right : EoiRight source vector before after) : TrapRight source vector before after := by
  cases source with
  | external => exact right.2
  | internal => exact right

theorem Ordered.allRight (up : state.lapicUp = true) (handled : nesting.Handled state.handlers)
    (ordered : nesting.Ordered state.inService) :
    nesting.AllRight state ∧
      ∀ last, nesting.run state = some last → last.inService = state.inService := by
  induction nesting generalizing state with
  | none =>
    constructor
    · trivial
    · intro last ran
      cases ran
      rfl
  | trap source r during after next ihDuring ihAfter ihNext =>
    obtain ⟨first, written, left, passes⟩ := handled.passes up
    obtain ⟨-, inDuring, inAfter, inNext⟩ := handled
    obtain ⟨orderedDuring, orderedAfter, orderedNext⟩ := ordered.parts
    obtain ⟨eoi, back⟩ := ordered.eoi
    rw [passes.allRight_iff, passes.run]
    have entry := ihDuring (deliver_lapicUp.trans up) (by rwa [deliver_handlers]) orderedDuring
    have kept := entry.2 first passes.during
    have atEoi : written.inService = state.inService := by
      rw [passes.retired, kept, back]
    have exit := ihAfter passes.up.2.1 (by rwa [passes.handlers.2.1]) (by rwa [atEoi])
    have atEnd : left.inService = state.inService := (exit.2 left passes.after).trans atEoi
    have rest := ihNext passes.up.2.2 (by rwa [passes.handlers.2.2]) (by rwa [atEnd])
    rw [kept, atEnd]
    have whole := trapRight_of_eoiRight eoi
    rw [back] at whole
    exact ⟨⟨entry.1, eoi, exit.1, whole, rest.1⟩, fun last ran => (rest.2 last ran).trans atEnd⟩

/-- A trap that is right, with right traps inside it, has at its EOI the set in service of
its entry, and ends with the one it interrupted. -/
theorem TrapRight.eq_of_fresh {entered handled left inside later : Finset Nat}
    (handledEq : handled = entered \ inside) (eoi : EoiRight source r.intNo handled (retire handled))
    (leftEq : left = retire handled \ later) (whole : TrapRight source r.intNo entered left) :
    handled = entered ∧ left = retire handled := by
  cases source with
  | external =>
    obtain ⟨member, erased⟩ := eoi
    change left = entered.erase r.intNo at whole
    have same : handled = entered := by
      apply Finset.Subset.antisymm
      · rw [handledEq]
        exact Finset.sdiff_subset
      · intro vector inside
        by_cases own : vector = r.intNo
        · rw [own]
          exact member
        · have survives : vector ∈ left := by
            rw [whole]
            exact Finset.mem_erase.2 ⟨own, inside⟩
          rw [leftEq, erased] at survives
          exact Finset.mem_of_mem_erase (Finset.mem_sdiff.1 survives).1
    exact ⟨same, by rw [whole, erased, same]⟩
  | internal =>
    have empty := (retire_eq_self_iff handled).1 eoi
    change left = entered at whole
    rw [eoi, empty, Finset.empty_sdiff] at leftEq
    rw [eoi, empty, ← whole, leftEq]
    exact ⟨rfl, rfl⟩

/-- Right in every trap, the nesting is in order, if it delivers no vector already in
service at its start. -/
theorem AllRight.ordered (up : state.lapicUp = true) (handled : nesting.Handled state.handlers)
    (fresh : Disjoint state.inService nesting.outermost) (right : nesting.AllRight state) :
    nesting.Ordered state.inService := by
  induction nesting generalizing state with
  | none => trivial
  | trap source r during after next ihDuring ihAfter ihNext =>
    obtain ⟨first, written, left, passes⟩ := handled.passes up
    obtain ⟨-, inDuring, inAfter, inNext⟩ := handled
    rw [passes.allRight_iff] at right
    obtain ⟨rightDuring, eoi, rightAfter, whole, rightNext⟩ := right
    have handledDuring : during.Handled (deliver source r state).handlers := by
      rwa [deliver_handlers]
    rw [← passes.handlers.2.1] at inAfter
    rw [← passes.handlers.2.2] at inNext
    have upEntry : (deliver source r state).lapicUp = true := deliver_lapicUp.trans up
    have atEoi := rightDuring.inService_run upEntry handledDuring passes.during
    have atEnd := rightAfter.inService_run passes.up.2.1 inAfter passes.after
    rw [passes.retired] at atEnd
    obtain ⟨kept, left'⟩ := TrapRight.eq_of_fresh atEoi eoi atEnd whole
    -- so neither part takes a vector out of service that it did not deliver
    have freshDuring : Disjoint (deliver source r state).inService during.outermost := by
      rw [kept] at atEoi
      exact Finset.sdiff_eq_self_iff_disjoint.1 atEoi.symm
    have freshAfter : Disjoint written.inService after.outermost := by
      rw [left'] at atEnd
      rw [passes.retired]
      exact Finset.sdiff_eq_self_iff_disjoint.1 atEnd.symm
    have orderedDuring := ihDuring upEntry handledDuring freshDuring rightDuring
    have orderedAfter := ihAfter passes.up.2.1 inAfter freshAfter rightAfter
    rw [passes.retired, ← left'] at orderedAfter
    rw [kept] at eoi
    cases source with
    | external =>
      have absent : r.intNo ∉ state.inService := fun inside =>
        Finset.disjoint_left.1 fresh inside (Finset.mem_insert_self _ _)
      have back : left.inService = state.inService :=
        whole.trans (Finset.erase_insert absent)
      have freshNext : Disjoint left.inService next.outermost := by
        rw [back]
        exact fresh.mono_right (Finset.subset_insert _ _)
      have orderedNext := ihNext passes.up.2.2 inNext freshNext rightNext
      rw [back] at orderedAfter orderedNext
      refine ⟨?_, orderedDuring, orderedAfter, orderedNext⟩
      intro vector inside
      have atMost := (retire_eq_erase_iff eoi.1).1 eoi.2 vector
        (Finset.mem_insert_of_mem inside)
      exact lt_of_le_of_ne atMost (by rintro rfl; exact absent inside)
    | internal =>
      have empty : state.inService = ∅ := (retire_eq_self_iff _).1 eoi
      have back : left.inService = ∅ := Eq.trans whole empty
      have orderedNext := ihNext passes.up.2.2 inNext
        (by rw [back]; exact Finset.disjoint_empty_left _) rightNext
      rw [back] at orderedAfter orderedNext
      have atEntry : (deliver .internal r state).inService = ∅ := empty
      rw [atEntry] at orderedDuring
      exact ⟨empty, orderedDuring, orderedAfter, orderedNext⟩

end Nesting

/-! ### After `lapic_init` -/

@[simp] theorem lapicWrite_handlers (index : Nat) (value : BitVec 32) (state : TrapState) :
    (lapicWrite index value state).handlers = state.handlers := rfl

theorem lapicInit_up (ver : BitVec 32) (state : TrapState) : (lapicInit ver state).lapicUp = true := rfl

theorem lapicInit_handlers (ver : BitVec 32) (state : TrapState) :
    (lapicInit ver state).handlers = state.handlers := by
  simp only [lapicInit, lapicTimerConfig, lapicWrite_handlers]
  split_ifs <;> simp only [lapicWrite_handlers]

/-- Once `lapic_init` has run, every trap of a nesting retires the interrupt it was entered
for, and nothing else, exactly if the nesting is in order. -/
theorem trap_retires_own_iff (ver : BitVec 32) (state : TrapState) (nesting : Nesting)
    (handled : nesting.Handled state.handlers)
    (fresh : Disjoint (lapicInit ver state).inService nesting.outermost) :
    ((nesting.run (lapicInit ver state)).isSome ∧ nesting.AllRight (lapicInit ver state)) ↔
      nesting.Ordered (lapicInit ver state).inService := by
  have up := lapicInit_up ver state
  rw [← lapicInit_handlers ver state] at handled
  constructor
  · intro right
    exact right.2.ordered up handled fresh
  · intro ordered
    obtain ⟨last, ran, -⟩ := handled.returns _ up rfl
    exact ⟨by rw [ran]; rfl, (ordered.allRight up handled).1⟩

/-! ### A breakpoint in an interrupt handler -/

def quietHandler : TrapHandler := fun _ => some 0

def blankState : TrapState where
  handlers := fun _ => none
  lapicUp := false
  lapic := fun _ => 0
  inService := ∅
  ports := []

/-- After `trap_init`, with handlers for the timer and for pin 16 of the I/O APIC. -/
def timerState : TrapState :=
  (do
    let state ← trapInit blankState
    let state ← trapRegister 0x20 (some quietHandler) state
    trapRegister 0x30 (some quietHandler) state).getD blankState

/-- The device on pin 16 interrupts the timer: its vector is of a higher priority class. -/
def deviceInTimer : Nesting :=
  .trap .external ⟨0x20, 0⟩ (.trap .external ⟨0x30, 0⟩ .none .none .none) .none .none

/-- A breakpoint instruction in the handler of the timer. -/
def breakpointInTimer : Nesting :=
  .trap .external ⟨0x20, 0⟩ (.trap .internal ⟨breakpointNo, 1⟩ .none .none .none) .none .none

theorem timerState_inService : (lapicInit 0 timerState).inService = ∅ := by
  decide +kernel

theorem deviceInTimer_handled : deviceInTimer.Handled timerState.handlers :=
  ⟨⟨quietHandler, rfl, rfl⟩, ⟨⟨quietHandler, rfl, rfl⟩, trivial, trivial, trivial⟩, trivial, trivial⟩

theorem breakpointInTimer_handled : breakpointInTimer.Handled timerState.handlers :=
  ⟨⟨quietHandler, rfl, rfl⟩, ⟨⟨breakpointHandler, rfl, by decide⟩, trivial, trivial, trivial⟩,
    trivial, trivial⟩

theorem trap_retires_own_device :
    (deviceInTimer.run (lapicInit 0 timerState)).isSome ∧
      deviceInTimer.AllRight (lapicInit 0 timerState) := by
  have fresh : Disjoint (lapicInit 0 timerState).inService deviceInTimer.outermost := by
    rw [timerState_inService]
    exact Finset.disjoint_empty_left _
  apply (trap_retires_own_iff 0 timerState deviceInTimer deviceInTimer_handled fresh).2
  rw [timerState_inService]
  exact ⟨by decide, ⟨by decide, trivial, trivial, trivial⟩, trivial, trivial⟩

/-- The EOI of the breakpoint takes the timer's interrupt out of service, long before the
timer's own. -/
theorem breakpoint_retires_timer :
    breakpointInTimer.Handled timerState.handlers ∧
    ¬breakpointInTimer.AllRight (lapicInit 0 timerState) ∧
    (deliver .external ⟨0x20, 0⟩ (lapicInit 0 timerState)).inService = {0x20} ∧
    ((trap ⟨breakpointNo, 1⟩ (deliver .external ⟨0x20, 0⟩ (lapicInit 0 timerState))).map
      (·.inService)) = some ∅ := by
  refine ⟨breakpointInTimer_handled, ?_, by decide +kernel, by decide +kernel⟩
  intro right
  have fresh : Disjoint (lapicInit 0 timerState).inService breakpointInTimer.outermost := by
    rw [timerState_inService]
    exact Finset.disjoint_empty_left _
  have handled : breakpointInTimer.Handled (lapicInit 0 timerState).handlers := by
    rw [lapicInit_handlers]
    exact breakpointInTimer_handled
  have ordered := right.ordered (lapicInit_up 0 timerState) handled fresh
  exact Finset.insert_ne_empty _ _ ordered.2.1.1

end Osdev64
