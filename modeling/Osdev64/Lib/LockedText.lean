/-
Strings written to a device behind a lock.

A call reads its string from memory byte by byte, waits until the device is
ready and hands it the byte.  The device moves on its own, and other code writes
to memory.  A call that nobody disturbs hands over its string; one whose string is
written to meanwhile hands over what it finds.
-/

import Osdev64.Lib.Bytes
import Osdev64.Lib.SpinLock
import Mathlib.Logic.Relation

namespace SpinLock

open Runs Bytes

structure Sink (δ : Type) where
  ready : δ → Prop
  put : Byte → δ → δ
  moves : δ → δ → Prop

/-- The device and the memory that holds the strings. -/
structure Printing (δ : Type) where
  device : δ
  memory : Memory

/-- A string in memory, up to its zero. -/
def TextAt (memory : Memory) : Nat → List Byte → Prop
  | pointer, [] => memory pointer = 0
  | pointer, c :: text => memory pointer = c ∧ c ≠ 0 ∧ TextAt memory (pointer + 1) text

/-- A call has a pointer; the text is what it finds there when it starts. -/
structure TextCall where
  pointer : Nat
  text : List Byte

inductive Phase where
  | test
  | load
  | poll (c : Byte)
  | put (c : Byte)
  | done

structure TextLocals where
  pointer : Nat
  phase : Phase

variable {δ ι : Type}

/-- `while (*c) { putc(*c); c++; }`, where `putc` waits for the device. -/
inductive Sink.Work (sink : Sink δ) (pointer : Nat) (shared : Printing δ) :
    Phase → TextLocals → Printing δ → Prop where
  | more (nonzero : shared.memory pointer ≠ 0) :
      Sink.Work sink pointer shared .test ⟨pointer, .load⟩ shared
  | stop (zero : shared.memory pointer = 0) :
      Sink.Work sink pointer shared .test ⟨pointer, .done⟩ shared
  | load : Sink.Work sink pointer shared .load ⟨pointer, .poll (shared.memory pointer)⟩ shared
  | wait (c : Byte) (busy : ¬sink.ready shared.device) :
      Sink.Work sink pointer shared (.poll c) ⟨pointer, .poll c⟩ shared
  | see (c : Byte) (ready : sink.ready shared.device) :
      Sink.Work sink pointer shared (.poll c) ⟨pointer, .put c⟩ shared
  | put (c : Byte) :
      Sink.Work sink pointer shared (.put c) ⟨pointer + 1, .test⟩
        { shared with device := sink.put c shared.device }

/-- What happens besides the calls. -/
inductive Sink.Moves (sink : Sink δ) (writes : Memory → Memory → Prop) (shared : Printing δ) :
    Printing δ → Prop where
  | device (device' : δ) (moves : sink.moves shared.device device') :
      Sink.Moves sink writes shared { shared with device := device' }
  | memory (memory' : Memory) (written : writes shared.memory memory') :
      Sink.Moves sink writes shared { shared with memory := memory' }

def Sink.code (sink : Sink δ) (writes : Memory → Memory → Prop) :
    Code (Printing δ) TextLocals TextCall Unit where
  admits := fun _ _ => True
  enter := fun call => ⟨call.pointer, .test⟩
  work := fun _ locals shared locals' shared' =>
    sink.Work locals.pointer shared locals.phase locals' shared'
  finished := fun _ locals =>
    match locals.phase with
    | .done => some ()
    | _ => none
  ambient := sink.Moves writes

theorem textAt_of_getD {memory : Memory} {pointer : Nat} {text : List Byte}
    (bytes : ∀ k ≤ text.length, memory (pointer + k) = text.getD k 0) (nonzero : ∀ c ∈ text, c ≠ 0) :
    TextAt memory pointer text := by
  induction text generalizing pointer with
  | nil => exact bytes 0 (Nat.le_refl 0)
  | cons c text ih =>
    refine ⟨bytes 0 (Nat.zero_le _), nonzero c List.mem_cons_self, ih ?_ ?_⟩
    · intro k inside
      have next := bytes (k + 1) (Nat.succ_le_succ inside)
      rwa [Nat.add_comm k 1, ← Nat.add_assoc, Nat.add_comm 1 k, List.getD_cons_succ] at next
    · exact fun c inside => nonzero c (List.mem_cons_of_mem _ inside)

theorem TextAt.end_zero {memory : Memory} {pointer : Nat} {text : List Byte}
    (found : TextAt memory pointer text) : memory (pointer + text.length) = 0 := by
  induction text generalizing pointer with
  | nil => exact found
  | cons c text ih =>
    rw [List.length_cons, Nat.add_comm text.length 1, ← Nat.add_assoc]
    exact ih found.2.2

/-- `fed bytes device`: the device was given these bytes. -/
structure Sink.Feeds (sink : Sink δ) (good : Byte → Prop) (fed : List Byte → δ → Prop) : Prop where
  put : ∀ bytes device c, fed bytes device → sink.ready device → good c →
    fed (bytes ++ [c]) (sink.put c device)
  moves : ∀ bytes device device', fed bytes device → sink.moves device device' → fed bytes device'
  steady : ∀ device device', sink.ready device → sink.moves device device' → sink.ready device'

theorem Sink.Feeds.given_of_moves {sink : Sink δ} {good : Byte → Prop} {fed : List Byte → δ → Prop}
    {bytes : List Byte} {device device' : δ} (feeds : sink.Feeds good fed) (given : fed bytes device)
    (moves : Relation.ReflTransGen sink.moves device device') : fed bytes device' := by
  induction moves with
  | refl => exact given
  | tail _ moved ih => exact feeds.moves _ _ _ ih moved

variable {sink : Sink δ} {good : Byte → Prop} {fed : List Byte → δ → Prop} {call : TextCall}
  {part : List Byte}

/-! ### A call that is not disturbed -/

section Undisturbed

variable [DecidableEq ι] {writes : Memory → Memory → Prop}
  {log : List (Event ι TextCall Unit)} {start machine : Machine ι (Printing δ) TextLocals TextCall}
  {cpu : ι} {below : List (Place TextCall TextLocals)} {bytes more : List Byte} {pointer : Nat}

/-- The machine with another device and other locals of the call on top. -/
def Machine.wrote (machine : Machine ι (Printing δ) TextLocals TextCall) (cpu : ι)
    (stack : List (Place TextCall TextLocals)) (device : δ) :
    Machine ι (Printing δ) TextLocals TextCall where
  shared := { machine.shared with device := device }
  flag := machine.flag
  stack := Function.update machine.stack cpu stack

theorem Sink.run_moves {device : δ} (run : Logged (Step (sink.code writes)) start log machine)
    (moves : Relation.ReflTransGen sink.moves machine.shared.device device) :
    Logged (Step (sink.code writes)) start log
      { machine with shared := { machine.shared with device := device } } := by
  induction moves with
  | refl => exact run
  | tail _ moved ih => exact ih.silent (.moved _ (.device _ moved))

theorem Sink.run_writes {memory : Memory} (run : Logged (Step (sink.code writes)) start log machine)
    (written : writes machine.shared.memory memory) :
    Logged (Step (sink.code writes)) start log
      { machine with shared := { machine.shared with memory := memory } } :=
  run.silent (.moved _ (.memory memory written))

variable (feeds : sink.Feeds good fed)
  (settles : ∀ bytes device, fed bytes device →
    ∃ device', Relation.ReflTransGen sink.moves device device' ∧ sink.ready device')

include feeds settles

theorem Sink.run_byte {c : Byte} (run : Logged (Step (sink.code writes)) start log machine)
    (top : machine.stack cpu = .inside call ⟨pointer, .test⟩ :: below)
    (given : fed bytes machine.shared.device) (found : machine.shared.memory pointer = c)
    (nonzero : c ≠ 0) (goodByte : good c) :
    ∃ device', Logged (Step (sink.code writes)) start log
        (machine.wrote cpu (.inside call ⟨pointer + 1, .test⟩ :: below) device') ∧
      fed (bytes ++ [c]) device' := by
  subst found
  have tested := run.silent (.worked cpu call _ _ _ below top (.more nonzero))
  have loaded := tested.silent (.worked cpu call _ _ _ below (Function.update_self ..) .load)
  obtain ⟨device, moves, ready⟩ := settles _ _ given
  have moved := Sink.run_moves loaded moves
  have seen := moved.silent (.worked cpu call _ _ _ below (Function.update_self ..) (.see _ ready))
  have put := seen.silent (.worked cpu call _ _ _ below (Function.update_self ..) (.put _))
  simp only [Function.update_idem] at put
  exact ⟨_, put, feeds.put _ _ _ (feeds.given_of_moves given moves) ready goodByte⟩

theorem Sink.run_part (run : Logged (Step (sink.code writes)) start log machine)
    (top : machine.stack cpu = .inside call ⟨pointer, .test⟩ :: below)
    (given : fed bytes machine.shared.device) (found : TextAt machine.shared.memory pointer (part ++ more))
    (goodPart : ∀ c ∈ part, good c) :
    ∃ device', Logged (Step (sink.code writes)) start log
        (machine.wrote cpu (.inside call ⟨pointer + part.length, .test⟩ :: below) device') ∧
      fed (bytes ++ part) device' := by
  induction part generalizing machine pointer bytes with
  | nil =>
    refine ⟨machine.shared.device, ?_, ?_⟩
    · unfold Machine.wrote
      rw [List.length_nil, Nat.add_zero, ← top, Function.update_eq_self]
      exact run
    · rwa [List.append_nil]
  | cons c part ih =>
    obtain ⟨first, nonzero, rest⟩ := found
    obtain ⟨device, ran, given'⟩ := Sink.run_byte feeds settles run top given first nonzero
      (goodPart c List.mem_cons_self)
    obtain ⟨device', ran', given''⟩ := ih ran (Function.update_self ..) given' rest
      fun c inside => goodPart c (List.mem_cons_of_mem _ inside)
    refine ⟨device', ?_, ?_⟩
    · unfold Machine.wrote at ran'
      rw [Function.update_idem] at ran'
      rw [List.length_cons, Nat.add_comm part.length 1, ← Nat.add_assoc]
      exact ran'
    · rwa [List.append_assoc, List.singleton_append] at given''

theorem Sink.run_start (run : Logged (Step (sink.code writes)) start log machine)
    (clear : machine.flag = false) (cpu : ι) (call : TextCall)
    (given : fed bytes machine.shared.device)
    (found : TextAt machine.shared.memory call.pointer (part ++ more)) (goodPart : ∀ c ∈ part, good c) :
    ∃ machine', Logged (Step (sink.code writes)) start (log ++ [.called cpu call]) machine' ∧
      machine'.stack cpu =
        .inside call ⟨call.pointer + part.length, .test⟩ :: machine.stack cpu ∧
      machine'.shared.memory = machine.shared.memory ∧ fed (bytes ++ part) machine'.shared.device := by
  have called := Logged.step log machine _ _ run (.called cpu call trivial)
  have acquired := called.silent
    (.acquired cpu call (machine.stack cpu) (Function.update_self ..) clear trivial)
  obtain ⟨device, ran, given'⟩ :=
    Sink.run_part feeds settles acquired (Function.update_self ..) given found goodPart
  exact ⟨_, ran, Function.update_self .., rfl, given'⟩

omit feeds settles in
theorem Sink.run_end (run : Logged (Step (sink.code writes)) start log machine)
    (top : machine.stack cpu = .inside call ⟨pointer, .test⟩ :: below)
    (zero : machine.shared.memory pointer = 0) :
    ∃ machine', Logged (Step (sink.code writes)) start (log ++ [.returned cpu call ()]) machine' ∧
      machine'.flag = false ∧ machine'.shared = machine.shared := by
  have stopped := run.silent (.worked cpu call _ _ _ below top (.stop zero))
  have released := Logged.step _ _ _ _ stopped
    (.released cpu call _ () below (Function.update_self ..) rfl)
  exact ⟨_, released, rfl, rfl⟩

/-- A call that finds the lock free and that nobody disturbs writes its text and returns. -/
theorem Sink.run_call (run : Logged (Step (sink.code writes)) start log machine)
    (clear : machine.flag = false) (cpu : ι) (call : TextCall)
    (given : fed bytes machine.shared.device)
    (found : TextAt machine.shared.memory call.pointer call.text) (goodText : ∀ c ∈ call.text, good c) :
    ∃ machine', Logged (Step (sink.code writes)) start
        (log ++ [.called cpu call] ++ [.returned cpu call ()]) machine' ∧
      fed (bytes ++ call.text) machine'.shared.device := by
  have whole : TextAt machine.shared.memory call.pointer (call.text ++ []) := by
    rwa [List.append_nil]
  obtain ⟨printed, ran, top, memory, given'⟩ :=
    Sink.run_start feeds settles run clear cpu call given whole goodText
  have zero : printed.shared.memory (call.pointer + call.text.length) = 0 := by
    rw [memory]
    exact found.end_zero
  obtain ⟨machine', ran', _, same⟩ := Sink.run_end ran top zero
  rw [← same] at given'
  exact ⟨machine', ran', given'⟩

theorem Sink.run_cut {cut filled : Memory} (first second : TextCall)
    (run : Logged (Step (sink.code writes)) start log machine) (clear : machine.flag = false)
    (given : fed bytes machine.shared.device)
    (found : TextAt machine.shared.memory first.pointer (part ++ more)) (goodPart : ∀ c ∈ part, good c)
    (written : writes machine.shared.memory cut) (zero : cut (first.pointer + part.length) = 0)
    (written' : writes cut filled) (found' : TextAt filled second.pointer second.text)
    (goodText : ∀ c ∈ second.text, good c) (cpu cpu' : ι) :
    ∃ machine', Logged (Step (sink.code writes)) start
        (log ++ [.called cpu first] ++ [.returned cpu first ()] ++ [.called cpu' second] ++
          [.returned cpu' second ()]) machine' ∧
      fed (bytes ++ part ++ second.text) machine'.shared.device := by
  obtain ⟨printed, ran, top, memory, given'⟩ :=
    Sink.run_start feeds settles run clear cpu first given found goodPart
  rw [← memory] at written
  obtain ⟨ended, ran', clear', same⟩ := Sink.run_end (Sink.run_writes ran written) top zero
  have memory' : ended.shared.memory = cut := by rw [same]
  have given'' : fed (bytes ++ part) ended.shared.device := by
    rw [same]
    exact given'
  rw [← memory'] at written'
  exact Sink.run_call feeds settles (Sink.run_writes ran' written') clear' cpu' second given'' found' goodText

end Undisturbed

end SpinLock
