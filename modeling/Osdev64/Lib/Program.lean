/-
Programs that read and write memory through their own page tables.

A program is a tree of accesses.  `run` executes it on a machine whose accesses
walk the current tables and stop at a page fault; `trace` lists the accesses it
makes.  `Runs` is the rule for reasoning about both: the program reaches its
end, every access is good, and the end satisfies the postcondition.
-/

import Osdev64.Lib.Paging

namespace Paging

open Word64

/-- A pointer to words, with the physical address it is meant to reach. -/
structure Pointer where
  address : Word
  target : Option Word

/-- The virtual address of `pointer[index]`. -/
def Pointer.entry (pointer : Pointer) (index : Index) : Word :=
  pointer.address + (index.setWidth 64 <<< 3)

structure Machine (σ : Type) where
  tables : Tables
  cr3 : Word
  data : σ

structure Access where
  pointer : Pointer
  index : Index
  value : Option Word

inductive Prog (σ α : Type) where
  | done (value : α)
  | load (pointer : Pointer) (index : Index) (next : Word → Prog σ α)
  | store (pointer : Pointer) (index : Index) (value : Word) (next : Prog σ α)
  | get (next : σ → Prog σ α)
  | put (data : σ) (next : Prog σ α)
  | readCr3 (next : Word → Prog σ α)
  | loadCr3 (value : Word) (next : Prog σ α)

variable {σ α β : Type}

def Machine.root (machine : Machine σ) : Frame := frameOf machine.cr3

/-- The word an access reaches. -/
def Machine.locate (machine : Machine σ) (pointer : Pointer) (index : Index) :
    Option (Frame × Index) :=
  (walk machine.tables machine.root (pointer.entry index)).map fun leaf =>
    (leaf.frame, (pointer.entry index).extractLsb' 3 9)

def Machine.write (machine : Machine σ) (place : Frame × Index) (value : Word) : Machine σ :=
  { machine with tables := setEntry machine.tables place.1 place.2 value }

/-- The pointer is page aligned and its page is mapped to `frame`. -/
def Machine.Reaches (machine : Machine σ) (pointer : Pointer) (frame : Frame) : Prop :=
  pointer.address.toNat % 4096 = 0 ∧
    ∃ leaf, walk machine.tables machine.root pointer.address = some leaf ∧ leaf.frame = frame

theorem Pointer.entry_toNat (pointer : Pointer) (index : Index)
    (aligned : pointer.address.toNat % 4096 = 0) :
    (pointer.entry index).toNat = pointer.address.toNat + 8 * index.toNat := by
  have small := index.isLt
  have room := pointer.address.isLt
  unfold Pointer.entry
  rw [BitVec.toNat_add, BitVec.toNat_shiftLeft, BitVec.toNat_setWidth, Nat.shiftLeft_eq]
  omega

theorem Machine.Reaches.locate {machine : Machine σ} {pointer : Pointer} {frame : Frame}
    (reaches : machine.Reaches pointer frame) (index : Index) :
    machine.locate pointer index = some (frame, index) := by
  obtain ⟨aligned, leaf, found, rfl⟩ := reaches
  have value := pointer.entry_toNat index aligned
  have small := index.isLt
  have samePage : (pointer.entry index).toNat / 4096 = pointer.address.toNat / 4096 := by omega
  have sameIndex : (pointer.entry index).extractLsb' 3 9 = index := by
    apply BitVec.eq_of_toNat_eq
    rw [BitVec.extractLsb'_toNat, value, Nat.shiftRight_eq_div_pow]
    omega
  unfold Machine.locate
  rw [walk_page samePage, found, sameIndex]
  rfl

theorem Machine.root_congr {machine machine' : Machine σ} (same : machine'.cr3 = machine.cr3) :
    machine'.root = machine.root := by
  unfold Machine.root
  rw [same]

theorem Machine.Reaches.grows {machine machine' : Machine σ} {pointer : Pointer} {frame : Frame}
    (reaches : machine.Reaches pointer frame) (grows : Grows machine.tables machine'.tables)
    (sameRoot : machine'.cr3 = machine.cr3) : machine'.Reaches pointer frame := by
  obtain ⟨aligned, leaf, found, atFrame⟩ := reaches
  refine ⟨aligned, leaf, ?_, atFrame⟩
  rw [Machine.root_congr sameRoot]
  exact grows.walk found

namespace Prog

def bind (program : Prog σ α) (rest : α → Prog σ β) : Prog σ β :=
  match program with
  | .done value => rest value
  | .load pointer index next => .load pointer index fun word => (next word).bind rest
  | .store pointer index value next => .store pointer index value (next.bind rest)
  | .get next => .get fun data => (next data).bind rest
  | .put data next => .put data (next.bind rest)
  | .readCr3 next => .readCr3 fun word => (next word).bind rest
  | .loadCr3 value next => .loadCr3 value (next.bind rest)

instance : Monad (Prog σ) where
  pure := .done
  bind := bind

def read (pointer : Pointer) (index : Index) : Prog σ Word := .load pointer index .done

def write (pointer : Pointer) (index : Index) (value : Word) : Prog σ Unit :=
  .store pointer index value (.done ())

def getData : Prog σ σ := .get .done

def setData (data : σ) : Prog σ Unit := .put data (.done ())

/-- A computation on the data that touches no memory. -/
def local' (step : σ → α × σ) : Prog σ α :=
  .get fun data => .put (step data).2 (.done (step data).1)

def getCr3 : Prog σ Word := .readCr3 .done

def setCr3 (value : Word) : Prog σ Unit := .loadCr3 value (.done ())

/-- `none` is a page fault. -/
def run : Prog σ α → Machine σ → Option (α × Machine σ)
  | .done value, machine => some (value, machine)
  | .load pointer index next, machine =>
    (machine.locate pointer index).bind fun place =>
      (next (machine.tables place.1 place.2)).run machine
  | .store pointer index value next, machine =>
    (machine.locate pointer index).bind fun place => next.run (machine.write place value)
  | .get next, machine => (next machine.data).run machine
  | .put data next, machine => next.run { machine with data := data }
  | .readCr3 next, machine => (next machine.cr3).run machine
  | .loadCr3 value next, machine => next.run { machine with cr3 := value }

/-- The accesses of a run, each with the machine it finds. -/
def trace : Prog σ α → Machine σ → List (Machine σ × Access)
  | .done _, _ => []
  | .load pointer index next, machine =>
    (machine, ⟨pointer, index, none⟩) ::
      match machine.locate pointer index with
      | none => []
      | some place => (next (machine.tables place.1 place.2)).trace machine
  | .store pointer index value next, machine =>
    (machine, ⟨pointer, index, some value⟩) ::
      match machine.locate pointer index with
      | none => []
      | some place => next.trace (machine.write place value)
  | .get next, machine => (next machine.data).trace machine
  | .put data next, machine => next.trace { machine with data := data }
  | .readCr3 next, machine => (next machine.cr3).trace machine
  | .loadCr3 value next, machine => next.trace { machine with cr3 := value }

/-- The program reaches its end, all its accesses are good, and `post` holds there. -/
def Runs (good : Machine σ → Access → Prop) :
    Prog σ α → Machine σ → (α → Machine σ → Prop) → Prop
  | .done value, machine, post => post value machine
  | .load pointer index next, machine, post =>
    good machine ⟨pointer, index, none⟩ ∧
      ∃ place, machine.locate pointer index = some place ∧
        (next (machine.tables place.1 place.2)).Runs good machine post
  | .store pointer index value next, machine, post =>
    good machine ⟨pointer, index, some value⟩ ∧
      ∃ place, machine.locate pointer index = some place ∧
        next.Runs good (machine.write place value) post
  | .get next, machine, post => (next machine.data).Runs good machine post
  | .put data next, machine, post => next.Runs good { machine with data := data } post
  | .readCr3 next, machine, post => (next machine.cr3).Runs good machine post
  | .loadCr3 value next, machine, post => next.Runs good { machine with cr3 := value } post

variable {good good' : Machine σ → Access → Prop} {machine : Machine σ}
  {post post' : α → Machine σ → Prop}

theorem run_andThen (program : Prog σ α) (rest : α → Prog σ β) :
    (program >>= rest).run machine =
      (program.run machine).bind fun result => (rest result.1).run result.2 := by
  change (program.bind rest).run machine = _
  induction program generalizing machine with
  | done value => rfl
  | load pointer index next ih =>
    simp only [bind, run, Option.bind_assoc]
    congr 1
    funext place
    exact ih _
  | store pointer index value next ih =>
    simp only [bind, run, Option.bind_assoc]
    congr 1
    funext place
    exact ih
  | get next ih => exact ih _
  | put data next ih => exact ih
  | readCr3 next ih => exact ih _
  | loadCr3 value next ih => exact ih

theorem run_pure (value : α) : (pure value : Prog σ α).run machine = some (value, machine) := rfl

theorem run_local (step : σ → α × σ) :
    (local' step).run machine =
      some ((step machine.data).1, { machine with data := (step machine.data).2 }) := rfl

theorem trace_andThen (program : Prog σ α) (rest : α → Prog σ β) :
    (program >>= rest).trace machine =
      program.trace machine ++
        match program.run machine with
        | none => []
        | some result => (rest result.1).trace result.2 := by
  change (program.bind rest).trace machine = _
  induction program generalizing machine with
  | done value => rfl
  | load pointer index next ih =>
    simp only [bind, trace, run, List.cons_append]
    cases machine.locate pointer index with
    | none => rfl
    | some place => exact congrArg _ (ih _)
  | store pointer index value next ih =>
    simp only [bind, trace, run, List.cons_append]
    cases machine.locate pointer index with
    | none => rfl
    | some place => exact congrArg _ ih
  | get next ih => exact ih _
  | put data next ih => exact ih
  | readCr3 next ih => exact ih _
  | loadCr3 value next ih => exact ih

theorem mem_trace_read (pointer : Pointer) (index : Index) :
    (machine, Access.mk pointer index none) ∈ (read pointer index : Prog σ Word).trace machine := by
  simp [read, trace]

theorem runs_bind (program : Prog σ α) (rest : α → Prog σ β) {after : β → Machine σ → Prop} :
    (program.bind rest).Runs good machine after ↔
      program.Runs good machine fun value machine' => (rest value).Runs good machine' after := by
  induction program generalizing machine with
  | done value => rfl
  | load pointer index next ih => simp only [bind, Runs, ih]
  | store pointer index value next ih => simp only [bind, Runs, ih]
  | get next ih => simp only [bind, Runs, ih]
  | put data next ih => simp only [bind, Runs, ih]
  | readCr3 next ih => simp only [bind, Runs, ih]
  | loadCr3 value next ih => simp only [bind, Runs, ih]

theorem runs_andThen (program : Prog σ α) (rest : α → Prog σ β) {after : β → Machine σ → Prop} :
    (program >>= rest).Runs good machine after ↔
      program.Runs good machine fun value machine' => (rest value).Runs good machine' after :=
  runs_bind program rest

theorem runs_pure (value : α) : (pure value : Prog σ α).Runs good machine post ↔ post value machine :=
  Iff.rfl

theorem runs_getData {after : σ → Machine σ → Prop} :
    (getData : Prog σ σ).Runs good machine after ↔ after machine.data machine :=
  Iff.rfl

theorem runs_local (step : σ → α × σ) :
    (local' step).Runs good machine post ↔
      post (step machine.data).1 { machine with data := (step machine.data).2 } :=
  Iff.rfl

theorem runs_read (pointer : Pointer) (index : Index) {frame : Frame}
    {after : Word → Machine σ → Prop} (reaches : machine.Reaches pointer frame) :
    (read pointer index).Runs good machine after ↔
      good machine ⟨pointer, index, none⟩ ∧ after (machine.tables frame index) machine := by
  simp [read, Runs, reaches.locate index]

theorem runs_write (pointer : Pointer) (index : Index) (value : Word) {frame : Frame}
    {after : Unit → Machine σ → Prop} (reaches : machine.Reaches pointer frame) :
    (write pointer index value).Runs good machine after ↔
      good machine ⟨pointer, index, some value⟩ ∧
        after () (machine.write (frame, index) value) := by
  simp [write, Runs, reaches.locate index]

theorem Runs.mono {program : Prog σ α} (runs : program.Runs good machine post)
    (better : ∀ machine access, good machine access → good' machine access)
    (weaker : ∀ value machine, post value machine → post' value machine) :
    program.Runs good' machine post' := by
  induction program generalizing machine with
  | done value => exact weaker value machine runs
  | load pointer index next ih =>
    obtain ⟨isGood, place, located, rest⟩ := runs
    exact ⟨better _ _ isGood, place, located, ih _ rest⟩
  | store pointer index value next ih =>
    obtain ⟨isGood, place, located, rest⟩ := runs
    exact ⟨better _ _ isGood, place, located, ih rest⟩
  | get next ih => exact ih _ runs
  | put data next ih => exact ih runs
  | readCr3 next ih => exact ih _ runs
  | loadCr3 value next ih => exact ih runs

theorem Runs.run {program : Prog σ α} (runs : program.Runs good machine post) :
    ∃ value machine', program.run machine = some (value, machine') ∧ post value machine' := by
  induction program generalizing machine with
  | done value => exact ⟨value, machine, rfl, runs⟩
  | load pointer index next ih =>
    obtain ⟨_, place, located, rest⟩ := runs
    simp only [Prog.run, located, Option.bind_some]
    exact ih _ rest
  | store pointer index value next ih =>
    obtain ⟨_, place, located, rest⟩ := runs
    simp only [Prog.run, located, Option.bind_some]
    exact ih rest
  | get next ih => exact ih _ runs
  | put data next ih => exact ih runs
  | readCr3 next ih => exact ih _ runs
  | loadCr3 value next ih => exact ih runs

theorem Runs.trace {program : Prog σ α} (runs : program.Runs good machine post) :
    ∀ step ∈ program.trace machine, good step.1 step.2 := by
  induction program generalizing machine with
  | done value =>
    intro step member
    cases member
  | load pointer index next ih =>
    obtain ⟨isGood, place, located, rest⟩ := runs
    intro step member
    simp only [Prog.trace, located, List.mem_cons] at member
    rcases member with rfl | later
    · exact isGood
    · exact ih _ rest step later
  | store pointer index value next ih =>
    obtain ⟨isGood, place, located, rest⟩ := runs
    intro step member
    simp only [Prog.trace, located, List.mem_cons] at member
    rcases member with rfl | later
    · exact isGood
    · exact ih rest step later
  | get next ih => exact ih _ runs
  | put data next ih => exact ih runs
  | readCr3 next ih => exact ih _ runs
  | loadCr3 value next ih => exact ih runs

end Prog

end Paging
