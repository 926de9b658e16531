/-
A processor with a translation cache.

At any moment the cache may take up a translation the tables have; only a load
of `CR3` empties it.  An access goes through a cached translation or through the
tables.  A program whose stores only fill absent words keeps the cache coherent,
whatever is cached and when.
-/

import Osdev64.Lib.Program
import Osdev64.Lib.Runs

namespace Paging

open Word64

/-- The translations held for a page number. -/
abbrev Tlb := Nat → Leaf → Prop

/-- `program` is what is left of the running call. -/
structure Cpu (σ : Type) where
  machine : Machine σ
  tlb : Tlb
  program : Prog σ Unit

variable {σ α β : Type}

/-- Every held translation is the one of the current tables. -/
def Coherent (machine : Machine σ) (tlb : Tlb) : Prop :=
  ∀ (address : Word) (leaf : Leaf), tlb (address.toNat / 4096) leaf →
    walk machine.tables machine.root address = some leaf

def Tlb.insert (tlb : Tlb) (address : Word) (leaf : Leaf) : Tlb :=
  fun page held => tlb page held ∨ page = address.toNat / 4096 ∧ held = leaf

/-- A translation an access to `address` may use. -/
def Cpu.Resolves (machine : Machine σ) (tlb : Tlb) (address : Word) (leaf : Leaf) : Prop :=
  tlb (address.toNat / 4096) leaf ∨ walk machine.tables machine.root address = some leaf

/-- The word an access reaches with a given translation. -/
def Leaf.place (leaf : Leaf) (address : Word) : Frame × Index :=
  (leaf.frame, address.extractLsb' 3 9)

/-- One step: a fill, an instruction of the program, or the start of the next one. -/
inductive Cpu.Step (begins : Machine σ → Prog σ Unit → Prop) : Cpu σ → Cpu σ → Prop where
  | fill (machine : Machine σ) (tlb : Tlb) (program : Prog σ Unit) (address : Word) (leaf : Leaf)
      (found : walk machine.tables machine.root address = some leaf) :
      Step begins ⟨machine, tlb, program⟩ ⟨machine, tlb.insert address leaf, program⟩
  | load (machine : Machine σ) (tlb : Tlb) (pointer : Pointer) (index : Index)
      (next : Word → Prog σ Unit) (leaf : Leaf)
      (resolves : Cpu.Resolves machine tlb (pointer.entry index) leaf) :
      Step begins ⟨machine, tlb, .load pointer index next⟩
        ⟨machine, tlb, next (machine.tables (leaf.place (pointer.entry index)).1
          (leaf.place (pointer.entry index)).2)⟩
  | store (machine : Machine σ) (tlb : Tlb) (pointer : Pointer) (index : Index) (value : Word)
      (next : Prog σ Unit) (leaf : Leaf)
      (resolves : Cpu.Resolves machine tlb (pointer.entry index) leaf) :
      Step begins ⟨machine, tlb, .store pointer index value next⟩
        ⟨machine.write (leaf.place (pointer.entry index)) value, tlb, next⟩
  | get (machine : Machine σ) (tlb : Tlb) (next : σ → Prog σ Unit) :
      Step begins ⟨machine, tlb, .get next⟩ ⟨machine, tlb, next machine.data⟩
  | put (machine : Machine σ) (tlb : Tlb) (data : σ) (next : Prog σ Unit) :
      Step begins ⟨machine, tlb, .put data next⟩ ⟨{ machine with data := data }, tlb, next⟩
  | readCr3 (machine : Machine σ) (tlb : Tlb) (next : Word → Prog σ Unit) :
      Step begins ⟨machine, tlb, .readCr3 next⟩ ⟨machine, tlb, next machine.cr3⟩
  | loadCr3 (machine : Machine σ) (tlb : Tlb) (value : Word) (next : Prog σ Unit) :
      Step begins ⟨machine, tlb, .loadCr3 value next⟩
        ⟨{ machine with cr3 := value }, fun _ _ => False, next⟩
  | call (machine : Machine σ) (tlb : Tlb) (program : Prog σ Unit) (begun : begins machine program) :
      Step begins ⟨machine, tlb, .done ()⟩ ⟨machine, tlb, program⟩

/-- The states of all interleavings from an idle processor with an empty cache. -/
def Cpu.Reaches (start : Machine σ → Prop) (begins : Machine σ → Prog σ Unit → Prop) :
    Cpu σ → Prop :=
  Runs.Reachable
    (fun cpu => start cpu.machine ∧ cpu.tlb = (fun _ _ => False) ∧ cpu.program = .done ())
    fun cpu (_ : Unit) cpu' => Cpu.Step begins cpu cpu'

theorem Cpu.Reaches.step {start : Machine σ → Prop} {begins : Machine σ → Prog σ Unit → Prop}
    {cpu cpu' : Cpu σ} (reached : Cpu.Reaches start begins cpu) (taken : Cpu.Step begins cpu cpu') :
    Cpu.Reaches start begins cpu' :=
  Runs.Reachable.step cpu () cpu' reached taken

/-- A store fills an absent word or repeats the word that is there. -/
def Extending (machine : Machine σ) (access : Access) : Prop :=
  ∀ value, access.value = some value → ∀ place,
    machine.locate access.pointer access.index = some place →
    present (machine.tables place.1 place.2) = false ∨ machine.tables place.1 place.2 = value

variable {machine machine' : Machine σ} {tlb : Tlb} {address : Word} {leaf : Leaf}
  {start : Machine σ → Prop} {begins : Machine σ → Prog σ Unit → Prop}

theorem Coherent.insert (coherent : Coherent machine tlb)
    (found : walk machine.tables machine.root address = some leaf) :
    Coherent machine (tlb.insert address leaf) := by
  intro other held inside
  rcases inside with older | ⟨samePage, rfl⟩
  · exact coherent other held older
  · rw [walk_page samePage]
    exact found

theorem Coherent.grows (coherent : Coherent machine tlb)
    (grows : Grows machine.tables machine'.tables) (sameRoot : machine'.cr3 = machine.cr3) :
    Coherent machine' tlb := by
  intro other held inside
  rw [Machine.root_congr sameRoot]
  exact grows.walk (coherent other held inside)

theorem Coherent.locate {pointer : Pointer} {index : Index} (coherent : Coherent machine tlb)
    (resolves : Cpu.Resolves machine tlb (pointer.entry index) leaf) :
    machine.locate pointer index = some (leaf.place (pointer.entry index)) := by
  have found : walk machine.tables machine.root (pointer.entry index) = some leaf := by
    rcases resolves with held | found
    · exact coherent _ leaf held
    · exact found
  unfold Machine.locate
  rw [found]
  rfl

/-- What holds in every state: a coherent cache, and a program that keeps it so. -/
def Cpu.Safe (cpu : Cpu σ) : Prop :=
  Coherent cpu.machine cpu.tlb ∧ cpu.program.Runs Extending cpu.machine fun _ _ => True

theorem Cpu.Safe.step {cpu cpu' : Cpu σ} (safe : cpu.Safe)
    (extending : ∀ machine program, begins machine program →
      program.Runs Extending machine fun _ _ => True)
    (taken : Cpu.Step begins cpu cpu') : cpu'.Safe := by
  obtain ⟨coherent, runs⟩ := safe
  cases taken with
  | fill machine tlb program address leaf found => exact ⟨coherent.insert found, runs⟩
  | load machine tlb pointer index next leaf resolves =>
    obtain ⟨_, place, located, rest⟩ := runs
    have same := (coherent.locate resolves).symm.trans located
    rw [Option.some.inj same]
    exact ⟨coherent, rest⟩
  | store machine tlb pointer index value next leaf resolves =>
    obtain ⟨isGood, place, located, rest⟩ := runs
    have same := (coherent.locate resolves).symm.trans located
    rw [Option.some.inj same]
    refine ⟨?_, rest⟩
    have grows : Grows machine.tables (machine.write place value).tables :=
      grows_setEntry (isGood value rfl place located)
    exact Coherent.grows coherent grows rfl
  | get machine tlb next => exact ⟨coherent, runs⟩
  | put machine tlb data next => exact ⟨coherent, runs⟩
  | readCr3 machine tlb next => exact ⟨coherent, runs⟩
  | loadCr3 machine tlb value next => exact ⟨fun _ _ impossible => impossible.elim, runs⟩
  | call machine tlb program begun => exact ⟨coherent, extending machine program begun⟩

theorem coherent_of_reaches {cpu : Cpu σ} (reached : Cpu.Reaches start begins cpu)
    (extending : ∀ machine program, begins machine program →
      program.Runs Extending machine fun _ _ => True) :
    Coherent cpu.machine cpu.tlb := by
  have safe : cpu.Safe := by
    apply reached.invariant Cpu.Safe
    · rintro ⟨machine, tlb, program⟩ ⟨_, rfl, rfl⟩
      exact ⟨fun _ _ impossible => impossible.elim, trivial⟩
    · intro cpu _ cpu' safe taken
      exact safe.step extending taken
  exact safe.1

/-! ### Uninterrupted runs -/

/-- The program does not load `CR3`. -/
def Prog.KeepsCr3 : Prog σ α → Prop
  | .done _ => True
  | .load _ _ next => ∀ word, (next word).KeepsCr3
  | .store _ _ _ next => next.KeepsCr3
  | .get next => ∀ data, (next data).KeepsCr3
  | .put _ next => next.KeepsCr3
  | .readCr3 next => ∀ word, (next word).KeepsCr3
  | .loadCr3 _ _ => False

theorem Prog.keepsCr3_andThen {program : Prog σ α} {rest : α → Prog σ β} (first : program.KeepsCr3)
    (second : ∀ value, (rest value).KeepsCr3) : (program >>= rest).KeepsCr3 := by
  change (program.bind rest).KeepsCr3
  induction program with
  | done value => exact second value
  | load pointer index next ih => exact fun word => ih word (first word)
  | store pointer index value next ih => exact ih first
  | get next ih => exact fun data => ih data (first data)
  | put data next ih => exact ih first
  | readCr3 next ih => exact fun word => ih word (first word)
  | loadCr3 value next ih => exact first.elim

theorem Cpu.Reaches.run {program : Prog σ Unit} (keeps : program.KeepsCr3)
    (reached : Cpu.Reaches start begins ⟨machine, tlb, program⟩)
    (ran : program.run machine = some ((), machine')) :
    Cpu.Reaches start begins ⟨machine', tlb, .done ()⟩ := by
  induction program generalizing machine with
  | done value =>
    have same : machine = machine' := congrArg Prod.snd (Option.some.inj ran)
    subst same
    exact reached
  | load pointer index next ih =>
    simp only [Prog.run, Machine.locate, Option.bind_eq_some_iff, Option.map_eq_some_iff] at ran
    obtain ⟨_, ⟨leaf, found, rfl⟩, rest⟩ := ran
    exact ih _ (keeps _)
      (reached.step (Cpu.Step.load machine tlb pointer index next leaf (Or.inr found))) rest
  | store pointer index value next ih =>
    simp only [Prog.run, Machine.locate, Option.bind_eq_some_iff, Option.map_eq_some_iff] at ran
    obtain ⟨_, ⟨leaf, found, rfl⟩, rest⟩ := ran
    exact ih keeps
      (reached.step (Cpu.Step.store machine tlb pointer index value next leaf (Or.inr found))) rest
  | get next ih =>
    exact ih _ (keeps _) (reached.step (Cpu.Step.get machine tlb next)) ran
  | put data next ih =>
    exact ih keeps (reached.step (Cpu.Step.put machine tlb data next)) ran
  | readCr3 next ih =>
    exact ih _ (keeps _) (reached.step (Cpu.Step.readCr3 machine tlb next)) ran
  | loadCr3 value next ih => exact keeps.elim

end Paging
