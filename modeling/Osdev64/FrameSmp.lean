/-
`page_alloc` and `page_free` on several processors.

`page_alloc` looks whether the free list is empty before it takes the lock, so
the test and the removal are two steps with anything in between.  When another
processor takes the last page there, the removal reads the list head as a page.
-/

import Osdev64.FramePool
import Osdev64.FrameRuns

namespace Osdev64

open PointerRing Word64 Runs

/-- `page_alloc` from `lock_acquire` on. -/
def takeFirst (frames : Frames) : PagePtr × Frames :=
  let p := listEntry (frames.heap.next (.head .free))
  let heap := listAddTail frames.heap (.head .lru) p.lruNode
  let heap := listMove heap (.head .used) p.pagesNode
  (p, { frames with
    heap := heap
    numUsedPages := frames.numUsedPages + 1
    numFreePages := frames.numFreePages - 1 })

theorem pageAlloc_eq_takeFirst (frames : Frames) :
    pageAlloc frames =
      if listEmpty frames.heap (.head .free) then (.null, frames) else takeFirst frames := rfl

/-- The allocator, the processors between the two steps of `page_alloc`, and the pages that were
handed out and not given back since. -/
structure Smp (ι : Type) where
  frames : Frames
  waiting : ι → Bool
  owned : List PagePtr

inductive SmpCall (ι : Type) where
  | test (cpu : ι)
  | take (cpu : ι)
  | free (cpu : ι) (page : PagePtr)

variable {ι : Type} [DecidableEq ι]

def Smp.step (state : Smp ι) : SmpCall ι → Smp ι
  | .test cpu =>
    if listEmpty state.frames.heap (.head .free) then state
    else { state with waiting := Function.update state.waiting cpu true }
  | .take cpu =>
    { frames := (takeFirst state.frames).2
      waiting := Function.update state.waiting cpu false
      owned := (takeFirst state.frames).1 :: state.owned }
  | .free _ page =>
    { state with
      frames := pageFree page state.frames
      owned := state.owned.erase page }

/-- What `page_alloc` returns at a step, if it returns there. -/
def Smp.result (state : Smp ι) : SmpCall ι → Option PagePtr
  | .test _ => if listEmpty state.frames.heap (.head .free) then some .null else none
  | .take _ => some (takeFirst state.frames).1
  | .free _ _ => none

/-- A processor takes the steps of its calls in order and frees pages that were handed out. -/
def Smp.Allows (state : Smp ι) : SmpCall ι → Prop
  | .test cpu => state.waiting cpu = false
  | .take cpu => state.waiting cpu = true
  | .free cpu page => state.waiting cpu = false ∧ page ∈ state.owned

/-- The page lists are well formed, and what is handed out is on the used list. -/
structure SmpSound (state : Smp ι) (free used : List Nat) : Prop
    extends Pool state.frames free used where
  ownedUsed : ∀ page ∈ state.owned, ∃ i ∈ used, page = .elem i
  ownedDistinct : state.owned.Nodup

/-- No processor is inside `page_alloc`. -/
def Smp.WellFormed (state : Smp ι) : Prop :=
  (∀ cpu, state.waiting cpu = false) ∧ ∃ free used, SmpSound state free used

/-- The states of the interleavings all of whose steps meet `condition`. -/
def SmpReaches (condition : Smp ι → SmpCall ι → Prop) : Smp ι → Prop :=
  Reachable Smp.WellFormed fun state call state' =>
    state.Allows call ∧ condition state call ∧ state' = state.step call

theorem SmpReaches.step {condition : Smp ι → SmpCall ι → Prop} {state : Smp ι}
    (before : SmpReaches condition state) (call : SmpCall ι) (allowed : state.Allows call)
    (met : condition state call) : SmpReaches condition (state.step call) :=
  Reachable.step state call _ before ⟨allowed, met, rfl⟩

/-- The allocator as one atomic operation a call: the free pages before, the step, what it
returns, and the free pages after. -/
inductive AtomicStep : List Nat → SmpCall ι → Option PagePtr → List Nat → Prop where
  | null (cpu : ι) : AtomicStep [] (.test cpu) (some .null) []
  | pass (cpu : ι) (i : Nat) (rest : List Nat) : AtomicStep (i :: rest) (.test cpu) none (i :: rest)
  | take (cpu : ι) (i : Nat) (rest : List Nat) :
      AtomicStep (i :: rest) (.take cpu) (some (.elem i)) rest
  | free (cpu : ι) (i : Nat) (free : List Nat) :
      AtomicStep free (.free cpu (.elem i)) none (free ++ [i])

/-- A step acts like the atomic one, and a page it returns is a page of the array that was free
and that nobody has. -/
structure StepRight (state : Smp ι) (call : SmpCall ι) : Prop where
  atomic : ∃ free free', Ring state.frames.heap (.head .free) (free.map pagesOf) ∧
    Ring (state.step call).frames.heap (.head .free) (free'.map pagesOf) ∧
    AtomicStep free call (state.result call) free'
  returned : ∀ page, state.result call = some page → page = .null ∨
    ∃ i, page = .elem i ∧ i < state.frames.numpages.toNat ∧ OnFree state.frames i ∧
      page ∉ state.owned

/-- The free list still has a page when the lock is taken. -/
def StillFilled (state : Smp ι) : SmpCall ι → Prop
  | .take _ => listEmpty state.frames.heap (.head .free) = false
  | _ => True

variable {state : Smp ι} {free used : List Nat}

omit [DecidableEq ι] in
private theorem SmpSound.listEmpty_iff (sound : SmpSound state free used) :
    listEmpty state.frames.heap (.head .free) = true ↔ free = [] := by
  unfold listEmpty
  rw [decide_eq_true_eq, sound.freeRing.next_head_eq_iff, List.map_eq_nil_iff]

private theorem SmpSound.step (sound : SmpSound state free used) (call : SmpCall ι)
    (allowed : state.Allows call) (filled : StillFilled state call) :
    ∃ free' used', SmpSound (state.step call) free' used' ∧
      AtomicStep free call (state.result call) free' := by
  cases call with
  | test cpu =>
    cases free with
    | nil =>
      have empty : listEmpty state.frames.heap (.head .free) = true := sound.listEmpty_iff.mpr rfl
      have same : state.step (.test cpu) = state := if_pos empty
      have result : state.result (.test cpu) = some .null := if_pos empty
      rw [same, result]
      exact ⟨[], used, sound, .null cpu⟩
    | cons i rest =>
      have nonempty : ¬listEmpty state.frames.heap (.head .free) = true := fun empty => by
        cases sound.listEmpty_iff.mp empty
      have next : state.step (.test cpu) =
          { state with waiting := Function.update state.waiting cpu true } := if_neg nonempty
      have result : state.result (.test cpu) = none := if_neg nonempty
      rw [next, result]
      exact ⟨i :: rest, used, ⟨sound.toPool, sound.ownedUsed, sound.ownedDistinct⟩, .pass cpu i rest⟩
  | take cpu =>
    cases free with
    | nil =>
      have empty : listEmpty state.frames.heap (.head .free) = true := sound.listEmpty_iff.mpr rfl
      rw [filled] at empty
      cases empty
    | cons i rest =>
      obtain ⟨taken, pool⟩ := sound.toPool.alloc
      rw [pageAlloc_eq_takeFirst, filled, if_neg (by decide)] at taken
      have next : state.step (.take cpu) =
          { frames := state.frames.allocated i
            waiting := Function.update state.waiting cpu false
            owned := .elem i :: state.owned } := by
        unfold Smp.step
        rw [taken]
      have result : state.result (.take cpu) = some (.elem i) := by
        unfold Smp.result
        rw [taken]
      rw [next, result]
      have distinct := ownedDistinct_cons sound.ownedUsed sound.ownedDistinct
        (sound.apart List.mem_cons_self)
      exact ⟨rest, i :: used, ⟨pool, ownedUsed_cons sound.ownedUsed, distinct⟩, .take cpu i rest⟩
  | free cpu page =>
    obtain ⟨i, inUsed, rfl⟩ := sound.ownedUsed page allowed.2
    have stillUsed := ownedUsed_erase (i := i) sound.ownedUsed sound.ownedDistinct
    exact ⟨_, _, ⟨sound.toPool.release inUsed, stillUsed, sound.ownedDistinct.erase _⟩,
      .free cpu i free⟩

theorem smpReaches_sound (reached : SmpReaches StillFilled state) :
    ∃ free used, SmpSound state free used := by
  apply reached.invariant fun state => ∃ free used, SmpSound state free used
  · rintro state ⟨_, sound⟩
    exact sound
  · rintro state call _ ⟨free, used, sound⟩ ⟨allowed, filled, rfl⟩
    obtain ⟨free', used', next, _⟩ := sound.step call allowed filled
    exact ⟨free', used', next⟩

/-- Two processors and one free page. -/
def lastPage : Smp Bool where
  frames := (pageMarkRange 0 0xFFF pFree smallSession.frames).2
  waiting := fun _ => false
  owned := []

private theorem lastPage_reached (condition : Smp Bool → SmpCall Bool → Prop) :
    SmpReaches condition lastPage := by
  have fresh : Pool smallSession.frames [] [] := (pageInit_fresh 0x4000 0x1000 blank_static).pool
  have lone : smallSession.frames.heap.SelfLinked (pagesOf 0) :=
    (pageInit_fresh 0x4000 0x1000 blank_static).lists.lone 0 (by decide) (by simp) (by simp)
  obtain ⟨pool, _⟩ := fresh.mark pFree (show 0 < smallSession.frames.numpages.toNat by decide)
    (Or.inr (Or.inr lone)) (by decide)
  have one : lastPage.frames = markPage pFree smallSession.frames 0 := by
    change (pageMarkRange 0 0xFFF pFree smallSession.frames).2 = _
    rw [pageMarkRange_of_marks ⟨by decide, by decide⟩]
    rfl
  rw [← one] at pool
  refine Reachable.start _ ⟨fun _ => rfl, _, _, pool, ?_, List.nodup_nil⟩
  intro page member
  cases member

/-- Every step of an interleaving in which no processor finds the list empty behind the lock is
right, for any number of processors. -/
theorem stepRight_of_reaches (state : Smp ι) (call : SmpCall ι)
    (reached : SmpReaches StillFilled state) (allowed : state.Allows call)
    (filled : StillFilled state call) : StepRight state call := by
  obtain ⟨free, used, sound⟩ := smpReaches_sound reached
  obtain ⟨free', used', next, atomic⟩ := sound.step call allowed filled
  refine ⟨⟨free, free', sound.freeRing, next.freeRing, atomic⟩, ?_⟩
  intro page returned
  rw [returned] at atomic
  cases atomic with
  | null cpu => exact Or.inl rfl
  | take cpu i rest =>
    have onFree : OnFree state.frames i := by
      unfold OnFree
      rw [sound.freeRing.follows_iff, mem_map_pagesOf]
      exact List.mem_cons_self
    refine Or.inr ⟨i, rfl, sound.bounded i (Or.inl List.mem_cons_self), onFree, ?_⟩
    intro owned
    obtain ⟨j, inUsed, same⟩ := sound.ownedUsed _ owned
    injection same with same
    exact sound.apart List.mem_cons_self (same ▸ inUsed)

/-- One processor takes the page the other one leaves alone. -/
theorem stepRight_lastPage : StepRight (lastPage.step (.test false)) (.take false) := by
  refine stepRight_of_reaches _ _ ((lastPage_reached StillFilled).step (.test false) rfl trivial) ?_ ?_
  · change (lastPage.step (.test false)).waiting false = true
    decide
  · change listEmpty (lastPage.step (.test false)).frames.heap (.head .free) = false
    decide

/-- Both processors see the last page; the second one takes the list head for a page. -/
theorem last_page_taken_twice :
    ¬∀ (state : Smp Bool) (call : SmpCall Bool), SmpReaches (fun _ _ => True) state →
      state.Allows call → StepRight state call := by
  intro always
  have reached := (((lastPage_reached fun _ _ => True).step (.test false) rfl trivial).step (.test true)
    (by change (lastPage.step (.test false)).waiting true = false; decide) trivial).step (.take false)
    (by change ((lastPage.step (.test false)).step (.test true)).waiting false = true; decide) trivial
  have right := always _ (.take true) reached (by
    change (((lastPage.step (.test false)).step (.test true)).step (.take false)).waiting true = true
    decide)
  rcases right.returned (.overHead .free) (by decide) with isNull | ⟨i, isElem, _⟩
  · cases isNull
  · cases isElem

end Osdev64
