/-
`page_alloc` and `page_free` as a first-in first-out queue.

The queue of free pages and the used pages in the order of their allocation are
the abstract state.  The pointer heap represents them whatever the lru nodes of
free pages hold, because `page_alloc` overwrites the node it appends.
-/

import Osdev64.FrameRuns

namespace Osdev64

open PointerRing Word64

inductive QueueCall where
  | alloc
  | free (i : Nat)
  deriving DecidableEq

/-- The abstract allocator. -/
structure Fifo where
  queue : List Nat
  inUse : List Nat

def Fifo.step (fifo : Fifo) : QueueCall → Fifo
  | .alloc =>
    match fifo.queue with
    | [] => fifo
    | i :: rest => { queue := rest, inUse := fifo.inUse ++ [i] }
  | .free i => { queue := fifo.queue ++ [i], inUse := fifo.inUse.erase i }

def Fifo.run (fifo : Fifo) (calls : List QueueCall) : Fifo :=
  calls.foldl Fifo.step fifo

def Frames.step (frames : Frames) : QueueCall → Frames
  | .alloc => (pageAlloc frames).2
  | .free i => pageFree (.elem i) frames

def Frames.run (frames : Frames) (calls : List QueueCall) : Frames :=
  calls.foldl Frames.step frames

/-- Only pages on the used list are freed. -/
def FreesUsed : Frames → List QueueCall → Prop
  | _, [] => True
  | frames, .alloc :: rest => FreesUsed (frames.step .alloc) rest
  | frames, .free i :: rest => OnUsed frames i ∧ FreesUsed (frames.step (.free i)) rest

/-- The rings read forward are the queue and the used pages in allocation order. -/
structure Represents (frames : Frames) (fifo : Fifo) (used : List Nat) : Prop where
  rings : Rings frames.heap fifo.queue used fifo.inUse
  members : ∀ i, i ∈ fifo.inUse ↔ i ∈ used

variable {frames : Frames} {fifo : Fifo} {used : List Nat}

/-! ### One call -/

theorem Represents.alloc_nil (represents : Represents frames fifo used)
    (empty : fifo.queue = []) : pageAlloc frames = (.null, frames) := by
  have ring := represents.rings.freeRing
  rw [empty] at ring
  exact pageAlloc_nil ring

theorem Represents.alloc_cons {i : Nat} {rest : List Nat}
    (represents : Represents frames fifo used) (first : fifo.queue = i :: rest) :
    pageAlloc frames = (.elem i, frames.allocated i) := by
  have ring := represents.rings.freeRing
  rw [first] at ring
  exact pageAlloc_cons ring

theorem Represents.step (represents : Represents frames fifo used) (call : QueueCall)
    (valid : FreesUsed frames [call]) :
    ∃ used', Represents (frames.step call) (fifo.step call) used' ∧
      ∀ i, i ∈ (fifo.step call).queue ∨ i ∈ used' ↔ i ∈ fifo.queue ∨ i ∈ used := by
  cases call with
  | alloc =>
    cases queueEq : fifo.queue with
    | nil =>
      refine ⟨used, ?_, ?_⟩
      · simpa only [Frames.step, Fifo.step, queueEq, represents.alloc_nil queueEq]
          using represents
      · simp [Fifo.step, queueEq]
    | cons i rest =>
      have rings := represents.rings
      rw [queueEq] at rings
      have notUsed : i ∉ used := rings.apart List.mem_cons_self
      have notInUse : i ∉ fifo.inUse := fun inUse => notUsed ((represents.members i).mp inUse)
      have moved := (rings.alloc notInUse).1
      refine ⟨i :: used, ⟨?_, ?_⟩, ?_⟩
      · simp only [Frames.step, Fifo.step, queueEq, represents.alloc_cons queueEq]
        exact moved
      · intro j
        simp only [Fifo.step, queueEq, List.mem_append, List.mem_cons, List.not_mem_nil,
          or_false, represents.members j]
        tauto
      · intro j
        simp only [Fifo.step, queueEq, List.mem_cons]
        tauto
  | free i =>
    have inUsed : i ∈ used := (onUsed_iff represents.rings i).mp valid.1
    have moved := (represents.rings.release inUsed ((represents.members i).mpr inUsed)).1
    refine ⟨used.erase i, ⟨moved, ?_⟩, ?_⟩
    · intro j
      change j ∈ fifo.inUse.erase i ↔ j ∈ used.erase i
      rw [represents.rings.lru_nodup.mem_erase_iff, represents.rings.used_nodup.mem_erase_iff,
        represents.members j]
    · intro j
      change j ∈ fifo.queue ++ [i] ∨ j ∈ used.erase i ↔ _
      rw [represents.rings.used_nodup.mem_erase_iff, List.mem_append, List.mem_singleton]
      by_cases same : j = i
      · subst same
        tauto
      · tauto

/-! ### Whole runs -/

theorem freesUsed_cons {call : QueueCall} {rest : List QueueCall} :
    FreesUsed frames (call :: rest) ↔
      FreesUsed frames [call] ∧ FreesUsed (frames.step call) rest := by
  cases call with
  | alloc => simp [FreesUsed]
  | free i => simp [FreesUsed]

theorem freesUsed_append {first second : List QueueCall} :
    FreesUsed frames (first ++ second) ↔
      FreesUsed frames first ∧ FreesUsed (frames.run first) second := by
  induction first generalizing frames with
  | nil => simp [FreesUsed, Frames.run]
  | cons call rest ih =>
    rw [List.cons_append, freesUsed_cons, ih]
    have split : FreesUsed frames (call :: rest) ↔ _ := freesUsed_cons
    rw [split]
    simp only [Frames.run, List.foldl_cons]
    tauto

theorem Represents.run (represents : Represents frames fifo used) (calls : List QueueCall)
    (valid : FreesUsed frames calls) :
    ∃ used', Represents (frames.run calls) (fifo.run calls) used' ∧
      ∀ i, i ∈ (fifo.run calls).queue ∨ i ∈ used' ↔ i ∈ fifo.queue ∨ i ∈ used := by
  induction calls generalizing frames fifo used with
  | nil => exact ⟨used, represents, fun _ => Iff.rfl⟩
  | cons call rest ih =>
    obtain ⟨first, later⟩ := freesUsed_cons.mp valid
    obtain ⟨middle, stepped, same⟩ := represents.step call first
    obtain ⟨last, final, same'⟩ := ih stepped later
    exact ⟨last, final, fun i => (same' i).trans (same i)⟩

theorem Represents.stays_used (represents : Represents frames fifo used)
    (calls : List QueueCall) (valid : FreesUsed frames calls) {i : Nat} (inUse : i ∈ fifo.inUse)
    (notFreed : QueueCall.free i ∉ calls) : i ∈ (fifo.run calls).inUse := by
  induction calls generalizing frames fifo used with
  | nil => exact inUse
  | cons call rest ih =>
    obtain ⟨first, later⟩ := freesUsed_cons.mp valid
    obtain ⟨middle, stepped, _⟩ := represents.step call first
    refine ih stepped later ?_ (fun member => notFreed (List.mem_cons_of_mem call member))
    cases call with
    | alloc =>
      simp only [Fifo.step]
      split
      · exact inUse
      · exact List.mem_append_left _ inUse
    | free j =>
      have different : i ≠ j := by
        rintro rfl
        exact notFreed List.mem_cons_self
      exact (List.mem_erase_of_ne different).mpr inUse

private theorem frames_run_append (first second : List QueueCall) :
    frames.run (first ++ second) = (frames.run first).run second :=
  List.foldl_append

theorem Represents.freed_between (represents : Represents frames fifo used)
    (before middle : List QueueCall) (valid : FreesUsed frames (before ++ .alloc :: middle))
    {i : Nat} (first : (pageAlloc (frames.run before)).1 = .elem i)
    (again : (pageAlloc (frames.run (before ++ .alloc :: middle))).1 = .elem i) :
    QueueCall.free i ∈ middle := by
  obtain ⟨validBefore, validRest⟩ := freesUsed_append.mp valid
  obtain ⟨validAlloc, validMiddle⟩ := freesUsed_cons.mp validRest
  obtain ⟨used₁, atFirst, _⟩ := represents.run before validBefore
  obtain ⟨used₂, afterFirst, _⟩ := atFirst.step .alloc validAlloc
  by_contra notFreed
  have inUse : i ∈ ((fifo.run before).step .alloc).inUse := by
    cases queueEq : (fifo.run before).queue with
    | nil =>
      rw [atFirst.alloc_nil queueEq] at first
      cases first
    | cons j rest =>
      rw [atFirst.alloc_cons queueEq] at first
      injection first with same
      subst same
      simp [Fifo.step, queueEq]
  have still := afterFirst.stays_used middle validMiddle inUse notFreed
  obtain ⟨used₃, atAgain, _⟩ := afterFirst.run middle validMiddle
  have runEq : frames.run (before ++ .alloc :: middle) =
      ((frames.run before).step .alloc).run middle := by
    rw [frames_run_append]
    rfl
  rw [runEq] at again
  cases queueEq : (((fifo.run before).step .alloc).run middle).queue with
  | nil =>
    rw [atAgain.alloc_nil queueEq] at again
    cases again
  | cons j rest =>
    rw [atAgain.alloc_cons queueEq] at again
    injection again with same
    subst same
    have inQueue : j ∈ (((fifo.run before).step .alloc).run middle).queue := by
      rw [queueEq]
      exact List.mem_cons_self
    exact atAgain.rings.apart inQueue ((atAgain.members j).mp still)

/-- From any state whose rings are well formed and whose lru ring holds exactly
the used pages, every run of `page_alloc` and `page_free` is a run of the queue. -/
theorem pageAlloc_pageFree_refine_fifo (frames : Frames) (free used lru : List Nat)
    (rings : Rings frames.heap free used lru) (members : ∀ i, i ∈ lru ↔ i ∈ used)
    (calls : List QueueCall) (valid : FreesUsed frames calls) :
    -- the free ring read forward is the queue, the lru ring the used pages in
    -- allocation order, and no page is lost
    (∃ used', Rings (frames.run calls).heap (Fifo.run ⟨free, lru⟩ calls).queue used'
        (Fifo.run ⟨free, lru⟩ calls).inUse ∧
      (∀ i, i ∈ (Fifo.run ⟨free, lru⟩ calls).inUse ↔ i ∈ used') ∧
      ∀ i, i ∈ (Fifo.run ⟨free, lru⟩ calls).queue ∨ i ∈ used' ↔ i ∈ free ∨ i ∈ used) ∧
    -- the next allocation pops the queue, and fails exactly on the empty one
    ((Fifo.run ⟨free, lru⟩ calls).queue = [] →
      pageAlloc (frames.run calls) = (.null, frames.run calls)) ∧
    (∀ i rest, (Fifo.run ⟨free, lru⟩ calls).queue = i :: rest →
      (pageAlloc (frames.run calls)).1 = .elem i) ∧
    -- no page is handed out twice without being freed in between
    (∀ before middle after i, calls = before ++ .alloc :: (middle ++ .alloc :: after) →
      (pageAlloc (frames.run before)).1 = .elem i →
      (pageAlloc (frames.run (before ++ .alloc :: middle))).1 = .elem i →
      QueueCall.free i ∈ middle) := by
  have start : Represents frames ⟨free, lru⟩ used := ⟨rings, members⟩
  obtain ⟨used', final, same⟩ := start.run calls valid
  refine ⟨⟨used', final.rings, final.members, same⟩, ?_, ?_, ?_⟩
  · exact final.alloc_nil
  · intro i rest queueEq
    rw [final.alloc_cons queueEq]
  · rintro before middle after i rfl first again
    have prefixValid : FreesUsed frames (before ++ .alloc :: middle) := by
      have whole : before ++ QueueCall.alloc :: (middle ++ .alloc :: after) =
          (before ++ .alloc :: middle) ++ (.alloc :: after) := by simp
      rw [whole] at valid
      exact (freesUsed_append.mp valid).1
    exact start.freed_between before middle prefixValid first again

/-- Three pages, two of them handed out and the first given back: it is last in
the queue, and the other one is in use. -/
theorem pageAlloc_pageFree_three_pages :
    let frames := (smallSession.step (.mark 0 0x3FFF pFree)).frames
    (pageAlloc (frames.run [.alloc, .alloc, .free 0])).1 = .elem 3 ∧
      ∃ used, Rings (frames.run [.alloc, .alloc, .free 0]).heap [3, 0] used [1] := by
  have rings : Rings (smallSession.step (.mark 0 0x3FFF pFree)).frames.heap [0, 1, 3] [] [] :=
    ⟨⟨⟨by decide, by decide⟩, ⟨by decide, by decide⟩, List.disjoint_nil_right _⟩, ⟨by decide, by decide⟩⟩
  have onUsed : OnUsed ((smallSession.step (.mark 0 0x3FFF pFree)).frames.run
      [.alloc, .alloc]) 0 := ⟨1, by decide, by decide⟩
  have refined := pageAlloc_pageFree_refine_fifo _ [0, 1, 3] [] [] rings (fun _ => Iff.rfl)
    [.alloc, .alloc, .free 0] ⟨onUsed, trivial⟩
  obtain ⟨⟨used, final, _⟩, _, pops, _⟩ := refined
  exact ⟨pops 3 [0] rfl, used, final⟩

end Osdev64
