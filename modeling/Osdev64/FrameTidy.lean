/-
Allocator states without stale nodes.

In a tidy state the lru ring holds exactly the used pages, and a page on
neither list is as `page_init` left it.  Marking pages used whose lru node is in
place, marking pages free that are not used, allocating, and freeing a used page
keep it so; the lemmas name the lists they leave.
-/

import Osdev64.FrameInit

namespace Osdev64

open PointerRing Word64

/-- The calls of `page_mark_range` that pass its argument checks. -/
def Marks (start stop : Word) (flags : BitVec 32) : Prop :=
  start ≤ stop ∧ acceptedFlags flags = true

/-- The pages a call of `page_mark_range` writes to. -/
def InRange (frames : Frames) (start stop : Word) (i : Nat) : Prop :=
  (markBounds start stop).1 ≤ i ∧ i < (markBounds start stop).2 ∧ frames.isOpen i = true

def OnUsed (frames : Frames) (i : Nat) : Prop :=
  frames.heap.Follows (.head .used) (pagesOf i)

def OnFree (frames : Frames) (i : Nat) : Prop :=
  frames.heap.Follows (.head .free) (pagesOf i)

/-- The lru node of `i` is on the lru list or still as `list_init` left it. -/
def LruIntact (frames : Frames) (i : Nat) : Prop :=
  frames.heap.Follows (.head .lru) (lruOf i) ∨ frames.heap.SelfLinked (lruOf i)

theorem pageMarkRange_of_marks {start stop : Word} {flags : BitVec 32} {frames : Frames}
    (marks : Marks start stop flags) :
    pageMarkRange start stop flags frames =
      (0, (List.range' (markBounds start stop).1
        ((markBounds start stop).2 - (markBounds start stop).1)).foldl (markPage flags) frames) := by
  obtain ⟨ordered, accepted⟩ := marks
  have accepted' : flags &&& (pUsed ||| pFree) ≠ pUsed ||| pFree ∧
      flags &&& (pUsed ||| pFree) ≠ 0 := by
    simpa only [acceptedFlags, decide_eq_true_eq] using accepted
  have ordered' : ¬start > stop := BitVec.not_lt.mpr ordered
  unfold pageMarkRange
  rw [if_neg ordered', if_neg accepted'.1, if_neg accepted'.2]

theorem pageMarkRange_of_not_marks {start stop : Word} {flags : BitVec 32} {frames : Frames}
    (rejected : ¬Marks start stop flags) :
    pageMarkRange start stop flags frames = (-1, frames) := by
  unfold pageMarkRange
  split
  · rfl
  · rename_i ordered
    split
    · rfl
    · rename_i notBoth
      split
      · rfl
      · rename_i notNone
        apply False.elim
        apply rejected
        refine ⟨BitVec.not_lt.mp ordered, ?_⟩
        simpa only [acceptedFlags, decide_eq_true_eq] using And.intro notBoth notNone

theorem pageMarkRange_numpages (low high : Word) (flags : BitVec 32) (frames : Frames) :
    (pageMarkRange low high flags frames).2.numpages = frames.numpages := by
  have loop : ∀ (indices : List Nat) (frames : Frames),
      (indices.foldl (markPage flags) frames).numpages = frames.numpages := by
    intro indices
    induction indices with
    | nil => exact fun _ => rfl
    | cons k rest ih =>
      intro frames
      rw [List.foldl_cons, ih, markPage_numpages]
  by_cases marks : Osdev64.Marks low high flags
  · rw [pageMarkRange_of_marks marks]
    exact loop _ frames
  · rw [pageMarkRange_of_not_marks marks]

variable {frames : Frames} {free used lru : List Nat}

theorem onUsed_iff (rings : Rings frames.heap free used lru) (i : Nat) :
    OnUsed frames i ↔ i ∈ used := by
  unfold OnUsed
  rw [rings.usedRing.follows_iff, mem_map_pagesOf]

theorem onFree_iff (rings : Rings frames.heap free used lru) (i : Nat) :
    OnFree frames i ↔ i ∈ free := by
  unfold OnFree
  rw [rings.freeRing.follows_iff, mem_map_pagesOf]

theorem lruIntact_iff (rings : Rings frames.heap free used lru) (i : Nat) :
    LruIntact frames i ↔ LruPlaced frames.heap lru i := by
  unfold LruIntact LruPlaced
  rw [rings.lruRing.follows_iff, mem_map_lruOf]

theorem mem_markedRange {start stop : Word} {i : Nat} :
    i ∈ frames.marked (List.range' (markBounds start stop).1
        ((markBounds start stop).2 - (markBounds start stop).1)) ↔
      InRange frames start stop i := by
  rw [mem_marked, List.mem_range'_1]
  unfold InRange
  constructor
  · rintro ⟨⟨low, high⟩, isOpen⟩
    exact ⟨low, by omega, isOpen⟩
  · rintro ⟨low, high, isOpen⟩
    exact ⟨⟨low, by omega⟩, isOpen⟩

theorem markRange_spec {start stop : Word} {flags : BitVec 32}
    (lists : Lists frames free used lru)
    (inside : (markBounds start stop).2 ≤ frames.numpages.toNat)
    (placed : marksUsed flags = true → ∀ i, InRange frames start stop i →
      LruPlaced frames.heap lru i) (marks : Marks start stop flags) :
    ∃ gone : List Nat, (∀ i, i ∈ gone ↔ InRange frames start stop i) ∧ gone.Nodup ∧
      Lists (pageMarkRange start stop flags frames).2 (freeAfter flags free gone)
        (usedAfter flags used gone) (lruAfter flags lru gone) ∧
      Marked flags gone lru frames (pageMarkRange start stop flags frames).2 := by
  rw [pageMarkRange_of_marks marks]
  refine ⟨_, fun i => mem_markedRange, ?_, ?_⟩
  · exact List.Nodup.filter _ List.nodup_range'
  · apply markLoop_spec _ List.nodup_range' _ lists
    · intro isUsed i member
      exact placed isUsed i (mem_markedRange.mp member)
    · intro i member
      rw [List.mem_range'_1] at member
      omega

/-! ### Tidy states -/

structure Tidy (frames : Frames) (free used lru : List Nat) : Prop
    extends Lists frames free used lru where
  lruUsed : ∀ i, i ∈ lru ↔ i ∈ used
  lruLone : ∀ i, i < frames.numpages.toNat → i ∉ free → i ∉ used →
    frames.heap.SelfLinked (lruOf i)

theorem Fresh.tidy {memory table : Word} (fresh : Fresh memory table frames) :
    Tidy frames [] [] [] := by
  refine ⟨fresh.lists, ?_, ?_⟩
  · simp
  · intro i below _ _
    exact fresh.lruLone i below

theorem Tidy.markUsed {start stop : Word} {flags : BitVec 32} (tidy : Tidy frames free used lru)
    (kind : marksUsed flags = true) (marks : Marks start stop flags)
    (inside : (markBounds start stop).2 ≤ frames.numpages.toNat)
    (intact : ∀ i, InRange frames start stop i → LruIntact frames i) :
    ∃ gone : List Nat, (∀ i, i ∈ gone ↔ InRange frames start stop i) ∧ gone.Nodup ∧
      Tidy (pageMarkRange start stop flags frames).2 (without free gone)
        (without used gone ++ gone) (without lru gone ++ gone) ∧
      Marked flags gone lru frames (pageMarkRange start stop flags frames).2 := by
  have placed : marksUsed flags = true → ∀ i, InRange frames start stop i →
      LruPlaced frames.heap lru i := fun _ i range =>
    (lruIntact_iff tidy.toRings i).mp (intact i range)
  obtain ⟨gone, range, distinct, lists, marked⟩ := markRange_spec tidy.toLists inside placed marks
  simp only [freeAfter, usedAfter, lruAfter, kind, if_true, List.append_nil] at lists
  refine ⟨gone, range, distinct, ⟨lists, ?_, ?_⟩, marked⟩
  · intro i
    simp only [List.mem_append, mem_without, tidy.lruUsed i]
  · intro i below notFree notUsed
    simp only [List.mem_append, mem_without, not_or, not_and, not_not] at notFree notUsed
    have notUsed' : i ∉ used := fun inUsed => notUsed.2 (notUsed.1 inUsed)
    have notFree' : i ∉ free := fun inFree => notUsed.2 (notFree inFree)
    have notLru : i ∉ lru := fun inLru => notUsed' ((tidy.lruUsed i).mp inLru)
    rw [marked.numpages] at below
    exact (marked.lruNode i notUsed.2 notLru).selfLinked
      (tidy.lruLone i below notFree' notUsed')

theorem Tidy.markFree {start stop : Word} {flags : BitVec 32} (tidy : Tidy frames free used lru)
    (kind : marksUsed flags = false) (marks : Marks start stop flags)
    (inside : (markBounds start stop).2 ≤ frames.numpages.toNat)
    (notOnUsed : ∀ i, InRange frames start stop i → ¬OnUsed frames i) :
    ∃ gone : List Nat, (∀ i, i ∈ gone ↔ InRange frames start stop i) ∧ gone.Nodup ∧
      Tidy (pageMarkRange start stop flags frames).2 (without free gone ++ gone) used lru ∧
      Marked flags gone lru frames (pageMarkRange start stop flags frames).2 := by
  have placed : marksUsed flags = true → ∀ i, InRange frames start stop i →
      LruPlaced frames.heap lru i := by
    intro isUsed
    rw [kind] at isUsed
    cases isUsed
  obtain ⟨gone, range, distinct, lists, marked⟩ := markRange_spec tidy.toLists inside placed marks
  have usedKept : without used gone = used := by
    apply List.filter_eq_self.mpr
    intro i inUsed
    have notGone : i ∉ gone := fun inGone =>
      notOnUsed i ((range i).mp inGone) ((onUsed_iff tidy.toRings i).mpr inUsed)
    simpa using notGone
  simp only [freeAfter, usedAfter, lruAfter, kind, Bool.false_eq_true, if_false,
    List.append_nil, usedKept] at lists
  refine ⟨gone, range, distinct, ⟨lists, tidy.lruUsed, ?_⟩, marked⟩
  intro i below notFree notUsed
  simp only [List.mem_append, mem_without, not_or, not_and, not_not] at notFree
  rw [marked.numpages] at below
  exact (marked.lruKept kind i).selfLinked
    (tidy.lruLone i below (fun inFree => notFree.2 (notFree.1 inFree)) notUsed)

theorem Tidy.alloc {i : Nat} {rest : List Nat} (tidy : Tidy frames (i :: rest) used lru) :
    Tidy (frames.allocated i) rest (i :: used) (lru ++ [i]) := by
  have notUsed : i ∉ used := tidy.apart List.mem_cons_self
  have notLru : i ∉ lru := fun inLru => notUsed ((tidy.lruUsed i).mp inLru)
  obtain ⟨lists, agrees⟩ := tidy.toLists.alloc notLru
  refine ⟨lists, ?_, ?_⟩
  · intro j
    simp only [List.mem_append, List.mem_cons, tidy.lruUsed j, List.not_mem_nil, or_false]
    tauto
  · intro j below notFree' notUsed'
    have different : j ≠ i := fun same => notUsed' (same ▸ List.mem_cons_self)
    have outside : j ∉ used := fun inUsed => notUsed' (List.mem_cons_of_mem i inUsed)
    have notLru' : j ∉ lru := fun inLru => outside ((tidy.lruUsed j).mp inLru)
    exact (agrees j different notLru').selfLinked
      (tidy.lruLone j below (by simp [different, notFree']) outside)

theorem Tidy.release {i : Nat} (tidy : Tidy frames free used lru) (inUsed : i ∈ used) :
    Tidy (pageFree (.elem i) frames) (free ++ [i]) (used.erase i) (lru.erase i) := by
  obtain ⟨lists, agrees⟩ := tidy.toLists.release inUsed ((tidy.lruUsed i).mpr inUsed)
  refine ⟨lists, ?_, ?_⟩
  · intro j
    rw [tidy.lru_nodup.mem_erase_iff, tidy.used_nodup.mem_erase_iff, tidy.lruUsed j]
  · intro j below notFree notUsed
    simp only [List.mem_append, List.mem_singleton, not_or] at notFree
    have outside : j ∉ used := fun member =>
      notUsed ((List.mem_erase_of_ne notFree.2).mpr member)
    have notLru : j ∉ lru := fun inLru => outside ((tidy.lruUsed j).mp inLru)
    exact (agrees j notFree.2 notLru).selfLinked
      (tidy.lruLone j below notFree.1 outside)

end Osdev64
