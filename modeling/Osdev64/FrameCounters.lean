/-
The page counters over whole runs.

Every operation counts the pages it puts on a list, and only `page_alloc` and
`page_free` count the pages they take off one.  The counters therefore stay
exact as long as `page_mark_range` and `mmu_init` touch pages that are on
neither list.
-/

import Osdev64.FrameRuns
import Osdev64.Mmu
import Mathlib.Data.List.Perm.Subperm

namespace Osdev64

open PointerRing Word64 Runs

inductive CounterCall where
  | mark (start stop : Word) (flags : BitVec 32)
  | alloc
  | free (page : PagePtr)
  | init (cr3 : Word)

def Frames.call (frames : Frames) : CounterCall → Frames
  | .mark start stop flags => (pageMarkRange start stop flags frames).2
  | .alloc => (pageAlloc frames).2
  | .free page => pageFree page frames
  | .init cr3 => (reservePml4 cr3 frames).2

/-- Only pages on the used list are freed. -/
def Frames.Admits (frames : Frames) : CounterCall → Prop
  | .free page => frames.heap.Follows (.head .used) page.pagesNode
  | _ => True

/-- The states of the runs from `page_init` all of whose calls meet `condition`. -/
def CountsReach (condition : Frames → CounterCall → Prop) : Frames → Prop :=
  Reachable
    (fun frames => ∃ (memory table : Word) (before : Frames), before.Static ∧
      frames = pageInit memory table before)
    fun frames call frames' => frames.Admits call ∧ condition frames call ∧
      frames' = frames.call call

theorem CountsReach.step {condition : Frames → CounterCall → Prop} {frames : Frames}
    (before : CountsReach condition frames) (call : CounterCall) (admitted : frames.Admits call)
    (met : condition frames call) : CountsReach condition (frames.call call) :=
  Reachable.step frames call _ before ⟨admitted, met, rfl⟩

/-- Both counters are the lengths of the lists they count. -/
def CountersExact (frames : Frames) : Prop :=
  ∃ free used, PageRings frames.heap free used ∧
    frames.numFreePages.toNat = free.length ∧ frames.numUsedPages.toNat = used.length

/-- The page is on neither list. -/
def Unlisted (frames : Frames) (i : Nat) : Prop := ¬OnFree frames i ∧ ¬OnUsed frames i

/-- Marking and reserving stay inside the page array and off both lists. -/
def TouchesUnlisted (frames : Frames) : CounterCall → Prop
  | .mark start stop flags => Marks start stop flags →
      (markBounds start stop).2 ≤ frames.numpages.toNat ∧
      ∀ i, InRange frames start stop i → Unlisted frames i
  | .init cr3 => cr3.toNat / 4096 < frames.numpages.toNat ∧ Unlisted frames (cr3.toNat / 4096)
  | _ => True

structure Counted (frames : Frames) (free used lru : List Nat) : Prop
    extends Tidy frames free used lru where
  numFree : frames.numFreePages = BitVec.ofNat 64 free.length
  numUsed : frames.numUsedPages = BitVec.ofNat 64 used.length

variable {frames : Frames} {free used lru : List Nat}

theorem Counted.unlisted_iff (counted : Counted frames free used lru) (i : Nat) :
    Unlisted frames i ↔ i ∉ free ∧ i ∉ used := by
  unfold Unlisted
  rw [onFree_iff counted.toRings, onUsed_iff counted.toRings]

private theorem length_le_numpages {items : List Nat} (distinct : items.Nodup)
    (bounded : ∀ i ∈ items, i < frames.numpages.toNat) :
    items.length ≤ frames.numpages.toNat := by
  have inside : items ⊆ List.range frames.numpages.toNat := by
    intro i member
    exact List.mem_range.mpr (bounded i member)
  have shorter := (distinct.subperm inside).length_le
  rwa [List.length_range] at shorter

theorem Counted.exact (counted : Counted frames free used lru) : CountersExact frames := by
  have freeBound := length_le_numpages counted.free_nodup
    fun i member => counted.bounded i (Or.inl member)
  have usedBound := length_le_numpages counted.used_nodup
    fun i member => counted.bounded i (Or.inr member)
  have room := frames.numpages.isLt
  refine ⟨free, used, counted.toPageRings, ?_, ?_⟩
  · rw [counted.numFree, BitVec.toNat_ofNat]
    omega
  · rw [counted.numUsed, BitVec.toNat_ofNat]
    omega

private theorem without_of_unlisted {items gone : List Nat} (apart : ∀ i ∈ gone, i ∉ items) :
    without items gone = items := by
  apply List.filter_eq_self.mpr
  intro i member
  have notGone : i ∉ gone := fun inGone => apart i inGone member
  simpa using notGone

private theorem Counted.mark {start stop : Word} {flags : BitVec 32}
    (counted : Counted frames free used lru)
    (touches : TouchesUnlisted frames (.mark start stop flags)) :
    ∃ free' used' lru', Counted (frames.call (.mark start stop flags)) free' used' lru' := by
  by_cases marks : Marks start stop flags
  · obtain ⟨inside, pages⟩ := touches marks
    have outside : ∀ i, InRange frames start stop i → i ∉ free ∧ i ∉ used := fun i range =>
      (counted.unlisted_iff i).mp (pages i range)
    cases kind : marksUsed flags with
    | true =>
      have intact : ∀ i, InRange frames start stop i → LruIntact frames i := by
        intro i range
        obtain ⟨notFree, notUsed⟩ := outside i range
        have below : i < frames.numpages.toNat := Nat.lt_of_lt_of_le range.2.1 inside
        exact Or.inr (counted.lruLone i below notFree notUsed)
      obtain ⟨gone, range, _, tidy, marked⟩ :=
        counted.toTidy.markUsed kind marks inside intact
      refine ⟨_, _, _, tidy, ?_, ?_⟩
      · have kept : without free gone = free := without_of_unlisted fun i member =>
          (outside i ((range i).mp member)).1
        change (pageMarkRange start stop flags frames).2.numFreePages = _
        rw [marked.freeCount, kept, counted.numFree, kind]
        simp
      · have kept : without used gone = used := without_of_unlisted fun i member =>
          (outside i ((range i).mp member)).2
        change (pageMarkRange start stop flags frames).2.numUsedPages = _
        rw [marked.usedCount, kept, counted.numUsed, kind, List.length_append, BitVec.ofNat_add]
        rfl
    | false =>
      have notOnUsed : ∀ i, InRange frames start stop i → ¬OnUsed frames i := fun i range =>
        (pages i range).2
      obtain ⟨gone, range, _, tidy, marked⟩ :=
        counted.toTidy.markFree kind marks inside notOnUsed
      refine ⟨_, _, _, tidy, ?_, ?_⟩
      · have kept : without free gone = free := without_of_unlisted fun i member =>
          (outside i ((range i).mp member)).1
        change (pageMarkRange start stop flags frames).2.numFreePages = _
        rw [marked.freeCount, kept, counted.numFree, kind, List.length_append, BitVec.ofNat_add]
        rfl
      · change (pageMarkRange start stop flags frames).2.numUsedPages = _
        rw [marked.usedCount, counted.numUsed, kind]
        simp
  · refine ⟨free, used, lru, ?_⟩
    simp only [Frames.call, pageMarkRange_of_not_marks marks]
    exact counted

private theorem Counted.alloc (counted : Counted frames free used lru) :
    ∃ free' used' lru', Counted (frames.call .alloc) free' used' lru' := by
  cases free with
  | nil =>
    refine ⟨[], used, lru, ?_⟩
    simp only [Frames.call, pageAlloc_nil counted.freeRing]
    exact counted
  | cons i rest =>
    simp only [Frames.call, pageAlloc_cons counted.freeRing]
    refine ⟨_, _, _, counted.toTidy.alloc, ?_, ?_⟩
    · change frames.numFreePages - 1 = _
      rw [counted.numFree, List.length_cons, BitVec.ofNat_add]
      exact BitVec.add_sub_cancel _ _
    · change frames.numUsedPages + 1 = _
      rw [counted.numUsed, List.length_cons, BitVec.ofNat_add]
      rfl

private theorem Counted.giveBack {page : PagePtr} (counted : Counted frames free used lru)
    (onUsed : frames.heap.Follows (.head .used) page.pagesNode) :
    ∃ free' used' lru', Counted (frames.call (.free page)) free' used' lru' := by
  have member := (counted.usedRing.follows_iff).mp onUsed
  obtain ⟨i, inUsed, same⟩ := List.mem_map.mp member
  have pageEq : page = .elem i := by
    cases page with
    | elem j =>
      injection same with same
      rw [same]
    | null => cases same
    | stack slot => cases same
    | overHead list => cases same
    | overLru other => cases same
  subst pageEq
  refine ⟨_, _, _, counted.toTidy.release inUsed, ?_, ?_⟩
  · change frames.numFreePages + 1 = _
    rw [counted.numFree, List.length_append, BitVec.ofNat_add]
    rfl
  · change frames.numUsedPages - 1 = _
    have positive : 0 < used.length := List.length_pos_of_mem inUsed
    have length : used.length = (used.erase i).length + 1 := by
      rw [List.length_erase_of_mem inUsed]
      omega
    rw [counted.numUsed, length, BitVec.ofNat_add]
    exact BitVec.add_sub_cancel _ _

private theorem Counted.reserve {cr3 : Word} (counted : Counted frames free used lru)
    (touches : TouchesUnlisted frames (.init cr3)) :
    Counted (frames.call (.init cr3)) free used lru := by
  obtain ⟨inside, unlisted⟩ := touches
  obtain ⟨notFree, notUsed⟩ := (counted.unlisted_iff _).mp unlisted
  have pagesLone := counted.lone _ inside notFree notUsed
  have lruLone := counted.lruLone _ inside notFree notUsed
  have sameHeap : (frames.call (.init cr3)).heap = frames.heap := by
    simp only [Frames.call, reservePml4, pageRequest_of_lt inside, Frames.setPage]
    change listDel (listDel frames.heap (pagesOf _)) (lruOf _) = frames.heap
    rw [listDel_of_selfLinked pagesLone, listDel_of_selfLinked lruLone]
  refine ⟨⟨⟨?_, counted.bounded, ?_⟩, counted.lruUsed, ?_⟩, counted.numFree, counted.numUsed⟩
  · rw [sameHeap]
    exact counted.toRings
  · rw [sameHeap]
    exact counted.lone
  · rw [sameHeap]
    exact counted.lruLone

theorem countsReach_counted (reached : CountsReach TouchesUnlisted frames) :
    ∃ free used lru, Counted frames free used lru := by
  apply reached.invariant fun frames => ∃ free used lru, Counted frames free used lru
  · rintro _ ⟨memory, table, before, static, rfl⟩
    have fresh := pageInit_fresh memory table static
    exact ⟨[], [], [], fresh.tidy, fresh.numFree, fresh.numUsed⟩
  · rintro frames call _ ⟨free, used, lru, counted⟩ ⟨admitted, met, rfl⟩
    cases call with
    | mark start stop flags => exact counted.mark met
    | alloc => exact counted.alloc
    | free page => exact counted.giveBack admitted
    | init cr3 => exact ⟨free, used, lru, counted.reserve met⟩

/-- The counters are exact in every run that marks and reserves unlisted pages only. -/
theorem countersExact_of_reach (frames : Frames) (reached : CountsReach TouchesUnlisted frames) :
    CountersExact frames := by
  obtain ⟨free, used, lru, counted⟩ := countsReach_counted reached
  exact counted.exact

private theorem counted_small : Counted smallSession.frames [] [] [] := by
  have fresh := pageInit_fresh 0x4000 0x1000 blank_static
  exact ⟨fresh.tidy, fresh.numFree, fresh.numUsed⟩

private theorem small_reached (condition : Frames → CounterCall → Prop) :
    CountsReach condition smallSession.frames :=
  Reachable.start _ ⟨0x4000, 0x1000, Frames.blank, blank_static, rfl⟩

/-- Page 1 is reserved, page 0 put on the free list and handed out. -/
theorem countersExact_small :
    CountersExact (((smallSession.frames.call (.init 0x1000)).call (.mark 0 0xFFF pFree)).call
      .alloc) := by
  have reserves : TouchesUnlisted smallSession.frames (.init 0x1000) :=
    ⟨by decide, (counted_small.unlisted_iff _).mpr ⟨List.not_mem_nil, List.not_mem_nil⟩⟩
  have reserved := counted_small.reserve reserves
  have marks : TouchesUnlisted (smallSession.frames.call (.init 0x1000)) (.mark 0 0xFFF pFree) := by
    intro _
    refine ⟨by decide, ?_⟩
    intro i _
    exact (reserved.unlisted_iff i).mpr ⟨List.not_mem_nil, List.not_mem_nil⟩
  have first := (small_reached TouchesUnlisted).step (.init 0x1000) trivial reserves
  have second := first.step (.mark 0 0xFFF pFree) trivial marks
  exact countersExact_of_reach _ (second.step .alloc trivial trivial)

/-- Marking a free page used, as boot does with the kernel's own pages, leaves it
counted as free. -/
theorem free_page_marked_used_counts_twice :
    ¬∀ frames, CountsReach (fun _ _ => True) frames → CountersExact frames := by
  intro always
  have first := (small_reached fun _ _ => True).step (.mark 0 0xFFF pFree) trivial trivial
  have second := first.step (.mark 0 0xFFF pUsed) trivial trivial
  obtain ⟨free, used, rings, freeCount, _⟩ := always _ second
  have noFree : free = [] :=
    List.map_eq_nil_iff.mp (rings.freeRing.next_head_eq_iff.mp (by decide))
  rw [noFree] at freeCount
  exact absurd freeCount (by decide)

end Osdev64
