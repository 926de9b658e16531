/-
The lists of the allocator as sequences of page indices.

`Lists` is the representation invariant between two calls of `frame.c`.  The
loop of `page_mark_range` takes the pages it may touch off both lists and puts
them at the tail of the matching one, in address order; `page_alloc` pops the
free list; `page_free` appends to it.
-/

import Osdev64.FrameRings

namespace Osdev64

open PointerRing Word64

/-- The three rings, inside the page array, with every other page unlinked. -/
structure Lists (frames : Frames) (free used lru : List Nat) : Prop
    extends Rings frames.heap free used lru where
  bounded : ∀ i, i ∈ free ∨ i ∈ used → i < frames.numpages.toNat
  lone : ∀ i, i < frames.numpages.toNat → i ∉ free → i ∉ used →
    frames.heap.SelfLinked (pagesOf i)

/-- The pages `page_mark_range` may touch. -/
def Frames.isOpen (frames : Frames) (i : Nat) : Bool :=
  (frames.page (.elem i)).flags &&& protectedFlags = 0

/-- The pages of `indices` whose turn of the loop is not skipped. -/
def Frames.marked (frames : Frames) (indices : List Nat) : List Nat :=
  indices.filter frames.isOpen

def without (items gone : List Nat) : List Nat :=
  items.filter fun i => i ∉ gone

variable {frames frames' : Frames} {free used lru : List Nat} {i k : Nat} {flags : BitVec 32}

@[simp] theorem mem_without {items gone : List Nat} :
    i ∈ without items gone ↔ i ∈ items ∧ i ∉ gone := by
  simp [without]

theorem without_nil (items : List Nat) : without items [] = items := by
  simp [without]

theorem mem_marked {indices : List Nat} :
    i ∈ frames.marked indices ↔ i ∈ indices ∧ frames.isOpen i = true := by
  simp [Frames.marked]

theorem marked_cons_of_open {rest : List Nat} (isOpen : frames.isOpen k = true) :
    frames.marked (k :: rest) = k :: frames.marked rest :=
  List.filter_cons_of_pos isOpen

theorem marked_cons_of_closed {rest : List Nat} (closed : frames.isOpen k = false) :
    frames.marked (k :: rest) = frames.marked rest :=
  List.filter_cons_of_neg (Bool.not_eq_true _ ▸ closed)

theorem erase_eq_without (items : List Nat) (distinct : items.Nodup) (k : Nat) :
    items.erase k = without items [k] := by
  rw [distinct.erase_eq_filter]
  unfold without
  congr 1
  funext i
  by_cases same : i = k
  · simp [same]
  · simp [same]

private theorem without_cons (items gone : List Nat) (k : Nat) :
    without (without items [k]) gone = without items (k :: gone) := by
  unfold without
  rw [List.filter_filter]
  congr 1
  funext i
  by_cases same : i = k
  · simp [same]
  · simp [same]

private theorem without_append (items others gone : List Nat) :
    without (items ++ others) gone = without items gone ++ without others gone := by
  simp [without]

private theorem without_singleton (gone : List Nat) (absent : k ∉ gone) :
    without [k] gone = [k] := by
  simp [without, absent]

/-! ### One turn of the marking loop -/

theorem setFlags_page_of_ne (frames : Frames) {pointer other : PagePtr} (flags : Word)
    (different : other ≠ pointer) :
    (frames.setFlags pointer flags).page other = frames.page other := by
  simp [Frames.setFlags, Frames.setPage, Function.update_of_ne different]

theorem setFlags_page_elem (frames : Frames) (flags : Word) {i k : Nat} (different : i ≠ k) :
    (frames.setFlags (.elem k) flags).page (.elem i) = frames.page (.elem i) := by
  apply setFlags_page_of_ne
  intro same
  injection same with same
  exact different same

theorem markPage_of_not_open (closed : frames.isOpen k = false) :
    markPage flags frames k = frames := by
  unfold Frames.isOpen at closed
  unfold markPage
  rw [if_pos]
  simpa using closed

def marksUsed (flags : BitVec 32) : Bool := flags &&& pUsed ≠ 0

/-- The free list after the pages `gone` were marked. -/
def freeAfter (flags : BitVec 32) (free gone : List Nat) : List Nat :=
  without free gone ++ if marksUsed flags then [] else gone

def usedAfter (flags : BitVec 32) (used gone : List Nat) : List Nat :=
  without used gone ++ if marksUsed flags then gone else []

theorem mem_freeAfter {gone : List Nat} :
    i ∈ freeAfter flags free gone ↔
      (i ∈ free ∧ i ∉ gone) ∨ (marksUsed flags = false ∧ i ∈ gone) := by
  unfold freeAfter
  cases marksUsed flags with
  | true => simp
  | false => simp

theorem mem_usedAfter {gone : List Nat} :
    i ∈ usedAfter flags used gone ↔
      (i ∈ used ∧ i ∉ gone) ∨ (marksUsed flags = true ∧ i ∈ gone) := by
  unfold usedAfter
  cases marksUsed flags with
  | true => simp
  | false => simp

/-- Marking a page free leaves its lru node where it is. -/
def lruAfter (flags : BitVec 32) (lru gone : List Nat) : List Nat :=
  if marksUsed flags then without lru gone ++ gone else lru

/-- What marking the pages `gone` does besides moving them. -/
structure Marked (flags : BitVec 32) (gone lru : List Nat) (frames frames' : Frames) : Prop where
  numpages : frames'.numpages = frames.numpages
  parray : frames'.parray = frames.parray
  page : ∀ pointer, (∀ k ∈ gone, pointer ≠ .elem k) → frames'.page pointer = frames.page pointer
  markedPage : ∀ k ∈ gone,
    frames'.page (.elem k) = { frames.page (.elem k) with flags := flagWord flags }
  lruNode : ∀ j, j ∉ gone → j ∉ lru → Agrees frames.heap frames'.heap (lruOf j)
  lruKept : marksUsed flags = false → ∀ j, Agrees frames.heap frames'.heap (lruOf j)
  usedCount : frames'.numUsedPages =
    frames.numUsedPages + if marksUsed flags then BitVec.ofNat 64 gone.length else 0
  freeCount : frames'.numFreePages =
    frames.numFreePages + if marksUsed flags then 0 else BitVec.ofNat 64 gone.length

private theorem Lists.of_rings {free' used' lru' : List Nat} (lists : Lists frames free used lru)
    (rings : Rings frames'.heap free' used' lru')
    (numpages : frames'.numpages = frames.numpages)
    (untouched : Untouched frames.heap frames'.heap free used lru k)
    (inside : k < frames.numpages.toNat)
    (members : ∀ j, j ∈ free' ∨ j ∈ used' ↔ (j ∈ free ∨ j ∈ used) ∨ j = k) :
    Lists frames' free' used' lru' := by
  refine ⟨rings, ?_, ?_⟩
  · intro j member
    rw [numpages]
    rcases (members j).mp member with old | same
    · exact lists.bounded j old
    · exact same ▸ inside
  · intro j bound notFree notUsed
    have outside : ¬((j ∈ free ∨ j ∈ used) ∨ j = k) := by
      rw [← members j]
      tauto
    have different : j ≠ k := fun same => outside (Or.inr same)
    have notFree' : j ∉ free := fun member => outside (Or.inl (Or.inl member))
    have notUsed' : j ∉ used := fun member => outside (Or.inl (Or.inr member))
    rw [numpages] at bound
    exact (untouched.pages j different notFree' notUsed').selfLinked
      (lists.lone j bound notFree' notUsed')

theorem Lists.pagesPlaced (lists : Lists frames free used lru)
    (inside : k < frames.numpages.toNat) : PagesPlaced frames.heap free used k :=
  pagesPlaced_of_lone (lists.lone k inside)

theorem markPage_of_used (isOpen : frames.isOpen k = true) (isUsed : marksUsed flags = true) :
    markPage flags frames k =
      { frames.setFlags (.elem k) (flagWord flags) with
        heap := listMoveTail (listMoveTail frames.heap (.head .used) (pagesOf k))
          (.head .lru) (lruOf k)
        numUsedPages := frames.numUsedPages + 1 } := by
  have isOpen' : (frames.page (.elem k)).flags &&& protectedFlags = 0 := by
    simpa [Frames.isOpen] using isOpen
  unfold markPage
  rw [if_neg (by simpa using isOpen'), if_pos (by simpa [marksUsed] using isUsed)]
  rfl

theorem markPage_of_free (isOpen : frames.isOpen k = true) (isFree : marksUsed flags = false) :
    markPage flags frames k =
      { frames.setFlags (.elem k) (flagWord flags) with
        heap := listMoveTail frames.heap (.head .free) (pagesOf k)
        numFreePages := frames.numFreePages + 1 } := by
  have isOpen' : (frames.page (.elem k)).flags &&& protectedFlags = 0 := by
    simpa [Frames.isOpen] using isOpen
  unfold markPage
  rw [if_neg (by simpa using isOpen'), if_neg (by simpa [marksUsed] using isFree)]
  rfl

theorem markPage_numpages (flags : BitVec 32) (frames : Frames) (k : Nat) :
    (markPage flags frames k).numpages = frames.numpages := by
  unfold markPage
  simp only
  split
  · rfl
  · split
    · rfl
    · rfl

theorem markPage_flags (flags : BitVec 32) (isOpen : frames.isOpen k = true) (i : Nat) :
    ((markPage flags frames k).page (.elem i)).flags =
      if i = k then flagWord flags else (frames.page (.elem i)).flags := by
  have page : (markPage flags frames k).page = (frames.setFlags (.elem k) (flagWord flags)).page := by
    cases kind : marksUsed flags with
    | true => rw [markPage_of_used isOpen kind]
    | false => rw [markPage_of_free isOpen kind]
  rw [page]
  split
  · rename_i same
    subst same
    simp [Frames.setFlags, Frames.setPage]
  · rename_i different
    rw [setFlags_page_elem frames _ different]

theorem markPage_marked (flags : BitVec 32) (isOpen : frames.isOpen k = true) {rest : List Nat}
    (absent : k ∉ rest) : (markPage flags frames k).marked rest = frames.marked rest := by
  apply List.filter_congr
  intro j member
  unfold Frames.isOpen
  have different : j ≠ k := fun same => absent (same ▸ member)
  rw [markPage_flags flags isOpen, if_neg different]

theorem markPage_page_of_ne (flags : BitVec 32) (frames : Frames) {i k : Nat} (different : i ≠ k) :
    (markPage flags frames k).page (.elem i) = frames.page (.elem i) := by
  cases isOpen : frames.isOpen k with
  | false => rw [markPage_of_not_open isOpen]
  | true =>
    cases kind : marksUsed flags with
    | true =>
      rw [markPage_of_used isOpen kind]
      exact setFlags_page_elem frames _ different
    | false =>
      rw [markPage_of_free isOpen kind]
      exact setFlags_page_elem frames _ different

private theorem markPage_used (lists : Lists frames free used lru)
    (inside : k < frames.numpages.toNat) (isOpen : frames.isOpen k = true)
    (isUsed : marksUsed flags = true) (placed : LruPlaced frames.heap lru k) :
    Lists (markPage flags frames k) (free.erase k) (used.erase k ++ [k]) (lru.erase k ++ [k]) ∧
      Marked flags [k] lru frames (markPage flags frames k) := by
  obtain ⟨rings, untouched⟩ := lists.toRings.markUsed (lists.pagesPlaced inside) placed
  rw [markPage_of_used isOpen isUsed]
  constructor
  · refine lists.of_rings rings rfl untouched inside fun j => ?_
    rw [lists.free_nodup.mem_erase_iff, List.mem_append, lists.used_nodup.mem_erase_iff,
      List.mem_singleton]
    tauto
  · refine ⟨rfl, rfl, ?_, ?_, ?_, ?_, ?_, ?_⟩
    · intro pointer different
      exact setFlags_page_of_ne frames (flagWord flags) (different k List.mem_cons_self)
    · intro j member
      rw [List.mem_singleton.mp member]
      simp [Frames.setFlags, Frames.setPage]
    · intro j outside notLru
      exact untouched.lru j (fun same => outside (List.mem_singleton.mpr same)) notLru
    · intro isFree
      rw [isUsed] at isFree
      cases isFree
    · rw [if_pos isUsed]
      rfl
    · rw [if_pos isUsed]
      simp [Frames.setFlags, Frames.setPage]

private theorem markPage_free (lists : Lists frames free used lru)
    (inside : k < frames.numpages.toNat) (isOpen : frames.isOpen k = true)
    (isFree : marksUsed flags = false) :
    Lists (markPage flags frames k) (free.erase k ++ [k]) (used.erase k) lru ∧
      Marked flags [k] lru frames (markPage flags frames k) := by
  obtain ⟨rings, untouched, lruKept⟩ := lists.toRings.markFree (lists.pagesPlaced inside)
  rw [markPage_of_free isOpen isFree]
  constructor
  · refine lists.of_rings rings rfl untouched inside fun j => ?_
    rw [lists.used_nodup.mem_erase_iff, List.mem_append, lists.free_nodup.mem_erase_iff,
      List.mem_singleton]
    tauto
  · refine ⟨rfl, rfl, ?_, ?_, ?_, fun _ => lruKept, ?_, ?_⟩
    · intro pointer different
      exact setFlags_page_of_ne frames (flagWord flags) (different k List.mem_cons_self)
    · intro j member
      rw [List.mem_singleton.mp member]
      simp [Frames.setFlags, Frames.setPage]
    · intro j _ _
      exact lruKept j
    · rw [isFree]
      simp [Frames.setFlags, Frames.setPage]
    · rw [isFree]
      rfl

theorem markPage_spec (lists : Lists frames free used lru) (inside : k < frames.numpages.toNat)
    (isOpen : frames.isOpen k = true)
    (placed : marksUsed flags = true → LruPlaced frames.heap lru k) :
    Lists (markPage flags frames k) (freeAfter flags free [k]) (usedAfter flags used [k])
        (lruAfter flags lru [k]) ∧
      Marked flags [k] lru frames (markPage flags frames k) := by
  cases kind : marksUsed flags with
  | true =>
    have turn := markPage_used lists inside isOpen kind (placed kind)
    rw [erase_eq_without free lists.free_nodup, erase_eq_without used lists.used_nodup,
      erase_eq_without lru lists.lru_nodup] at turn
    simpa only [freeAfter, usedAfter, lruAfter, kind, if_true, List.append_nil] using turn
  | false =>
    have turn := markPage_free lists inside isOpen kind
    rw [erase_eq_without free lists.free_nodup, erase_eq_without used lists.used_nodup] at turn
    simpa only [freeAfter, usedAfter, lruAfter, kind, Bool.false_eq_true, if_false,
      List.append_nil] using turn

/-! ### The whole loop -/

theorem freeAfter_cons (items gone : List Nat) (absent : k ∉ gone) :
    freeAfter flags (freeAfter flags items [k]) gone = freeAfter flags items (k :: gone) := by
  cases kind : marksUsed flags with
  | true =>
    simp only [freeAfter, kind, if_true, List.append_nil]
    exact without_cons items gone k
  | false =>
    simp only [freeAfter, kind, Bool.false_eq_true, if_false]
    rw [without_append, without_cons, without_singleton gone absent, List.append_assoc]
    rfl

theorem usedAfter_cons (items gone : List Nat) (absent : k ∉ gone) :
    usedAfter flags (usedAfter flags items [k]) gone = usedAfter flags items (k :: gone) := by
  cases kind : marksUsed flags with
  | true =>
    simp only [usedAfter, kind, if_true]
    rw [without_append, without_cons, without_singleton gone absent, List.append_assoc]
    rfl
  | false =>
    simp only [usedAfter, kind, Bool.false_eq_true, if_false, List.append_nil]
    exact without_cons items gone k

private theorem lruAfter_cons (items gone : List Nat) (absent : k ∉ gone) :
    lruAfter flags (lruAfter flags items [k]) gone = lruAfter flags items (k :: gone) := by
  cases kind : marksUsed flags with
  | true =>
    simp only [lruAfter, kind, if_true]
    rw [without_append, without_cons, without_singleton gone absent, List.append_assoc]
    rfl
  | false => simp only [lruAfter, kind, Bool.false_eq_true, if_false]

private theorem Marked.cons {frames'' : Frames} {gone : List Nat}
    (first : Marked flags [k] lru frames frames')
    (rest : Marked flags gone (lruAfter flags lru [k]) frames' frames'') (absent : k ∉ gone) :
    Marked flags (k :: gone) lru frames frames'' := by
  have outside : ∀ j ∈ gone, ∀ other ∈ [k], PagePtr.elem j ≠ .elem other := by
    intro j member other atK same
    injection same with same
    rw [List.mem_singleton.mp atK] at same
    exact absent (same ▸ member)
  refine ⟨?_, ?_, ?_, ?_, ?_, ?_, ?_, ?_⟩
  · rw [rest.numpages, first.numpages]
  · rw [rest.parray, first.parray]
  · intro pointer different
    rw [rest.page pointer fun j member => different j (List.mem_cons_of_mem k member),
      first.page pointer]
    intro j member
    rw [List.mem_singleton.mp member]
    exact different k List.mem_cons_self
  · intro j member
    rcases List.mem_cons.mp member with same | later
    · subst same
      rw [rest.page _ fun other present same => absent (by injection same with same; exact same ▸ present)]
      exact first.markedPage j List.mem_cons_self
    · rw [rest.markedPage j later, first.page _ (outside j later)]
  · intro j notGone notLru
    have notK : j ∉ [k] := by
      intro member
      rw [List.mem_singleton.mp member] at notGone
      exact notGone List.mem_cons_self
    have notLru' : j ∉ lruAfter flags lru [k] := by
      unfold lruAfter
      split
      · simp [notLru, List.mem_singleton.not.mp notK]
      · exact notLru
    exact (first.lruNode j notK notLru).trans
      (rest.lruNode j (fun member => notGone (List.mem_cons_of_mem k member)) notLru')
  · intro isFree j
    exact (first.lruKept isFree j).trans (rest.lruKept isFree j)
  · rw [rest.usedCount, first.usedCount]
    cases marksUsed flags with
    | true =>
      simp only [if_true, List.length_cons, List.length_nil]
      rw [BitVec.add_assoc, ← BitVec.ofNat_add]
      congr 2
      omega
    | false => simp
  · rw [rest.freeCount, first.freeCount]
    cases marksUsed flags with
    | true => simp
    | false =>
      simp only [Bool.false_eq_true, if_false, List.length_cons, List.length_nil]
      rw [BitVec.add_assoc, ← BitVec.ofNat_add]
      congr 2
      omega

private theorem Marked.nil (flags : BitVec 32) (lru : List Nat) (frames : Frames) :
    Marked flags [] lru frames frames := by
  refine ⟨rfl, rfl, fun _ _ => rfl, ?_, fun _ _ _ => ⟨rfl, rfl⟩, fun _ _ => ⟨rfl, rfl⟩, ?_, ?_⟩
  · intro k member
    cases member
  · simp
  · simp

/-- The loop of `page_mark_range`: the pages it may touch leave both page lists
and arrive, in order, at the tail of the one the flags name. -/
theorem markLoop_spec (indices : List Nat) (distinct : indices.Nodup)
    (inside : ∀ k ∈ indices, k < frames.numpages.toNat) (lists : Lists frames free used lru)
    (placed : marksUsed flags = true → ∀ k ∈ frames.marked indices,
      LruPlaced frames.heap lru k) :
    Lists (indices.foldl (markPage flags) frames)
        (freeAfter flags free (frames.marked indices))
        (usedAfter flags used (frames.marked indices))
        (lruAfter flags lru (frames.marked indices)) ∧
      Marked flags (frames.marked indices) lru frames
        (indices.foldl (markPage flags) frames) := by
  induction indices generalizing frames free used lru with
  | nil =>
    refine ⟨?_, Marked.nil flags lru frames⟩
    simpa [Frames.marked, freeAfter, usedAfter, lruAfter, without_nil] using lists
  | cons k rest ih =>
    obtain ⟨absent, distinctRest⟩ := List.nodup_cons.mp distinct
    have kInside := inside k List.mem_cons_self
    have restInside := fun j member => inside j (List.mem_cons_of_mem k member)
    cases isOpen : frames.isOpen k with
    | false =>
      rw [List.foldl_cons, markPage_of_not_open isOpen, marked_cons_of_closed isOpen]
      rw [marked_cons_of_closed isOpen] at placed
      exact ih distinctRest restInside lists placed
    | true =>
      rw [marked_cons_of_open isOpen] at placed ⊢
      obtain ⟨turn, frame⟩ := markPage_spec lists kInside isOpen
        fun isUsed => placed isUsed k List.mem_cons_self
      have sameMarked := markPage_marked flags isOpen absent
      have notMarked : k ∉ frames.marked rest := fun member => absent (mem_marked.mp member).1
      have placedRest : marksUsed flags = true →
          ∀ j ∈ (markPage flags frames k).marked rest,
            LruPlaced (markPage flags frames k).heap (lruAfter flags lru [k]) j := by
        intro isUsed j member
        rw [sameMarked] at member
        have notK : j ∉ [k] := fun atK => notMarked (List.mem_singleton.mp atK ▸ member)
        by_cases inLru : j ∈ lru
        · left
          simp [lruAfter, isUsed, inLru, List.mem_singleton.not.mp notK]
        · right
          have self := (placed isUsed j (List.mem_cons_of_mem k member)).resolve_left inLru
          exact (frame.lruNode j notK inLru).selfLinked self
      have insideRest : ∀ j ∈ rest, j < (markPage flags frames k).numpages.toNat := by
        intro j member
        rw [frame.numpages]
        exact restInside j member
      obtain ⟨final, rest'⟩ := ih distinctRest insideRest turn placedRest
      rw [sameMarked] at final rest'
      rw [List.foldl_cons, ← freeAfter_cons free _ notMarked,
        ← usedAfter_cons used _ notMarked, ← lruAfter_cons lru _ notMarked]
      exact ⟨final, frame.cons rest' notMarked⟩

/-! ### Allocating and freeing -/

/-- The state `page_alloc` leaves when `i` heads the free list. -/
def Frames.allocated (frames : Frames) (i : Nat) : Frames :=
  { frames with
    heap := listMove (listAddTail frames.heap (.head .lru) (lruOf i)) (.head .used) (pagesOf i)
    numUsedPages := frames.numUsedPages + 1
    numFreePages := frames.numFreePages - 1 }

theorem pageAlloc_nil (ring : Ring frames.heap (.head .free) []) :
    pageAlloc frames = (.null, frames) := by
  have empty : listEmpty frames.heap (.head .free) = true := by
    simpa [listEmpty] using (ring.next_head_eq_iff).mpr rfl
  unfold pageAlloc
  rw [if_pos empty]

theorem pageAlloc_cons {rest : List Nat}
    (ring : Ring frames.heap (.head .free) ((i :: rest).map pagesOf)) :
    pageAlloc frames = (.elem i, frames.allocated i) := by
  have first : frames.heap.next (.head .free) = pagesOf i := ring.next_head_cons
  have filled : ¬listEmpty frames.heap (.head .free) = true := by
    simp [listEmpty, first]
  unfold pageAlloc
  rw [if_neg filled, first]
  rfl

theorem Lists.alloc (lists : Lists frames (i :: free) used lru) (notLru : i ∉ lru) :
    Lists (frames.allocated i) free (i :: used) (lru ++ [i]) ∧
      ∀ j, j ≠ i → j ∉ lru → Agrees frames.heap (frames.allocated i).heap (lruOf j) := by
  obtain ⟨rings, untouched⟩ := lists.toRings.alloc notLru
  refine ⟨⟨rings, ?_, ?_⟩, untouched.lru⟩
  · intro j member
    apply lists.bounded j
    simp only [List.mem_cons] at member ⊢
    tauto
  · intro j bound notFree notUsed
    have different : j ≠ i := fun same => notUsed (same ▸ List.mem_cons_self)
    have notFree' : j ∉ i :: free := by simp [different, notFree]
    have notUsed' : j ∉ used := fun member => notUsed (List.mem_cons_of_mem i member)
    exact (untouched.pages j different notFree' notUsed').selfLinked
      (lists.lone j bound notFree' notUsed')

theorem Lists.release (lists : Lists frames free used lru) (member : i ∈ used)
    (inLru : i ∈ lru) :
    Lists (pageFree (.elem i) frames) (free ++ [i]) (used.erase i) (lru.erase i) ∧
      ∀ j, j ≠ i → j ∉ lru → Agrees frames.heap (pageFree (.elem i) frames).heap (lruOf j) := by
  obtain ⟨rings, untouched⟩ := lists.toRings.release member inLru
  refine ⟨⟨rings, ?_, ?_⟩, untouched.lru⟩
  · intro j present
    apply lists.bounded j
    simp only [List.mem_append, List.mem_singleton] at present
    rcases present with (inFree | same) | inUsed
    · exact Or.inl inFree
    · exact Or.inr (same ▸ member)
    · exact Or.inr (List.mem_of_mem_erase inUsed)
  · intro j bound notFree notUsed
    have different : j ≠ i := by
      rintro rfl
      exact notFree (by simp)
    have notFree' : j ∉ free := fun inFree => notFree (List.mem_append_left [i] inFree)
    have notUsed' : j ∉ used := fun inUsed =>
      notUsed ((List.mem_erase_of_ne different).mpr inUsed)
    exact (untouched.pages j different notFree' notUsed').selfLinked
      (lists.lone j bound notFree' notUsed')

end Osdev64
