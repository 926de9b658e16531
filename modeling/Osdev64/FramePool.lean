/-
The allocator as a pool of pages.

After `pmm_init` the lru list need not match the used list, so `page_alloc` may
link a page into it twice.  What the page lists need is weaker: the pointers of
lru nodes lead to lru nodes only.  That much every operation keeps.
-/

import Osdev64.FrameInit

namespace Osdev64

open PointerRing Word64

/-- Both pointers of every node of `inside` lead to nodes of `inside`. -/
def Closed (heap : Heap Node) (inside : Node → Prop) : Prop :=
  ∀ node, inside node → inside (heap.next node) ∧ inside (heap.prev node)

/-- No pointer leads from the lru nodes of the first `count` pages to another node. -/
def LruClosed (heap : Heap Node) (count : Nat) : Prop :=
  ∃ inside : Node → Prop, (∀ node, inside node → node.isLru = true) ∧ inside (.head .lru) ∧
    (∀ i, i < count → inside (lruOf i)) ∧ Closed heap inside

/-- The address `page_init` gives the page `i`. -/
def pageAddress (i : Nat) : Word := BitVec.ofNat 64 i * pageSize

/-- The page lists, inside the page array, whatever the lru ring is like. -/
structure Pool (frames : Frames) (free used : List Nat) : Prop
    extends PageRings frames.heap free used where
  bounded : ∀ i, i ∈ free ∨ i ∈ used → i < frames.numpages.toNat
  closed : LruClosed frames.heap frames.numpages.toNat
  address : ∀ i, i < frames.numpages.toNat → (frames.page (.elem i)).address = pageAddress i

variable {heap heap' : Heap Node} {inside : Node → Prop} {frames : Frames}
  {free used lru : List Nat} {i count : Nat}

theorem Closed.join {left right : Node} (closed : Closed heap inside) (insideLeft : inside left)
    (insideRight : inside right) : Closed (heap.join left right) inside := by
  intro node member
  obtain ⟨next, prev⟩ := closed node member
  rw [Heap.join_next, Heap.join_prev]
  constructor
  · split
    · exact insideRight
    · exact next
  · split
    · exact insideLeft
    · exact prev

theorem Closed.congr (closed : Closed heap inside)
    (same : ∀ node, inside node → Agrees heap heap' node) : Closed heap' inside := by
  intro node member
  obtain ⟨next, prev⟩ := same node member
  rw [next, prev]
  exact closed node member

theorem LruClosed.congr (closed : LruClosed heap count)
    (same : ∀ node, node.isLru = true → Agrees heap heap' node) : LruClosed heap' count := by
  obtain ⟨inside, isLru, atHead, pages, loop⟩ := closed
  exact ⟨inside, isLru, atHead, pages, loop.congr fun node member => same node (isLru node member)⟩

theorem LruClosed.addTail (closed : LruClosed heap count) (below : i < count) :
    LruClosed (listAddTail heap (.head .lru) (lruOf i)) count := by
  obtain ⟨inside, isLru, atHead, pages, loop⟩ := closed
  refine ⟨inside, isLru, atHead, pages, ?_⟩
  unfold listAddTail
  rw [listAddBetween_eq_join]
  exact (loop.join (pages i below) atHead).join (loop _ atHead).2 (pages i below)

theorem LruClosed.del (closed : LruClosed heap count) (below : i < count) :
    LruClosed (listDel heap (lruOf i)) count := by
  obtain ⟨inside, isLru, atHead, pages, loop⟩ := closed
  refine ⟨inside, isLru, atHead, pages, ?_⟩
  rw [listDel_eq_join]
  exact loop.join (loop _ (pages i below)).2 (loop _ (pages i below)).1

theorem LruClosed.moveTail (closed : LruClosed heap count) (below : i < count) :
    LruClosed (listMoveTail heap (.head .lru) (lruOf i)) count :=
  (closed.del below).addTail below

theorem LruClosed.tail (closed : LruClosed heap count) : (heap.prev (.head .lru)).isLru = true := by
  obtain ⟨inside, isLru, atHead, _, loop⟩ := closed
  exact isLru _ (loop _ atHead).2

theorem LruClosed.around (closed : LruClosed heap count) (below : i < count) :
    (heap.prev (lruOf i)).isLru = true ∧ (heap.next (lruOf i)).isLru = true := by
  obtain ⟨inside, isLru, _, pages, loop⟩ := closed
  exact ⟨isLru _ (loop _ (pages i below)).2, isLru _ (loop _ (pages i below)).1⟩

theorem LruClosed.moveTail_agrees {node : Node} (closed : LruClosed heap count) (below : i < count)
    (isPages : node.isLru = false) :
    Agrees heap (listMoveTail heap (.head .lru) (lruOf i)) node := by
  obtain ⟨before, after⟩ := closed.around below
  exact (lruDel_agrees before after isPages).trans
    (lruAddTail_agrees (closed.del below).tail isPages)

theorem lruClosed_of_rings (rings : Rings heap free used lru)
    (placed : ∀ i, i < count → LruPlaced heap lru i) : LruClosed heap count := by
  refine ⟨fun node => node ∈ Node.head .lru :: lru.map lruOf ∨
    ∃ i, i < count ∧ node = lruOf i, ?_, Or.inl List.mem_cons_self, fun i below =>
      Or.inr ⟨i, below, rfl⟩, ?_⟩
  · rintro node (member | ⟨i, _, rfl⟩)
    · rcases List.mem_cons.mp member with rfl | member
      · rfl
      · obtain ⟨k, _, rfl⟩ := List.mem_map.mp member
        rfl
    · rfl
  · rintro node (member | ⟨i, below, rfl⟩)
    · exact ⟨Or.inl (rings.lruRing.next_mem member), Or.inl (rings.lruRing.prev_mem member)⟩
    · rcases placed i below with inLru | lone
      · have member : lruOf i ∈ Node.head .lru :: lru.map lruOf :=
          List.mem_cons_of_mem _ (mem_map_lruOf.mpr inLru)
        exact ⟨Or.inl (rings.lruRing.next_mem member), Or.inl (rings.lruRing.prev_mem member)⟩
      · rw [lone.1, lone.2]
        exact ⟨Or.inr ⟨i, below, rfl⟩, Or.inr ⟨i, below, rfl⟩⟩

theorem Fresh.pool {memory table : Word} (fresh : Fresh memory table frames) : Pool frames [] [] :=
  ⟨fresh.lists.toPageRings, by simp,
    lruClosed_of_rings fresh.lists.toRings fun i below => Or.inr (fresh.lruLone i below), fresh.address⟩

/-! ### The operations -/

theorem Pool.alloc (pool : Pool frames (i :: free) used) :
    pageAlloc frames = (.elem i, frames.allocated i) ∧ Pool (frames.allocated i) free (i :: used) := by
  have below : i < frames.numpages.toNat := pool.bounded i (Or.inl List.mem_cons_self)
  refine ⟨pageAlloc_cons pool.freeRing, pool.toPageRings.alloc pool.closed.tail, ?_, ?_, pool.address⟩
  · intro j member
    apply pool.bounded j
    simp only [List.mem_cons] at member ⊢
    tauto
  · exact (pool.closed.addTail below).congr fun node isLru =>
      pool.toPageRings.alloc_lru pool.closed.tail isLru

theorem Pool.release (pool : Pool frames free used) (member : i ∈ used) :
    Pool (pageFree (.elem i) frames) (free ++ [i]) (used.erase i) := by
  have below : i < frames.numpages.toNat := pool.bounded i (Or.inr member)
  obtain ⟨before, after⟩ := pool.closed.around below
  refine ⟨pool.toPageRings.release member before after, ?_, ?_, pool.address⟩
  · intro j listed
    simp only [List.mem_append, List.mem_singleton] at listed
    rcases listed with (inFree | rfl) | inUsed
    · exact pool.bounded j (Or.inl inFree)
    · exact below
    · exact pool.bounded j (Or.inr (List.mem_of_mem_erase inUsed))
  · exact (pool.closed.congr fun node isLru =>
      pool.toPageRings.release_lru member isLru).del below

theorem Pool.mark (flags : BitVec 32) (pool : Pool frames free used)
    (below : i < frames.numpages.toNat) (placed : PagesPlaced frames.heap free used i)
    (isOpen : frames.isOpen i = true) :
    Pool (markPage flags frames i) (freeAfter flags free [i]) (usedAfter flags used [i]) ∧
      ∀ j, j ≠ i → j ∉ free → j ∉ used →
        Agrees frames.heap (markPage flags frames i).heap (pagesOf j) := by
  have bounded : ∀ j, j ∈ freeAfter flags free [i] ∨ j ∈ usedAfter flags used [i] →
      j < frames.numpages.toNat := by
    intro j listed
    rw [mem_freeAfter, mem_usedAfter, List.mem_singleton] at listed
    rcases listed with (⟨inFree, _⟩ | ⟨_, rfl⟩) | (⟨inUsed, _⟩ | ⟨_, rfl⟩)
    · exact pool.bounded j (Or.inl inFree)
    · exact below
    · exact pool.bounded j (Or.inr inUsed)
    · exact below
  have address : ∀ j, j < frames.numpages.toNat →
      ((frames.setFlags (.elem i) (flagWord flags)).page (.elem j)).address = pageAddress j := by
    intro j inside
    rw [(setFlags_sameCore frames (.elem i) (flagWord flags)).address]
    exact pool.address j inside
  unfold freeAfter usedAfter at bounded ⊢
  rw [← erase_eq_without free pool.free_nodup, ← erase_eq_without used pool.used_nodup] at bounded ⊢
  cases kind : marksUsed flags with
  | true =>
    rw [kind] at bounded
    obtain ⟨rings, lruKept, others⟩ := pool.toPageRings.markUsed placed
    have closed := pool.closed.congr lruKept
    have pagesKept : ∀ node, node.isLru = false →
        Agrees (listMoveTail frames.heap (.head .used) (pagesOf i))
          (listMoveTail (listMoveTail frames.heap (.head .used) (pagesOf i)) (.head .lru) (lruOf i))
          node := fun _ isPages => closed.moveTail_agrees below isPages
    rw [markPage_of_used isOpen kind]
    refine ⟨⟨?_, bounded, closed.moveTail below, address⟩, ?_⟩
    · rw [if_pos rfl, if_pos rfl, List.append_nil]
      exact rings.congr pagesKept
    · intro j different notFree notUsed
      exact (others j different notFree notUsed).trans (pagesKept _ rfl)
  | false =>
    rw [kind] at bounded
    obtain ⟨rings, lruKept, others⟩ := pool.toPageRings.markFree placed
    rw [markPage_of_free isOpen kind]
    refine ⟨⟨?_, bounded, pool.closed.congr lruKept, address⟩, others⟩
    rw [if_neg (by decide), if_neg (by decide), List.append_nil]
    exact rings

theorem Pool.reserve (pool : Pool frames free used) (below : i < frames.numpages.toNat)
    (placed : PagesPlaced frames.heap free used i) :
    Pool { frames with heap := listDel (listDel frames.heap (pagesOf i)) (lruOf i) }
      (free.erase i) (used.erase i) := by
  obtain ⟨rings, others⟩ := pool.toPageRings.remove placed
  have closed := pool.closed.congr others
  obtain ⟨before, after⟩ := closed.around below
  refine ⟨rings.congr fun node isPages => lruDel_agrees before after isPages, ?_,
    closed.del below, pool.address⟩
  intro j listed
  apply pool.bounded j
  rcases listed with inFree | inUsed
  · exact Or.inl (List.mem_of_mem_erase inFree)
  · exact Or.inr (List.mem_of_mem_erase inUsed)

theorem Pool.setPage {pointer : PagePtr} {page : Page} (pool : Pool frames free used)
    (same : page.address = (frames.page pointer).address) :
    Pool (frames.setPage pointer page) free used := by
  refine ⟨pool.toPageRings, pool.bounded, pool.closed, ?_⟩
  intro i below
  unfold Frames.setPage
  simp only
  by_cases here : PagePtr.elem i = pointer
  · rw [here, Function.update_self, same, ← here]
    exact pool.address i below
  · rw [Function.update_of_ne here]
    exact pool.address i below

theorem pageAddress_toNat (small : i < 2 ^ 52) : (pageAddress i).toNat = i * 4096 := by
  unfold pageAddress pageSize
  rw [BitVec.toNat_mul, BitVec.toNat_ofNat]
  change i % 2 ^ 64 * 4096 % 2 ^ 64 = _
  omega

end Osdev64
