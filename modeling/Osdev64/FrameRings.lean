/-
What the allocator's operations do to its three rings.

`Rings` reads the free, used and lru heads as lists of page indices.  Each
operation of `frame.c` has one specification in these terms, together with the
nodes it leaves alone; nothing later unfolds a pointer write.
-/

import Osdev64.Frame

namespace Osdev64

open PointerRing

/-- The `pages` member of `parray[i]`. -/
abbrev pagesOf (i : Nat) : Node := .pages (.elem i)

/-- The `lru` member of `parray[i]`. -/
abbrev lruOf (i : Nat) : Node := .lru (.elem i)

theorem pagesOf_injective : Function.Injective pagesOf := by
  intro left right same
  injection same with same
  injection same

theorem lruOf_injective : Function.Injective lruOf := by
  intro left right same
  injection same with same
  injection same

/-- The lru head and the `lru` members, as opposed to the nodes of the page lists. -/
def Node.isLru : Node → Bool
  | .head .lru => true
  | .lru _ => true
  | _ => false

/-- The free and the used ring as lists of page indices. -/
structure PageRings (heap : Heap Node) (free used : List Nat) : Prop where
  freeRing : Ring heap (.head .free) (free.map pagesOf)
  usedRing : Ring heap (.head .used) (used.map pagesOf)
  apart : free.Disjoint used

structure Rings (heap : Heap Node) (free used lru : List Nat) : Prop
    extends PageRings heap free used where
  lruRing : Ring heap (.head .lru) (lru.map lruOf)

/-- The `pages` node of `i` is on one of the two page lists or alone. -/
def PagesPlaced (heap : Heap Node) (free used : List Nat) (i : Nat) : Prop :=
  i ∈ free ∨ i ∈ used ∨ heap.SelfLinked (pagesOf i)

/-- The `lru` node of `i` is on the lru list or alone. -/
def LruPlaced (heap : Heap Node) (lru : List Nat) (i : Nat) : Prop :=
  i ∈ lru ∨ heap.SelfLinked (lruOf i)

variable {heap heap' : Heap Node} {free used lru : List Nat} {i j : Nat}

theorem pagesPlaced_of_lone (lone : i ∉ free → i ∉ used → heap.SelfLinked (pagesOf i)) :
    PagesPlaced heap free used i := by
  by_cases inFree : i ∈ free
  · exact Or.inl inFree
  · by_cases inUsed : i ∈ used
    · exact Or.inr (Or.inl inUsed)
    · exact Or.inr (Or.inr (lone inFree inUsed))

theorem mem_map_pagesOf : pagesOf i ∈ free.map pagesOf ↔ i ∈ free :=
  List.mem_map_of_injective pagesOf_injective

private theorem PagesPlaced.nodes (placed : PagesPlaced heap free used i) :
    pagesOf i ∈ free.map pagesOf ∨ Placed heap (used.map pagesOf) (pagesOf i) := by
  unfold Placed
  rw [mem_map_pagesOf, mem_map_pagesOf]
  exact placed

private theorem PagesPlaced.swap (placed : PagesPlaced heap free used i) :
    PagesPlaced heap used free i :=
  or_left_comm.mp placed

theorem mem_map_lruOf : lruOf i ∈ lru.map lruOf ↔ i ∈ lru :=
  List.mem_map_of_injective lruOf_injective

private theorem map_erase_pagesOf : (free.map pagesOf).erase (pagesOf i) =
    (free.erase i).map pagesOf :=
  (List.map_erase pagesOf_injective free).symm

private theorem map_erase_lruOf : (lru.map lruOf).erase (lruOf i) = (lru.erase i).map lruOf :=
  (List.map_erase lruOf_injective lru).symm

theorem PageRings.free_nodup (rings : PageRings heap free used) : free.Nodup :=
  List.Nodup.of_map pagesOf rings.freeRing.nodup

theorem PageRings.used_nodup (rings : PageRings heap free used) : used.Nodup :=
  List.Nodup.of_map pagesOf rings.usedRing.nodup

theorem Rings.lru_nodup (rings : Rings heap free used lru) : lru.Nodup :=
  List.Nodup.of_map lruOf rings.lruRing.nodup

private theorem apart_pages (apart : free.Disjoint used) :
    Apart (Node.head .free) (.head .used) (free.map pagesOf) (used.map pagesOf) := by
  intro node inFree inUsed
  simp only [List.mem_cons, List.mem_map] at inFree inUsed
  rcases inFree with rfl | ⟨left, leftMember, rfl⟩
  · rcases inUsed with same | ⟨right, _, same⟩
    · cases same
    · cases same
  · rcases inUsed with same | ⟨right, rightMember, same⟩
    · cases same
    · have equal : right = left := pagesOf_injective same
      exact apart leftMember (equal ▸ rightMember)

private theorem apart_symm {head head' : Node} {items items' : List Node}
    (apart : Apart head head' items items') : Apart head' head items' items := by
  intro node member other
  exact apart node other member

private theorem isLru_of_mem_lru {node : Node}
    (member : node ∈ Node.head .lru :: lru.map lruOf) : node.isLru = true := by
  simp only [List.mem_cons, List.mem_map] at member
  rcases member with rfl | ⟨index, _, rfl⟩
  · rfl
  · rfl

private theorem isLru_of_mem_pages {list : ListHead} {items : List Nat} {node : Node}
    (distinct : list ≠ .lru) (member : node ∈ Node.head list :: items.map pagesOf) :
    node.isLru = false := by
  simp only [List.mem_cons, List.mem_map] at member
  rcases member with rfl | ⟨index, _, rfl⟩
  · cases list with
    | free => rfl
    | used => rfl
    | lru => exact False.elim (distinct rfl)
  · rfl

private theorem not_mem_pages {list : ListHead} {items : List Nat} {node : Node}
    (distinct : list ≠ .lru) (isLru : node.isLru = true) :
    node ∉ Node.head list :: items.map pagesOf := by
  intro member
  rw [isLru_of_mem_pages distinct member] at isLru
  cases isLru

theorem PageRings.congr (rings : PageRings heap free used)
    (same : ∀ node, node.isLru = false → Agrees heap heap' node) :
    PageRings heap' free used where
  freeRing := rings.freeRing.congr fun node member =>
    same node (isLru_of_mem_pages (by simp) member)
  usedRing := rings.usedRing.congr fun node member =>
    same node (isLru_of_mem_pages (by simp) member)
  apart := rings.apart

theorem Rings.prev_lru_isLru (rings : Rings heap free used lru) :
    (heap.prev (.head .lru)).isLru = true :=
  isLru_of_mem_lru (rings.lruRing.prev_mem List.mem_cons_self)

/-! ### The page lists -/

/-- Pages `i` moved: the new page lists, and every node outside the old ones kept. -/
private structure PagesMoved (heap heap' : Heap Node) (free used free' used' : List Nat)
    (i : Nat) : Prop extends PageRings heap' free' used' where
  others : ∀ node, node ∉ Node.head .free :: free.map pagesOf →
    node ∉ Node.head .used :: used.map pagesOf → node ≠ pagesOf i → Agrees heap heap' node

private theorem disjoint_moved (apart : free.Disjoint used) (nodup : free.Nodup) :
    (free.erase i).Disjoint (used.erase i ++ [i]) := by
  intro index inFree inUsed
  rcases List.mem_append.mp inUsed with stayed | moved
  · exact apart (List.mem_of_mem_erase inFree) (List.mem_of_mem_erase stayed)
  · rw [List.mem_singleton.mp moved] at inFree
    exact nodup.not_mem_erase inFree

private theorem movePages_used (rings : PageRings heap free used)
    (placed : PagesPlaced heap free used i) :
    PagesMoved heap (listMoveTail heap (.head .used) (pagesOf i)) free used
      (free.erase i) (used.erase i ++ [i]) i := by
  obtain ⟨kept, moved, others⟩ := listMoveTail_two rings.freeRing rings.usedRing
    (apart_pages rings.apart) (by simp) (by simp) placed.nodes
  refine ⟨⟨?_, ?_, disjoint_moved rings.apart rings.free_nodup⟩, others⟩
  · rw [← map_erase_pagesOf]
    exact kept
  · rw [List.map_append, ← map_erase_pagesOf]
    exact moved

private theorem movePages_free (rings : PageRings heap free used)
    (placed : PagesPlaced heap free used i) :
    PagesMoved heap (listMoveTail heap (.head .free) (pagesOf i)) free used
      (free.erase i ++ [i]) (used.erase i) i := by
  obtain ⟨kept, moved, others⟩ := listMoveTail_two rings.usedRing rings.freeRing
    (apart_symm (apart_pages rings.apart)) (by simp) (by simp) placed.swap.nodes
  refine ⟨⟨?_, ?_, ?_⟩, fun node outside outside' => others node outside' outside⟩
  · rw [List.map_append, ← map_erase_pagesOf]
    exact moved
  · rw [← map_erase_pagesOf]
    exact kept
  · exact List.disjoint_comm.mp
      (disjoint_moved (List.disjoint_comm.mp rings.apart) rings.used_nodup)

private theorem movePages_front (rings : PageRings heap (i :: free) used) :
    PagesMoved heap (listMove heap (.head .used) (pagesOf i)) (i :: free) used
      free (i :: used) i := by
  have notUsed : i ∉ used := rings.apart List.mem_cons_self
  have notFree : i ∉ free := (List.nodup_cons.mp rings.free_nodup).1
  obtain ⟨kept, moved, others⟩ := listMove_two rings.freeRing rings.usedRing
    (apart_pages rings.apart) (by simp) (by simp) (Or.inl (mem_map_pagesOf.mpr List.mem_cons_self))
  rw [map_erase_pagesOf, List.erase_cons_head] at kept
  rw [map_erase_pagesOf, List.erase_of_not_mem notUsed] at moved
  refine ⟨⟨kept, moved, ?_⟩, others⟩
  intro index inFree inUsed
  rcases List.mem_cons.mp inUsed with same | inUsed
  · exact notFree (same ▸ inFree)
  · exact rings.apart (List.mem_cons_of_mem i inFree) inUsed

private theorem PagesMoved.lru_agrees {free' used' : List Nat}
    (moved : PagesMoved heap heap' free used free' used' i) {node : Node}
    (isLru : node.isLru = true) : Agrees heap heap' node := by
  apply moved.others
  · exact not_mem_pages (by simp) isLru
  · exact not_mem_pages (by simp) isLru
  · rintro rfl
    cases isLru

private theorem PagesMoved.lruKept {free' used' : List Nat}
    (moved : PagesMoved heap heap' free used free' used' i)
    (ring : Ring heap (.head .lru) (lru.map lruOf)) :
    Ring heap' (.head .lru) (lru.map lruOf) :=
  ring.congr fun _ member => moved.lru_agrees (isLru_of_mem_lru member)

private theorem PagesMoved.pages_agrees {free' used' : List Nat}
    (moved : PagesMoved heap heap' free used free' used' i) (different : j ≠ i)
    (notFree : j ∉ free) (notUsed : j ∉ used) : Agrees heap heap' (pagesOf j) := by
  apply moved.others
  · simp [notFree]
  · simp [notUsed]
  · intro same
    exact different (pagesOf_injective same)

/-! ### The lru list -/

/-- Appending to the lru list leaves the page lists alone, whatever the lru ring is like. -/
theorem lruAddTail_agrees {node : Node} (tail : (heap.prev (.head .lru)).isLru = true)
    (isPages : node.isLru = false) :
    Agrees heap (listAddTail heap (.head .lru) (lruOf i)) node := by
  apply listAddBetween_agrees
  · rintro rfl
    rw [isPages] at tail
    cases tail
  · rintro rfl
    cases isPages
  · rintro rfl
    cases isPages

theorem lruDel_agrees {node : Node} (before : (heap.prev (lruOf i)).isLru = true)
    (after : (heap.next (lruOf i)).isLru = true) (isPages : node.isLru = false) :
    Agrees heap (listDel heap (lruOf i)) node := by
  apply listDel_agrees_of_ne
  · rintro rfl
    rw [isPages] at before
    cases before
  · rintro rfl
    rw [isPages] at after
    cases after

/-! ### Marking -/

/-- Pages whose nodes an operation on page `i` leaves alone. -/
structure Untouched (heap heap' : Heap Node) (free used lru : List Nat) (i : Nat) : Prop where
  pages : ∀ j, j ≠ i → j ∉ free → j ∉ used → Agrees heap heap' (pagesOf j)
  lru : ∀ j, j ≠ i → j ∉ lru → Agrees heap heap' (lruOf j)

theorem Rings.markUsed (rings : Rings heap free used lru)
    (pagesPlaced : PagesPlaced heap free used i) (lruPlaced : LruPlaced heap lru i) :
    Rings (listMoveTail (listMoveTail heap (.head .used) (pagesOf i)) (.head .lru) (lruOf i))
        (free.erase i) (used.erase i ++ [i]) (lru.erase i ++ [i]) ∧
      Untouched heap
        (listMoveTail (listMoveTail heap (.head .used) (pagesOf i)) (.head .lru) (lruOf i))
        free used lru i := by
  have moved := movePages_used rings.toPageRings pagesPlaced
  have placed : Placed (listMoveTail heap (.head .used) (pagesOf i)) (lru.map lruOf)
      (lruOf i) := by
    unfold Placed
    rw [mem_map_lruOf]
    rcases lruPlaced with member | self
    · exact Or.inl member
    · exact Or.inr ((moved.lru_agrees rfl).selfLinked self)
  obtain ⟨lruMoved, others⟩ := listMoveTail_ring (moved.lruKept rings.lruRing) (by simp) placed
  have pagesKept : ∀ node, node.isLru = false →
      Agrees (listMoveTail heap (.head .used) (pagesOf i))
        (listMoveTail (listMoveTail heap (.head .used) (pagesOf i)) (.head .lru) (lruOf i))
        node := by
    intro node isPages
    apply others
    · intro member
      rw [isLru_of_mem_lru member] at isPages
      cases isPages
    · rintro rfl
      cases isPages
  constructor
  · refine ⟨moved.toPageRings.congr pagesKept, ?_⟩
    rw [List.map_append, ← map_erase_lruOf]
    exact lruMoved
  · constructor
    · intro j different notFree notUsed
      exact (moved.pages_agrees different notFree notUsed).trans (pagesKept _ rfl)
    · intro j different notLru
      refine (moved.lru_agrees rfl).trans (others _ ?_ ?_)
      · rw [List.mem_cons, mem_map_lruOf]
        simp [notLru]
      · intro same
        exact different (lruOf_injective same)

theorem Rings.markFree (rings : Rings heap free used lru)
    (pagesPlaced : PagesPlaced heap free used i) :
    Rings (listMoveTail heap (.head .free) (pagesOf i)) (free.erase i ++ [i]) (used.erase i) lru ∧
      Untouched heap (listMoveTail heap (.head .free) (pagesOf i)) free used lru i ∧
      ∀ j, Agrees heap (listMoveTail heap (.head .free) (pagesOf i)) (lruOf j) := by
  have moved := movePages_free rings.toPageRings pagesPlaced
  refine ⟨⟨moved.toPageRings, moved.lruKept rings.lruRing⟩, ⟨?_, ?_⟩, ?_⟩
  · intro j different notFree notUsed
    exact moved.pages_agrees different notFree notUsed
  · intro j _ _
    exact moved.lru_agrees rfl
  · intro j
    exact moved.lru_agrees rfl

theorem PageRings.markUsed (rings : PageRings heap free used)
    (placed : PagesPlaced heap free used i) :
    PageRings (listMoveTail heap (.head .used) (pagesOf i)) (free.erase i) (used.erase i ++ [i]) ∧
      (∀ node, node.isLru = true →
        Agrees heap (listMoveTail heap (.head .used) (pagesOf i)) node) ∧
      ∀ j, j ≠ i → j ∉ free → j ∉ used →
        Agrees heap (listMoveTail heap (.head .used) (pagesOf i)) (pagesOf j) := by
  have moved := movePages_used rings placed
  exact ⟨moved.toPageRings, fun _ isLru => moved.lru_agrees isLru,
    fun _ different notFree notUsed => moved.pages_agrees different notFree notUsed⟩

theorem PageRings.markFree (rings : PageRings heap free used)
    (placed : PagesPlaced heap free used i) :
    PageRings (listMoveTail heap (.head .free) (pagesOf i)) (free.erase i ++ [i]) (used.erase i) ∧
      (∀ node, node.isLru = true →
        Agrees heap (listMoveTail heap (.head .free) (pagesOf i)) node) ∧
      ∀ j, j ≠ i → j ∉ free → j ∉ used →
        Agrees heap (listMoveTail heap (.head .free) (pagesOf i)) (pagesOf j) := by
  have moved := movePages_free rings placed
  exact ⟨moved.toPageRings, fun _ isLru => moved.lru_agrees isLru,
    fun _ different notFree notUsed => moved.pages_agrees different notFree notUsed⟩

/-! ### Allocating and freeing -/

theorem PageRings.alloc (rings : PageRings heap (i :: free) used)
    (tail : (heap.prev (.head .lru)).isLru = true) :
    PageRings (listMove (listAddTail heap (.head .lru) (lruOf i)) (.head .used) (pagesOf i))
      free (i :: used) := by
  have kept := rings.congr fun node isPages => lruAddTail_agrees (i := i) tail isPages
  exact (movePages_front kept).toPageRings

theorem PageRings.alloc_lru {node : Node} (rings : PageRings heap (i :: free) used)
    (tail : (heap.prev (.head .lru)).isLru = true) (isLru : node.isLru = true) :
    Agrees (listAddTail heap (.head .lru) (lruOf i))
      (listMove (listAddTail heap (.head .lru) (lruOf i)) (.head .used) (pagesOf i)) node := by
  have kept := rings.congr fun node isPages => lruAddTail_agrees (i := i) tail isPages
  exact (movePages_front kept).lru_agrees isLru

theorem Rings.alloc (rings : Rings heap (i :: free) used lru) (notLru : i ∉ lru) :
    Rings (listMove (listAddTail heap (.head .lru) (lruOf i)) (.head .used) (pagesOf i))
        free (i :: used) (lru ++ [i]) ∧
      Untouched heap
        (listMove (listAddTail heap (.head .lru) (lruOf i)) (.head .used) (pagesOf i))
        (i :: free) used lru i := by
  have tail := rings.prev_lru_isLru
  have foreign : lruOf i ∉ Node.head .lru :: lru.map lruOf := by
    rw [List.mem_cons, mem_map_lruOf]
    simp [notLru]
  have added := listAddTail_ring rings.lruRing foreign
  have kept := rings.toPageRings.congr fun node isPages =>
    lruAddTail_agrees (i := i) tail isPages
  have moved := movePages_front kept
  constructor
  · refine ⟨moved.toPageRings, moved.lruKept ?_⟩
    rw [List.map_append]
    exact added
  · constructor
    · intro j different notFree notUsed
      exact (lruAddTail_agrees tail rfl).trans (moved.pages_agrees different notFree notUsed)
    · intro j different notLru'
      refine (listAddTail_agrees rings.lruRing ?_ ?_).trans (moved.lru_agrees rfl)
      · rw [List.mem_cons, mem_map_lruOf]
        simp [notLru']
      · intro same
        exact different (lruOf_injective same)

theorem PageRings.release (rings : PageRings heap free used) (member : i ∈ used)
    (before : (heap.prev (lruOf i)).isLru = true) (after : (heap.next (lruOf i)).isLru = true) :
    PageRings (listDel (listMoveTail heap (.head .free) (pagesOf i)) (lruOf i))
      (free ++ [i]) (used.erase i) := by
  have notFree : i ∉ free := fun inFree => rings.apart inFree member
  have moved := movePages_free rings (Or.inr (Or.inl member))
  have same : Agrees heap _ (lruOf i) := moved.lru_agrees rfl
  rw [← List.erase_of_not_mem notFree]
  refine moved.toPageRings.congr fun node isPages => lruDel_agrees ?_ ?_ isPages
  · rw [same.2]
    exact before
  · rw [same.1]
    exact after

theorem PageRings.release_lru {node : Node} (rings : PageRings heap free used) (member : i ∈ used)
    (isLru : node.isLru = true) :
    Agrees heap (listMoveTail heap (.head .free) (pagesOf i)) node :=
  (movePages_free rings (Or.inr (Or.inl member))).lru_agrees isLru

theorem PageRings.remove (rings : PageRings heap free used)
    (placed : PagesPlaced heap free used i) :
    PageRings (listDel heap (pagesOf i)) (free.erase i) (used.erase i) ∧
      ∀ node, node.isLru = true → Agrees heap (listDel heap (pagesOf i)) node := by
  obtain ⟨freeRing, usedRing, others⟩ := listDel_two rings.freeRing rings.usedRing
    (apart_pages rings.apart) placed.nodes
  rw [map_erase_pagesOf] at freeRing usedRing
  refine ⟨⟨freeRing, usedRing, ?_⟩, ?_⟩
  · intro index inFree inUsed
    exact rings.apart (List.mem_of_mem_erase inFree) (List.mem_of_mem_erase inUsed)
  · intro node isLru
    apply others
    · exact not_mem_pages (by simp) isLru
    · exact not_mem_pages (by simp) isLru

theorem Rings.release (rings : Rings heap free used lru) (member : i ∈ used)
    (inLru : i ∈ lru) :
    Rings (listDel (listMoveTail heap (.head .free) (pagesOf i)) (lruOf i))
        (free ++ [i]) (used.erase i) (lru.erase i) ∧
      Untouched heap (listDel (listMoveTail heap (.head .free) (pagesOf i)) (lruOf i))
        free used lru i := by
  have inside : lruOf i ∈ Node.head .lru :: lru.map lruOf :=
    List.mem_cons_of_mem _ (mem_map_lruOf.mpr inLru)
  have pagesRings := rings.toPageRings.release member
    (isLru_of_mem_lru (rings.lruRing.prev_mem inside))
    (isLru_of_mem_lru (rings.lruRing.next_mem inside))
  have moved := movePages_free rings.toPageRings (Or.inr (Or.inl member))
  have kept := moved.lruKept rings.lruRing
  have removed := listDel_ring kept (mem_map_lruOf.mpr inLru)
  rw [map_erase_lruOf] at removed
  refine ⟨⟨pagesRings, removed⟩, ⟨?_, ?_⟩⟩
  · intro j different notFree notUsed
    refine (moved.pages_agrees different notFree notUsed).trans (listDel_agrees kept
      (mem_map_lruOf.mpr inLru) ?_)
    intro onLru
    have isLru := isLru_of_mem_lru onLru
    cases isLru
  · intro j different notLru
    refine (moved.lru_agrees rfl).trans (listDel_agrees kept (mem_map_lruOf.mpr inLru) ?_)
    rw [List.mem_cons, mem_map_lruOf]
    simp [notLru]

end Osdev64
