/-
Which memory maps leave only usable memory on the free list.

`pmm_init` rounds every range outwards, so a page at the edge of a usable entry
becomes allocatable even when the entry covers a part of it or, at an aligned
end, nothing of it.  The map has to make up for that.  It also has to reach past
the kernel: otherwise the last call marks page structures past the end of the
array, whose list pointers are whatever memory held.
-/

import Osdev64.Pmm
import Osdev64.FramePool
import Osdev64.FrameRuns

namespace Osdev64

open PointerRing Word64

def MemoryMap.Covers (entry : MemoryMap) (byte : Nat) : Prop :=
  entry.base.toNat ≤ byte ∧ byte < entry.base.toNat + entry.len.toNat

/-- The physical bytes of the page array. -/
def InitPlan.InArray (plan : InitPlan) (byte : Nat) : Prop :=
  plan.table.toNat ≤ byte ∧ byte < plan.table.toNat + plan.numpages.toNat * 64

/-- A byte the allocator may hand out. -/
structure Allocatable (map : List MemoryMap) (kernelEnd : Word) (byte : Nat) : Prop where
  usable : ∃ entry ∈ map, entry.usable = true ∧ entry.Covers byte
  unreserved : ∀ entry ∈ map, entry.usable = false → ¬entry.Covers byte
  pastKernel : (v2p kernelEnd).toNat ≤ byte
  outsideArray : ¬(pmmPlan map kernelEnd).InArray byte

/-- Whatever memory held before, every page met on the free list after
`pmm_init` consists of bytes the allocator may hand out. -/
def OnlyUsableFree (map : List MemoryMap) (kernelEnd : Word) : Prop :=
  ∀ before : Frames, before.Static →
    ∀ node, (pmmInit map kernelEnd before).heap.Follows (.head .free) node →
      ∀ byte, ((pmmInit map kernelEnd before).page (listEntry node)).address.toNat ≤ byte →
        byte < ((pmmInit map kernelEnd before).page (listEntry node)).address.toNat + 4096 →
        Allocatable map kernelEnd byte

def InPage (i byte : Nat) : Prop := i * 4096 ≤ byte ∧ byte < i * 4096 + 4096

/-- No usable entry contains the whole page. -/
def EdgePage (map : List MemoryMap) (i : Nat) : Prop :=
  ∀ entry ∈ map, entry.usable = true →
    ¬(entry.base.toNat ≤ i * 4096 ∧ i * 4096 + 4096 ≤ entry.base.toNat + entry.len.toNat)

/-- The map reaches past the kernel, and the pages it marks usable last are whole. -/
structure EdgesUsable (map : List MemoryMap) (kernelEnd : Word) : Prop where
  reaches : (v2p kernelEnd).toNat / 4096 < ((highestAddr map).toNat + 4096) % 2 ^ 64 / 4096
  pages : ∀ i, lastMark (highestAddr map) map i = some true → (v2p kernelEnd).toNat / 4096 < i →
    ¬(pmmPlan map kernelEnd).Protects i →
    (EdgePage map i → ∀ byte, InPage i byte → ∃ entry ∈ map, entry.usable = true ∧ entry.Covers byte) ∧
    (∀ entry ∈ map, entry.usable = false → ∀ byte, InPage i byte → ¬entry.Covers byte) ∧
    (∀ byte, InPage i byte → ¬(pmmPlan map kernelEnd).InArray byte)

variable {map : List MemoryMap} {kernelEnd : Word}

theorem pmmStatus_eq_true_iff (i : Nat) :
    pmmStatus map kernelEnd i = some true ↔
      lastMark (highestAddr map) map i = some true ∧ (v2p kernelEnd).toNat / 4096 < i := by
  unfold pmmStatus
  by_cases own : i ≤ (v2p kernelEnd).toNat / 4096
  · rw [if_pos own]
    simp only [Option.some.injEq, Bool.false_eq_true, false_iff, not_and]
    intro _
    omega
  · rw [if_neg own]
    constructor
    · intro last
      exact ⟨last, by omega⟩
    · intro both
      exact both.1

theorem lastMark_le {highest : Word} {i : Nat} {kind : Bool} (map : List MemoryMap)
    (last : lastMark highest map i = some kind) : i ≤ highest.toNat / 4096 := by
  have general : ∀ (entries : List MemoryMap) (start : Option Bool),
      entries.foldl (fun last entry => if entry.touches highest i then some entry.usable else last)
        start = some kind → start = some kind ∨ i ≤ highest.toNat / 4096 := by
    intro entries
    induction entries with
    | nil => exact fun start same => Or.inl same
    | cons entry rest ih =>
      intro start same
      rcases ih _ same with turn | bound
      · simp only at turn
        split at turn
        · rename_i touched
          simp only [MemoryMap.touches, decide_eq_true_eq, BitVec.le_def] at touched
          right
          have stopBound : entry.stop.toNat / 4096 ≤ highest.toNat / 4096 :=
            Nat.div_le_div_right touched.1
          omega
        · exact Or.inl turn
      · exact Or.inr bound
  rcases general map none last with impossible | bound
  · cases impossible
  · exact bound

theorem pmmInit_address {before : Frames} (static : before.Static) (noWrap : NoWrap map)
    (reaches : (v2p kernelEnd).toNat / 4096 < (pmmPlan map kernelEnd).numpages.toNat) {i : Nat}
    (inside : i < (pmmPlan map kernelEnd).numpages.toNat) :
    ((pmmInit map kernelEnd before).page (.elem i)).address.toNat = i * 4096 := by
  obtain ⟨free, used, lru, sorted⟩ := pmmInit_sorted map kernelEnd before static noWrap reaches
  have fresh := pageInit_fresh (highestAddr map) (v2p kernelEnd) static
  rw [pmmPlan_numpages] at inside
  rw [sorted.sameAddress, fresh.address i]
  · exact pageAddress_toNat (by omega)
  · rw [fresh.numpages]
    change i < (pmmPlan map kernelEnd).numpages.toNat
    rw [pmmPlan_numpages]
    exact inside

/-! ### The condition is enough -/

theorem EdgesUsable.onlyUsableFree (noWrap : NoWrap map) (edges : EdgesUsable map kernelEnd) :
    OnlyUsableFree map kernelEnd := by
  intro before static node onList byte low high
  have reaches := edges.reaches
  rw [← pmmPlan_numpages map kernelEnd] at reaches
  obtain ⟨free, used, lru, sorted⟩ := pmmInit_sorted map kernelEnd before static noWrap reaches
  obtain ⟨i, inFree, rfl⟩ := List.mem_map.mp (sorted.freeRing.follows_iff.mp onList)
  have onFree := (onFree_iff sorted.toRings i).mpr inFree
  obtain ⟨inside, _, free, status⟩ :=
    (pmmInit_onFree map kernelEnd before static noWrap reaches i).mp onFree
  obtain ⟨last, past⟩ := (pmmStatus_eq_true_iff i).mp status
  change ((pmmInit map kernelEnd before).page (.elem i)).address.toNat ≤ byte at low
  change byte < ((pmmInit map kernelEnd before).page (.elem i)).address.toNat + 4096 at high
  rw [pmmInit_address static noWrap reaches inside] at low high
  obtain ⟨covered, unreserved, outside⟩ := edges.pages i last past free
  refine ⟨?_, fun entry member kind => unreserved entry member kind byte ⟨low, high⟩, by omega,
    outside byte ⟨low, high⟩⟩
  by_cases edge : EdgePage map i
  · exact covered edge byte ⟨low, high⟩
  · unfold EdgePage at edge
    push Not at edge
    obtain ⟨entry, member, isUsable, below, above⟩ := edge
    exact ⟨entry, member, isUsable, by omega, by omega⟩

/-! ### The condition is needed: pages of the array -/

private theorem blank_isOpen (i : Nat) : Frames.blank.isOpen i = true := by
  simp [Frames.isOpen, Frames.blank]

private theorem OnlyUsableFree.pages (noWrap : NoWrap map)
    (reaches : (v2p kernelEnd).toNat / 4096 < (pmmPlan map kernelEnd).numpages.toNat)
    (only : OnlyUsableFree map kernelEnd) {i : Nat}
    (last : lastMark (highestAddr map) map i = some true)
    (past : (v2p kernelEnd).toNat / 4096 < i) (unprotected : ¬(pmmPlan map kernelEnd).Protects i)
    {byte : Nat} (inPage : InPage i byte) : Allocatable map kernelEnd byte := by
  have bound := lastMark_le map last
  have inside : i < (pmmPlan map kernelEnd).numpages.toNat := by
    rw [pmmPlan_numpages] at reaches ⊢
    omega
  have onFree := (pmmInit_onFree map kernelEnd Frames.blank blank_static noWrap reaches i).mpr
    ⟨inside, blank_isOpen i, unprotected, (pmmStatus_eq_true_iff i).mpr ⟨last, past⟩⟩
  have address := pmmInit_address blank_static noWrap reaches inside
  apply only Frames.blank blank_static (pagesOf i) onFree byte
  · change ((pmmInit map kernelEnd Frames.blank).page (.elem i)).address.toNat ≤ byte
    rw [address]
    exact inPage.1
  · change byte < ((pmmInit map kernelEnd Frames.blank).page (.elem i)).address.toNat + 4096
    rw [address]
    exact inPage.2

/-! ### The condition is needed: page structures past the array -/

private theorem listMoveTail_next (heap : Heap Node) (head entry node : Node) :
    (listMoveTail heap head entry).next node =
      if node = (if head = heap.next entry then heap.prev entry else heap.prev head) then entry
      else if node = entry then head
      else if node = heap.prev entry then heap.next entry else heap.next node := by
  simp only [listMoveTail, listAddTail, listAddBetween, listDel, listDelBetween, Heap.setNext,
    Heap.setPrev, Function.update_apply]

private theorem listMoveTail_prev (heap : Heap Node) (head entry node : Node) :
    (listMoveTail heap head entry).prev node =
      if node = entry then (if head = heap.next entry then heap.prev entry else heap.prev head)
      else if node = head then entry
      else if node = heap.next entry then heap.prev entry else heap.prev node := by
  simp only [listMoveTail, listAddTail, listAddBetween, listDel, listDelBetween, Heap.setNext,
    Heap.setPrev, Function.update_apply]

/-- The pointers of page `n` as leftover memory may hold them: its lru node names
the free head as its predecessor and a stray page as its successor. -/
private structure Lurking (n : Nat) (heap : Heap Node) : Prop where
  usedHead : heap.prev (.head .used) = .head .used
  lruHead : heap.prev (.head .lru) = .head .lru
  pagesPrev : heap.prev (pagesOf n) = .pages (.stack 0)
  pagesNext : heap.next (pagesOf n) = .head .free
  lruPrev : heap.prev (lruOf n) = .head .free
  lruNext : heap.next (lruOf n) = .pages (.stack 1)

/-- The free list leads to the stray page, and no node that still moves has the
free head as its predecessor. -/
private structure Derailed (n : Nat) (heap : Heap Node) : Prop where
  first : heap.next (.head .free) = .pages (.stack 1)
  heads : ∀ list, heap.prev (.head list) ≠ .head .free
  pages : heap.prev (pagesOf n) ≠ .head .free
  lru : heap.prev (lruOf n) ≠ .head .free

private theorem Derailed.move {n : Nat} {heap : Heap Node} (derailed : Derailed n heap)
    (list : ListHead) {entry : Node} (isEntry : entry = pagesOf n ∨ entry = lruOf n) :
    Derailed n (listMoveTail heap (.head list) entry) := by
  have notHead : ∀ other, entry ≠ .head other := by
    rcases isEntry with rfl | rfl
    · simp
    · simp
  have away : heap.prev entry ≠ .head .free := by
    rcases isEntry with rfl | rfl
    · exact derailed.pages
    · exact derailed.lru
  have tail : (if .head list = heap.next entry then heap.prev entry
      else heap.prev (.head list)) ≠ .head .free := by
    split
    · exact away
    · exact derailed.heads list
  have prevAway : ∀ node, heap.prev node ≠ .head .free →
      (listMoveTail heap (.head list) entry).prev node ≠ .head .free := by
    intro node before
    rw [listMoveTail_prev]
    split
    · exact tail
    · split
      · exact notHead .free
      · split
        · exact away
        · exact before
  refine ⟨?_, fun other => prevAway _ (derailed.heads other), prevAway _ derailed.pages,
    prevAway _ derailed.lru⟩
  rw [listMoveTail_next, if_neg (Ne.symm tail), if_neg (Ne.symm (notHead .free)),
    if_neg (Ne.symm away)]
  exact derailed.first

private theorem Lurking.moveFree {n : Nat} {heap : Heap Node} (lurking : Lurking n heap) :
    Lurking n (listMoveTail heap (.head .free) (pagesOf n)) := by
  constructor
  · simp [listMoveTail_prev, lurking.pagesNext, lurking.usedHead]
  · simp [listMoveTail_prev, lurking.pagesNext, lurking.lruHead]
  · simp [listMoveTail_prev, lurking.pagesNext, lurking.pagesPrev]
  · simp [listMoveTail_next, lurking.pagesNext, lurking.pagesPrev]
  · simp [listMoveTail_prev, lurking.pagesNext, lurking.lruPrev]
  · simp [listMoveTail_next, lurking.pagesNext, lurking.pagesPrev, lurking.lruNext]

private theorem Lurking.moveUsed {n : Nat} {heap : Heap Node} (lurking : Lurking n heap) :
    Derailed n (listMoveTail (listMoveTail heap (.head .used) (pagesOf n)) (.head .lru)
      (lruOf n)) := by
  have lruPrev : (listMoveTail heap (.head .used) (pagesOf n)).prev (lruOf n) = .head .free := by
    simp [listMoveTail_prev, lurking.pagesNext, lurking.lruPrev]
  have lruNext : (listMoveTail heap (.head .used) (pagesOf n)).next (lruOf n) =
      .pages (.stack 1) := by
    simp [listMoveTail_next, lurking.pagesNext, lurking.pagesPrev, lurking.usedHead,
      lurking.lruNext]
  have lruHead : (listMoveTail heap (.head .used) (pagesOf n)).prev (.head .lru) = .head .lru := by
    simp [listMoveTail_prev, lurking.pagesNext, lurking.lruHead]
  constructor
  · simp [listMoveTail_next _ (.head .lru), lruPrev, lruNext, lruHead]
  · intro list
    rw [listMoveTail_prev, lruPrev, lruNext, lruHead]
    cases list with
    | free => simp [listMoveTail_prev, lurking.pagesNext, lurking.pagesPrev]
    | used => simp [listMoveTail_prev]
    | lru => simp
  · rw [listMoveTail_prev, lruPrev, lruNext, lruHead]
    simp [listMoveTail_prev, lurking.pagesNext, lurking.usedHead]
  · rw [listMoveTail_prev, lruPrev, lruNext, lruHead]
    simp

/-- Page `n` is the only one `page_mark_range` may touch, and the stray page
claims the end of the address space. -/
private structure Stray (n : Nat) (frames : Frames) : Prop where
  isOpen : ∀ i, frames.isOpen i = true ↔ i = n
  address : (frames.page (.stack 1)).address = BitVec.allOnes 64
  heap : Lurking n frames.heap ∨ Derailed n frames.heap

private theorem setFlags_stray {n : Nat} {frames : Frames} {flags : Word} (stray : Stray n frames)
    (stays : flags &&& protectedFlags = 0) (i : Nat) :
    (frames.setFlags (.elem n) flags).isOpen i = true ↔ i = n := by
  by_cases same : i = n
  · subst same
    simpa [Frames.isOpen, Frames.setFlags, Frames.setPage] using stays
  · have different : PagePtr.elem i ≠ .elem n := fun equal => same (by injection equal)
    rw [← stray.isOpen i]
    unfold Frames.isOpen
    rw [setFlags_page_of_ne frames flags different]

private theorem Stray.mark {n : Nat} {frames : Frames} {flags : BitVec 32}
    (stray : Stray n frames) (stays : flagWord flags &&& protectedFlags = 0) (i : Nat) :
    Stray n (markPage flags frames i) ∧
      (Derailed n frames.heap ∨ marksUsed flags = true ∧ i = n →
        Derailed n (markPage flags frames i).heap) := by
  by_cases here : i = n
  · subst here
    have isOpen := (stray.isOpen i).mpr rfl
    cases kind : marksUsed flags with
    | true =>
      rw [markPage_of_used isOpen kind]
      have derailed : Derailed i (listMoveTail
          (listMoveTail frames.heap (.head .used) (pagesOf i)) (.head .lru) (lruOf i)) := by
        rcases stray.heap with lurking | derailed
        · exact lurking.moveUsed
        · exact (derailed.move .used (Or.inl rfl)).move .lru (Or.inr rfl)
      exact ⟨⟨setFlags_stray stray stays, stray.address, Or.inr derailed⟩, fun _ => derailed⟩
    | false =>
      rw [markPage_of_free isOpen kind]
      have heap : Lurking i (listMoveTail frames.heap (.head .free) (pagesOf i)) ∨
          Derailed i (listMoveTail frames.heap (.head .free) (pagesOf i)) := by
        rcases stray.heap with lurking | derailed
        · exact Or.inl lurking.moveFree
        · exact Or.inr (derailed.move .free (Or.inl rfl))
      refine ⟨⟨setFlags_stray stray stays, stray.address, heap⟩, ?_⟩
      rintro (derailed | ⟨impossible, _⟩)
      · exact derailed.move .free (Or.inl rfl)
      · cases impossible
  · have closed : frames.isOpen i = false := by
      rw [Bool.eq_false_iff]
      exact fun isOpen => here ((stray.isOpen i).mp isOpen)
    rw [markPage_of_not_open closed]
    refine ⟨stray, ?_⟩
    rintro (derailed | ⟨_, impossible⟩)
    · exact derailed
    · exact absurd impossible here

private theorem Stray.marks {n : Nat} {frames : Frames} {flags : BitVec 32} (indices : List Nat)
    (stray : Stray n frames) (stays : flagWord flags &&& protectedFlags = 0) :
    Stray n (indices.foldl (markPage flags) frames) ∧
      (Derailed n frames.heap ∨ marksUsed flags = true ∧ n ∈ indices →
        Derailed n (indices.foldl (markPage flags) frames).heap) := by
  induction indices generalizing frames with
  | nil =>
    refine ⟨stray, ?_⟩
    rintro (derailed | ⟨_, impossible⟩)
    · exact derailed
    · cases impossible
  | cons i rest ih =>
    obtain ⟨turn, turned⟩ := stray.mark stays i
    obtain ⟨final, reached⟩ := ih turn
    refine ⟨final, ?_⟩
    rintro (derailed | ⟨isUsed, member⟩)
    · exact reached (Or.inl (turned (Or.inl derailed)))
    · rcases List.mem_cons.mp member with same | later
      · exact reached (Or.inl (turned (Or.inr ⟨isUsed, same.symm⟩)))
      · exact reached (Or.inr ⟨isUsed, later⟩)

private theorem Stray.range {n : Nat} {frames : Frames} {flags : BitVec 32} (low high : Word)
    (stray : Stray n frames) (stays : flagWord flags &&& protectedFlags = 0) :
    Stray n (pageMarkRange low high flags frames).2 := by
  by_cases marks : Marks low high flags
  · rw [pageMarkRange_of_marks marks]
    exact (stray.marks _ stays).1
  · rw [pageMarkRange_of_not_marks marks]
    exact stray

private theorem Stray.entries {n : Nat} {frames : Frames} (highest : Word)
    (entries : List MemoryMap) (stray : Stray n frames) :
    Stray n (entries.foldl (markEntry highest) frames) := by
  induction entries generalizing frames with
  | nil => exact stray
  | cons entry rest ih =>
    rw [List.foldl_cons]
    apply ih
    unfold markEntry
    split
    · split
      · exact stray.range _ _ (by decide)
      · exact stray.range _ _ (by decide)
    · exact stray

/-- Memory that makes page `n` look open and its list pointers lead astray. -/
private def strayMemory (n : Nat) : Frames where
  heap :=
    { next := fun node =>
        if node = pagesOf n then .head .free
        else if node = lruOf n then .pages (.stack 1) else node
      prev := fun node =>
        if node = pagesOf n then .pages (.stack 0)
        else if node = lruOf n then .head .free else node }
  page := fun pointer =>
    { address := BitVec.allOnes 64
      flags := if pointer = .elem n then 0 else protectedFlags
      data := 0 }
  numpages := 0
  parray := 0
  numFreePages := 0
  numUsedPages := 0

private theorem strayMemory_static (n : Nat) : (strayMemory n).Static := by
  refine ⟨⟨?_, ?_⟩, ⟨?_, ?_⟩, ⟨?_, ?_⟩, rfl, rfl⟩
  · simp [strayMemory]
  · simp [strayMemory]
  · simp [strayMemory]
  · simp [strayMemory]
  · simp [strayMemory]
  · simp [strayMemory]

private theorem strayMemory_isOpen (n i : Nat) : (strayMemory n).isOpen i = true ↔ i = n := by
  by_cases same : i = n
  · subst same
    simp [Frames.isOpen, strayMemory]
  · have closed : protectedFlags &&& protectedFlags ≠ 0 := by decide
    simpa [Frames.isOpen, strayMemory, same] using closed

/-- The page structures `page_init` closes lie past the kernel when the array is short. -/
private theorem not_protects_of_short (memory : Word) {table : Word}
    (tableSmall : table.toNat < 2 ^ 31)
    (short : (pageInitPlan memory table).numpages.toNat ≤ table.toNat / 4096) :
    ¬(pageInitPlan memory table).Protects (pageInitPlan memory table).numpages.toNat := by
  rintro (⟨mmu, member, nonzero, same⟩ | ⟨k, below, same⟩)
  · obtain ⟨k, _, value⟩ := pageInitPlan_mmu memory tableSmall member nonzero
    rw [roundDown_div_page, value] at same
    omega
  · have first := pageInitPlan_table memory tableSmall
    have tableBound : (pageInitPlan memory table).table.toNat / 4096 ≤ table.toNat / 4096 + 4 := by
      rw [first]
      split
      · omega
      · omega
    have tableAbove : table.toNat / 4096 < (pageInitPlan memory table).table.toNat / 4096 := by
      rw [first]
      omega
    rw [pageInitPlan_r] at below
    rw [markIndex_of_lt (by omega)] at same
    omega

private theorem strayMemory_init {map : List MemoryMap} {kernelEnd : Word}
    (short : (pmmPlan map kernelEnd).numpages.toNat ≤ (v2p kernelEnd).toNat / 4096) :
    Stray (pmmPlan map kernelEnd).numpages.toNat
      (pageInit (highestAddr map) (v2p kernelEnd)
        (strayMemory (pmmPlan map kernelEnd).numpages.toNat)) := by
  have kernelSmall : (v2p kernelEnd).toNat < 2 ^ 31 := by
    rw [v2p_toNat]
    omega
  have unprotected := not_protects_of_short (highestAddr map) kernelSmall short
  change ¬(pmmPlan map kernelEnd).Protects (pmmPlan map kernelEnd).numpages.toNat at unprotected
  obtain ⟨nodes, addresses⟩ := pageInit_outside (highestAddr map) (v2p kernelEnd)
    (strayMemory (pmmPlan map kernelEnd).numpages.toNat)
  change ∀ node, (∀ i, i < (pmmPlan map kernelEnd).numpages.toNat → _) → _ at nodes
  generalize planEq : pmmPlan map kernelEnd = plan at *
  have pagesKept := nodes (pagesOf plan.numpages.toNat) fun i below => by
    refine ⟨by simp, ?_⟩
    intro same
    have := pagesOf_injective same
    omega
  have lruKept := nodes (lruOf plan.numpages.toNat) fun i below => by
    refine ⟨?_, by simp⟩
    intro same
    have := lruOf_injective same
    omega
  have usedKept := nodes (.head .used) fun i _ => ⟨by simp, by simp⟩
  have lruHeadKept := nodes (.head .lru) fun i _ => ⟨by simp, by simp⟩
  refine ⟨?_, ?_, Or.inl ?_⟩
  · intro i
    rw [pageInit_isOpen, strayMemory_isOpen]
    change i = plan.numpages.toNat ∧ ¬(pmmPlan map kernelEnd).Protects i ↔ _
    rw [planEq]
    constructor
    · intro both
      exact both.1
    · rintro rfl
      exact ⟨rfl, unprotected⟩
  · rw [addresses (.stack 1) fun i _ => by simp]
    rfl
  · constructor
    · rw [usedKept.2]
      simp [strayMemory]
    · rw [lruHeadKept.2]
      simp [strayMemory]
    · rw [pagesKept.2]
      simp [strayMemory]
    · rw [pagesKept.1]
      simp [strayMemory]
    · rw [lruKept.2]
      simp [strayMemory]
    · rw [lruKept.1]
      simp [strayMemory]

private theorem OnlyUsableFree.reaches (noWrap : NoWrap map)
    (only : OnlyUsableFree map kernelEnd) :
    (v2p kernelEnd).toNat / 4096 < (pmmPlan map kernelEnd).numpages.toNat := by
  by_contra notBelow
  have short : (pmmPlan map kernelEnd).numpages.toNat ≤ (v2p kernelEnd).toNat / 4096 := by omega
  have started := strayMemory_init short
  have marked := started.entries (highestAddr map) map
  have kernelSmall : (v2p kernelEnd).toNat + 4096 < 2 ^ 64 := by
    rw [v2p_toNat]
    omega
  have marks : Marks 0 (v2p kernelEnd) kernelFlags := by
    refine ⟨?_, by decide⟩
    rw [BitVec.le_def]
    exact Nat.zero_le _
  -- the kernel's own range takes in the first page structure past the array
  have stays : flagWord kernelFlags &&& protectedFlags = 0 := by decide
  obtain ⟨final, reached⟩ := marked.marks
    (List.range' (markBounds 0 (v2p kernelEnd)).1
      ((markBounds 0 (v2p kernelEnd)).2 - (markBounds 0 (v2p kernelEnd)).1)) stays
  have inRange : (pmmPlan map kernelEnd).numpages.toNat ∈
      List.range' (markBounds 0 (v2p kernelEnd)).1
        ((markBounds 0 (v2p kernelEnd)).2 - (markBounds 0 (v2p kernelEnd)).1) := by
    rw [List.mem_range'_1, markBounds_of_lt 0 (v2p kernelEnd) kernelSmall]
    change 0 / 4096 ≤ _ ∧ _ < 0 / 4096 + (_ - 0 / 4096)
    omega
  have derailed := reached (Or.inr ⟨by decide, inRange⟩)
  have result : pmmInit map kernelEnd (strayMemory (pmmPlan map kernelEnd).numpages.toNat) = _ :=
    congrArg Prod.snd (pageMarkRange_of_marks marks)
  have onList : (pmmInit map kernelEnd
      (strayMemory (pmmPlan map kernelEnd).numpages.toNat)).heap.Follows (.head .free)
      (.pages (.stack 1)) := by
    rw [result]
    exact ⟨0, derailed.first, by simp⟩
  have address : ((pmmInit map kernelEnd (strayMemory (pmmPlan map kernelEnd).numpages.toNat)).page
      (.stack 1)).address = BitVec.allOnes 64 := by
    rw [result]
    exact final.address
  have allocatable := only _ (strayMemory_static _) _ onList (2 ^ 64 - 1)
    (by
      change ((pmmInit map kernelEnd _).page (.stack 1)).address.toNat ≤ 2 ^ 64 - 1
      rw [address]
      decide)
    (by
      change 2 ^ 64 - 1 < ((pmmInit map kernelEnd _).page (.stack 1)).address.toNat + 4096
      rw [address]
      decide)
  obtain ⟨entry, member, _, _, above⟩ := allocatable.usable
  have := noWrap entry member
  omega

/-- Only usable memory becomes allocatable exactly when the map reaches past the
kernel and its edge pages are whole. -/
theorem onlyUsableFree_iff (map : List MemoryMap) (kernelEnd : Word) (noWrap : NoWrap map) :
    OnlyUsableFree map kernelEnd ↔ EdgesUsable map kernelEnd := by
  constructor
  · intro only
    have reaches := only.reaches noWrap
    refine ⟨by rw [← pmmPlan_numpages map kernelEnd]; exact reaches, ?_⟩
    intro i last past unprotected
    have allocatable := fun byte (inPage : InPage i byte) =>
      only.pages noWrap reaches last past unprotected inPage
    refine ⟨fun _ byte inPage => (allocatable byte inPage).usable, ?_, ?_⟩
    · intro entry member kind byte inPage
      exact (allocatable byte inPage).unreserved entry member kind
    · intro byte inPage
      exact (allocatable byte inPage).outsideArray
  · exact fun edges => edges.onlyUsableFree noWrap

/-! ### Two maps -/

/-- Eight megabytes whose last page is reserved by a later entry. -/
def reservedTopMap : List MemoryMap :=
  [⟨0x100000, 0x700000, 1⟩, ⟨0x7FF000, 0x1000, 2⟩]

private theorem reservedTopMap_edges : EdgesUsable reservedTopMap 0xFFFFFFFF80101000 := by
  have highest : highestAddr reservedTopMap = 0x800000 := by decide
  have numpages : (pmmPlan reservedTopMap 0xFFFFFFFF80101000).numpages.toNat = 0x801 := by decide
  have r : (pmmPlan reservedTopMap 0xFFFFFFFF80101000).r.toNat = 0x21 := by decide
  have table : (pmmPlan reservedTopMap 0xFFFFFFFF80101000).table.toNat = 0x102000 := by decide
  have kernel : (v2p 0xFFFFFFFF80101000).toNat = 0x101000 := by decide
  have range : ∀ i, lastMark (highestAddr reservedTopMap) reservedTopMap i = some true →
      0x100 ≤ i ∧ i < 0x7FF := by
    intro i last
    rw [highest] at last
    have second : MemoryMap.touches 0x800000 ⟨0x7FF000, 0x1000, 2⟩ i = true ↔
        0x7FF ≤ i ∧ i ≤ 0x800 := by
      simp [MemoryMap.touches, MemoryMap.stop]
    have first : MemoryMap.touches 0x800000 ⟨0x100000, 0x700000, 1⟩ i = true ↔
        0x100 ≤ i ∧ i ≤ 0x800 := by
      simp [MemoryMap.touches, MemoryMap.stop]
    simp only [lastMark, reservedTopMap, List.foldl_cons, List.foldl_nil] at last
    split at last
    · cases last
    · rename_i notSecond
      split at last
      · rename_i inFirst
        rw [second] at notSecond
        rw [first] at inFirst
        omega
      · cases last
  refine ⟨by rw [highest, kernel]; decide, ?_⟩
  intro i last past unprotected
  obtain ⟨low, high⟩ := range i last
  rw [kernel] at past
  refine ⟨?_, ?_, ?_⟩
  · intro edge
    apply False.elim
    refine edge ⟨0x100000, 0x700000, 1⟩ (by simp [reservedTopMap]) (by decide) ?_
    change 0x100000 ≤ i * 4096 ∧ i * 4096 + 4096 ≤ 0x100000 + 0x700000
    omega
  · intro entry member reserved byte inPage covers
    simp only [reservedTopMap, List.mem_cons, List.not_mem_nil, or_false] at member
    rcases member with rfl | rfl
    · cases reserved
    · have above : 0x7FF000 ≤ byte := covers.1
      have := inPage.2
      omega
  · intro byte inPage inArray
    unfold InitPlan.InArray at inArray
    rw [table, numpages] at inArray
    apply unprotected
    right
    refine ⟨i - 0x102, ?_, ?_⟩
    · rw [r]
      have := inPage.1
      omega
    · rw [markIndex_of_lt]
      · rw [table]
        omega
      · rw [table]
        omega

theorem onlyUsableFree_reservedTopMap : OnlyUsableFree reservedTopMap 0xFFFFFFFF80101000 :=
  (onlyUsableFree_iff reservedTopMap 0xFFFFFFFF80101000 (by
    intro entry member
    simp only [reservedTopMap, List.mem_cons, List.not_mem_nil, or_false] at member
    rcases member with rfl | rfl
    · decide
    · decide)).mpr reservedTopMap_edges

/-- The map a small virtual machine reports. -/
def emulatorMap : List MemoryMap :=
  [⟨0, 0x9FC00, 1⟩, ⟨0x9FC00, 0x400, 2⟩, ⟨0xF0000, 0x10000, 2⟩, ⟨0x100000, 0x7EE0000, 1⟩,
    ⟨0x7FE0000, 0x20000, 2⟩, ⟨0xFFFC0000, 0x40000, 2⟩]

theorem emulatorMap_noWrap : NoWrap emulatorMap := by
  intro entry member
  simp only [emulatorMap, List.mem_cons, List.not_mem_nil, or_false] at member
  rcases member with rfl | rfl | rfl | rfl | rfl | rfl
  · decide
  · decide
  · decide
  · decide
  · decide
  · decide

/-- The page just past the last usable byte, which is reserved, becomes free. -/
theorem page_past_usable_becomes_free : ¬OnlyUsableFree emulatorMap 0xFFFFFFFF8010C000 := by
  intro only
  have r : (pmmPlan emulatorMap 0xFFFFFFFF8010C000).r.toNat = 0x200 := by decide
  have table : (pmmPlan emulatorMap 0xFFFFFFFF8010C000).table.toNat = 0x10D000 := by decide
  have noTables : (pmmPlan emulatorMap 0xFFFFFFFF8010C000).mmu = [0, 0, 0] := by decide
  have unprotected : ¬(pmmPlan emulatorMap 0xFFFFFFFF8010C000).Protects 0x7FE0 := by
    rintro (⟨mmu, member, nonzero, _⟩ | ⟨k, below, same⟩)
    · rw [noTables] at member
      simp only [List.mem_cons, List.not_mem_nil, or_false, or_self] at member
      exact nonzero member
    · rw [r] at below
      rw [markIndex_of_lt (by rw [table]; omega), table] at same
      omega
  have allocatable := only.pages emulatorMap_noWrap (by decide) (by decide) (by decide)
    unprotected (show InPage 0x7FE0 0x7FE0000 from ⟨by decide, by decide⟩)
  refine allocatable.unreserved ⟨0x7FE0000, 0x20000, 2⟩ ?_ (by decide) ⟨by decide, by decide⟩
  simp [emulatorMap]

end Osdev64
