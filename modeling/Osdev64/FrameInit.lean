/-
What `page_init` leaves behind.

The loop over the page array initialises both list nodes and the address of
every page, and nothing else: the flags keep whatever the memory held before.
The two later loops only write flags.
-/

import Osdev64.FrameLists

namespace Osdev64

open PointerRing Word64

/-- The statically initialised data: the three heads and the two counters. -/
structure Frames.Static (frames : Frames) : Prop where
  freeHead : frames.heap.SelfLinked (.head .free)
  usedHead : frames.heap.SelfLinked (.head .used)
  lruHead : frames.heap.SelfLinked (.head .lru)
  numFree : frames.numFreePages = 0
  numUsed : frames.numUsedPages = 0

/-- Equal up to the flags of the pages. -/
structure SameCore (frames frames' : Frames) : Prop where
  heap : frames'.heap = frames.heap
  numpages : frames'.numpages = frames.numpages
  parray : frames'.parray = frames.parray
  numFree : frames'.numFreePages = frames.numFreePages
  numUsed : frames'.numUsedPages = frames.numUsedPages
  address : ∀ pointer, (frames'.page pointer).address = (frames.page pointer).address
  data : ∀ pointer, (frames'.page pointer).data = (frames.page pointer).data

theorem SameCore.refl (frames : Frames) : SameCore frames frames :=
  ⟨rfl, rfl, rfl, rfl, rfl, fun _ => rfl, fun _ => rfl⟩

theorem SameCore.trans {first second third : Frames} (left : SameCore first second)
    (right : SameCore second third) : SameCore first third where
  heap := right.heap.trans left.heap
  numpages := right.numpages.trans left.numpages
  parray := right.parray.trans left.parray
  numFree := right.numFree.trans left.numFree
  numUsed := right.numUsed.trans left.numUsed
  address := fun pointer => (right.address pointer).trans (left.address pointer)
  data := fun pointer => (right.data pointer).trans (left.data pointer)

theorem setFlags_sameCore (frames : Frames) (pointer : PagePtr) (flags : Word) :
    SameCore frames (frames.setFlags pointer flags) := by
  refine ⟨rfl, rfl, rfl, rfl, rfl, ?_, ?_⟩
  · intro other
    by_cases same : other = pointer
    · simp [Frames.setFlags, Frames.setPage, same]
    · rw [setFlags_page_of_ne frames flags same]
  · intro other
    by_cases same : other = pointer
    · simp [Frames.setFlags, Frames.setPage, same]
    · rw [setFlags_page_of_ne frames flags same]

theorem foldl_sameCore {α : Type} {step : Frames → α → Frames}
    (core : ∀ frames item, SameCore frames (step frames item)) (items : List α)
    (frames : Frames) : SameCore frames (items.foldl step frames) := by
  induction items generalizing frames with
  | nil => exact SameCore.refl frames
  | cons item rest ih => exact (core frames item).trans (ih (step frames item))

theorem markTablePage_sameCore (frames : Frames) (mmu : Word) :
    SameCore frames (markTablePage frames mmu) := by
  unfold markTablePage
  split
  · exact SameCore.refl frames
  · exact setFlags_sameCore frames _ _

theorem markArrayPage_sameCore (table : Word) (frames : Frames) (i : Nat) :
    SameCore frames (markArrayPage table frames i) :=
  setFlags_sameCore frames _ _

/-! ### The loop over the page array -/

/-- The first `count` pages of the array are initialised. -/
structure Initialised (count : Nat) (frames frames' : Frames) : Prop where
  numpages : frames'.numpages = frames.numpages
  parray : frames'.parray = frames.parray
  numFree : frames'.numFreePages = frames.numFreePages
  numUsed : frames'.numUsedPages = frames.numUsedPages
  lruNode : ∀ i, i < count → frames'.heap.SelfLinked (lruOf i)
  pagesNode : ∀ i, i < count → frames'.heap.SelfLinked (pagesOf i)
  others : ∀ node, (∀ i, i < count → node ≠ lruOf i ∧ node ≠ pagesOf i) →
    Agrees frames.heap frames'.heap node
  address : ∀ i, i < count →
    (frames'.page (.elem i)).address = BitVec.ofNat 64 i * pageSize
  elsewhere : ∀ pointer, (∀ i, i < count → pointer ≠ .elem i) →
    frames'.page pointer = frames.page pointer
  flags : ∀ pointer, (frames'.page pointer).flags = (frames.page pointer).flags
  data : ∀ pointer, (frames'.page pointer).data = (frames.page pointer).data

private theorem initPage_heap (frames : Frames) (i : Nat) :
    (initPage frames i).heap = listInit (listInit frames.heap (lruOf i)) (pagesOf i) := rfl

private theorem initPage_agrees (frames : Frames) (i : Nat) {node : Node}
    (notLru : node ≠ lruOf i) (notPages : node ≠ pagesOf i) :
    Agrees frames.heap (initPage frames i).heap node := by
  rw [initPage_heap]
  exact (listInit_agrees frames.heap notLru).trans (listInit_agrees _ notPages)

private theorem initPage_page (frames : Frames) (i : Nat) (pointer : PagePtr) :
    (initPage frames i).page pointer =
      if pointer = .elem i then
        { frames.page pointer with address := BitVec.ofNat 64 i * pageSize }
      else frames.page pointer := by
  by_cases same : pointer = .elem i
  · subst same
    simp [initPage, Frames.setPage]
  · simp [initPage, Frames.setPage, same]

theorem initPages_spec (count : Nat) (frames : Frames) :
    Initialised count frames ((List.range count).foldl initPage frames) := by
  induction count with
  | zero =>
    refine ⟨rfl, rfl, rfl, rfl, ?_, ?_, fun _ _ => ⟨rfl, rfl⟩, ?_, fun _ _ => rfl,
      fun _ => rfl, fun _ => rfl⟩
    · intro i impossible
      exact False.elim (Nat.not_lt_zero i impossible)
    · intro i impossible
      exact False.elim (Nat.not_lt_zero i impossible)
    · intro i impossible
      exact False.elim (Nat.not_lt_zero i impossible)
  | succ count ih =>
    rw [List.range_succ, List.foldl_append, List.foldl_cons, List.foldl_nil]
    generalize (List.range count).foldl initPage frames = middle at ih
    refine ⟨ih.numpages, ih.parray, ih.numFree, ih.numUsed, ?_, ?_, ?_, ?_, ?_, ?_, ?_⟩
    · intro i below
      by_cases last : i = count
      · subst last
        rw [initPage_heap]
        exact (listInit_agrees _ (by simp)).selfLinked (listInit_selfLinked _ _)
      · refine (initPage_agrees middle count ?_ (by simp)).selfLinked
          (ih.lruNode i (by omega))
        intro same
        exact last (lruOf_injective same)
    · intro i below
      by_cases last : i = count
      · subst last
        rw [initPage_heap]
        exact listInit_selfLinked _ _
      · refine (initPage_agrees middle count (by simp) ?_).selfLinked
          (ih.pagesNode i (by omega))
        intro same
        exact last (pagesOf_injective same)
    · intro node outside
      refine (ih.others node fun i below => outside i (by omega)).trans ?_
      exact initPage_agrees middle count (outside count (by omega)).1
        (outside count (by omega)).2
    · intro i below
      rw [initPage_page]
      by_cases last : i = count
      · rw [if_pos (by rw [last]), last]
      · rw [if_neg (fun same => last (by injection same))]
        exact ih.address i (by omega)
    · intro pointer outside
      rw [initPage_page, if_neg (outside count (by omega))]
      exact ih.elsewhere pointer fun i below => outside i (by omega)
    · intro pointer
      rw [initPage_page]
      split
      · exact ih.flags pointer
      · exact ih.flags pointer
    · intro pointer
      rw [initPage_page]
      split
      · exact ih.data pointer
      · exact ih.data pointer

/-! ### The state after `page_init` -/

/-- Everything `page_init` establishes except the flags. -/
structure Fresh (memory table : Word) (frames : Frames) : Prop where
  lists : Lists frames [] [] []
  lruLone : ∀ i, i < frames.numpages.toNat → frames.heap.SelfLinked (lruOf i)
  address : ∀ i, i < frames.numpages.toNat →
    (frames.page (.elem i)).address = BitVec.ofNat 64 i * pageSize
  numpages : frames.numpages = (pageInitPlan memory table).numpages
  numFree : frames.numFreePages = 0
  numUsed : frames.numUsedPages = 0

theorem pageInit_eq (memory table : Word) (frames : Frames) :
    pageInit memory table frames =
      (List.range (pageInitPlan memory table).r.toNat).foldl
        (markArrayPage (pageInitPlan memory table).table)
        ((pageInitPlan memory table).mmu.foldl markTablePage
          ((List.range (pageInitPlan memory table).numpages.toNat).foldl initPage
            { frames with
              numpages := (pageInitPlan memory table).numpages
              parray := p2v (pageInitPlan memory table).table })) := rfl

theorem markPlan_sameCore (plan : InitPlan) (frames : Frames) :
    SameCore frames ((List.range plan.r.toNat).foldl (markArrayPage plan.table)
      (plan.mmu.foldl markTablePage frames)) :=
  (foldl_sameCore markTablePage_sameCore plan.mmu frames).trans
    (foldl_sameCore (markArrayPage_sameCore plan.table) _ _)

theorem pageInit_core (memory table : Word) (frames : Frames) :
    ∃ middle, Initialised (pageInitPlan memory table).numpages.toNat
        { frames with
          numpages := (pageInitPlan memory table).numpages
          parray := p2v (pageInitPlan memory table).table } middle ∧
      SameCore middle (pageInit memory table frames) := by
  exact ⟨_, initPages_spec _ _, markPlan_sameCore (pageInitPlan memory table) _⟩

-- stated for any plan: with the one of `page_init` in its place, comparing the two sides computes it
theorem numpages_of_core {plan : InitPlan} {frames middle final : Frames}
    (loop : Initialised plan.numpages.toNat
      { frames with numpages := plan.numpages, parray := p2v plan.table } middle)
    (core : SameCore middle final) : final.numpages = plan.numpages :=
  core.numpages.trans loop.numpages

theorem pageInit_numpages (memory table : Word) (frames : Frames) :
    (pageInit memory table frames).numpages = (pageInitPlan memory table).numpages := by
  obtain ⟨middle, loop, core⟩ := pageInit_core memory table frames
  exact numpages_of_core loop core

theorem pageInit_fresh (memory table : Word) {frames : Frames} (static : frames.Static) :
    Fresh memory table (pageInit memory table frames) := by
  obtain ⟨middle, loop, core⟩ := pageInit_core memory table frames
  have count := pageInit_numpages memory table frames
  generalize pageInit memory table frames = final at core count ⊢
  have headKept : ∀ list, frames.heap.SelfLinked (.head list) →
      Ring final.heap (.head list) [] := by
    intro list self
    rw [core.heap]
    refine Ring.nil_iff_selfLinked.mpr ((loop.others (.head list) ?_).selfLinked self)
    intro i _
    simp
  refine ⟨⟨⟨⟨?_, ?_, ?_⟩, ?_⟩, ?_, ?_⟩, ?_, ?_, count, ?_, ?_⟩
  · exact headKept .free static.freeHead
  · exact headKept .used static.usedHead
  · exact List.disjoint_nil_left []
  · exact headKept .lru static.lruHead
  · simp
  · intro i below _ _
    rw [core.heap]
    exact loop.pagesNode i (count ▸ below)
  · intro i below
    rw [core.heap]
    exact loop.lruNode i (count ▸ below)
  · intro i below
    rw [core.address]
    exact loop.address i (count ▸ below)
  · rw [core.numFree, loop.numFree]
    exact static.numFree
  · rw [core.numUsed, loop.numUsed]
    exact static.numUsed

theorem pageInit_outside (memory table : Word) (frames : Frames) :
    (∀ node, (∀ i, i < (pageInitPlan memory table).numpages.toNat →
        node ≠ lruOf i ∧ node ≠ pagesOf i) →
      Agrees frames.heap (pageInit memory table frames).heap node) ∧
    (∀ pointer, (∀ i, i < (pageInitPlan memory table).numpages.toNat → pointer ≠ .elem i) →
      ((pageInit memory table frames).page pointer).address = (frames.page pointer).address) := by
  obtain ⟨middle, loop, core⟩ := pageInit_core memory table frames
  constructor
  · intro node outside
    rw [core.heap]
    exact loop.others node outside
  · intro pointer outside
    rw [core.address, loop.elsewhere pointer outside]

/-! ### The pages `page_init` closes -/

/-- The pages of the new tables and of the page array itself. -/
def InitPlan.Protects (plan : InitPlan) (i : Nat) : Prop :=
  (∃ mmu ∈ plan.mmu, mmu ≠ 0 ∧ i = (roundDown mmu pageSize / pageSize).toNat) ∨
    ∃ k < plan.r.toNat, i = markIndex plan.table k

private theorem foldl_isOpen {α : Type} {step : Frames → α → Frames} {hits : α → Nat → Prop}
    (closes : ∀ frames item i, (step frames item).isOpen i = true ↔
      frames.isOpen i = true ∧ ¬hits item i) (items : List α) (frames : Frames) (i : Nat) :
    (items.foldl step frames).isOpen i = true ↔
      frames.isOpen i = true ∧ ∀ item ∈ items, ¬hits item i := by
  induction items generalizing frames with
  | nil => simp
  | cons item rest ih =>
    rw [List.foldl_cons, ih, closes, List.forall_mem_cons]
    tauto

private theorem setFlags_isOpen {flags : Word} (closed : flags &&& protectedFlags ≠ 0)
    (frames : Frames) (k i : Nat) :
    (frames.setFlags (.elem k) flags).isOpen i = true ↔ frames.isOpen i = true ∧ i ≠ k := by
  unfold Frames.isOpen
  by_cases same : i = k
  · subst same
    simpa [Frames.setFlags, Frames.setPage] using closed
  · have different : PagePtr.elem i ≠ .elem k := fun equal => same (by injection equal)
    rw [setFlags_page_of_ne frames flags different]
    simp [same]

private theorem markTablePage_isOpen (frames : Frames) (mmu : Word) (i : Nat) :
    (markTablePage frames mmu).isOpen i = true ↔
      frames.isOpen i = true ∧
        ¬(mmu ≠ 0 ∧ i = (roundDown mmu pageSize / pageSize).toNat) := by
  unfold markTablePage
  split
  · rename_i none
    simp [none]
  · rename_i some
    rw [setFlags_isOpen (by decide)]
    tauto

private theorem markArrayPage_isOpen (table : Word) (frames : Frames) (k i : Nat) :
    (markArrayPage table frames k).isOpen i = true ↔
      frames.isOpen i = true ∧ ¬i = markIndex table k :=
  setFlags_isOpen (by decide) frames (markIndex table k) i

/-- `page_init` closes exactly these pages; the flags of all others are what memory held. -/
theorem pageInit_isOpen (memory table : Word) (frames : Frames) (i : Nat) :
    (pageInit memory table frames).isOpen i = true ↔
      frames.isOpen i = true ∧ ¬(pageInitPlan memory table).Protects i := by
  rw [pageInit_eq]
  generalize pageInitPlan memory table = plan
  have loop := initPages_spec plan.numpages.toNat
    { frames with numpages := plan.numpages, parray := p2v plan.table }
  have sameFlags := loop.flags (.elem i)
  rw [foldl_isOpen (markArrayPage_isOpen plan.table), foldl_isOpen markTablePage_isOpen]
  have sameOpen : ((List.range plan.numpages.toNat).foldl initPage
      { frames with numpages := plan.numpages, parray := p2v plan.table }).isOpen i =
      frames.isOpen i := by
    unfold Frames.isOpen
    rw [sameFlags]
  rw [sameOpen]
  unfold InitPlan.Protects
  simp only [List.mem_range, not_or, not_exists, not_and]
  tauto

/-- The flags `page_init` writes to a page, if it writes any. -/
def InitPlan.ownFlags (plan : InitPlan) (i : Nat) : Option Word :=
  if (List.range plan.r.toNat).any fun k => i = markIndex plan.table k then
    some (flagWord (pImmutable ||| pPhys ||| pKernel))
  else if plan.mmu.any fun mmu => mmu ≠ 0 ∧ i = (roundDown mmu pageSize / pageSize).toNat then
    some (flagWord (pImmutable ||| pVirt ||| pKernel))
  else none

theorem InitPlan.ownFlags_eq_none_iff (plan : InitPlan) (i : Nat) :
    plan.ownFlags i = none ↔ ¬plan.Protects i := by
  unfold InitPlan.ownFlags InitPlan.Protects
  split
  · rename_i inArray
    simp only [List.any_eq_true, List.mem_range, decide_eq_true_eq] at inArray
    exact iff_of_false (by simp) (not_not_intro (Or.inr inArray))
  · rename_i outside
    simp only [List.any_eq_true, List.mem_range, decide_eq_true_eq] at outside
    split
    · rename_i isTable
      simp only [List.any_eq_true, decide_eq_true_eq] at isTable
      exact iff_of_false (by simp) (not_not_intro (Or.inl isTable))
    · rename_i notTable
      simp only [List.any_eq_true, decide_eq_true_eq] at notTable
      exact iff_of_true rfl (not_or.mpr ⟨notTable, outside⟩)

private theorem foldl_flags {α : Type} {step : Frames → α → Frames} {hits : α → Nat → Bool}
    {value : Word} (each : ∀ frames item i, ((step frames item).page (.elem i)).flags =
      if hits item i then value else (frames.page (.elem i)).flags)
    (items : List α) (frames : Frames) (i : Nat) :
    ((items.foldl step frames).page (.elem i)).flags =
      if items.any fun item => hits item i then value else (frames.page (.elem i)).flags := by
  induction items generalizing frames with
  | nil => rfl
  | cons item rest ih =>
    rw [List.foldl_cons, ih, each, List.any_cons]
    cases later : rest.any fun item => hits item i with
    | true => rw [Bool.or_true, if_pos rfl, if_pos rfl]
    | false => rw [Bool.or_false, if_neg (by decide)]

private theorem setFlags_flags (frames : Frames) (k i : Nat) (flags : Word) :
    ((frames.setFlags (.elem k) flags).page (.elem i)).flags =
      if i = k then flags else (frames.page (.elem i)).flags := by
  by_cases same : i = k
  · subst same
    simp [Frames.setFlags, Frames.setPage]
  · have different : PagePtr.elem i ≠ .elem k := fun equal => same (by injection equal)
    rw [setFlags_page_of_ne frames flags different, if_neg same]

private theorem plan_flags (plan : InitPlan) (frames : Frames) (i : Nat) :
    (((List.range plan.r.toNat).foldl (markArrayPage plan.table)
        (plan.mmu.foldl markTablePage ((List.range plan.numpages.toNat).foldl initPage
          { frames with numpages := plan.numpages, parray := p2v plan.table }))).page (.elem i)).flags =
      (plan.ownFlags i).getD (frames.page (.elem i)).flags := by
  have loop := initPages_spec plan.numpages.toNat
    { frames with numpages := plan.numpages, parray := p2v plan.table }
  have tables : ∀ (frames : Frames) (mmu : Word) (i : Nat),
      ((markTablePage frames mmu).page (.elem i)).flags =
        if decide (mmu ≠ 0 ∧ i = (roundDown mmu pageSize / pageSize).toNat) then
          flagWord (pImmutable ||| pVirt ||| pKernel)
        else (frames.page (.elem i)).flags := by
    intro frames mmu i
    unfold markTablePage
    by_cases none : mmu = 0
    · rw [if_pos none, if_neg (by simp [none])]
    · rw [if_neg none, setFlags_flags]
      simp only [ne_eq, none, not_false_eq_true, true_and, decide_eq_true_eq]
  have array : ∀ (frames : Frames) (k i : Nat),
      ((markArrayPage plan.table frames k).page (.elem i)).flags =
        if decide (i = markIndex plan.table k) then flagWord (pImmutable ||| pPhys ||| pKernel)
        else (frames.page (.elem i)).flags := by
    intro frames k i
    unfold markArrayPage
    rw [setFlags_flags]
    simp
  rw [foldl_flags array, foldl_flags tables, loop.flags]
  unfold InitPlan.ownFlags
  split
  · rfl
  · split
    · rfl
    · rfl

theorem pageInit_flags (memory table : Word) (frames : Frames) (i : Nat) :
    ((pageInit memory table frames).page (.elem i)).flags =
      ((pageInitPlan memory table).ownFlags i).getD (frames.page (.elem i)).flags := by
  rw [pageInit_eq]
  exact plan_flags (pageInitPlan memory table) frames i

theorem markIndex_of_lt {table : Word} {k : Nat} (small : k + table.toNat / 4096 < 2 ^ 31) :
    markIndex table k = k + table.toNat / 4096 := by
  have value : ((BitVec.ofNat 64 k + roundDown table pageSize / pageSize).setWidth 32).toNat =
      k + table.toNat / 4096 := by
    rw [BitVec.toNat_setWidth, BitVec.toNat_add, BitVec.toNat_ofNat, roundDown_div_page]
    omega
  have positive : ((BitVec.ofNat 64 k + roundDown table pageSize / pageSize).setWidth 32).msb =
      false := by
    rw [BitVec.msb_eq_false_iff_two_mul_lt, value]
    omega
  unfold markIndex
  simp only
  rw [BitVec.signExtend_eq_setWidth_of_msb_false positive, BitVec.toNat_setWidth, value]
  omega

/-! ### The plan in numbers -/

variable (memory table : Word)

theorem pageInitPlan_numpages :
    (pageInitPlan memory table).numpages = roundUp memory pageSize / pageSize := by
  rw [pageInitPlan]
  split
  · rfl
  · rfl

theorem pageInitPlan_r :
    (pageInitPlan memory table).r.toNat =
      ((pageInitPlan memory table).numpages.toNat * 64 % 2 ^ 64 + 4096) % 2 ^ 64 / 4096 := by
  have value : (pageInitPlan memory table).r =
      roundUp ((pageInitPlan memory table).numpages * sizeofPage) pageSize / pageSize := by
    rw [pageInitPlan]
    split
    · rfl
    · rfl
  rw [value, roundUp_div_page, BitVec.toNat_mul]
  rfl

variable {table}

private theorem roundUp_table (small : table.toNat < 2 ^ 31) :
    (roundUp table pageSize).toNat = (table.toNat / 4096 + 1) * 4096 := by
  rw [roundUp_page]
  omega

theorem pageInitPlan_table (small : table.toNat < 2 ^ 31) :
    (pageInitPlan memory table).table.toNat =
      (table.toNat / 4096 + 1 + if (pageInitPlan memory table).bootstrap then 3 else 0) * 4096 := by
  have first := roundUp_table small
  rw [pageInitPlan]
  split
  · change (roundUp table pageSize + pageSize * 3).toNat = _
    rw [BitVec.toNat_add, first]
    change ((table.toNat / 4096 + 1) * 4096 + 12288) % 2 ^ 64 = (table.toNat / 4096 + 1 + 3) * 4096
    omega
  · exact first

theorem pageInitPlan_mmu (small : table.toNat < 2 ^ 31) {mmu : Word}
    (member : mmu ∈ (pageInitPlan memory table).mmu) (nonzero : mmu ≠ 0) :
    ∃ k, k < 3 ∧ mmu.toNat = (table.toNat / 4096 + 1 + k) * 4096 := by
  have first := roundUp_table small
  rw [pageInitPlan] at member
  split at member
  · simp only [List.mem_cons, List.not_mem_nil, or_false] at member
    rcases member with rfl | rfl | rfl
    · exact ⟨0, by omega, by omega⟩
    · refine ⟨1, by omega, ?_⟩
      rw [BitVec.toNat_add, first]
      change ((table.toNat / 4096 + 1) * 4096 + 4096) % 2 ^ 64 = _
      omega
    · refine ⟨2, by omega, ?_⟩
      rw [BitVec.toNat_add, first]
      change ((table.toNat / 4096 + 1) * 4096 + 8192) % 2 ^ 64 = _
      omega
  · simp only [List.mem_cons, List.not_mem_nil, or_false, or_self] at member
    exact absurd member nonzero

end Osdev64
