/-
What a call of `page_mark_range` marks.

The call is asked for the pages that meet `[start, end)` and belong to nobody.
The loop starts at the right page, but `ROUND_UP` takes it one page past an
aligned end, and its skip test takes every page with `P_USER` for one of the
physical manager, because `P_PHYS` is `P_USER | P_VIRT`.
-/

import Mathlib.Data.List.Sort
import Osdev64.FramePool
import Osdev64.FrameRuns
import Osdev64.Pmm

namespace Osdev64

open PointerRing Word64

/-! ### The pages of a range -/

/-- The page `i` meets `[start, stop)`. -/
def intersects (start stop : Word) (i : Nat) : Bool :=
  max start.toNat (i * 4096) < min stop.toNat ((i + 1) * 4096)

/-- Every bit of `bits` is set. -/
def Frames.isMarked (frames : Frames) (i : Nat) (bits : BitVec 32) : Bool :=
  (frames.page (.elem i)).flags &&& flagWord bits = flagWord bits

/-- The pages to mark, in address order. -/
def Frames.wanted (frames : Frames) (start stop : Word) : List Nat :=
  (List.range frames.numpages.toNat).filter fun i =>
    intersects start stop i && !frames.isMarked i pPhys && !frames.isMarked i pVirt

/-- The list the flags name. -/
def matching (flags : BitVec 32) (free used : List Nat) : List Nat :=
  if marksUsed flags then used else free

/-- The call marks its range and nothing else. -/
structure MarksExactly (start stop : Word) (flags : BitVec 32) (frames : Frames)
    (free used : List Nat) : Prop where
  returns : (pageMarkRange start stop flags frames).1 = 0
  marked : ∀ i ∈ frames.wanted start stop,
    ((pageMarkRange start stop flags frames).2.page (.elem i)).flags = flagWord flags
  kept : ∀ i, i ∉ frames.wanted start stop →
    ((pageMarkRange start stop flags frames).2.page (.elem i)).flags = (frames.page (.elem i)).flags
  lists : ∃ free' used', PageRings (pageMarkRange start stop flags frames).2.heap free' used' ∧
    (∃ rest, matching flags free' used' = rest ++ frames.wanted start stop) ∧
      ∀ i, i ∉ frames.wanted start stop → (i ∈ free' ↔ i ∈ free) ∧ (i ∈ used' ↔ i ∈ used)

/-- The wanted pages that the skip test lets pass. -/
def Frames.taken (frames : Frames) (start stop : Word) : List Nat :=
  (frames.wanted start stop).filter frames.isOpen

/-- The wanted pages that it skips: those with `P_USER`. -/
def Frames.users (frames : Frames) (start stop : Word) : List Nat :=
  (frames.wanted start stop).filter fun i => !frames.isOpen i

/-- The page the end lies in, when it is not in the range. -/
def Frames.extra (frames : Frames) (start stop : Word) : List Nat :=
  if intersects start stop (stop.toNat / 4096) then []
  else [stop.toNat / 4096].filter frames.isOpen

variable {frames : Frames} {start stop : Word} {flags : BitVec 32} {free used : List Nat} {i k : Nat}

theorem mem_wanted :
    i ∈ frames.wanted start stop ↔ i < frames.numpages.toNat ∧ intersects start stop i = true ∧
      frames.isMarked i pPhys = false ∧ frames.isMarked i pVirt = false := by
  unfold Frames.wanted
  rw [List.mem_filter, List.mem_range]
  simp only [Bool.and_eq_true, Bool.not_eq_true', and_assoc]

theorem intersects_iff :
    intersects start stop i = true ↔
      start.toNat < stop.toNat ∧ start.toNat / 4096 ≤ i ∧ i * 4096 < stop.toNat := by
  unfold intersects
  rw [decide_eq_true_eq]
  omega

private theorem not_marked {bits : BitVec 32} (within : protectedFlags &&& flagWord bits = flagWord bits)
    (nonzero : flagWord bits ≠ 0) (isOpen : frames.isOpen i = true) :
    frames.isMarked i bits = false := by
  unfold Frames.isOpen at isOpen
  unfold Frames.isMarked
  rw [decide_eq_true_eq] at isOpen
  rw [decide_eq_false_iff_not, ← within, ← BitVec.and_assoc, isOpen, within]
  simpa using nonzero.symm

theorem not_marked_of_open (isOpen : frames.isOpen i = true) :
    frames.isMarked i pPhys = false ∧ frames.isMarked i pVirt = false :=
  ⟨not_marked (by decide) (by decide) isOpen, not_marked (by decide) (by decide) isOpen⟩

theorem wanted_sorted (frames : Frames) (start stop : Word) :
    (frames.wanted start stop).Pairwise (· < ·) :=
  List.pairwise_lt_range.filter _

theorem mem_taken :
    i ∈ frames.taken start stop ↔ (i < frames.numpages.toNat ∧ intersects start stop i = true) ∧
      frames.isOpen i = true := by
  unfold Frames.taken
  rw [List.mem_filter, mem_wanted]
  constructor
  · rintro ⟨⟨inside, meets, _⟩, isOpen⟩
    exact ⟨⟨inside, meets⟩, isOpen⟩
  · rintro ⟨⟨inside, meets⟩, isOpen⟩
    exact ⟨⟨inside, meets, not_marked_of_open isOpen⟩, isOpen⟩

theorem mem_extra :
    i ∈ frames.extra start stop ↔
      (i = stop.toNat / 4096 ∧ intersects start stop i = false) ∧ frames.isOpen i = true := by
  unfold Frames.extra
  split
  · rename_i meets
    refine iff_of_false (by simp) ?_
    rintro ⟨⟨rfl, misses⟩, _⟩
    rw [meets] at misses
    cases misses
  · rename_i misses
    rw [List.mem_filter, List.mem_singleton]
    constructor
    · rintro ⟨rfl, isOpen⟩
      exact ⟨⟨rfl, Bool.eq_false_iff.mpr misses⟩, isOpen⟩
    · rintro ⟨⟨rfl, _⟩, isOpen⟩
      exact ⟨rfl, isOpen⟩

private theorem extra_sorted (frames : Frames) (start stop : Word) :
    (frames.extra start stop).Pairwise (· < ·) := by
  unfold Frames.extra
  split
  · exact List.Pairwise.nil
  · exact (List.pairwise_singleton _ _).filter _

theorem marked_eq (inside : stop.toNat / 4096 < frames.numpages.toNat)
    (small : stop.toNat + 4096 < 2 ^ 64) (ordered : start ≤ stop) :
    frames.marked (List.range' (markBounds start stop).1
        ((markBounds start stop).2 - (markBounds start stop).1)) =
      frames.taken start stop ++ frames.extra start stop := by
  have ordered' : start.toNat ≤ stop.toNat := ordered
  refine List.Pairwise.eq_of_mem_iff (r := (· < ·)) ?_ ?_ ?_
  · exact List.Pairwise.filter _ (List.pairwise_lt_range' 1 Nat.one_pos)
  · rw [List.pairwise_append]
    refine ⟨(wanted_sorted frames start stop).filter _, extra_sorted frames start stop, ?_⟩
    intro i inTaken k inExtra
    obtain ⟨⟨_, meets⟩, _⟩ := mem_taken.mp inTaken
    obtain ⟨⟨rfl, misses⟩, _⟩ := mem_extra.mp inExtra
    rw [← Bool.not_eq_true, intersects_iff] at misses
    rw [intersects_iff] at meets
    omega
  · intro i
    rw [mem_markedRange, List.mem_append, mem_taken, mem_extra, ← or_and_right, ← Bool.not_eq_true]
    unfold InRange
    rw [markBounds_of_lt start stop small, ← and_assoc]
    refine and_congr_left fun _ => ?_
    rw [intersects_iff]
    simp only
    omega

/-! ### The loop over a pool -/

/-- What the loop leaves, when it moves the pages `gone`. -/
structure PoolMarked (flags : BitVec 32) (gone : List Nat) (frames frames' : Frames)
    (free used : List Nat) : Prop where
  pool : Pool frames' (freeAfter flags free gone) (usedAfter flags used gone)
  marked : ∀ k ∈ gone, (frames'.page (.elem k)).flags = flagWord flags
  kept : ∀ k, k ∉ gone → (frames'.page (.elem k)).flags = (frames.page (.elem k)).flags

/-- A state between two calls: the lists are in order, and a page that may be moved is on one
of them or still unlinked. -/
structure Settled (frames : Frames) (free used : List Nat) : Prop extends Pool frames free used where
  count : frames.numpages.toNat < 2 ^ 52
  movable : ∀ i, i < frames.numpages.toNat → frames.isOpen i = true →
    PagesPlaced frames.heap free used i

private theorem Pool.placed_after {j : Nat} (pool : Pool frames free used)
    (below : k < frames.numpages.toNat) (placed : PagesPlaced frames.heap free used k)
    (isOpen : frames.isOpen k = true) (different : j ≠ k)
    (movable : PagesPlaced frames.heap free used j) :
    PagesPlaced (markPage flags frames k).heap (freeAfter flags free [k]) (usedAfter flags used [k])
      j := by
  have others := (pool.mark flags below placed isOpen).2
  have notGone : j ∉ [k] := fun member => different (List.mem_singleton.mp member)
  by_cases inFree : j ∈ free
  · exact Or.inl (mem_freeAfter.mpr (Or.inl ⟨inFree, notGone⟩))
  · by_cases inUsed : j ∈ used
    · exact Or.inr (Or.inl (mem_usedAfter.mpr (Or.inl ⟨inUsed, notGone⟩)))
    · have self := (movable.resolve_left inFree).resolve_left inUsed
      exact Or.inr (Or.inr ((others j different inFree inUsed).selfLinked self))

theorem Pool.markLoop (indices : List Nat) (distinct : indices.Nodup) (pool : Pool frames free used)
    (inside : ∀ k ∈ indices, k < frames.numpages.toNat)
    (movable : ∀ k ∈ frames.marked indices, PagesPlaced frames.heap free used k) :
    PoolMarked flags (frames.marked indices) frames (indices.foldl (markPage flags) frames)
      free used := by
  induction indices generalizing frames free used with
  | nil =>
    refine ⟨?_, ?_, fun _ _ => rfl⟩
    · simpa [Frames.marked, freeAfter, usedAfter, without_nil] using pool
    · intro k member
      cases member
  | cons k rest ih =>
    obtain ⟨absent, distinctRest⟩ := List.nodup_cons.mp distinct
    have kInside := inside k List.mem_cons_self
    have restInside := fun j member => inside j (List.mem_cons_of_mem k member)
    cases isOpen : frames.isOpen k with
    | false =>
      rw [List.foldl_cons, markPage_of_not_open isOpen, marked_cons_of_closed isOpen]
      rw [marked_cons_of_closed isOpen] at movable
      exact ih distinctRest pool restInside movable
    | true =>
      have notMarked : k ∉ frames.marked rest := fun member => absent (mem_marked.mp member).1
      rw [marked_cons_of_open isOpen] at movable ⊢
      have placed := movable k List.mem_cons_self
      have sameMarked := markPage_marked flags isOpen absent
      have turn := ih distinctRest (pool.mark flags kInside placed isOpen).1
        (by rw [markPage_numpages]; exact restInside)
        (by
          intro j member
          rw [sameMarked] at member
          exact pool.placed_after kInside placed isOpen (fun same => notMarked (same ▸ member))
            (movable j (List.mem_cons_of_mem k member)))
      rw [sameMarked] at turn
      rw [List.foldl_cons]
      refine ⟨?_, ?_, ?_⟩
      · rw [← freeAfter_cons free _ notMarked, ← usedAfter_cons used _ notMarked]
        exact turn.pool
      · intro j member
        rcases List.mem_cons.mp member with rfl | later
        · rw [turn.kept j notMarked, markPage_flags flags isOpen, if_pos rfl]
        · exact turn.marked j later
      · intro j outside
        rw [List.mem_cons, not_or] at outside
        rw [turn.kept j outside.2, markPage_flags flags isOpen, if_neg outside.1]

theorem Fresh.settled {memory table : Word} (fresh : Fresh memory table frames) :
    Settled frames [] [] := by
  refine ⟨fresh.pool, ?_, ?_⟩
  · rw [fresh.numpages, pageInitPlan_numpages, roundUp_div_page]
    omega
  · intro i inside _
    exact fresh.lists.pagesPlaced inside

theorem Settled.pageMarkRange (settled : Settled frames free used) (marks : Marks start stop flags)
    (inside : stop.toNat / 4096 < frames.numpages.toNat) :
    (pageMarkRange start stop flags frames).1 = 0 ∧
      PoolMarked flags (frames.taken start stop ++ frames.extra start stop) frames
        (pageMarkRange start stop flags frames).2 free used := by
  have few := settled.count
  have small : stop.toNat + 4096 < 2 ^ 64 := by omega
  have within : ∀ k ∈ List.range' (markBounds start stop).1
      ((markBounds start stop).2 - (markBounds start stop).1), k < frames.numpages.toNat := by
    intro k member
    rw [markBounds_of_lt start stop small, List.mem_range'_1] at member
    simp only at member
    omega
  rw [pageMarkRange_of_marks marks]
  refine ⟨rfl, ?_⟩
  rw [← marked_eq inside small marks.1]
  apply settled.toPool.markLoop _ List.nodup_range' within
  intro k member
  obtain ⟨listed, isOpen⟩ := mem_marked.mp member
  exact settled.movable k (within k listed) isOpen

/-! ### The claim about a call -/

/-- No page past the range is marked; or there is nothing to mark in it, and the page past it
already has the flags and is on their list. -/
def ExtraHarmless (start stop : Word) (flags : BitVec 32) (frames : Frames) (free used : List Nat) :
    Prop :=
  frames.extra start stop = [] ∨
    frames.wanted start stop = [] ∧
      (frames.page (.elem (stop.toNat / 4096))).flags = flagWord flags ∧
        stop.toNat / 4096 ∈ matching flags free used

/-- No page of the range is skipped for `P_USER`; or those that are have the flags already, come
before the others, and are at the tail of the list. -/
def UsersHarmless (start stop : Word) (flags : BitVec 32) (frames : Frames) (free used : List Nat) :
    Prop :=
  frames.users start stop = [] ∨
    (∀ i ∈ frames.users start stop, (frames.page (.elem i)).flags = flagWord flags) ∧
      frames.users start stop ++ frames.taken start stop = frames.wanted start stop ∧
        ∃ rest, without (matching flags free used) (frames.taken start stop) =
          rest ++ frames.users start stop

theorem mem_matching_after {gone : List Nat} :
    i ∈ matching flags (freeAfter flags free gone) (usedAfter flags used gone) ↔
      i ∈ matching flags free used ∨ i ∈ gone := by
  unfold matching freeAfter usedAfter
  cases marksUsed flags with
  | true =>
    simp only [if_true, List.mem_append, mem_without]
    tauto
  | false =>
    simp only [Bool.false_eq_true, if_false, List.mem_append, mem_without]
    tauto

theorem matching_after (flags : BitVec 32) (free used gone : List Nat) :
    matching flags (freeAfter flags free gone) (usedAfter flags used gone) =
      without (matching flags free used) gone ++ gone := by
  unfold matching freeAfter usedAfter
  cases marksUsed flags with
  | true => rfl
  | false => rfl

theorem mem_after_of_not_mem {gone : List Nat} (stays : i ∉ gone) :
    (i ∈ freeAfter flags free gone ↔ i ∈ free) ∧ (i ∈ usedAfter flags used gone ↔ i ∈ used) := by
  rw [mem_freeAfter, mem_usedAfter]
  tauto

private theorem MarksExactly.listed {gone : List Nat}
    (exactly : MarksExactly start stop flags frames free used)
    (result : PoolMarked flags gone frames (pageMarkRange start stop flags frames).2 free used) :
    (∃ rest, without (matching flags free used) gone ++ gone = rest ++ frames.wanted start stop) ∧
      ∀ i, i ∉ frames.wanted start stop →
        (i ∈ freeAfter flags free gone ↔ i ∈ free) ∧ (i ∈ usedAfter flags used gone ↔ i ∈ used) := by
  obtain ⟨free', used', rings, tail, kept⟩ := exactly.lists
  have sameFree : free' = freeAfter flags free gone :=
    List.map_injective_iff.mpr pagesOf_injective (rings.freeRing.items_unique result.pool.freeRing)
  have sameUsed : used' = usedAfter flags used gone :=
    List.map_injective_iff.mpr pagesOf_injective (rings.usedRing.items_unique result.pool.usedRing)
  subst sameFree sameUsed
  rw [matching_after] at tail
  exact ⟨tail, kept⟩

private theorem matching_kept {free' used' : List Nat}
    (kept : (i ∈ free' ↔ i ∈ free) ∧ (i ∈ used' ↔ i ∈ used)) :
    i ∈ matching flags free' used' ↔ i ∈ matching flags free used := by
  unfold matching
  cases marksUsed flags with
  | true => exact kept.2
  | false => exact kept.1

private theorem extra_not_wanted (member : i ∈ frames.extra start stop) :
    i ∉ frames.wanted start stop := by
  obtain ⟨⟨_, misses⟩, _⟩ := mem_extra.mp member
  intro inWanted
  rw [(mem_wanted.mp inWanted).2.1] at misses
  cases misses

private theorem MarksExactly.extraHarmless
    (exactly : MarksExactly start stop flags frames free used)
    (result : PoolMarked flags (frames.taken start stop ++ frames.extra start stop) frames
      (pageMarkRange start stop flags frames).2 free used) :
    ExtraHarmless start stop flags frames free used := by
  obtain ⟨⟨rest, tail⟩, kept⟩ := exactly.listed result
  by_cases none : frames.extra start stop = []
  · exact Or.inl none
  · refine Or.inr ?_
    have last := List.getLast?_eq_some_getLast none
    have member := List.getLast_mem none
    generalize (frames.extra start stop).getLast none = page at last member
    obtain ⟨⟨place, _⟩, _⟩ := mem_extra.mp member
    have foreign := extra_not_wanted member
    have gone : page ∈ frames.taken start stop ++ frames.extra start stop :=
      List.mem_append_right _ member
    rw [← place]
    refine ⟨?_, ?_, ?_⟩
    · -- otherwise the list would end in a wanted page, but the page past the range is behind them
      by_contra some
      have ends := congrArg List.getLast? tail
      rw [List.getLast?_append, List.getLast?_append, List.getLast?_append, last,
        List.getLast?_eq_some_getLast some] at ends
      injection ends with same
      exact foreign (same ▸ List.getLast_mem some)
    · rw [← exactly.kept page foreign, result.marked page gone]
    · rw [← matching_kept (kept page foreign), mem_matching_after]
      exact Or.inr gone

private theorem users_of_split {front : List Nat}
    (split : frames.wanted start stop = front ++ frames.taken start stop) :
    frames.users start stop = front := by
  have distinct : (front ++ frames.taken start stop).Nodup := by
    rw [← split]
    exact (wanted_sorted frames start stop).nodup
  have closed : ∀ i ∈ front, (!frames.isOpen i) = true := by
    intro i member
    rw [Bool.not_eq_true']
    by_contra isOpen
    rw [Bool.not_eq_false] at isOpen
    have inTaken : i ∈ frames.taken start stop := by
      unfold Frames.taken
      rw [List.mem_filter, split]
      exact ⟨List.mem_append_left _ member, isOpen⟩
    exact (List.nodup_append.mp distinct).2.2 i member i inTaken rfl
  have none : (frames.taken start stop).filter (fun i => !frames.isOpen i) = [] := by
    rw [List.filter_eq_nil_iff]
    intro i member
    simp [(mem_taken.mp member).2]
  unfold Frames.users
  rw [split, List.filter_append, none, List.append_nil, List.filter_eq_self.mpr closed]

private theorem length_wanted (frames : Frames) (start stop : Word) :
    (frames.wanted start stop).length =
      (frames.taken start stop).length + (frames.users start stop).length := by
  unfold Frames.taken Frames.users
  rw [← List.length_eq_length_filter_add]

private theorem MarksExactly.usersHarmless
    (exactly : MarksExactly start stop flags frames free used)
    (result : PoolMarked flags (frames.taken start stop ++ frames.extra start stop) frames
      (pageMarkRange start stop flags frames).2 free used) :
    UsersHarmless start stop flags frames free used := by
  have harmless := exactly.extraHarmless result
  obtain ⟨⟨rest, tail⟩, _⟩ := exactly.listed result
  by_cases none : frames.users start stop = []
  · exact Or.inl none
  · refine Or.inr ?_
    have counts := length_wanted frames start stop
    have positive : 0 < (frames.users start stop).length := List.length_pos_iff.mpr none
    have noExtra : frames.extra start stop = [] := by
      refine harmless.resolve_right ?_
      rintro ⟨nothing, _⟩
      rw [nothing, List.length_nil] at counts
      omega
    rw [noExtra, List.append_nil] at result tail
    have split : ∃ front, without (matching flags free used) (frames.taken start stop) = rest ++ front ∧
        frames.wanted start stop = front ++ frames.taken start stop := by
      rcases List.append_eq_append_iff.mp tail with ⟨middle, _, longer⟩ | ⟨front, left, right⟩
      · have lengths := congrArg List.length longer
        rw [List.length_append] at lengths
        omega
      · exact ⟨front, left, right⟩
    obtain ⟨front, left, right⟩ := split
    have front_eq := users_of_split right
    refine ⟨?_, ?_, rest, ?_⟩
    · intro i member
      obtain ⟨inWanted, isClosed⟩ := List.mem_filter.mp member
      have stays : i ∉ frames.taken start stop := by
        intro inTaken
        rw [(mem_taken.mp inTaken).2] at isClosed
        cases isClosed
      rw [← result.kept i stays, exactly.marked i inWanted]
    · rw [front_eq, right]
    · rw [front_eq, left]

private theorem marksExactly_of_noExtra (returns : (pageMarkRange start stop flags frames).1 = 0)
    (result : PoolMarked flags (frames.taken start stop) frames
      (pageMarkRange start stop flags frames).2 free used)
    (harmless : UsersHarmless start stop flags frames free used) :
    MarksExactly start stop flags frames free used := by
  have within : ∀ i ∈ frames.taken start stop, i ∈ frames.wanted start stop :=
    fun i member => (List.mem_filter.mp member).1
  have skipped : ∀ i ∈ frames.wanted start stop, i ∉ frames.taken start stop →
      i ∈ frames.users start stop := by
    intro i member stays
    refine List.mem_filter.mpr ⟨member, ?_⟩
    rw [Bool.not_eq_true', ← Bool.not_eq_true]
    exact fun isOpen => stays (List.mem_filter.mpr ⟨member, isOpen⟩)
  refine ⟨returns, ?_, ?_, _, _, result.pool.toPageRings, ?_, ?_⟩
  · intro i member
    by_cases moved : i ∈ frames.taken start stop
    · exact result.marked i moved
    · rw [result.kept i moved]
      rcases harmless with none | ⟨already, _⟩
      · have inUsers := skipped i member moved
        rw [none] at inUsers
        cases inUsers
      · exact already i (skipped i member moved)
  · intro i outside
    exact result.kept i fun member => outside (within i member)
  · rw [matching_after]
    rcases harmless with none | ⟨_, whole, rest, front⟩
    · have all : frames.taken start stop = frames.wanted start stop := by
        refine List.filter_eq_self.mpr fun i member => ?_
        by_contra isClosed
        have inUsers := skipped i member fun moved => isClosed (mem_taken.mp moved).2
        rw [none] at inUsers
        cases inUsers
      exact ⟨_, by rw [all]⟩
    · exact ⟨rest, by rw [front, List.append_assoc, whole]⟩
  · intro i outside
    exact mem_after_of_not_mem fun member => outside (within i member)

private theorem marksExactly_of_extra (pool : Pool frames free used)
    (returns : (pageMarkRange start stop flags frames).1 = 0)
    (result : PoolMarked flags (frames.taken start stop ++ frames.extra start stop) frames
      (pageMarkRange start stop flags frames).2 free used)
    (nothing : frames.wanted start stop = [])
    (already : (frames.page (.elem (stop.toNat / 4096))).flags = flagWord flags)
    (listed : stop.toNat / 4096 ∈ matching flags free used) :
    MarksExactly start stop flags frames free used := by
  have noTaken : frames.taken start stop = [] := by
    unfold Frames.taken
    rw [nothing, List.filter_nil]
  rw [noTaken, List.nil_append] at result
  have place : ∀ i ∈ frames.extra start stop, i = stop.toNat / 4096 :=
    fun i member => (mem_extra.mp member).1.1
  refine ⟨returns, ?_, ?_, _, _, result.pool.toPageRings, ?_, ?_⟩
  · intro i member
    rw [nothing] at member
    cases member
  · intro i _
    by_cases moved : i ∈ frames.extra start stop
    · rw [result.marked i moved, place i moved, already]
    · exact result.kept i moved
  · rw [nothing]
    exact ⟨_, (List.append_nil _).symm⟩
  · intro i _
    by_cases moved : i ∈ frames.extra start stop
    · have onList : i ∈ matching flags free used := place i moved ▸ listed
      rw [mem_freeAfter, mem_usedAfter]
      unfold matching at onList
      cases kind : marksUsed flags with
      | true =>
        rw [kind, if_pos rfl] at onList
        have notFree : i ∉ free := fun inFree => pool.apart inFree onList
        simp [moved, onList, notFree]
      | false =>
        rw [kind, if_neg (by decide)] at onList
        have notUsed : i ∉ used := pool.apart onList
        simp [moved, onList, notUsed]
    · exact mem_after_of_not_mem moved

/-- The call marks exactly its range if and only if both deviations are harmless. -/
theorem marksExactly_iff (start stop : Word) (flags : BitVec 32) (frames : Frames)
    (free used : List Nat) (settled : Settled frames free used) (ordered : start ≤ stop)
    (inside : stop.toNat / 4096 < frames.numpages.toNat) (accepted : acceptedFlags flags = true) :
    MarksExactly start stop flags frames free used ↔
      ExtraHarmless start stop flags frames free used ∧
        UsersHarmless start stop flags frames free used := by
  obtain ⟨returns, result⟩ := settled.pageMarkRange ⟨ordered, accepted⟩ inside
  constructor
  · intro exactly
    exact ⟨exactly.extraHarmless result, exactly.usersHarmless result⟩
  · rintro ⟨noExtra | ⟨nothing, already, listed⟩, users⟩
    · rw [noExtra, List.append_nil] at result
      exact marksExactly_of_noExtra returns result users
    · exact marksExactly_of_extra settled.toPool returns result nothing already listed

private theorem smallSession_settled : Settled smallSession.frames [] [] :=
  (pageInit_fresh 0x4000 0x1000 blank_static).settled

/-- Marking up to the middle of a page. -/
theorem marksExactly_unaligned :
    smallSession.frames.wanted 0 0x1800 = [0, 1] ∧
      MarksExactly 0 0x1800 pFree smallSession.frames [] [] := by
  refine ⟨by decide, ?_⟩
  refine (marksExactly_iff 0 0x1800 pFree smallSession.frames [] [] smallSession_settled (by decide)
    (by decide) (by decide)).mpr ⟨Or.inl ?_, Or.inl ?_⟩
  · decide
  · decide

/-- Marking the first page marks the second as well. -/
theorem next_page_marked :
    smallSession.frames.wanted 0 0x1000 = [0] ∧
      ¬MarksExactly 0 0x1000 pFree smallSession.frames [] [] := by
  refine ⟨by decide, ?_⟩
  intro exactly
  have kept := exactly.kept 1 (by decide)
  revert kept
  decide

end Osdev64
