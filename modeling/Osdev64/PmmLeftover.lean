/-
What `pmm_init` takes from memory that nothing wrote.

`page_init` writes neither the flags nor the data of most page structures.
`page_mark_range` then reads those flags to decide which pages it may touch.
-/

import Osdev64.Pmm
import Osdev64.FrameRuns

namespace Osdev64

open PointerRing Word64

/-- The same lists, and the same address, flags and data in every page structure. -/
structure SameSetup (frames frames' : Frames) : Prop where
  lists : ∃ free used, PageRings frames.heap free used ∧ PageRings frames'.heap free used
  numpages : frames'.numpages = frames.numpages
  pages : ∀ i, i < frames.numpages.toNat → frames'.page (.elem i) = frames.page (.elem i)

/-- The map or the kernel has `pmm_init` mark the page. -/
def Requested (map : List MemoryMap) (kernelEnd : Word) (i : Nat) : Prop :=
  ∃ request ∈ pmmRequests map kernelEnd, request.low ≤ i ∧ i < request.high

/-- The bytes of the page array that are read before they are written agree: the data, and the
flags of the pages that are not `page_init`'s own, except where both are overwritten. -/
def LeftoverAgrees (map : List MemoryMap) (kernelEnd : Word) (before before' : Frames) : Prop :=
  ∀ i, i < (pmmPlan map kernelEnd).numpages.toNat →
    (before'.page (.elem i)).data = (before.page (.elem i)).data ∧
      ((pmmPlan map kernelEnd).Protects i ∨
        (before'.page (.elem i)).flags = (before.page (.elem i)).flags ∨
        Requested map kernelEnd i ∧ before.isOpen i = true ∧ before'.isOpen i = true)

variable {map : List MemoryMap} {kernelEnd : Word} {before before' : Frames} {i : Nat}

theorem requested_iff :
    Requested map kernelEnd i ↔ lastFlags (pmmRequests map kernelEnd) i ≠ none := by
  unfold Requested
  rw [ne_eq, lastFlags_eq_none_iff]
  simp only [not_forall, not_not, exists_prop]

/-! ### One setup -/

/-- A page structure after the setup. -/
def settledPage (map : List MemoryMap) (kernelEnd : Word) (before : Frames) (i : Nat) : Page where
  address := BitVec.ofNat 64 i * pageSize
  data := (before.page (.elem i)).data
  flags :=
    match (pmmPlan map kernelEnd).ownFlags i with
    | some flags => flags
    | none =>
      if before.isOpen i then
        ((lastFlags (pmmRequests map kernelEnd) i).map flagWord).getD (before.page (.elem i)).flags
      else (before.page (.elem i)).flags

private theorem settled_of_own {flags : Word} (own : (pmmPlan map kernelEnd).ownFlags i = some flags) :
    (settledPage map kernelEnd before i).flags = flags := by
  simp only [settledPage, own]

private theorem settled_of_not_own (free : (pmmPlan map kernelEnd).ownFlags i = none) :
    (settledPage map kernelEnd before i).flags =
      if before.isOpen i then
        ((lastFlags (pmmRequests map kernelEnd) i).map flagWord).getD (before.page (.elem i)).flags
      else (before.page (.elem i)).flags := by
  simp only [settledPage, free]

private theorem started_isOpen (map : List MemoryMap) (kernelEnd : Word) (before : Frames) (i : Nat) :
    (pageInit (highestAddr map) (v2p kernelEnd) before).isOpen i =
      (before.isOpen i && ((pmmPlan map kernelEnd).ownFlags i).isNone) := by
  apply Bool.eq_iff_iff.mpr
  rw [pageInit_isOpen, Bool.and_eq_true, Option.isNone_iff_eq_none, InitPlan.ownFlags_eq_none_iff]
  rfl

theorem pmmInit_page (static : before.Static)
    (reaches : (v2p kernelEnd).toNat / 4096 < (pmmPlan map kernelEnd).numpages.toNat)
    (inside : i < (pmmPlan map kernelEnd).numpages.toNat) :
    (pmmInit map kernelEnd before).page (.elem i) = settledPage map kernelEnd before i := by
  have keeps := pmmInit_keeps map kernelEnd before static reaches
  have fresh := pageInit_fresh (highestAddr map) (v2p kernelEnd) static
  obtain ⟨middle, loop, core⟩ := pageInit_core (highestAddr map) (v2p kernelEnd) before
  have address := keeps.address (.elem i)
  have data := keeps.data (.elem i)
  have flags := keeps.flags i
  rw [fresh.address i (by rw [pageInit_numpages]; exact inside)] at address
  rw [core.data, loop.data] at data
  rw [Books.written_run, started_isOpen, pageInit_flags] at flags
  refine Page.ext address ?_ data
  rw [flags]
  change (Option.map flagWord _).getD (((pmmPlan map kernelEnd).ownFlags i).getD _) = _
  cases own : (pmmPlan map kernelEnd).ownFlags i with
  | some flags =>
    rw [settled_of_own own]
    cases before.isOpen i with
    | true => rfl
    | false => rfl
  | none =>
    rw [settled_of_not_own own]
    cases before.isOpen i with
    | true => rfl
    | false => rfl

private theorem listed_iff (static : before.Static)
    (reaches : (v2p kernelEnd).toNat / 4096 < (pmmPlan map kernelEnd).numpages.toNat)
    {free used : List Nat} (rings : PageRings (pmmInit map kernelEnd before).heap free used) (i : Nat) :
    i ∈ free ∨ i ∈ used ↔
      (before.isOpen i && ((pmmPlan map kernelEnd).ownFlags i).isNone) = true ∧
        Requested map kernelEnd i := by
  have keeps := pmmInit_keeps map kernelEnd before static reaches
  rw [← started_isOpen map kernelEnd before i, requested_iff]
  generalize pageInit (highestAddr map) (v2p kernelEnd) before = start at keeps
  have filed := Books.filed_run start.isOpen (pmmRequests map kernelEnd) (Books.empty_filed start.isOpen)
  have inFree : i ∈ free ↔ i ∈ ((pmmRequests map kernelEnd).foldl (Books.mark start.isOpen)
      Books.empty).free := by
    rw [← mem_map_pagesOf, ← mem_map_pagesOf, keeps.freeRing.items_unique rings.freeRing]
  have inUsed : i ∈ used ↔ i ∈ ((pmmRequests map kernelEnd).foldl (Books.mark start.isOpen)
      Books.empty).used := by
    rw [← mem_map_pagesOf, ← mem_map_pagesOf, keeps.usedRing.items_unique rings.usedRing]
  rw [inFree, inUsed, filed.free i, filed.used i, Books.written_run]
  cases start.isOpen i with
  | false => simp
  | true =>
    cases lastFlags (pmmRequests map kernelEnd) i with
    | none => simp
    | some flags =>
      cases marksUsed flags with
      | true => simp
      | false => simp

/-! ### Two setups -/

private theorem Books.run_congr {opened opened' : Nat → Bool} {requests : List Request} {count : Nat}
    (inside : ∀ request ∈ requests, request.high ≤ count)
    (same : ∀ i, i < count → opened i = opened' i) (books : Books) :
    requests.foldl (Books.mark opened) books = requests.foldl (Books.mark opened') books := by
  induction requests generalizing books with
  | nil => rfl
  | cons request rest ih =>
    have pages : request.pages opened = request.pages opened' := by
      apply List.filter_congr
      intro i member
      rw [List.mem_range'_1] at member
      have below := inside request List.mem_cons_self
      exact same i (by omega)
    have turn : books.mark opened request = books.mark opened' request := by
      unfold Books.mark
      rw [pages]
    rw [List.foldl_cons, List.foldl_cons, turn]
    exact ih (fun request member => inside request (List.mem_cons_of_mem _ member)) _

private theorem pmmRequests_inside
    (reaches : (v2p kernelEnd).toNat / 4096 < (pmmPlan map kernelEnd).numpages.toNat) :
    ∀ request ∈ pmmRequests map kernelEnd,
      request.high ≤ (pmmPlan map kernelEnd).numpages.toNat := by
  have kernelSmall : (v2p kernelEnd).toNat + 4096 < 2 ^ 64 := by
    rw [v2p_toNat]
    omega
  have room := (highestAddr map).isLt
  rw [pmmPlan_numpages] at reaches ⊢
  intro request member
  rcases List.mem_append.mp member with inMap | atEnd
  · obtain ⟨entry, kept, rfl⟩ := List.mem_map.mp inMap
    have processed := (List.mem_filter.mp kept).2
    simp only [decide_eq_true_eq, BitVec.le_def] at processed
    unfold MemoryMap.request
    rw [markBounds_of_lt entry.base entry.stop (by omega)]
    simp only
    omega
  · rw [List.mem_singleton.mp atEnd]
    unfold kernelRequest
    rw [markBounds_of_lt 0 (v2p kernelEnd) kernelSmall]
    simp only
    omega

private theorem isOpen_of_flags {frames frames' : Frames}
    (same : (frames'.page (.elem i)).flags = (frames.page (.elem i)).flags) :
    frames'.isOpen i = frames.isOpen i := by
  unfold Frames.isOpen
  rw [same]

private theorem LeftoverAgrees.sameSetup (static : before.Static) (static' : before'.Static)
    (reaches : (v2p kernelEnd).toNat / 4096 < (pmmPlan map kernelEnd).numpages.toNat)
    (agrees : LeftoverAgrees map kernelEnd before before') :
    SameSetup (pmmInit map kernelEnd before) (pmmInit map kernelEnd before') := by
  have keeps := pmmInit_keeps map kernelEnd before static reaches
  have keeps' := pmmInit_keeps map kernelEnd before' static' reaches
  have count := pmmInit_numpages map kernelEnd before
  have count' := pmmInit_numpages map kernelEnd before'
  have opens : ∀ i, i < (pmmPlan map kernelEnd).numpages.toNat →
      (pageInit (highestAddr map) (v2p kernelEnd) before').isOpen i =
        (pageInit (highestAddr map) (v2p kernelEnd) before).isOpen i := by
    intro i inside
    rw [started_isOpen, started_isOpen]
    rcases (agrees i inside).2 with isOwn | same | ⟨_, isOpen, isOpen'⟩
    · cases own : (pmmPlan map kernelEnd).ownFlags i with
      | none => exact absurd isOwn ((InitPlan.ownFlags_eq_none_iff _ i).mp own)
      | some flags => simp
    · rw [isOpen_of_flags same]
    · rw [isOpen, isOpen']
  rw [Books.run_congr (pmmRequests_inside reaches) opens] at keeps'
  refine ⟨⟨_, _, keeps.toPageRings, keeps'.toPageRings⟩, count'.trans count.symm, ?_⟩
  intro i inside
  rw [count] at inside
  rw [pmmInit_page static reaches inside, pmmInit_page static' reaches inside]
  obtain ⟨data, rest⟩ := agrees i inside
  refine Page.ext rfl ?_ data
  cases own : (pmmPlan map kernelEnd).ownFlags i with
  | some flags => rw [settled_of_own own, settled_of_own own]
  | none =>
    have unprotected := (InitPlan.ownFlags_eq_none_iff _ i).mp own
    rw [settled_of_not_own own, settled_of_not_own own]
    rcases rest with isOwn | same | ⟨asked, isOpen, isOpen'⟩
    · exact absurd isOwn unprotected
    · simp only [isOpen_of_flags same, same]
    · -- both pages are written by the last request for them
      obtain ⟨flags, last⟩ := Option.ne_none_iff_exists'.mp (requested_iff.mp asked)
      simp only [isOpen, isOpen', last, Option.map_some, Option.getD_some, if_true]

private theorem SameSetup.leftover (static : before.Static) (static' : before'.Static)
    (reaches : (v2p kernelEnd).toNat / 4096 < (pmmPlan map kernelEnd).numpages.toNat)
    (same : SameSetup (pmmInit map kernelEnd before) (pmmInit map kernelEnd before')) :
    LeftoverAgrees map kernelEnd before before' := by
  intro i inside
  have count := pmmInit_numpages map kernelEnd before
  have page := same.pages i (by rw [count]; exact inside)
  rw [pmmInit_page static reaches inside, pmmInit_page static' reaches inside] at page
  have data : (settledPage map kernelEnd before' i).data = (settledPage map kernelEnd before i).data := by
    rw [page]
  have flags : (settledPage map kernelEnd before' i).flags =
      (settledPage map kernelEnd before i).flags := by
    rw [page]
  refine ⟨data, ?_⟩
  by_cases isOwn : (pmmPlan map kernelEnd).Protects i
  · exact Or.inl isOwn
  · have none := (InitPlan.ownFlags_eq_none_iff _ i).mpr isOwn
    rw [settled_of_not_own none, settled_of_not_own none] at flags
    by_cases asked : Requested map kernelEnd i
    · -- a page asked for is on a list exactly when it was open
      obtain ⟨free, used, rings, rings'⟩ := same.lists
      have listed := listed_iff static reaches rings i
      have listed' := listed_iff static' reaches rings' i
      rw [none, listed] at listed'
      simp only [none, Option.isNone_none, Bool.and_true, asked, and_true] at listed'
      have opens : before.isOpen i = before'.isOpen i := Bool.eq_iff_iff.mpr listed'
      cases isOpen : before.isOpen i with
      | true => exact Or.inr (Or.inr ⟨asked, rfl, opens ▸ isOpen⟩)
      | false =>
        rw [← opens, isOpen] at flags
        exact Or.inr (Or.inl flags)
    · have unwritten : lastFlags (pmmRequests map kernelEnd) i = Option.none :=
        not_not.mp fun written => asked (requested_iff.mpr written)
      simp only [unwritten, Option.map_none, Option.getD_none, ite_self] at flags
      exact Or.inr (Or.inl flags)

/-- 31 megabytes of usable memory above the first one. -/
def oneRegionMap : List MemoryMap := [⟨0x100000, 0x1F00000, 1⟩]

/-- Memory that held these flags in the page structure `0x500`. -/
def staleMemory (flags : Word) : Frames := Frames.blank.setFlags (.elem 0x500) flags

private theorem staleMemory_static (flags : Word) : (staleMemory flags).Static :=
  ⟨⟨rfl, rfl⟩, ⟨rfl, rfl⟩, ⟨rfl, rfl⟩, rfl, rfl⟩

/-- Two setups give the same result exactly when the leftover bytes they use agree. -/
theorem sameSetup_iff (map : List MemoryMap) (kernelEnd : Word) (before before' : Frames)
    (static : before.Static) (static' : before'.Static)
    (reaches : (v2p kernelEnd).toNat / 4096 < (pmmPlan map kernelEnd).numpages.toNat) :
    SameSetup (pmmInit map kernelEnd before) (pmmInit map kernelEnd before') ↔
      LeftoverAgrees map kernelEnd before before' := by
  constructor
  · intro same
    exact same.leftover static static' reaches
  · intro agrees
    exact agrees.sameSetup static static' reaches

/-- Leftover flags that leave the page open are overwritten. -/
theorem sameSetup_stale :
    SameSetup (pmmInit oneRegionMap 0xFFFFFFFF8010C000 Frames.blank)
      (pmmInit oneRegionMap 0xFFFFFFFF8010C000 (staleMemory 1)) := by
  refine (sameSetup_iff oneRegionMap 0xFFFFFFFF8010C000 Frames.blank (staleMemory 1) blank_static
    (staleMemory_static 1) (by decide)).mpr ?_
  intro i _
  by_cases here : i = 0x500
  · subst here
    refine ⟨rfl, Or.inr (Or.inr ⟨?_, by decide, by decide⟩)⟩
    exact ⟨_, List.mem_cons_self, by decide⟩
  · have page : (staleMemory 1).page (.elem i) = Frames.blank.page (.elem i) :=
      setFlags_page_of_ne Frames.blank 1 fun same => here (by injection same)
    rw [page]
    exact ⟨rfl, Or.inr (Or.inl rfl)⟩

/-- Leftover flags with the bits of `P_PHYS` take a usable page away. -/
theorem stale_flags_close_page :
    ¬SameSetup (pmmInit oneRegionMap 0xFFFFFFFF8010C000 Frames.blank)
      (pmmInit oneRegionMap 0xFFFFFFFF8010C000 (staleMemory (BitVec.allOnes 64))) := by
  intro same
  have agrees := same.leftover blank_static (staleMemory_static _) (by decide)
  have unprotected : ¬(pmmPlan oneRegionMap 0xFFFFFFFF8010C000).Protects 0x500 :=
    (InitPlan.ownFlags_eq_none_iff _ _).mp (by decide +kernel)
  rcases (agrees 0x500 (by decide)).2 with isOwn | flags | ⟨_, _, isOpen⟩
  · exact unprotected isOwn
  · exact absurd flags (by decide)
  · exact absurd isOpen (by decide)

end Osdev64
