/-
New page tables as pages of the free list.

`mmu_map_page` takes the frames for missing tables from the head of the free
list.  So what it needs of them can be asked of the pages on that list.
-/

import Osdev64.FramePool
import Osdev64.MmuBoot
import Osdev64.PmmUsable
import Mathlib.Data.List.Perm.Subperm

namespace Osdev64

open PointerRing Word64 Paging

/-- The free list holds a page for every table the call would add. -/
def Kernel.Stocked (machine : Kernel) (address : Word) : Prop :=
  ∃ free : List Nat, Ring machine.data.frames.heap (.head .free) (free.map pagesOf) ∧
    missingBelow machine.tables address 3 machine.root ≤ free.length

variable {frames : Frames} {free used lru : List Nat} {i count : Nat} {machine : Kernel}
  {address : Word}

theorem Pool.takeTable (pool : Pool frames (i :: free) used) :
    (takeTable frames).1 = pageAddress i ∧ Pool (takeTable frames).2 free (i :: used) := by
  obtain ⟨allocated, rest⟩ := pool.alloc
  have below : i < frames.numpages.toNat := pool.bounded i (Or.inl List.mem_cons_self)
  unfold Osdev64.takeTable
  rw [allocated]
  exact ⟨pool.address i below, rest.setPage rfl⟩

theorem Pool.takeTables (pool : Pool frames free used) (enough : count ≤ free.length) :
    (takeTables count frames).1 = (free.take count).map pageAddress ∧
      Pool (takeTables count frames).2 (free.drop count) ((free.take count).reverse ++ used) := by
  induction count generalizing frames free used with
  | zero =>
    rw [List.take_zero, List.drop_zero]
    exact ⟨rfl, pool⟩
  | succ count ih =>
    cases free with
    | nil =>
      rw [List.length_nil] at enough
      omega
    | cons i rest =>
      rw [List.length_cons] at enough
      obtain ⟨first, next⟩ := pool.takeTable
      obtain ⟨addresses, after⟩ := ih next (by omega)
      simp only [Osdev64.takeTables, List.take_succ_cons, List.drop_succ_cons,
        List.map_cons, List.reverse_cons, List.append_assoc, List.singleton_append]
      exact ⟨by rw [first, addresses], after⟩

theorem Pool.hasPages (pool : Pool frames free used) (enough : count ≤ free.length) :
    HasPages count frames := by
  induction count generalizing frames free used with
  | zero => trivial
  | succ count ih =>
    cases free with
    | nil =>
      rw [List.length_nil] at enough
      omega
    | cons i rest =>
      rw [List.length_cons] at enough
      refine ⟨?_, ih pool.takeTable.2 (by omega)⟩
      rw [pool.alloc.1]
      exact PagePtr.noConfusion

theorem Pool.enough_of_hasPages (pool : Pool frames free used) (has : HasPages count frames) :
    count ≤ free.length := by
  induction count generalizing frames free used with
  | zero => exact Nat.zero_le _
  | succ count ih =>
    cases free with
    | nil =>
      rw [HasPages, pageAlloc_nil pool.freeRing] at has
      exact absurd rfl has.1
    | cons i rest => exact Nat.succ_le_succ (ih pool.takeTable.2 has.2)

theorem frameOf_pageAddress (small : i < 2 ^ 40) : frameOf (pageAddress i) = BitVec.ofNat 40 i := by
  apply BitVec.eq_of_toNat_eq
  rw [frameOf_toNat, pageAddress_toNat (by omega), BitVec.toNat_ofNat]
  omega

theorem frameOf_pageAddress_inj {j : Nat} (smallLeft : i < 2 ^ 40) (smallRight : j < 2 ^ 40)
    (same : frameOf (pageAddress i) = frameOf (pageAddress j)) : i = j := by
  rw [frameOf_pageAddress smallLeft, frameOf_pageAddress smallRight] at same
  have value := congrArg BitVec.toNat same
  rw [BitVec.toNat_ofNat, BitVec.toNat_ofNat] at value
  omega

theorem Pool.newTables (pool : Pool machine.data.frames free used) (stocked : machine.Stocked address) :
    missingBelow machine.tables address 3 machine.root ≤ free.length ∧
      machine.newTables address =
        (free.take (missingBelow machine.tables address 3 machine.root)).map pageAddress := by
  obtain ⟨others, ring, enough⟩ := stocked
  have same : others = free :=
    List.map_injective_iff.mpr pagesOf_injective (ring.items_unique pool.freeRing)
  subst same
  exact ⟨enough, (pool.takeTables enough).1⟩

theorem Pool.spare (pool : Pool machine.data.frames free used)
    (small : machine.data.frames.numpages.toNat ≤ 2 ^ 40) (outside : indexAt 3 address ≠ mmuRe)
    (stocked : machine.Stocked address)
    (reaches : ∀ t ∈ machine.newTables address, machine.Reaches (window t) (frameOf t))
    (unused : ∀ i ∈ free, ¬Live machine.tables machine.root (frameOf (pageAddress i))) :
    Spare machine address := by
  obtain ⟨enough, value⟩ := pool.newTables stocked
  have inside : ∀ i ∈ free, i < 2 ^ 40 := fun i member =>
    Nat.lt_of_lt_of_le (pool.bounded i (Or.inl member)) small
  have each : ∀ t ∈ machine.newTables address, ∃ i ∈ free, t = pageAddress i := by
    intro t member
    rw [value] at member
    obtain ⟨i, taken, rfl⟩ := List.mem_map.mp member
    exact ⟨i, List.mem_of_mem_take taken, rfl⟩
  refine ⟨outside, pool.hasPages enough, ?_, reaches, ?_, ?_⟩
  · intro t member
    obtain ⟨i, inFree, rfl⟩ := each t member
    rw [pageAddress_toNat (Nat.lt_trans (inside i inFree) (by decide))]
    omega
  · rw [value, List.map_map]
    apply List.Nodup.map_on
    · intro i first j second same
      exact frameOf_pageAddress_inj (inside i (List.mem_of_mem_take first))
        (inside j (List.mem_of_mem_take second)) same
    · exact pool.free_nodup.sublist (List.take_sublist _ _)
  · intro t member
    obtain ⟨i, inFree, rfl⟩ := each t member
    exact unused i inFree

theorem Pool.supplied {ok : Word → Prop} (pool : Pool machine.data.frames free used)
    (small : machine.data.frames.numpages.toNat ≤ 2 ^ 40) (outside : indexAt 3 address ≠ mmuRe)
    (stocked : machine.Stocked address)
    (fresh : ∀ t ∈ machine.newTables address, machine.Reaches (window t) (frameOf t) ∧ ok t ∧
      ∀ place, present (machine.tables (frameOf t) place) = false)
    (unused : ∀ i ∈ free, ¬Live machine.tables machine.root (frameOf (pageAddress i))) :
    Supplied ok machine address := by
  have spare := pool.spare small outside stocked (fun t member => (fresh t member).1) unused
  exact ⟨outside, spare.available, spare.aligned, fresh, spare.distinct, spare.unused⟩

theorem Mapped.pool {machine' : Kernel} {page : PagePtr} {flags : BitVec 32}
    (mapped : Mapped machine machine' page address flags)
    (pool : Pool machine.data.frames free used) (stocked : machine.Stocked address) :
    ∃ count ≤ 3, machine.newTables address = (free.take count).map pageAddress ∧
      Pool machine'.data.frames (free.drop count) ((free.take count).reverse ++ used) := by
  obtain ⟨enough, value⟩ := pool.newTables stocked
  refine ⟨_, missingBelow_le _ _ _ _, value, ?_⟩
  rw [mapped.data]
  exact (pool.takeTables enough).2.setPage rfl

/-! ### At the start -/

theorem pmmInit_pool {map : List MemoryMap} {kernelEnd : Word} {before : Frames}
    (static : before.Static) (noWrap : NoWrap map)
    (reaches : (v2p kernelEnd).toNat / 4096 < (pmmPlan map kernelEnd).numpages.toNat) :
    ∃ free used, Pool (pmmInit map kernelEnd before) free used ∧
      (pmmInit map kernelEnd before).numpages = (pmmPlan map kernelEnd).numpages ∧
      (∀ i, i ∈ free ↔ OnFree (pmmInit map kernelEnd before) i) ∧
      ∀ i, i < (pmmPlan map kernelEnd).numpages.toNat →
        PagesPlaced (pmmInit map kernelEnd before).heap free used i := by
  obtain ⟨free, used, lru, sorted⟩ := pmmInit_sorted map kernelEnd before static noWrap reaches
  have fresh := pageInit_fresh (highestAddr map) (v2p kernelEnd) static
  have count := pmmInit_numpages map kernelEnd before
  refine ⟨free, used, ⟨sorted.toPageRings, sorted.bounded,
    lruClosed_of_rings sorted.toRings sorted.placed, ?_⟩, count,
    fun i => (onFree_iff sorted.toRings i).symm, ?_⟩
  · intro i below
    rw [sorted.sameAddress]
    rw [sorted.sameNumpages] at below
    exact fresh.address i below
  · intro i below
    exact pagesPlaced_of_lone (sorted.lone i (count ▸ below))

theorem Pool.reservePml4 {cr3 : Word} (pool : Pool frames free used)
    (below : cr3.toNat / 4096 < frames.numpages.toNat)
    (placed : PagesPlaced frames.heap free used (cr3.toNat / 4096)) :
    (reservePml4 cr3 frames).1 = .elem (cr3.toNat / 4096) ∧
      Pool (reservePml4 cr3 frames).2 (free.erase (cr3.toNat / 4096))
        (used.erase (cr3.toNat / 4096)) := by
  unfold Osdev64.reservePml4
  rw [pageRequest_of_lt below]
  refine ⟨rfl, ?_⟩
  have marked : Pool (frames.setPage (.elem (cr3.toNat / 4096))
      { frames.page (.elem (cr3.toNat / 4096)) with
        data := mmuRecursive mmuRe mmuRe mmuRe mmuRe
        flags := flagWord (pUsed ||| pImmutable ||| pKernel ||| pVirt) }) free used :=
    pool.setPage rfl
  exact marked.reserve below placed

theorem initialised_pool (memory : Tables) (data : KernelData) (pool : Pool data.frames free used)
    (below : 0x3F1 < data.frames.numpages.toNat)
    (placed : PagesPlaced data.frames.heap free used 0x3F1) :
    (initialised (bootKernel memory data)).data.pml4 = .elem 0x3F1 ∧
      (initialised (bootKernel memory data)).data.frames.numpages = data.frames.numpages ∧
      Pool (initialised (bootKernel memory data)).data.frames (free.erase 0x3F1)
        (used.erase 0x3F1) := by
  have index : (BitVec.ofNat 64 pagingPml4 : Word).toNat / 4096 = 0x3F1 := by decide
  rw [← index] at below placed ⊢
  obtain ⟨pml4, reserved⟩ := pool.reservePml4 below placed
  rw [initialised_data]
  exact ⟨pml4, rfl, reserved⟩

/-! ### A small machine -/

/-- Four megabytes of memory with the boot tables reserved. -/
def lowMap : List MemoryMap := [⟨0x100000, 0x2FF000, 1⟩, ⟨0x3F1000, 0x4FFF, 2⟩]

/-- The kernel after `pmm_init` and `mmu_init` on that memory, all of it zero before. -/
def lowKernel : Kernel :=
  initialised (bootKernel (fun _ _ => 0)
    { frames := pmmInit lowMap 0xFFFFFFFF8010C000 Frames.blank, pml4 := .null })

theorem lowMap_noWrap : NoWrap lowMap := by
  intro entry member
  simp only [lowMap, List.mem_cons, List.not_mem_nil, or_false] at member
  rcases member with rfl | rfl
  · decide
  · decide

theorem zero_clean : CleanPt2 fun _ _ => 0 := by
  intro index
  change BitVec.extractLsb' 32 32 (0 : Word) = 0
  decide

theorem lowKernel_init : mmuInit.run (bootKernel (fun _ _ => 0)
    { frames := pmmInit lowMap 0xFFFFFFFF8010C000 Frames.blank, pml4 := .null }) =
      some ((), lowKernel) :=
  bootKernel_init zero_clean

theorem lowMap_plan : (pmmPlan lowMap 0xFFFFFFFF8010C000).numpages.toNat = 0x400 := by
  decide

theorem lowMap_reaches : (v2p 0xFFFFFFFF8010C000).toNat / 4096 <
    (pmmPlan lowMap 0xFFFFFFFF8010C000).numpages.toNat := by
  rw [lowMap_plan]
  decide

/-- The free pages after `pmm_init` are behind the kernel and no boot tables but perhaps the PML4. -/
theorem lowMap_free {i : Nat} (isFree : OnFree (pmmInit lowMap 0xFFFFFFFF8010C000 Frames.blank) i) :
    0x10C < i ∧ (i < 0x3F2 ∨ 0x3F5 < i) := by
  have status := ((pmmInit_onFree lowMap 0xFFFFFFFF8010C000 Frames.blank blank_static
    lowMap_noWrap lowMap_reaches i).mp isFree).2.2.2
  constructor
  · by_contra inKernel
    have low : i ≤ (v2p 0xFFFFFFFF8010C000).toNat / 4096 := by
      have value : (v2p 0xFFFFFFFF8010C000).toNat / 4096 = 0x10C := by decide
      omega
    rw [pmmStatus, if_pos low] at status
    cases status
  · by_contra isTable
    have cases : i = 0x3F2 ∨ i = 0x3F3 ∨ i = 0x3F4 ∨ i = 0x3F5 := by omega
    rcases cases with rfl | rfl | rfl | rfl <;> exact absurd status (by decide)

theorem lowMap_onFree {i : Nat} (low : 0x200 ≤ i) (high : i < 0x208) :
    OnFree (pmmInit lowMap 0xFFFFFFFF8010C000 Frames.blank) i := by
  have noTables : (pmmPlan lowMap 0xFFFFFFFF8010C000).mmu = [0, 0, 0] := by decide
  have r : (pmmPlan lowMap 0xFFFFFFFF8010C000).r.toNat = 0x11 := by decide
  have table : (pmmPlan lowMap 0xFFFFFFFF8010C000).table.toNat = 0x10D000 := by decide
  have plan := lowMap_plan
  rw [pmmInit_onFree lowMap 0xFFFFFFFF8010C000 Frames.blank blank_static lowMap_noWrap lowMap_reaches]
  refine ⟨by omega, by simp [Frames.isOpen, Frames.blank], ?_, ?_⟩
  · rintro (⟨mmu, member, nonzero, _⟩ | ⟨k, below, same⟩)
    · rw [noTables] at member
      simp only [List.mem_cons, List.not_mem_nil, or_false, or_self] at member
      exact nonzero member
    · rw [r] at below
      rw [markIndex_of_lt (by omega), table] at same
      omega
  · have eight : ∀ k < 8, pmmStatus lowMap 0xFFFFFFFF8010C000 (0x200 + k) = some true := by decide
    have status := eight (i - 0x200) (by omega)
    rwa [Nat.add_sub_cancel' low] at status

theorem lowKernel_pool : lowKernel.data.pml4 = .elem 0x3F1 ∧
    lowKernel.data.frames.numpages.toNat = 0x400 ∧
    ∃ free used, Pool lowKernel.data.frames free used ∧ 8 ≤ free.length ∧
      ∀ i ∈ free, 0x10C < i ∧ (i < 0x3F1 ∨ 0x3F5 < i) := by
  have plan := lowMap_plan
  obtain ⟨free, used, pool, count, onFree, placed⟩ :=
    pmmInit_pool blank_static lowMap_noWrap lowMap_reaches
  have eight : (List.range' 0x200 8).Subperm (free.erase 0x3F1) := by
    apply List.Nodup.subperm List.nodup_range'
    intro i member
    rw [List.mem_range'_1] at member
    rw [List.mem_erase_of_ne (by omega), onFree i]
    exact lowMap_onFree member.1 member.2
  have isFree : ∀ i ∈ free, 0x10C < i ∧ (i < 0x3F2 ∨ 0x3F5 < i) :=
    fun i member => lowMap_free ((onFree i).mp member)
  have placedHere := placed 0x3F1 (by omega)
  have size : (pmmInit lowMap 0xFFFFFFFF8010C000 Frames.blank).numpages.toNat = 0x400 := by
    rw [count, plan]
  clear count placed onFree
  unfold lowKernel
  generalize pmmInit lowMap 0xFFFFFFFF8010C000 Frames.blank = frames at pool size placedHere ⊢
  obtain ⟨pml4, sameCount, reserved⟩ := initialised_pool (fun _ _ => 0) ⟨frames, .null⟩ pool
    (by rw [size]; omega) placedHere
  refine ⟨pml4, by rw [sameCount, size], _, _, reserved, eight.length_le, ?_⟩
  intro i member
  have different : i ≠ 0x3F1 := by
    rintro rfl
    exact pool.free_nodup.not_mem_erase member
  have := isFree i (List.mem_of_mem_erase member)
  omega

theorem lowKernel_live {frame : Frame} (live : Live lowKernel.tables lowKernel.root frame) :
    0x3F1 ≤ frame.toNat ∧ frame.toNat ≤ 0x3F5 := by
  unfold lowKernel at live
  rw [initialised_root] at live
  exact initialised_live live

theorem lowKernel_zero {frame : Frame} (outside : frame.toNat < 0x3F1 ∨ 0x3F5 < frame.toNat)
    (place : Index) : lowKernel.tables frame place = 0 :=
  initialised_elsewhere outside place

theorem lowKernel_blank {frame : Frame} (outside : frame.toNat < 0x3F1 ∨ 0x3F5 < frame.toNat)
    (place : Index) : present (lowKernel.tables frame place) = false := by
  rw [lowKernel_zero outside]
  decide

theorem lowKernel_frame {free used : List Nat} (pool : Pool lowKernel.data.frames free used) {i : Nat}
    (listed : i ∈ free ∨ i ∈ used) :
    (frameOf (pageAddress i)).toNat = i ∧ (pageAddress i).toNat = i * 4096 ∧ i < 0x400 := by
  have below := pool.bounded i listed
  rw [lowKernel_pool.2.1] at below
  rw [frameOf_pageAddress (by omega), pageAddress_toNat (by omega), BitVec.toNat_ofNat]
  omega

/-- Every address outside the recursive slot can be mapped with tables from the first
four megabytes. -/
theorem lowKernel_supplied_low {address : Word} (outside : indexAt 3 address ≠ mmuRe) :
    Supplied (fun t => t.toNat < 0x400000) lowKernel address := by
  obtain ⟨_, size, free, used, pool, enough, notTables⟩ := lowKernel_pool
  have stocked : lowKernel.Stocked address :=
    ⟨free, pool.freeRing, Nat.le_trans (missingBelow_le _ _ _ _) (by omega)⟩
  refine pool.supplied (by rw [size]; decide) outside stocked ?_ ?_
  · intro t member
    rw [(pool.newTables stocked).2] at member
    obtain ⟨i, taken, rfl⟩ := List.mem_map.mp member
    have inFree := List.mem_of_mem_take taken
    obtain ⟨frameValue, value, below⟩ := lowKernel_frame pool (Or.inl inFree)
    refine ⟨initialised_window zero_clean (by omega) (by omega), by omega, ?_⟩
    intro place
    apply lowKernel_blank
    rw [frameValue]
    exact (notTables i inFree).2
  · intro i inFree live
    have bounds := lowKernel_live live
    rw [(lowKernel_frame pool (Or.inl inFree)).1] at bounds
    have := (notTables i inFree).2
    omega

theorem lowKernel_supplied {address : Word} (outside : indexAt 3 address ≠ mmuRe) :
    Supplied (fun _ => True) lowKernel address :=
  (lowKernel_supplied_low outside).mono fun _ _ => trivial

theorem lowKernel_window {t : Word} (aligned : t.toNat % 4096 = 0) (small : t.toNat < 0x400000) :
    lowKernel.Reaches (window t) (frameOf t) :=
  initialised_window zero_clean aligned small

theorem lowKernel_identity {t : Word} (aligned : t.toNat % 4096 = 0) (small : t.toNat < 0x400000) :
    lowKernel.Reaches (plainPointer t) (frameOf t) :=
  initialised_identity zero_clean aligned small

theorem lowKernel_wired : Wired (fun _ => True) bootFix lowKernel :=
  initialised_wired zero_clean fun _ _ => trivial

theorem lowKernel_pt {address : Word} (top : indexAt 3 address = 0 ∨ indexAt 3 address = 0x1FF)
    (next : indexAt 2 address = 0 ∨ indexAt 2 address = 0x1FE) (first : indexAt 1 address = 0) :
    tableAt lowKernel.tables lowKernel.root (pathTo address 3) = some 0x3F4 := by
  unfold lowKernel
  rw [initialised_root]
  exact initialised_pt top next first

theorem lowKernel_slotOne : present (lowKernel.tables lowKernel.root 1) = false :=
  initialised_slotOne

theorem lowKernel_slotOne_table {address : Word} (slot : indexAt 3 address = 1) (steps : Nat)
    (table : Frame) :
    tableAt lowKernel.tables lowKernel.root (pathTo address (steps + 1)) ≠ some table := by
  intro found
  have absent : present (lowKernel.tables lowKernel.root (indexAt (3 - 0) address)) = false := by
    rw [Nat.sub_zero, slot]
    exact lowKernel_slotOne
  exact tableAt_of_absent rfl absent (Nat.succ_pos steps) found

theorem lowKernel_page {i : Nat} (below : i < 0x400) :
    (lowKernel.data.frames.page (.elem i)).address = pageAddress i := by
  obtain ⟨_, size, _, _, pool, _⟩ := lowKernel_pool
  exact pool.address i (by omega)

theorem lowKernel_remapped :
    ∃ machine', lowKernel.Maps ⟨.elem 0x200, 0x1000, 3⟩ machine' ∧
      ∀ address, canonical address = true → (indexAt 3 address = 0 ∨ indexAt 3 address = 0x1FF) →
        (indexAt 2 address = 0 ∨ indexAt 2 address = 0x1FE) → indexAt 1 address = 0 →
        indexAt 0 address = 1 →
        (walk machine'.tables machine'.root address).map Leaf.frame = some 0x200 := by
  have pt : tableAt lowKernel.tables lowKernel.root (pathTo 0x1000 3) = some 0x3F4 :=
    lowKernel_pt (Or.inl (by decide)) (Or.inl (by decide)) (by decide)
  obtain ⟨machine', maps, sameCr3, tablesEq⟩ := lowKernel_wired.maps_of_tableAt
    ⟨.elem 0x200, 0x1000, 3⟩ PagePtr.noConfusion (lowKernel_supplied (by decide)) pt
  refine ⟨machine', maps, ?_⟩
  intro address isCanonical top next first last
  have level : LastLevel lowKernel.tables lowKernel.root mmuRe (pathTo 0x1000 3) 0x3F4 :=
    ⟨pt, length_pathTo _ 3, avoids_pathTo (by decide) 3⟩
  have outside : indexAt 3 address ≠ mmuRe := by
    rcases top with top | top <;> rw [top] <;> decide
  have here : tableAt machine'.tables machine'.root (pathTo address 3) = some 0x3F4 := by
    rw [Machine.root_congr sameCr3, tablesEq]
    refine (level.tableAt_eq lowKernel_wired.separated.leveled (by simp) (avoids_pathTo outside 3)).trans ?_
    exact lowKernel_pt top next first
  have entry : machine'.tables 0x3F4 (indexAt 0 address) = 0x200003 := by
    have sameIndex : indexAt 0 address = indexAt 0 (0x1000 : Word) := by
      rw [last]
      decide
    rw [tablesEq, sameIndex, setEntry_same]
    unfold leafEntry
    rw [lowKernel_page (by decide)]
    decide
  obtain ⟨leaf, found, atFrame⟩ := walk_of_tables isCanonical here (by rw [entry]; decide)
  rw [found, Option.map_some, atFrame, entry]
  decide

end Osdev64
