/-
Live page tables and the free list.

`boot.asm` puts its five tables at fixed frames; `pmm_init` frees what the memory
map calls usable, and `mmu_init` takes only the PML4 off its list.  So the map
itself has to keep the other four off the free list.  From there on every run
keeps live tables and free pages apart, as long as new tables are empty.
-/

import Osdev64.MmuLocal

namespace Osdev64

open PointerRing Word64 Paging

/-- What boot starts from: memory, the firmware's map, the end of the kernel, and
the allocator's data in memory. -/
structure Setup where
  memory : Tables
  map : List MemoryMap
  kernelEnd : Word
  before : Frames

def Setup.plan (setup : Setup) : InitPlan := pmmPlan setup.map setup.kernelEnd

/-- The kernel, and the pages `page_alloc` returned that were not freed since. -/
structure TableSession where
  machine : Kernel
  owned : List PagePtr

inductive TableCall where
  | alloc
  | free (page : PagePtr)
  | map (call : MapCall)

/-- The frame of a page structure is a table in use. -/
def Kernel.IsTable (machine : Kernel) (page : PagePtr) : Prop :=
  Live machine.tables machine.root (frameOf (machine.data.frames.page page).address)

/-- One call.  Only pages that `page_alloc` returned and that are no tables are freed. -/
def TableSession.Next (session : TableSession) : TableCall → TableSession → Prop
  | .alloc, session' =>
    match pageAlloc session.machine.data.frames with
    | (.null, frames) =>
      session' = { session with machine := session.machine.withFrames frames }
    | (page, frames) =>
      session' =
        { machine := session.machine.withFrames frames, owned := page :: session.owned }
  | .free page, session' =>
    page ∈ session.owned ∧ ¬session.machine.IsTable page ∧
      session' =
        { machine := session.machine.withFrames (pageFree page session.machine.data.frames)
          owned := session.owned.erase page }
  | .map call, session' =>
    session.machine.Maps call session'.machine ∧ session'.owned = session.owned

/-- `pmm_init` without new tables, then `mmu_init`. -/
def Setup.Starts (setup : Setup) (session : TableSession) : Prop :=
  setup.before.Static ∧ setup.plan.bootstrap = false ∧ session.owned = [] ∧
    ∃ pml4, mmuInit.run (bootKernel setup.memory
      { frames := pmmInit setup.map setup.kernelEnd setup.before, pml4 := pml4 }) =
        some ((), session.machine)

/-- No free page is a table in use, and `page_alloc` returns none. -/
def NoTableFree (machine : Kernel) : Prop :=
  (∀ i, OnFree machine.data.frames i → ¬machine.IsTable (.elem i)) ∧
    ∀ page frames, pageAlloc machine.data.frames = (page, frames) → page ≠ .null →
      ¬machine.IsTable page

/-! ### The condition -/

/-- The page array ends below the tables and holds the structures of the kernel's
pages and of the PML4, and the map leaves none of the other four tables free. -/
structure TablesReserved (setup : Setup) : Prop where
  clean : CleanPt2 setup.memory
  noWrap : NoWrap setup.map
  physical : (highestAddr setup.map).toNat + 4096 ≤ 2 ^ 52
  pastKernel : (v2p setup.kernelEnd).toNat / 4096 < setup.plan.numpages.toNat
  pastPml4 : 0x3F1 < setup.plan.numpages.toNat
  array : setup.plan.table.toNat + setup.plan.r.toNat * 4096 ≤ 0x3F1000
  tables : ∀ i, 0x3F2 ≤ i → i ≤ 0x3F5 → setup.before.isOpen i = true →
    pmmStatus setup.map setup.kernelEnd i ≠ some true

/-- The frames for new tables are there, empty and reached through `P2V`, the address is
not in the recursive slot and remaps no table, and the page is not `NULL` and not the PML4. -/
structure MapKeepsTables (machine : Kernel) (call : MapCall) : Prop where
  real : call.frame ≠ .null
  outside : pml4e call.address ≠ mmuRe
  stocked : machine.Stocked call.address
  fresh : ∀ t ∈ machine.newTables call.address, machine.Reaches (window t) (frameOf t) ∧
    ∀ place, present (machine.tables (frameOf t) place) = false
  clear : Clear bootFix machine call.address
  notPml4 : call.frame ≠ machine.data.pml4

def KeepsTables (session : TableSession) : TableCall → Prop
  | .map call => MapKeepsTables session.machine call
  | _ => True

/-- The states of the runs all of whose calls meet `condition`. -/
def TablesReach (condition : TableSession → TableCall → Prop) (setup : Setup) :
    TableSession → Prop :=
  Runs.Reachable setup.Starts fun session call session' =>
    condition session call ∧ session.Next call session'

/-! ### The invariant -/

structure Guarded (session : TableSession) (free used : List Nat) : Prop where
  wired : Wired (fun _ => True) bootFix session.machine
  pool : Pool session.machine.data.frames free used
  physical : session.machine.data.frames.numpages.toNat ≤ 2 ^ 40
  unused : ∀ i ∈ free,
    ¬Live session.machine.tables session.machine.root (frameOf (pageAddress i))
  owned : ∀ page ∈ session.owned, ∃ i ∈ used, page = .elem i
  distinct : session.owned.Nodup

variable {session session' : TableSession} {free used : List Nat} {machine machine' : Kernel}

private theorem Guarded.address {i : Nat} (guarded : Guarded session free used)
    (listed : i ∈ free ∨ i ∈ used) :
    (session.machine.data.frames.page (.elem i)).address = pageAddress i :=
  guarded.pool.address i (guarded.pool.bounded i listed)

theorem Guarded.noTableFree (guarded : Guarded session free used) : NoTableFree session.machine := by
  have listed : ∀ i ∈ free, ¬session.machine.IsTable (.elem i) := by
    intro i member
    unfold Kernel.IsTable
    rw [guarded.address (Or.inl member)]
    exact guarded.unused i member
  constructor
  · intro i onFree
    apply listed i
    exact mem_map_pagesOf.mp (guarded.pool.freeRing.follows_iff.mp onFree)
  · intro page frames allocated notNull
    cases free with
    | nil =>
      rw [pageAlloc_nil guarded.pool.freeRing] at allocated
      exact absurd (congrArg Prod.fst allocated).symm notNull
    | cons i rest =>
      rw [guarded.pool.alloc.1] at allocated
      have same : PagePtr.elem i = page := congrArg Prod.fst allocated
      subst same
      exact listed i List.mem_cons_self

private theorem Guarded.alloc (guarded : Guarded session free used)
    (next : session.Next .alloc session') : ∃ free' used', Guarded session' free' used' := by
  cases free with
  | nil =>
    simp only [TableSession.Next, pageAlloc_nil guarded.pool.freeRing] at next
    subst next
    exact ⟨[], used, guarded⟩
  | cons i rest =>
    obtain ⟨allocated, pool⟩ := guarded.pool.alloc
    simp only [TableSession.Next, allocated] at next
    subst next
    refine ⟨rest, i :: used, guarded.wired.congr rfl rfl rfl, pool, guarded.physical, ?_, ?_, ?_⟩
    · intro j member
      exact guarded.unused j (List.mem_cons_of_mem i member)
    · intro page member
      rcases List.mem_cons.mp member with same | older
      · exact ⟨i, List.mem_cons_self, same⟩
      · obtain ⟨j, inUsed, same⟩ := guarded.owned page older
        exact ⟨j, List.mem_cons_of_mem i inUsed, same⟩
    · refine List.nodup_cons.mpr ⟨?_, guarded.distinct⟩
      intro member
      obtain ⟨j, inUsed, same⟩ := guarded.owned _ member
      injection same with same
      exact guarded.pool.apart List.mem_cons_self (same ▸ inUsed)

private theorem Guarded.release {page : PagePtr} (guarded : Guarded session free used)
    (next : session.Next (.free page) session') : ∃ free' used', Guarded session' free' used' := by
  obtain ⟨isOwned, notTable, rfl⟩ := next
  obtain ⟨i, inUsed, rfl⟩ := guarded.owned page isOwned
  refine ⟨free ++ [i], used.erase i, guarded.wired.congr rfl rfl rfl, guarded.pool.release inUsed,
    guarded.physical, ?_, ?_, guarded.distinct.erase _⟩
  · intro j member
    rcases List.mem_append.mp member with inFree | same
    · exact guarded.unused j inFree
    · rw [List.mem_singleton.mp same]
      unfold Kernel.IsTable at notTable
      rw [guarded.address (Or.inr inUsed)] at notTable
      exact notTable
  · intro other member
    obtain ⟨j, inUsed', rfl⟩ := guarded.owned other (List.mem_of_mem_erase member)
    refine ⟨j, (List.mem_erase_of_ne ?_).mpr inUsed', rfl⟩
    rintro rfl
    exact guarded.distinct.not_mem_erase member

private theorem Guarded.supplied {call : MapCall} (guarded : Guarded session free used)
    (keeps : MapKeepsTables session.machine call) :
    Supplied (fun _ => True) session.machine call.address := by
  refine guarded.pool.supplied guarded.physical ?_ keeps.stocked ?_ guarded.unused
  · rw [← pml4e_eq]
    exact keeps.outside
  · intro t member
    obtain ⟨reaches, blank⟩ := keeps.fresh t member
    exact ⟨reaches, trivial, blank⟩

private theorem Guarded.mapped {call : MapCall} (guarded : Guarded session free used)
    (keeps : MapKeepsTables session.machine call) (sameOwned : session'.owned = session.owned)
    (mapped : Mapped session.machine session'.machine call.frame call.address call.flags) :
    ∃ free' used', Guarded session' free' used' := by
  have supplied := guarded.supplied keeps
  have changed := mapped.changed supplied guarded.wired.separated
  obtain ⟨count, _, value, pool⟩ := mapped.pool guarded.pool keeps.stocked
  have size : session'.machine.data.frames.numpages = session.machine.data.frames.numpages := by
    rw [mapped.data]
    exact takeTables_numpages _ _
  refine ⟨_, _, guarded.wired.mapped supplied keeps.clear keeps.notPml4 mapped, pool, ?_, ?_, ?_, ?_⟩
  · rw [size]
    exact guarded.physical
  · intro i left live
    have inFree := List.mem_of_mem_drop left
    rcases changed.live guarded.wired.recursive live with old | ⟨t, isNew, same⟩
    · exact guarded.unused i inFree old
    · -- the page stayed on the list, so it is none of those taken from its head
      rw [value] at isNew
      obtain ⟨j, taken, rfl⟩ := List.mem_map.mp isNew
      have inside : ∀ k ∈ free, k < 2 ^ 40 := fun k member =>
        Nat.lt_of_lt_of_le (guarded.pool.bounded k (Or.inl member)) guarded.physical
      have equal := frameOf_pageAddress_inj (inside i inFree)
        (inside j (List.mem_of_mem_take taken)) same
      subst equal
      have split := guarded.pool.free_nodup
      rw [← List.take_append_drop count free] at split
      exact (List.nodup_append.mp split).2.2 i taken i left rfl
  · rw [sameOwned]
    intro page member
    obtain ⟨i, inUsed, same⟩ := guarded.owned page member
    exact ⟨i, List.mem_append_right _ inUsed, same⟩
  · rw [sameOwned]
    exact guarded.distinct

private theorem Guarded.blocked {call : MapCall} (guarded : Guarded session free used)
    (keeps : MapKeepsTables session.machine call) (sameOwned : session'.owned = session.owned)
    (blocked : Blocked session.machine session'.machine call.frame call.address) :
    Guarded session' free used := by
  refine ⟨guarded.wired.blocked keeps.notPml4 blocked, ?_, ?_, ?_, ?_, ?_⟩
  · rw [blocked.data]
    exact guarded.pool.setPage rfl
  · rw [blocked.data]
    exact guarded.physical
  · rw [Machine.root_congr blocked.cr3, blocked.tables]
    exact guarded.unused
  · rw [sameOwned]
    exact guarded.owned
  · rw [sameOwned]
    exact guarded.distinct

private theorem Guarded.map {call : MapCall} (guarded : Guarded session free used)
    (keeps : MapKeepsTables session.machine call) (next : session.Next (.map call) session') :
    ∃ free' used', Guarded session' free' used' := by
  obtain ⟨maps, sameOwned⟩ := next
  rcases guarded.wired.outcome keeps.real (guarded.supplied keeps) maps with mapped | blocked
  · exact guarded.mapped keeps sameOwned mapped
  · exact ⟨free, used, guarded.blocked keeps sameOwned blocked⟩

private theorem TablesReserved.guarded {setup : Setup} (reserved : TablesReserved setup)
    (starts : setup.Starts session) : ∃ free used, Guarded session free used := by
  obtain ⟨static, _, noneOwned, pml4, ran⟩ := starts
  obtain ⟨free, used, pool, count, onFree, placed⟩ :=
    pmmInit_pool static reserved.noWrap reserved.pastKernel
  have notTables : ∀ i ∈ free, i < 0x3F2 ∨ 0x3F5 < i := by
    intro i member
    by_contra isTable
    obtain ⟨_, wasOpen, _, status⟩ := (pmmInit_onFree setup.map setup.kernelEnd setup.before static
      reserved.noWrap reserved.pastKernel i).mp ((onFree i).mp member)
    exact reserved.tables i (by omega) (by omega) wasOpen status
  have size := pmmPlan_numpages setup.map setup.kernelEnd
  have placedHere := placed 0x3F1 reserved.pastPml4
  have physical := reserved.physical
  have pastPml4 : 0x3F1 < (pmmInit setup.map setup.kernelEnd setup.before).numpages.toNat := by
    rw [count]
    exact reserved.pastPml4
  have bound : (pmmInit setup.map setup.kernelEnd setup.before).numpages.toNat ≤ 2 ^ 40 := by
    rw [count, size]
    omega
  clear count placed onFree
  generalize pmmInit setup.map setup.kernelEnd setup.before = frames
    at ran pool placedHere pastPml4 bound
  rw [bootKernel_init reserved.clean] at ran
  have machineEq : initialised (bootKernel setup.memory ⟨frames, pml4⟩) = session.machine :=
    congrArg Prod.snd (Option.some.inj ran)
  obtain ⟨_, sameCount, remaining⟩ := initialised_pool setup.memory ⟨frames, pml4⟩ pool pastPml4
    placedHere
  refine ⟨free.erase 0x3F1, used.erase 0x3F1, ?_, ?_, ?_, ?_, ?_, ?_⟩
  · rw [← machineEq]
    exact initialised_wired reserved.clean fun _ _ => trivial
  · rw [← machineEq]
    exact remaining
  · rw [← machineEq, sameCount]
    exact bound
  · intro i member live
    rw [← machineEq, initialised_root] at live
    have bounds := initialised_live live
    have inFree := List.mem_of_mem_erase member
    have different : i ≠ 0x3F1 := by
      rintro rfl
      exact pool.free_nodup.not_mem_erase member
    have below := pool.bounded i (Or.inl inFree)
    rw [frameOf_pageAddress (by omega), BitVec.toNat_ofNat] at bounds
    have := notTables i inFree
    omega
  · rw [noneOwned]
    simp
  · rw [noneOwned]
    exact List.nodup_nil

def lowSetup : Setup := ⟨fun _ _ => 0, lowMap, 0xFFFFFFFF8010C000, Frames.blank⟩

private theorem lowSetup_reserved : TablesReserved lowSetup where
  clean := zero_clean
  noWrap := lowMap_noWrap
  physical := by decide
  pastKernel := by decide
  pastPml4 := by decide
  array := by decide
  tables := by
    intro i low high _
    have cases : i = 0x3F2 ∨ i = 0x3F3 ∨ i = 0x3F4 ∨ i = 0x3F5 := by omega
    rcases cases with rfl | rfl | rfl | rfl <;> decide

private theorem lowSetup_starts : lowSetup.Starts ⟨lowKernel, []⟩ :=
  ⟨blank_static, by decide, rfl, .null, lowKernel_init⟩

private theorem lowKernel_keeps : MapKeepsTables lowKernel ⟨.elem 0x200, 0x8000000000, 3⟩ := by
  have supplied : Supplied (fun _ => True) lowKernel 0x8000000000 := lowKernel_supplied (by decide)
  obtain ⟨pml4, _, free, _, pool, enough, _⟩ := lowKernel_pool
  have notPml4 : PagePtr.elem 0x200 ≠ lowKernel.data.pml4 := by
    rw [pml4]
    decide
  have own : OwnSlot lowKernel ⟨.elem 0x200, 0x8000000000, 3⟩ := ⟨by decide, by decide, notPml4⟩
  refine ⟨PagePtr.noConfusion, by decide, ⟨free, pool.freeRing, Nat.le_trans (missingBelow_le _ _ _ _) (by omega)⟩, ?_,
    own.clear, notPml4⟩
  intro t member
  obtain ⟨reaches, _, blank⟩ := supplied.fresh t member
  exact ⟨reaches, blank⟩

/-- The map of a common emulator calls the frames of the boot tables usable. -/
def emulatorSetup : Setup := ⟨fun _ _ => 0, emulatorMap, 0xFFFFFFFF8010C000, Frames.blank⟩

theorem emulatorSetup_pool {i : Nat} (past : 0x30D ≤ i) (below : i < 0x7FE1)
    (usable : pmmStatus emulatorMap 0xFFFFFFFF8010C000 i = some true) : ∃ free used,
    Pool (pmmInit emulatorMap 0xFFFFFFFF8010C000 Frames.blank) free used ∧ i ∈ free ∧
      0x3F1 < (pmmInit emulatorMap 0xFFFFFFFF8010C000 Frames.blank).numpages.toNat ∧
      PagesPlaced (pmmInit emulatorMap 0xFFFFFFFF8010C000 Frames.blank).heap free used 0x3F1 := by
  have plan : (pmmPlan emulatorMap 0xFFFFFFFF8010C000).numpages.toNat = 0x7FE1 := by decide
  have noTables : (pmmPlan emulatorMap 0xFFFFFFFF8010C000).mmu = [0, 0, 0] := by decide
  have r : (pmmPlan emulatorMap 0xFFFFFFFF8010C000).r.toNat = 0x200 := by decide
  have table : (pmmPlan emulatorMap 0xFFFFFFFF8010C000).table.toNat = 0x10D000 := by decide
  have reaches : (v2p 0xFFFFFFFF8010C000).toNat / 4096 <
      (pmmPlan emulatorMap 0xFFFFFFFF8010C000).numpages.toNat := by
    rw [plan]
    decide
  obtain ⟨free, used, pool, count, onFree, placed⟩ :=
    pmmInit_pool blank_static emulatorMap_noWrap reaches
  refine ⟨free, used, pool, ?_, by rw [count, plan]; decide, placed 0x3F1 (by omega)⟩
  rw [onFree, pmmInit_onFree emulatorMap 0xFFFFFFFF8010C000 Frames.blank blank_static
    emulatorMap_noWrap reaches]
  refine ⟨by omega, by simp [Frames.isOpen, Frames.blank], ?_, usable⟩
  rintro (⟨mmu, member, nonzero, _⟩ | ⟨k, inArray, same⟩)
  · rw [noTables] at member
    simp only [List.mem_cons, List.not_mem_nil, or_false, or_self] at member
    exact nonzero member
  · rw [r] at inArray
    rw [markIndex_of_lt (by omega), table] at same
    omega

end Osdev64
