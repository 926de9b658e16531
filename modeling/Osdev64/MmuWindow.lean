/-
Reaching page tables through `P2V`.

The direct map covers four megabytes on the tables of `boot.asm`, and the range
`page_init` asked for on those of `mmu_bootstrap`.  `mmu_map_page` uses `P2V` for
whatever frame the allocator hands out, so a call is right as long as its new
tables lie in the mapped range and no earlier call took the range apart.
-/

import Osdev64.MmuBootstrap
import Osdev64.MmuLive

namespace Osdev64

open PointerRing Word64 Paging

/-- The call of `mmu_bootstrap` in `page_init`. -/
def Setup.bootstrap (setup : Setup) : Prog KernelData Unit :=
  match setup.plan.bootstrap, setup.plan.mmu with
  | true, [pml4, pdpt, pd] => mmuBootstrap setup.plan.req pml4 pdpt pd
  | _, _ => pure ()

/-- `pmm_init`, which calls `page_init`, and then `mmu_init`. -/
def Setup.boot (setup : Setup) : Prog KernelData Unit := do
  setup.bootstrap
  Prog.local' fun kernel =>
    ((), { kernel with frames := pmmInit setup.map setup.kernelEnd kernel.frames })
  mmuInit

def Setup.Boots (setup : Setup) (machine : Kernel) : Prop :=
  ∃ pml4, setup.boot.run (bootKernel setup.memory { frames := setup.before, pml4 := pml4 }) =
    some ((), machine)

inductive WindowCall where
  | alloc
  | map (call : MapCall)

def Kernel.WindowNext (machine : Kernel) : WindowCall → Kernel → Prop
  | .alloc, machine' => machine' = machine.withFrames (pageAlloc machine.data.frames).2
  | .map call, machine' => machine.Maps call machine'

/-- Every access of the call through a pointer `P2V(t)` finds `t` below the range
where `P2V` is injective, and `P2V(t)` translated to the frame of `t`. -/
def WindowsReach (machine : Kernel) (call : MapCall) : Prop :=
  ∀ step ∈ (mmuMapPage call.frame call.address call.flags).trace machine,
    ∀ t, step.2.pointer = window t → t.toNat < 2 ^ 31 ∧
      ∃ leaf, walk step.1.tables step.1.root (p2v t) = some leaf ∧ leaf.frame = frameOf t

/-- The states of the runs all of whose calls of `mmu_map_page` meet `condition`. -/
def WindowReaches (condition : Kernel → MapCall → Prop) (setup : Setup) : Kernel → Prop :=
  Runs.Reachable setup.Boots fun machine call machine' =>
    (∀ map, call = .map map → condition machine map) ∧ machine.WindowNext call machine'

/-! ### The condition -/

/-- Where the direct map ends. -/
def Setup.limit (setup : Setup) : Nat :=
  if setup.plan.bootstrap then setup.plan.req.toNat else 0x400000

/-- The page array does not reach the boot tables while they are in use; new tables go
to empty frames below them, for an array that ends within one gigabyte. -/
structure WindowSetup (setup : Setup) : Prop where
  clean : CleanPt2 setup.memory
  array : setup.plan.bootstrap = false →
    setup.plan.table.toNat + setup.plan.r.toNat * 4096 ≤ 0x3F1000
  placed : setup.plan.bootstrap = true → ∀ t ∈ setup.plan.mmu, t.toNat < 0x3F1000 ∧
    ∀ place, present (setup.memory (frameOf t) place) = false
  range : setup.plan.bootstrap = true →
    0x400000 ≤ setup.plan.req.toNat ∧ setup.plan.req.toNat ≤ 2 ^ 30

/-- The first four megabytes as `boot.asm` maps them, in either view. -/
def InBootMap (address : Word) : Prop :=
  (pml4e address = 0 ∨ pml4e address = pml4e kernelVirt) ∧
    (pdpte address = 0 ∨ pdpte address = pdpte kernelVirt) ∧ (pde address).toNat < 2

/-- `page_alloc` has frames for the new tables, different empty ones inside the direct map
that are no tables yet; the address is neither in the recursive slot nor in the map of
`boot.asm`, and the page is not `NULL` and not the PML4. -/
structure MapInWindow (setup : Setup) (machine : Kernel) (call : MapCall) : Prop where
  real : call.frame ≠ .null
  outside : pml4e call.address ≠ mmuRe
  available : machine.HasNewTables call.address
  below : ∀ t ∈ machine.newTables call.address, t.toNat % 4096 = 0 ∧ t.toNat < setup.limit
  blank : ∀ t ∈ machine.newTables call.address, ∀ place,
    present (machine.tables (frameOf t) place) = false
  distinct : ((machine.newTables call.address).map frameOf).Nodup
  unused : ∀ t ∈ machine.newTables call.address, ¬Live machine.tables machine.root (frameOf t)
  clear : setup.plan.bootstrap = false → ¬InBootMap call.address
  notPml4 : call.frame ≠ machine.data.pml4

/-! ### The invariant -/

def Setup.fix (setup : Setup) : List Index → Index → Index :=
  if setup.plan.bootstrap then bootstrapFix setup.plan.req else bootFix

structure DirectMapped (setup : Setup) (machine : Kernel) : Prop where
  wired : Wired (fun t => t.toNat < setup.limit) setup.fix machine
  direct : ∀ t : Word, t.toNat % 4096 = 0 → t.toNat < setup.limit →
    machine.Reaches (window t) (frameOf t)
  covered : setup.plan.bootstrap = true → ∀ address t, t.toNat < setup.limit →
    SameEntry setup.fix address (p2v t) → machine.LargeAt address

variable {setup : Setup} {machine machine' : Kernel} {call : MapCall}

theorem WindowSetup.limit_le (starts : WindowSetup setup) : setup.limit ≤ 2 ^ 30 := by
  unfold Setup.limit
  cases kind : setup.plan.bootstrap with
  | true =>
    rw [if_pos rfl]
    exact (starts.range kind).2
  | false =>
    rw [if_neg (by decide)]
    decide

theorem DirectMapped.supplied (mapped : DirectMapped setup machine)
    (met : MapInWindow setup machine call) :
    Supplied (fun t => t.toNat < setup.limit) machine call.address where
  outside := by
    rw [← pml4e_eq]
    exact met.outside
  available := met.available
  aligned := fun t isNew => (met.below t isNew).1
  fresh := by
    intro t isNew
    obtain ⟨aligned, inside⟩ := met.below t isNew
    exact ⟨mapped.direct t aligned inside, inside, met.blank t isNew⟩
  distinct := met.distinct
  unused := met.unused

theorem DirectMapped.windowsReach (mapped : DirectMapped setup machine) (small : setup.limit ≤ 2 ^ 30)
    (met : MapInWindow setup machine call) : WindowsReach machine call := by
  have ready := mapped.wired.mapReady (mapped.supplied met)
  have good := (mmuMapPage_runs call.frame call.flags met.real ready).trace
  intro step member t pointer
  obtain ⟨frame, ⟨_, leaf, found, atFrame⟩, target, _⟩ := good step member
  rw [pointer] at found target
  obtain ⟨frameEq, inside⟩ := target t rfl
  exact ⟨by omega, leaf, found, atFrame.trans frameEq.symm⟩

/-! ### Addresses that share an entry with the direct map -/

private theorem inBootMap_of_sameEntry {address t : Word} (low : t.toNat < 0x400000)
    (same : SameEntry bootFix address (p2v t)) : InBootMap address := by
  have top : bootFix [] (indexAt 3 (p2v t)) = 0 := by
    rw [indexAt_p2v]
    rfl
  have next : bootFix [0] (indexAt 2 (p2v t)) = 0 := by
    rw [indexAt_two_p2v (by omega)]
    rfl
  have below : ∀ index, bootFix [0, 0] index = index := by
    intro index
    unfold bootFix
    rw [if_neg (by simp), if_neg (by simp)]
  unfold SameEntry at same
  simp only [pathTo, unshare, Nat.sub_zero, Nat.reduceSub, top, next, below, List.cons.injEq] at same
  obtain ⟨_, third, second, first, _⟩ := same
  rw [first] at second third
  rw [second, below] at third
  have virt : pml4e kernelVirt = 0x1FF := by decide
  have virtNext : pdpte kernelVirt = 0x1FE := by decide
  refine ⟨?_, ?_, ?_⟩
  · rw [virt, pml4e_eq]
    by_cases high : indexAt 3 address = 0x1FF
    · exact Or.inr high
    · unfold bootFix at first
      rw [if_neg (fun slot => high slot.2), if_neg (by simp)] at first
      exact Or.inl first
  · rw [virtNext, pdpte_eq]
    by_cases high : indexAt 2 address = 0x1FE
    · exact Or.inr high
    · unfold bootFix at second
      rw [if_neg (by simp), if_neg (fun slot => high slot.2)] at second
      exact Or.inl second
  · rw [pde_eq, third, indexAt_one_p2v (by omega)]
    omega

private theorem indices_of_bootstrap {physical address t : Word} (low : t.toNat < 2 ^ 30)
    (same : SameEntry (bootstrapFix physical) address (p2v t)) :
    indexAt 3 address = 0x1FF ∧
      (indexAt 2 address = pdpte physical ∨ indexAt 2 address = 0x1FE) ∧
      indexAt 1 address = indexAt 1 (p2v t) := by
  have root : ∀ index, bootstrapFix physical [] index = index := by
    intro index
    unfold bootstrapFix
    rw [if_neg (by simp)]
  have next : bootstrapFix physical [0x1FF] (indexAt 2 (p2v t)) = 0x1FE := by
    rw [indexAt_two_p2v low]
    unfold bootstrapFix
    split
    · rfl
    · rfl
  have below : ∀ index, bootstrapFix physical [0x1FE, 0x1FF] index = index := by
    intro index
    unfold bootstrapFix
    rw [if_neg (by simp)]
  unfold SameEntry at same
  simp only [pathTo, unshare, Nat.sub_zero, Nat.reduceSub, root, indexAt_p2v, next, below,
    List.cons.injEq] at same
  obtain ⟨_, third, second, first, _⟩ := same
  rw [first] at second third
  rw [second, below] at third
  refine ⟨first, ?_, third⟩
  by_cases shared : indexAt 2 address = pdpte physical
  · exact Or.inl shared
  · unfold bootstrapFix at second
    rw [if_neg (fun slot => shared slot.2)] at second
    exact Or.inr second

/-! ### The start -/

private theorem pageInitPlan_bootstrap {memory table : Word}
    (kind : (pageInitPlan memory table).bootstrap = true) :
    (pageInitPlan memory table).mmu =
        [roundUp table pageSize, roundUp table pageSize + pageSize * 1,
          roundUp table pageSize + pageSize * 2] ∧
      (pageInitPlan memory table).req.toNat % 0x200000 = 0 := by
  rw [pageInitPlan] at kind ⊢
  split at kind
  · rename_i past
    rw [if_pos past]
    refine ⟨rfl, ?_⟩
    have mask : ~~~((0x200000 : Word) - 1) = BitVec.allOnes 64 <<< 21 := by decide
    unfold roundUp
    rw [mask, toNat_and_high]
    omega
  · cases kind

private theorem WindowSetup.room (starts : WindowSetup setup) (kind : setup.plan.bootstrap = true) :
    ∃ pml4 pdpt pd, setup.plan.mmu = [pml4, pdpt, pd] ∧
      BootstrapRoom setup.memory setup.plan.req pml4 pdpt pd := by
  obtain ⟨mmu, whole⟩ := pageInitPlan_bootstrap kind
  obtain ⟨enough, small⟩ := starts.range kind
  have placed := starts.placed kind
  refine ⟨_, _, _, mmu, ?_⟩
  rw [show setup.plan.mmu = _ from mmu] at placed
  have aligned := roundUp_page (v2p setup.kernelEnd)
  generalize roundUp (v2p setup.kernelEnd) pageSize = table at placed aligned
  have low := (placed table (by simp)).1
  have second : (table + pageSize * 1).toNat = table.toNat + 4096 := by
    rw [BitVec.toNat_add]
    change (table.toNat + 4096) % 2 ^ 64 = _
    omega
  have third : (table + pageSize * 2).toNat = table.toNat + 8192 := by
    rw [BitVec.toNat_add]
    change (table.toNat + 8192) % 2 ^ 64 = _
    omega
  refine ⟨starts.clean, ?_, fun t member => (placed t member).2, ?_, whole, enough, small⟩
  · intro t member
    refine ⟨?_, (placed t member).1⟩
    simp only [List.mem_cons, List.not_mem_nil, or_false] at member
    rcases member with rfl | rfl | rfl <;> omega
  · simp only [List.nodup_cons, List.mem_cons, List.not_mem_nil, or_false, not_or,
      ← BitVec.toNat_inj, second, third]
    refine ⟨⟨by omega, by omega⟩, by omega, not_false, List.nodup_nil⟩

/-- Which call `page_init` makes; the plan is left closed, as the kernel would compute it. -/
theorem Setup.bootstrap_eq (setup : Setup) :
    (setup.plan.bootstrap = false → setup.bootstrap = pure ()) ∧
      ∀ table pdpt pd, setup.plan.bootstrap = true → setup.plan.mmu = [table, pdpt, pd] →
        setup.bootstrap = mmuBootstrap setup.plan.req table pdpt pd := by
  unfold Setup.bootstrap
  generalize setup.plan = plan
  constructor
  · intro kind
    rw [kind]
  · intro table pdpt pd kind mmu
    rw [kind, mmu]

theorem Setup.boot_run {start middle last : Kernel} (called : setup.bootstrap.run start = some ((), middle))
    (init : mmuInit.run (middle.withFrames (pmmInit setup.map setup.kernelEnd middle.data.frames)) =
      some ((), last)) : setup.boot.run start = some ((), last) := by
  unfold Setup.boot
  rw [Prog.run_andThen, called, Option.bind_some, Prog.run_andThen, Prog.run_local, Option.bind_some]
  exact init

theorem Setup.boot_plain (setup : Setup) (clean : CleanPt2 setup.memory) (kind : setup.plan.bootstrap = false)
    (pml4 : PagePtr) :
    setup.boot.run (bootKernel setup.memory { frames := setup.before, pml4 := pml4 }) =
      some ((), initialised (bootKernel setup.memory
        { frames := pmmInit setup.map setup.kernelEnd setup.before, pml4 := pml4 })) := by
  apply Setup.boot_run
  · rw [setup.bootstrap_eq.1 kind]
    exact Prog.run_pure ()
  · exact bootKernel_init clean

theorem Setup.boot_bootstrap {table pdpt pd : Word} (kind : setup.plan.bootstrap = true)
    (mmu : setup.plan.mmu = [table, pdpt, pd])
    (room : BootstrapRoom setup.memory setup.plan.req table pdpt pd) (pml4 : PagePtr) :
    setup.boot.run (bootKernel setup.memory { frames := setup.before, pml4 := pml4 }) =
      some ((), initialised (bootstrapKernel setup.memory
        { frames := pmmInit setup.map setup.kernelEnd setup.before, pml4 := pml4 }
        setup.plan.req table pdpt pd)) := by
  apply Setup.boot_run
  · rw [setup.bootstrap_eq.2 table pdpt pd kind mmu]
    exact mmuBootstrap_run room
  · exact bootstrapKernel_init room

private theorem WindowSetup.directMapped (starts : WindowSetup setup) (boots : setup.Boots machine) :
    DirectMapped setup machine := by
  obtain ⟨pml4, ran⟩ := boots
  cases kind : setup.plan.bootstrap with
  | false =>
    have limit : setup.limit = 0x400000 := by
      unfold Setup.limit
      rw [kind, if_neg (by decide)]
    have fix : setup.fix = bootFix := by
      unfold Setup.fix
      rw [kind, if_neg (by decide)]
    rw [setup.boot_plain starts.clean kind] at ran
    have same := congrArg Prod.snd (Option.some.inj ran)
    simp only at same
    subst same
    refine ⟨?_, ?_, ?_⟩
    · rw [fix, limit]
      exact initialised_wired starts.clean fun _ low => low
    · rw [limit]
      intro t aligned low
      exact initialised_window starts.clean aligned low
    · intro impossible
      rw [kind] at impossible
      cases impossible
  | true =>
    obtain ⟨table, pdpt, pd, mmu, room⟩ := starts.room kind
    have limit : setup.limit = setup.plan.req.toNat := by
      unfold Setup.limit
      rw [kind, if_pos rfl]
    have fix : setup.fix = bootstrapFix setup.plan.req := by
      unfold Setup.fix
      rw [kind, if_pos rfl]
    have enough := room.enough
    have small := room.small
    rw [Setup.boot_bootstrap kind mmu room] at ran
    have same := congrArg Prod.snd (Option.some.inj ran)
    simp only at same
    subst same
    refine ⟨?_, ?_, ?_⟩
    · rw [fix, limit]
      exact bootstrapped_wired room fun t low => by omega
    · rw [limit]
      intro t aligned inside
      exact bootstrapped_window room aligned inside
    · rw [limit, fix]
      intro _ address t inside same
      obtain ⟨top, next, third⟩ := indices_of_bootstrap (by omega) same
      refine ⟨frameOf pd, ?_, ?_⟩
      · rw [bootstrapped_root, bootstrapped_tables room]
        exact bootstrap_pd room.args _ top next
      · rw [bootstrapped_tables room]
        apply bootstrap_large room.args
        rw [third, indexAt_one_p2v (by omega)]
        omega

/-! ### The steps -/

private theorem DirectMapped.congr (mapped : DirectMapped setup machine)
    (tables : machine'.tables = machine.tables) (cr3 : machine'.cr3 = machine.cr3)
    (pml4 : (machine'.data.frames.page machine'.data.pml4).data =
      (machine.data.frames.page machine.data.pml4).data) : DirectMapped setup machine' := by
  refine ⟨mapped.wired.congr tables cr3 pml4, ?_, ?_⟩
  · unfold Machine.Reaches Machine.root
    rw [tables, cr3]
    exact mapped.direct
  · unfold Kernel.LargeAt Machine.root
    rw [tables, cr3]
    exact mapped.covered

private theorem DirectMapped.apart (direct : DirectMapped setup machine)
    (met : MapInWindow setup machine call)
    (mapped : Mapped machine machine' call.frame call.address call.flags) {t : Word}
    (inside : t.toNat < setup.limit) : ¬SameEntry setup.fix call.address (p2v t) := by
  intro same
  cases kind : setup.plan.bootstrap with
  | true => exact mapped.not_largeAt (direct.covered kind _ t inside same)
  | false =>
    unfold Setup.limit at inside
    unfold Setup.fix at same
    rw [kind, if_neg (by decide)] at inside same
    exact met.clear kind (inBootMap_of_sameEntry inside same)

private theorem DirectMapped.mapped (direct : DirectMapped setup machine)
    (small : setup.limit ≤ 2 ^ 30) (met : MapInWindow setup machine call)
    (mapped : Mapped machine machine' call.frame call.address call.flags) :
    DirectMapped setup machine' := by
  have supplied := direct.supplied met
  have changed := mapped.changed supplied direct.wired.separated
  have apart : ∀ t : Word, t.toNat < setup.limit → ¬SameEntry setup.fix call.address (p2v t) :=
    fun t inside => direct.apart met mapped inside
  have clear : Clear setup.fix machine call.address :=
    ⟨fun t next links => apart t (direct.wired.windowed t next links).2,
      fun t isNew => apart t (met.below t isNew).2⟩
  refine ⟨direct.wired.mapped supplied clear met.notPml4 mapped, ?_, ?_⟩
  · intro t aligned inside
    obtain ⟨isAligned, leaf, found, atFrame⟩ := direct.direct t aligned inside
    refine ⟨isAligned, leaf, ?_, atFrame⟩
    have outside : indexAt 3 (p2v t) ≠ mmuRe := by
      rw [indexAt_p2v]
      decide
    rw [changed.root]
    exact (changed.walk_eq _ outside (apart t inside)).trans found
  · intro kind address t inside same
    obtain ⟨table, here, isPresent, isLarge⟩ := direct.covered kind address t inside same
    have top : indexAt 3 address = 0x1FF := by
      unfold Setup.fix at same
      rw [kind, if_pos rfl] at same
      exact (indices_of_bootstrap (by omega) same).1
    have outside : indexAt 3 address ≠ mmuRe := by
      rw [top]
      decide
    obtain ⟨here', entry⟩ := changed.stays _ table (indexAt 1 address) (by simp)
      (avoids_pathTo outside 2) here isPresent
    refine ⟨table, ?_, ?_, ?_⟩
    · rw [changed.root]
      exact here'
    · rw [entry]
      exact isPresent
    · rw [entry]
      exact isLarge

private theorem DirectMapped.next {step : WindowCall} (direct : DirectMapped setup machine)
    (small : setup.limit ≤ 2 ^ 30) (met : ∀ map, step = .map map → MapInWindow setup machine map)
    (next : machine.WindowNext step machine') : DirectMapped setup machine' := by
  cases step with
  | alloc =>
    have same : machine' = machine.withFrames (pageAlloc machine.data.frames).2 := next
    subst same
    have pml4 : ((pageAlloc machine.data.frames).2.page machine.data.pml4).data =
        (machine.data.frames.page machine.data.pml4).data := by
      rw [pageAlloc_page]
    exact direct.congr rfl rfl pml4
  | map call =>
    have here := met call rfl
    rcases direct.wired.outcome here.real (direct.supplied here) next with mapped | blocked
    · exact direct.mapped small here mapped
    · apply direct.congr blocked.tables blocked.cr3
      rw [blocked.data]
      unfold setData Frames.setPage
      simp only
      rw [Function.update_of_ne (Ne.symm here.notPml4)]

/-- Every run whose calls take their tables from the direct map reaches them through `P2V`. -/
theorem windowsReach_of_reaches (setup : Setup) (starts : WindowSetup setup) (machine : Kernel)
    (reached : WindowReaches (MapInWindow setup) setup machine) (call : MapCall)
    (met : MapInWindow setup machine call) : WindowsReach machine call := by
  have small := starts.limit_le
  have direct : DirectMapped setup machine := by
    apply reached.invariant (DirectMapped setup)
    · intro machine boots
      exact starts.directMapped boots
    · intro machine step machine' direct taken
      exact direct.next small taken.1 taken.2
  exact direct.windowsReach small met

/-! ### Two runs -/

private theorem lowSetup_window : WindowSetup lowSetup where
  clean := zero_clean
  array := by
    intro _
    decide
  placed := by
    intro impossible
    exact absurd impossible (by decide)
  range := by
    intro impossible
    exact absurd impossible (by decide)

private theorem lowSetup_boots : lowSetup.Boots lowKernel :=
  ⟨.null, lowSetup.boot_plain zero_clean (by decide) .null⟩

private theorem lowKernel_inWindow :
    MapInWindow lowSetup lowKernel ⟨.elem 0x200, 0x8000000000, 3⟩ := by
  have supplied : Supplied (fun t => t.toNat < 0x400000) lowKernel 0x8000000000 :=
    lowKernel_supplied_low (by decide)
  have limit : lowSetup.limit = 0x400000 := by decide
  refine ⟨PagePtr.noConfusion, by decide, supplied.available, ?_, fun t isNew => (supplied.fresh t isNew).2.2, supplied.distinct,
    supplied.unused, ?_, ?_⟩
  · intro t isNew
    rw [limit]
    exact ⟨supplied.aligned t isNew, (supplied.fresh t isNew).2.1⟩
  · intro _ inside
    exact absurd inside.1 (by decide)
  · rw [lowKernel_pool.1]
    decide

/-- A first mapping with new tables below four megabytes. -/
theorem windowsReach_slotOne :
    (∃ machine', lowKernel.Maps ⟨.elem 0x200, 0x8000000000, 3⟩ machine') ∧
      WindowsReach lowKernel ⟨.elem 0x200, 0x8000000000, 3⟩ := by
  obtain ⟨machine', maps, _⟩ := lowKernel_wired.maps PagePtr.noConfusion
    (lowKernel_supplied (by decide) : Supplied _ lowKernel
      (MapCall.mk (.elem 0x200) 0x8000000000 3).address)
  exact ⟨⟨machine', maps⟩, windowsReach_of_reaches lowSetup lowSetup_window lowKernel
    (Runs.Reachable.start _ lowSetup_boots) ⟨.elem 0x200, 0x8000000000, 3⟩ lowKernel_inWindow⟩

private theorem allocated_until {condition : Kernel → MapCall → Prop} {i : Nat}
    (before after used : List Nat) (frames : Frames) (reached : WindowReaches condition setup machine)
    (same : machine.data.frames = frames) (pool : Pool frames (before ++ i :: after) used) :
    ∃ frames' used', WindowReaches condition setup (machine.withFrames frames') ∧
      frames'.page = frames.page ∧ Pool frames' (i :: after) used' := by
  induction before generalizing machine frames used with
  | nil =>
    subst same
    exact ⟨_, used, reached, rfl, pool⟩
  | cons head rest ih =>
    subst same
    have taken : machine.WindowNext .alloc
        (machine.withFrames (pageAlloc machine.data.frames).2) := by
      unfold Kernel.WindowNext
      rfl
    have step : WindowReaches condition setup
        (machine.withFrames (pageAlloc machine.data.frames).2) := by
      refine Runs.Reachable.step machine .alloc _ reached ⟨?_, taken⟩
      intro map impossible
      cases impossible
    obtain ⟨allocated, remaining⟩ := pool.alloc
    have pool' : Pool (pageAlloc machine.data.frames).2 (rest ++ i :: after) (head :: used) := by
      rw [allocated]
      exact remaining
    obtain ⟨frames', used', reached', samePage, pool'⟩ := ih _ _ step rfl pool'
    refine ⟨frames', used', reached', ?_, pool'⟩
    rw [samePage]
    exact pageAlloc_page _

private theorem nextTable_absent {pointer : Pointer} {index : Index} {frame : Frame}
    (real : (pageAlloc machine.data.frames).1 ≠ .null) (reaches : machine.Reaches pointer frame)
    (absent : present (machine.tables frame index) = false) :
    (nextTable pointer index).run machine =
      some (window (takeTable machine.data.frames).1,
        machine.added frame index (takeTable machine.data.frames)) := by
  have runs : (nextTable pointer index).Runs (fun _ _ => True) machine fun pointer' machine' =>
      pointer' = window (takeTable machine.data.frames).1 ∧
        machine' = machine.added frame index (takeTable machine.data.frames) := by
    unfold nextTable
    have isAbsent : ¬(machine.tables frame index &&& presentFlag ≠ 0) := by
      rw [and_presentFlag, absent]
      decide
    have reaches' : (machine.withFrames (takeTable machine.data.frames).2).Reaches pointer frame := reaches
    rw [Prog.runs_andThen, Prog.runs_read pointer _ reaches, if_neg isAbsent, Prog.runs_andThen]
    refine ⟨trivial, takePage_runs real ?_⟩
    rw [Prog.runs_andThen, Prog.runs_write pointer _ _ reaches', Prog.runs_pure]
    exact ⟨trivial, rfl, rfl⟩
  obtain ⟨_, _, ran, rfl, rfl⟩ := runs.run
  exact ran

private theorem second_access {page : PagePtr} {address : Word} {flags : BitVec 32}
    (realPage : page ≠ .null) (real : (pageAlloc machine.data.frames).1 ≠ .null) (reaches : machine.Reaches (plainPointer (machine.data.frames.page machine.data.pml4).data)
      machine.root)
    (absent : present (machine.tables machine.root (pml4e address)) = false) :
    (machine.added machine.root (pml4e address) (takeTable machine.data.frames),
        Access.mk (window (takeTable machine.data.frames).1) (pdpte address) none) ∈
      (mmuMapPage page address flags).trace machine := by
  unfold mmuMapPage
  rw [Prog.trace_andThen]
  apply List.mem_append_right
  change _ ∈ (loadAddress page >>= _).trace machine
  rw [Prog.trace_andThen, loadAddress_real realPage]
  apply List.mem_append_right
  change _ ∈ (nextTable _ _ >>= _).trace machine
  rw [Prog.trace_andThen, nextTable_absent real reaches absent]
  apply List.mem_append_right
  change _ ∈ (nextTable _ _ >>= _).trace _
  rw [Prog.trace_andThen]
  apply List.mem_append_left
  unfold nextTable
  rw [Prog.trace_andThen]
  apply List.mem_append_left
  exact Prog.mem_trace_read _ _

private theorem walk_past_bootMap {memory : Tables} {entry : Word} :
    walk (setEntry (setEntry (preplongmode memory) 0x3F1 mmuRe (tableEntry 0x3F1000)) 0x3F1 1 entry)
      0x3F1 (p2v 0x1000000) = none := by
  have top : indexAt 3 (p2v 0x1000000) = 0x1FF := by decide
  have next : indexAt 2 (p2v 0x1000000) = 0x1FE := by decide
  have third : indexAt 1 (p2v 0x1000000) = 8 := by decide
  unfold walk
  rw [if_pos (p2v_canonical _), walkFrom_step 3 0x3F1 0x3F2, walkFrom_step 2 0x3F2 0x3F3,
    walkFrom_absent 1 0x3F3]
  · rfl
  · rw [third, setEntry_of_ne (by decide), setEntry_of_ne (by decide), preplongmode_pd]
    decide
  · rw [next, setEntry_of_ne (by decide), setEntry_of_ne (by decide), preplongmode_pdp]
    decide
  · rw [top, setEntry_of_ne (by decide), setEntry_of_ne (by decide), preplongmode_pml4]
    decide

/-- On the boot tables a first mapping in slot 1 fails when the free list starts with the
page at sixteen megabytes. -/
private theorem high_table_missed {memory : Tables} {after used : List Nat}
    (tables : machine.tables = setEntry (preplongmode memory) 0x3F1 mmuRe (tableEntry 0x3F1000))
    (root : machine.root = 0x3F1) (wired : Wired (fun _ => True) bootFix machine)
    (pool : Pool machine.data.frames (0x1000 :: after) used) {page : PagePtr} (real : page ≠ .null)
    (flags : BitVec 32) : ¬WindowsReach machine ⟨page, 0x8000000000, flags⟩ := by
  have slot : pml4e 0x8000000000 = 1 := by decide
  have absent : present (machine.tables machine.root (pml4e 0x8000000000)) = false := by
    rw [tables, root, slot, setEntry_of_ne (by decide), preplongmode_pml4]
    decide
  have address : (takeTable machine.data.frames).1 = 0x1000000 := by
    rw [pool.takeTable.1]
    decide
  have realTable : (pageAlloc machine.data.frames).1 ≠ .null := by
    rw [pool.alloc.1]
    exact PagePtr.noConfusion
  intro windows
  obtain ⟨_, leaf, found, _⟩ := windows _
    (second_access real realTable (recursive_reaches wired.recursive wired.pml4) absent) 0x1000000
    (by rw [address])
  have missed : walk (setEntry machine.tables machine.root (pml4e 0x8000000000)
      (tableEntry (takeTable machine.data.frames).1)) machine.root (p2v 0x1000000) = none := by
    rw [tables, root, slot]
    exact walk_past_bootMap
  change walk (setEntry machine.tables machine.root (pml4e 0x8000000000)
    (tableEntry (takeTable machine.data.frames).1)) machine.root (p2v 0x1000000) = some leaf at found
  rw [missed] at found
  cases found

/-- Once the pages below are used up, the emulator's allocator hands out a table at
sixteen megabytes, which `P2V` does not reach. -/
theorem high_table_not_reached :
    ∃ machine, WindowReaches (fun _ _ => True) emulatorSetup machine ∧
      ¬WindowsReach machine ⟨.elem 0x2000, 0x8000000000, 3⟩ := by
  obtain ⟨free, used, pool, inFree, size, placed⟩ :=
    emulatorSetup_pool (i := 0x1000) (by decide) (by decide) (by decide)
  have boots : emulatorSetup.Boots (initialised (bootKernel (fun _ _ => 0)
      ⟨pmmInit emulatorMap 0xFFFFFFFF8010C000 Frames.blank, .null⟩)) :=
    ⟨.null, emulatorSetup.boot_plain zero_clean (by decide) .null⟩
  generalize pmmInit emulatorMap 0xFFFFFFFF8010C000 Frames.blank = frames at pool size placed boots
  obtain ⟨_, _, remaining⟩ := initialised_pool (fun _ _ => 0) ⟨frames, .null⟩ pool size placed
  have stillFree : 0x1000 ∈ free.erase 0x3F1 := (List.mem_erase_of_ne (by decide)).mpr inFree
  have wired : Wired (fun _ => True) bootFix
      (initialised (bootKernel (fun _ _ => 0) ⟨frames, .null⟩)) :=
    initialised_wired zero_clean fun _ _ => trivial
  have tables : (initialised (bootKernel (fun _ _ => 0) ⟨frames, .null⟩)).tables = _ :=
    initialised_tables
  have root : (initialised (bootKernel (fun _ _ => 0) ⟨frames, .null⟩)).root = 0x3F1 :=
    initialised_root
  generalize initialised (bootKernel (fun _ _ => 0) ⟨frames, .null⟩) = machine
    at boots remaining wired tables root
  obtain ⟨before, after, split⟩ := List.append_of_mem stillFree
  rw [split] at remaining
  obtain ⟨frames', used', reached, samePage, pool'⟩ := allocated_until before after _ _
    (Runs.Reachable.start _ boots) rfl remaining
  have wired' : Wired (fun _ => True) bootFix (machine.withFrames frames') :=
    wired.withFrames samePage
  have tables' : (machine.withFrames frames').tables = _ := tables
  have root' : (machine.withFrames frames').root = 0x3F1 := root
  exact ⟨machine.withFrames frames', reached, high_table_missed tables' root' wired' pool'
    PagePtr.noConfusion _⟩

end Osdev64
