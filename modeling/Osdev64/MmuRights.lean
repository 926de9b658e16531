/-
The rights of a mapped page.

The CPU grants user access and writes only if every level does.  The tables of
`boot.asm` and those `mmu_map_page` adds are hung with `PRESENT|RW`, so that every
level grants writes and none above the page tables grants user access: what a call
asks for with `RW` is effective, what it asks for with `USER` never is.
-/

import Osdev64.MmuLocal
import Osdev64.MmuTlb

namespace Osdev64

open Word64 Paging

/-! ### Calls -/

/-- The machine on which `mmu_map_page` starts: `mmu_req_page` takes a page before. -/
def PagingCall.before (machine : Kernel) : PagingCall → Kernel
  | .map _ _ _ => machine
  | .req _ _ => machine.withFrames (pageAlloc machine.data.frames).2

/-- The `mmu_map_page` of a call. -/
def PagingCall.mapCall (machine : Kernel) : PagingCall → MapCall
  | .map page address flags => ⟨page, address, flags⟩
  | .req address flags => ⟨(pageAlloc machine.data.frames).1, roundDown address pageSize, flags⟩

def PagingCall.address : PagingCall → Word
  | .map _ address _ => address
  | .req address _ => address

def PagingCall.flags : PagingCall → BitVec 32
  | .map _ _ flags => flags
  | .req _ flags => flags

/-- The frames `page_alloc` would return are empty, no live tables, and reached through `P2V`;
the address is outside the recursive slot and its page is none through which a table is
reached; the page is not `NULL` and not the PML4. -/
structure KeepsTree (machine : Kernel) (call : MapCall) : Prop where
  real : call.frame ≠ .null
  supplied : Supplied (fun _ => True) machine call.address
  clear : Clear bootFix machine call.address
  notPml4 : call.frame ≠ machine.data.pml4

/-- The states of the runs after `mmu_init` on the boot tables. -/
def PagingReaches (memory : Tables) : Kernel → Prop :=
  Runs.Reachable (fun machine => ∃ data, mmuInit.run (bootKernel memory data) = some ((), machine))
    fun machine (call : PagingCall) machine' =>
      KeepsTree (call.before machine) (call.mapCall machine) ∧ call.body.run machine = some ((), machine')

/-- The call installs a page of its own: the address is canonical, the frame page aligned, and
`PRESENT` is among the flags. -/
structure Installs (machine : Kernel) (call : PagingCall) : Prop where
  isCanonical : canonical call.address = true
  frame : (machine.data.frames.page (call.mapCall machine).frame).address.toNat % 4096 = 0
  isPresent : call.flags.getLsbD 0 = true

/-- The page can be used by user code, and written, exactly if the flags ask for it. -/
def Effective (machine : Kernel) (address : Word) (flags : BitVec 32) : Prop :=
  ∃ leaf, walk machine.tables machine.root address = some leaf ∧
    leaf.user = flags.getLsbD 2 ∧ leaf.writable = flags.getLsbD 1

variable {machine machine' : Kernel} {call : PagingCall} {memory : Tables}

theorem PagingCall.run_body (call : PagingCall) (machine : Kernel)
    (real : (call.mapCall machine).frame ≠ .null) :
    call.body.run machine =
      ((mmuMapPage (call.mapCall machine).frame (call.mapCall machine).address
        (call.mapCall machine).flags).run (call.before machine)).map fun result => ((), result.2) := by
  cases call with
  | map page address flags =>
    change (mmuMapPage page address flags).run machine = ((mmuMapPage page address flags).run machine).map _
    cases (mmuMapPage page address flags).run machine with
    | none => rfl
    | some result => rfl
  | req address flags =>
    unfold PagingCall.body
    rw [Prog.run_andThen, mmuReqPage_run _ _ real]
    change _ = ((mmuMapPage (pageAlloc machine.data.frames).1 (roundDown address pageSize) flags).run
      (machine.withFrames (pageAlloc machine.data.frames).2)).map _
    cases (mmuMapPage (pageAlloc machine.data.frames).1 (roundDown address pageSize) flags).run
        (machine.withFrames (pageAlloc machine.data.frames).2) with
    | none => rfl
    | some result => rfl

theorem PagingCall.run_body_iff (real : (call.mapCall machine).frame ≠ .null) :
    call.body.run machine = some ((), machine') ↔
      (call.before machine).Maps (call.mapCall machine) machine' := by
  unfold Kernel.Maps
  rw [call.run_body machine real, Option.map_eq_some_iff]
  constructor
  · rintro ⟨result, ran, same⟩
    rw [ran, ← (Prod.mk.inj same).2]
  · intro ran
    exact ⟨_, ran, rfl⟩

theorem PagingCall.before_tables (call : PagingCall) (machine : Kernel) :
    (call.before machine).tables = machine.tables ∧ (call.before machine).cr3 = machine.cr3 ∧
      (call.before machine).data.frames.page = machine.data.frames.page ∧
      (call.before machine).data.pml4 = machine.data.pml4 := by
  cases call with
  | map page address flags => exact ⟨rfl, rfl, rfl, rfl⟩
  | req address flags => exact ⟨rfl, rfl, pageAlloc_page _, rfl⟩

theorem PagingCall.samePage (call : PagingCall) (machine : Kernel) :
    (call.mapCall machine).address.toNat / 4096 = call.address.toNat / 4096 ∧
      (call.mapCall machine).flags = call.flags := by
  cases call with
  | map page address flags => exact ⟨rfl, rfl⟩
  | req address flags =>
    refine ⟨?_, rfl⟩
    change (roundDown address pageSize).toNat / 4096 = address.toNat / 4096
    rw [roundDown_page]
    omega

/-! ### Tables for the kernel only -/

/-- The entries above the page tables, apart from the recursive slot, grant writes and no user
access, and lead to tables. -/
def KernelTables (machine : Kernel) : Prop :=
  ∀ path table index, path.length ≤ 2 → Avoids mmuRe (index :: path) →
    tableAt machine.tables machine.root path = some table →
    present (machine.tables table index) = true →
    writable (machine.tables table index) = true ∧ userMode (machine.tables table index) = false ∧
      large (machine.tables table index) = false

theorem tableEntry_bits {t : Word} (aligned : t.toNat % 4096 = 0) :
    writable (tableEntry t) = true ∧ userMode (tableEntry t) = false ∧ large (tableEntry t) = false := by
  have flags : presentFlag ||| rw = flagWord 3 := by decide
  unfold tableEntry
  rw [flags]
  exact ⟨getLsbD_leaf aligned 3 (by decide), getLsbD_leaf aligned 3 (by decide),
    getLsbD_leaf aligned 3 (by decide)⟩

theorem initialised_kernelTables (data : KernelData) :
    KernelTables (initialised (bootKernel memory data)) := by
  intro path table index short avoids here isPresent
  obtain ⟨small, notUser, grants⟩ := bootEntries_bits (initialised_entry index short avoids.tail here)
  exact ⟨grants.trans isPresent, notUser, small⟩

theorem Changed.kernelTables {ok : Word → Prop} {fix : List Index → Index → Index} {address leaf : Word}
    (changed : Changed fix machine machine' address leaf) (supplied : Supplied ok machine address)
    (kernel : KernelTables machine) : KernelTables machine' := by
  intro path table index short avoids here isPresent
  rw [changed.root] at here
  rcases changed.entries path table index short avoids.tail here isPresent with
    ⟨old, same⟩ | ⟨t, isNew, same⟩
  · rw [same] at isPresent ⊢
    exact kernel path table index short avoids old isPresent
  · rw [same]
    exact tableEntry_bits (supplied.aligned t isNew)

theorem KernelTables.not_blocked {page : PagePtr} {address : Word} (kernel : KernelTables machine)
    (outside : indexAt 3 address ≠ mmuRe) (blocked : Blocked machine machine' page address) : False := by
  obtain ⟨table, here, isPresent, isLarge⟩ := blocked.large
  have notLarge : large (machine.tables table (indexAt 1 address)) = false :=
    (kernel _ table _ (by simp) (avoids_pathTo outside 3) here isPresent).2.2
  rw [isLarge] at notLarge
  cases notLarge

/-- The invariant of the runs. -/
structure Plain (machine : Kernel) : Prop where
  wired : Wired (fun _ => True) bootFix machine
  kernel : KernelTables machine

theorem Plain.before (plain : Plain machine) (call : PagingCall) : Plain (call.before machine) := by
  obtain ⟨tables, cr3, page, pml4⟩ := call.before_tables machine
  constructor
  · exact plain.wired.congr tables cr3 (by rw [page, pml4])
  · unfold KernelTables Machine.root
    rw [tables, cr3]
    exact plain.kernel

theorem Plain.maps {call : MapCall} (plain : Plain machine) (keeps : KeepsTree machine call) :
    ∃ machine', machine.Maps call machine' ∧
      Mapped machine machine' call.frame call.address call.flags := by
  obtain ⟨machine', maps, mapped | blocked⟩ := plain.wired.maps keeps.real keeps.supplied
  · exact ⟨machine', maps, mapped⟩
  · exact (plain.kernel.not_blocked keeps.supplied.outside blocked).elim

theorem Plain.mapped {call : MapCall} (plain : Plain machine) (keeps : KeepsTree machine call)
    (mapped : Mapped machine machine' call.frame call.address call.flags) : Plain machine' :=
  ⟨plain.wired.mapped keeps.supplied keeps.clear keeps.notPml4 mapped,
    (mapped.changed keeps.supplied plain.wired.separated).kernelTables keeps.supplied plain.kernel⟩

theorem plain_of_pagingReaches (clean : CleanPt2 memory) (reached : PagingReaches memory machine) :
    Plain machine := by
  apply reached.invariant Plain
  · rintro machine ⟨data, ran⟩
    rw [bootKernel_init clean] at ran
    have same : initialised (bootKernel memory data) = machine := congrArg Prod.snd (Option.some.inj ran)
    rw [← same]
    exact ⟨initialised_wired clean fun _ _ => trivial, initialised_kernelTables data⟩
  · rintro machine call machine' plain ⟨keeps, ran⟩
    have plain' := plain.before call
    obtain ⟨after, maps, mapped⟩ := plain'.maps keeps
    have sameRun := (PagingCall.run_body_iff keeps.real).mp ran
    unfold Kernel.Maps at maps sameRun
    rw [maps] at sameRun
    have same : after = machine' := congrArg Prod.snd (Option.some.inj sameRun)
    exact same ▸ plain'.mapped keeps mapped

/-! ### The rights of a page -/

theorem KernelTables.rights {address : Word} {table : Frame} (kernel : KernelTables machine)
    (outside : indexAt 3 address ≠ mmuRe) (isCanonical : canonical address = true)
    (here : tableAt machine.tables machine.root (pathTo address 3) = some table)
    (isPresent : present (machine.tables table (indexAt 0 address)) = true) :
    ∃ leaf, walk machine.tables machine.root address = some leaf ∧ leaf.user = false ∧
      leaf.writable = writable (machine.tables table (indexAt 0 address)) := by
  obtain ⟨third, second, thirdAt, secondAt, found⟩ := walk_through isCanonical here isPresent
  have grants (steps : Nat) (below : steps < 3) {parent next : Frame}
      (parentAt : tableAt machine.tables machine.root (pathTo address steps) = some parent)
      (nextAt : tableAt machine.tables machine.root (pathTo address (steps + 1)) = some next) :
      writable (machine.tables parent (indexAt (3 - steps) address)) = true ∧
        userMode (machine.tables parent (indexAt (3 - steps) address)) = false := by
    obtain ⟨parent', parentAt', leads⟩ := tableAt_cons_eq_some_iff.mp nextAt
    rw [parentAt] at parentAt'
    rw [← Option.some.inj parentAt'] at leads
    obtain ⟨grantsWrite, notUser, _⟩ := kernel _ parent _ (by rw [length_pathTo]; omega)
      (avoids_pathTo outside (steps + 1)) parentAt (tableOf_eq_some_iff.mp leads).1
    exact ⟨grantsWrite, notUser⟩
  have atRoot : writable (machine.tables machine.root (indexAt 3 address)) = true ∧
      userMode (machine.tables machine.root (indexAt 3 address)) = false :=
    grants 0 (by decide) rfl thirdAt
  have atThird : writable (machine.tables third (indexAt 2 address)) = true ∧
      userMode (machine.tables third (indexAt 2 address)) = false :=
    grants 1 (by decide) thirdAt secondAt
  have atSecond : writable (machine.tables second (indexAt 1 address)) = true ∧
      userMode (machine.tables second (indexAt 1 address)) = false :=
    grants 2 (by decide) secondAt here
  refine ⟨_, found, ?_, ?_⟩
  · simp [Leaf.under, atRoot.2]
  · simp [Leaf.under, atRoot.1, atThird.1, atSecond.1]

private theorem Mapped.rights {call : MapCall} (plain : Plain machine) (keeps : KeepsTree machine call)
    (mapped : Mapped machine machine' call.frame call.address call.flags)
    (isCanonical : canonical call.address = true)
    (frame : (machine.data.frames.page call.frame).address.toNat % 4096 = 0)
    (isPresent : call.flags.getLsbD 0 = true) :
    ∃ leaf, walk machine'.tables machine'.root call.address = some leaf ∧ leaf.user = false ∧
      leaf.writable = call.flags.getLsbD 1 := by
  have changed := mapped.changed keeps.supplied plain.wired.separated
  obtain ⟨table, here, written⟩ := changed.written
  rw [← changed.root] at here
  unfold leafEntry at written
  obtain ⟨leaf, found, notUser, writes⟩ := (plain.mapped keeps mapped).kernel.rights
    keeps.supplied.outside isCanonical here
    (by rw [written]; exact (getLsbD_leaf frame _ (by decide)).trans isPresent)
  rw [written] at writes
  exact ⟨leaf, found, notUser, writes.trans (getLsbD_leaf frame _ (by decide))⟩

theorem lowKernel_pagingReaches : PagingReaches (fun _ _ => 0) lowKernel :=
  Runs.Reachable.start lowKernel ⟨_, lowKernel_init⟩

private theorem slotOne_keeps (call : MapCall) (frame : call.frame = .elem 0x200)
    (slotOne : call.address = 0x8000000000) : KeepsTree lowKernel call := by
  have notPml4 : call.frame ≠ lowKernel.data.pml4 := by
    rw [frame, lowKernel_pool.1]
    decide
  have own : OwnSlot lowKernel call := by
    refine ⟨?_, ?_, notPml4⟩
    · rw [slotOne]
      decide
    · rw [slotOne]
      decide
  refine ⟨frame ▸ PagePtr.noConfusion, ?_, own.clear, notPml4⟩
  rw [slotOne]
  exact lowKernel_supplied (by decide)

private theorem slotOne_frame {page : PagePtr} (frame : page = .elem 0x200) :
    (lowKernel.data.frames.page page).address.toNat % 4096 = 0 := by
  rw [frame, lowKernel_page (by decide)]
  decide

end Osdev64
