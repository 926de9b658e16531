/-
`mmu_map_page` and the translation cache.

The code never executes `invlpg` and reloads `CR3` only while it installs new
tables.  So a call for an address that is already mapped leaves the old
translation in the cache; a call that fills an absent entry cannot.
-/

import Osdev64.Lib.Tlb
import Osdev64.MmuPool

namespace Osdev64

open Word64 Paging

inductive PagingCall where
  | map (page : PagePtr) (address : Word) (flags : BitVec 32)
  | req (address : Word) (flags : BitVec 32)

/-- The code of a call; the result of `mmu_req_page` is not used. -/
def PagingCall.body : PagingCall → Prog KernelData Unit
  | .map page address flags => mmuMapPage page address flags
  | .req address flags => mmuReqPage address flags >>= fun _ => pure ()

/-- There is a page, every pointer of the call reaches its table, the frames for new tables are
there and empty, and the entry of the address is absent or already what the call writes. -/
structure MapsAnew (machine : Kernel) (page : PagePtr) (address : Word) (flags : BitVec 32) :
    Prop where
  real : page ≠ .null
  ready : MapReady (fun _ => True) machine address
  entry : ∀ table, tableAt machine.tables machine.root (pathTo address 3) = some table →
    present (machine.tables table (indexAt 0 address)) = false ∨
      machine.tables table (indexAt 0 address) = leafEntry machine page flags

/-- `mmu_req_page` maps the page it allocates first. -/
def Anew (machine : Kernel) : PagingCall → Prop
  | .map page address flags => MapsAnew machine page address flags
  | .req address flags =>
    MapsAnew (machine.withFrames (pageAlloc machine.data.frames).2)
      (pageAlloc machine.data.frames).1 (roundDown address pageSize) flags

/-- The calls that may begin on a machine. -/
def Calls (condition : Kernel → PagingCall → Prop) (machine : Kernel)
    (program : Prog KernelData Unit) : Prop :=
  ∃ call, condition machine call ∧ program = call.body

variable {machine : Kernel}

theorem MapsAnew.extending {page : PagePtr} {address : Word} {flags : BitVec 32}
    (anew : MapsAnew machine page address flags) :
    (mmuMapPage page address flags).Runs Extending machine fun _ _ => True := by
  refine (mmuMapPage_runs page flags anew.real anew.ready).mono ?_ (fun _ _ _ => trivial)
  rintro during access ⟨frame, reaches, _, stores⟩ value isStore place located
  rw [reaches.locate access.index] at located
  have placeEq := Option.some.inj located
  subst placeEq
  rcases stores value isStore with absent | ⟨sameTables, atLast, isLeaf, here⟩
  · exact Or.inl absent
  · rw [sameTables, atLast, isLeaf]
    exact anew.entry frame here

theorem Anew.extending {call : PagingCall} (anew : Anew machine call) :
    call.body.Runs Extending machine fun _ _ => True := by
  cases call with
  | map page address flags => exact MapsAnew.extending anew
  | req address flags =>
    unfold PagingCall.body mmuReqPage allocPage
    rw [Prog.runs_andThen, Prog.runs_andThen, Prog.runs_local, Prog.runs_andThen]
    refine (MapsAnew.extending anew).mono (fun _ _ isGood => isGood) ?_
    intro _ after _
    rw [loadData_real (MapsAnew.real anew), Prog.runs_andThen, Prog.runs_andThen, Prog.runs_getData,
      Prog.runs_pure]
    split
    · exact trivial
    · exact trivial

/-- No interleaving of fills with calls that map anew leaves a stale translation. -/
theorem coherent_of_anew (cpu : Cpu KernelData)
    (reached : Cpu.Reaches (fun _ => True) (Calls Anew) cpu) : Coherent cpu.machine cpu.tlb := by
  refine coherent_of_reaches reached ?_
  rintro machine program ⟨call, anew, rfl⟩
  exact anew.extending

/-! ### A remapped page -/

private theorem loadAddress_keepsCr3 (page : PagePtr) : (loadAddress page).KeepsCr3 := by
  unfold loadAddress
  split
  · exact fun _ => trivial
  · exact fun _ => trivial

private theorem takePage_keepsCr3 : takePage.KeepsCr3 := by
  unfold takePage allocPage markVirt
  refine Prog.keepsCr3_andThen (fun _ => trivial) ?_
  intro page
  refine Prog.keepsCr3_andThen ?_ fun _ => loadAddress_keepsCr3 page
  split
  · exact fun _ => trivial
  · exact fun _ => trivial

private theorem storeData_keepsCr3 (page : PagePtr) (data : Word) : (storeData page data).KeepsCr3 := by
  unfold storeData
  split
  · exact trivial
  · exact fun _ => trivial

private theorem nextTable_keepsCr3 (table : Pointer) (index : Index) :
    (nextTable table index).KeepsCr3 := by
  unfold nextTable
  refine Prog.keepsCr3_andThen (fun _ => trivial) ?_
  intro entry
  split
  · exact trivial
  · refine Prog.keepsCr3_andThen takePage_keepsCr3 ?_
    intro address
    exact Prog.keepsCr3_andThen trivial fun _ => trivial

theorem mmuMapPage_keepsCr3 (page : PagePtr) (address : Word) (flags : BitVec 32) :
    (mmuMapPage page address flags).KeepsCr3 := by
  unfold mmuMapPage
  refine Prog.keepsCr3_andThen (fun _ => trivial) ?_
  intro kernel
  refine Prog.keepsCr3_andThen (loadAddress_keepsCr3 page) ?_
  intro _
  refine Prog.keepsCr3_andThen (nextTable_keepsCr3 _ _) ?_
  intro pdpt
  refine Prog.keepsCr3_andThen (nextTable_keepsCr3 _ _) ?_
  intro pd
  refine Prog.keepsCr3_andThen (fun _ => trivial) ?_
  intro entry
  split
  · exact storeData_keepsCr3 page 0
  · refine Prog.keepsCr3_andThen (nextTable_keepsCr3 _ _) ?_
    intro pt
    refine Prog.keepsCr3_andThen (loadAddress_keepsCr3 page) ?_
    intro physical
    exact Prog.keepsCr3_andThen trivial fun _ => storeData_keepsCr3 page address

private theorem lowKernel_called {condition : Kernel → PagingCall → Prop} {leaf : Leaf}
    {page : PagePtr} {address : Word} {flags : BitVec 32} {machine' : Kernel}
    (met : condition lowKernel (.map page address flags))
    (found : walk lowKernel.tables lowKernel.root 0x1000 = some leaf)
    (maps : lowKernel.Maps ⟨page, address, flags⟩ machine') :
    Cpu.Reaches (fun _ => True) (Calls condition)
      ⟨machine', Tlb.insert (fun _ _ => False) 0x1000 leaf, .done ()⟩ := by
  have starts : Cpu.Reaches (fun _ => True) (Calls condition)
      ⟨lowKernel, fun _ _ => False, .done ()⟩ := Runs.Reachable.start _ ⟨trivial, rfl, rfl⟩
  have filled := starts.step (Cpu.Step.fill lowKernel _ (.done ()) 0x1000 leaf found)
  have begun : Calls condition lowKernel (mmuMapPage page address flags) :=
    ⟨.map page address flags, met, rfl⟩
  have called := filled.step (Cpu.Step.call lowKernel _ (mmuMapPage page address flags) begun)
  exact called.run (mmuMapPage_keepsCr3 page address flags) maps

/-- A page of the empty slot 1 is mapped while `0x1000` is cached. -/
theorem coherent_slotOne :
    ∃ machine' leaf, lowKernel.Maps ⟨.elem 0x200, 0x8000000000, 3⟩ machine' ∧
      walk lowKernel.tables lowKernel.root 0x1000 = some leaf ∧
      Coherent machine' (Tlb.insert (fun _ _ => False) 0x1000 leaf) := by
  have supplied : Supplied (fun _ => True) lowKernel
      (MapCall.mk (.elem 0x200) 0x8000000000 3).address := lowKernel_supplied (by decide)
  obtain ⟨_, leaf, found, _⟩ := lowKernel_identity (t := 0x1000) (by decide) (by decide)
  obtain ⟨machine', maps, _⟩ := lowKernel_wired.maps PagePtr.noConfusion supplied
  have anew : Anew lowKernel (.map (.elem 0x200) 0x8000000000 3) :=
    ⟨PagePtr.noConfusion, lowKernel_wired.mapReady supplied, fun table here => (lowKernel_slotOne_table (by decide) 2 table here).elim⟩
  exact ⟨machine', leaf, maps, found, coherent_of_anew _ (lowKernel_called anew found maps)⟩

/-- Caching the old translation of `0x1000` before the page is mapped again. -/
theorem remapped_page_leaves_stale_translation :
    ∃ cpu, Cpu.Reaches (fun _ => True) (Calls fun _ _ => True) cpu ∧ cpu.program = .done () ∧
      ¬Coherent cpu.machine cpu.tlb := by
  obtain ⟨_, leaf, found, atFrame⟩ := lowKernel_identity (t := 0x1000) (by decide) (by decide)
  obtain ⟨machine', maps, moved⟩ := lowKernel_remapped
  refine ⟨_, lowKernel_called trivial found maps, rfl, ?_⟩
  intro coherent
  have current := coherent 0x1000 leaf (Or.inr ⟨rfl, rfl⟩)
  have after := moved 0x1000 (by decide) (Or.inl (by decide)) (Or.inl (by decide)) (by decide)
    (by decide)
  rw [current, Option.map_some, atFrame] at after
  exact absurd after (by decide)

end Osdev64
