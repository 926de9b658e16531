/-
`mmu_map_page` on any graph of page tables.

Tables may be shared between slots as long as none serves at two levels.  The call
then puts one entry where the walk of its address ends, and every other address
keeps its translation unless its walk ends in the same entry.
-/

import Osdev64.MmuPool

namespace Osdev64

open Word64 Paging

/-- A graph of tables that the code can reach: the PML4 through its own slot, the others
through `P2V`. -/
structure TableGraph (machine : Kernel) : Prop where
  recursive : tableOf (machine.tables machine.root mmuRe) = some machine.root
  pml4 : (machine.data.frames.page machine.data.pml4).data = mmuRecursive mmuRe mmuRe mmuRe mmuRe
  leveled : Leveled machine.tables machine.root mmuRe
  windowed : ∀ t next, machine.Links t next → machine.Reaches (window t) next

/-- No entry on the way to the page table is for a larger page. -/
def NoLargePage (machine : Kernel) (address : Word) : Prop :=
  ∀ level < 3, ∀ table, tableAt machine.tables machine.root (pathTo address level) = some table →
    present (machine.tables table (indexAt (3 - level) address)) = true →
    large (machine.tables table (indexAt (3 - level) address)) = false

/-- A page-aligned canonical address outside the recursive slot, a page-aligned frame and flags
in the low twelve bits with `PRESENT`; the frames `page_alloc` would return are empty, no live
tables, and reached through `P2V`. -/
structure PageCall (machine : Kernel) (call : MapCall) : Prop where
  real : call.frame ≠ .null
  aligned : call.address.toNat % 4096 = 0
  isCanonical : canonical call.address = true
  small : NoLargePage machine call.address
  frame : (machine.data.frames.page call.frame).address.toNat % 4096 = 0
  low : call.flags.toNat < 4096
  isPresent : call.flags.getLsbD 0 = true
  supplied : Supplied (fun _ => True) machine call.address

/-- The walk of the address ends in its own entry of this page table, and no other translation
changed but for those that end there too. -/
structure MapsInto (machine machine' : Kernel) (call : MapCall) (table : Frame) : Prop where
  ends : tableAt machine'.tables machine'.root (pathTo call.address 3) = some table
  entry : machine'.tables table (pte call.address) =
    (machine.data.frames.page call.frame).address ||| flagWord call.flags
  walks : ∃ leaf, walk machine'.tables machine'.root call.address = some leaf ∧
    leaf.frame = frameOf (machine.data.frames.page call.frame).address
  data : (machine'.data.frames.page call.frame).data = call.address
  others : ∀ other, pml4e other ≠ mmuRe →
    walk machine'.tables machine'.root other ≠ walk machine.tables machine.root other →
    tableAt machine'.tables machine'.root (pathTo other 3) = some table ∧ pte other = pte call.address

variable {machine machine' : Kernel} {call : MapCall}

theorem Blocked.not_small {page : PagePtr} {address : Word}
    (blocked : Blocked machine machine' page address) (small : NoLargePage machine address) : False := by
  obtain ⟨table, here, isPresent, isLarge⟩ := blocked.large
  have notLarge : Paging.large (machine.tables table (indexAt 1 address)) = false :=
    small 2 (by omega) table here isPresent
  rw [isLarge] at notLarge
  cases notLarge

private theorem Mapped.mapsInto (mapped : Mapped machine machine' call.frame call.address call.flags)
    (graph : TableGraph machine) (valid : PageCall machine call) :
    ∃ table, MapsInto machine machine' call table := by
  obtain ⟨middle, table, built, leveled, level, tablesEq⟩ := mapped.last valid.supplied graph.leveled
  have rootEq := Machine.root_congr mapped.cr3
  have pathEq {path : List Index} (short : path.length ≤ 3) (avoids : Avoids mmuRe path) :
      tableAt machine'.tables machine'.root path = tableAt middle machine.root path := by
    rw [rootEq, tablesEq]
    exact level.tableAt_eq leveled short avoids
  have ends : tableAt machine'.tables machine'.root (pathTo call.address 3) = some table := by
    rw [pathEq (by simp) level.avoids]
    exact level.here
  have entry : machine'.tables table (indexAt 0 call.address) =
      (machine.data.frames.page call.frame).address ||| flagWord call.flags := by
    rw [tablesEq, setEntry_same]
    rfl
  refine ⟨table, ends, by rw [pte_eq]; exact entry, ?_, ?_, ?_⟩
  · have isPresent : present (machine'.tables table (indexAt 0 call.address)) = true := by
      rw [entry]
      exact (getLsbD_leaf valid.frame call.flags (by decide)).trans valid.isPresent
    obtain ⟨leaf, found, atFrame⟩ := walk_of_tables valid.isCanonical ends isPresent
    rw [entry, frameOf_leaf valid.frame valid.low] at atFrame
    exact ⟨leaf, found, atFrame⟩
  · rw [mapped.data]
    simp [setData, Frames.setPage]
  · intro other outside changed
    rw [pml4e_eq] at outside
    rw [pathEq (by simp) (avoids_pathTo outside 3), pte_eq, pte_eq]
    by_contra elsewhere
    apply changed
    rw [rootEq, tablesEq, level.walk_eq leveled outside elsewhere]
    exact built.walk_eq valid.supplied.freshTables valid.supplied.outside graph.leveled outside

/-- On every graph of tables the call agrees with the hardware's walk. -/
theorem mmuMapPage_maps_into (machine : Kernel) (call : MapCall) (graph : TableGraph machine)
    (valid : PageCall machine call) :
    ∃ machine' table, machine.Maps call machine' ∧ MapsInto machine machine' call table := by
  have ready := valid.supplied.mapReady graph.recursive graph.pml4
    (fun level below => valid.small level (by omega)) fun t next links => ⟨graph.windowed t next links, trivial⟩
  obtain ⟨_, machine', ran, outcome⟩ := (mmuMapPage_runs call.frame call.flags valid.real ready).run
  cases outcome with
  | inl mapped =>
    obtain ⟨table, into⟩ := mapped.mapsInto graph valid
    exact ⟨machine', table, ran, into⟩
  | inr blocked => exact (blocked.not_small valid.small).elim

theorem Wired.tableGraph {ok : Word → Prop} {fix : List Index → Index → Index}
    (wired : Wired ok fix machine) : TableGraph machine where
  recursive := wired.recursive
  pml4 := wired.pml4
  leveled := wired.separated.leveled
  windowed := fun t next links => (wired.windowed t next links).1

theorem noLargePage_of_absent {address : Word}
    (absent : present (machine.tables machine.root (indexAt 3 address)) = false) :
    NoLargePage machine address := by
  intro level _ table here isPresent
  cases level with
  | zero =>
    have isRoot : machine.root = table := Option.some.inj here
    rw [← isRoot, Nat.sub_zero, absent] at isPresent
    cases isPresent
  | succ level =>
    have atRoot : tableAt machine.tables machine.root (pathTo address 0) = some machine.root := rfl
    exact (tableAt_of_absent atRoot (by rw [Nat.sub_zero]; exact absent) (Nat.succ_pos level) here).elim

theorem lowKernel_pageCall (call : MapCall) (frame : call.frame = .elem 0x200)
    (slotOne : call.address = 0x8000000000) (low : call.flags.toNat < 4096)
    (isPresent : call.flags.getLsbD 0 = true) : PageCall lowKernel call where
  real := frame ▸ PagePtr.noConfusion
  aligned := by
    rw [slotOne]
    decide
  isCanonical := by
    rw [slotOne]
    decide
  small := by
    have slot : indexAt 3 call.address = 1 := by
      rw [slotOne]
      decide
    apply noLargePage_of_absent
    rw [slot]
    exact lowKernel_slotOne
  frame := by
    rw [frame, lowKernel_page (by decide)]
    decide
  low := low
  isPresent := isPresent
  supplied := by
    rw [slotOne]
    exact lowKernel_supplied (by decide)

theorem mmuMapPage_maps_into_slotOne :
    ∃ machine' table, lowKernel.Maps ⟨.elem 0x200, 0x8000000000, 3⟩ machine' ∧
      MapsInto lowKernel machine' ⟨.elem 0x200, 0x8000000000, 3⟩ table :=
  mmuMapPage_maps_into lowKernel ⟨.elem 0x200, 0x8000000000, 3⟩ lowKernel_wired.tableGraph
    (lowKernel_pageCall _ rfl rfl (by decide) (by decide))

end Osdev64
