/-
Mapping a page and the other pages.

On the tables of `boot.asm` the slots 0 and 511 of the PML4 lead to the same
PDPT, so a mapping in either shows up in the other.  A mapping in any other slot
is seen by its own page alone.
-/

import Osdev64.Lib.Runs
import Osdev64.MmuPool

namespace Osdev64

open Word64 Paging

/-- Every other page outside the recursive slot keeps its translation. -/
def OthersKept (machine machine' : Kernel) (address : Word) : Prop :=
  ∀ other, pml4e other ≠ mmuRe → other.toNat / 4096 ≠ address.toNat / 4096 →
    walk machine'.tables machine'.root other = walk machine.tables machine.root other

/-- A page structure, and a page-aligned canonical address outside the recursive slot; the frames
`page_alloc` would return are there, empty, no live tables, and reached through `P2V`. -/
structure MapAssumed (machine : Kernel) (call : MapCall) : Prop where
  real : call.frame ≠ .null
  aligned : call.address.toNat % 4096 = 0
  isCanonical : canonical call.address = true
  supplied : Supplied (fun _ => True) machine call.address

/-- The address is in neither of the two slots that share the boot PDPT, and the
frame is not the PML4, whose page structure holds the address of the tables. -/
structure OwnSlot (machine : Kernel) (call : MapCall) : Prop where
  notLow : pml4e call.address ≠ 0
  notHigh : pml4e call.address ≠ pml4e kernelVirt
  notPml4 : call.frame ≠ machine.data.pml4

/-- The states of the runs after `mmu_init` on the boot tables. -/
def BootReaches (condition : Kernel → MapCall → Prop) (memory : Tables) (machine : Kernel) : Prop :=
  Runs.Reachable (fun machine => ∃ data, mmuInit.run (bootKernel memory data) = some ((), machine))
    (fun machine call machine' => MapAssumed machine call ∧ condition machine call ∧
      Kernel.Maps machine call machine') machine

variable {machine machine' : Kernel} {address other : Word} {memory : Tables}

/-! ### Slots of its own -/

private theorem bootFix_root {index : Index} (notHigh : index ≠ 0x1FF) : bootFix [] index = index := by
  unfold bootFix
  rw [if_neg (fun slot => notHigh slot.2), if_neg (by simp)]

private theorem bootFix_below {path : List Index} (index : Index) (notRoot : path ≠ [])
    (notLow : path ≠ [0]) : bootFix path index = index := by
  unfold bootFix
  rw [if_neg (fun slot => notRoot slot.1), if_neg (fun slot => notLow slot.1)]

private theorem unshare_own (notLow : indexAt 3 address ≠ 0) (notHigh : indexAt 3 address ≠ 0x1FF) :
    unshare bootFix (pathTo address 4) =
      [indexAt 0 address, indexAt 1 address, indexAt 2 address, indexAt 3 address] := by
  have second : bootFix [indexAt 3 address] (indexAt 2 address) = indexAt 2 address :=
    bootFix_below _ (by simp) (by intro low; exact notLow (List.cons.inj low).1)
  have third : bootFix [indexAt 2 address, indexAt 3 address] (indexAt 1 address) =
      indexAt 1 address := bootFix_below _ (by simp) (by simp)
  have fourth : bootFix [indexAt 1 address, indexAt 2 address, indexAt 3 address]
      (indexAt 0 address) = indexAt 0 address := bootFix_below _ (by simp) (by simp)
  simp only [pathTo, unshare, bootFix_root notHigh, second, third, fourth]

theorem indices_of_sameEntry (notLow : indexAt 3 address ≠ 0) (notHigh : indexAt 3 address ≠ 0x1FF)
    (same : SameEntry bootFix address other) :
    ∀ level < 4, indexAt level address = indexAt level other := by
  unfold SameEntry at same
  rw [unshare_own notLow notHigh] at same
  have topSame : indexAt 3 address = indexAt 3 other := by
    by_cases high : indexAt 3 other = 0x1FF
    · have shared : bootFix [] (indexAt 3 other) = 0 := by
        rw [high]
        rfl
      simp only [pathTo, unshare, shared, List.cons.injEq] at same
      exact absurd same.2.2.2.1 notLow
    · simp only [pathTo, unshare, bootFix_root high, List.cons.injEq] at same
      exact same.2.2.2.1
  rw [unshare_own (topSame ▸ notLow) (topSame ▸ notHigh)] at same
  simp only [List.cons.injEq] at same
  obtain ⟨zero, one, two, three, _⟩ := same
  intro level below
  have cases : level = 0 ∨ level = 1 ∨ level = 2 ∨ level = 3 := by omega
  rcases cases with rfl | rfl | rfl | rfl
  · exact zero
  · exact one
  · exact two
  · exact three

theorem OwnSlot.indexAt {call : MapCall} (own : OwnSlot machine call) :
    indexAt 3 call.address ≠ 0 ∧ indexAt 3 call.address ≠ 0x1FF := by
  obtain ⟨notLow, notHigh, _⟩ := own
  have high : pml4e kernelVirt = 0x1FF := by decide
  rw [pml4e_eq] at notLow
  rw [high, pml4e_eq] at notHigh
  exact ⟨notLow, notHigh⟩

theorem OwnSlot.clear {call : MapCall} (own : OwnSlot machine call) :
    Clear bootFix machine call.address := by
  obtain ⟨notLow, notHigh⟩ := own.indexAt
  have different : ∀ t, ¬SameEntry bootFix call.address (p2v t) := by
    intro t same
    have top := indices_of_sameEntry notLow notHigh same 3 (by omega)
    rw [indexAt_p2v] at top
    exact notHigh top
  exact ⟨fun t _ _ => different t, fun t _ => different t⟩

private theorem Mapped.othersKept {page : PagePtr} {flags : BitVec 32} {ok : Word → Prop}
    (mapped : Mapped machine machine' page address flags) (supplied : Supplied ok machine address)
    (separated : Separated machine.tables machine.root mmuRe bootFix)
    (isCanonical : canonical address = true) (notLow : indexAt 3 address ≠ 0)
    (notHigh : indexAt 3 address ≠ 0x1FF) : OthersKept machine machine' address := by
  intro other outside different
  have changed := mapped.changed supplied separated
  rw [changed.root]
  by_cases otherCanonical : canonical other = true
  · apply changed.walk_eq other (by rwa [← pml4e_eq])
    intro same
    have indices := indices_of_sameEntry notLow notHigh same
    exact different (samePage_of_indices isCanonical otherCanonical indices).symm
  · unfold walk
    rw [if_neg otherCanonical, if_neg otherCanonical]

private theorem Blocked.othersKept {page : PagePtr}
    (blocked : Blocked machine machine' page address) : OthersKept machine machine' address := by
  intro other _ _
  rw [Machine.root_congr blocked.cr3, blocked.tables]

/-! ### Runs -/

theorem bootReaches_wired {condition : Kernel → MapCall → Prop} (clean : CleanPt2 memory)
    (keeps : ∀ machine call, condition machine call → Clear bootFix machine call.address ∧
      call.frame ≠ machine.data.pml4) (reached : BootReaches condition memory machine) :
    Wired (fun _ => True) bootFix machine := by
  apply reached.invariant (Wired (fun _ => True) bootFix)
  · rintro machine ⟨data, ran⟩
    rw [bootKernel_init clean] at ran
    have same := congrArg Prod.snd (Option.some.inj ran)
    rw [← show initialised (bootKernel memory data) = machine from same]
    exact initialised_wired clean fun _ _ => trivial
  · rintro machine call machine' wired ⟨assumed, met, maps⟩
    obtain ⟨clear, notPml4⟩ := keeps machine call met
    exact wired.kept assumed.real assumed.supplied clear notPml4 maps

/-- Along every run whose mappings stay out of the shared slots, each call returns
and leaves every other page as it was. -/
theorem othersKept_of_bootReaches (memory : Tables) (clean : CleanPt2 memory) (machine : Kernel)
    (reached : BootReaches OwnSlot memory machine) (call : MapCall)
    (assumed : MapAssumed machine call) (own : OwnSlot machine call) :
    ∃ machine', machine.Maps call machine' ∧ OthersKept machine machine' call.address := by
  have wired := bootReaches_wired clean (fun _ _ own => ⟨own.clear, own.notPml4⟩) reached
  obtain ⟨machine', maps, outcome⟩ := wired.maps assumed.real assumed.supplied
  obtain ⟨notLow, notHigh⟩ := own.indexAt
  refine ⟨machine', maps, ?_⟩
  rcases outcome with mapped | blocked
  · exact mapped.othersKept assumed.supplied wired.separated assumed.isCanonical notLow notHigh
  · exact blocked.othersKept

theorem lowKernel_bootReaches (condition : Kernel → MapCall → Prop) :
    BootReaches condition (fun _ _ => 0) lowKernel :=
  Runs.Reachable.start lowKernel ⟨_, lowKernel_init⟩

/-- The first address of slot 1. -/
theorem othersKept_slotOne :
    ∃ machine', lowKernel.Maps ⟨.elem 0x200, 0x8000000000, 3⟩ machine' ∧
      OthersKept lowKernel machine' 0x8000000000 := by
  have notPml4 : PagePtr.elem 0x200 ≠ lowKernel.data.pml4 := by
    rw [lowKernel_pool.1]
    decide
  exact othersKept_of_bootReaches (fun _ _ => 0) zero_clean lowKernel (lowKernel_bootReaches _)
    ⟨.elem 0x200, 0x8000000000, 3⟩
    ⟨PagePtr.noConfusion, by decide, by decide, lowKernel_supplied (by decide)⟩
    ⟨by decide, by decide, notPml4⟩

/-- Mapping the low address `0x1000` to the frame `0x200` moves `P2V(0x1000)` there as well. -/
theorem low_mapping_moves_direct_map :
    BootReaches (fun _ _ => True) (fun _ _ => 0) lowKernel ∧
      MapAssumed lowKernel ⟨.elem 0x200, 0x1000, 3⟩ ∧
      ∃ machine', lowKernel.Maps ⟨.elem 0x200, 0x1000, 3⟩ machine' ∧
        (walk lowKernel.tables lowKernel.root (p2v 0x1000)).map Leaf.frame = some 1 ∧
        (walk machine'.tables machine'.root (p2v 0x1000)).map Leaf.frame = some 0x200 ∧
        ¬OthersKept lowKernel machine' 0x1000 := by
  have supplied : Supplied (fun _ => True) lowKernel 0x1000 := lowKernel_supplied (by decide)
  refine ⟨lowKernel_bootReaches _, ⟨PagePtr.noConfusion, by decide, by decide, supplied⟩, ?_⟩
  obtain ⟨machine', maps, moved⟩ := lowKernel_remapped
  have before : (walk lowKernel.tables lowKernel.root (p2v 0x1000)).map Leaf.frame = some 1 := by
    obtain ⟨_, leaf, found, atFrame⟩ := lowKernel_window (t := 0x1000) (by decide) (by decide)
    rw [show walk lowKernel.tables lowKernel.root (p2v 0x1000) = some leaf from found,
      Option.map_some, atFrame]
    decide
  have after := moved (p2v 0x1000) (by decide) (Or.inr (by decide)) (Or.inr (by decide))
    (by decide) (by decide)
  refine ⟨machine', maps, before, after, ?_⟩
  intro kept
  have same := kept (p2v 0x1000) (by decide) (by decide)
  rw [same, before] at after
  exact absurd after (by decide)

end Osdev64
