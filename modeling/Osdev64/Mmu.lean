/-
The paging code of `src/mmu.c` and `include/arch/x86_64/mmu.h`.

Tables are read and written through virtual addresses, as the C code does: the
PML4 through the address `mmu_init` stores in its page structure, every other
table through `P2V`.  Physical memory is the words of the tables; the allocator's
own data is kept beside it.  The fields of a page structure behind a null pointer
are the words at address 0, where they may fault.  Supervisor code ignores the
writable bit, since no code sets `CR0.WP`.
-/

import Osdev64.Frame
import Osdev64.Lib.Program

namespace Osdev64

open Word64 Paging PointerRing

/-- The static data of `frame.c` and `mmu.c`. -/
structure KernelData where
  frames : Frames
  pml4 : PagePtr

def presentFlag : Word := 0x1
def rw : Word := 0x2
/-- Page size flag. -/
def ps : Word := 0x80

def pml4e (x : Word) : Index := ((x >>> 39) &&& 0x1FF).setWidth 9
def pdpte (x : Word) : Index := ((x >>> 30) &&& 0x1FF).setWidth 9
def pde (x : Word) : Index := ((x >>> 21) &&& 0x1FF).setWidth 9
def pte (x : Word) : Index := ((x >>> 12) &&& 0x1FF).setWidth 9

/-- Recursive page mapping. -/
def mmuRe : Index := 0x180

def mmuRecursive (pml4 pdp pd pt : Index) : Word :=
  let ret : Word := pml4.setWidth 64 <<< 39
  let ret := if ret &&& (1 <<< 47) ≠ 0 then ret ||| 0xFFFF000000000000 else ret
  let ret := ret ||| pdp.setWidth 64 <<< 30
  let ret := ret ||| pd.setWidth 64 <<< 21
  ret ||| pt.setWidth 64 <<< 12

/-- The entry for a table at the given address. -/
def tableEntry (address : Word) : Word := address ||| (presentFlag ||| rw)

/-- `(size_t*) P2V(t)`. -/
def window (t : Word) : Pointer := { address := p2v t, target := some t }

def plainPointer (address : Word) : Pointer := { address := address, target := none }

/-- What `mmu_init` does to the page structure of the PML4. -/
def reservePml4 (cr3 : Word) (frames : Frames) : PagePtr × Frames :=
  let p := pageRequest frames cr3
  let frames := frames.setPage p
    { frames.page p with
      data := mmuRecursive mmuRe mmuRe mmuRe mmuRe
      flags := flagWord (pUsed ||| pImmutable ||| pKernel ||| pVirt) }
  let heap := listDel frames.heap p.pagesNode
  let heap := listDel heap p.lruNode
  (p, { frames with heap := heap })

def mmuInit : Prog KernelData Unit := do
  let cr3 ← Prog.getCr3
  let _ ← Prog.local' fun kernel =>
    let reserved := reservePml4 cr3 kernel.frames
    ((), { frames := reserved.2, pml4 := reserved.1 })
  Prog.write (window cr3) mmuRe (tableEntry cr3)

/-- The loop of `mmu_bootstrap`, over the addresses it visits. -/
def bootstrapPages (pd : Pointer) : List Word → Prog KernelData Unit
  | [] => pure ()
  | i :: rest => do
    Prog.write pd (pde i) (i ||| (presentFlag ||| rw ||| ps))
    bootstrapPages pd rest

/-- `0, 0x200000, ...` below `physical`. -/
def largePages (physical : Word) : List Word :=
  (List.range ((physical.toNat + 0x1FFFFF) / 0x200000)).map fun k => BitVec.ofNat 64 (k * 0x200000)

/-- The new tables are written through the identity map of their physical addresses. -/
def mmuBootstrap (physical pml4 pdpt pd : Word) : Prog KernelData Unit := do
  Prog.write (plainPointer pml4) (pml4e kernelVirt) (tableEntry pdpt)
  Prog.write (plainPointer pml4) mmuRe (tableEntry pml4)
  Prog.write (plainPointer pdpt) (pdpte physical) (tableEntry pd)
  Prog.write (plainPointer pdpt) (pdpte kernelVirt) (tableEntry pd)
  bootstrapPages (plainPointer pd) (largePages physical)
  Prog.setCr3 pml4

/-! ### Page structures -/

/-- The page structure behind a null pointer: `address`, `flags` and `data` are its first words. -/
def nullPage : Pointer := plainPointer 0

/-- `p->address`. -/
def loadAddress (p : PagePtr) : Prog KernelData Word :=
  if p = .null then Prog.read nullPage 0
  else do
    let kernel ← Prog.getData
    pure (kernel.frames.page p).address

/-- `p->flags |= P_VIRT`. -/
def markVirt (p : PagePtr) : Prog KernelData Unit :=
  if p = .null then do
    let flags ← Prog.read nullPage 1
    Prog.write nullPage 1 (flags ||| flagWord pVirt)
  else
    Prog.local' fun kernel =>
      ((), { kernel with
        frames := kernel.frames.setFlags p ((kernel.frames.page p).flags ||| flagWord pVirt) })

/-- `p->data`. -/
def loadData (p : PagePtr) : Prog KernelData Word :=
  if p = .null then Prog.read nullPage 2
  else do
    let kernel ← Prog.getData
    pure (kernel.frames.page p).data

def setData (frame : PagePtr) (data : Word) (kernel : KernelData) : KernelData :=
  { kernel with frames := kernel.frames.setPage frame { kernel.frames.page frame with data := data } }

/-- `p->data = data`. -/
def storeData (p : PagePtr) (data : Word) : Prog KernelData Unit :=
  if p = .null then Prog.write nullPage 2 data
  else Prog.local' fun kernel => ((), setData p data kernel)

def allocPage : Prog KernelData PagePtr :=
  Prog.local' fun kernel =>
    let allocated := pageAlloc kernel.frames
    (allocated.1, { kernel with frames := allocated.2 })

/-! ### Mapping -/

/-- A page for a new table, and its address. -/
def takePage : Prog KernelData Word := do
  let p ← allocPage
  markVirt p
  loadAddress p

/-- The three blocks of `mmu_map_page` that look up or add the next table. -/
def nextTable (table : Pointer) (index : Index) : Prog KernelData Pointer := do
  let entry ← Prog.read table index
  if entry &&& presentFlag ≠ 0 then
    pure (window (roundDown entry pageSize))
  else do
    let address ← takePage
    Prog.write table index (tableEntry address)
    pure (window address)

/-- A two-megabyte page in the way ends the call without a mapping. -/
def mmuMapPage (frame : PagePtr) (address : Word) (flags : BitVec 32) : Prog KernelData Unit := do
  let kernel ← Prog.getData
  let pml4 := plainPointer (kernel.frames.page kernel.pml4).data
  -- the address of the frame is logged before anything else
  let _ ← loadAddress frame
  let pdpt ← nextTable pml4 (pml4e address)
  let pd ← nextTable pdpt (pdpte address)
  let entry ← Prog.read pd (pde address)
  if entry &&& presentFlag ≠ 0 ∧ entry &&& ps ≠ 0 then
    storeData frame 0
  else do
    let pt ← nextTable pd (pde address)
    let physical ← loadAddress frame
    Prog.write pt (pte address) (physical ||| flagWord flags)
    storeData frame address

/-- Request mapping of a virtual address to an anonymous physical page. -/
def mmuReqPage (address : Word) (flags : BitVec 32) : Prog KernelData PagePtr := do
  let page ← allocPage
  let address := roundDown address pageSize
  mmuMapPage page address flags
  let data ← loadData page
  if data ≠ address then pure .null else pure page

/-! ### Indices and flags -/

private theorem index_eq (x : Word) (level shift : Nat) (place : shift = 12 + 9 * level) : ((x >>> shift) &&& 0x1FF).setWidth 9 = indexAt level x := by
  subst place
  apply BitVec.eq_of_toNat_eq
  unfold indexAt
  rw [BitVec.toNat_setWidth, BitVec.toNat_and, BitVec.toNat_ushiftRight, BitVec.extractLsb'_toNat]
  change (x.toNat >>> (12 + 9 * level) &&& (2 ^ 9 - 1)) % 2 ^ 9 = _
  rw [Nat.and_two_pow_sub_one_eq_mod, Nat.mod_mod]

theorem pml4e_eq (x : Word) : pml4e x = indexAt 3 x := index_eq x 3 39 rfl

theorem pdpte_eq (x : Word) : pdpte x = indexAt 2 x := index_eq x 2 30 rfl

theorem pde_eq (x : Word) : pde x = indexAt 1 x := index_eq x 1 21 rfl

theorem pte_eq (x : Word) : pte x = indexAt 0 x := index_eq x 0 12 rfl

theorem and_presentFlag (entry : Word) : entry &&& presentFlag ≠ 0 ↔ present entry = true :=
  and_twoPow_ne_zero_iff entry 0 (by omega)

theorem and_ps (entry : Word) : entry &&& ps ≠ 0 ↔ large entry = true :=
  and_twoPow_ne_zero_iff entry 7 (by omega)

theorem tableEntry_toNat (address : Word) (aligned : address.toNat % 4096 = 0) :
    (tableEntry address).toNat = address.toNat + 3 :=
  toNat_or_of_lt 12 aligned (by decide)

theorem tableOf_tableEntry (address : Word) (aligned : address.toNat % 4096 = 0) :
    tableOf (tableEntry address) = some (frameOf address) := by
  have value := tableEntry_toNat address aligned
  apply tableOf_eq_some_iff.mpr
  refine ⟨?_, ?_, ?_⟩
  · unfold present
    rw [getLsbD_iff, value]
    omega
  · unfold large
    rw [← Bool.not_eq_true, getLsbD_iff, value]
    omega
  · apply BitVec.eq_of_toNat_eq
    rw [frameOf_toNat, frameOf_toNat, value]
    omega

theorem roundDown_tableEntry (address : Word) (aligned : address.toNat % 4096 = 0) :
    roundDown (tableEntry address) pageSize = address := by
  apply BitVec.eq_of_toNat_eq
  rw [roundDown_page, tableEntry_toNat address aligned]
  omega

theorem getLsbD_leaf {t : Word} (aligned : t.toNat % 4096 = 0) (flags : BitVec 32) {bit : Nat}
    (low : bit < 12) : (t ||| flagWord flags).getLsbD bit = flags.getLsbD bit := by
  have clear : t.getLsbD bit = false := by
    rw [← Bool.not_eq_true, getLsbD_iff]
    have split : t.toNat = 2 ^ bit * (2 ^ (12 - bit) * (t.toNat / 4096)) := by
      rw [← Nat.mul_assoc, ← Nat.pow_add, Nat.add_sub_cancel' (Nat.le_of_lt low)]
      omega
    have even : 2 ^ (12 - bit) * (t.toNat / 4096) = 2 * (2 ^ (11 - bit) * (t.toNat / 4096)) := by
      rw [← Nat.mul_assoc, ← Nat.pow_succ', show 12 - bit = (11 - bit).succ by omega]
    rw [split, Nat.mul_div_cancel_left _ (Nat.two_pow_pos bit), even]
    omega
  rw [BitVec.getLsbD_or, clear, flagWord_bit flags (by omega), Bool.false_or]

theorem frameOf_leaf {t : Word} (aligned : t.toNat % 4096 = 0) {flags : BitVec 32}
    (low : flags.toNat < 4096) : frameOf (t ||| flagWord flags) = frameOf t := by
  have positive : flags.msb = false := by
    rw [BitVec.msb_eq_false_iff_two_mul_lt]
    omega
  have value : (flagWord flags).toNat = flags.toNat := by
    unfold flagWord
    rw [BitVec.signExtend_eq_setWidth_of_msb_false positive, BitVec.toNat_setWidth]
    omega
  apply BitVec.eq_of_toNat_eq
  rw [frameOf_toNat, frameOf_toNat, toNat_or_of_lt 12 aligned (by rw [value]; exact low), value]
  omega

theorem window_aligned {t : Word} (aligned : t.toNat % 4096 = 0) :
    (window t).address.toNat % 4096 = 0 := by
  unfold window
  rw [p2v_toNat]
  omega

/-! ### Recursive addresses -/

theorem mmuRecursive_eq (pdp pd pt : Index) :
    mmuRecursive mmuRe pdp pd pt =
      (0xFFFFC00000000000 : Word) ||| pdp.setWidth 64 <<< 30 ||| pd.setWidth 64 <<< 21 |||
        pt.setWidth 64 <<< 12 := by
  have top : (mmuRe.setWidth 64 <<< 39 : Word) &&& (1 <<< 47) ≠ 0 := by decide
  unfold mmuRecursive
  simp only [if_pos top]
  rfl

theorem toNat_mmuRecursive (pdp pd pt : Index) :
    (mmuRecursive mmuRe pdp pd pt).toNat =
      0xFFFFC00000000000 + pdp.toNat * 2 ^ 30 + pd.toNat * 2 ^ 21 + pt.toNat * 2 ^ 12 := by
  have pdpSmall := pdp.isLt
  have pdSmall := pd.isLt
  have ptSmall := pt.isLt
  have atPdp := toNat_shifted pdp (show 9 + 30 ≤ 64 by decide)
  have atPd := toNat_shifted pd (show 9 + 21 ≤ 64 by decide)
  have atPt := toNat_shifted pt (show 9 + 12 ≤ 64 by decide)
  have top : (0xFFFFC00000000000 : Word).toNat = 0xFFFFC00000000000 := by decide
  have first : ((0xFFFFC00000000000 : Word) ||| pdp.setWidth 64 <<< 30).toNat =
      0xFFFFC00000000000 + pdp.toNat * 2 ^ 30 := by
    rw [toNat_or_of_lt 39 (by decide) (by rw [atPdp]; omega), top, atPdp]
  have second : ((0xFFFFC00000000000 : Word) ||| pdp.setWidth 64 <<< 30 ||| pd.setWidth 64 <<< 21).toNat =
      0xFFFFC00000000000 + pdp.toNat * 2 ^ 30 + pd.toNat * 2 ^ 21 := by
    rw [toNat_or_of_lt 30 (by rw [first]; omega) (by rw [atPd]; omega), first, atPd]
  rw [mmuRecursive_eq, toNat_or_of_lt 21 (by rw [second]; omega) (by rw [atPt]; omega), second, atPt]

theorem indices_mmuRecursive (pdp pd pt : Index) :
    canonical (mmuRecursive mmuRe pdp pd pt) = true ∧
      (mmuRecursive mmuRe pdp pd pt).toNat % 4096 = 0 ∧
      indexAt 3 (mmuRecursive mmuRe pdp pd pt) = mmuRe ∧
      indexAt 2 (mmuRecursive mmuRe pdp pd pt) = pdp ∧
      indexAt 1 (mmuRecursive mmuRe pdp pd pt) = pd ∧
      indexAt 0 (mmuRecursive mmuRe pdp pd pt) = pt := by
  have pdpSmall := pdp.isLt
  have pdSmall := pd.isLt
  have ptSmall := pt.isLt
  have value := toNat_mmuRecursive pdp pd pt
  have re : mmuRe.toNat = 384 := by decide
  refine ⟨canonical_iff.2 (Or.inr (by omega)), by omega, ?_, ?_, ?_, ?_⟩
  all_goals
    apply BitVec.eq_of_toNat_eq
    rw [indexAt_toNat, value]
    omega

/-- The walk of a recursive address reads its last entry in the table at the path of the others. -/
theorem walk_recursive {tables : Tables} {root table : Frame} {pdp pd pt : Index}
    (here : tableAt tables root [pd, pdp, mmuRe] = some table) (isPresent : present (tables table pt) = true) :
    ∃ leaf, walk tables root (mmuRecursive mmuRe pdp pd pt) = some leaf ∧
      leaf.frame = frameOf (tables table pt) := by
  obtain ⟨isCanonical, _, third, second, first, zeroth⟩ := indices_mmuRecursive pdp pd pt
  have path : pathTo (mmuRecursive mmuRe pdp pd pt) 3 = [pd, pdp, mmuRe] := by
    simp only [pathTo, Nat.sub_zero, Nat.reduceSub, third, second, first]
  have found := walk_of_tables isCanonical (by rw [path]; exact here) (by rw [zeroth]; exact isPresent)
  rw [zeroth] at found
  exact found

theorem reaches_recursive {machine : Machine KernelData} {pdp pd pt : Index} {table : Frame}
    (here : tableAt machine.tables machine.root [pd, pdp, mmuRe] = some table)
    (isPresent : present (machine.tables table pt) = true) :
    machine.Reaches (plainPointer (mmuRecursive mmuRe pdp pd pt))
      (frameOf (machine.tables table pt)) := by
  obtain ⟨leaf, found, atFrame⟩ := walk_recursive here isPresent
  exact ⟨(indices_mmuRecursive pdp pd pt).2.1, leaf, found, atFrame⟩

end Osdev64
