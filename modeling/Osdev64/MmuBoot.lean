/-
The page tables `mmu_init` finds when `page_init` installed no new ones.

`preplongmode` maps the first four megabytes twice: at 0 and at `KERNEL_VIRT`.
Both ways lead through the same PDPT and the same page directory, so the tables
are told apart only up to that sharing.
-/

import Osdev64.BootTables
import Osdev64.MmuWired

namespace Osdev64

open Word64 Paging

/-- The kernel as `boot.asm` starts it. -/
def bootKernel (memory : Tables) (data : KernelData) : Kernel :=
  { tables := preplongmode memory, cr3 := BitVec.ofNat 64 pagingPml4, data := data }

/-- `boot.asm` writes only the low halves of the second page table; the high
halves were zero. -/
def CleanPt2 (memory : Tables) : Prop :=
  ∀ index, (memory 0x3F5 index).extractLsb' 32 32 = 0

/-- `PML4[511]` repeats `PML4[0]`, and `PDPT[510]` repeats `PDPT[0]`. -/
def bootFix (path : List Index) (index : Index) : Index :=
  if path = [] ∧ index = 0x1FF then 0
  else if path = [0] ∧ index = 0x1FE then 0
  else index

variable {memory : Tables} {data : KernelData} {address : Word}

theorem bootKernel_root : (bootKernel memory data).root = 0x3F1 := by
  change frameOf (BitVec.ofNat 64 pagingPml4) = 0x3F1
  decide

/-! ### The first four megabytes -/

private theorem frameOf_page (n : Nat) :
    present (BitVec.ofNat 64 (3 + n * 4096)) = true ∧
      frameOf (BitVec.ofNat 64 (3 + n * 4096)) = BitVec.ofNat 40 n := by
  constructor
  · unfold present
    rw [BitVec.getLsbD, BitVec.toNat_ofNat, Nat.testBit_eq_decide_div_mod_eq]
    simp only [decide_eq_true_eq]
    omega
  · apply BitVec.eq_of_toNat_eq
    unfold frameOf
    rw [BitVec.extractLsb'_toNat, BitVec.toNat_ofNat, BitVec.toNat_ofNat,
      Nat.shiftRight_eq_div_pow]
    omega

private theorem pt2_clean (clean : CleanPt2 memory) (index : Index) :
    preplongmode memory 0x3F5 index = BitVec.ofNat 64 (3 + (512 + index.toNat) * 4096) := by
  have bound := index.isLt
  rw [preplongmode_pt2, clean index]
  apply BitVec.eq_of_toNat_eq
  rw [BitVec.toNat_append, BitVec.toNat_ofNat, BitVec.toNat_ofNat]
  change 0 <<< 32 ||| (0x200003 + index.toNat * 4096) % 2 ^ 32 = _
  rw [Nat.zero_shiftLeft, Nat.zero_or]
  omega

theorem preplongmode_again (clean : CleanPt2 memory) {tables : Tables}
    (same : ∀ frame : Frame, 0x3F1 ≤ frame.toNat → frame.toNat ≤ 0x3F5 →
      tables frame = preplongmode memory frame) :
    CleanPt2 tables ∧ preplongmode tables = tables := by
  have pt2 : ∀ index, tables 0x3F5 index = BitVec.ofNat 64 (3 + (512 + index.toNat) * 4096) := by
    intro index
    rw [same 0x3F5 (by decide) (by decide)]
    exact pt2_clean clean index
  have clean' : CleanPt2 tables := by
    intro index
    have bound := index.isLt
    apply BitVec.eq_of_toNat_eq
    rw [pt2, BitVec.extractLsb'_toNat, BitVec.toNat_ofNat, Nat.shiftRight_eq_div_pow]
    change (3 + (512 + index.toNat) * 4096) % 2 ^ 64 / 2 ^ 32 % 2 ^ 32 = 0
    omega
  refine ⟨clean', ?_⟩
  funext frame index
  by_cases outside : frame.toNat < 0x3F1 ∨ 0x3F5 < frame.toNat
  · exact preplongmode_elsewhere _ index outside
  · have fixed := same frame (by omega) (by omega)
    have places : frame = 0x3F1 ∨ frame = 0x3F2 ∨ frame = 0x3F3 ∨ frame = 0x3F4 ∨ frame = 0x3F5 := by
      simp only [← BitVec.toNat_inj]
      change frame.toNat = 0x3F1 ∨ frame.toNat = 0x3F2 ∨ frame.toNat = 0x3F3 ∨
        frame.toNat = 0x3F4 ∨ frame.toNat = 0x3F5
      omega
    rcases places with rfl | rfl | rfl | rfl | rfl
    · rw [fixed, preplongmode_pml4, preplongmode_pml4]
    · rw [fixed, preplongmode_pdp, preplongmode_pdp]
    · rw [fixed, preplongmode_pd, preplongmode_pd]
    · rw [fixed, preplongmode_pt, preplongmode_pt]
    · rw [pt2_clean clean', pt2]

private theorem boot_pd (top : indexAt 3 address = 0 ∨ indexAt 3 address = 0x1FF)
    (next : indexAt 2 address = 0 ∨ indexAt 2 address = 0x1FE) :
    tableAt (preplongmode memory) 0x3F1 (pathTo address 2) = some 0x3F3 := by
  refine tableAt_cons_eq_some_iff.mpr ⟨0x3F2, tableAt_cons_eq_some_iff.mpr ⟨0x3F1, rfl, ?_⟩, ?_⟩
  · change tableOf (preplongmode memory 0x3F1 (indexAt 3 address)) = _
    rw [preplongmode_pml4, if_pos top]
    decide
  · change tableOf (preplongmode memory 0x3F2 (indexAt 2 address)) = _
    rw [preplongmode_pdp, if_pos next]
    decide

private theorem boot_pt (top : indexAt 3 address = 0 ∨ indexAt 3 address = 0x1FF)
    (next : indexAt 2 address = 0 ∨ indexAt 2 address = 0x1FE) (first : indexAt 1 address = 0) :
    tableAt (preplongmode memory) 0x3F1 (pathTo address 3) = some 0x3F4 := by
  refine tableAt_cons_eq_some_iff.mpr ⟨0x3F3, boot_pd top next, ?_⟩
  change tableOf (preplongmode memory 0x3F3 (indexAt 1 address)) = _
  rw [preplongmode_pd, if_pos first]
  decide

private theorem boot_pt2 (top : indexAt 3 address = 0 ∨ indexAt 3 address = 0x1FF)
    (next : indexAt 2 address = 0 ∨ indexAt 2 address = 0x1FE) (second : indexAt 1 address = 1) :
    tableAt (preplongmode memory) 0x3F1 (pathTo address 3) = some 0x3F5 := by
  refine tableAt_cons_eq_some_iff.mpr ⟨0x3F3, boot_pd top next, ?_⟩
  change tableOf (preplongmode memory 0x3F3 (indexAt 1 address)) = _
  rw [preplongmode_pd, if_neg (by rw [second]; decide), if_pos second]
  decide

theorem boot_walk (clean : CleanPt2 memory) (isCanonical : canonical address = true)
    (top : indexAt 3 address = 0 ∨ indexAt 3 address = 0x1FF)
    (next : indexAt 2 address = 0 ∨ indexAt 2 address = 0x1FE)
    (low : address.toNat % 2 ^ 30 < 0x400000) :
    ∃ leaf, walk (preplongmode memory) 0x3F1 address = some leaf ∧
      leaf.frame = BitVec.ofNat 40 (address.toNat % 2 ^ 30 / 4096) := by
  have first := indexAt_toNat 1 address
  have last := indexAt_toNat 0 address
  by_cases half : address.toNat % 2 ^ 30 < 0x200000
  · have atZero : indexAt 1 address = 0 := by
      apply BitVec.eq_of_toNat_eq
      rw [first]
      change address.toNat / 2 ^ 21 % 512 = 0
      omega
    obtain ⟨isPresent, frameEq⟩ := frameOf_page (indexAt 0 address).toNat
    have here : tableAt (preplongmode memory) 0x3F1 (pathTo address 3) = some 0x3F4 :=
      boot_pt top next atZero
    obtain ⟨leaf, found, atFrame⟩ := walk_of_tables isCanonical here
      (by rw [preplongmode_pt]; exact isPresent)
    refine ⟨leaf, found, ?_⟩
    rw [atFrame, preplongmode_pt, frameEq, last]
    congr 1
    omega
  · have atOne : indexAt 1 address = 1 := by
      apply BitVec.eq_of_toNat_eq
      rw [first]
      change address.toNat / 2 ^ 21 % 512 = 1
      omega
    obtain ⟨isPresent, frameEq⟩ := frameOf_page (512 + (indexAt 0 address).toNat)
    have here : tableAt (preplongmode memory) 0x3F1 (pathTo address 3) = some 0x3F5 :=
      boot_pt2 top next atOne
    obtain ⟨leaf, found, atFrame⟩ := walk_of_tables isCanonical here
      (by rw [pt2_clean clean]; exact isPresent)
    refine ⟨leaf, found, ?_⟩
    rw [atFrame, pt2_clean clean, frameEq, last]
    congr 1
    omega

theorem p2v_canonical (t : Word) : canonical (p2v t) = true := by
  rw [canonical_iff, p2v_toNat]
  omega

theorem indexAt_two_p2v {t : Word} (small : t.toNat < 2 ^ 30) : indexAt 2 (p2v t) = 0x1FE := by
  apply BitVec.eq_of_toNat_eq
  rw [indexAt_toNat, p2v_toNat]
  change (t.toNat % 2 ^ 31 + (2 ^ 64 - 2 ^ 31)) / 2 ^ 30 % 512 = 510
  omega

private theorem ofNat_frame {t : Word} {place : Nat} (same : place = t.toNat) :
    BitVec.ofNat 40 (place / 4096) = frameOf t := by
  apply BitVec.eq_of_toNat_eq
  rw [same, BitVec.toNat_ofNat, frameOf_toNat]

theorem boot_window (clean : CleanPt2 memory) {t : Word} (aligned : t.toNat % 4096 = 0)
    (small : t.toNat < 0x400000) :
    (bootKernel memory data).Reaches (window t) (frameOf t) := by
  refine ⟨window_aligned aligned, ?_⟩
  rw [bootKernel_root]
  have value := p2v_toNat t
  obtain ⟨leaf, found, atFrame⟩ := boot_walk clean (p2v_canonical t) (Or.inr (indexAt_p2v t))
    (Or.inr (indexAt_two_p2v (by omega))) (by omega)
  exact ⟨leaf, found, atFrame.trans (ofNat_frame (by omega))⟩

theorem boot_identity (clean : CleanPt2 memory) {t : Word} (aligned : t.toNat % 4096 = 0)
    (small : t.toNat < 0x400000) :
    (bootKernel memory data).Reaches (plainPointer t) (frameOf t) := by
  refine ⟨aligned, ?_⟩
  rw [bootKernel_root]
  have zero : ∀ level, 2 ≤ level → indexAt level t = 0 := by
    intro level high
    apply BitVec.eq_of_toNat_eq
    rw [indexAt_toNat]
    have lower : t.toNat < 2 ^ (12 + 9 * level) :=
      Nat.lt_of_lt_of_le (show t.toNat < 2 ^ 30 by omega) (Nat.pow_le_pow_right (by omega) (by omega))
    rw [Nat.div_eq_of_lt lower]
    rfl
  obtain ⟨leaf, found, atFrame⟩ := boot_walk clean (canonical_iff.mpr (Or.inl (by omega)))
    (Or.inl (zero 3 (by omega))) (Or.inl (zero 2 (by omega))) (by omega)
  exact ⟨leaf, found, atFrame.trans (ofNat_frame (by omega))⟩

/-! ### After `mmu_init` -/

/-- The machine `mmu_init` leaves when it reaches the PML4 through `P2V`. -/
def initialised (machine : Kernel) : Kernel where
  tables := setEntry machine.tables machine.root mmuRe (tableEntry machine.cr3)
  cr3 := machine.cr3
  data :=
    { frames := (reservePml4 machine.cr3 machine.data.frames).2
      pml4 := (reservePml4 machine.cr3 machine.data.frames).1 }

theorem mmuInit_run {machine : Kernel} (reaches : machine.Reaches (window machine.cr3) machine.root) :
    mmuInit.run machine = some ((), initialised machine) := by
  have located := reaches.locate mmuRe
  have here : Machine.locate { machine with data := (initialised machine).data }
      (window machine.cr3) mmuRe = some (machine.root, mmuRe) := located
  change (Machine.locate { machine with data := (initialised machine).data }
    (window machine.cr3) mmuRe).bind _ = _
  rw [here]
  rfl

theorem initialised_pml4 (machine : Kernel) :
    ((initialised machine).data.frames.page (initialised machine).data.pml4).data =
      mmuRecursive mmuRe mmuRe mmuRe mmuRe := by
  unfold initialised reservePml4 Frames.setPage
  simp

theorem bootKernel_init (clean : CleanPt2 memory) :
    mmuInit.run (bootKernel memory data) = some ((), initialised (bootKernel memory data)) := by
  apply mmuInit_run
  have reaches : (bootKernel memory data).Reaches (window (BitVec.ofNat 64 pagingPml4))
      (frameOf (BitVec.ofNat 64 pagingPml4)) := boot_window clean (by decide) (by decide)
  rw [bootKernel_root]
  exact reaches

private theorem re_absent : present (preplongmode memory 0x3F1 mmuRe) = false := by
  rw [preplongmode_pml4]
  decide

theorem initialised_tables : (initialised (bootKernel memory data)).tables =
    setEntry (preplongmode memory) 0x3F1 mmuRe (tableEntry 0x3F1000) := by
  unfold initialised
  rw [bootKernel_root]
  rfl

theorem initialised_root : (initialised (bootKernel memory data)).root = 0x3F1 := by
  unfold Machine.root initialised
  simp only
  exact bootKernel_root

theorem initialised_data : (initialised (bootKernel memory data)).data =
    { frames := (reservePml4 (BitVec.ofNat 64 pagingPml4) data.frames).2
      pml4 := (reservePml4 (BitVec.ofNat 64 pagingPml4) data.frames).1 } := rfl

theorem initialised_elsewhere {frame : Frame} (outside : frame.toNat < 0x3F1 ∨ 0x3F5 < frame.toNat)
    (place : Index) : (initialised (bootKernel memory data)).tables frame place = memory frame place := by
  rw [initialised_tables, setEntry_of_ne, preplongmode_elsewhere _ place outside]
  rintro ⟨rfl, _⟩
  revert outside
  decide

theorem initialised_slotOne : present ((initialised (bootKernel memory data)).tables
    (initialised (bootKernel memory data)).root 1) = false := by
  rw [initialised_root, initialised_tables, setEntry_of_ne (fun same => absurd same.2 (by decide)),
    preplongmode_pml4, if_neg (by decide)]
  decide

private theorem initialised_grows :
    Grows (preplongmode memory) (initialised (bootKernel memory data)).tables := by
  rw [initialised_tables]
  exact grows_setEntry (Or.inl re_absent)

theorem initialised_window (clean : CleanPt2 memory) {t : Word} (aligned : t.toNat % 4096 = 0)
    (small : t.toNat < 0x400000) :
    (initialised (bootKernel memory data)).Reaches (window t) (frameOf t) := by
  have reaches : (bootKernel memory data).Reaches (window t) (frameOf t) :=
    boot_window clean aligned small
  exact reaches.grows initialised_grows rfl

theorem initialised_identity (clean : CleanPt2 memory) {t : Word} (aligned : t.toNat % 4096 = 0)
    (small : t.toNat < 0x400000) :
    (initialised (bootKernel memory data)).Reaches (plainPointer t) (frameOf t) := by
  have reaches : (bootKernel memory data).Reaches (plainPointer t) (frameOf t) :=
    boot_identity clean aligned small
  exact reaches.grows initialised_grows rfl

theorem initialised_pt (top : indexAt 3 address = 0 ∨ indexAt 3 address = 0x1FF)
    (next : indexAt 2 address = 0 ∨ indexAt 2 address = 0x1FE) (first : indexAt 1 address = 0) :
    tableAt (initialised (bootKernel memory data)).tables 0x3F1 (pathTo address 3) =
      some 0x3F4 :=
  initialised_grows.tableAt (boot_pt top next first)

/-- The five tables, each with the path that leads to it once repeated slots are
taken for what they repeat. -/
def BootTable (frame : Frame) (path : List Index) : Prop :=
  frame = 0x3F1 ∧ path = [] ∨ frame = 0x3F2 ∧ path = [0] ∨ frame = 0x3F3 ∧ path = [0, 0] ∨
    frame = 0x3F4 ∧ path = [0, 0, 0] ∨ frame = 0x3F5 ∧ path = [1, 0, 0]

private theorem set_of_leads {set : Prop} [Decidable set] {entry : Word} {next : Frame}
    (leads : tableOf (if set then entry else 0) = some next) : set ∧ tableOf entry = some next := by
  by_cases isSet : set
  · rw [if_pos isSet] at leads
    exact ⟨isSet, leads⟩
  · rw [if_neg isSet] at leads
    have isPresent := (tableOf_eq_some_iff.mp leads).1
    cases isPresent

private theorem bootTable_step {frame next : Frame} {path : List Index} {index : Index}
    (at' : BootTable frame path) (short : path.length ≤ 2) (avoids : path = [] → index ≠ mmuRe)
    (leads : tableOf (setEntry (preplongmode memory) 0x3F1 mmuRe (tableEntry 0x3F1000) frame index) =
      some next) :
    BootTable next (bootFix path index :: path) ∧
      roundDown (setEntry (preplongmode memory) 0x3F1 mmuRe (tableEntry 0x3F1000) frame index)
        pageSize = next.setWidth 64 <<< 12 := by
  rcases at' with ⟨rfl, rfl⟩ | ⟨rfl, rfl⟩ | ⟨rfl, rfl⟩ | ⟨rfl, rfl⟩ | ⟨rfl, rfl⟩
  · rw [setEntry_of_ne (fun slot => avoids rfl slot.2), preplongmode_pml4] at leads ⊢
    obtain ⟨set, there⟩ := set_of_leads leads
    have nextEq : (0x3F2 : Frame) = next := Option.some.inj there
    subst nextEq
    rw [if_pos set]
    refine ⟨Or.inr (Or.inl ⟨rfl, ?_⟩), by decide⟩
    rcases set with rfl | rfl
    · rfl
    · rfl
  · rw [setEntry_of_ne (fun slot => absurd slot.1 (by decide)), preplongmode_pdp] at leads ⊢
    obtain ⟨set, there⟩ := set_of_leads leads
    have nextEq : (0x3F3 : Frame) = next := Option.some.inj there
    subst nextEq
    rw [if_pos set]
    refine ⟨Or.inr (Or.inr (Or.inl ⟨rfl, ?_⟩)), by decide⟩
    rcases set with rfl | rfl
    · rfl
    · rfl
  · rw [setEntry_of_ne (fun slot => absurd slot.1 (by decide)), preplongmode_pd] at leads ⊢
    by_cases first : index = 0
    · rw [if_pos first] at leads ⊢
      have nextEq : (0x3F4 : Frame) = next := Option.some.inj leads
      subst nextEq first
      exact ⟨Or.inr (Or.inr (Or.inr (Or.inl ⟨rfl, rfl⟩))), by decide⟩
    · rw [if_neg first] at leads ⊢
      obtain ⟨second, there⟩ := set_of_leads leads
      have nextEq : (0x3F5 : Frame) = next := Option.some.inj there
      subst nextEq second
      exact ⟨Or.inr (Or.inr (Or.inr (Or.inr ⟨rfl, rfl⟩))), by decide⟩
  · simp at short
  · simp at short

/-- The words of the PML4, the PDPT and the PD. -/
def bootEntries : List Word := [0, 0x3F1003, 0x3F2003, 0x3F3003, 0x3F4003, 0x3F5003]

theorem bootEntries_bits {entry : Word} (listed : entry ∈ bootEntries) :
    large entry = false ∧ userMode entry = false ∧ writable entry = present entry := by
  simp only [bootEntries, List.mem_cons, List.not_mem_nil, or_false] at listed
  rcases listed with rfl | rfl | rfl | rfl | rfl | rfl <;> decide

private theorem bootTable_entry {frame : Frame} {path : List Index} (index : Index)
    (at' : BootTable frame path) (short : path.length ≤ 2) :
    setEntry (preplongmode memory) 0x3F1 mmuRe (tableEntry 0x3F1000) frame index ∈ bootEntries := by
  unfold setEntry
  rcases at' with ⟨rfl, rfl⟩ | ⟨rfl, rfl⟩ | ⟨rfl, rfl⟩ | ⟨rfl, rfl⟩ | ⟨rfl, rfl⟩
  · rw [preplongmode_pml4]
    split
    · decide
    · split <;> decide
  · rw [preplongmode_pdp]
    split
    · decide
    · split <;> decide
  · rw [preplongmode_pd]
    split
    · decide
    · split
      · decide
      · split <;> decide
  · simp at short
  · simp at short

theorem bootTable_of_tableAt {path : List Index} {frame : Frame} (short : path.length ≤ 3)
    (avoids : Avoids mmuRe path)
    (here : tableAt (initialised (bootKernel memory data)).tables 0x3F1 path = some frame) :
    BootTable frame (unshare bootFix path) := by
  rw [initialised_tables] at here
  induction path generalizing frame with
  | nil => exact Or.inl ⟨(Option.some.inj here).symm, rfl⟩
  | cons index path ih =>
    rw [List.length_cons] at short
    obtain ⟨parent, atParent, leads⟩ := tableAt_cons_eq_some_iff.mp here
    have parentAt := ih (by omega) avoids.tail atParent
    exact (bootTable_step parentAt (by rw [length_unshare]; omega)
      avoids.ne_of_unshare_nil leads).1

theorem initialised_entry {path : List Index} {table : Frame} (index : Index) (short : path.length ≤ 2)
    (avoids : Avoids mmuRe path)
    (here : tableAt (initialised (bootKernel memory data)).tables
      (initialised (bootKernel memory data)).root path = some table) :
    (initialised (bootKernel memory data)).tables table index ∈ bootEntries := by
  rw [initialised_root] at here
  have tableHere := bootTable_of_tableAt (by omega) avoids here
  rw [initialised_tables]
  exact bootTable_entry index tableHere (by rw [length_unshare]; omega)

theorem initialised_recursive :
    tableOf ((initialised (bootKernel memory data)).tables 0x3F1 mmuRe) = some 0x3F1 := by
  rw [initialised_tables, setEntry_same]
  decide

theorem initialised_live {frame : Frame}
    (live : Live (initialised (bootKernel memory data)).tables 0x3F1 frame) :
    0x3F1 ≤ frame.toNat ∧ frame.toNat ≤ 0x3F5 := by
  obtain ⟨path, short, avoids, here⟩ := (live_iff_avoids initialised_recursive).mp live
  rcases bootTable_of_tableAt short avoids here with
    ⟨rfl, _⟩ | ⟨rfl, _⟩ | ⟨rfl, _⟩ | ⟨rfl, _⟩ | ⟨rfl, _⟩ <;> decide

theorem initialised_pdpt_live :
    Live (initialised (bootKernel memory data)).tables 0x3F1 0x3F2 := by
  refine ⟨[0], by decide, tableAt_cons_eq_some_iff.mpr ⟨0x3F1, rfl, ?_⟩⟩
  rw [initialised_tables, setEntry_of_ne (fun slot => absurd slot.2 (by decide)),
    preplongmode_pml4, if_pos (Or.inl rfl)]
  decide

theorem initialised_separated :
    Separated (initialised (bootKernel memory data)).tables 0x3F1 mmuRe bootFix := by
  intro left right frame shortLeft shortRight avoidsLeft avoidsRight atLeft atRight
  have first := bootTable_of_tableAt shortLeft avoidsLeft atLeft
  have second := bootTable_of_tableAt shortRight avoidsRight atRight
  generalize unshare bootFix left = leftPath at first
  generalize unshare bootFix right = rightPath at second
  rcases first with ⟨rfl, rfl⟩ | ⟨rfl, rfl⟩ | ⟨rfl, rfl⟩ | ⟨rfl, rfl⟩ | ⟨rfl, rfl⟩ <;>
    rcases second with ⟨same, rfl⟩ | ⟨same, rfl⟩ | ⟨same, rfl⟩ | ⟨same, rfl⟩ | ⟨same, rfl⟩ <;>
    first
      | rfl
      | exact absurd same (by decide)

theorem initialised_links {t : Word} {next : Frame}
    (links : (initialised (bootKernel memory data)).Links t next) :
    next ∈ ([0x3F2, 0x3F3, 0x3F4, 0x3F5] : List Frame) ∧ t = next.setWidth 64 <<< 12 := by
  obtain ⟨path, parent, index, short, avoids, here, leads, rfl⟩ := links
  rw [initialised_root] at here
  have parentAt := bootTable_of_tableAt (by omega) avoids.tail here
  rw [initialised_tables] at leads ⊢
  obtain ⟨nextAt, value⟩ := bootTable_step parentAt (by rw [length_unshare]; omega)
    avoids.ne_of_unshare_nil leads
  refine ⟨?_, value⟩
  rcases nextAt with ⟨_, impossible⟩ | ⟨rfl, _⟩ | ⟨rfl, _⟩ | ⟨rfl, _⟩ | ⟨rfl, _⟩
  · cases impossible
  all_goals simp

theorem initialised_wired {ok : Word → Prop} (clean : CleanPt2 memory)
    (isOk : ∀ t : Word, t.toNat < 0x400000 → ok t) :
    Wired ok bootFix (initialised (bootKernel memory data)) where
  recursive := by
    rw [initialised_root]
    exact initialised_recursive
  pml4 := initialised_pml4 _
  separated := by
    rw [initialised_root]
    exact initialised_separated
  small := by
    intro path table index short avoids here _
    exact (bootEntries_bits (initialised_entry index (by omega) avoids.tail here)).1
  windowed := by
    intro t next links
    obtain ⟨member, value⟩ := initialised_links links
    have known : t.toNat % 4096 = 0 ∧ t.toNat < 0x400000 ∧ frameOf t = next := by
      rw [value]
      simp only [List.mem_cons, List.not_mem_nil, or_false] at member
      rcases member with rfl | rfl | rfl | rfl <;> decide
    obtain ⟨aligned, low, rfl⟩ := known
    exact ⟨initialised_window clean aligned low, isOk t low⟩

end Osdev64
