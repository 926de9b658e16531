/-
What the boot page tables translate, whatever memory held before.

The clearing loop of `preplongmode` stops one frame short of the second page
table.  The high halves of its entries are left over, and the walk reads them as
part of the frame number.
-/

import Osdev64.BootTables
import Osdev64.Kernel

namespace Osdev64

open Word64 Paging

/-- `boot.asm` leaves `EFER.NXE` clear, so bit 63 of an entry is reserved: a walk that meets
it faults, as it does at an entry that is not present. -/
def withoutNx (tables : Tables) : Tables := fun frame index =>
  if (tables frame index).getLsbD 63 then 0 else tables frame index

/-- Memory as the walks in long mode see it. -/
def bootTables (memory : Tables) : Tables := withoutNx (preplongmode memory)

/-- The walk leads to a physical address, and every entry on it grants writing. -/
def Sends (tables : Tables) (root : Frame) (address : Word) (place : Nat) : Prop :=
  ∃ leaf, walk tables root address = some leaf ∧ leaf.writable = true ∧
    leaf.frame.toNat * 4096 + address.toNat % 4096 = place

/-- Both views of the first four megabytes, and nothing outside their two PML4 entries. -/
structure BootMapped (memory : Tables) : Prop where
  identity : ∀ v : Word, v.toNat < 0x400000 →
    Sends (bootTables memory) (frameOf (BitVec.ofNat 64 pagingPml4)) v v.toNat
  kernel : ∀ v : Word, v.toNat < 0x400000 →
    Sends (bootTables memory) (frameOf (BitVec.ofNat 64 pagingPml4)) (kernelVirt + v) v.toNat
  nothingElse : ∀ address : Word, indexAt 3 address ≠ 0 → indexAt 3 address ≠ 511 →
    walk (bootTables memory) (frameOf (BitVec.ofNat 64 pagingPml4)) address = none

/-- Of what memory held in the second page table, the bits that a walk reads. -/
def LeftoverClear (memory : Tables) : Prop :=
  ∀ index, (memory 0x3F5 index).extractLsb' 32 20 = 0 ∧ (memory 0x3F5 index).getLsbD 63 = false

variable {memory : Tables} {address : Word} {place : Nat}

private theorem root_eq : frameOf (BitVec.ofNat 64 pagingPml4) = 0x3F1 := by decide

/-! ### The upper tables -/

private theorem bootTables_pml4 (index : Index) :
    bootTables memory 0x3F1 index = if index = 0 ∨ index = 0x1FF then 0x3F2003 else 0 := by
  unfold bootTables withoutNx
  rw [preplongmode_pml4]
  by_cases set : index = 0 ∨ index = 0x1FF
  · rw [if_pos set]
    rfl
  · rw [if_neg set]
    rfl

private theorem bootTables_pdp (index : Index) :
    bootTables memory 0x3F2 index = if index = 0 ∨ index = 0x1FE then 0x3F3003 else 0 := by
  unfold bootTables withoutNx
  rw [preplongmode_pdp]
  by_cases set : index = 0 ∨ index = 0x1FE
  · rw [if_pos set]
    rfl
  · rw [if_neg set]
    rfl

private theorem bootTables_pd_first : bootTables memory 0x3F3 0 = 0x3F4003 := by
  unfold bootTables withoutNx
  rw [preplongmode_pd]
  rfl

private theorem bootTables_pd_second : bootTables memory 0x3F3 1 = 0x3F5003 := by
  unfold bootTables withoutNx
  rw [preplongmode_pd]
  rfl

/-- An address of either view. -/
structure InViews (address : Word) : Prop where
  canonical : canonical address = true
  top : indexAt 3 address = 0 ∨ indexAt 3 address = 0x1FF
  next : indexAt 2 address = 0 ∨ indexAt 2 address = 0x1FE

private theorem sends_iff {table : Frame} (inViews : InViews address)
    (leads : tableOf (bootTables memory 0x3F3 (indexAt 1 address)) = some table)
    (grants : writable (bootTables memory 0x3F3 (indexAt 1 address)) = true) :
    Sends (bootTables memory) 0x3F1 address place ↔
      present (bootTables memory table (indexAt 0 address)) = true ∧
        writable (bootTables memory table (indexAt 0 address)) = true ∧
        (frameOf (bootTables memory table (indexAt 0 address))).toNat * 4096 +
          address.toNat % 4096 = place := by
  have toPdp : bootTables memory 0x3F1 (indexAt 3 address) = 0x3F2003 := by
    rw [bootTables_pml4, if_pos inViews.top]
  have toPd : bootTables memory 0x3F2 (indexAt 2 address) = 0x3F3003 := by
    rw [bootTables_pdp, if_pos inViews.next]
  have three : walk (bootTables memory) 0x3F1 address =
      (((walkFrom (bootTables memory) address 1 table).map
        (Leaf.under (bootTables memory 0x3F3 (indexAt 1 address)))).map
          (Leaf.under 0x3F3003)).map (Leaf.under 0x3F2003) := by
    unfold walk
    rw [if_pos inViews.canonical,
      walkFrom_step 3 0x3F1 0x3F2 (by rw [toPdp]; decide),
      walkFrom_step 2 0x3F2 0x3F3 (by rw [toPd]; decide),
      walkFrom_step 1 0x3F3 table leads, toPdp, toPd]
  unfold Sends
  rw [three]
  cases isPresent : present (bootTables memory table (indexAt 0 address)) with
  | false =>
    rw [walkFrom_absent 0 table isPresent]
    simp
  | true =>
    have last : walkFrom (bootTables memory) address 1 table =
        some (Leaf.under (bootTables memory table (indexAt 0 address))
          { frame := frameOf (bootTables memory table (indexAt 0 address))
            writable := true
            user := true }) := by
      simp [walkFrom, isPresent]
    have rights : (writable (0x3F2003 : Word) && (writable (0x3F3003 : Word) &&
        (writable (bootTables memory 0x3F3 (indexAt 1 address)) &&
          (writable (bootTables memory table (indexAt 0 address)) && true)))) =
        writable (bootTables memory table (indexAt 0 address)) := by
      rw [grants, Bool.and_true]
      rfl
    rw [last, Option.map_some, Option.map_some, Option.map_some]
    constructor
    · rintro ⟨leaf, found, isWritable, here⟩
      cases found
      exact ⟨rfl, rights.symm.trans isWritable, here⟩
    · rintro ⟨_, isWritable, here⟩
      exact ⟨_, rfl, rights.trans isWritable, here⟩

/-! ### The page tables -/

private theorem entry_facts {entry : Word} {page : Nat} (value : entry.toNat = 3 + page * 4096) :
    present entry = true ∧ writable entry = true ∧ (frameOf entry).toNat = page % 2 ^ 40 := by
  unfold present writable
  rw [getLsbD_iff, getLsbD_iff, frameOf_toNat, value]
  refine ⟨?_, ?_, ?_⟩
  · omega
  · omega
  · omega

private theorem sends_first (inViews : InViews address) (first : indexAt 1 address = 0) :
    Sends (bootTables memory) 0x3F1 address
      ((indexAt 0 address).toNat * 4096 + address.toNat % 4096) := by
  have bound := (indexAt 0 address).isLt
  have leads : tableOf (bootTables memory 0x3F3 (indexAt 1 address)) = some 0x3F4 := by
    rw [first, bootTables_pd_first]
    decide
  have grants : writable (bootTables memory 0x3F3 (indexAt 1 address)) = true := by
    rw [first, bootTables_pd_first]
    decide
  have value : (BitVec.ofNat 64 (3 + (indexAt 0 address).toNat * 4096)).toNat =
      3 + (indexAt 0 address).toNat * 4096 := by
    rw [BitVec.toNat_ofNat]
    omega
  have entry : bootTables memory 0x3F4 (indexAt 0 address) =
      BitVec.ofNat 64 (3 + (indexAt 0 address).toNat * 4096) := by
    unfold bootTables withoutNx
    rw [preplongmode_pt, if_neg]
    rw [getLsbD_iff, value]
    omega
  obtain ⟨isPresent, isWritable, frame⟩ := entry_facts value
  rw [sends_iff inViews leads grants, entry, frame]
  exact ⟨isPresent, isWritable, by omega⟩

private theorem pt2_toNat (memory : Tables) (index : Index) :
    (preplongmode memory 0x3F5 index).toNat =
      3 + ((memory 0x3F5 index).toNat / 2 ^ 32 * 2 ^ 20 + 512 + index.toNat) * 4096 := by
  have bound := index.isLt
  have word := (memory 0x3F5 index).isLt
  rw [preplongmode_pt2, BitVec.toNat_append, BitVec.extractLsb'_toNat, BitVec.toNat_ofNat,
    ← Nat.shiftLeft_add_eq_or_of_lt (Nat.mod_lt _ (by decide)), Nat.shiftLeft_eq,
    Nat.shiftRight_eq_div_pow]
  omega

private theorem sends_second (memory : Tables) (inViews : InViews address) (second : indexAt 1 address = 1) :
    Sends (bootTables memory) 0x3F1 address
        (0x200000 + (indexAt 0 address).toNat * 4096 + address.toNat % 4096) ↔
      (memory 0x3F5 (indexAt 0 address)).extractLsb' 32 20 = 0 ∧
        (memory 0x3F5 (indexAt 0 address)).getLsbD 63 = false := by
  have bound := (indexAt 0 address).isLt
  have word := (memory 0x3F5 (indexAt 0 address)).isLt
  have value := pt2_toNat memory (indexAt 0 address)
  have leads : tableOf (bootTables memory 0x3F3 (indexAt 1 address)) = some 0x3F5 := by
    rw [second, bootTables_pd_second]
    decide
  have grants : writable (bootTables memory 0x3F3 (indexAt 1 address)) = true := by
    rw [second, bootTables_pd_second]
    decide
  have reserved : (preplongmode memory 0x3F5 (indexAt 0 address)).getLsbD 63 =
      (memory 0x3F5 (indexAt 0 address)).getLsbD 63 := by
    apply Bool.eq_iff_iff.mpr
    rw [getLsbD_iff, getLsbD_iff, value]
    omega
  obtain ⟨isPresent, isWritable, frame⟩ := entry_facts value
  have high : (memory 0x3F5 (indexAt 0 address)).extractLsb' 32 20 = 0 ↔
      (memory 0x3F5 (indexAt 0 address)).toNat / 2 ^ 32 % 2 ^ 20 = 0 := by
    rw [← BitVec.toNat_inj, BitVec.extractLsb'_toNat, Nat.shiftRight_eq_div_pow]
    rfl
  rw [sends_iff inViews leads grants, high]
  unfold bootTables withoutNx
  rw [reserved]
  cases bit : (memory 0x3F5 (indexAt 0 address)).getLsbD 63 with
  | true =>
    rw [if_pos rfl]
    constructor
    · rintro ⟨isPresent, _⟩
      exact absurd isPresent (by decide)
    · rintro ⟨_, impossible⟩
      cases impossible
  | false =>
    rw [if_neg (by decide), frame]
    constructor
    · rintro ⟨_, _, here⟩
      exact ⟨by omega, rfl⟩
    · rintro ⟨zero, _⟩
      exact ⟨isPresent, isWritable, by omega⟩

/-! ### The two views -/

private theorem sends_view (inViews : InViews address) {v : Nat} (same : address.toNat % 2 ^ 30 = v)
    (small : v < 0x400000) :
    Sends (bootTables memory) 0x3F1 address v ↔
      v < 0x200000 ∨ (memory 0x3F5 (indexAt 0 address)).extractLsb' 32 20 = 0 ∧
        (memory 0x3F5 (indexAt 0 address)).getLsbD 63 = false := by
  have last : (indexAt 0 address).toNat = address.toNat / 4096 % 512 := indexAt_toNat 0 address
  have middle : (indexAt 1 address).toNat = address.toNat / 2 ^ 21 % 512 := indexAt_toNat 1 address
  by_cases half : v < 0x200000
  · have first : indexAt 1 address = 0 := by
      apply BitVec.eq_of_toNat_eq
      rw [middle]
      change address.toNat / 2 ^ 21 % 512 = 0
      omega
    have place : (indexAt 0 address).toNat * 4096 + address.toNat % 4096 = v := by omega
    have sends : Sends (bootTables memory) 0x3F1 address
        ((indexAt 0 address).toNat * 4096 + address.toNat % 4096) := sends_first inViews first
    rw [place] at sends
    exact iff_of_true sends (Or.inl half)
  · have second : indexAt 1 address = 1 := by
      apply BitVec.eq_of_toNat_eq
      rw [middle]
      change address.toNat / 2 ^ 21 % 512 = 1
      omega
    have place : 0x200000 + (indexAt 0 address).toNat * 4096 + address.toNat % 4096 = v := by omega
    have sends := sends_second memory inViews second
    rw [place] at sends
    rw [sends, or_iff_right half]

private theorem inViews_identity {v : Word} (small : v.toNat < 0x400000) : InViews v := by
  have zero : ∀ level, 2 ≤ level → indexAt level v = 0 := by
    intro level high
    apply BitVec.eq_of_toNat_eq
    have below : v.toNat < 2 ^ (12 + 9 * level) :=
      Nat.lt_of_lt_of_le (show v.toNat < 2 ^ 30 by omega) (Nat.pow_le_pow_right (by omega) (by omega))
    rw [indexAt_toNat, Nat.div_eq_of_lt below]
    rfl
  exact ⟨canonical_iff.mpr (Or.inl (by omega)), Or.inl (zero 3 (by omega)), Or.inl (zero 2 (by omega))⟩

private theorem kernelVirt_add_toNat {v : Word} (small : v.toNat < 0x400000) :
    (kernelVirt + v).toNat = 2 ^ 64 - 2 ^ 31 + v.toNat := by
  rw [BitVec.toNat_add]
  change (2 ^ 64 - 2 ^ 31 + v.toNat) % 2 ^ 64 = _
  omega

private theorem inViews_kernel {v : Word} (small : v.toNat < 0x400000) : InViews (kernelVirt + v) := by
  have value := kernelVirt_add_toNat small
  refine ⟨canonical_iff.mpr (Or.inr (by omega)), Or.inr ?_, Or.inr ?_⟩
  · apply BitVec.eq_of_toNat_eq
    rw [indexAt_toNat, value]
    change (2 ^ 64 - 2 ^ 31 + v.toNat) / 2 ^ 39 % 512 = 511
    omega
  · apply BitVec.eq_of_toNat_eq
    rw [indexAt_toNat, value]
    change (2 ^ 64 - 2 ^ 31 + v.toNat) / 2 ^ 30 % 512 = 510
    omega

private theorem walk_elsewhere (notFirst : indexAt 3 address ≠ 0) (notLast : indexAt 3 address ≠ 511) :
    walk (bootTables memory) 0x3F1 address = none := by
  have absent : present (bootTables memory 0x3F1 (indexAt 3 address)) = false := by
    rw [bootTables_pml4, if_neg (by tauto)]
    decide
  unfold walk
  rw [walkFrom_absent 3 0x3F1 absent, ite_self]

private theorem BootMapped.leftover (mapped : BootMapped memory) : LeftoverClear memory := by
  intro index
  have bound := index.isLt
  have value : (BitVec.ofNat 64 (0x200000 + index.toNat * 4096)).toNat =
      0x200000 + index.toNat * 4096 := by
    rw [BitVec.toNat_ofNat]
    omega
  generalize BitVec.ofNat 64 (0x200000 + index.toNat * 4096) = v at value
  have atIndex : indexAt 0 v = index := by
    apply BitVec.eq_of_toNat_eq
    rw [indexAt_toNat]
    change v.toNat / 4096 % 512 = index.toNat
    omega
  have sends := mapped.identity v (by omega)
  rw [root_eq, sends_view (inViews_identity (by omega)) (by omega) (by omega), atIndex] at sends
  rcases sends with low | clear
  · omega
  · exact clear

/-- The boot tables map what they should when the bits left over were clear. -/
theorem bootMapped_iff (memory : Tables) : BootMapped memory ↔ LeftoverClear memory := by
  constructor
  · intro mapped
    exact mapped.leftover
  · intro clear
    refine ⟨?_, ?_, ?_⟩
    · intro v small
      rw [root_eq, sends_view (inViews_identity small) (by omega) small]
      exact Or.inr (clear _)
    · intro v small
      have value := kernelVirt_add_toNat small
      rw [root_eq, sends_view (inViews_kernel small) (by omega) small]
      exact Or.inr (clear _)
    · intro address notFirst notLast
      rw [root_eq]
      exact walk_elsewhere notFirst notLast

/-- Memory that came up filled with ones. -/
theorem filled_memory_not_mapped : ¬BootMapped fun _ _ => BitVec.allOnes 64 := by
  intro mapped
  exact absurd (mapped.leftover 0).1 (by decide)

end Osdev64
