/-
Where `page_init` puts the page array.

As long as the array ends below `INITIAL_TOP`, `page_init` keeps the page tables
of `boot.asm`.  Those tables end the first four megabytes themselves, at
`paging.pml4` to `paging.pt2`, so an array that fits may still lie over them.
`page_request` takes one index more than the array has.
-/

import Osdev64.BootTables
import Osdev64.FrameRuns

namespace Osdev64

open Word64

/-- The physical bytes of `parray[0..numpages)`. -/
def Frames.InArray (frames : Frames) (byte : Nat) : Prop :=
  (v2p frames.parray).toNat ≤ byte ∧
    byte < (v2p frames.parray).toNat + frames.numpages.toNat * sizeofPage.toNat

/-- No byte of the array lies in one of the five boot tables. -/
def SparesBootTables (frames : Frames) : Prop :=
  ∀ byte, frames.InArray byte → byte < pagingPml4 ∨ pagingPt2 + 4096 ≤ byte

/-- The array ends below the tables, or the kernel reaches into the last of them, or the
number of pages wraps to zero. -/
def ArrayOffTables (memory kernelEnd : Word) : Prop :=
  ((v2p kernelEnd).toNat / 4096 + 1) * 4096 + (memory.toNat + 4096) / 4096 * 64 ≤ 0x3F1000 ∨
    0x3F5000 ≤ (v2p kernelEnd).toNat ∨ 2 ^ 64 ≤ memory.toNat + 4096

variable {memory kernelEnd : Word}

theorem pageInit_parray (memory table : Word) (frames : Frames) :
    (pageInit memory table frames).parray = p2v (pageInitPlan memory table).table := by
  obtain ⟨middle, loop, core⟩ := pageInit_core memory table frames
  exact core.parray.trans loop.parray

/-- The pages below the end of the array as `page_init` computes it for `mmu_bootstrap`, before
it moves the array up by the three tables. -/
def InitPlan.needed (plan : InitPlan) (table : Word) : Nat :=
  table.toNat / 4096 + 1 + plan.r.toNat

private theorem numpages_bound (memory table : Word) :
    (pageInitPlan memory table).numpages.toNat < 2 ^ 52 := by
  rw [pageInitPlan_numpages, roundUp_div_page]
  omega

theorem pageInitPlan_r_eq (memory table : Word) :
    (pageInitPlan memory table).r.toNat = (pageInitPlan memory table).numpages.toNat / 64 + 1 := by
  have count := numpages_bound memory table
  rw [pageInitPlan_r]
  omega

private theorem bootstrap_eq (memory table : Word) :
    (pageInitPlan memory table).bootstrap =
      decide ((pageInitPlan memory table).r * pageSize + roundUp table pageSize > v2p initialTop) := by
  unfold pageInitPlan
  simp only
  split
  · rename_i past
    exact (decide_eq_true past).symm
  · rename_i fits
    exact (decide_eq_false fits).symm

private theorem needed_toNat (memory : Word) {table : Word} (small : table.toNat < 2 ^ 31) :
    ((pageInitPlan memory table).r * pageSize + roundUp table pageSize).toNat =
      (pageInitPlan memory table).needed table * 4096 := by
  have count := numpages_bound memory table
  have pages := pageInitPlan_r_eq memory table
  have start : (roundUp table pageSize).toNat = (table.toNat / 4096 + 1) * 4096 := by
    rw [roundUp_page]
    omega
  rw [BitVec.toNat_add, BitVec.toNat_mul, start]
  change ((pageInitPlan memory table).r.toNat * 4096 % 2 ^ 64 +
    (table.toNat / 4096 + 1) * 4096) % 2 ^ 64 = _
  unfold InitPlan.needed
  omega

/-- `mmu_bootstrap` is called exactly when the array does not fit below `INITIAL_TOP`. -/
theorem pageInitPlan_bootstrap_iff {table : Word} (small : table.toNat < 2 ^ 31) :
    (pageInitPlan memory table).bootstrap = true ↔
      1024 < (pageInitPlan memory table).needed table := by
  have top : (v2p initialTop).toNat = 1024 * 4096 := by decide
  rw [bootstrap_eq, decide_eq_true_eq, gt_iff_lt, BitVec.lt_def, needed_toNat memory small, top]
  omega

theorem pageInitPlan_fits {table : Word} (small : table.toNat < 2 ^ 31)
    (stays : (pageInitPlan memory table).bootstrap = false) :
    (table.toNat / 4096 + 1) * 4096 + (pageInitPlan memory table).r.toNat * 4096 ≤ 0x400000 := by
  have few : ¬1024 < (pageInitPlan memory table).needed table := by
    rw [← pageInitPlan_bootstrap_iff small, stays]
    decide
  unfold InitPlan.needed at few
  omega

private theorem v2p_small (kernelEnd : Word) : (v2p kernelEnd).toNat < 2 ^ 31 := by
  rw [v2p_toNat]
  omega

private theorem inArray_plan (before : Frames) {table : Word} (low : table.toNat < 2 ^ 31 - 0x4000)
    (byte : Nat) :
    (pageInit memory table before).InArray byte ↔
      (pageInitPlan memory table).table.toNat ≤ byte ∧
        byte < (pageInitPlan memory table).table.toNat +
          (pageInitPlan memory table).numpages.toNat * 64 := by
  have place := pageInitPlan_table memory (show table.toNat < 2 ^ 31 by omega)
  have small : (pageInitPlan memory table).table.toNat < 2 ^ 31 := by
    rw [place]
    split
    · omega
    · omega
  unfold Frames.InArray
  rw [pageInit_parray, pageInit_numpages, (v2p_p2v_iff _).mpr small]
  rfl

private theorem inArray_iff (before : Frames)
    (stays : (pageInitPlan memory (v2p kernelEnd)).bootstrap = false) (byte : Nat) :
    (pageInit memory (v2p kernelEnd) before).InArray byte ↔
      ((v2p kernelEnd).toNat / 4096 + 1) * 4096 ≤ byte ∧
        byte < ((v2p kernelEnd).toNat / 4096 + 1) * 4096 +
          (memory.toNat + 4096) % 2 ^ 64 / 4096 * 64 := by
  have table := pageInitPlan_table memory (v2p_small kernelEnd)
  have fits := pageInitPlan_fits (v2p_small kernelEnd) stays
  rw [stays, if_neg (by decide), Nat.add_zero] at table
  rw [inArray_plan before (by omega), table, pageInitPlan_numpages, roundUp_div_page]

/-- While the boot tables stay in use, the array lies over them exactly when it reaches past
their start. -/
theorem sparesBootTables_iff (memory kernelEnd : Word) (before : Frames)
    (stays : (pageInitPlan memory (v2p kernelEnd)).bootstrap = false) :
    SparesBootTables (pageInit memory (v2p kernelEnd) before) ↔ ArrayOffTables memory kernelEnd := by
  have room := memory.isLt
  unfold SparesBootTables ArrayOffTables pagingPml4 pagingPt2
  simp only [inArray_iff before stays]
  constructor
  · intro spares
    by_contra overlaps
    -- the first byte that is in both the array and the tables
    have first := spares (max (((v2p kernelEnd).toNat / 4096 + 1) * 4096) 0x3F1000)
    omega
  · intro off byte inside
    omega

/-- 32 megabytes of memory and a kernel that ends a little above one. -/
theorem sparesBootTables_small :
    SparesBootTables (pageInit 0x2000000 (v2p 0xFFFFFFFF80110000) Frames.blank) := by
  refine (sparesBootTables_iff 0x2000000 0xFFFFFFFF80110000 Frames.blank (by decide)).mpr (Or.inl ?_)
  decide

/-- With 186 megabytes the array still fits below `INITIAL_TOP`, over the boot tables. -/
theorem array_over_bootTables :
    (pageInitPlan 0xB9FF000 (v2p 0xFFFFFFFF80110000)).bootstrap = false ∧
      ¬SparesBootTables (pageInit 0xB9FF000 (v2p 0xFFFFFFFF80110000) Frames.blank) := by
  have stays : (pageInitPlan 0xB9FF000 (v2p 0xFFFFFFFF80110000)).bootstrap = false := by decide
  refine ⟨stays, ?_⟩
  intro spares
  have inArray := (inArray_iff Frames.blank stays 0x3F1000).mpr (by decide)
  rcases spares 0x3F1000 inArray with below | past
  · exact absurd below (by decide)
  · exact absurd past (by decide)

/-! ### The memory that is mapped -/

/-- The physical limit of the memory at `KERNEL_VIRT` while `page_init` writes the array:
`boot.asm` maps up to `INITIAL_TOP`, `mmu_bootstrap` up to its argument. -/
def InitPlan.mapped (plan : InitPlan) : Word :=
  if plan.bootstrap then plan.req else v2p initialTop

/-- The limit leaves room for the three tables: it is three pages up, or two and the last page
of the array holds no structure. -/
def LeavesTables (memory table : Word) : Prop :=
  (pageInitPlan memory table).bootstrap = false ∨
    (pageInitPlan memory table).needed table % 512 ≤ 509 ∨
      (pageInitPlan memory table).needed table % 512 = 510 ∧
        (pageInitPlan memory table).numpages.toNat % 64 = 0

private theorem roundUp_large (a : Word) (small : a.toNat + 0x200000 < 2 ^ 64) :
    (roundUp a 0x200000).toNat = (a.toNat / 0x200000 + 1) * 0x200000 := by
  have mask : ~~~((0x200000 : Word) - 1) = BitVec.allOnes 64 <<< 21 := by decide
  unfold roundUp
  rw [mask, toNat_and_high, BitVec.toNat_add]
  change (a.toNat + 0x200000) % 2 ^ 64 / 2 ^ 21 * 2 ^ 21 = _
  omega

theorem pageInitPlan_req {table : Word} (small : table.toNat < 2 ^ 31)
    (moves : (pageInitPlan memory table).bootstrap = true) :
    (pageInitPlan memory table).req.toNat =
      ((pageInitPlan memory table).needed table / 512 + 1) * 0x200000 := by
  have value : (pageInitPlan memory table).req =
      roundUp ((pageInitPlan memory table).r * pageSize + roundUp table pageSize) 0x200000 := by
    rw [pageInitPlan] at moves ⊢
    split at moves
    · rename_i past
      rw [if_pos past]
    · cases moves
  have total := needed_toNat memory small
  have bound : (pageInitPlan memory table).needed table < 2 ^ 51 := by
    have count := numpages_bound memory table
    have pages := pageInitPlan_r_eq memory table
    unfold InitPlan.needed
    omega
  rw [value, roundUp_large _ (by omega), total]
  omega

/-- The array lies in mapped memory exactly when the limit leaves room for the three tables, which
are put in front of the array after the limit was computed. -/
theorem array_mapped_iff (memory table : Word) (before : Frames)
    (low : table.toNat < 0x400000 - 3 * 0x1000) :
    (∀ byte, (pageInit memory table before).InArray byte →
        byte < (pageInitPlan memory table).mapped.toNat) ↔ LeavesTables memory table := by
  have place := pageInitPlan_table memory (show table.toNat < 2 ^ 31 by omega)
  have pages := pageInitPlan_r_eq memory table
  simp only [inArray_plan before (show table.toNat < 2 ^ 31 - 0x4000 by omega)]
  unfold LeavesTables InitPlan.mapped
  cases moves : (pageInitPlan memory table).bootstrap with
  | false =>
    have fits := pageInitPlan_fits (show table.toNat < 2 ^ 31 by omega) moves
    rw [moves, if_neg (by decide), Nat.add_zero] at place
    refine iff_of_true ?_ (Or.inl rfl)
    intro byte inside
    change byte < 0x400000
    omega
  | true =>
    have limit := pageInitPlan_req (show table.toNat < 2 ^ 31 by omega) moves
    have many := (pageInitPlan_bootstrap_iff (show table.toNat < 2 ^ 31 by omega)).mp moves
    rw [moves, if_pos rfl] at place
    rw [if_pos rfl, limit, place]
    unfold InitPlan.needed at many ⊢
    rw [pages] at many ⊢
    constructor
    · intro inside
      refine Or.inr ?_
      -- the last byte of the array; there is one, since the kernel alone fits below the top
      have last := inside ((table.toNat / 4096 + 1 + 3) * 4096 +
        (pageInitPlan memory table).numpages.toNat * 64 - 1)
      omega
    · rintro (impossible | leaves) byte inside
      · cases impossible
      · omega

/-- A gigabyte of memory and a kernel that ends a little above one megabyte. -/
theorem array_mapped_gigabyte :
    (pageInitPlan 0x40000000 0x110000).bootstrap = true ∧
      ∀ byte, (pageInit 0x40000000 0x110000 Frames.blank).InArray byte →
        byte < (pageInitPlan 0x40000000 0x110000).mapped.toNat := by
  refine ⟨by decide, ?_⟩
  refine (array_mapped_iff 0x40000000 0x110000 Frames.blank (by decide)).mpr (Or.inr (Or.inl ?_))
  decide

/-- With 315 megabytes the limit is one page up, and the array reaches past it. -/
theorem array_past_limit :
    (0x110000 : Word) < 0x13B3F000 ∧
      (pageInit 0x13B3F000 0x110000 Frames.blank).InArray 0x600000 ∧
      (pageInitPlan 0x13B3F000 0x110000).mapped = 0x600000 := by
  refine ⟨by decide, ?_, by decide⟩
  rw [inArray_plan Frames.blank (by decide)]
  decide

/-! ### The page of an address -/

/-- `page_request` finds the page structure of an address, if the array has one. -/
structure RequestRight (frames : Frames) (address : Word) : Prop where
  beyond : frames.numpages.toNat * 4096 ≤ address.toNat → pageRequest frames address = .null
  found : address.toNat < frames.numpages.toNat * 4096 →
    ∃ i < frames.numpages.toNat, pageRequest frames address = .elem i ∧
      (frames.page (.elem i)).address = roundDown address pageSize
  inside : ∀ i, pageRequest frames address = .elem i → i < frames.numpages.toNat

theorem pageRequest_eq (frames : Frames) (address : Word) :
    pageRequest frames address =
      if frames.numpages.toNat < address.toNat / 4096 then .null else .elem (address.toNat / 4096) := by
  unfold pageRequest
  simp only [gt_iff_lt, BitVec.lt_def, roundDown_div_page]

theorem pageInit_address (memory table : Word) (frames : Frames) {i : Nat}
    (inside : i < (pageInit memory table frames).numpages.toNat) :
    ((pageInit memory table frames).page (.elem i)).address = BitVec.ofNat 64 i * pageSize := by
  obtain ⟨middle, loop, core⟩ := pageInit_core memory table frames
  rw [pageInit_numpages] at inside
  rw [core.address]
  exact loop.address i inside

/-- After `page_init` the request is right for every address except those of the page behind the last. -/
theorem requestRight_iff (memory table : Word) (before : Frames) (address : Word) :
    RequestRight (pageInit memory table before) address ↔
      address.toNat / 4096 ≠ (pageInit memory table before).numpages.toNat := by
  have request := pageRequest_eq (pageInit memory table before) address
  constructor
  · intro right last
    rw [last, if_neg (Nat.lt_irrefl _)] at request
    exact Nat.lt_irrefl _ (right.inside _ request)
  · intro other
    refine ⟨?_, ?_, ?_⟩
    · intro beyond
      rw [request, if_pos (by omega)]
    · intro below
      refine ⟨address.toNat / 4096, by omega, by rw [request, if_neg (by omega)], ?_⟩
      rw [pageInit_address memory table before (by omega)]
      apply BitVec.eq_of_toNat_eq
      have size : pageSize.toNat = 4096 := rfl
      have bound := address.isLt
      rw [BitVec.toNat_mul, BitVec.toNat_ofNat, size, roundDown_page]
      omega
    · intro i atIndex
      rw [request] at atIndex
      split at atIndex
      · cases atIndex
      · injection atIndex with same
        omega

/-- With 16 megabytes there are 4097 page structures, and the one behind them is returned. -/
theorem request_past_array :
    (pageInit 0x1000000 0x110000 Frames.blank).numpages = 4097 ∧
      pageRequest (pageInit 0x1000000 0x110000 Frames.blank) 0x1001000 = .elem 4097 ∧
      ¬RequestRight (pageInit 0x1000000 0x110000 Frames.blank) 0x1001000 := by
  have count : (pageInit 0x1000000 0x110000 Frames.blank).numpages = 4097 := by
    rw [pageInit_numpages]
    decide
  have returned : pageRequest (pageInit 0x1000000 0x110000 Frames.blank) 0x1001000 = .elem 4097 := by
    rw [pageRequest_eq, count]
    decide
  refine ⟨count, returned, ?_⟩
  intro right
  have inside := right.inside 4097 returned
  rw [count] at inside
  exact absurd inside (by decide)

end Osdev64
