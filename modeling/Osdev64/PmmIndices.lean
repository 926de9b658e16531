/-
The indices at which the memory setup accesses the page array.

`page_init` sizes the array from the last usable entry of the map.  Its own
loops, and `page_mark_range`, then index it with the kernel's end, with the
place of the array itself and with the other entries; the asserts in front of
them print and go on.
-/

import Osdev64.FrameArray
import Osdev64.Pmm

namespace Osdev64

open Word64

/-- The index of `parray` for the table at `mmu[i]`. -/
def tableIndex (mmu : Word) : Nat := (roundDown mmu pageSize / pageSize).toNat

/-- `parray[i]` in the three loops of `page_init`. -/
def pageInitIndices (memory table : Word) : List Nat :=
  let plan := pageInitPlan memory table
  List.range plan.numpages.toNat ++ (plan.mmu.filter fun mmu => mmu ≠ 0).map tableIndex ++
    (List.range plan.r.toNat).map (markIndex plan.table)

/-- `parray[s]` in the loop of `page_mark_range`. -/
def pageMarkRangeIndices (start stop : Word) (flags : BitVec 32) : List Nat :=
  if start ≤ stop ∧ acceptedFlags flags then
    List.range' (markBounds start stop).1 ((markBounds start stop).2 - (markBounds start stop).1)
  else []

def markEntryIndices (highest : Word) (entry : MemoryMap) : List Nat :=
  if entry.stop ≤ highest then
    pageMarkRangeIndices entry.base entry.stop (if entry.usable then pFree else pUsed)
  else []

/-- Every index in the order of the accesses. -/
def pmmInitIndices (map : List MemoryMap) (kernelEnd : Word) : List Nat :=
  pageInitIndices (highestAddr map) (v2p kernelEnd) ++
    map.flatMap (markEntryIndices (highestAddr map)) ++
    pageMarkRangeIndices 0 (v2p kernelEnd) kernelFlags

variable {frames : Frames} {map : List MemoryMap} {kernelEnd : Word} {i : Nat}

/-! ### Pages at other indices are not touched -/

private theorem foldl_page {α : Type} {step : Frames → α → Frames} (items : List α)
    (kept : ∀ item ∈ items, ∀ frames, (step frames item).page (.elem i) = frames.page (.elem i))
    (frames : Frames) : (items.foldl step frames).page (.elem i) = frames.page (.elem i) := by
  induction items generalizing frames with
  | nil => rfl
  | cons item rest ih =>
    rw [List.foldl_cons, ih fun other member => kept other (List.mem_cons_of_mem item member)]
    exact kept item List.mem_cons_self frames

theorem pageInit_page_of_not_mem {memory table : Word}
    (outside : i ∉ pageInitIndices memory table) (frames : Frames) :
    (pageInit memory table frames).page (.elem i) = frames.page (.elem i) := by
  unfold pageInitIndices at outside
  simp only [List.mem_append, List.mem_map, List.mem_filter, List.mem_range, not_or,
    decide_eq_true_eq] at outside
  obtain ⟨⟨notInit, notTable⟩, notArray⟩ := outside
  rw [pageInit_eq]
  generalize pageInitPlan memory table = plan at notInit notTable notArray ⊢
  have init := (initPages_spec plan.numpages.toNat
    { frames with numpages := plan.numpages, parray := p2v plan.table }).elsewhere (.elem i)
  rw [foldl_page, foldl_page, init]
  · intro k below same
    injection same with same
    exact notInit (same ▸ below)
  · intro mmu member frames
    unfold markTablePage
    split
    · rfl
    · rename_i nonzero
      apply setFlags_page_elem
      intro same
      exact notTable ⟨mmu, ⟨member, nonzero⟩, same.symm⟩
  · intro k member frames
    apply setFlags_page_elem
    intro same
    exact notArray ⟨k, List.mem_range.mp member, same.symm⟩

theorem pageMarkRange_page_of_not_mem {start stop : Word} {flags : BitVec 32}
    (outside : i ∉ pageMarkRangeIndices start stop flags) (frames : Frames) :
    (pageMarkRange start stop flags frames).2.page (.elem i) = frames.page (.elem i) := by
  unfold pageMarkRangeIndices at outside
  by_cases marks : Marks start stop flags
  · rw [if_pos (show start ≤ stop ∧ acceptedFlags flags = true from marks)] at outside
    rw [pageMarkRange_of_marks marks]
    apply foldl_page
    intro k member frames
    apply markPage_page_of_ne
    intro same
    exact outside (same ▸ member)
  · rw [pageMarkRange_of_not_marks marks]

private theorem markEntry_page_of_not_mem {highest : Word} {entry : MemoryMap}
    (outside : i ∉ markEntryIndices highest entry) (frames : Frames) :
    (markEntry highest frames entry).page (.elem i) = frames.page (.elem i) := by
  unfold markEntryIndices at outside
  unfold markEntry
  split
  · rename_i low
    rw [if_pos low] at outside
    cases kind : entry.usable with
    | true =>
      rw [kind] at outside
      exact pageMarkRange_page_of_not_mem outside frames
    | false =>
      rw [kind] at outside
      exact pageMarkRange_page_of_not_mem outside frames
  · rfl

theorem pmmInit_page_of_not_mem (outside : i ∉ pmmInitIndices map kernelEnd) (frames : Frames) :
    (pmmInit map kernelEnd frames).page (.elem i) = frames.page (.elem i) := by
  unfold pmmInitIndices at outside
  simp only [List.mem_append, List.mem_flatMap, not_or, not_exists, not_and] at outside
  obtain ⟨⟨notInit, notEntry⟩, notKernel⟩ := outside
  unfold pmmInit
  simp only
  rw [pageMarkRange_page_of_not_mem notKernel, foldl_page, pageInit_page_of_not_mem notInit]
  intro entry member frames
  exact markEntry_page_of_not_mem (notEntry entry member) frames

/-! ### The bound -/

/-- The pages that hold the array end inside it, and below what the `int` of the marking loop
can index. -/
def HoldsItself (map : List MemoryMap) (kernelEnd : Word) : Prop :=
  (pmmPlan map kernelEnd).table.toNat / 4096 + (pmmPlan map kernelEnd).r.toNat ≤
      (pmmPlan map kernelEnd).numpages.toNat ∧
    (pmmPlan map kernelEnd).table.toNat / 4096 + (pmmPlan map kernelEnd).r.toNat ≤ 2 ^ 31

private theorem markIndex_negative {table : Word} {k : Nat}
    (large : k + table.toNat / 4096 = 2 ^ 31) : markIndex table k = 2 ^ 64 - 2 ^ 31 := by
  have value : (BitVec.ofNat 64 k + roundDown table pageSize / pageSize).setWidth 32 =
      BitVec.intMin 32 := by
    apply BitVec.eq_of_toNat_eq
    rw [BitVec.toNat_setWidth, BitVec.toNat_add, BitVec.toNat_ofNat, roundDown_div_page]
    change (k % 2 ^ 64 + table.toNat / 4096) % 2 ^ 64 % 2 ^ 32 = 2 ^ 31
    omega
  unfold markIndex
  simp only
  rw [value]
  decide

private theorem v2p_lt (kernelEnd : Word) : (v2p kernelEnd).toNat < 2 ^ 31 := by
  rw [v2p_toNat]
  omega

private theorem pmmPlan_table (map : List MemoryMap) (kernelEnd : Word) :
    (pmmPlan map kernelEnd).table.toNat / 4096 =
      (v2p kernelEnd).toNat / 4096 + 1 + if (pmmPlan map kernelEnd).bootstrap then 3 else 0 := by
  unfold pmmPlan
  rw [pageInitPlan_table _ (v2p_lt kernelEnd)]
  omega

private theorem HoldsItself.array (holds : HoldsItself map kernelEnd)
    {k : Nat} (below : k < (pmmPlan map kernelEnd).r.toNat) :
    markIndex (pmmPlan map kernelEnd).table k < (pmmPlan map kernelEnd).numpages.toNat := by
  obtain ⟨inside, small⟩ := holds
  rw [markIndex_of_lt (by omega)]
  omega

private theorem bootstrap_of_mmu {memory table mmu : Word}
    (member : mmu ∈ (pageInitPlan memory table).mmu) (nonzero : mmu ≠ 0) :
    (pageInitPlan memory table).bootstrap = true := by
  rw [pageInitPlan] at member ⊢
  split at member
  · rename_i past
    rw [if_pos past]
  · simp only [List.mem_cons, List.not_mem_nil, or_false, or_self] at member
    exact absurd member nonzero

private theorem HoldsItself.tables (holds : HoldsItself map kernelEnd) {mmu : Word}
    (member : mmu ∈ (pmmPlan map kernelEnd).mmu) (nonzero : mmu ≠ 0) :
    tableIndex mmu < (pmmPlan map kernelEnd).numpages.toNat := by
  obtain ⟨inside, _⟩ := holds
  have place := pmmPlan_table map kernelEnd
  have moved : (pmmPlan map kernelEnd).bootstrap = true := bootstrap_of_mmu member nonzero
  obtain ⟨k, few, address⟩ := pageInitPlan_mmu _ (v2p_lt kernelEnd) member nonzero
  rw [moved, if_pos rfl] at place
  unfold tableIndex
  rw [roundDown_div_page, address]
  omega

/-- A range that ends in the array does not leave it, although its last page is one further than
the page its end is in. -/
private theorem pageMarkRange_below {start stop : Word} {flags : BitVec 32} {count : Nat}
    (small : stop.toNat + 4096 < 2 ^ 64) (ends : stop.toNat / 4096 < count)
    (member : i ∈ pageMarkRangeIndices start stop flags) : i < count := by
  unfold pageMarkRangeIndices at member
  split at member
  · rw [markBounds_of_lt start stop small, List.mem_range'_1] at member
    simp only at member
    omega
  · cases member

private theorem HoldsItself.small (holds : HoldsItself map kernelEnd) :
    (highestAddr map).toNat + 4096 < 2 ^ 64 ∧
      (pmmPlan map kernelEnd).numpages.toNat = (highestAddr map).toNat / 4096 + 1 := by
  obtain ⟨inside, _⟩ := holds
  have place := pmmPlan_table map kernelEnd
  have room := (highestAddr map).isLt
  rw [pmmPlan_numpages] at inside ⊢
  omega

private theorem HoldsItself.entry (holds : HoldsItself map kernelEnd) {entry : MemoryMap}
    (member : i ∈ markEntryIndices (highestAddr map) entry) :
    i < (pmmPlan map kernelEnd).numpages.toNat := by
  obtain ⟨small, count⟩ := holds.small
  unfold markEntryIndices at member
  split at member
  · rename_i low
    have below : entry.stop.toNat ≤ (highestAddr map).toNat := low
    apply pageMarkRange_below _ _ member
    · omega
    · omega
  · cases member

private theorem HoldsItself.kernel (holds : HoldsItself map kernelEnd)
    (member : i ∈ pageMarkRangeIndices 0 (v2p kernelEnd) kernelFlags) :
    i < (pmmPlan map kernelEnd).numpages.toNat := by
  obtain ⟨inside, _⟩ := holds
  have place := pmmPlan_table map kernelEnd
  have low := v2p_lt kernelEnd
  apply pageMarkRange_below _ _ member
  · omega
  · omega

/-- The setup stays inside the page array exactly when the array's own pages do. -/
theorem pmmInit_indices_iff (map : List MemoryMap) (kernelEnd : Word) :
    (∀ i ∈ pmmInitIndices map kernelEnd, i < (pmmPlan map kernelEnd).numpages.toNat) ↔
      HoldsItself map kernelEnd := by
  constructor
  · intro below
    have place := pmmPlan_table map kernelEnd
    have low := v2p_lt kernelEnd
    have pages : (pmmPlan map kernelEnd).r.toNat =
        (pmmPlan map kernelEnd).numpages.toNat / 64 + 1 := pageInitPlan_r_eq _ _
    have count := pmmPlan_numpages map kernelEnd
    have array : ∀ k < (pmmPlan map kernelEnd).r.toNat,
        markIndex (pmmPlan map kernelEnd).table k < (pmmPlan map kernelEnd).numpages.toNat := by
      intro k inside
      apply below
      refine List.mem_append_left _ (List.mem_append_left _ (List.mem_append_right _ ?_))
      exact List.mem_map_of_mem (List.mem_range.mpr inside)
    have small : (pmmPlan map kernelEnd).table.toNat / 4096 + (pmmPlan map kernelEnd).r.toNat ≤
        2 ^ 31 := by
      by_contra large
      have turn := array (2 ^ 31 - (pmmPlan map kernelEnd).table.toNat / 4096) (by omega)
      rw [markIndex_negative (by split at place <;> omega)] at turn
      omega
    refine ⟨?_, small⟩
    have last := array ((pmmPlan map kernelEnd).r.toNat - 1) (by omega)
    rw [markIndex_of_lt (by omega)] at last
    omega
  · intro holds i member
    unfold pmmInitIndices pageInitIndices at member
    simp only [List.mem_append, List.mem_map, List.mem_filter, List.mem_range, List.mem_flatMap,
      decide_eq_true_eq] at member
    rcases member with (((initialised | table) | array) | entry) | kernel
    · exact initialised
    · obtain ⟨mmu, ⟨member, nonzero⟩, rfl⟩ := table
      exact holds.tables member nonzero
    · obtain ⟨k, below, rfl⟩ := array
      exact holds.array below
    · obtain ⟨entry, _, member⟩ := entry
      exact holds.entry member
    · exact holds.kernel kernel

/-- The usable entry at the end of the map is the one below 640 kilobytes. -/
def lowLastMap : List MemoryMap := [⟨0x100000, 0x7EE0000, 1⟩, ⟨0, 0x9FC00, 1⟩]

/-- A kernel that ends above one megabyte is then past the end of the array. -/
theorem kernel_past_array :
    0x110 ∈ pmmInitIndices lowLastMap 0xFFFFFFFF80110000 ∧
      (pmmPlan lowLastMap 0xFFFFFFFF80110000).numpages = 0xA0 := by
  refine ⟨List.mem_append_right _ ?_, by decide⟩
  decide

end Osdev64
