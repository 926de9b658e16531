/-
What `mmu_bootstrap` maps.

Nothing clears the three frames, and the call writes few of their words.  The
kernel's window is right as far as it is written.  Behind it the directory's old
words decide, and the identity map hangs on `PML4[0]`, which is not written: the
call sets the slot of the PDPT for the size instead.
-/

import Osdev64.MmuBootstrap
import Osdev64.MmuTranslate

namespace Osdev64

open Word64 Paging

/-- The hardware sends the address to this physical address. -/
def Translates (tables : Tables) (root : Frame) (virt target : Word) : Prop :=
  ∃ leaf, walk tables root virt = some leaf ∧ physical leaf virt = target

/-- The mapping `mmu_bootstrap` documents, and nothing else in the kernel's gigabyte. -/
structure BootstrapMap (machine : Kernel) (physical : Word) : Prop where
  identity : ∀ a : Word, a.toNat < physical.toNat → Translates machine.tables machine.root a a
  kernel : ∀ a : Word, a.toNat < physical.toNat →
    Translates machine.tables machine.root (kernelVirt + a) a
  beyond : ∀ a : Word, physical.toNat ≤ a.toNat → a.toNat < 2 ^ 30 →
    walk machine.tables machine.root (kernelVirt + a) = none

/-- An entry of a directory that maps nothing, in the tables after the call. -/
def Dead (tables : Tables) (entry : Word) : Prop :=
  present entry = false ∨
    large entry = false ∧ ∀ index, present (tables (frameOf entry) index) = false

/-- The entry maps this page to itself. -/
def SelfPage (entry : Word) (page : Nat) : Prop := present entry = true ∧ (frameOf entry).toNat = page

section OldWords

variable (old : Tables) (physical pml4 pdpt pd : Word)

/-- The frame, taken for a page table, will map the `m`-th two megabytes to themselves.  The words
written to the directory do so for page 0 only; the word written to the PDPT stands at two places; those
written to the PML4 do so if the PML4 and the PDPT lie where they point. -/
def SelfTable (table : Frame) (m : Nat) : Prop :=
  if table = frameOf pd then
    m = 0 ∧ physical.toNat = 0x200000 ∧ ∀ k : Index, k ≠ 0 → SelfPage (old table k) k.toNat
  else if table = frameOf pml4 then
    SelfPage (tableEntry pml4) (512 * m + mmuRe.toNat) ∧ SelfPage (tableEntry pdpt) (512 * m + 511) ∧
      ∀ k : Index, k ≠ mmuRe → k ≠ 0x1FF → SelfPage (old table k) (512 * m + k.toNat)
  else table ≠ frameOf pdpt ∧ ∀ k : Index, SelfPage (old table k) (512 * m + k.toNat)

/-- The entry will map the `m`-th two megabytes to themselves. -/
def SelfEntry (entry : Word) (m : Nat) : Prop :=
  present entry = true ∧
    if large entry then (frameOf entry).toNat / 512 = m
    else SelfTable old physical pml4 pdpt pd (frameOf entry) m

/-- The same for the entry of a frame that is taken for a directory, where the call may write. -/
def SelfRegion (directory : Frame) (m : Index) : Prop :=
  if directory = frameOf pml4 ∧ m = 0x1FF then SelfTable old physical pml4 pdpt pd (frameOf pdpt) m.toNat
  else if directory = frameOf pml4 ∧ m = mmuRe then
    SelfTable old physical pml4 pdpt pd (frameOf pml4) m.toNat
  else if directory = frameOf pdpt ∧ (m = pdpte physical ∨ m = 0x1FE) then
    SelfTable old physical pml4 pdpt pd (frameOf pd) m.toNat
  else SelfEntry old physical pml4 pdpt pd (old directory m) m.toNat

def SelfDirectory (directory : Frame) : Prop :=
  directory = frameOf pd ∨ ∀ m : Index, m.toNat * 0x200000 < physical.toNat →
    SelfRegion old physical pml4 pdpt pd directory m

/-- The frame, taken for the table below the PML4, will map the range to itself. -/
def SelfRange (table : Frame) : Prop :=
  table = frameOf pd ∨ table = frameOf pdpt ∧ physical.toNat < 2 ^ 30 ∨
    present (old table 0) = true ∧
      if large (old table 0) then (frameOf (old table 0)).toNat < 2 ^ 18
      else SelfDirectory old physical pml4 pdpt pd (frameOf (old table 0))

/-- An entry of the directory that maps nothing. -/
def Unused (entry : Word) : Prop :=
  present entry = false ∨
    large entry = false ∧ frameOf entry ∉ [pml4, pdpt, pd].map frameOf ∧
      ∀ index, present (old (frameOf entry) index) = false

/-- What the frames must hold before: `PML4[0]` leads to a table for the range, and the entries of the
directory that are not written map nothing. -/
structure OldEntries : Prop where
  identity : ∃ table, tableOf (old (frameOf pml4) 0) = some table ∧
    SelfRange old physical pml4 pdpt pd table
  beyond : ∀ index : Index, physical.toNat ≤ index.toNat * 0x200000 →
    Unused old pml4 pdpt pd (old (frameOf pd) index)

end OldWords

variable {tables old : Tables} {root frame : Frame} {address virt target : Word} {physical pml4 pdpt pd : Word}
  {machine : Kernel}

/-! ### Addresses -/

theorem translates_iff (offset : virt.toNat % 4096 = target.toNat % 4096) (small : target.toNat < 2 ^ 52) :
    Translates tables root virt target ↔
      ∃ leaf, walk tables root virt = some leaf ∧ leaf.frame = frameOf target := by
  refine exists_congr fun leaf => and_congr_right fun _ => ?_
  have bound := leaf.frame.isLt
  rw [← BitVec.toNat_inj, ← BitVec.toNat_inj, toNat_physical, frameOf_toNat]
  omega

theorem kernelVirt_add {a : Word} (small : a.toNat < 2 ^ 31) : kernelVirt + a = p2v a := by
  apply BitVec.eq_of_toNat_eq
  rw [p2v_toNat, BitVec.toNat_add]
  change (0xFFFFFFFF80000000 + a.toNat) % 2 ^ 64 = _
  omega

private theorem indexAt_three_low (low : address.toNat < 2 ^ 30) : indexAt 3 address = 0 := by
  apply BitVec.eq_of_toNat_eq
  rw [indexAt_toNat]
  change address.toNat / 2 ^ 39 % 512 = 0
  omega

private theorem canonical_low (low : address.toNat < 2 ^ 30) : canonical address = true :=
  canonical_iff.mpr (Or.inl (by omega))

/-! ### The kernel's window -/

theorem bootstrap_kernel (args : BootstrapArgs physical pml4 pdpt pd) (old : Tables) {a : Word}
    (inside : a.toNat < physical.toNat) :
    Translates (bootstrapTables old physical pml4 pdpt pd) (frameOf pml4) (kernelVirt + a) a := by
  have small := args.small
  rw [kernelVirt_add (by omega)]
  have value := p2v_toNat a
  exact (translates_iff (by omega) (by omega)).mpr (bootstrap_direct args old inside)

theorem walkFrom_two_eq_none_iff :
    walkFrom tables address 2 frame = none ↔
      present (tables frame (indexAt 1 address)) = false ∨
        large (tables frame (indexAt 1 address)) = false ∧
          present (tables (frameOf (tables frame (indexAt 1 address))) (indexAt 0 address)) = false := by
  cases isPresent : present (tables frame (indexAt 1 address)) with
  | false => simp [walkFrom, isPresent]
  | true =>
    cases isLarge : large (tables frame (indexAt 1 address)) with
    | false => simp [walkFrom, isPresent, isLarge]
    | true => simp [walkFrom, isPresent, isLarge]

private theorem walk_beyond_iff (args : BootstrapArgs physical pml4 pdpt pd) {a : Word}
    (low : a.toNat < 2 ^ 30) :
    walk (bootstrapTables old physical pml4 pdpt pd) (frameOf pml4) (kernelVirt + a) = none ↔
      walkFrom (bootstrapTables old physical pml4 pdpt pd) (p2v a) 2 (frameOf pd) = none := by
  rw [kernelVirt_add (by omega), walk, if_pos (p2v_canonical a)]
  exact walkFrom_pathTo (by decide)
    (bootstrap_pd args old (indexAt_p2v a) (Or.inr (indexAt_two_p2v low)))

private theorem directory_beyond (args : BootstrapArgs physical pml4 pdpt pd) {index : Index}
    (high : physical.toNat ≤ index.toNat * 0x200000) :
    bootstrapTables old physical pml4 pdpt pd (frameOf pd) index = old (frameOf pd) index := by
  rw [args.tables_pd, if_neg (by omega)]

theorem bootstrap_beyond_iff (args : BootstrapArgs physical pml4 pdpt pd) (old : Tables) :
    (∀ a : Word, physical.toNat ≤ a.toNat → a.toNat < 2 ^ 30 →
        walk (bootstrapTables old physical pml4 pdpt pd) (frameOf pml4) (kernelVirt + a) = none) ↔
      ∀ index : Index, physical.toNat ≤ index.toNat * 0x200000 →
        Dead (bootstrapTables old physical pml4 pdpt pd) (old (frameOf pd) index) := by
  have whole := args.whole
  constructor
  · intro beyond index high
    have bound := index.isLt
    -- the page `place` of the two megabytes
    have page : ∀ place : Index,
        present (old (frameOf pd) index) = false ∨
          large (old (frameOf pd) index) = false ∧
            present (bootstrapTables old physical pml4 pdpt pd (frameOf (old (frameOf pd) index)) place) =
              false := by
      intro place
      have placeBound := place.isLt
      let a : Word := BitVec.ofNat 64 (index.toNat * 0x200000 + place.toNat * 4096)
      have value : a.toNat = index.toNat * 0x200000 + place.toNat * 4096 := by
        rw [BitVec.toNat_ofNat]
        omega
      have low : a.toNat < 2 ^ 30 := by omega
      have first : indexAt 1 (p2v a) = index := by
        apply BitVec.eq_of_toNat_eq
        rw [indexAt_one_p2v low]
        omega
      have zeroth : indexAt 0 (p2v a) = place := by
        apply BitVec.eq_of_toNat_eq
        rw [indexAt_toNat, p2v_toNat]
        omega
      have ends := (walk_beyond_iff args low).mp (beyond a (by omega) low)
      rw [walkFrom_two_eq_none_iff, first, zeroth, directory_beyond args high] at ends
      exact ends
    rcases page 0 with absent | ⟨notLarge, _⟩
    · exact Or.inl absent
    · by_cases isPresent : present (old (frameOf pd) index) = true
      · refine Or.inr ⟨notLarge, fun place => ?_⟩
        rcases page place with absent | ⟨_, absent⟩
        · rw [isPresent] at absent
          cases absent
        · exact absent
      · exact Or.inl (Bool.not_eq_true _ ▸ isPresent)
  · intro dead a high low
    have first := indexAt_one_p2v low
    have behind : physical.toNat ≤ (indexAt 1 (p2v a)).toNat * 0x200000 := by
      rw [first]
      omega
    rw [walk_beyond_iff args low, walkFrom_two_eq_none_iff, directory_beyond args behind]
    rcases dead _ behind with absent | ⟨notLarge, absent⟩
    · exact Or.inl absent
    · exact Or.inr ⟨notLarge, absent _⟩

theorem bootstrapTables_other (outside : frame ∉ [pml4, pdpt, pd].map frameOf) (old : Tables) :
    bootstrapTables old physical pml4 pdpt pd frame = old frame := by
  simp only [List.map_cons, List.map_nil, List.mem_cons, List.not_mem_nil, or_false, not_or] at outside
  funext index
  simp only [bootstrapTables, outside, false_and, if_false]

private theorem tableEntry_facts (args : BootstrapArgs physical pml4 pdpt pd) {t : Word}
    (member : t ∈ [pml4, pdpt, pd]) :
    present (tableEntry t) = true ∧ large (tableEntry t) = false ∧ frameOf (tableEntry t) = frameOf t :=
  tableOf_eq_some_iff.mp (tableOf_tableEntry t (args.aligned t member))

theorem bootstrap_filled (args : BootstrapArgs physical pml4 pdpt pd) (old : Tables)
    (member : frame ∈ [pml4, pdpt, pd].map frameOf) :
    ∃ index, present (bootstrapTables old physical pml4 pdpt pd frame index) = true := by
  have positive := args.positive
  simp only [List.map_cons, List.map_nil, List.mem_cons, List.not_mem_nil, or_false] at member
  rcases member with rfl | rfl | rfl
  · refine ⟨0x1FF, ?_⟩
    rw [args.tables_pml4, if_pos rfl]
    exact (tableEntry_facts args (by simp)).1
  · refine ⟨0x1FE, ?_⟩
    rw [args.tables_pdpt, if_pos (Or.inr rfl)]
    exact (tableEntry_facts args (by simp)).1
  · exact ⟨0, (bootstrap_large args old (by change 0 * 0x200000 < _; omega)).1⟩

theorem dead_iff (args : BootstrapArgs physical pml4 pdpt pd) (old : Tables) (entry : Word) :
    Dead (bootstrapTables old physical pml4 pdpt pd) entry ↔ Unused old pml4 pdpt pd entry := by
  refine or_congr_right (and_congr_right fun _ => ?_)
  by_cases member : frameOf entry ∈ [pml4, pdpt, pd].map frameOf
  · refine iff_of_false (fun absent => ?_) fun unused => unused.1 member
    obtain ⟨index, isPresent⟩ := bootstrap_filled args old member
    rw [absent index] at isPresent
    cases isPresent
  · rw [bootstrapTables_other member, and_iff_right member]

/-! ### The identity map -/

/-- The walk from a table of a level ends at the address itself. -/
def FindsSelf (tables : Tables) (level : Nat) (frame : Frame) (a : Word) : Prop :=
  ∃ leaf, walkFrom tables a level frame = some leaf ∧ leaf.frame = frameOf a

theorem findsSelf_succ_iff {level : Nat} (low : level < 3) :
    FindsSelf tables (level + 1) frame address ↔
      present (tables frame (indexAt level address)) = true ∧
        if level ≠ 0 ∧ large (tables frame (indexAt level address)) = true then
          largeFrame level (tables frame (indexAt level address)) address = frameOf address
        else FindsSelf tables level (frameOf (tables frame (indexAt level address))) address := by
  unfold FindsSelf
  rw [walkFrom]
  generalize tables frame (indexAt level address) = entry
  cases isPresent : present entry with
  | false => simp
  | true =>
    have notTop : level ≠ 3 := by omega
    by_cases size : level ≠ 0 ∧ large entry = true
    · simp [size, notTop, Leaf.under]
    · have table : level = 0 ∨ large entry = false := by
        by_cases zero : level = 0
        · exact Or.inl zero
        · exact Or.inr (Bool.of_not_eq_true fun isLarge => size ⟨zero, isLarge⟩)
      simp [size, table, Leaf.under]

theorem findsSelf_page_iff :
    FindsSelf tables 1 frame address ↔
      SelfPage (tables frame (indexAt 0 address)) (frameOf address).toNat := by
  rw [findsSelf_succ_iff (by decide), if_neg fun size => size.1 rfl]
  refine and_congr_right fun _ => ?_
  rw [BitVec.toNat_inj]
  constructor
  · rintro ⟨leaf, found, same⟩
    obtain rfl := Option.some.inj found
    exact same
  · exact fun same => ⟨_, rfl, same⟩

private theorem page_address (m k : Index) : ∃ a : Word, a.toNat = m.toNat * 0x200000 + k.toNat * 4096 ∧
    indexAt 1 a = m ∧ indexAt 0 a = k ∧ (frameOf a).toNat = 512 * m.toNat + k.toNat := by
  have boundM := m.isLt
  have boundK := k.isLt
  have value : (BitVec.ofNat 64 (m.toNat * 0x200000 + k.toNat * 4096)).toNat =
      m.toNat * 0x200000 + k.toNat * 4096 := by
    rw [BitVec.toNat_ofNat]
    omega
  refine ⟨_, value, BitVec.eq_of_toNat_eq ?_, BitVec.eq_of_toNat_eq ?_, ?_⟩
  · rw [indexAt_toNat, value]
    omega
  · rw [indexAt_toNat, value]
    omega
  · rw [frameOf_toNat, value]
    omega

private theorem frame_of_low (low : address.toNat < 2 ^ 30) :
    (frameOf address).toNat = 512 * (indexAt 1 address).toNat + (indexAt 0 address).toNat := by
  rw [frameOf_toNat, indexAt_toNat, indexAt_toNat]
  omega

theorem findsSelf_directory_iff (args : BootstrapArgs physical pml4 pdpt pd) :
    (∀ a : Word, a.toNat < physical.toNat → FindsSelf tables 2 frame a) ↔
      ∀ m : Index, m.toNat * 0x200000 < physical.toNat →
        present (tables frame m) = true ∧
          if large (tables frame m) then (frameOf (tables frame m)).toNat / 512 = m.toNat
          else ∀ k : Index, SelfPage (tables (frameOf (tables frame m)) k) (512 * m.toNat + k.toNat) := by
  have whole := args.whole
  have small := args.small
  constructor
  · intro finds m inside
    have page (k : Index) : ∃ a : Word, FindsSelf tables 2 frame a ∧ indexAt 1 a = m ∧ indexAt 0 a = k ∧
        (frameOf a).toNat = 512 * m.toNat + k.toNat := by
      obtain ⟨a, value, first, zeroth, atFrame⟩ := page_address m k
      have bound := k.isLt
      exact ⟨a, finds a (by omega), first, zeroth, atFrame⟩
    obtain ⟨a, found, first, _, atFrame⟩ := page 0
    rw [findsSelf_succ_iff (by decide), first] at found
    refine ⟨found.1, ?_⟩
    by_cases isLarge : large (tables frame m) = true
    · rw [if_pos ⟨by decide, isLarge⟩] at found
      have same := congrArg BitVec.toNat found.2
      rw [largeFrame_toNat (by decide), atFrame] at same
      rw [if_pos isLarge]
      change _ = 512 * m.toNat + 0 at same
      omega
    · rw [if_neg isLarge]
      intro k
      obtain ⟨a, found, first, zeroth, atFrame⟩ := page k
      rw [findsSelf_succ_iff (by decide), first, if_neg fun size => isLarge size.2, findsSelf_page_iff,
        zeroth, atFrame] at found
      exact found.2
  · intro entries a inside
    have low : a.toNat < 2 ^ 30 := by omega
    have atFrame := frame_of_low low
    have region : (indexAt 1 a).toNat * 0x200000 < physical.toNat := by
      rw [indexAt_toNat]
      omega
    obtain ⟨isPresent, self⟩ := entries _ region
    rw [findsSelf_succ_iff (by decide)]
    refine ⟨isPresent, ?_⟩
    by_cases isLarge : large (tables frame (indexAt 1 a)) = true
    · rw [if_pos isLarge] at self
      rw [if_pos ⟨by decide, isLarge⟩]
      apply BitVec.eq_of_toNat_eq
      have bound := (indexAt 0 a).isLt
      rw [largeFrame_toNat (by decide), atFrame]
      omega
    · rw [if_neg isLarge] at self
      rw [if_neg fun size => isLarge size.2, findsSelf_page_iff, atFrame]
      exact self _

section After

variable (args : BootstrapArgs physical pml4 pdpt pd) (old : Tables)

include args

theorem selfTable_iff (table : Frame) {m : Nat} :
    (∀ k : Index, SelfPage (bootstrapTables old physical pml4 pdpt pd table k) (512 * m + k.toNat)) ↔
      SelfTable old physical pml4 pdpt pd table m := by
  have whole := args.whole
  have positive := args.positive
  unfold SelfTable
  by_cases isPd : table = frameOf pd
  · subst isPd
    rw [if_pos rfl]
    have written {k : Index} (below : k.toNat * 0x200000 < physical.toNat) :
        SelfPage (bootstrapTables old physical pml4 pdpt pd (frameOf pd) k) (512 * m + k.toNat) ↔
          k.toNat * 512 = 512 * m + k.toNat := by
      obtain ⟨isPresent, _, atFrame⟩ := largeEntry_facts k.isLt
      unfold SelfPage
      rw [args.tables_pd, if_pos below, atFrame, and_iff_right isPresent]
    constructor
    · intro pages
      have zero := (written (k := 0) (by change 0 * 0x200000 < _; omega)).mp (pages 0)
      have none' : (0 : Index).toNat = 0 := rfl
      rw [none', Nat.zero_mul] at zero
      have first : physical.toNat ≤ 0x200000 := by
        by_contra more
        have value : (1 : Index).toNat = 1 := by decide
        have one := (written (k := 1) (by rw [value]; omega)).mp (pages 1)
        rw [value] at one
        omega
      obtain rfl : m = 0 := by omega
      refine ⟨rfl, by omega, fun k other => ?_⟩
      have behind : ¬k.toNat * 0x200000 < physical.toNat := by
        have nonzero : k.toNat ≠ 0 := fun same => other (BitVec.eq_of_toNat_eq same)
        omega
      have page := pages k
      rwa [args.tables_pd, if_neg behind, Nat.mul_zero, Nat.zero_add] at page
    · rintro ⟨rfl, size, pages⟩ k
      by_cases zero : k = 0
      · subst zero
        exact (written (by change 0 * 0x200000 < _; omega)).mpr rfl
      · have behind : ¬k.toNat * 0x200000 < physical.toNat := by
          have nonzero : k.toNat ≠ 0 := fun same => zero (BitVec.eq_of_toNat_eq same)
          omega
        rw [args.tables_pd, if_neg behind, Nat.mul_zero, Nat.zero_add]
        exact pages k zero
  · rw [if_neg isPd]
    by_cases isPml4 : table = frameOf pml4
    · subst isPml4
      rw [if_pos rfl]
      constructor
      · intro pages
        have slot := pages mmuRe
        have top := pages 0x1FF
        rw [args.tables_pml4, if_neg (by decide), if_pos rfl] at slot
        rw [args.tables_pml4, if_pos rfl] at top
        refine ⟨slot, top, fun k notSlot notTop => ?_⟩
        have page := pages k
        rwa [args.tables_pml4, if_neg notTop, if_neg notSlot] at page
      · rintro ⟨slot, top, pages⟩ k
        rw [args.tables_pml4]
        split_ifs with isTop isSlot
        · subst isTop
          exact top
        · subst isSlot
          exact slot
        · exact pages k isSlot isTop
    · rw [if_neg isPml4]
      by_cases isPdpt : table = frameOf pdpt
      · subst isPdpt
        refine iff_of_false (fun pages => ?_) fun other => other.1 rfl
        have size := (pages (pdpte physical)).2
        have fixed := (pages 0x1FE).2
        rw [args.tables_pdpt, if_pos (Or.inl rfl)] at size
        rw [args.tables_pdpt, if_pos (Or.inr rfl)] at fixed
        refine args.pdpte_ne (BitVec.eq_of_toNat_eq ?_)
        omega
      · rw [and_iff_right isPdpt, bootstrapTables_other (by simp [isPd, isPml4, isPdpt])]

theorem selfEntry_iff (entry : Word) (m : Nat) :
    (present entry = true ∧
      if large entry then (frameOf entry).toNat / 512 = m
      else ∀ k : Index,
        SelfPage (bootstrapTables old physical pml4 pdpt pd (frameOf entry) k) (512 * m + k.toNat)) ↔
      SelfEntry old physical pml4 pdpt pd entry m := by
  unfold SelfEntry
  rw [selfTable_iff args old]

private theorem selfEntry_tableEntry_iff {t : Word} (member : t ∈ [pml4, pdpt, pd]) (m : Nat) :
    SelfEntry old physical pml4 pdpt pd (tableEntry t) m ↔
      SelfTable old physical pml4 pdpt pd (frameOf t) m := by
  obtain ⟨isPresent, notLarge, atFrame⟩ := tableEntry_facts args member
  unfold SelfEntry
  rw [notLarge, if_neg Bool.false_ne_true, atFrame, and_iff_right isPresent]

theorem selfRegion_iff {directory : Frame} (notPd : directory ≠ frameOf pd) (m : Index) :
    SelfEntry old physical pml4 pdpt pd (bootstrapTables old physical pml4 pdpt pd directory m) m.toNat ↔
      SelfRegion old physical pml4 pdpt pd directory m := by
  unfold SelfRegion bootstrapTables
  have outside : ¬(directory = frameOf pd ∧ m.toNat * 0x200000 < physical.toNat) := fun here => notPd here.1
  rw [if_neg outside]
  split_ifs
  · exact selfEntry_tableEntry_iff args old (by simp) _
  · exact selfEntry_tableEntry_iff args old (by simp) _
  · exact selfEntry_tableEntry_iff args old (by simp) _
  · exact Iff.rfl

theorem selfDirectory_iff (directory : Frame) :
    (∀ a : Word, a.toNat < physical.toNat →
        FindsSelf (bootstrapTables old physical pml4 pdpt pd) 2 directory a) ↔
      SelfDirectory old physical pml4 pdpt pd directory := by
  rw [findsSelf_directory_iff args]
  simp only [selfEntry_iff args old]
  unfold SelfDirectory
  by_cases isPd : directory = frameOf pd
  · subst isPd
    refine iff_of_true (fun m inside => ?_) (Or.inl rfl)
    obtain ⟨isPresent, isLarge, atFrame⟩ := largeEntry_facts m.isLt
    unfold SelfEntry
    rw [args.tables_pd, if_pos inside, isLarge, if_pos rfl, atFrame]
    exact ⟨isPresent, by omega⟩
  · rw [or_iff_right isPd]
    exact forall₂_congr fun m _ => selfRegion_iff args old isPd m

theorem selfRange_iff (table : Frame) :
    (∀ a : Word, a.toNat < physical.toNat →
        FindsSelf (bootstrapTables old physical pml4 pdpt pd) 3 table a) ↔
      SelfRange old physical pml4 pdpt pd table := by
  have small := args.small
  have positive := args.positive
  have slot {a : Word} (inside : a.toNat < physical.toNat) : indexAt 2 a = 0 := by
    apply BitVec.eq_of_toNat_eq
    rw [indexAt_toNat]
    change a.toNat / 2 ^ 30 % 512 = 0
    omega
  -- all of the range goes through the first entry of the table
  have unfolded : (∀ a : Word, a.toNat < physical.toNat →
        FindsSelf (bootstrapTables old physical pml4 pdpt pd) 3 table a) ↔
      present (bootstrapTables old physical pml4 pdpt pd table 0) = true ∧
        if large (bootstrapTables old physical pml4 pdpt pd table 0) then
          (frameOf (bootstrapTables old physical pml4 pdpt pd table 0)).toNat < 2 ^ 18
        else SelfDirectory old physical pml4 pdpt pd
          (frameOf (bootstrapTables old physical pml4 pdpt pd table 0)) := by
    generalize entry : bootstrapTables old physical pml4 pdpt pd table 0 = first
    have step {a : Word} (inside : a.toNat < physical.toNat) :
        FindsSelf (bootstrapTables old physical pml4 pdpt pd) 3 table a ↔ present first = true ∧
          if large first then (frameOf first).toNat < 2 ^ 18
          else FindsSelf (bootstrapTables old physical pml4 pdpt pd) 2 (frameOf first) a := by
      rw [findsSelf_succ_iff (by decide), slot inside, entry]
      refine and_congr_right fun _ => ?_
      by_cases isLarge : large first = true
      · have atFrame := frameOf_toNat a
        rw [if_pos ⟨by decide, isLarge⟩, if_pos isLarge, ← BitVec.toNat_inj, largeFrame_toNat (by decide)]
        omega
      · rw [if_neg fun size => isLarge size.2, if_neg isLarge]
    rw [← selfDirectory_iff args old]
    constructor
    · intro finds
      refine ⟨((step (a := 0) positive).mp (finds 0 positive)).1, ?_⟩
      by_cases isLarge : large first = true
      · have self := ((step (a := 0) positive).mp (finds 0 positive)).2
        rw [if_pos isLarge] at self ⊢
        exact self
      · rw [if_neg isLarge]
        intro a inside
        have self := ((step inside).mp (finds a inside)).2
        rwa [if_neg isLarge] at self
    · rintro ⟨isPresent, self⟩ a inside
      refine (step inside).mpr ⟨isPresent, ?_⟩
      by_cases isLarge : large first = true
      · rwa [if_pos isLarge] at self ⊢
      · rw [if_neg isLarge] at self ⊢
        exact self a inside
  rw [unfolded]
  unfold SelfRange
  by_cases isPd : table = frameOf pd
  · subst isPd
    have below : (0 : Index).toNat * 0x200000 < physical.toNat := by
      change 0 * 0x200000 < _
      omega
    obtain ⟨isPresent, isLarge, atFrame⟩ := largeEntry_facts (0 : Index).isLt
    refine iff_of_true ?_ (Or.inl rfl)
    rw [args.tables_pd, if_pos below, isLarge, if_pos rfl, atFrame]
    exact ⟨isPresent, by decide⟩
  · rw [or_iff_right isPd]
    by_cases shared : table = frameOf pdpt ∧ physical.toNat < 2 ^ 30
    · obtain ⟨rfl, low⟩ := shared
      have size : (0 : Index) = pdpte physical := by
        apply BitVec.eq_of_toNat_eq
        rw [pdpte_eq, indexAt_toNat]
        change 0 = physical.toNat / 2 ^ 30 % 512
        omega
      obtain ⟨isPresent, notLarge, atFrame⟩ := tableEntry_facts args (t := pd) (by simp)
      refine iff_of_true ?_ (Or.inl ⟨rfl, low⟩)
      rw [args.tables_pdpt, if_pos (Or.inl size), notLarge, if_neg Bool.false_ne_true, atFrame]
      exact ⟨isPresent, Or.inl rfl⟩
    · have kept : bootstrapTables old physical pml4 pdpt pd table 0 = old table 0 := by
        have notSize : ¬(table = frameOf pdpt ∧ (0 = pdpte physical ∨ (0 : Index) = 0x1FE)) := by
          rintro ⟨rfl, size | fixed⟩
          · have value := congrArg BitVec.toNat size
            rw [pdpte_eq, indexAt_toNat] at value
            change 0 = physical.toNat / 2 ^ 30 % 512 at value
            exact shared ⟨rfl, by omega⟩
          · exact absurd fixed (by decide)
        unfold bootstrapTables
        rw [if_neg fun here => absurd here.2 (by decide), if_neg fun here => absurd here.2 (by decide),
          if_neg notSize, if_neg fun here => isPd here.1]
      rw [kept, or_iff_right shared]

end After

theorem tableOf_of_walkFrom {leaf : Leaf} (found : walkFrom tables address 4 root = some leaf) :
    ∃ table, tableOf (tables root (indexAt 3 address)) = some table := by
  cases isPresent : present (tables root (indexAt 3 address)) with
  | false =>
    rw [walkFrom_absent 3 root isPresent] at found
    cases found
  | true =>
    cases isLarge : large (tables root (indexAt 3 address)) with
    | false => exact ⟨_, tableOf_eq_some_iff.mpr ⟨isPresent, isLarge, rfl⟩⟩
    | true =>
      rw [walkFrom] at found
      simp [isPresent, isLarge] at found

private theorem translates_low_iff (low : address.toNat < 2 ^ 30) {table : Frame}
    (leads : tableOf (tables root 0) = some table) :
    Translates tables root address address ↔ FindsSelf tables 3 table address := by
  have top := indexAt_three_low low
  rw [translates_iff rfl (by omega), walk, if_pos (canonical_low low),
    walkFrom_step 3 root table (by rw [top]; exact leads)]
  constructor
  · rintro ⟨leaf, found, atFrame⟩
    obtain ⟨below, foundBelow, rfl⟩ := Option.map_eq_some_iff.mp found
    exact ⟨below, foundBelow, atFrame⟩
  · rintro ⟨below, foundBelow, atFrame⟩
    exact ⟨_, Option.map_eq_some_iff.mpr ⟨below, foundBelow, rfl⟩, atFrame⟩

theorem bootstrap_slotZero (args : BootstrapArgs physical pml4 pdpt pd) (old : Tables) :
    bootstrapTables old physical pml4 pdpt pd (frameOf pml4) 0 = old (frameOf pml4) 0 := by
  rw [args.tables_pml4, if_neg (by decide), if_neg (by decide)]

theorem bootstrap_identity_iff (args : BootstrapArgs physical pml4 pdpt pd) (old : Tables) :
    (∀ a : Word, a.toNat < physical.toNat →
        Translates (bootstrapTables old physical pml4 pdpt pd) (frameOf pml4) a a) ↔
      ∃ table, tableOf (old (frameOf pml4) 0) = some table ∧ SelfRange old physical pml4 pdpt pd table := by
  have small := args.small
  have slot := bootstrap_slotZero args old
  simp only [← selfRange_iff args old]
  constructor
  · intro identity
    obtain ⟨leaf, found, _⟩ := identity 0 args.positive
    obtain ⟨table, leads⟩ := tableOf_of_walkFrom (show walkFrom _ 0 4 (frameOf pml4) = some leaf from found)
    rw [indexAt_three_low (by decide)] at leads
    refine ⟨table, by rw [← slot]; exact leads, ?_⟩
    intro a inside
    exact (translates_low_iff (by omega) leads).mp (identity a inside)
  · rintro ⟨table, leads, below⟩ a inside
    rw [← slot] at leads
    exact (translates_low_iff (by omega) leads).mpr (below a inside)

/-- `mmu_bootstrap` establishes its mapping exactly if the old words of the frames happen to. -/
theorem bootstrapMap_iff (site : BootstrapSite machine physical pml4 pdpt pd) :
    ∃ after, (mmuBootstrap physical pml4 pdpt pd).run machine = some ((), after) ∧
      (BootstrapMap after physical ↔ OldEntries machine.tables physical pml4 pdpt pd) := by
  refine ⟨_, site.run, ?_⟩
  have args := site.toBootstrapArgs
  constructor
  · intro map
    refine ⟨(bootstrap_identity_iff args _).mp map.identity, fun index high => ?_⟩
    exact (dead_iff args _ _).mp ((bootstrap_beyond_iff args _).mp map.beyond index high)
  · intro entries
    exact ⟨(bootstrap_identity_iff args _).mpr entries.identity,
      fun _ inside => bootstrap_kernel args _ inside,
      (bootstrap_beyond_iff args _).mpr fun index high => (dead_iff args _ _).mpr (entries.beyond index high)⟩

/-! ### On the boot tables -/

/-- Memory that is zero except for `PML4[0]` of the new tables. -/
def slotMemory (entry : Word) : Tables := fun frame index =>
  if frame = 0x200 ∧ index = 0 then entry else 0

/-- `boot.asm` has mapped this memory. -/
def slotKernel (entry : Word) : Kernel :=
  bootKernel (slotMemory entry) { frames := Frames.blank, pml4 := .null }

private theorem slotKernel_site (entry : Word) :
    BootstrapSite (slotKernel entry) 0x600000 0x200000 0x201000 0x202000 := by
  have places : ∀ t ∈ [0x200000, 0x201000, (0x202000 : Word)], t.toNat % 4096 = 0 ∧ t.toNat < 0x3F1000 := by
    simp only [List.forall_mem_cons, List.not_mem_nil, false_implies, implies_true, and_true]
    decide
  refine bootstrapSite_boot ⟨fun t member => (places t member).1, by decide, by decide, by decide, by decide⟩
    ?_ fun t member => (places t member).2
  intro index
  change (if (0x3F5 : Frame) = 0x200 ∧ index = 0 then entry else 0).extractLsb' 32 32 = 0
  rw [if_neg fun same => absurd same.1 (by decide)]
  decide

private theorem slotKernel_tables (entry : Word) {frame : Frame} (low : frame.toNat < 0x3F1)
    (index : Index) : (slotKernel entry).tables frame index = slotMemory entry frame index :=
  preplongmode_elsewhere _ index (Or.inl low)

/-- A word left in `PML4[0]` that leads to the PDPT gives the identity map. -/
theorem bootstrapMap_shared :
    ∃ after, (mmuBootstrap 0x600000 0x200000 0x201000 0x202000).run (slotKernel 0x201003) =
      some ((), after) ∧ BootstrapMap after 0x600000 := by
  have site := slotKernel_site 0x201003
  obtain ⟨after, ran, map⟩ := bootstrapMap_iff site
  have leads : tableOf ((slotKernel 0x201003).tables (frameOf 0x200000) 0) = some (frameOf 0x201000) := by
    rw [slotKernel_tables _ (by decide)]
    decide
  refine ⟨after, ran, map.mpr ⟨⟨_, leads, Or.inr (Or.inl ⟨rfl, by decide⟩)⟩, fun index _ => Or.inl ?_⟩⟩
  rw [slotKernel_tables _ (by decide)]
  change present (if frameOf 0x202000 = 0x200 ∧ index = 0 then _ else 0) = false
  rw [if_neg fun same => absurd same.1 (by decide)]
  decide

/-- On empty frames the call leaves address 0 without a translation. -/
theorem bootstrap_no_identity :
    ∃ after, (mmuBootstrap 0x600000 0x200000 0x201000 0x202000).run (slotKernel 0) = some ((), after) ∧
      walk after.tables after.root 0 = none := by
  have site := slotKernel_site 0
  have absent : present (bootstrapTables (slotKernel 0).tables 0x600000 0x200000 0x201000 0x202000
      (frameOf 0x200000) 0) = false := by
    rw [bootstrap_slotZero site.toBootstrapArgs, slotKernel_tables _ (by decide)]
    decide
  refine ⟨_, site.run, ?_⟩
  unfold walk
  rw [if_pos (by decide)]
  exact walkFrom_absent 3 _ absent

end Osdev64
