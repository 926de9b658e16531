/-
`mmu_virt_to_phys`, which walks the tables in software.

The code reads each table at its recursive address, so that every read is itself
a walk of the hardware through slot `MMU_RE`.  It finds the entry where the
hardware's walk ends, and returns that entry as it is: with its flags, without
the offset in the page, and at the last level without a look at the present bit.
-/

import Osdev64.FrameRuns
import Osdev64.Mmu

namespace Osdev64

open Word64 Paging

/-- The value returned, and what is stored to `*err`. -/
def mmuVirtToPhys (virt : Word) : Prog KernelData (Word × Nat) := do
  let pml4 := plainPointer (mmuRecursive mmuRe mmuRe mmuRe mmuRe)
  let entry ← Prog.read pml4 (pml4e virt)
  if entry &&& presentFlag = 0 then pure (0, 4)
  else do
    let pml3 := plainPointer (mmuRecursive mmuRe mmuRe mmuRe (pml4e virt))
    let entry ← Prog.read pml3 (pdpte virt)
    if entry &&& presentFlag = 0 then pure (0, 3)
    else if entry &&& ps ≠ 0 then pure (entry, 0)
    else do
      let pml2 := plainPointer (mmuRecursive mmuRe mmuRe (pml4e virt) (pdpte virt))
      let entry ← Prog.read pml2 (pde virt)
      if entry &&& presentFlag = 0 then pure (0, 2)
      else if entry &&& ps ≠ 0 then pure (entry, 0)
      else do
        let pml1 := plainPointer (mmuRecursive mmuRe (pml4e virt) (pdpte virt) (pde virt))
        let entry ← Prog.read pml1 (pte virt)
        pure (entry, 0)

/-! ### Where a walk ends -/

/-- The first entry of the walk that is not present or maps a page, with its level. -/
def walkEnd (tables : Tables) (virt : Word) : Nat → Frame → Nat × Word
  | 0, _ => (0, 0)
  | level + 1, frame =>
    let entry := tables frame (indexAt level virt)
    if present entry = false ∨ level = 0 ∨ large entry = true then (level + 1, entry)
    else walkEnd tables virt level (frameOf entry)

/-- The physical address behind a frame of the walk. -/
def physical (leaf : Leaf) (virt : Word) : Word :=
  leaf.frame.setWidth 64 <<< 12 ||| (virt &&& 0xFFF)

/-- What the hardware's walk says: the physical address, or the level of the first entry that
is not present. -/
def hardwareTranslation (tables : Tables) (root : Frame) (virt : Word) : Word × Nat :=
  match walk tables root virt with
  | some leaf => (physical leaf virt, 0)
  | none => (0, (walkEnd tables virt 4 root).1)

/-- The bits of an address within a page of this level. -/
def pageBits (level : Nat) : Nat := 12 + 9 * (level - 1)

/-- The entry where the walk ends serves as it is: it is missing above the page tables, or its
low bits are those of the address and its bits from 52 on are clear. -/
def EntryIsAnswer (tables : Tables) (root : Frame) (virt : Word) : Prop :=
  let last := walkEnd tables virt 4 root
  (present last.2 = false ∧ last.1 ≠ 1) ∨
    (present last.2 = true ∧
      last.2.toNat % 2 ^ pageBits last.1 = virt.toNat % 2 ^ pageBits last.1 ∧
      last.2.toNat < 2 ^ 52)

variable {machine : Machine KernelData}

theorem run_read_andThen {α : Type} {pointer : Pointer} {frame : Frame}
    (reaches : machine.Reaches pointer frame) (index : Index) (rest : Word → Prog KernelData α) :
    (Prog.read pointer index >>= rest).run machine = (rest (machine.tables frame index)).run machine := by
  rw [Prog.run_andThen]
  simp only [Prog.read, Prog.run, reaches.locate index, Option.bind_some]

/-! ### The code finds the end of the walk -/

/-- What the code makes of the entry where the walk ends. -/
def answer (last : Nat × Word) : Word × Nat :=
  if last.1 ≠ 1 ∧ present last.2 = false then (0, last.1) else (last.2, 0)

theorem and_presentFlag_eq_zero (entry : Word) : entry &&& presentFlag = 0 ↔ present entry = false := by
  have flag := and_presentFlag entry
  rw [← Bool.not_eq_true, ← flag, not_not]

theorem walkEnd_stop {tables : Tables} {virt : Word} {level : Nat} {frame : Frame}
    (stop : present (tables frame (indexAt level virt)) = false ∨ level = 0 ∨
      large (tables frame (indexAt level virt)) = true) :
    walkEnd tables virt (level + 1) frame = (level + 1, tables frame (indexAt level virt)) := by
  rw [walkEnd, if_pos stop]

theorem walkEnd_next {tables : Tables} {virt : Word} {level : Nat} {frame next : Frame}
    (leads : tableOf (tables frame (indexAt level virt)) = some next) (above : level ≠ 0) :
    walkEnd tables virt (level + 1) frame = walkEnd tables virt level next := by
  obtain ⟨isPresent, notLarge, target⟩ := tableOf_eq_some_iff.1 leads
  rw [walkEnd, if_neg (by simp [isPresent, notLarge, above]), target]

theorem answer_absent {level : Nat} {entry : Word} (absent : present entry = false)
    (above : level ≠ 1) : answer (level, entry) = (0, level) := by
  rw [answer, if_pos ⟨above, absent⟩]

theorem answer_present {level : Nat} {entry : Word} (isPresent : present entry = true) :
    answer (level, entry) = (entry, 0) := by
  rw [answer, if_neg (by simp [isPresent])]

theorem level_run {pointer : Pointer} {frame : Frame} (reaches : machine.Reaches pointer frame)
    {virt : Word} {level : Nat} (above : level ≠ 0) {rest : Prog KernelData (Word × Nat)}
    (deeper : ∀ next, tableOf (machine.tables frame (indexAt level virt)) = some next →
      rest.run machine = some (answer (walkEnd machine.tables virt level next), machine)) :
    (Prog.read pointer (indexAt level virt) >>= fun entry =>
        if entry &&& presentFlag = 0 then pure (0, level + 1)
        else if entry &&& ps ≠ 0 then pure (entry, 0)
        else rest).run machine =
      some (answer (walkEnd machine.tables virt (level + 1) frame), machine) := by
  rw [run_read_andThen reaches]
  cases isPresent : present (machine.tables frame (indexAt level virt)) with
  | false =>
    rw [if_pos ((and_presentFlag_eq_zero _).2 isPresent), walkEnd_stop (Or.inl isPresent),
      answer_absent isPresent (by omega)]
    rfl
  | true =>
    rw [if_neg (by rw [and_presentFlag_eq_zero, isPresent]; decide)]
    cases isLarge : large (machine.tables frame (indexAt level virt)) with
    | true =>
      rw [if_pos ((and_ps _).2 isLarge), walkEnd_stop (Or.inr (Or.inr isLarge)),
        answer_present isPresent]
      rfl
    | false =>
      have leads := tableOf_eq_some_iff.2 ⟨isPresent, isLarge, rfl⟩
      rw [if_neg (by rw [and_ps, isLarge]; decide), deeper _ leads, walkEnd_next leads above]

theorem mmuVirtToPhys_run (recursive : tableOf (machine.tables machine.root mmuRe) = some machine.root)
    (plain : ∀ index, large (machine.tables machine.root index) = false) (virt : Word) :
    (mmuVirtToPhys virt).run machine =
      some (answer (walkEnd machine.tables virt 4 machine.root), machine) := by
  obtain ⟨recursivePresent, -, recursiveTarget⟩ := tableOf_eq_some_iff.1 recursive
  have once : tableAt machine.tables machine.root [mmuRe] = some machine.root := by
    simp [tableAt, recursive]
  have twice : tableAt machine.tables machine.root [mmuRe, mmuRe] = some machine.root :=
    tableAt_cons_eq_some_iff.2 ⟨_, once, recursive⟩
  have thrice : tableAt machine.tables machine.root [mmuRe, mmuRe, mmuRe] = some machine.root :=
    tableAt_cons_eq_some_iff.2 ⟨_, twice, recursive⟩
  have pml4 := reaches_recursive thrice recursivePresent
  rw [recursiveTarget] at pml4
  unfold mmuVirtToPhys
  rw [pml4e_eq, pdpte_eq, pde_eq, pte_eq, run_read_andThen pml4]
  cases isPresent : present (machine.tables machine.root (indexAt 3 virt)) with
  | false =>
    rw [if_pos ((and_presentFlag_eq_zero _).2 isPresent), walkEnd_stop (Or.inl isPresent),
      answer_absent isPresent (by decide)]
    rfl
  | true =>
    have to3 := tableOf_eq_some_iff.2 ⟨isPresent, plain _, rfl⟩
    rw [if_neg (by rw [and_presentFlag_eq_zero, isPresent]; decide), walkEnd_next to3 (by decide)]
    -- Each table is one turn through the recursive slot nearer than the one before it.
    apply level_run (reaches_recursive thrice isPresent) (by decide)
    intro table2 to2
    have at3 := tableAt_cons_eq_some_iff.2 ⟨_, twice, to3⟩
    obtain ⟨present2, -, target2⟩ := tableOf_eq_some_iff.1 to2
    rw [← target2]
    apply level_run (reaches_recursive at3 present2) (by decide)
    intro table1 to1
    have near3 := tableAt_cons_eq_some_iff.2 ⟨_, once, to3⟩
    have at2 := tableAt_cons_eq_some_iff.2 ⟨_, near3, to2⟩
    rw [target2] at to1
    obtain ⟨present1, -, target1⟩ := tableOf_eq_some_iff.1 to1
    have pml1 := reaches_recursive at2 present1
    rw [target1] at pml1
    rw [run_read_andThen pml1, walkEnd_stop (Or.inr (Or.inl rfl)), answer, if_neg (by simp)]
    rfl

/-! ### The hardware's walk ends there too -/

theorem largeFrame_zero (entry address : Word) : largeFrame 0 entry address = frameOf entry := by
  apply BitVec.eq_of_toNat_eq
  rw [largeFrame_toNat (by decide)]
  omega

/-- What the walk from a table of this level makes of the entry where it ends. -/
structure EndsWith (tables : Tables) (virt : Word) (level : Nat) (frame : Frame) : Prop where
  low : (walkEnd tables virt level frame).1 ≤ level
  positive : 0 < (walkEnd tables virt level frame).1
  absent : present (walkEnd tables virt level frame).2 = false →
    walkFrom tables virt level frame = none
  page : present (walkEnd tables virt level frame).2 = true →
    (walkEnd tables virt level frame).1 ≤ 3 ∧
      ∃ leaf, walkFrom tables virt level frame = some leaf ∧
        leaf.frame = largeFrame ((walkEnd tables virt level frame).1 - 1)
          (walkEnd tables virt level frame).2 virt

theorem endsWith_absent {tables : Tables} {virt : Word} {level : Nat} {frame : Frame}
    (absent : present (tables frame (indexAt level virt)) = false) :
    EndsWith tables virt (level + 1) frame where
  low := by rw [walkEnd_stop (Or.inl absent)]
  positive := by rw [walkEnd_stop (Or.inl absent)]; exact Nat.succ_pos level
  absent _ := walkFrom_absent level frame absent
  page isPresent := by
    rw [walkEnd_stop (Or.inl absent), absent] at isPresent
    cases isPresent

theorem EndsWith.up {tables : Tables} {virt : Word} {level : Nat} {frame next : Frame}
    (below : EndsWith tables virt level next) (above : level ≠ 0)
    (leads : tableOf (tables frame (indexAt level virt)) = some next) :
    EndsWith tables virt (level + 1) frame := by
  have same := walkEnd_next leads above
  constructor
  · rw [same]
    exact Nat.le_succ_of_le below.low
  · rw [same]
    exact below.positive
  · intro absent
    rw [same] at absent
    rw [walkFrom_step level frame next leads, below.absent absent, Option.map_none]
  · intro isPresent
    rw [same] at isPresent ⊢
    obtain ⟨low, leaf, found, atFrame⟩ := below.page isPresent
    rw [walkFrom_step level frame next leads, found]
    exact ⟨low, _, rfl, atFrame⟩

theorem endsWith_page {tables : Tables} {virt : Word} {level : Nat} {frame : Frame} (low : level < 3)
    (isPresent : present (tables frame (indexAt level virt)) = true)
    (stop : level = 0 ∨ large (tables frame (indexAt level virt)) = true) :
    EndsWith tables virt (level + 1) frame := by
  have same := walkEnd_stop (Or.inr stop)
  constructor
  · rw [same]
  · rw [same]
    exact Nat.succ_pos level
  · intro absent
    rw [same, isPresent] at absent
    cases absent
  · intro _
    rw [same]
    refine ⟨low, ?_⟩
    cases level with
    | zero =>
      refine ⟨_, by simp only [walkFrom, isPresent]; rfl, ?_⟩
      rw [Nat.add_sub_cancel, largeFrame_zero]
      rfl
    | succ level =>
      have isLarge := stop.resolve_left (Nat.succ_ne_zero level)
      have notTop : level + 1 ≠ 3 := by omega
      let entry := tables frame (indexAt (level + 1) virt)
      refine ⟨Leaf.under entry ⟨largeFrame (level + 1) entry virt, true, true⟩, ?_, rfl⟩
      rw [walkFrom]
      simp [entry, isPresent, isLarge, notTop]

theorem endsWith_below (tables : Tables) (virt : Word) {level : Nat} (low : level < 3) (frame : Frame) :
    EndsWith tables virt (level + 1) frame := by
  induction level generalizing frame with
  | zero =>
    cases isPresent : present (tables frame (indexAt 0 virt)) with
    | false => exact endsWith_absent isPresent
    | true => exact endsWith_page low isPresent (Or.inl rfl)
  | succ level ih =>
    cases isPresent : present (tables frame (indexAt (level + 1) virt)) with
    | false => exact endsWith_absent isPresent
    | true =>
      cases isLarge : large (tables frame (indexAt (level + 1) virt)) with
      | true => exact endsWith_page low isPresent (Or.inr isLarge)
      | false =>
        exact (ih (by omega) _).up (Nat.succ_ne_zero level)
          (tableOf_eq_some_iff.2 ⟨isPresent, isLarge, rfl⟩)

theorem endsWith_root {tables : Tables} {root : Frame} (plain : ∀ index, large (tables root index) = false)
    (virt : Word) : EndsWith tables virt 4 root := by
  cases isPresent : present (tables root (indexAt 3 virt)) with
  | false => exact endsWith_absent isPresent
  | true =>
    exact (endsWith_below tables virt (by decide) _).up (by decide)
      (tableOf_eq_some_iff.2 ⟨isPresent, plain _, rfl⟩)

theorem toNat_physical (leaf : Leaf) (virt : Word) :
    (physical leaf virt).toNat = leaf.frame.toNat * 4096 + virt.toNat % 4096 := by
  have small := leaf.frame.isLt
  have high : (leaf.frame.setWidth 64 <<< 12 : Word).toNat = leaf.frame.toNat * 4096 := by
    rw [BitVec.toNat_shiftLeft, BitVec.toNat_setWidth, Nat.shiftLeft_eq]
    omega
  have low : (virt &&& 0xFFF).toNat = virt.toNat % 4096 := by
    rw [BitVec.toNat_and]
    exact Nat.and_two_pow_sub_one_eq_mod virt.toNat 12
  rw [physical, toNat_or_of_lt 12 (by rw [high]; omega) (by rw [low]; omega), high, low]

/-- A page's entry is the physical address exactly if the bits it has beside the page's frame are
those of the address. -/
theorem eq_physical_iff {level : Nat} (low : level < 3) {leaf : Leaf} {entry virt : Word}
    (atFrame : leaf.frame = largeFrame level entry virt) :
    entry = physical leaf virt ↔
      entry.toNat % 2 ^ (12 + 9 * level) = virt.toNat % 2 ^ (12 + 9 * level) ∧
        entry.toNat < 2 ^ 52 := by
  have entryBound := entry.isLt
  have virtBound := virt.isLt
  rw [← BitVec.toNat_inj, toNat_physical, atFrame, largeFrame_toNat low, frameOf_toNat, frameOf_toNat]
  have cases : level = 0 ∨ level = 1 ∨ level = 2 := by omega
  rcases cases with rfl | rfl | rfl
  all_goals
    simp only [Nat.mul_zero, Nat.mul_one, Nat.add_zero, Nat.reduceMul, Nat.reduceAdd, Nat.reducePow]
    omega

/-- The code returns the hardware's translation exactly where the entry at the end of the walk
already is the answer. -/
theorem mmuVirtToPhys_iff
    (recursive : tableOf (machine.tables machine.root mmuRe) = some machine.root)
    (plain : ∀ index, large (machine.tables machine.root index) = false) (virt : Word)
    (isCanonical : canonical virt = true) :
    (mmuVirtToPhys virt).run machine =
        some (hardwareTranslation machine.tables machine.root virt, machine) ↔
      EntryIsAnswer machine.tables machine.root virt := by
  have ends := endsWith_root plain virt
  have onHardware : walk machine.tables machine.root virt =
      walkFrom machine.tables virt 4 machine.root := by rw [walk, if_pos isCanonical]
  rw [mmuVirtToPhys_run recursive plain, Option.some_inj, Prod.mk.injEq, and_iff_left rfl,
    hardwareTranslation, EntryIsAnswer, onHardware]
  cases isPresent : present (walkEnd machine.tables virt 4 machine.root).2 with
  | false =>
    rw [ends.absent isPresent, answer, isPresent]
    by_cases last : (walkEnd machine.tables virt 4 machine.root).1 = 1
    · simp [last]
    · simp [last]
  | true =>
    obtain ⟨low, leaf, found, atFrame⟩ := ends.page isPresent
    have positive := ends.positive
    have inPage := eq_physical_iff (by omega) atFrame
    rw [found, answer, isPresent]
    simpa [pageBits] using inPage

/-! ### One page -/

/-- One path from the root to a page table with this entry, and the recursive slot. -/
def chain (entry : Word) : Tables := fun frame index =>
  if frame = 1 ∧ index = mmuRe then 0x1003
  else if index ≠ 0 then 0
  else if frame = 1 then 0x2003
  else if frame = 2 then 0x3003
  else if frame = 3 then 0x4003
  else if frame = 4 then entry
  else 0

def chainKernel (entry : Word) : Machine KernelData where
  tables := chain entry
  cr3 := 0x1000
  data := { frames := Frames.blank, pml4 := .null }

theorem chainKernel_root (entry : Word) : (chainKernel entry).root = 1 := by
  change frameOf 0x1000 = 1
  decide

theorem chainKernel_top (entry : Word) (index : Index) :
    (chainKernel entry).tables (chainKernel entry).root index =
      if index = mmuRe then 0x1003 else if index ≠ 0 then 0 else 0x2003 := by
  rw [chainKernel_root]
  simp [chainKernel, chain]

theorem chainKernel_recursive (entry : Word) :
    tableOf ((chainKernel entry).tables (chainKernel entry).root mmuRe) =
      some (chainKernel entry).root := by
  rw [chainKernel_top, chainKernel_root, if_pos rfl]
  decide

theorem chainKernel_plain (entry : Word) (index : Index) :
    large ((chainKernel entry).tables (chainKernel entry).root index) = false := by
  rw [chainKernel_top]
  split_ifs
  · decide
  · decide
  · decide

/-- The page's address comes back with its flags, and a missing page without an error. -/
theorem virtToPhys_returns_entry :
    (((mmuVirtToPhys 0).run (chainKernel 0x5003)).map Prod.fst = some (0x5003, 0) ∧
      hardwareTranslation (chainKernel 0x5003).tables (chainKernel 0x5003).root 0 = (0x5000, 0)) ∧
    (((mmuVirtToPhys 0).run (chainKernel 0)).map Prod.fst = some (0, 0) ∧
      hardwareTranslation (chainKernel 0).tables (chainKernel 0).root 0 = (0, 1)) := by
  rw [mmuVirtToPhys_run (chainKernel_recursive _) (chainKernel_plain _),
    mmuVirtToPhys_run (chainKernel_recursive _) (chainKernel_plain _)]
  decide

theorem virtToPhys_where_flags_are_offset :
    EntryIsAnswer (chainKernel 0x5003).tables (chainKernel 0x5003).root 3 ∧
      (mmuVirtToPhys 3).run (chainKernel 0x5003) =
        some (hardwareTranslation (chainKernel 0x5003).tables (chainKernel 0x5003).root 3,
          chainKernel 0x5003) := by
  have serves : EntryIsAnswer (chainKernel 0x5003).tables (chainKernel 0x5003).root 3 := by
    unfold EntryIsAnswer
    decide
  exact ⟨serves, (mmuVirtToPhys_iff (chainKernel_recursive _) (chainKernel_plain _) 3 (by decide)).2 serves⟩

end Osdev64
