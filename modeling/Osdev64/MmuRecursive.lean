/-
The tables behind the recursive slot.

An entry of the PML4 that leads to the PML4 itself makes every walk through it one
level shorter: each time the address names the slot again, the table that is read
next plays a part one level up.  The addresses of `mmu_recursive` name the four
kinds of tables in this way.
-/

import Osdev64.MmuBoot

namespace Osdev64

open Word64 Paging

def WalksTo (tables : Tables) (root : Frame) (address : Word) (frame : Frame) : Prop :=
  ∃ leaf, walk tables root address = some leaf ∧ leaf.frame = frame

/-- The PML4 that CR3 names has the entry for itself that `mmu_init` makes, and no entry with the bit
that is reserved there. -/
structure SelfMapped (tables : Tables) (cr3 : Word) : Prop where
  slot : tables (frameOf cr3) mmuRe = tableEntry cr3
  reserved : ∀ index, large (tables (frameOf cr3) index) = false

/-- Each recursive address leads to the table it is meant for, as far as there is one. -/
structure NamesTables (tables : Tables) (root : Frame) (a b c : Index) : Prop where
  pml4 : WalksTo tables root (mmuRecursive mmuRe mmuRe mmuRe mmuRe) root
  pdpt : present (tables root a) = true →
    WalksTo tables root (mmuRecursive mmuRe mmuRe mmuRe a) (frameOf (tables root a))
  pd : ∀ pd, present (tables root a) = true → tableOf (tables (frameOf (tables root a)) b) = some pd →
    WalksTo tables root (mmuRecursive mmuRe mmuRe a b) pd
  pt : ∀ pd pt, present (tables root a) = true → tableOf (tables (frameOf (tables root a)) b) = some pd →
    tableOf (tables pd c) = some pt → WalksTo tables root (mmuRecursive mmuRe a b c) pt
  canonicals : canonical (mmuRecursive mmuRe mmuRe mmuRe mmuRe) = true ∧
    canonical (mmuRecursive mmuRe mmuRe mmuRe a) = true ∧
    canonical (mmuRecursive mmuRe mmuRe a b) = true ∧ canonical (mmuRecursive mmuRe a b c) = true

variable {tables : Tables} {root : Frame} {cr3 : Word}

/-- The slot leads back to the table it is in, also when CR3 has flags in its low bits. -/
theorem SelfMapped.loop (self : SelfMapped tables cr3) :
    tableOf (tables (frameOf cr3) mmuRe) = some (frameOf cr3) := by
  refine tableOf_eq_some_iff.mpr ⟨?_, self.reserved mmuRe, ?_⟩
  · rw [self.slot]
    unfold present tableEntry
    rw [BitVec.getLsbD_or]
    have set : (presentFlag ||| rw).getLsbD 0 = true := by decide
    rw [set, Bool.or_true]
  · rw [self.slot]
    unfold frameOf tableEntry
    have none : (presentFlag ||| rw).extractLsb' 12 40 = 0#40 := by decide
    rw [BitVec.extractLsb'_or, none, BitVec.or_zero]

/-- The recursive addresses name the tables of every level. -/
theorem namesTables_of_selfMapped (tables : Tables) (cr3 : Word) (self : SelfMapped tables cr3)
    (a b c : Index) : NamesTables tables (frameOf cr3) a b c := by
  have loop := self.loop
  obtain ⟨slotPresent, _, slotFrame⟩ := tableOf_eq_some_iff.mp loop
  -- the PML4 as the table of each level
  have first : tableAt tables (frameOf cr3) [mmuRe] = some (frameOf cr3) :=
    tableAt_cons_eq_some_iff.mpr ⟨_, rfl, loop⟩
  have second : tableAt tables (frameOf cr3) [mmuRe, mmuRe] = some (frameOf cr3) :=
    tableAt_cons_eq_some_iff.mpr ⟨_, first, loop⟩
  have third : tableAt tables (frameOf cr3) [mmuRe, mmuRe, mmuRe] = some (frameOf cr3) :=
    tableAt_cons_eq_some_iff.mpr ⟨_, second, loop⟩
  have below (isPresent : present (tables (frameOf cr3) a) = true) :
      tableOf (tables (frameOf cr3) a) = some (frameOf (tables (frameOf cr3) a)) :=
    tableOf_eq_some_iff.mpr ⟨isPresent, self.reserved a, rfl⟩
  refine ⟨?_, ?_, ?_, ?_, ?_⟩
  · have found := walk_recursive third slotPresent
    rw [slotFrame] at found
    exact found
  · exact walk_recursive third
  · intro pd isPresent leads
    obtain ⟨entryPresent, _, rfl⟩ := tableOf_eq_some_iff.mp leads
    refine walk_recursive ?_ entryPresent
    exact tableAt_cons_eq_some_iff.mpr ⟨_, second, below isPresent⟩
  · intro pd pt isPresent leads leads'
    obtain ⟨entryPresent, _, rfl⟩ := tableOf_eq_some_iff.mp leads'
    refine walk_recursive ?_ entryPresent
    have pdpt : tableAt tables (frameOf cr3) [a, mmuRe] = some (frameOf (tables (frameOf cr3) a)) :=
      tableAt_cons_eq_some_iff.mpr ⟨_, first, below isPresent⟩
    exact tableAt_cons_eq_some_iff.mpr ⟨_, pdpt, leads⟩
  · exact ⟨(indices_mmuRecursive _ _ _).1, (indices_mmuRecursive _ _ _).1, (indices_mmuRecursive _ _ _).1,
      (indices_mmuRecursive _ _ _).1⟩

/-- `mmu_init` makes the slot; the size bit of CR3 itself is clear where the PML4 is page aligned. -/
theorem initialised_selfMapped {machine : Kernel} (aligned : machine.cr3.toNat % 4096 = 0)
    (reserved : ∀ index, large (machine.tables machine.root index) = false) :
    SelfMapped (initialised machine).tables (initialised machine).cr3 := by
  refine ⟨setEntry_same, ?_⟩
  intro index
  by_cases slot : index = mmuRe
  · subst slot
    change large (setEntry machine.tables machine.root mmuRe (tableEntry machine.cr3) machine.root mmuRe) = false
    rw [setEntry_same]
    exact (tableOf_eq_some_iff.mp (tableOf_tableEntry machine.cr3 aligned)).2.1
  · change large (setEntry machine.tables machine.root mmuRe (tableEntry machine.cr3) machine.root index) = false
    rw [setEntry_of_ne fun same => slot same.2]
    exact reserved index

/-- A PML4 at 0x1000, and behind its entry 1 a PDPT, a PD and a PT in the frames that follow. -/
def fourTables : Tables := fun frame index =>
  if index = mmuRe then (if frame = 1 then 0x1003 else 0)
  else if index = 1 then (if frame = 1 then 0x2003 else if frame = 2 then 0x3003 else 0x4003)
  else 0

theorem fourTables_selfMapped : SelfMapped fourTables 0x1000 := by
  refine ⟨by decide, ?_⟩
  intro index
  unfold fourTables
  split_ifs <;> decide

theorem fourTables_named :
    SelfMapped fourTables 0x1000 ∧ WalksTo fourTables (frameOf 0x1000) (mmuRecursive mmuRe 1 1 1) 4 :=
  ⟨fourTables_selfMapped, (namesTables_of_selfMapped fourTables 0x1000 fourTables_selfMapped 1 1 1).pt 3 4
    (by decide) (by decide) (by decide)⟩

end Osdev64
