/-
The page tables `page_init` installs when the page array passes four megabytes.

`mmu_bootstrap` writes a PML4, a PDPT and a page directory of two-megabyte pages
through the identity map of `boot.asm`, then loads CR3.  The new tables have the
direct map of the first `physical` bytes, and no identity map.
-/

import Osdev64.MmuBoot

namespace Osdev64

open Word64 Paging

/-- The entry for a two-megabyte page. -/
def largeEntry (i : Word) : Word := i ||| (presentFlag ||| rw ||| ps)

/-- Three different empty frames below the boot tables, and at most one gigabyte to map. -/
structure BootstrapRoom (memory : Tables) (physical pml4 pdpt pd : Word) : Prop where
  clean : CleanPt2 memory
  placed : ∀ t ∈ [pml4, pdpt, pd], t.toNat % 4096 = 0 ∧ t.toNat < 0x3F1000
  blank : ∀ t ∈ [pml4, pdpt, pd], ∀ place, present (memory (frameOf t) place) = false
  distinct : [pml4, pdpt, pd].Nodup
  whole : physical.toNat % 0x200000 = 0
  enough : 0x400000 ≤ physical.toNat
  small : physical.toNat ≤ 2 ^ 30

/-- Three different frames, and whole two-megabyte pages to map, at most one gigabyte. -/
structure BootstrapArgs (physical pml4 pdpt pd : Word) : Prop where
  aligned : ∀ t ∈ [pml4, pdpt, pd], t.toNat % 4096 = 0
  apart : ([pml4, pdpt, pd].map frameOf).Nodup
  whole : physical.toNat % 0x200000 = 0
  positive : 0 < physical.toNat
  small : physical.toNat ≤ 2 ^ 30

/-- The three frames are mapped at their own addresses, whatever they hold. -/
structure BootstrapSite (machine : Kernel) (physical pml4 pdpt pd : Word) : Prop
    extends BootstrapArgs physical pml4 pdpt pd where
  accessible : ∀ tables : Tables,
    (∀ frame ∉ [pml4, pdpt, pd].map frameOf, tables frame = machine.tables frame) →
      ∀ t ∈ [pml4, pdpt, pd],
        ({ machine with tables := tables } : Kernel).Reaches (plainPointer t) (frameOf t)

/-- The words `mmu_bootstrap` leaves. -/
def bootstrapTables (old : Tables) (physical pml4 pdpt pd : Word) : Tables := fun frame index =>
  if frame = frameOf pml4 ∧ index = 0x1FF then tableEntry pdpt
  else if frame = frameOf pml4 ∧ index = mmuRe then tableEntry pml4
  else if frame = frameOf pdpt ∧ (index = pdpte physical ∨ index = 0x1FE) then tableEntry pd
  else if frame = frameOf pd ∧ index.toNat * 0x200000 < physical.toNat then
    largeEntry (BitVec.ofNat 64 (index.toNat * 0x200000))
  else old frame index

/-- The kernel after `mmu_bootstrap`. -/
def bootstrapKernel (memory : Tables) (data : KernelData) (physical pml4 pdpt pd : Word) : Kernel where
  tables := bootstrapTables (preplongmode memory) physical pml4 pdpt pd
  cr3 := pml4
  data := data

/-- `PDPT[PDPTE(physical)]` repeats `PDPT[510]`. -/
def bootstrapFix (physical : Word) (path : List Index) (index : Index) : Index :=
  if path = [0x1FF] ∧ index = pdpte physical then 0x1FE else index

variable {memory tables : Tables} {data : KernelData} {physical pml4 pdpt pd : Word}
  {machine : Kernel} {frame : Frame} {pointer : Pointer}

/-! ### The loop -/

private theorem foldl_largePages (count : Nat) (inside : count ≤ 512) (other : Frame) (index : Index) :
    ((List.range count).map fun k => BitVec.ofNat 64 (k * 0x200000)).foldl
        (fun tables i => setEntry tables frame (pde i) (largeEntry i)) tables other index =
      if other = frame ∧ index.toNat < count then largeEntry (BitVec.ofNat 64 (index.toNat * 0x200000))
      else tables other index := by
  induction count with
  | zero => simp
  | succ count ih =>
    rw [List.range_succ, List.map_append, List.foldl_append]
    simp only [List.map_cons, List.map_nil, List.foldl_cons, List.foldl_nil]
    have place : (pde (BitVec.ofNat 64 (count * 0x200000))).toNat = count := by
      rw [pde_eq, indexAt_toNat, BitVec.toNat_ofNat]
      omega
    by_cases here : other = frame ∧ index = pde (BitVec.ofNat 64 (count * 0x200000))
    · obtain ⟨rfl, rfl⟩ := here
      rw [setEntry_same, place, if_pos ⟨rfl, Nat.lt_succ_self count⟩]
    · rw [setEntry_of_ne here, ih (by omega)]
      have other_index : other = frame → index.toNat ≠ count := by
        intro same value
        exact here ⟨same, BitVec.eq_of_toNat_eq (value.trans place.symm)⟩
      by_cases below : other = frame ∧ index.toNat < count
      · rw [if_pos below, if_pos ⟨below.1, by omega⟩]
      · rw [if_neg below, if_neg]
        intro later
        have := other_index later.1
        exact below ⟨later.1, by omega⟩

/-! ### The call -/

namespace BootstrapArgs

theorem frames_distinct (args : BootstrapArgs physical pml4 pdpt pd) :
    frameOf pml4 ≠ frameOf pdpt ∧ frameOf pml4 ≠ frameOf pd ∧ frameOf pdpt ≠ frameOf pd := by
  have apart := args.apart
  simp only [List.map_cons, List.map_nil, List.nodup_cons, List.mem_cons, List.not_mem_nil, or_false,
    not_or] at apart
  exact ⟨apart.1.1, apart.1.2, apart.2.1⟩

theorem pdpte_ne (args : BootstrapArgs physical pml4 pdpt pd) : pdpte physical ≠ 0x1FE := by
  intro same
  have small := args.small
  have value := congrArg BitVec.toNat same
  rw [pdpte_eq, indexAt_toNat] at value
  change physical.toNat / 2 ^ 30 % 512 = 510 at value
  omega

private theorem largePages_eq (args : BootstrapArgs physical pml4 pdpt pd) :
    largePages physical =
      (List.range (physical.toNat / 0x200000)).map (fun k => BitVec.ofNat 64 (k * 0x200000)) := by
  have whole := args.whole
  have count : (physical.toNat + 0x1FFFFF) / 0x200000 = physical.toNat / 0x200000 := by omega
  unfold largePages
  rw [count]

private theorem bootstrapTables_eq (args : BootstrapArgs physical pml4 pdpt pd) (old : Tables) :
    (largePages physical).foldl
        (fun tables i => setEntry tables (frameOf pd) (pde i) (largeEntry i))
        (setEntry (setEntry (setEntry (setEntry old (frameOf pml4) 0x1FF (tableEntry pdpt))
          (frameOf pml4) mmuRe (tableEntry pml4)) (frameOf pdpt) (pdpte physical) (tableEntry pd))
          (frameOf pdpt) 0x1FE (tableEntry pd)) =
      bootstrapTables old physical pml4 pdpt pd := by
  obtain ⟨apart₁, apart₂, apart₃⟩ := args.frames_distinct
  have whole := args.whole
  have small := args.small
  funext frame index
  rw [args.largePages_eq, foldl_largePages _ (by omega)]
  have covered : index.toNat < physical.toNat / 0x200000 ↔
      index.toNat * 0x200000 < physical.toNat := by omega
  unfold bootstrapTables
  simp only [covered, setEntry]
  by_cases top : frame = frameOf pml4
  · subst top
    have different : ¬((0x1FF : Index) = mmuRe) := by decide
    simp only [apart₁, apart₂, false_and, true_and, if_false]
    by_cases high : index = 0x1FF
    · subst high
      rw [if_neg different, if_pos rfl, if_pos rfl]
    · simp only [high, if_false]
  · by_cases second : frame = frameOf pdpt
    · subst second
      simp only [apart₁.symm, apart₃, false_and, true_and, if_false]
      by_cases shared : index = 0x1FE
      · rw [if_pos shared, if_pos (Or.inr shared)]
      · simp only [shared, or_false, if_false]
    · simp only [top, second, false_and, if_false]

end BootstrapArgs

/-- The machine during the call: only the three new tables differ. -/
private structure Bootstrapping (before : Kernel) (pml4 pdpt pd : Word) (machine : Kernel) : Prop where
  same : machine = { before with tables := machine.tables }
  outside : ∀ frame ∉ [pml4, pdpt, pd].map frameOf, machine.tables frame = before.tables frame

private theorem Bootstrapping.reaches {t : Word} {before : Kernel}
    (site : BootstrapSite before physical pml4 pdpt pd)
    (during : Bootstrapping before pml4 pdpt pd machine) (member : t ∈ [pml4, pdpt, pd]) :
    machine.Reaches (plainPointer t) (frameOf t) := by
  rw [during.same]
  exact site.accessible machine.tables during.outside t member

private theorem Bootstrapping.write {t : Word} {before : Kernel}
    (during : Bootstrapping before pml4 pdpt pd machine)
    (member : t ∈ [pml4, pdpt, pd]) (index : Index) (value : Word) :
    Bootstrapping before pml4 pdpt pd (machine.write (frameOf t, index) value) := by
  constructor
  · unfold Machine.write
    rw [during.same]
  · intro other outside
    rw [← during.outside other outside]
    funext place
    apply setEntry_of_ne
    rintro ⟨rfl, _⟩
    exact outside (List.mem_map_of_mem member)

private theorem bootstrapPages_runs {before : Kernel} (site : BootstrapSite before physical pml4 pdpt pd)
    (pages : List Word) (during : Bootstrapping before pml4 pdpt pd machine) :
    (bootstrapPages (plainPointer pd) pages).Runs (fun _ _ => True) machine fun _ machine' =>
      machine' = { machine with
        tables := pages.foldl (fun tables i => setEntry tables (frameOf pd) (pde i) (largeEntry i))
          machine.tables } := by
  induction pages generalizing machine with
  | nil => exact rfl
  | cons i rest ih =>
    unfold bootstrapPages
    rw [Prog.runs_andThen, Prog.runs_write _ _ _ (during.reaches site (by simp))]
    exact ⟨trivial, ih (during.write (by simp) (pde i) _)⟩

theorem BootstrapSite.run (site : BootstrapSite machine physical pml4 pdpt pd) :
    (mmuBootstrap physical pml4 pdpt pd).run machine =
      some ((), { machine with
        tables := bootstrapTables machine.tables physical pml4 pdpt pd
        cr3 := pml4 }) := by
  have virt : pml4e kernelVirt = 0x1FF := by decide
  have virtNext : pdpte kernelVirt = 0x1FE := by decide
  have start : Bootstrapping machine pml4 pdpt pd machine := ⟨rfl, fun _ _ => rfl⟩
  have first := start.write (t := pml4) (by simp) 0x1FF (tableEntry pdpt)
  have second := first.write (t := pml4) (by simp) mmuRe (tableEntry pml4)
  have third := second.write (t := pdpt) (by simp) (pdpte physical) (tableEntry pd)
  have fourth := third.write (t := pdpt) (by simp) 0x1FE (tableEntry pd)
  have runs : (mmuBootstrap physical pml4 pdpt pd).Runs (fun _ _ => True) machine
      fun _ machine' => machine' = { machine with
        tables := bootstrapTables machine.tables physical pml4 pdpt pd
        cr3 := pml4 } := by
    unfold mmuBootstrap
    rw [virt, virtNext, Prog.runs_andThen, Prog.runs_write _ _ _ (start.reaches site (by simp))]
    refine ⟨trivial, ?_⟩
    rw [Prog.runs_andThen, Prog.runs_write _ _ _ (first.reaches site (by simp))]
    refine ⟨trivial, ?_⟩
    rw [Prog.runs_andThen, Prog.runs_write _ _ _ (second.reaches site (by simp))]
    refine ⟨trivial, ?_⟩
    rw [Prog.runs_andThen, Prog.runs_write _ _ _ (third.reaches site (by simp))]
    refine ⟨trivial, ?_⟩
    rw [Prog.runs_andThen]
    refine (bootstrapPages_runs site (largePages physical) fourth).mono (fun _ _ same => same) ?_
    rintro _ machine rfl
    change Machine.mk _ pml4 _ = _
    rw [← site.bootstrapTables_eq]
    rfl
  obtain ⟨_, machine', ran, rfl⟩ := runs.run
  exact ran

/-! ### On the boot tables -/

theorem bootstrapSite_boot (args : BootstrapArgs physical pml4 pdpt pd) (clean : CleanPt2 memory)
    (low : ∀ t ∈ [pml4, pdpt, pd], t.toNat < 0x3F1000) :
    BootstrapSite (bootKernel memory data) physical pml4 pdpt pd := by
  refine ⟨args, ?_⟩
  intro tables outside t member
  have boots : ∀ frame : Frame, 0x3F1 ≤ frame.toNat → tables frame = preplongmode memory frame := by
    intro frame high
    apply outside
    intro inside
    obtain ⟨other, isNew, rfl⟩ := List.mem_map.mp inside
    have below := low other isNew
    rw [frameOf_toNat] at high
    omega
  obtain ⟨clean', same⟩ := preplongmode_again clean fun frame high _ => boots frame high
  have reaches : (bootKernel tables data).Reaches (plainPointer t) (frameOf t) :=
    boot_identity clean' (args.aligned t member) (Nat.lt_trans (low t member) (by decide))
  unfold bootKernel at reaches
  rw [same] at reaches
  exact reaches

theorem BootstrapRoom.args (room : BootstrapRoom memory physical pml4 pdpt pd) :
    BootstrapArgs physical pml4 pdpt pd where
  aligned t member := (room.placed t member).1
  apart := by
    refine List.Nodup.map_on ?_ room.distinct
    intro left first right second same
    have leftPlace := room.placed left first
    have rightPlace := room.placed right second
    have values := congrArg BitVec.toNat same
    rw [frameOf_toNat, frameOf_toNat] at values
    exact BitVec.eq_of_toNat_eq (by omega)
  whole := room.whole
  positive := Nat.lt_of_lt_of_le (by decide) room.enough
  small := room.small

theorem BootstrapRoom.old_blank (room : BootstrapRoom memory physical pml4 pdpt pd) {t : Word}
    (member : t ∈ [pml4, pdpt, pd]) (place : Index) :
    present (preplongmode memory (frameOf t) place) = false := by
  have placed := room.placed t member
  have below : (frameOf t).toNat < 0x3F1 := by
    rw [frameOf_toNat]
    omega
  rw [preplongmode_elsewhere _ place (Or.inl below)]
  exact room.blank t member place

theorem mmuBootstrap_run (room : BootstrapRoom memory physical pml4 pdpt pd) :
    (mmuBootstrap physical pml4 pdpt pd).run (bootKernel memory data) =
      some ((), bootstrapKernel memory data physical pml4 pdpt pd) := by
  have low : ∀ t ∈ [pml4, pdpt, pd], t.toNat < 0x3F1000 := fun t member => (room.placed t member).2
  exact (bootstrapSite_boot room.args room.clean low).run

/-! ### The new tables -/

theorem BootstrapArgs.tables_pml4 (args : BootstrapArgs physical pml4 pdpt pd) (old : Tables)
    (index : Index) :
    bootstrapTables old physical pml4 pdpt pd (frameOf pml4) index =
      if index = 0x1FF then tableEntry pdpt
      else if index = mmuRe then tableEntry pml4
      else old (frameOf pml4) index := by
  obtain ⟨apart₁, apart₂, _⟩ := args.frames_distinct
  simp only [bootstrapTables, apart₁, apart₂, true_and, false_and, if_false]

theorem BootstrapArgs.tables_pdpt (args : BootstrapArgs physical pml4 pdpt pd) (old : Tables)
    (index : Index) :
    bootstrapTables old physical pml4 pdpt pd (frameOf pdpt) index =
      if index = pdpte physical ∨ index = 0x1FE then tableEntry pd else old (frameOf pdpt) index := by
  obtain ⟨apart₁, _, apart₃⟩ := args.frames_distinct
  simp only [bootstrapTables, apart₁.symm, apart₃, true_and, false_and, if_false]

theorem BootstrapArgs.tables_pd (args : BootstrapArgs physical pml4 pdpt pd) (old : Tables)
    (index : Index) :
    bootstrapTables old physical pml4 pdpt pd (frameOf pd) index =
      if index.toNat * 0x200000 < physical.toNat then
        largeEntry (BitVec.ofNat 64 (index.toNat * 0x200000))
      else old (frameOf pd) index := by
  obtain ⟨_, apart₂, apart₃⟩ := args.frames_distinct
  simp only [bootstrapTables, apart₂.symm, apart₃.symm, true_and, false_and, if_false]

private theorem largeEntry_toNat {k : Nat} (inside : k < 512) :
    (largeEntry (BitVec.ofNat 64 (k * 0x200000))).toNat = k * 0x200000 + 0x83 := by
  unfold largeEntry
  rw [BitVec.toNat_or, BitVec.toNat_ofNat]
  have value : k * 0x200000 % 2 ^ 64 = 2 ^ 21 * k := by omega
  change (k * 0x200000 % 2 ^ 64 ||| 0x83) = _
  rw [value, ← Nat.two_pow_add_eq_or_of_lt (by decide)]
  omega

theorem largeEntry_facts {k : Nat} (inside : k < 512) :
    present (largeEntry (BitVec.ofNat 64 (k * 0x200000))) = true ∧
      large (largeEntry (BitVec.ofNat 64 (k * 0x200000))) = true ∧
      (frameOf (largeEntry (BitVec.ofNat 64 (k * 0x200000)))).toNat = k * 512 := by
  have value := largeEntry_toNat inside
  refine ⟨?_, ?_, ?_⟩
  · unfold present
    rw [getLsbD_iff, value]
    omega
  · unfold large
    rw [getLsbD_iff, value]
    omega
  · rw [frameOf_toNat, value]
    omega

theorem bootstrap_pd (args : BootstrapArgs physical pml4 pdpt pd) (old : Tables)
    {address : Word} (top : indexAt 3 address = 0x1FF)
    (next : indexAt 2 address = pdpte physical ∨ indexAt 2 address = 0x1FE) :
    tableAt (bootstrapTables old physical pml4 pdpt pd) (frameOf pml4) (pathTo address 2) =
      some (frameOf pd) := by
  refine tableAt_cons_eq_some_iff.mpr
    ⟨frameOf pdpt, tableAt_cons_eq_some_iff.mpr ⟨frameOf pml4, rfl, ?_⟩, ?_⟩
  · change tableOf (bootstrapTables old physical pml4 pdpt pd _ (indexAt 3 address)) = _
    rw [args.tables_pml4 old, if_pos top]
    exact tableOf_tableEntry pdpt (args.aligned pdpt (by simp))
  · change tableOf (bootstrapTables old physical pml4 pdpt pd _ (indexAt 2 address)) = _
    rw [args.tables_pdpt old, if_pos next]
    exact tableOf_tableEntry pd (args.aligned pd (by simp))

theorem bootstrap_large (args : BootstrapArgs physical pml4 pdpt pd) (old : Tables)
    {index : Index} (covered : index.toNat * 0x200000 < physical.toNat) :
    present (bootstrapTables old physical pml4 pdpt pd (frameOf pd) index) = true ∧
      large (bootstrapTables old physical pml4 pdpt pd (frameOf pd) index) = true := by
  obtain ⟨isPresent, isLarge, _⟩ := largeEntry_facts index.isLt
  rw [args.tables_pd old, if_pos covered]
  exact ⟨isPresent, isLarge⟩

theorem indexAt_one_p2v {t : Word} (small : t.toNat < 2 ^ 30) :
    (indexAt 1 (p2v t)).toNat = t.toNat / 0x200000 := by
  rw [indexAt_toNat, p2v_toNat]
  omega

/-- A walk that comes to the directory finds the page, over whatever the tables held. -/
theorem bootstrap_page (args : BootstrapArgs physical pml4 pdpt pd) (old : Tables) {address t : Word}
    (isCanonical : canonical address = true)
    (directory : tableAt (bootstrapTables old physical pml4 pdpt pd) (frameOf pml4) (pathTo address 2) =
      some (frameOf pd))
    (same : address.toNat % 2 ^ 30 = t.toNat) (inside : t.toNat < physical.toNat) :
    ∃ leaf, walk (bootstrapTables old physical pml4 pdpt pd) (frameOf pml4) address = some leaf ∧
      leaf.frame = frameOf t := by
  have index : (indexAt 1 address).toNat = t.toNat / 0x200000 := by
    rw [indexAt_toNat]
    omega
  have covered : (indexAt 1 address).toNat * 0x200000 < physical.toNat := by
    rw [index]
    omega
  obtain ⟨isPresent, isLarge⟩ := bootstrap_large args old covered
  obtain ⟨leaf, found, atFrame⟩ := walk_of_large isCanonical directory isPresent isLarge
  refine ⟨leaf, found, ?_⟩
  rw [atFrame]
  apply BitVec.eq_of_toNat_eq
  rw [largeFrame_toNat (by decide), args.tables_pd, if_pos covered, (largeEntry_facts (indexAt 1 _).isLt).2.2,
    index, frameOf_toNat, frameOf_toNat]
  omega

theorem bootstrap_direct (args : BootstrapArgs physical pml4 pdpt pd) (old : Tables) {t : Word}
    (inside : t.toNat < physical.toNat) :
    ∃ leaf, walk (bootstrapTables old physical pml4 pdpt pd) (frameOf pml4) (p2v t) = some leaf ∧
      leaf.frame = frameOf t := by
  have small := args.small
  have value := p2v_toNat t
  have directory := bootstrap_pd args old (indexAt_p2v t) (Or.inr (indexAt_two_p2v (by omega)))
  exact bootstrap_page args old (p2v_canonical t) directory (by omega) inside

theorem bootstrap_window (room : BootstrapRoom memory physical pml4 pdpt pd) {t : Word}
    (aligned : t.toNat % 4096 = 0) (inside : t.toNat < physical.toNat) :
    (bootstrapKernel memory data physical pml4 pdpt pd).Reaches (window t) (frameOf t) :=
  ⟨window_aligned aligned, bootstrap_direct room.args (preplongmode memory) inside⟩

/-! ### After `mmu_init` -/

theorem bootstrapKernel_init (room : BootstrapRoom memory physical pml4 pdpt pd) :
    mmuInit.run (bootstrapKernel memory data physical pml4 pdpt pd) =
      some ((), initialised (bootstrapKernel memory data physical pml4 pdpt pd)) := by
  apply mmuInit_run
  obtain ⟨aligned, low⟩ := room.placed pml4 (by simp)
  have enough := room.enough
  exact bootstrap_window (t := pml4) room aligned (by omega)

theorem bootstrapped_tables (room : BootstrapRoom memory physical pml4 pdpt pd) :
    (initialised (bootstrapKernel memory data physical pml4 pdpt pd)).tables =
      bootstrapTables (preplongmode memory) physical pml4 pdpt pd := by
  have entry : bootstrapTables (preplongmode memory) physical pml4 pdpt pd (frameOf pml4) mmuRe =
      tableEntry pml4 := by
    rw [room.args.tables_pml4, if_neg (by decide), if_pos rfl]
  change setEntry (bootstrapTables (preplongmode memory) physical pml4 pdpt pd) (frameOf pml4) mmuRe
    (tableEntry pml4) = _
  funext frame index
  by_cases slot : frame = frameOf pml4 ∧ index = mmuRe
  · obtain ⟨rfl, rfl⟩ := slot
    rw [setEntry_same, entry]
  · exact setEntry_of_ne slot

theorem bootstrapped_root :
    (initialised (bootstrapKernel memory data physical pml4 pdpt pd)).root = frameOf pml4 := rfl

theorem bootstrapped_window (room : BootstrapRoom memory physical pml4 pdpt pd) {t : Word}
    (aligned : t.toNat % 4096 = 0) (inside : t.toNat < physical.toNat) :
    (initialised (bootstrapKernel memory data physical pml4 pdpt pd)).Reaches (window t) (frameOf t) := by
  have reaches : (bootstrapKernel memory data physical pml4 pdpt pd).Reaches (window t) (frameOf t) :=
    bootstrap_window room aligned inside
  refine reaches.grows ?_ rfl
  rw [bootstrapped_tables room]
  exact Grows.refl _

/-- The three tables, each with the path that leads to it once the repeated slot is
taken for what it repeats. -/
def BootstrapTable (pml4 pdpt pd : Word) (frame : Frame) (path : List Index) : Prop :=
  frame = frameOf pml4 ∧ path = [] ∨ frame = frameOf pdpt ∧ path = [0x1FF] ∨
    frame = frameOf pd ∧ path = [0x1FE, 0x1FF]

private theorem bootstrapTable_step {next : Frame} {path : List Index} {index : Index}
    (room : BootstrapRoom memory physical pml4 pdpt pd) (at' : BootstrapTable pml4 pdpt pd frame path)
    (avoids : path = [] → index ≠ mmuRe)
    (leads : tableOf (bootstrapTables (preplongmode memory) physical pml4 pdpt pd frame index) =
      some next) :
    BootstrapTable pml4 pdpt pd next (bootstrapFix physical path index :: path) ∧
      ∃ t ∈ [pml4, pdpt, pd], next = frameOf t ∧
        bootstrapTables (preplongmode memory) physical pml4 pdpt pd frame index = tableEntry t := by
  have blank : ∀ t ∈ [pml4, pdpt, pd], tableOf (preplongmode memory (frameOf t) index) ≠ some next := by
    intro t member impossible
    have isPresent := (tableOf_eq_some_iff.mp impossible).1
    rw [room.old_blank member index] at isPresent
    cases isPresent
  rcases at' with ⟨rfl, rfl⟩ | ⟨rfl, rfl⟩ | ⟨rfl, rfl⟩
  · rw [room.args.tables_pml4] at leads ⊢
    by_cases set : index = 0x1FF
    · rw [if_pos set] at leads ⊢
      rw [tableOf_tableEntry pdpt (room.placed pdpt (by simp)).1] at leads
      have nextEq := Option.some.inj leads
      subst nextEq set
      exact ⟨Or.inr (Or.inl ⟨rfl, rfl⟩), pdpt, by simp, rfl, rfl⟩
    · rw [if_neg set, if_neg (avoids rfl)] at leads
      exact absurd leads (blank pml4 (by simp))
  · rw [room.args.tables_pdpt] at leads ⊢
    by_cases set : index = pdpte physical ∨ index = 0x1FE
    · rw [if_pos set] at leads ⊢
      rw [tableOf_tableEntry pd (room.placed pd (by simp)).1] at leads
      have nextEq := Option.some.inj leads
      subst nextEq
      have fixed : bootstrapFix physical [0x1FF] index = 0x1FE := by
        unfold bootstrapFix
        rcases set with low | high
        · rw [if_pos ⟨rfl, low⟩]
        · rw [high, if_neg (fun same => room.args.pdpte_ne same.2.symm)]
      rw [fixed]
      exact ⟨Or.inr (Or.inr ⟨rfl, rfl⟩), pd, by simp, rfl, rfl⟩
    · rw [if_neg set] at leads
      exact absurd leads (blank pdpt (by simp))
  · rw [room.args.tables_pd] at leads
    by_cases covered : index.toNat * 0x200000 < physical.toNat
    · rw [if_pos covered] at leads
      have notLarge := (tableOf_eq_some_iff.mp leads).2.1
      rw [(largeEntry_facts index.isLt).2.1] at notLarge
      cases notLarge
    · rw [if_neg covered] at leads
      exact absurd leads (blank pd (by simp))

theorem bootstrapTable_of_tableAt {path : List Index}
    (room : BootstrapRoom memory physical pml4 pdpt pd) (avoids : Avoids mmuRe path)
    (here : tableAt (bootstrapTables (preplongmode memory) physical pml4 pdpt pd) (frameOf pml4) path =
      some frame) :
    BootstrapTable pml4 pdpt pd frame (unshare (bootstrapFix physical) path) := by
  induction path generalizing frame with
  | nil => exact Or.inl ⟨(Option.some.inj here).symm, rfl⟩
  | cons index path ih =>
    obtain ⟨parent, atParent, leads⟩ := tableAt_cons_eq_some_iff.mp here
    exact (bootstrapTable_step room (ih avoids.tail atParent) avoids.ne_of_unshare_nil leads).1

private theorem bootstrapTable_unique {left right : List Index}
    (room : BootstrapRoom memory physical pml4 pdpt pd)
    (first : BootstrapTable pml4 pdpt pd frame left) (second : BootstrapTable pml4 pdpt pd frame right) :
    left = right := by
  obtain ⟨apart₁, apart₂, apart₃⟩ := room.args.frames_distinct
  rcases first with ⟨rfl, rfl⟩ | ⟨rfl, rfl⟩ | ⟨rfl, rfl⟩
  · rcases second with ⟨_, rfl⟩ | ⟨same, _⟩ | ⟨same, _⟩
    · rfl
    · exact absurd same apart₁
    · exact absurd same apart₂
  · rcases second with ⟨same, _⟩ | ⟨_, rfl⟩ | ⟨same, _⟩
    · exact absurd same.symm apart₁
    · rfl
    · exact absurd same apart₃
  · rcases second with ⟨same, _⟩ | ⟨same, _⟩ | ⟨_, rfl⟩
    · exact absurd same.symm apart₂
    · exact absurd same.symm apart₃
    · rfl

private theorem bootstrapTable_small {path : List Index} {index : Index}
    (room : BootstrapRoom memory physical pml4 pdpt pd) (at' : BootstrapTable pml4 pdpt pd frame path)
    (short : path.length ≤ 1)
    (isPresent : present (bootstrapTables (preplongmode memory) physical pml4 pdpt pd frame index) =
      true) :
    large (bootstrapTables (preplongmode memory) physical pml4 pdpt pd frame index) = false := by
  have entry : ∀ t ∈ [pml4, pdpt, pd], large (tableEntry t) = false := fun t member =>
    (tableOf_eq_some_iff.mp (tableOf_tableEntry t (room.placed t member).1)).2.1
  have blank : ∀ t ∈ [pml4, pdpt, pd], present (preplongmode memory (frameOf t) index) ≠ true := by
    intro t member
    rw [room.old_blank member index]
    decide
  rcases at' with ⟨rfl, rfl⟩ | ⟨rfl, rfl⟩ | ⟨rfl, rfl⟩
  · rw [room.args.tables_pml4] at isPresent ⊢
    by_cases high : index = 0x1FF
    · rw [if_pos high]
      exact entry pdpt (by simp)
    · rw [if_neg high] at isPresent ⊢
      by_cases returns : index = mmuRe
      · rw [if_pos returns]
        exact entry pml4 (by simp)
      · rw [if_neg returns] at isPresent
        exact absurd isPresent (blank pml4 (by simp))
  · rw [room.args.tables_pdpt] at isPresent ⊢
    by_cases set : index = pdpte physical ∨ index = 0x1FE
    · rw [if_pos set]
      exact entry pd (by simp)
    · rw [if_neg set] at isPresent
      exact absurd isPresent (blank pdpt (by simp))
  · simp at short

theorem bootstrapped_wired {ok : Word → Prop} (room : BootstrapRoom memory physical pml4 pdpt pd)
    (isOk : ∀ t : Word, t.toNat < 0x400000 → ok t) :
    Wired ok (bootstrapFix physical)
      (initialised (bootstrapKernel memory data physical pml4 pdpt pd)) where
  recursive := by
    rw [bootstrapped_root, bootstrapped_tables room, room.args.tables_pml4, if_neg (by decide), if_pos rfl]
    exact tableOf_tableEntry pml4 (room.placed pml4 (by simp)).1
  pml4 := initialised_pml4 _
  separated := by
    rw [bootstrapped_root, bootstrapped_tables room]
    intro left right frame _ _ avoidsLeft avoidsRight atLeft atRight
    exact bootstrapTable_unique room (bootstrapTable_of_tableAt room avoidsLeft atLeft)
      (bootstrapTable_of_tableAt room avoidsRight atRight)
  small := by
    intro path table index short avoids here isPresent
    rw [bootstrapped_root, bootstrapped_tables room] at here
    rw [bootstrapped_tables room] at isPresent ⊢
    exact bootstrapTable_small room (bootstrapTable_of_tableAt room avoids.tail here)
      (by rw [length_unshare]; exact short) isPresent
  windowed := by
    intro t next links
    obtain ⟨path, parent, index, _, avoids, here, leads, rfl⟩ := links
    rw [bootstrapped_root, bootstrapped_tables room] at here
    rw [bootstrapped_tables room] at leads ⊢
    obtain ⟨_, t, member, rfl, value⟩ := bootstrapTable_step room
      (bootstrapTable_of_tableAt room avoids.tail here) avoids.ne_of_unshare_nil leads
    obtain ⟨aligned, low⟩ := room.placed t member
    have enough := room.enough
    rw [value, roundDown_tableEntry t aligned]
    exact ⟨bootstrapped_window room aligned (by omega), isOk t (by omega)⟩

end Osdev64
