/-
What holds of the page tables between calls of `mmu_map_page`.

The PML4 leads back to itself in slot `MMU_RE` and is reached through it; every
other table is reached through `P2V`.  A call that is given usable frames and
does not remap a page the code itself goes through keeps this, and changes no
translation but those that end in the entry it writes.
-/

import Osdev64.MmuMap

namespace Osdev64

open Word64 Paging

/-- An entry above the page tables, not behind the recursive slot, holds the
address `t` and leads to the table `next`. -/
def Kernel.Links (machine : Kernel) (t : Word) (next : Frame) : Prop :=
  ∃ path parent index, path.length ≤ 2 ∧ Avoids mmuRe (index :: path) ∧
    tableAt machine.tables machine.root path = some parent ∧
    tableOf (machine.tables parent index) = some next ∧
    t = roundDown (machine.tables parent index) pageSize

/-- The invariant.  `fix` says which slots share their table; `ok` is what else
holds of the addresses of tables. -/
structure Wired (ok : Word → Prop) (fix : List Index → Index → Index) (machine : Kernel) : Prop where
  recursive : tableOf (machine.tables machine.root mmuRe) = some machine.root
  pml4 : (machine.data.frames.page machine.data.pml4).data = mmuRecursive mmuRe mmuRe mmuRe mmuRe
  separated : Separated machine.tables machine.root mmuRe fix
  small : ∀ path table index, path.length ≤ 1 → Avoids mmuRe (index :: path) →
    tableAt machine.tables machine.root path = some table →
    present (machine.tables table index) = true → large (machine.tables table index) = false
  windowed : ∀ t next, machine.Links t next → machine.Reaches (window t) next ∧ ok t

/-- What a call needs of its address and of the frames `page_alloc` would return for it. -/
structure Supplied (ok : Word → Prop) (machine : Kernel) (address : Word) : Prop where
  outside : indexAt 3 address ≠ mmuRe
  available : machine.HasNewTables address
  aligned : ∀ t ∈ machine.newTables address, t.toNat % 4096 = 0
  fresh : ∀ t ∈ machine.newTables address, machine.Reaches (window t) (frameOf t) ∧ ok t ∧
    ∀ place, present (machine.tables (frameOf t) place) = false
  distinct : ((machine.newTables address).map frameOf).Nodup
  unused : ∀ t ∈ machine.newTables address, ¬Live machine.tables machine.root (frameOf t)

/-- What the allocator hands out for new tables: different page-aligned frames, no live tables,
that are reached through `P2V`.  They may hold anything. -/
structure Spare (machine : Kernel) (address : Word) : Prop where
  outside : indexAt 3 address ≠ mmuRe
  available : machine.HasNewTables address
  aligned : ∀ t ∈ machine.newTables address, t.toNat % 4096 = 0
  reaches : ∀ t ∈ machine.newTables address, machine.Reaches (window t) (frameOf t)
  distinct : ((machine.newTables address).map frameOf).Nodup
  unused : ∀ t ∈ machine.newTables address, ¬Live machine.tables machine.root (frameOf t)

/-- The call remaps no page through which the code reaches a table. -/
def Clear (fix : List Index → Index → Index) (machine : Kernel) (address : Word) : Prop :=
  (∀ t next, machine.Links t next → ¬SameEntry fix address (p2v t)) ∧
    ∀ t ∈ machine.newTables address, ¬SameEntry fix address (p2v t)

variable {ok : Word → Prop} {fix : List Index → Index → Index} {machine machine' : Kernel}
  {address : Word} {page : PagePtr} {flags : BitVec 32}

theorem Supplied.mono {ok' : Word → Prop} (supplied : Supplied ok machine address)
    (weaker : ∀ t, ok t → ok' t) : Supplied ok' machine address where
  outside := supplied.outside
  available := supplied.available
  aligned := supplied.aligned
  fresh := by
    intro t isNew
    obtain ⟨reaches, isOk, blank⟩ := supplied.fresh t isNew
    exact ⟨reaches, weaker t isOk, blank⟩
  distinct := supplied.distinct
  unused := supplied.unused

/-! ### The pointers of a call -/

theorem recursive_reaches (recursive : tableOf (machine.tables machine.root mmuRe) = some machine.root)
    (pml4 : (machine.data.frames.page machine.data.pml4).data =
      mmuRecursive mmuRe mmuRe mmuRe mmuRe) :
    machine.Reaches (plainPointer (machine.data.frames.page machine.data.pml4).data)
      machine.root := by
  obtain ⟨isPresent, _, target⟩ := tableOf_eq_some_iff.mp recursive
  have thrice : tableAt machine.tables machine.root [mmuRe, mmuRe, mmuRe] = some machine.root := by
    simp [tableAt, recursive]
  have reaches := reaches_recursive thrice isPresent
  rw [target] at reaches
  rw [pml4]
  exact reaches

theorem links_pathTo (outside : indexAt 3 address ≠ mmuRe) {level : Nat} (below : level < 3)
    {table next : Frame}
    (here : tableAt machine.tables machine.root (pathTo address level) = some table)
    (leads : tableOf (machine.tables table (indexAt (3 - level) address)) = some next) :
    machine.Links (roundDown (machine.tables table (indexAt (3 - level) address)) pageSize) next :=
  ⟨pathTo address level, table, indexAt (3 - level) address, by rw [length_pathTo]; omega,
    avoids_pathTo outside (level + 1), here, leads, rfl⟩

/-- Where the recursive slot and `P2V` reach the tables, every pointer of a call does. -/
theorem Supplied.mapReady (supplied : Supplied ok machine address)
    (recursive : tableOf (machine.tables machine.root mmuRe) = some machine.root)
    (pml4 : (machine.data.frames.page machine.data.pml4).data = mmuRecursive mmuRe mmuRe mmuRe mmuRe)
    (small : ∀ level < 2, ∀ table, tableAt machine.tables machine.root (pathTo address level) = some table →
      present (machine.tables table (indexAt (3 - level) address)) = true →
      large (machine.tables table (indexAt (3 - level) address)) = false)
    (windowed : ∀ t next, machine.Links t next → machine.Reaches (window t) next ∧ ok t) :
    MapReady ok machine address where
  here := rfl
  reaches := recursive_reaches recursive pml4
  target := by
    intro t impossible
    cases impossible
  small := fun level _ below => small level below
  windowed := by
    intro level _ below table next here leads
    exact windowed _ next (links_pathTo supplied.outside below here leads)
  aligned := supplied.aligned
  fresh := supplied.fresh
  distinct := supplied.distinct
  unused := by
    intro level inside table here member
    obtain ⟨t, isNew, same⟩ := List.mem_map.mp member
    exact supplied.unused t isNew ⟨pathTo address level, by rw [length_pathTo]; omega, same ▸ here⟩
  available := supplied.available

theorem Wired.mapReady (wired : Wired ok fix machine) (supplied : Supplied ok machine address) :
    MapReady ok machine address := by
  apply supplied.mapReady wired.recursive wired.pml4 _ wired.windowed
  intro level below table here
  exact wired.small (pathTo address level) table _ (by rw [length_pathTo]; omega)
    (avoids_pathTo supplied.outside (level + 1)) here

/-! ### What a call changes -/

theorem Supplied.freshTables (supplied : Supplied ok machine address) :
    FreshTables machine.tables machine.root mmuRe
      ((machine.newTables address).map tableEntry) := by
  have each : ∀ entry ∈ (machine.newTables address).map tableEntry,
      ∃ t ∈ machine.newTables address, entry = tableEntry t ∧ frameOf entry = frameOf t := by
    intro entry member
    obtain ⟨t, isNew, rfl⟩ := List.mem_map.mp member
    exact ⟨t, isNew, rfl, frameOf_tableEntry (supplied.aligned t isNew)⟩
  refine ⟨?_, ?_, ?_, ?_⟩
  · intro entry member
    obtain ⟨t, isNew, rfl, sameFrame⟩ := each entry member
    rw [sameFrame]
    exact tableOf_tableEntry t (supplied.aligned t isNew)
  · rw [List.map_map]
    have same : (machine.newTables address).map (frameOf ∘ tableEntry) =
        (machine.newTables address).map frameOf :=
      List.map_congr_left fun t isNew => frameOf_tableEntry (supplied.aligned t isNew)
    rw [same]
    exact supplied.distinct
  · intro entry member
    obtain ⟨t, isNew, _, sameFrame⟩ := each entry member
    rw [sameFrame]
    exact (supplied.fresh t isNew).2.2
  · intro entry member path short _ found
    obtain ⟨t, isNew, _, sameFrame⟩ := each entry member
    rw [sameFrame] at found
    exact supplied.unused t isNew ⟨path, short, found⟩

/-- The tables after a call, seen from those before. -/
structure Changed (fix : List Index → Index → Index) (machine machine' : Kernel)
    (address leaf : Word) : Prop where
  root : machine'.root = machine.root
  kept : tableOf (machine.tables machine.root mmuRe) = some machine.root →
    machine'.tables machine.root mmuRe = machine.tables machine.root mmuRe
  separated : Separated machine'.tables machine.root mmuRe fix
  walk_eq : ∀ other, indexAt 3 other ≠ mmuRe → ¬SameEntry fix address other →
    walk machine'.tables machine.root other = walk machine.tables machine.root other
  entries : ∀ path table index, path.length ≤ 2 → Avoids mmuRe path →
    tableAt machine'.tables machine.root path = some table →
    present (machine'.tables table index) = true →
    tableAt machine.tables machine.root path = some table ∧
        machine'.tables table index = machine.tables table index ∨
      ∃ t ∈ machine.newTables address, machine'.tables table index = tableEntry t
  tables : ∀ path table, path.length ≤ 3 → Avoids mmuRe path →
    tableAt machine'.tables machine.root path = some table →
    tableAt machine.tables machine.root path = some table ∨
      ∃ t ∈ machine.newTables address, table = frameOf t
  stays : ∀ path table index, path.length ≤ 2 → Avoids mmuRe path →
    tableAt machine.tables machine.root path = some table →
    present (machine.tables table index) = true →
    tableAt machine'.tables machine.root path = some table ∧
      machine'.tables table index = machine.tables table index
  written : ∃ table, tableAt machine'.tables machine.root (pathTo address 3) = some table ∧
    machine'.tables table (indexAt 0 address) = leaf

theorem Mapped.last (mapped : Mapped machine machine' page address flags)
    (supplied : Supplied ok machine address) (leveled : Leveled machine.tables machine.root mmuRe) :
    ∃ middle table, Built machine.root address machine.tables
        ((machine.newTables address).map tableEntry) middle ∧
      Leveled middle machine.root mmuRe ∧
      LastLevel middle machine.root mmuRe (pathTo address 3) table ∧
      machine'.tables = setEntry middle table (indexAt 0 address) (leafEntry machine page flags) := by
  obtain ⟨middle, table, built, here, tablesEq⟩ := mapped.built
  exact ⟨middle, table, built,
    built.toldApart supplied.freshTables supplied.outside congruent_length leveled,
    ⟨here, length_pathTo address 3, avoids_pathTo supplied.outside 3⟩, tablesEq⟩

theorem Mapped.ends (mapped : Mapped machine machine' page address flags)
    (supplied : Supplied ok machine address) (leveled : Leveled machine.tables machine.root mmuRe) :
    ∃ table, tableAt machine'.tables machine'.root (pathTo address 3) = some table ∧
      machine'.tables table (indexAt 0 address) = leafEntry machine page flags := by
  obtain ⟨middle, table, _, leveled', level, tablesEq⟩ := mapped.last supplied leveled
  refine ⟨table, ?_, ?_⟩
  · rw [Machine.root_congr mapped.cr3, tablesEq, level.tableAt_eq leveled' (by simp) level.avoids]
    exact level.here
  · rw [tablesEq, setEntry_same]

theorem Mapped.changed (mapped : Mapped machine machine' page address flags)
    (supplied : Supplied ok machine address)
    (separated : Separated machine.tables machine.root mmuRe fix) :
    Changed fix machine machine' address (leafEntry machine page flags) := by
  obtain ⟨middle, table, built, leveled', level, tablesEq⟩ :=
    mapped.last supplied separated.leveled
  have here := level.here
  have fresh := supplied.freshTables
  have separated' : Separated middle machine.root mmuRe fix :=
    built.toldApart fresh supplied.outside (congruent_unshare fix) separated
  -- a table at a shorter path is not the one written
  have notLast : ∀ path other index, path.length ≤ 2 → Avoids mmuRe path →
      tableAt middle machine.root path = some other →
      machine'.tables other index = middle other index := by
    intro path other index short avoids found
    rw [tablesEq, setEntry_of_ne]
    rintro ⟨rfl, _⟩
    have lengths := leveled' _ _ _ (by omega) (by have := level.last; omega) avoids
      level.avoids found here
    have := level.last
    omega
  have tableAt_eq : ∀ path, path.length ≤ 3 → Avoids mmuRe path →
      tableAt machine'.tables machine.root path = tableAt middle machine.root path := by
    intro path short avoids
    rw [tablesEq]
    exact level.tableAt_eq leveled' short avoids
  refine ⟨?_, ?_, ?_, ?_, ?_, ?_, ?_, ?_⟩
  · exact Machine.root_congr mapped.cr3
  · intro recursive
    rw [notLast [] machine.root mmuRe (by simp) avoids_nil rfl]
    exact built.grows _ _ (tableOf_eq_some_iff.mp recursive).1
  · rw [tablesEq]
    exact level.toldApart leveled' separated'
  · intro other outside different
    rw [tablesEq, level.walk_eq leveled' outside
      (fun same => different (separated'.sameEntry supplied.outside outside here same))]
    exact built.walk_eq fresh supplied.outside separated.leveled outside
  · intro path other index short avoids found isPresent
    rw [tableAt_eq path (by omega) avoids] at found
    have sameEntry := notLast path other index short avoids found
    rw [sameEntry] at isPresent ⊢
    rcases built.entry_cases other index with same | member
    · rcases built.tableAt_cases fresh supplied.outside (by omega) avoids found with
        old | ⟨entry, isNew, rfl⟩
      · exact Or.inl ⟨old, same⟩
      · rw [same, fresh.blank entry isNew index] at isPresent
        cases isPresent
    · obtain ⟨t, isNew, same⟩ := List.mem_map.mp member
      exact Or.inr ⟨t, isNew, same.symm⟩
  · intro path other short avoids found
    rw [tableAt_eq path short avoids] at found
    rcases built.tableAt_cases fresh supplied.outside short avoids found with
      old | ⟨entry, member, rfl⟩
    · exact Or.inl old
    · obtain ⟨t, isNew, rfl⟩ := List.mem_map.mp member
      exact Or.inr ⟨t, isNew, frameOf_tableEntry (supplied.aligned t isNew)⟩
  · intro path other index short avoids found isPresent
    have found' := built.grows.tableAt found
    rw [tableAt_eq path (by omega) avoids, notLast path other index short avoids found']
    exact ⟨found', built.grows other index isPresent⟩
  · refine ⟨table, ?_, ?_⟩
    · rw [tableAt_eq _ (by simp) level.avoids]
      exact here
    · rw [tablesEq, setEntry_same]

theorem Changed.live {leaf : Word} {frame : Frame} (changed : Changed fix machine machine' address leaf)
    (recursive : tableOf (machine.tables machine.root mmuRe) = some machine.root)
    (live : Live machine'.tables machine'.root frame) :
    Live machine.tables machine.root frame ∨
      ∃ t ∈ machine.newTables address, frame = frameOf t := by
  have recursive' : tableOf (machine'.tables machine.root mmuRe) = some machine.root := by
    rw [changed.kept recursive]
    exact recursive
  rw [changed.root] at live
  obtain ⟨path, short, avoids, here⟩ := (live_iff_avoids recursive').mp live
  rcases changed.tables path frame short avoids here with old | isNew
  · exact Or.inl ⟨path, short, old⟩
  · exact Or.inr isNew

theorem Mapped.untouched (mapped : Mapped machine machine' page address flags)
    (supplied : Supplied ok machine address) {frame : Frame}
    (dead : ¬Live machine.tables machine.root frame)
    (notNew : ∀ t ∈ machine.newTables address, frameOf t ≠ frame) :
    machine'.tables frame = machine.tables frame := by
  obtain ⟨middle, table, built, here, tablesEq⟩ := mapped.built
  have fresh := supplied.freshTables
  have notNewEntry : ∀ entry ∈ (machine.newTables address).map tableEntry, frameOf entry ≠ frame := by
    intro entry member
    obtain ⟨t, isNew, rfl⟩ := List.mem_map.mp member
    rw [frameOf_tableEntry (supplied.aligned t isNew)]
    exact notNew t isNew
  have different : frame ≠ table := by
    rintro rfl
    rcases built.tableAt_cases fresh supplied.outside (by simp) (avoids_pathTo supplied.outside 3) here with
      old | ⟨entry, member, same⟩
    · exact dead ⟨_, by simp, old⟩
    · exact notNewEntry entry member same.symm
  rw [tablesEq, ← built.frame_eq fresh supplied.outside (fun path short _ found =>
    dead ⟨path, short, found⟩) notNewEntry]
  funext place
  exact setEntry_of_ne fun slot => different slot.1

theorem indexAt_p2v (t : Word) : indexAt 3 (p2v t) = 0x1FF := by
  apply BitVec.eq_of_toNat_eq
  unfold indexAt
  rw [BitVec.extractLsb'_toNat, p2v_toNat, Nat.shiftRight_eq_div_pow]
  change (t.toNat % 2 ^ 31 + (2 ^ 64 - 2 ^ 31)) / 2 ^ 39 % 2 ^ 9 = 511
  omega

private theorem p2v_outside (t : Word) : indexAt 3 (p2v t) ≠ mmuRe := by
  rw [indexAt_p2v]
  decide

theorem Mapped.pml4 (mapped : Mapped machine machine' page address flags)
    (notPml4 : page ≠ machine.data.pml4) :
    (machine'.data.frames.page machine'.data.pml4).data =
      (machine.data.frames.page machine.data.pml4).data := by
  rw [mapped.data]
  unfold setData Frames.setPage
  simp only
  rw [Function.update_of_ne (Ne.symm notPml4)]
  exact (takeTables_page _ machine.data.frames machine.data.pml4).2

theorem Wired.mapped (wired : Wired ok fix machine) (supplied : Supplied ok machine address)
    (clear : Clear fix machine address) (notPml4 : page ≠ machine.data.pml4)
    (mapped : Mapped machine machine' page address flags) : Wired ok fix machine' := by
  have changed := mapped.changed supplied wired.separated
  have window_kept : ∀ t next, machine.Reaches (window t) next → ¬SameEntry fix address (p2v t) →
      machine'.Reaches (window t) next := by
    rintro t next ⟨aligned, leaf, found, atFrame⟩ different
    refine ⟨aligned, leaf, ?_, atFrame⟩
    rw [changed.root]
    exact (changed.walk_eq _ (p2v_outside t) different).trans found
  refine ⟨?_, ?_, ?_, ?_, ?_⟩
  · rw [changed.root, changed.kept wired.recursive]
    exact wired.recursive
  · rw [mapped.pml4 notPml4]
    exact wired.pml4
  · rw [changed.root]
    exact changed.separated
  · intro path table index short avoids here isPresent
    rw [changed.root] at here
    rcases changed.entries path table index (by omega) avoids.tail here isPresent with
      ⟨old, same⟩ | ⟨t, isNew, same⟩
    · rw [same] at isPresent ⊢
      exact wired.small path table index short avoids old isPresent
    · rw [same]
      exact (tableOf_eq_some_iff.mp (tableOf_tableEntry t (supplied.aligned t isNew))).2.1
  · rintro t next ⟨path, parent, index, short, avoids, here, leads, rfl⟩
    rw [changed.root] at here
    rcases changed.entries path parent index short avoids.tail here
        (tableOf_eq_some_iff.mp leads).1 with ⟨old, same⟩ | ⟨t, isNew, same⟩
    · rw [same] at leads ⊢
      have links : machine.Links (roundDown (machine.tables parent index) pageSize) next :=
        ⟨path, parent, index, short, avoids, old, leads, rfl⟩
      obtain ⟨reaches, isOk⟩ := wired.windowed _ next links
      exact ⟨window_kept _ next reaches (clear.1 _ next links), isOk⟩
    · have aligned := supplied.aligned t isNew
      obtain ⟨reaches, isOk, _⟩ := supplied.fresh t isNew
      rw [same, tableOf_tableEntry t aligned] at leads
      rw [same, roundDown_tableEntry t aligned, ← Option.some.inj leads]
      exact ⟨window_kept t _ reaches (clear.2 t isNew), isOk⟩

/-- The invariant depends on the words of the live tables and on the PML4's page structure. -/
theorem Wired.agree (wired : Wired ok fix machine)
    (agree : ∀ table, Live machine.tables machine.root table → machine'.tables table = machine.tables table)
    (cr3 : machine'.cr3 = machine.cr3)
    (pml4 : (machine'.data.frames.page machine'.data.pml4).data =
      (machine.data.frames.page machine.data.pml4).data) : Wired ok fix machine' := by
  have rootEq := Machine.root_congr cr3
  have entryEq {path : List Index} {table : Frame} (short : path.length ≤ 3)
      (found : tableAt machine.tables machine.root path = some table) :
      machine'.tables table = machine.tables table := agree table ⟨path, short, found⟩
  refine ⟨?_, ?_, ?_, ?_, ?_⟩
  · rw [rootEq, entryEq (by simp) (rfl : tableAt machine.tables machine.root [] = _)]
    exact wired.recursive
  · rw [pml4]
    exact wired.pml4
  · intro left right table shortLeft shortRight avoidsLeft avoidsRight atLeft atRight
    rw [rootEq, tableAt_of_agree agree (by omega)] at atLeft atRight
    exact wired.separated left right table shortLeft shortRight avoidsLeft avoidsRight atLeft atRight
  · intro path table index short avoids found
    rw [rootEq, tableAt_of_agree agree (by omega)] at found
    rw [entryEq (by omega) found]
    exact wired.small path table index short avoids found
  · rintro t next ⟨path, parent, index, short, avoids, found, leads, rfl⟩
    rw [rootEq, tableAt_of_agree agree (by omega)] at found
    rw [entryEq (by omega) found] at leads ⊢
    obtain ⟨⟨aligned, leaf, walked, atFrame⟩, isOk⟩ :=
      wired.windowed _ next ⟨path, parent, index, short, avoids, found, leads, rfl⟩
    refine ⟨⟨aligned, leaf, ?_, atFrame⟩, isOk⟩
    rw [rootEq, walk_of_agree agree]
    exact walked

theorem Wired.congr (wired : Wired ok fix machine) (tables : machine'.tables = machine.tables)
    (cr3 : machine'.cr3 = machine.cr3)
    (pml4 : (machine'.data.frames.page machine'.data.pml4).data =
      (machine.data.frames.page machine.data.pml4).data) : Wired ok fix machine' :=
  wired.agree (fun _ _ => by rw [tables]) cr3 pml4

theorem Wired.withFrames {frames : Frames} (wired : Wired ok fix machine)
    (samePage : frames.page = machine.data.frames.page) : Wired ok fix (machine.withFrames frames) := by
  refine ⟨wired.recursive, ?_, wired.separated, wired.small, wired.windowed⟩
  change (frames.page machine.data.pml4).data = _
  rw [samePage]
  exact wired.pml4

theorem Wired.blocked (wired : Wired ok fix machine) (notPml4 : page ≠ machine.data.pml4)
    (blocked : Blocked machine machine' page address) : Wired ok fix machine' := by
  apply wired.congr blocked.tables blocked.cr3
  rw [blocked.data]
  unfold setData Frames.setPage
  simp only
  rw [Function.update_of_ne (Ne.symm notPml4)]

/-! ### Calls -/

structure MapCall where
  frame : PagePtr
  address : Word
  flags : BitVec 32

/-- The call returns without a page fault. -/
def Kernel.Maps (machine : Kernel) (call : MapCall) (machine' : Kernel) : Prop :=
  (mmuMapPage call.frame call.address call.flags).run machine = some ((), machine')

/-- Between calls the next one returns, with its entry written or stopped by a
two-megabyte page. -/
theorem Wired.maps {call : MapCall} (real : call.frame ≠ .null) (wired : Wired ok fix machine)
    (supplied : Supplied ok machine call.address) :
    ∃ machine', machine.Maps call machine' ∧
      (Mapped machine machine' call.frame call.address call.flags ∨
        Blocked machine machine' call.frame call.address) := by
  obtain ⟨_, machine', ran, outcome⟩ :=
    (mmuMapPage_runs call.frame call.flags real (wired.mapReady supplied)).run
  exact ⟨machine', ran, outcome⟩

private theorem Blocked.not_of_tableAt {table : Frame} (blocked : Blocked machine machine' page address)
    (here : tableAt machine.tables machine.root (pathTo address 3) = some table) : False := by
  obtain ⟨pd, pdAt, _, isLarge⟩ := blocked.large
  obtain ⟨pd', pdAt', leads⟩ := tableAt_cons_eq_some_iff.mp here
  rw [pdAt] at pdAt'
  have same := Option.some.inj pdAt'
  subst same
  have notLarge : Paging.large (machine.tables pd (indexAt 1 address)) = false :=
    (tableOf_eq_some_iff.mp leads).2.1
  rw [isLarge] at notLarge
  cases notLarge

private theorem Mapped.tables_of_tableAt {table : Frame}
    (mapped : Mapped machine machine' page address flags)
    (here : tableAt machine.tables machine.root (pathTo address 3) = some table) :
    machine'.tables = setEntry machine.tables table (indexAt 0 address)
      (leafEntry machine page flags) := by
  obtain ⟨tables, table', built, here', tablesEq⟩ := mapped.built
  have none : machine.newTables address = [] := by
    unfold Kernel.newTables
    rw [missingBelow_of_tableAt here]
    rfl
  rw [none, List.map_nil] at built
  cases built with
  | done =>
    rw [here] at here'
    rw [tablesEq, ← Option.some.inj here']

theorem Wired.maps_of_tableAt (call : MapCall) {table : Frame} (real : call.frame ≠ .null)
    (wired : Wired ok fix machine) (supplied : Supplied ok machine call.address)
    (here : tableAt machine.tables machine.root (pathTo call.address 3) = some table) :
    ∃ machine', machine.Maps call machine' ∧ machine'.cr3 = machine.cr3 ∧
      machine'.tables = setEntry machine.tables table (indexAt 0 call.address)
        (leafEntry machine call.frame call.flags) := by
  obtain ⟨machine', maps, mapped | blocked⟩ := wired.maps real supplied
  · exact ⟨machine', maps, mapped.cr3, mapped.tables_of_tableAt here⟩
  · exact (blocked.not_of_tableAt here).elim

theorem Wired.outcome {call : MapCall} (real : call.frame ≠ .null) (wired : Wired ok fix machine)
    (supplied : Supplied ok machine call.address) (maps : machine.Maps call machine') :
    Mapped machine machine' call.frame call.address call.flags ∨
      Blocked machine machine' call.frame call.address := by
  obtain ⟨after, ran, outcome⟩ := wired.maps real supplied
  have same : after = machine' := by
    unfold Kernel.Maps at ran maps
    rw [ran] at maps
    exact congrArg Prod.snd (Option.some.inj maps)
  subst same
  exact outcome

theorem Wired.kept {call : MapCall} (real : call.frame ≠ .null) (wired : Wired ok fix machine)
    (supplied : Supplied ok machine call.address) (clear : Clear fix machine call.address)
    (notPml4 : call.frame ≠ machine.data.pml4) (maps : machine.Maps call machine') :
    Wired ok fix machine' := by
  rcases wired.outcome real supplied maps with mapped | blocked
  · exact wired.mapped supplied clear notPml4 mapped
  · exact wired.blocked notPml4 blocked

end Osdev64
