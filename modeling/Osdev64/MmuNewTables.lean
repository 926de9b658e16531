/-
What `mmu_map_page` installs with a new table.

A page for a new table comes from the free list as it is: no code clears it.  So a
new table has, beside the entry on the way to the requested page, whatever present
entries its page was left with, and the call makes all they lead to translate.
-/

import Osdev64.MmuGraph

namespace Osdev64

open Word64 Paging

/-- Each new table is on the way to the address and has exactly the entry on that way, and no
other page outside the recursive slot translates that did not before. -/
structure StartsEmpty (machine machine' : Kernel) (address : Word) : Prop where
  tables : ∀ t rest, t :: rest <:+ machine.newTables address →
    tableAt machine'.tables machine'.root (pathTo address (3 - rest.length)) = some (frameOf t) ∧
      ∀ index, present (machine'.tables (frameOf t) index) = true ↔ index = indexAt rest.length address
  translations : ∀ other, pml4e other ≠ mmuRe → walk machine.tables machine.root other = none →
    walk machine'.tables machine'.root other ≠ none → other.toNat / 4096 = address.toNat / 4096

/-- A call that adds tables.  The pages for the upper ones hold no present entry where the walk
goes on, as the code would take what it leads to for a table in use. -/
structure AddsTables (machine : Kernel) (call : MapCall) : Prop where
  real : call.frame ≠ .null
  isCanonical : canonical call.address = true
  small : NoLargePage machine call.address
  frame : (machine.data.frames.page call.frame).address.toNat % 4096 = 0
  spare : Spare machine call.address
  adds : machine.newTables call.address ≠ []
  clear : PathClear 1 machine.tables call.address (machine.newTables call.address)

/-- The flags have `PRESENT`, the pages for new tables hold no present entry off the way to the
address, and only that way leads to the table where the first of them is hung. -/
structure TakesEmpty (machine : Kernel) (call : MapCall) : Prop where
  isPresent : call.flags.getLsbD 0 = true
  empty : ∀ t rest, t :: rest <:+ machine.newTables call.address →
    ∀ index, index ≠ indexAt rest.length call.address → present (machine.tables (frameOf t) index) = false
  own : ∀ path, path.length ≤ 3 → Avoids mmuRe path →
    tableAt machine.tables machine.root path =
      tableAt machine.tables machine.root
        (pathTo call.address (3 - (machine.newTables call.address).length)) →
    path = pathTo call.address (3 - (machine.newTables call.address).length)

/-! ### Tables hung one below the other -/

/-- The tables are hung along the walk of the address, the first in a slot of `frame`, and the
page's entry is put into the last. -/
def hang (address leaf : Word) : List Word → Frame → Tables → Tables
  | [], frame, tables => setEntry tables frame (indexAt 0 address) leaf
  | t :: rest, frame, tables =>
    hang address leaf rest (frameOf t)
      (setEntry tables frame (indexAt (rest.length + 1) address) (tableEntry t))

/-- The entry that the first of them, or the page, is hung with. -/
def firstEntry (leaf : Word) : List Word → Word
  | [] => leaf
  | t :: _ => tableEntry t

variable {address leaf : Word} {newTables rest : List Word} {t : Word} {top frame root : Frame}
  {tables tables' : Tables}

theorem hang_elsewhere {other : Frame} (notTop : other ≠ top) (notNew : other ∉ newTables.map frameOf) :
    hang address leaf newTables top tables other = tables other := by
  induction newTables generalizing top tables with
  | nil =>
    funext place
    exact setEntry_of_ne fun same => notTop same.1
  | cons t rest ih =>
    rw [List.map_cons, List.mem_cons, not_or] at notNew
    refine (ih notNew.1 notNew.2).trans ?_
    funext place
    exact setEntry_of_ne fun same => notTop same.1

theorem hang_top (notNew : top ∉ newTables.map frameOf) (index : Index) :
    hang address leaf newTables top tables top index =
      if index = indexAt newTables.length address then firstEntry leaf newTables else tables top index := by
  cases newTables with
  | nil => simp [hang, setEntry, firstEntry]
  | cons t rest =>
    rw [List.map_cons, List.mem_cons, not_or] at notNew
    change hang address leaf rest (frameOf t) _ top index = _
    rw [hang_elsewhere notNew.1 notNew.2]
    simp [setEntry, firstEntry]

theorem hang_new (distinct : (newTables.map frameOf).Nodup) (notNew : top ∉ newTables.map frameOf)
    (suffix : t :: rest <:+ newTables) (index : Index) :
    hang address leaf newTables top tables (frameOf t) index =
      if index = indexAt rest.length address then firstEntry leaf rest else tables (frameOf t) index := by
  induction newTables generalizing top tables with
  | nil => exact absurd (List.suffix_nil.mp suffix) (List.cons_ne_nil t rest)
  | cons u more ih =>
    have member := List.mem_map_of_mem (f := frameOf) (suffix.mem List.mem_cons_self)
    have different : frameOf t ≠ top := fun same => notNew (same ▸ member)
    have before : setEntry tables top (indexAt (more.length + 1) address) (tableEntry u) (frameOf t) index =
        tables (frameOf t) index := setEntry_of_ne fun same => different same.1
    rw [List.map_cons, List.nodup_cons] at distinct
    rcases List.suffix_cons_iff.mp suffix with same | later
    · obtain ⟨rfl, rfl⟩ := List.cons.inj same
      change hang address leaf rest (frameOf t) _ (frameOf t) index = _
      rw [hang_top distinct.1, before]
    · change hang address leaf more (frameOf u) _ (frameOf t) index = _
      rw [ih distinct.2 distinct.1 later, before]

theorem present_tableEntry (aligned : t.toNat % 4096 = 0) : present (tableEntry t) = true :=
  (tableOf_eq_some_iff.mp (tableOf_tableEntry t aligned)).1

/-! ### What a call hangs -/

/-- The tables before and after a call that adds some. -/
structure Hung (tables tables' : Tables) (root : Frame) (address leaf : Word) (newTables : List Word)
    (top : Frame) : Prop where
  outside : indexAt 3 address ≠ mmuRe
  few : newTables.length ≤ 3
  aligned : ∀ t ∈ newTables, t.toNat % 4096 = 0
  distinct : (newTables.map frameOf).Nodup
  unused : ∀ path table, path.length ≤ 3 → Avoids mmuRe path → tableAt tables root path = some table →
    table ∉ newTables.map frameOf
  here : tableAt tables root (pathTo address (3 - newTables.length)) = some top
  absent : present (tables top (indexAt newTables.length address)) = false
  after : tables' = hang address leaf newTables top tables

theorem built_hang {middle : Tables} {table : Frame} (leaf : Word)
    (built : Built root address tables (newTables.map tableEntry) middle)
    (ends : tableAt middle root (pathTo address 3) = some table)
    (count : missingBelow tables address 3 root = newTables.length)
    (reserve : Reserve 1 tables root address newTables) :
    ∃ top, tableAt tables root (pathTo address (3 - newTables.length)) = some top ∧
      (newTables ≠ [] → present (tables top (indexAt newTables.length address)) = false) ∧
      setEntry middle table (indexAt 0 address) leaf = hang address leaf newTables top tables := by
  induction newTables generalizing tables with
  | nil =>
    cases built with
    | done => exact ⟨table, ends, fun impossible => absurd rfl impossible, rfl⟩
  | cons t rest ih =>
    cases built with
    | @add _ _ frame _ _ steps below here absent later =>
      -- the first absent entry is as many levels up as tables are missing
      have levels : 3 - steps = rest.length + 1 := by
        have missing := missingBelow_pathTo (by omega) here
        obtain ⟨level, isLevel⟩ : ∃ level, 3 - steps = level + 1 := ⟨2 - steps, by omega⟩
        rw [isLevel] at absent missing
        rw [missingBelow_absent absent, count, List.length_cons] at missing
        omega
      have remaining : rest.length = 3 - (steps + 1) := by omega
      have adds : AddsNext 1 steps tables
          (setEntry tables frame (indexAt (3 - steps) address) (tableEntry t)) root frame address
          t rest := ⟨reserve, below, remaining, here, absent, rfl⟩
      have count' : missingBelow (setEntry tables frame (indexAt (3 - steps) address) (tableEntry t))
          address 3 root = rest.length := by
        rw [missingBelow_pathTo (by omega) adds.next, remaining]
        exact missingBelow_clear _ adds.next_absent
      obtain ⟨top, topAt, _, after⟩ := ih later count' adds.reserve
      have sameSteps : 3 - rest.length = steps + 1 := by omega
      have steps' : 3 - (t :: rest).length = steps := by
        rw [List.length_cons]
        omega
      rw [sameSteps, adds.next] at topAt
      rw [levels] at absent after
      refine ⟨frame, by rw [steps']; exact here, fun _ => absent, ?_⟩
      rw [after, ← Option.some.inj topAt]
      rfl

section Spare

variable {machine machine' : Kernel} {page : PagePtr} {flags : BitVec 32} (spare : Spare machine address)
  (clear : PathClear 1 machine.tables address (machine.newTables address))

include spare

theorem Spare.dead {path : List Index} {table : Frame} (short : path.length ≤ 3)
    (found : tableAt machine.tables machine.root path = some table) :
    table ∉ (machine.newTables address).map frameOf := by
  intro member
  obtain ⟨t, isNew, same⟩ := List.mem_map.mp member
  exact spare.unused t isNew ⟨path, short, same ▸ found⟩

include clear

theorem Spare.reserve : Reserve 1 machine.tables machine.root address (machine.newTables address) where
  low := Nat.le_refl 1
  aligned := spare.aligned
  clear := clear
  distinct := spare.distinct
  unused _ inside _ found := spare.dead (by rw [length_pathTo]; exact inside) found

theorem Mapped.hung (mapped : Mapped machine machine' page address flags)
    (adds : machine.newTables address ≠ []) :
    ∃ top, Hung machine.tables machine'.tables machine.root address
      (leafEntry machine page flags) (machine.newTables address) top := by
  obtain ⟨middle, table, built, ends, after⟩ := mapped.built
  have count : missingBelow machine.tables address 3 machine.root =
      (machine.newTables address).length := (length_takeTables _ _).symm
  obtain ⟨top, here, absent, hungEq⟩ :=
    built_hang (leafEntry machine page flags) built ends count (spare.reserve clear)
  refine ⟨top, spare.outside, ?_, spare.aligned, spare.distinct,
    fun _ _ short _ found => spare.dead short found, here, absent adds, after.trans hungEq⟩
  rw [← count]
  exact missingBelow_le _ _ _ _

theorem TableGraph.runs (graph : TableGraph machine) (real : page ≠ .null)
    (small : ∀ level < 2, ∀ table, tableAt machine.tables machine.root (pathTo address level) = some table →
      present (machine.tables table (indexAt (3 - level) address)) = true →
      large (machine.tables table (indexAt (3 - level) address)) = false) :
    ∃ machine', (mmuMapPage page address flags).run machine = some ((), machine') ∧
      (Mapped machine machine' page address flags ∨ Blocked machine machine' page address) := by
  have passable : Passable 1 (fun _ => True) machine address 0 machine.root
      (plainPointer (machine.data.frames.page machine.data.pml4).data) (machine.newTables address) := by
    refine ⟨spare.reserve clear, ⟨rfl, recursive_reaches graph.recursive graph.pml4, ?_,
      fun level _ below => small level below, ?_⟩, ?_⟩
    · intro t impossible
      cases impossible
    · intro level _ below table next here leads
      exact ⟨graph.windowed _ next (links_pathTo spare.outside below here leads), trivial⟩
    · intro t member
      exact ⟨spare.reaches t member, trivial⟩
  have admits : Admits (fun _ => True) fun _ _ => True := fun _ _ _ _ _ _ => trivial
  obtain ⟨_, machine', ran, outcome⟩ := (passable.mmuMapPage_runs page flags real spare.available admits
    fun _ _ _ _ _ _ => trivial).run
  exact ⟨machine', ran, outcome⟩

end Spare

section Hung

variable (hung : Hung tables tables' root address leaf newTables top)
include hung

theorem Hung.top_notNew : top ∉ newTables.map frameOf :=
  hung.unused _ top (by rw [length_pathTo]; omega) (avoids_pathTo hung.outside _) hung.here

theorem Hung.slot : tables' top (indexAt newTables.length address) = firstEntry leaf newTables := by
  rw [hung.after, hang_top hung.top_notNew, if_pos rfl]

theorem Hung.new (suffix : t :: rest <:+ newTables) (index : Index) :
    tables' (frameOf t) index =
      if index = indexAt rest.length address then firstEntry leaf rest else tables (frameOf t) index := by
  rw [hung.after, hang_new hung.distinct hung.top_notNew suffix]

theorem Hung.entry_eq {path : List Index} {table : Frame} {index : Index} (short : path.length ≤ 3)
    (avoids : Avoids mmuRe path) (found : tableAt tables root path = some table)
    (different : ¬(table = top ∧ index = indexAt newTables.length address)) :
    tables' table index = tables table index := by
  have notNew := hung.unused path table short avoids found
  rw [hung.after]
  by_cases same : table = top
  · subst same
    rw [hang_top notNew, if_neg fun onSlot => different ⟨rfl, onSlot⟩]
  · rw [hang_elsewhere same notNew]

theorem Hung.tableAt_old {path : List Index} {table : Frame} (short : path.length ≤ 3)
    (avoids : Avoids mmuRe path) (found : tableAt tables root path = some table) :
    tableAt tables' root path = some table := by
  refine tableAt_of_kept ?_ short avoids found
  intro up parent index shortUp avoidsUp atParent isPresent
  refine hung.entry_eq (by omega) avoidsUp atParent ?_
  rintro ⟨rfl, rfl⟩
  rw [hung.absent] at isPresent
  cases isPresent

omit hung in
private theorem tableAt_chain {chain : List Word} {parent : Frame} (few : chain.length ≤ 3)
    (parentAt : tableAt tables' root (pathTo address (3 - chain.length)) = some parent)
    (slot : tables' parent (indexAt chain.length address) = firstEntry leaf chain)
    (links : ∀ t rest, t :: rest <:+ chain →
      tables' (frameOf t) (indexAt rest.length address) = firstEntry leaf rest)
    (aligned : ∀ t ∈ chain, t.toNat % 4096 = 0) (suffix : t :: rest <:+ chain) :
    tableAt tables' root (pathTo address (3 - rest.length)) = some (frameOf t) := by
  induction chain generalizing parent with
  | nil => exact absurd (List.suffix_nil.mp suffix) (List.cons_ne_nil t rest)
  | cons u more ih =>
    rw [List.length_cons] at few parentAt slot
    have next : tableAt tables' root (pathTo address (3 - more.length)) = some (frameOf u) := by
      obtain ⟨steps, isSteps⟩ : ∃ steps, 3 - (more.length + 1) = steps := ⟨_, rfl⟩
      have longer : 3 - more.length = steps + 1 := by omega
      have level : 3 - steps = more.length + 1 := by omega
      rw [isSteps] at parentAt
      rw [longer]
      refine tableAt_cons_eq_some_iff.mpr ⟨parent, parentAt, ?_⟩
      rw [level, slot]
      exact tableOf_tableEntry u (aligned u List.mem_cons_self)
    rcases List.suffix_cons_iff.mp suffix with same | later
    · obtain ⟨rfl, rfl⟩ := List.cons.inj same
      exact next
    · refine ih (by omega) next (links u more List.suffix_rfl) ?_ ?_ later
      · intro v rest' within
        exact links v rest' (within.trans (List.suffix_cons u more))
      · intro v member
        exact aligned v (List.mem_cons_of_mem u member)

theorem Hung.tableAt_new (suffix : t :: rest <:+ newTables) :
    tableAt tables' root (pathTo address (3 - rest.length)) = some (frameOf t) := by
  refine tableAt_chain hung.few (hung.tableAt_old ?_ (avoids_pathTo hung.outside _) hung.here) hung.slot ?_
    hung.aligned suffix
  · rw [length_pathTo]
    omega
  · intro u more within
    rw [hung.new within, if_pos rfl]

omit hung in
theorem Mapped.ends_of_spare {machine machine' : Kernel} {page : PagePtr} {flags : BitVec 32}
    (mapped : Mapped machine machine' page address flags) (spare : Spare machine address)
    (clear : PathClear 1 machine.tables address (machine.newTables address))
    (leveled : Leveled machine.tables machine.root mmuRe) :
    ∃ table, tableAt machine'.tables machine'.root (pathTo address 3) = some table ∧
      machine'.tables table (indexAt 0 address) = leafEntry machine page flags := by
  by_cases none : machine.newTables address = []
  · have supplied : Supplied (fun _ => True) machine address :=
      ⟨spare.outside, spare.available, spare.aligned, by simp [none], spare.distinct, spare.unused⟩
    exact mapped.ends supplied leveled
  · obtain ⟨top, hung⟩ := mapped.hung spare clear none
    have last : [(machine.newTables address).getLast none] <:+ machine.newTables address :=
      ⟨(machine.newTables address).dropLast, List.dropLast_concat_getLast none⟩
    refine ⟨frameOf ((machine.newTables address).getLast none), ?_, ?_⟩
    · rw [Machine.root_congr mapped.cr3]
      exact hung.tableAt_new last
    · rw [hung.new last]
      exact if_pos rfl

/-! ### One entry each -/

/-- Each new table has exactly the entry on the way. -/
def Lone (tables' : Tables) (address : Word) (newTables : List Word) : Prop :=
  ∀ t rest, t :: rest <:+ newTables →
    ∀ index, present (tables' (frameOf t) index) = true ↔ index = indexAt rest.length address

theorem Hung.present_first (isPresent : present leaf = true) (suffix : rest <:+ newTables) :
    present (firstEntry leaf rest) = true := by
  cases rest with
  | nil => exact isPresent
  | cons u more => exact present_tableEntry (hung.aligned u (suffix.mem List.mem_cons_self))

theorem Hung.lone_iff (adds : newTables ≠ []) :
    Lone tables' address newTables ↔ present leaf = true ∧
      ∀ t rest, t :: rest <:+ newTables → ∀ index, index ≠ indexAt rest.length address →
        present (tables (frameOf t) index) = false := by
  constructor
  · intro lone
    constructor
    · have last : [newTables.getLast adds] <:+ newTables :=
        ⟨newTables.dropLast, List.dropLast_concat_getLast adds⟩
      have onWay := (lone _ _ last (indexAt ([] : List Word).length address)).mpr rfl
      rw [hung.new last, if_pos rfl] at onWay
      exact onWay
    · intro t rest suffix index offWay
      rw [← Bool.not_eq_true]
      intro isPresent
      apply offWay
      rw [← lone t rest suffix index, hung.new suffix, if_neg offWay]
      exact isPresent
  · rintro ⟨isPresent, empty⟩ t rest suffix index
    rw [hung.new suffix]
    by_cases onWay : index = indexAt rest.length address
    · rw [if_pos onWay]
      exact iff_of_true (hung.present_first isPresent ((List.suffix_cons t rest).trans suffix)) onWay
    · rw [if_neg onWay, empty t rest suffix index onWay]
      exact iff_of_false Bool.false_ne_true onWay

theorem Hung.walkFrom_new (lone : Lone tables' address newTables) (other : Word)
    (suffix : t :: rest <:+ newTables) :
    walkFrom tables' other (rest.length + 1) (frameOf t) ≠ none ↔
      ∀ level ≤ rest.length, indexAt level other = indexAt level address := by
  induction rest generalizing t with
  | nil =>
    have entry : present (tables' (frameOf t) (indexAt 0 other)) = true ↔
        indexAt 0 other = indexAt 0 address := lone t [] suffix (indexAt 0 other)
    constructor
    · intro found level atMost
      have zero : level = 0 := Nat.le_zero.mp atMost
      rw [zero, ← entry]
      by_contra absent
      exact found (walkFrom_absent 0 _ (by simpa using absent))
    · intro same
      have isPresent := entry.mpr (same 0 (Nat.le_refl 0))
      simp [walkFrom, isPresent]
  | cons u more ih =>
    have within : u :: more <:+ newTables := (List.suffix_cons t _).trans suffix
    have entry : present (tables' (frameOf t) (indexAt (more.length + 1) other)) = true ↔
        indexAt (more.length + 1) other = indexAt (more.length + 1) address :=
      lone t (u :: more) suffix (indexAt (more.length + 1) other)
    by_cases onWay : indexAt (more.length + 1) other = indexAt (more.length + 1) address
    · have leads : tableOf (tables' (frameOf t) (indexAt (more.length + 1) other)) = some (frameOf u) := by
        rw [hung.new suffix, List.length_cons, if_pos onWay]
        exact tableOf_tableEntry u (hung.aligned u (within.mem List.mem_cons_self))
      rw [List.length_cons, walkFrom_step (more.length + 1) _ _ leads, Ne, Option.map_eq_none_iff, ← Ne, ih within]
      constructor
      · intro same level atMost
        rcases Nat.lt_or_eq_of_le atMost with below | rfl
        · exact same level (by omega)
        · exact onWay
      · intro same level atMost
        exact same level (by omega)
    · constructor
      · intro found
        refine absurd (walkFrom_absent (more.length + 1) (frameOf t) ?_) found
        rw [← Bool.not_eq_true, entry]
        exact onWay
      · intro same
        exact absurd (same _ (Nat.le_refl _)) onWay

/-! ### New translations -/

theorem Hung.through_slot {other : Word} (leveled : Leveled tables root mmuRe)
    (outside : indexAt 3 other ≠ mmuRe) (changed : walk tables' root other ≠ walk tables root other) :
    tableAt tables root (pathTo other (3 - newTables.length)) = some top ∧
      indexAt newTables.length other = indexAt newTables.length address := by
  have few := hung.few
  by_contra elsewhere
  apply changed
  apply walk_congr
  intro steps below table found
  refine hung.entry_eq (by rw [length_pathTo]; omega) (avoids_pathTo outside steps) found ?_
  rintro ⟨rfl, onSlot⟩
  have lengths := leveled _ _ _ (by rw [length_pathTo]; omega) (by rw [length_pathTo]; omega)
    (avoids_pathTo outside steps) (avoids_pathTo hung.outside _) found hung.here
  rw [length_pathTo, length_pathTo] at lengths
  subst lengths
  have level : 3 - (3 - newTables.length) = newTables.length := by omega
  rw [level] at onSlot
  exact elsewhere ⟨found, onSlot⟩

/-- A walk through the slot finds nothing before, and after what it finds in the new tables. -/
theorem Hung.walk_slot {other : Word} (lone : Lone tables' address newTables) (adds : newTables ≠ [])
    (outside : indexAt 3 other ≠ mmuRe)
    (found : tableAt tables root (pathTo other (3 - newTables.length)) = some top)
    (onSlot : indexAt newTables.length other = indexAt newTables.length address) :
    walk tables root other = none ∧
      (walk tables' root other ≠ none ↔ canonical other = true ∧
        ∀ level < newTables.length, indexAt level other = indexAt level address) := by
  have few := hung.few
  have levels : 4 - (3 - newTables.length) = newTables.length + 1 := by omega
  have nothing : walkFrom tables other 4 root = none := by
    rw [walkFrom_pathTo (by omega) found, levels]
    apply walkFrom_absent
    rw [onSlot]
    exact hung.absent
  have found' := hung.tableAt_old (by rw [length_pathTo]; omega) (avoids_pathTo outside _) found
  cases newTables with
  | nil => exact absurd rfl adds
  | cons t rest =>
    have leads : tableOf (tables' top (indexAt (rest.length + 1) other)) = some (frameOf t) := by
      rw [List.length_cons] at onSlot
      rw [onSlot, ← List.length_cons, hung.slot]
      exact tableOf_tableEntry t (hung.aligned t List.mem_cons_self)
    have inside : walkFrom tables' other 4 root ≠ none ↔
        ∀ level < (t :: rest).length, indexAt level other = indexAt level address := by
      rw [Ne, walkFrom_pathTo (by omega) found', levels, List.length_cons,
        walkFrom_step (rest.length + 1) top _ leads, Option.map_eq_none_iff, ← Ne,
        hung.walkFrom_new lone other List.suffix_rfl]
      simp only [Nat.lt_succ_iff]
    unfold walk
    by_cases isCanonical : canonical other = true
    · rw [if_pos isCanonical, if_pos isCanonical, inside]
      exact ⟨nothing, by simp [isCanonical]⟩
    · rw [if_neg isCanonical, if_neg isCanonical]
      exact ⟨rfl, by simp [isCanonical]⟩

/-- The requested page is the only new one exactly if no other way leads to the slot. -/
theorem Hung.translations_iff (lone : Lone tables' address newTables) (adds : newTables ≠ [])
    (leveled : Leveled tables root mmuRe) (isCanonical : canonical address = true) :
    (∀ other, indexAt 3 other ≠ mmuRe → walk tables root other = none →
        walk tables' root other ≠ none → other.toNat / 4096 = address.toNat / 4096) ↔
      ∀ path, path.length ≤ 3 → Avoids mmuRe path → tableAt tables root path = some top →
        path = pathTo address (3 - newTables.length) := by
  have few := hung.few
  constructor
  · intro only path short avoids found
    have length : path.length = 3 - newTables.length := by
      have lengths := leveled _ _ _ short (by rw [length_pathTo]; omega) avoids
        (avoids_pathTo hung.outside _) found hung.here
      rwa [length_pathTo] at lengths
    cases path with
    | nil =>
      rw [← length]
      rfl
    | cons index up =>
      obtain ⟨other, otherCanonical, onPath, below⟩ := exists_address_below (index :: up) short address
      rw [length] at onPath below
      have outside : indexAt 3 other ≠ mmuRe := by
        rw [← onPath, ← length] at avoids
        exact outside_of_avoids avoids
      rw [← onPath] at found
      obtain ⟨before, after⟩ := hung.walk_slot lone adds outside found (below _ (by omega))
      have page := only other outside before (after.mpr ⟨otherCanonical, fun level low => below level (by omega)⟩)
      rw [← onPath]
      exact pathTo_congr fun level _ => indexAt_page page level
  · intro own other outside before after
    obtain ⟨found, onSlot⟩ := hung.through_slot leveled outside (by rw [before]; exact after)
    have onPath := own _ (by rw [length_pathTo]; omega) (avoids_pathTo outside _) found
    obtain ⟨otherCanonical, below⟩ := (hung.walk_slot lone adds outside found onSlot).2.mp after
    refine samePage_of_indices otherCanonical isCanonical ?_
    intro level low
    rcases Nat.lt_trichotomy level newTables.length with under | rfl | above
    · exact below level under
    · exact onSlot
    · exact indexAt_of_pathTo onPath (by omega) low

end Hung

/-! ### The call -/

variable {machine machine' : Kernel} {call : MapCall}

theorem AddsTables.runs (graph : TableGraph machine) (adds : AddsTables machine call) :
    ∃ machine', machine.Maps call machine' ∧
      Mapped machine machine' call.frame call.address call.flags := by
  obtain ⟨machine', ran, mapped | blocked⟩ := graph.runs adds.spare adds.clear adds.real
    fun level below => adds.small level (by omega)
  · exact ⟨machine', ran, mapped⟩
  · exact (blocked.not_small adds.small).elim

/-- New tables start empty exactly if their pages did, off the way to the address, and nothing
else leads to the slot where they are hung. -/
theorem startsEmpty_iff (machine : Kernel) (call : MapCall) (graph : TableGraph machine)
    (adds : AddsTables machine call) :
    ∃ machine', machine.Maps call machine' ∧
      (StartsEmpty machine machine' call.address ↔ TakesEmpty machine call) := by
  obtain ⟨machine', maps, mapped⟩ := adds.runs graph
  obtain ⟨top, hung⟩ := mapped.hung adds.spare adds.clear adds.adds
  have rootEq := Machine.root_congr mapped.cr3
  have leafPresent : present (leafEntry machine call.frame call.flags) = call.flags.getLsbD 0 :=
    getLsbD_leaf adds.frame call.flags (by decide)
  have loneIff := hung.lone_iff adds.adds
  rw [leafPresent] at loneIff
  refine ⟨machine', maps, ?_⟩
  constructor
  · intro starts
    have lone : Lone machine'.tables call.address (machine.newTables call.address) :=
      fun t rest suffix => (starts.tables t rest suffix).2
    obtain ⟨isPresent, empty⟩ := loneIff.mp lone
    refine ⟨isPresent, empty, ?_⟩
    rw [hung.here]
    refine (hung.translations_iff lone adds.adds graph.leveled adds.isCanonical).mp ?_
    have only := starts.translations
    simp only [pml4e_eq, rootEq] at only
    exact only
  · intro takes
    have lone := loneIff.mpr ⟨takes.isPresent, takes.empty⟩
    refine ⟨fun t rest suffix => ⟨by rw [rootEq]; exact hung.tableAt_new suffix, lone t rest suffix⟩, ?_⟩
    simp only [pml4e_eq, rootEq]
    refine (hung.translations_iff lone adds.adds graph.leveled adds.isCanonical).mpr ?_
    have own := takes.own
    rw [hung.here] at own
    exact own

/-! ### Memory with leftovers -/

/-- The small machine after `pmm_init` and `mmu_init`, on any memory. -/
def lowKernelOn (memory : Tables) : Kernel :=
  initialised (bootKernel memory
    { frames := pmmInit lowMap 0xFFFFFFFF8010C000 Frames.blank, pml4 := .null })

variable {memory : Tables}

theorem lowKernelOn_data (memory : Tables) : (lowKernelOn memory).data = lowKernel.data := by
  unfold lowKernelOn lowKernel
  rw [initialised_data, initialised_data]

theorem lowKernelOn_graph (clean : CleanPt2 memory) : TableGraph (lowKernelOn memory) :=
  (initialised_wired clean fun _ _ => trivial : Wired (fun _ => True) bootFix _).tableGraph

theorem lowKernelOn_newTables (memory : Tables) (address : Word) :
    ∃ free used, Pool (lowKernelOn memory).data.frames free used ∧
      (lowKernelOn memory).Stocked address ∧
      (∀ i ∈ free, (frameOf (pageAddress i)).toNat < 0x3F1 ∨ 0x3F5 < (frameOf (pageAddress i)).toNat) ∧
      ∀ t ∈ (lowKernelOn memory).newTables address, t.toNat % 4096 = 0 ∧ t.toNat < 0x400000 ∧
        (lowKernelOn memory).tables (frameOf t) = memory (frameOf t) := by
  obtain ⟨_, _, free, used, pool, enough, notTables⟩ := lowKernel_pool
  have apart : ∀ i ∈ free,
      (frameOf (pageAddress i)).toNat < 0x3F1 ∨ 0x3F5 < (frameOf (pageAddress i)).toNat := by
    intro i member
    rw [(lowKernel_frame pool (Or.inl member)).1]
    exact (notTables i member).2
  have each : ∀ i ∈ free, (pageAddress i).toNat % 4096 = 0 ∧ (pageAddress i).toNat < 0x400000 := by
    intro i member
    obtain ⟨_, value, below⟩ := lowKernel_frame pool (Or.inl member)
    omega
  rw [← lowKernelOn_data memory] at pool
  have stocked : (lowKernelOn memory).Stocked address :=
    ⟨free, pool.freeRing, Nat.le_trans (missingBelow_le _ _ _ _) (by omega)⟩
  refine ⟨free, used, pool, stocked, apart, ?_⟩
  intro t member
  rw [(pool.newTables stocked).2] at member
  obtain ⟨i, taken, rfl⟩ := List.mem_map.mp member
  have inFree := List.mem_of_mem_take taken
  obtain ⟨aligned, below⟩ := each i inFree
  exact ⟨aligned, below, funext fun place => initialised_elsewhere (apart i inFree) place⟩

theorem lowKernelOn_slotOne (memory : Tables) {address : Word} (slotOne : address = 0x8000000000) :
    present ((lowKernelOn memory).tables (lowKernelOn memory).root (indexAt 3 address)) = false ∧
      ((lowKernelOn memory).newTables address).length = 3 := by
  have absent : present ((lowKernelOn memory).tables (lowKernelOn memory).root (indexAt 3 address)) = false := by
    have slot : indexAt 3 address = 1 := by
      rw [slotOne]
      decide
    rw [slot]
    exact initialised_slotOne
  refine ⟨absent, ?_⟩
  unfold Kernel.newTables
  rw [length_takeTables]
  exact missingBelow_absent absent

theorem lowKernelOn_index {address : Word} (slotOne : address = 0x8000000000)
    (suffix : t :: rest <:+ (lowKernelOn memory).newTables address) : indexAt rest.length address = 0 := by
  have short := suffix.length_le
  rw [(lowKernelOn_slotOne memory slotOne).2, List.length_cons] at short
  rw [slotOne]
  have cases : rest.length = 0 ∨ rest.length = 1 ∨ rest.length = 2 := by omega
  rcases cases with isLength | isLength | isLength <;> rw [isLength] <;> decide

theorem lowKernelOn_adds (clean : CleanPt2 memory) (first : ∀ frame, present (memory frame 0) = false)
    (call : MapCall) (frame : call.frame = .elem 0x200) (slotOne : call.address = 0x8000000000) :
    AddsTables (lowKernelOn memory) call := by
  obtain ⟨absent, count⟩ := lowKernelOn_slotOne memory slotOne
  obtain ⟨free, used, pool, stocked, apart, each⟩ := lowKernelOn_newTables memory call.address
  refine ⟨frame ▸ PagePtr.noConfusion, ?_, ?_, ?_, ?_, ?_, ?_⟩
  · rw [slotOne]
    decide
  · exact noLargePage_of_absent absent
  · rw [lowKernelOn_data, frame, lowKernel_page (by decide)]
    decide
  · refine pool.spare ?_ ?_ stocked ?_ ?_
    · rw [lowKernelOn_data, lowKernel_pool.2.1]
      decide
    · rw [slotOne]
      decide
    · intro t member
      obtain ⟨aligned, below, _⟩ := each t member
      exact initialised_window clean aligned below
    · intro i member live
      have root : (lowKernelOn memory).root = 0x3F1 := initialised_root
      rw [root] at live
      have bounds := initialised_live live
      have := apart i member
      omega
  · intro none
    rw [none] at count
    cases count
  · intro t rest suffix _
    obtain ⟨_, _, same⟩ := each t (suffix.mem List.mem_cons_self)
    rw [same, lowKernelOn_index slotOne suffix]
    exact first _

/-- On empty memory the new tables have one entry each. -/
theorem startsEmpty_slotOne :
    ∃ machine', (lowKernelOn fun _ _ => 0).Maps ⟨.elem 0x200, 0x8000000000, 3⟩ machine' ∧
      StartsEmpty (lowKernelOn fun _ _ => 0) machine' 0x8000000000 := by
  have graph := lowKernelOn_graph zero_clean
  obtain ⟨machine', maps, exactly⟩ := startsEmpty_iff (lowKernelOn fun _ _ => 0)
    ⟨.elem 0x200, 0x8000000000, 3⟩ graph (lowKernelOn_adds zero_clean (fun _ => by decide) _ rfl rfl)
  refine ⟨machine', maps, exactly.mpr ⟨by decide, ?_, ?_⟩⟩
  · intro t rest suffix index _
    obtain ⟨_, _, _, _, _, each⟩ := lowKernelOn_newTables (fun _ _ => 0) 0x8000000000
    rw [(each t (suffix.mem List.mem_cons_self)).2.2]
    exact (by decide : present 0 = false)
  · intro path short avoids same
    have count := (lowKernelOn_slotOne (fun _ _ => 0) (rfl : (0x8000000000 : Word) = _)).2
    change _ = tableAt _ _ (pathTo 0x8000000000 (3 - _)) at same
    rw [count] at same ⊢
    have lengths := graph.leveled path [] _ short (by simp) avoids avoids_nil same rfl
    exact List.length_eq_zero_iff.mp lengths

/-- A page directory's worth of leftovers: entry 5 of every frame is present. -/
def leftovers : Tables := fun _ index => if index = 5 then 0x5003 else 0

theorem leftovers_clean : CleanPt2 leftovers := by
  intro index
  unfold leftovers
  split
  · decide
  · decide

theorem leftovers_first (frame : Frame) : present (leftovers frame 0) = false := by
  unfold leftovers
  rw [if_neg (by decide)]
  decide

/-- The new tables still have the entry 5 of the pages they were made from. -/
theorem leftovers_installed :
    AddsTables (lowKernelOn leftovers) ⟨.elem 0x200, 0x8000000000, 3⟩ ∧
      ∃ machine', (lowKernelOn leftovers).Maps ⟨.elem 0x200, 0x8000000000, 3⟩ machine' ∧
        (∀ t ∈ (lowKernelOn leftovers).newTables 0x8000000000,
          present (machine'.tables (frameOf t) 5) = true) ∧
        ¬StartsEmpty (lowKernelOn leftovers) machine' 0x8000000000 := by
  have adds := lowKernelOn_adds leftovers_clean leftovers_first
    ⟨.elem 0x200, 0x8000000000, 3⟩ rfl rfl
  obtain ⟨machine', maps, mapped⟩ := adds.runs (lowKernelOn_graph leftovers_clean)
  obtain ⟨top, hung⟩ := mapped.hung adds.spare adds.clear adds.adds
  have still : ∀ t rest, t :: rest <:+ (lowKernelOn leftovers).newTables 0x8000000000 →
      indexAt rest.length 0x8000000000 = 0 ∧ present (machine'.tables (frameOf t) 5) = true := by
    intro t rest suffix
    have index := lowKernelOn_index rfl suffix
    obtain ⟨_, _, _, _, _, each⟩ := lowKernelOn_newTables leftovers 0x8000000000
    have offWay : (5 : Index) ≠ indexAt rest.length 0x8000000000 := by
      rw [index]
      decide
    refine ⟨index, ?_⟩
    rw [hung.new suffix, if_neg offWay, (each t (suffix.mem List.mem_cons_self)).2.2]
    exact (by decide : present 0x5003 = true)
  refine ⟨adds, machine', maps, ?_, ?_⟩
  · intro t member
    obtain ⟨front, rest, split⟩ := List.append_of_mem member
    exact (still t rest ⟨front, split.symm⟩).2
  · intro starts
    obtain ⟨t, rest, isNew⟩ := List.exists_cons_of_ne_nil adds.adds
    have suffix : t :: rest <:+ (lowKernelOn leftovers).newTables 0x8000000000 := ⟨[], isNew.symm⟩
    obtain ⟨index, isPresent⟩ := still t rest suffix
    have onWay := ((starts.tables t rest suffix).2 5).mp isPresent
    rw [index] at onWay
    exact absurd onWay (by decide)

end Osdev64
