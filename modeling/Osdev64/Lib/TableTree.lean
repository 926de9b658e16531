/-
The graph of tables below a root.

Apart from one slot `re` of the root, which may lead back to the root itself,
tables are told apart by the paths that lead to them, up to the sharing that
`fix` describes: `fix path index` is the slot whose table the slot `index` of
the table at `path` repeats.  Adding an empty table and changing an entry of a
page table keep this, and say which walks they can change.
-/

import Osdev64.Lib.Paging
import Mathlib.Data.List.Induction

namespace Paging

open Word64

/-- Frames reached as a table of some level. -/
def Live (tables : Tables) (root frame : Frame) : Prop :=
  ∃ path : List Index, path.length ≤ 3 ∧ tableAt tables root path = some frame

/-- The path does not start in the slot `re` of the root. -/
def Avoids (re : Index) (path : List Index) : Prop := path.getLast? ≠ some re

/-- The path with every repeated slot replaced by the one it repeats. -/
def unshare (fix : List Index → Index → Index) : List Index → List Index
  | [] => []
  | index :: path => fix (unshare fix path) index :: unshare fix path

def Separated (tables : Tables) (root : Frame) (re : Index)
    (fix : List Index → Index → Index) : Prop :=
  ∀ left right frame, left.length ≤ 3 → right.length ≤ 3 → Avoids re left → Avoids re right →
    tableAt tables root left = some frame → tableAt tables root right = some frame →
    unshare fix left = unshare fix right

/-- Paths to the same table have the same key. -/
def ToldApart {κ : Type} (tables : Tables) (root : Frame) (re : Index) (key : List Index → κ) : Prop :=
  ∀ left right frame, left.length ≤ 3 → right.length ≤ 3 → Avoids re left → Avoids re right →
    tableAt tables root left = some frame → tableAt tables root right = some frame →
    key left = key right

/-- No frame is a table of two levels. -/
def Leveled (tables : Tables) (root : Frame) (re : Index) : Prop :=
  ToldApart tables root re List.length

/-- The key of a path is that of its parent and its last slot. -/
def Congruent {κ : Type} (key : List Index → κ) : Prop :=
  ∀ index left right, key left = key right → key (index :: left) = key (index :: right)

/-- The walks of both addresses end in the same entry of the same table. -/
def SameEntry (fix : List Index → Index → Index) (left right : Word) : Prop :=
  unshare fix (pathTo left 4) = unshare fix (pathTo right 4)

variable {tables : Tables} {root frame fresh : Frame} {re index : Index} {path : List Index}
  {fix : List Index → Index → Index} {entry address : Word}

@[simp] theorem length_unshare (fix : List Index → Index → Index)
    (path : List Index) : (unshare fix path).length = path.length := by
  induction path with
  | nil => rfl
  | cons index path ih => simp [unshare, ih]

theorem avoids_nil : Avoids re [] := by
  simp [Avoids]

theorem Avoids.tail (avoids : Avoids re (index :: path)) : Avoids re path := by
  cases path with
  | nil => exact avoids_nil
  | cons next rest => simpa [Avoids] using avoids

theorem Avoids.cons_root (different : index ≠ re) : Avoids re [index] := by
  simpa [Avoids] using different

theorem avoids_pathTo (outside : indexAt 3 address ≠ re) (steps : Nat) :
    Avoids re (pathTo address steps) := by
  cases steps with
  | zero => exact avoids_nil
  | succ steps =>
    induction steps with
    | zero => exact Avoids.cons_root outside
    | succ steps ih =>
      simp only [pathTo] at ih ⊢
      simpa [Avoids] using ih

theorem outside_of_avoids {steps : Nat} (avoids : Avoids re (pathTo address (steps + 1))) :
    indexAt 3 address ≠ re := by
  induction steps with
  | zero => simpa [Avoids, pathTo] using avoids
  | succ steps ih => exact ih avoids.tail

theorem congruent_length : Congruent List.length := by
  intro index left right same
  rw [List.length_cons, List.length_cons, same]

theorem congruent_unshare (fix : List Index → Index → Index) : Congruent (unshare fix) := by
  intro index left right same
  simp only [unshare, same]

theorem Separated.leveled (separated : Separated tables root re fix) : Leveled tables root re := by
  intro left right frame shortLeft shortRight avoidsLeft avoidsRight atLeft atRight
  have same := separated left right frame shortLeft shortRight avoidsLeft avoidsRight atLeft atRight
  rw [← length_unshare fix left, same, length_unshare]

theorem Avoids.ne_of_unshare_nil (avoids : Avoids re (index :: path))
    (atRoot : unshare fix path = []) : index ≠ re := by
  have empty : path = [] := by
    rw [← List.length_eq_zero_iff, ← length_unshare fix path, atRoot]
    rfl
  subst empty
  simpa [Avoids] using avoids

/-! ### The recursive slot -/

theorem tableAt_append (path : List Index) (first : Index) :
    tableAt tables root (path ++ [first]) =
      (tableOf (tables root first)).bind fun next => tableAt tables next path := by
  induction path with
  | nil => simp [tableAt]
  | cons index path ih =>
    simp only [List.cons_append, tableAt, ih]
    cases tableOf (tables root first) with
    | none => rfl
    | some next => rfl

theorem live_iff_avoids (recursive : tableOf (tables root re) = some root) :
    Live tables root frame ↔
      ∃ path : List Index, path.length ≤ 3 ∧ Avoids re path ∧
        tableAt tables root path = some frame := by
  constructor
  · rintro ⟨path, short, here⟩
    induction path using List.reverseRecOn with
    | nil => exact ⟨[], short, avoids_nil, here⟩
    | append_singleton path first ih =>
      by_cases returns : first = re
      · subst returns
        rw [tableAt_append, recursive] at here
        rw [List.length_append] at short
        exact ih (by omega) here
      · exact ⟨path ++ [first], short, by simpa [Avoids] using returns, here⟩
  · rintro ⟨path, short, _, here⟩
    exact ⟨path, short, here⟩

theorem tableAt_of_kept {tables' : Tables}
    (kept : ∀ up table index, up.length ≤ 2 → Avoids re up → tableAt tables root up = some table →
      present (tables table index) = true → tables' table index = tables table index)
    (short : path.length ≤ 3) (avoids : Avoids re path) (here : tableAt tables root path = some frame) :
    tableAt tables' root path = some frame := by
  induction path generalizing frame with
  | nil => exact here
  | cons index path ih =>
    rw [List.length_cons] at short
    obtain ⟨parent, atParent, leads⟩ := tableAt_cons_eq_some_iff.mp here
    refine tableAt_cons_eq_some_iff.mpr ⟨parent, ih (by omega) avoids.tail atParent, ?_⟩
    rw [kept path parent index (by omega) avoids.tail atParent (tableOf_eq_some_iff.mp leads).1]
    exact leads

/-! ### Adding a table -/

/-- An unused slot of a table above the page tables, and an empty frame no path leads to. -/
structure Vacant (tables : Tables) (root : Frame) (re : Index) (path : List Index)
    (frame : Frame) (index : Index) (fresh : Frame) : Prop where
  here : tableAt tables root path = some frame
  short : path.length ≤ 2
  avoids : Avoids re (index :: path)
  absent : present (tables frame index) = false
  blank : ∀ place, present (tables fresh place) = false
  unused : ∀ other : List Index, other.length ≤ 3 → Avoids re other →
    tableAt tables root other ≠ some fresh

theorem Vacant.different (vacant : Vacant tables root re path frame index fresh) :
    fresh ≠ frame := by
  rintro rfl
  exact vacant.unused path (by have := vacant.short; omega) vacant.avoids.tail vacant.here

theorem Vacant.tableAt_cases (vacant : Vacant tables root re path frame index fresh)
    (leads : tableOf entry = some fresh) {other : List Index} {table : Frame}
    (short : other.length ≤ 3) (avoids : Avoids re other)
    (found : tableAt (setEntry tables frame index entry) root other = some table) :
    tableAt tables root other = some table ∨
      table = fresh ∧ ∃ up, other = index :: up ∧ tableAt tables root up = some frame := by
  induction other generalizing table with
  | nil => exact Or.inl found
  | cons place up ih =>
    obtain ⟨parent, atParent, toTable⟩ := tableAt_cons_eq_some_iff.mp found
    have shortUp : up.length ≤ 3 := by
      rw [List.length_cons] at short
      omega
    rcases ih shortUp avoids.tail atParent with old | ⟨rfl, _⟩
    · by_cases slot : parent = frame ∧ place = index
      · obtain ⟨rfl, rfl⟩ := slot
        rw [setEntry_same, leads] at toTable
        exact Or.inr ⟨(Option.some.inj toTable).symm, up, rfl, old⟩
      · rw [setEntry_of_ne slot] at toTable
        exact Or.inl (tableAt_cons_eq_some_iff.mpr ⟨parent, old, toTable⟩)
    · -- the new table has no present entry, so no path goes on from it
      rw [setEntry_of_ne (fun slot => vacant.different slot.1)] at toTable
      have isPresent := (tableOf_eq_some_iff.mp toTable).1
      rw [vacant.blank place] at isPresent
      cases isPresent

theorem Vacant.toldApart {κ : Type} {key : List Index → κ}
    (vacant : Vacant tables root re path frame index fresh) (leads : tableOf entry = some fresh)
    (congruent : Congruent key) (apart : ToldApart tables root re key) :
    ToldApart (setEntry tables frame index entry) root re key := by
  intro left right table shortLeft shortRight avoidsLeft avoidsRight atLeft atRight
  rcases vacant.tableAt_cases leads shortLeft avoidsLeft atLeft with oldLeft | ⟨rfl, up, rfl, upAt⟩
  · rcases vacant.tableAt_cases leads shortRight avoidsRight atRight with oldRight | ⟨rfl, _⟩
    · exact apart left right table shortLeft shortRight avoidsLeft avoidsRight oldLeft oldRight
    · exact absurd oldLeft (vacant.unused left shortLeft avoidsLeft)
  · rcases vacant.tableAt_cases leads shortRight avoidsRight atRight with
      oldRight | ⟨_, up', rfl, upAt'⟩
    · exact absurd oldRight (vacant.unused right shortRight avoidsRight)
    · rw [List.length_cons] at shortLeft shortRight
      exact congruent index up up' (apart up up' frame (by omega) (by omega) avoidsLeft.tail
        avoidsRight.tail upAt upAt')

private theorem Vacant.walkFrom_eq (vacant : Vacant tables root re path frame index fresh)
    (leads : tableOf entry = some fresh) (leveled : Leveled tables root re)
    (outside : indexAt 3 address ≠ re) (level : Nat) (low : level ≤ 4) (table : Frame)
    (here : tableAt tables root (pathTo address (4 - level)) = some table) :
    walkFrom (setEntry tables frame index entry) address level table =
      walkFrom tables address level table := by
  induction level generalizing table with
  | zero => rfl
  | succ level ih =>
    by_cases slot : table = frame ∧ indexAt level address = index
    · obtain ⟨rfl, rfl⟩ := slot
      rw [walkFrom_absent level table vacant.absent]
      have notLast : 0 < level := by
        have lengths := leveled _ _ _ (by rw [length_pathTo]; omega)
          (by have := vacant.short; omega) (avoids_pathTo outside _) vacant.avoids.tail
          here vacant.here
        rw [length_pathTo] at lengths
        have := vacant.short
        omega
      obtain ⟨lower, rfl⟩ : ∃ lower, level = lower + 1 := ⟨level - 1, by omega⟩
      have blank : present (setEntry tables table (indexAt (lower + 1) address) entry fresh
          (indexAt lower address)) = false := by
        rw [setEntry_of_ne (fun same => vacant.different same.1)]
        exact vacant.blank _
      rw [walkFrom_step (lower + 1) table fresh (by rw [setEntry_same]; exact leads),
        walkFrom_absent lower fresh blank]
      rfl
    · apply walkFrom_congr_step (setEntry_of_ne slot)
      intro next _ leadsOn
      exact ih (by omega) next (tableAt_pathTo_next low here leadsOn)

theorem Vacant.walk_eq (vacant : Vacant tables root re path frame index fresh)
    (leads : tableOf entry = some fresh) (leveled : Leveled tables root re)
    (outside : indexAt 3 address ≠ re) :
    walk (setEntry tables frame index entry) root address = walk tables root address := by
  unfold walk
  rw [vacant.walkFrom_eq leads leveled outside 4 (Nat.le_refl 4) root rfl]

/-! ### Building the way to an address -/

/-- Tables are added along the walk of an address, one for each of the entries. -/
inductive Built (root : Frame) (address : Word) : Tables → List Word → Tables → Prop where
  | done (tables : Tables) : Built root address tables [] tables
  | add {tables tables' : Tables} {frame : Frame} {entry : Word} {entries : List Word}
      (steps : Nat) (below : steps < 3)
      (here : tableAt tables root (pathTo address steps) = some frame)
      (absent : present (tables frame (indexAt (3 - steps) address)) = false)
      (rest : Built root address (setEntry tables frame (indexAt (3 - steps) address) entry)
        entries tables') :
      Built root address tables (entry :: entries) tables'

/-- Entries for new tables: empty frames, all different, that no path leads to. -/
structure FreshTables (tables : Tables) (root : Frame) (re : Index) (entries : List Word) : Prop where
  leads : ∀ entry ∈ entries, tableOf entry = some (frameOf entry)
  distinct : (entries.map frameOf).Nodup
  blank : ∀ entry ∈ entries, ∀ place, present (tables (frameOf entry) place) = false
  unused : ∀ entry ∈ entries, ∀ path : List Index, path.length ≤ 3 → Avoids re path →
    tableAt tables root path ≠ some (frameOf entry)

theorem FreshTables.vacant {entries : List Word} {steps : Nat}
    (fresh : FreshTables tables root re (entry :: entries)) (outside : indexAt 3 address ≠ re)
    (below : steps < 3) (here : tableAt tables root (pathTo address steps) = some frame)
    (absent : present (tables frame (indexAt (3 - steps) address)) = false) :
    Vacant tables root re (pathTo address steps) frame (indexAt (3 - steps) address)
      (frameOf entry) where
  here := here
  short := by rw [length_pathTo]; omega
  avoids := avoids_pathTo outside (steps + 1)
  absent := absent
  blank := fresh.blank entry List.mem_cons_self
  unused := fresh.unused entry List.mem_cons_self

theorem FreshTables.tail {entries : List Word}
    (fresh : FreshTables tables root re (entry :: entries))
    (vacant : Vacant tables root re path frame index (frameOf entry)) :
    FreshTables (setEntry tables frame index entry) root re entries := by
  obtain ⟨absent, distinct⟩ := List.nodup_cons.mp fresh.distinct
  refine ⟨fun other member => fresh.leads other (List.mem_cons_of_mem entry member), distinct,
    ?_, ?_⟩
  · intro other member place
    rw [setEntry_of_ne]
    · exact fresh.blank other (List.mem_cons_of_mem entry member) place
    · rintro ⟨same, _⟩
      refine fresh.unused other (List.mem_cons_of_mem entry member) path ?_ vacant.avoids.tail ?_
      · have := vacant.short
        omega
      · rw [same]
        exact vacant.here
  · intro other member way short avoids found
    rcases vacant.tableAt_cases (fresh.leads entry List.mem_cons_self) short avoids found with
      old | ⟨same, _⟩
    · exact fresh.unused other (List.mem_cons_of_mem entry member) way short avoids old
    · exact absent (same ▸ List.mem_map_of_mem member)

variable {tables' : Tables} {entries : List Word}

theorem Built.append {tables'' : Tables} {entries' : List Word}
    (first : Built root address tables entries tables')
    (second : Built root address tables' entries' tables'') :
    Built root address tables (entries ++ entries') tables'' := by
  induction first with
  | done tables => exact second
  | add steps below here absent rest ih => exact Built.add steps below here absent (ih second)

theorem Built.grows (built : Built root address tables entries tables') : Grows tables tables' := by
  induction built with
  | done tables => exact Grows.refl tables
  | add steps below here absent rest ih => exact (grows_setEntry (Or.inl absent)).trans ih

theorem Built.entry_cases (built : Built root address tables entries tables') (other : Frame)
    (place : Index) : tables' other place = tables other place ∨ tables' other place ∈ entries := by
  induction built with
  | done tables => exact Or.inl rfl
  | @add tables tables' frame entry entries steps below here absent rest ih =>
    rcases ih with same | member
    · by_cases slot : other = frame ∧ place = indexAt (3 - steps) address
      · obtain ⟨rfl, rfl⟩ := slot
        rw [setEntry_same] at same
        exact Or.inr (same ▸ List.mem_cons_self)
      · rw [setEntry_of_ne slot] at same
        exact Or.inl same
    · exact Or.inr (List.mem_cons_of_mem entry member)

theorem Built.toldApart {κ : Type} {key : List Index → κ}
    (built : Built root address tables entries tables')
    (fresh : FreshTables tables root re entries) (outside : indexAt 3 address ≠ re)
    (congruent : Congruent key) (apart : ToldApart tables root re key) :
    ToldApart tables' root re key := by
  induction built with
  | done tables => exact apart
  | add steps below here absent rest ih =>
    have vacant := fresh.vacant outside below here absent
    exact ih (fresh.tail vacant)
      (vacant.toldApart (fresh.leads _ List.mem_cons_self) congruent apart)

theorem Built.walk_eq {other : Word} (built : Built root address tables entries tables')
    (fresh : FreshTables tables root re entries) (outside : indexAt 3 address ≠ re)
    (leveled : Leveled tables root re) (outside' : indexAt 3 other ≠ re) :
    walk tables' root other = walk tables root other := by
  induction built with
  | done tables => rfl
  | add steps below here absent rest ih =>
    have vacant := fresh.vacant outside below here absent
    have leads := fresh.leads _ List.mem_cons_self
    rw [ih (fresh.tail vacant) (vacant.toldApart leads congruent_length leveled),
      vacant.walk_eq leads leveled outside']

/-- The paths of the new graph lead to old tables, and to the new ones through their entries. -/
theorem Built.tableAt_cases (built : Built root address tables entries tables')
    (fresh : FreshTables tables root re entries) (outside : indexAt 3 address ≠ re)
    {path : List Index} {table : Frame} (short : path.length ≤ 3) (avoids : Avoids re path)
    (found : tableAt tables' root path = some table) :
    tableAt tables root path = some table ∨ ∃ entry ∈ entries, table = frameOf entry := by
  induction built with
  | done tables => exact Or.inl found
  | add steps below here absent rest ih =>
    have vacant := fresh.vacant outside below here absent
    have leads := fresh.leads _ List.mem_cons_self
    rcases ih (fresh.tail vacant) found with old | ⟨entry, member, same⟩
    · rcases vacant.tableAt_cases leads short avoids old with older | ⟨same, _⟩
      · exact Or.inl older
      · exact Or.inr ⟨_, List.mem_cons_self, same⟩
    · exact Or.inr ⟨entry, List.mem_cons_of_mem _ member, same⟩

/-! ### Changing an entry of a page table -/

/-- The entry `index` of the page table at `path`. -/
structure LastLevel (tables : Tables) (root : Frame) (re : Index) (path : List Index)
    (frame : Frame) : Prop where
  here : tableAt tables root path = some frame
  last : path.length = 3
  avoids : Avoids re path

theorem LastLevel.tableAt_eq (level : LastLevel tables root re path frame)
    (leveled : Leveled tables root re) {other : List Index} (short : other.length ≤ 3)
    (avoids : Avoids re other) :
    tableAt (setEntry tables frame index entry) root other = tableAt tables root other := by
  induction other with
  | nil => rfl
  | cons place up ih =>
    rw [List.length_cons] at short
    simp only [tableAt, ih (by omega) avoids.tail]
    cases parent : tableAt tables root up with
    | none => rfl
    | some table =>
      rw [Option.bind_some, Option.bind_some, setEntry_of_ne]
      rintro ⟨rfl, _⟩
      have lengths := leveled _ _ _ (by omega) (by have := level.last; omega)
        avoids.tail level.avoids parent level.here
      have := level.last
      omega

theorem LastLevel.toldApart {κ : Type} {key : List Index → κ}
    (level : LastLevel tables root re path frame) (leveled : Leveled tables root re)
    (apart : ToldApart tables root re key) :
    ToldApart (setEntry tables frame index entry) root re key := by
  intro left right table shortLeft shortRight avoidsLeft avoidsRight atLeft atRight
  rw [level.tableAt_eq leveled shortLeft avoidsLeft] at atLeft
  rw [level.tableAt_eq leveled shortRight avoidsRight] at atRight
  exact apart left right table shortLeft shortRight avoidsLeft avoidsRight atLeft atRight

theorem LastLevel.walk_eq (level : LastLevel tables root re path frame)
    (leveled : Leveled tables root re) (outside : indexAt 3 address ≠ re)
    (different : ¬(tableAt tables root (pathTo address 3) = some frame ∧ indexAt 0 address = index)) :
    walk (setEntry tables frame index entry) root address = walk tables root address := by
  apply walk_setEntry_of_not_visited
  intro steps below visited sameIndex
  have lengths := leveled path (pathTo address steps) frame (by rw [level.last])
    (by rw [length_pathTo]; omega) level.avoids (avoids_pathTo outside steps) level.here visited
  rw [level.last, length_pathTo] at lengths
  subst lengths
  exact different ⟨visited, sameIndex⟩

theorem Separated.sameEntry {mapped : Word} (separated : Separated tables root re fix)
    (outsideMapped : indexAt 3 mapped ≠ re) (outside : indexAt 3 address ≠ re)
    (here : tableAt tables root (pathTo mapped 3) = some frame)
    (same : tableAt tables root (pathTo address 3) = some frame ∧
      indexAt 0 address = indexAt 0 mapped) : SameEntry fix mapped address := by
  obtain ⟨there, sameIndex⟩ := same
  have samePath := separated (pathTo mapped 3) (pathTo address 3) frame (by simp) (by simp)
    (avoids_pathTo outsideMapped 3) (avoids_pathTo outside 3) here there
  change fix (unshare fix (pathTo mapped 3)) (indexAt 0 mapped) :: unshare fix (pathTo mapped 3) =
    fix (unshare fix (pathTo address 3)) (indexAt 0 address) :: unshare fix (pathTo address 3)
  rw [samePath, sameIndex]

/-! ### Frames that are no tables -/

section Agree

variable {tables' : Tables}

theorem tableAt_of_agree (agree : ∀ table, Live tables root table → tables' table = tables table)
    (short : path.length ≤ 4) : tableAt tables' root path = tableAt tables root path := by
  induction path with
  | nil => rfl
  | cons index path ih =>
    rw [List.length_cons] at short
    simp only [tableAt, ih (by omega)]
    cases found : tableAt tables root path with
    | none => rfl
    | some table =>
      rw [Option.bind_some, Option.bind_some, agree table ⟨path, by omega, found⟩]

theorem live_of_agree (agree : ∀ table, Live tables root table → tables' table = tables table) :
    Live tables' root frame ↔ Live tables root frame := by
  constructor
  · rintro ⟨path, short, found⟩
    rw [tableAt_of_agree agree (by omega)] at found
    exact ⟨path, short, found⟩
  · rintro ⟨path, short, found⟩
    rw [← tableAt_of_agree agree (by omega)] at found
    exact ⟨path, short, found⟩

theorem walk_of_agree (agree : ∀ table, Live tables root table → tables' table = tables table) :
    walk tables' root address = walk tables root address := by
  apply walk_congr
  intro steps below table found
  rw [agree table ⟨pathTo address steps, by rw [length_pathTo]; omega, found⟩]

end Agree

theorem Built.frame_eq {other : Frame} (built : Built root address tables entries tables')
    (fresh : FreshTables tables root re entries) (outside : indexAt 3 address ≠ re)
    (dead : ∀ path : List Index, path.length ≤ 3 → Avoids re path →
      tableAt tables root path ≠ some other)
    (notNew : ∀ entry ∈ entries, frameOf entry ≠ other) : tables' other = tables other := by
  induction built with
  | done tables => rfl
  | @add tables tables' frame entry entries steps below here absent rest ih =>
    have vacant := fresh.vacant outside below here absent
    have different : other ≠ frame := by
      rintro rfl
      exact dead _ (by rw [length_pathTo]; omega) (avoids_pathTo outside steps) here
    have same : setEntry tables frame (indexAt (3 - steps) address) entry other = tables other := by
      funext place
      exact setEntry_of_ne fun slot => different slot.1
    rw [ih (fresh.tail vacant) ?_ fun later member => notNew later (List.mem_cons_of_mem _ member), same]
    intro path short avoids found
    rcases vacant.tableAt_cases (fresh.leads entry List.mem_cons_self) short avoids found with
      old | ⟨isNew, _⟩
    · exact dead path short avoids old
    · exact notNew entry List.mem_cons_self isNew.symm

/-! ### Shared slots -/

end Paging
