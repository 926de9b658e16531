/-
What a call of `mmu_map_page` does.

The call walks down from the PML4, reading each table through the pointer the
code uses for it.  When every table on the way and every page the allocator
would hand out is reached by its pointer, the call adds the missing tables along
the walk and writes one entry of the page table at its end.
-/

import Osdev64.Mmu
import Osdev64.Lib.TableTree

namespace Osdev64

open Word64 Paging

/-- The address of a page taken for a table, and the allocator with the page marked. -/
def takeTable (frames : Frames) : Word × Frames :=
  let allocated := pageAlloc frames
  let p := allocated.1
  let page := allocated.2.page p
  (page.address, allocated.2.setFlags p (page.flags ||| flagWord pVirt))

/-- The addresses of the next `count` tables, and the allocator after them. -/
def takeTables : Nat → Frames → List Word × Frames
  | 0, frames => ([], frames)
  | count + 1, frames =>
    let taken := takeTable frames
    let rest := takeTables count taken.2
    (taken.1 :: rest.1, rest.2)

@[simp] theorem length_takeTables (count : Nat) (frames : Frames) :
    (takeTables count frames).1.length = count := by
  induction count generalizing frames with
  | zero => rfl
  | succ count ih => simp [takeTables, ih]

/-- `page_alloc` finds a page for each of the next `count` tables. -/
def HasPages : Nat → Frames → Prop
  | 0, _ => True
  | count + 1, frames => (pageAlloc frames).1 ≠ .null ∧ HasPages count (takeTable frames).2

/-- How many tables the walk of an address lacks below a table of the given level. -/
def missingBelow (tables : Tables) (address : Word) : Nat → Frame → Nat
  | 0, _ => 0
  | level + 1, frame =>
    let entry := tables frame (indexAt (level + 1) address)
    if present entry = false then level + 1
    else if large entry = true then 0
    else missingBelow tables address level (frameOf entry)

abbrev Kernel := Machine KernelData

def Kernel.withFrames (machine : Kernel) (frames : Frames) : Kernel :=
  { machine with data := { machine.data with frames := frames } }

/-- The addresses of the tables a call for `address` would add. -/
def Kernel.newTables (machine : Kernel) (address : Word) : List Word :=
  (takeTables (missingBelow machine.tables address 3 machine.root) machine.data.frames).1

/-- `page_alloc` has a page for each of them. -/
def Kernel.HasNewTables (machine : Kernel) (address : Word) : Prop :=
  HasPages (missingBelow machine.tables address 3 machine.root) machine.data.frames

variable {ok : Word → Prop} {machine : Kernel} {address : Word} {steps : Nat} {frame : Frame}
  {pointer : Pointer}

/-! ### Pages that are there -/

section Real

variable {p : PagePtr} (real : p ≠ .null)

include real

theorem loadAddress_real : loadAddress p =
    (Prog.getData >>= fun kernel => pure (kernel.frames.page p).address) := if_neg real

theorem loadData_real : loadData p =
    (Prog.getData >>= fun kernel => pure (kernel.frames.page p).data) := if_neg real

theorem storeData_real (data : Word) : storeData p data =
    Prog.local' fun kernel => ((), setData p data kernel) := if_neg real

end Real

theorem takeTable_address (frames : Frames) :
    ((takeTable frames).2.page (pageAlloc frames).1).address = (takeTable frames).1 := by
  unfold takeTable Frames.setFlags Frames.setPage
  simp only [Function.update_self]

theorem takePage_real (real : (pageAlloc machine.data.frames).1 ≠ .null) :
    takePage.run machine = some ((takeTable machine.data.frames).1,
      machine.withFrames (takeTable machine.data.frames).2) := by
  have mark : markVirt (pageAlloc machine.data.frames).1 = Prog.local' _ := if_neg real
  have address := takeTable_address machine.data.frames
  unfold takePage allocPage
  rw [Prog.run_andThen, Prog.run_local, Option.bind_some]
  change ((markVirt (pageAlloc machine.data.frames).1 >>= fun _ => _).run _) = _
  rw [mark, Prog.run_andThen, Prog.run_local, Option.bind_some, loadAddress_real real]
  exact congrArg (fun word => some (word, machine.withFrames (takeTable machine.data.frames).2)) address

theorem takePage_runs {good : Kernel → Access → Prop} {post : Word → Kernel → Prop}
    (real : (pageAlloc machine.data.frames).1 ≠ .null)
    (after : post (takeTable machine.data.frames).1
      (machine.withFrames (takeTable machine.data.frames).2)) : takePage.Runs good machine post := by
  have mark : markVirt (pageAlloc machine.data.frames).1 = Prog.local' _ := if_neg real
  unfold takePage allocPage
  rw [Prog.runs_andThen, Prog.runs_local]
  change (markVirt (pageAlloc machine.data.frames).1 >>= fun _ => _).Runs good _ post
  rw [mark, Prog.runs_andThen, Prog.runs_local, loadAddress_real real]
  change post ((takeTable machine.data.frames).2.page (pageAlloc machine.data.frames).1).address _
  rw [takeTable_address]
  exact after

theorem takePage_data {machine' : Kernel} {word : Word} (ran : takePage.run machine = some (word, machine')) :
    machine'.data = { machine.data with
      frames := if (pageAlloc machine.data.frames).1 = .null then (pageAlloc machine.data.frames).2
        else (takeTable machine.data.frames).2 } := by
  by_cases none : (pageAlloc machine.data.frames).1 = .null
  · rw [if_pos none]
    unfold takePage allocPage at ran
    rw [Prog.run_andThen, Prog.run_local, Option.bind_some] at ran
    change (markVirt (pageAlloc machine.data.frames).1 >>= fun _ =>
      loadAddress (pageAlloc machine.data.frames).1).run _ = _ at ran
    rw [none, Prog.run_andThen] at ran
    obtain ⟨⟨_, marked⟩, ranMark, ran⟩ := Option.bind_eq_some_iff.mp ran
    obtain ⟨_, _, ranWrite⟩ := Option.bind_eq_some_iff.mp ranMark
    obtain ⟨_, _, same⟩ := Option.bind_eq_some_iff.mp ranWrite
    obtain ⟨_, _, same'⟩ := Option.bind_eq_some_iff.mp ran
    cases same
    cases same'
    rfl
  · rw [if_neg none]
    rw [takePage_real none] at ran
    cases ran
    rfl

theorem frameOf_roundDown (entry : Word) : frameOf (roundDown entry pageSize) = frameOf entry := by
  apply BitVec.eq_of_toNat_eq
  unfold frameOf
  rw [BitVec.extractLsb'_toNat, BitVec.extractLsb'_toNat, roundDown_page,
    Nat.shiftRight_eq_div_pow, Nat.shiftRight_eq_div_pow]
  omega

theorem frameOf_tableEntry {t : Word} (aligned : t.toNat % 4096 = 0) :
    frameOf (tableEntry t) = frameOf t :=
  (tableOf_eq_some_iff.mp (tableOf_tableEntry t aligned)).2.2

/-- The tables in use along the walk are reached through `P2V`.  `pointer` is the one for the table
after `steps` levels; `ok` is what else holds of the frames. -/
structure Followed (ok : Word → Prop) (machine : Kernel) (address : Word) (steps : Nat)
    (frame : Frame) (pointer : Pointer) : Prop where
  here : tableAt machine.tables machine.root (pathTo address steps) = some frame
  reaches : machine.Reaches pointer frame
  target : ∀ t, pointer.target = some t → frameOf t = frame ∧ ok t
  small : ∀ level, steps ≤ level → level < 2 → ∀ table,
    tableAt machine.tables machine.root (pathTo address level) = some table →
    present (machine.tables table (indexAt (3 - level) address)) = true →
    large (machine.tables table (indexAt (3 - level) address)) = false
  windowed : ∀ level, steps ≤ level → level < 3 → ∀ table next,
    tableAt machine.tables machine.root (pathTo address level) = some table →
    tableOf (machine.tables table (indexAt (3 - level) address)) = some next →
    machine.Reaches
        (window (roundDown (machine.tables table (indexAt (3 - level) address)) pageSize)) next ∧
      ok (roundDown (machine.tables table (indexAt (3 - level) address)) pageSize)

/-- So are the empty frames that the allocator would hand out for the missing tables. -/
structure Ready (ok : Word → Prop) (machine : Kernel) (address : Word) (steps : Nat)
    (frame : Frame) (pointer : Pointer) (newTables : List Word) : Prop
    extends Followed ok machine address steps frame pointer where
  aligned : ∀ t ∈ newTables, t.toNat % 4096 = 0
  fresh : ∀ t ∈ newTables, machine.Reaches (window t) (frameOf t) ∧ ok t ∧
    ∀ place, present (machine.tables (frameOf t) place) = false
  distinct : (newTables.map frameOf).Nodup
  unused : ∀ level, level ≤ 3 → ∀ table,
    tableAt machine.tables machine.root (pathTo address level) = some table →
    table ∉ newTables.map frameOf

/-- The frames taken for missing tables, the one for the highest level first, hold no present
entry where the walk of the address goes on.  Levels below `last` do not matter. -/
def PathClear (last : Nat) (tables : Tables) (address : Word) (newTables : List Word) : Prop :=
  ∀ t rest, t :: rest <:+ newTables → last ≤ rest.length →
    present (tables (frameOf t) (indexAt rest.length address)) = false

/-- The frames kept for the tables that the walk of an address lacks. -/
structure Reserve (last : Nat) (tables : Tables) (root : Frame) (address : Word)
    (newTables : List Word) : Prop where
  low : last ≤ 1
  aligned : ∀ t ∈ newTables, t.toNat % 4096 = 0
  clear : PathClear last tables address newTables
  distinct : (newTables.map frameOf).Nodup
  unused : ∀ level, level ≤ 3 → ∀ table, tableAt tables root (pathTo address level) = some table →
    table ∉ newTables.map frameOf

/-- Like `Ready`, for frames that need not be empty.  The old entry of a new page table may be
present, as the call does not read it before it writes it. -/
structure Passable (last : Nat) (ok : Word → Prop) (machine : Kernel) (address : Word) (steps : Nat)
    (frame : Frame) (pointer : Pointer) (newTables : List Word) : Prop
    extends Reserve last machine.tables machine.root address newTables,
      Followed ok machine address steps frame pointer where
  fresh : ∀ t ∈ newTables, machine.Reaches (window t) (frameOf t) ∧ ok t

theorem Ready.passable {newTables : List Word}
    (ready : Ready ok machine address steps frame pointer newTables) :
    Passable 0 ok machine address steps frame pointer newTables where
  toFollowed := ready.toFollowed
  low := Nat.zero_le 1
  aligned := ready.aligned
  fresh := fun t member => ⟨(ready.fresh t member).1, (ready.fresh t member).2.1⟩
  clear := fun t _ suffix _ => (ready.fresh t (suffix.mem List.mem_cons_self)).2.2 _
  distinct := ready.distinct
  unused := ready.unused

variable {last : Nat}

theorem Passable.kept {newTables : List Word} {next : Frame}
    (passable : Passable last ok machine address steps frame pointer newTables) (below : steps < 3)
    (leads : tableOf (machine.tables frame (indexAt (3 - steps) address)) = some next) :
    Passable last ok machine address (steps + 1) next
      (window (roundDown (machine.tables frame (indexAt (3 - steps) address)) pageSize))
      newTables := by
  obtain ⟨reaches, isOk⟩ :=
    passable.windowed steps (Nat.le_refl steps) below frame next passable.here leads
  have frameEq := (tableOf_eq_some_iff.mp leads).2.2
  refine { passable with here := ?_, reaches := reaches, target := ?_, small := ?_, windowed := ?_ }
  · exact tableAt_cons_eq_some_iff.mpr ⟨frame, passable.here, leads⟩
  · intro t same
    have targetEq := Option.some.inj same
    subst targetEq
    exact ⟨(frameOf_roundDown _).trans frameEq, isOk⟩
  · intro level above
    exact passable.small level (by omega)
  · intro level above
    exact passable.windowed level (by omega)

private theorem prefix_tableAt {tables : Tables} {root : Frame} {level : Nat} {table : Frame}
    (found : tableAt tables root (pathTo address (level + 1)) = some table) :
    ∃ parent, tableAt tables root (pathTo address level) = some parent ∧
      tableOf (tables parent (indexAt (3 - level) address)) = some table :=
  tableAt_cons_eq_some_iff.mp found

private theorem tableAt_of_le {tables : Tables} {root : Frame} {low high : Nat} {table : Frame}
    (ordered : low ≤ high) (found : tableAt tables root (pathTo address high) = some table) :
    ∃ above, tableAt tables root (pathTo address low) = some above := by
  induction high generalizing table with
  | zero =>
    have lowZero : low = 0 := by omega
    subst lowZero
    exact ⟨table, found⟩
  | succ high ih =>
    rcases Nat.lt_or_ge low (high + 1) with below | top
    · obtain ⟨parent, atParent, _⟩ := prefix_tableAt found
      exact ih (by omega) atParent
    · have same : low = high + 1 := by omega
      subst same
      exact ⟨table, found⟩

/-- A machine after the next missing table was added. -/
def Kernel.added (machine : Kernel) (frame : Frame) (index : Index) (taken : Word × Frames) :
    Kernel :=
  { machine with
    tables := setEntry machine.tables frame index (tableEntry taken.1)
    data := { machine.data with frames := taken.2 } }

/-- One block of `mmu_map_page`: the next table is there, or `page_alloc` was called for it. -/
theorem nextTable_cases {machine' : Kernel} {table : Pointer} {index : Index}
    (ran : (nextTable table index).run machine = some (pointer, machine')) :
    ∃ place, machine.locate table index = some place ∧
      (present (machine.tables place.1 place.2) = true ∧
          pointer = window (roundDown (machine.tables place.1 place.2) pageSize) ∧ machine' = machine ∨
        present (machine.tables place.1 place.2) = false ∧
          machine'.data = { machine.data with
            frames := if (pageAlloc machine.data.frames).1 = .null then (pageAlloc machine.data.frames).2
              else (takeTable machine.data.frames).2 }) := by
  obtain ⟨place, located, ran⟩ := Option.bind_eq_some_iff.mp ran
  refine ⟨place, located, ?_⟩
  change Prog.run (if machine.tables place.1 place.2 &&& presentFlag ≠ 0 then _ else _) machine = _ at ran
  by_cases isPresent : present (machine.tables place.1 place.2) = true
  · rw [if_pos ((and_presentFlag _).mpr isPresent)] at ran
    cases ran
    exact Or.inl ⟨isPresent, rfl, rfl⟩
  · rw [if_neg (fun isSet => isPresent ((and_presentFlag _).mp isSet)), Prog.run_andThen] at ran
    obtain ⟨⟨word, taken⟩, ranTake, ran⟩ := Option.bind_eq_some_iff.mp ran
    obtain ⟨_, _, same⟩ := Option.bind_eq_some_iff.mp ran
    cases same
    have data : taken.data = _ := takePage_data ranTake
    exact Or.inr ⟨by simpa using isPresent, data⟩

theorem tableAt_of_absent {tables : Tables} {root fresh table : Frame} {steps level : Nat}
    (here : tableAt tables root (pathTo address steps) = some fresh)
    (absent : present (tables fresh (indexAt (3 - steps) address)) = false) (past : steps < level)
    (found : tableAt tables root (pathTo address level) = some table) : False := by
  obtain ⟨child, found'⟩ := tableAt_of_le past found
  obtain ⟨parent, atParent, leads⟩ := prefix_tableAt found'
  rw [here] at atParent
  have isPresent := (tableOf_eq_some_iff.mp leads).1
  rw [← Option.some.inj atParent, absent] at isPresent
  cases isPresent

/-- The first of the kept frames becomes the table after the first `steps` levels. -/
structure AddsNext (last steps : Nat) (tables tables' : Tables) (root frame : Frame)
    (address t : Word) (rest : List Word) : Prop
    extends Reserve last tables root address (t :: rest) where
  below : steps < 3
  remaining : rest.length = 3 - (steps + 1)
  here : tableAt tables root (pathTo address steps) = some frame
  absent : present (tables frame (indexAt (3 - steps) address)) = false
  after : tables' = setEntry tables frame (indexAt (3 - steps) address) (tableEntry t)

section AddsNext

variable {tables tables' : Tables} {root : Frame} {t : Word} {rest : List Word}
  (adds : AddsNext last steps tables tables' root frame address t rest)
include adds

theorem AddsNext.grows : Grows tables tables' := by
  rw [adds.after]
  exact grows_setEntry (Or.inl adds.absent)

theorem AddsNext.next : tableAt tables' root (pathTo address (steps + 1)) = some (frameOf t) := by
  refine tableAt_cons_eq_some_iff.mpr ⟨frame, adds.grows.tableAt adds.here, ?_⟩
  rw [adds.after, setEntry_same]
  exact tableOf_tableEntry t (adds.aligned t List.mem_cons_self)

theorem AddsNext.kept_frame {u : Word} (member : u ∈ t :: rest) :
    tables' (frameOf u) = tables (frameOf u) := by
  funext place
  rw [adds.after]
  refine setEntry_of_ne fun same => ?_
  exact adds.unused steps (Nat.le_of_lt adds.below) frame adds.here (same.1 ▸ List.mem_map_of_mem member)

theorem AddsNext.next_absent (above : last ≤ 3 - (steps + 1)) :
    present (tables' (frameOf t) (indexAt (3 - (steps + 1)) address)) = false := by
  rw [adds.kept_frame List.mem_cons_self, ← adds.remaining]
  exact adds.clear t rest List.suffix_rfl (by rw [adds.remaining]; exact above)

theorem AddsNext.onPath {level : Nat} {table : Frame} (inside : level ≤ 3)
    (found : tableAt tables' root (pathTo address level) = some table) :
    level ≤ steps ∧ tableAt tables root (pathTo address level) = some table ∨
      level = steps + 1 ∧ table = frameOf t := by
  have low := adds.low
  rcases Nat.lt_or_ge steps level with past | atMost
  · right
    rcases Nat.lt_or_eq_of_le past with later | rfl
    · exact (tableAt_of_absent adds.next (adds.next_absent (by omega)) later found).elim
    · rw [adds.next] at found
      exact ⟨rfl, (Option.some.inj found).symm⟩
  · left
    obtain ⟨above, found'⟩ := tableAt_of_le atMost adds.here
    rw [adds.grows.tableAt found'] at found
    exact ⟨atMost, found'.trans found⟩

theorem AddsNext.reserve : Reserve last tables' root address rest := by
  obtain ⟨notLater, distinct⟩ := List.nodup_cons.mp adds.distinct
  refine ⟨adds.low, ?_, ?_, distinct, ?_⟩
  · intro u member
    exact adds.aligned u (List.mem_cons_of_mem t member)
  · intro u more suffix
    have later : u :: more <:+ t :: rest := suffix.trans (List.suffix_cons t rest)
    rw [adds.kept_frame (later.mem List.mem_cons_self)]
    exact adds.clear u more later
  · intro level inside table found
    rcases adds.onPath inside found with ⟨_, old⟩ | ⟨_, rfl⟩
    · intro member
      exact adds.unused level inside table old (List.mem_cons_of_mem _ member)
    · exact notLater

end AddsNext

theorem Passable.added {newTables : List Word} {taken : Word × Frames}
    (passable : Passable last ok machine address steps frame pointer (taken.1 :: newTables))
    (below : steps < 3) (remaining : newTables.length = 3 - (steps + 1))
    (absent : present (machine.tables frame (indexAt (3 - steps) address)) = false) :
    Passable last ok (machine.added frame (indexAt (3 - steps) address) taken) address (steps + 1)
        (frameOf taken.1) (window taken.1) newTables ∧
      (last ≤ 3 - (steps + 1) →
        present ((machine.added frame (indexAt (3 - steps) address) taken).tables
          (frameOf taken.1) (indexAt (3 - (steps + 1)) address)) = false) := by
  have adds : AddsNext last steps machine.tables
      (machine.added frame (indexAt (3 - steps) address) taken).tables machine.root frame address
      taken.1 newTables := ⟨passable.toReserve, below, remaining, passable.here, absent, rfl⟩
  obtain ⟨reaches, isOk⟩ := passable.fresh taken.1 List.mem_cons_self
  have low := passable.low
  have notPresent {level : Nat} {table : Frame} (above : steps + 1 ≤ level) (inside : level < 3)
      (found : tableAt (machine.added frame (indexAt (3 - steps) address) taken).tables machine.root
        (pathTo address level) = some table) :
      present ((machine.added frame (indexAt (3 - steps) address) taken).tables table
        (indexAt (3 - level) address)) = false := by
    rcases adds.onPath (by omega) found with ⟨atMost, _⟩ | ⟨rfl, rfl⟩
    · omega
    · exact adds.next_absent (by omega)
  refine ⟨⟨adds.reserve, ⟨adds.next, reaches.grows adds.grows rfl, ?_, ?_, ?_⟩, ?_⟩, adds.next_absent⟩
  · intro t same
    have targetEq := Option.some.inj same
    subst targetEq
    exact ⟨rfl, isOk⟩
  · intro level above inside table found isPresent
    rw [notPresent above (by omega) found] at isPresent
    cases isPresent
  · intro level above inside table next found leads
    have isPresent := (tableOf_eq_some_iff.mp leads).1
    rw [notPresent above inside found] at isPresent
    cases isPresent
  · intro t member
    obtain ⟨reaches', isOk'⟩ := passable.fresh t (List.mem_cons_of_mem taken.1 member)
    exact ⟨reaches'.grows adds.grows rfl, isOk'⟩

/-! ### One level down -/

theorem missingBelow_kept {tables : Tables} {level : Nat} {next : Frame}
    (leads : tableOf (tables frame (indexAt (level + 1) address)) = some next) :
    missingBelow tables address (level + 1) frame = missingBelow tables address level next := by
  obtain ⟨isPresent, notLarge, rfl⟩ := tableOf_eq_some_iff.mp leads
  simp [missingBelow, isPresent, notLarge]

theorem missingBelow_absent {tables : Tables} {level : Nat}
    (absent : present (tables frame (indexAt (level + 1) address)) = false) :
    missingBelow tables address (level + 1) frame = level + 1 := by
  simp [missingBelow, absent]

theorem missingBelow_clear {tables : Tables} (level : Nat)
    (absent : 0 < level → present (tables frame (indexAt level address)) = false) :
    missingBelow tables address level frame = level := by
  cases level with
  | zero => rfl
  | succ level => exact missingBelow_absent (absent (Nat.succ_pos level))

theorem missingBelow_le (tables : Tables) (address : Word) (level : Nat) (frame : Frame) :
    missingBelow tables address level frame ≤ level := by
  induction level generalizing frame with
  | zero => exact Nat.le_refl 0
  | succ level ih =>
    simp only [missingBelow]
    split
    · exact Nat.le_refl _
    · split
      · exact Nat.zero_le _
      · exact Nat.le_succ_of_le (ih _)

theorem missingBelow_pathTo {tables : Tables} {root : Frame} (inside : steps ≤ 3)
    (here : tableAt tables root (pathTo address steps) = some frame) :
    missingBelow tables address 3 root = missingBelow tables address (3 - steps) frame := by
  induction steps generalizing frame with
  | zero =>
    rw [Option.some.inj here]
  | succ steps ih =>
    obtain ⟨parent, atParent, leads⟩ := prefix_tableAt here
    have levels : 3 - steps = 3 - (steps + 1) + 1 := by omega
    rw [levels] at leads
    rw [ih (by omega) atParent, levels, missingBelow_kept leads]

theorem missingBelow_of_tableAt {tables : Tables} {root table : Frame}
    (here : tableAt tables root (pathTo address 3) = some table) :
    missingBelow tables address 3 root = 0 :=
  missingBelow_pathTo (Nat.le_refl 3) here

/-- What every access of a call satisfies: it reaches the table its pointer is
meant for, and a store either fills an absent entry or is the last one. -/
def MapGood (ok : Word → Prop) (start : Kernel) (address leaf : Word) (machine : Kernel)
    (access : Access) : Prop :=
  ∃ frame, machine.Reaches access.pointer frame ∧
    (∀ t, access.pointer.target = some t → frameOf t = frame ∧ ok t) ∧
    ∀ value, access.value = some value →
      present (machine.tables frame access.index) = false ∨
        machine.tables = start.tables ∧ access.index = indexAt 0 address ∧ value = leaf ∧
          tableAt start.tables start.root (pathTo address 3) = some frame

/-- A call between two levels: the tables `used` were added, those of `left` may follow. -/
structure Descent (last : Nat) (ok : Word → Prop) (start machine : Kernel) (address : Word) (steps : Nat)
    (frame : Frame) (pointer : Pointer) (used left : List Word) : Prop
    extends Passable last ok machine address steps frame pointer left where
  leftEq : (takeTables (missingBelow machine.tables address (3 - steps) frame)
    machine.data.frames).1 = left
  allEq : takeTables (missingBelow start.tables address 3 start.root) start.data.frames =
    (used ++ left, (takeTables (missingBelow machine.tables address (3 - steps) frame)
      machine.data.frames).2)
  cr3 : machine.cr3 = start.cr3
  pml4 : machine.data.pml4 = start.data.pml4
  stocked : HasPages (missingBelow machine.tables address (3 - steps) frame) machine.data.frames
  built : Built start.root address start.tables (used.map tableEntry) machine.tables
  state : machine = start ∨
    (last ≤ 3 - steps → present (machine.tables frame (indexAt (3 - steps) address)) = false)

variable {start : Kernel} {leaf : Word} {used left : List Word}

theorem Descent.root (descent : Descent last ok start machine address steps frame pointer used left) :
    machine.root = start.root :=
  Machine.root_congr descent.cr3

private theorem Descent.kept {next : Frame}
    (descent : Descent last ok start machine address steps frame pointer used left) (below : steps < 3)
    (leads : tableOf (machine.tables frame (indexAt (3 - steps) address)) = some next) :
    Descent last ok start machine address (steps + 1) next
      (window (roundDown (machine.tables frame (indexAt (3 - steps) address)) pageSize))
      used left := by
  have levels : 3 - steps = (3 - (steps + 1)) + 1 := by omega
  have missing : missingBelow machine.tables address (3 - (steps + 1)) next =
      missingBelow machine.tables address (3 - steps) frame := by
    rw [levels] at leads ⊢
    exact (missingBelow_kept leads).symm
  refine ⟨descent.toPassable.kept below leads, ?_, ?_, descent.cr3, descent.pml4, ?_, descent.built, ?_⟩
  · rw [missing]
    exact descent.leftEq
  · rw [missing]
    exact descent.allEq
  · rw [missing]
    exact descent.stocked
  · left
    rcases descent.state with same | absent
    · exact same
    · have isPresent := (tableOf_eq_some_iff.mp leads).1
      have low := descent.low
      rw [absent (by omega)] at isPresent
      cases isPresent

private theorem Descent.added
    (descent : Descent last ok start machine address steps frame pointer used left) (below : steps < 3)
    (absent : present (machine.tables frame (indexAt (3 - steps) address)) = false) :
    (pageAlloc machine.data.frames).1 ≠ .null ∧ ∃ left', Descent last ok start
      (machine.added frame (indexAt (3 - steps) address) (takeTable machine.data.frames)) address
      (steps + 1) (frameOf (takeTable machine.data.frames).1)
      (window (takeTable machine.data.frames).1)
      (used ++ [(takeTable machine.data.frames).1]) left' := by
  have levels : 3 - steps = (3 - (steps + 1)) + 1 := by omega
  have missing : missingBelow machine.tables address (3 - steps) frame =
      (3 - (steps + 1)) + 1 := by
    rw [levels] at absent ⊢
    exact missingBelow_absent absent
  have all := descent.allEq
  have leftEq := descent.leftEq
  have stocked := descent.stocked
  rw [missing] at all leftEq stocked
  simp only [takeTables] at all leftEq
  have passable := descent.toPassable
  rw [← leftEq] at passable
  obtain ⟨passable', goesOn⟩ := passable.added below (length_takeTables _ _) absent
  have missing' : missingBelow
      (machine.added frame (indexAt (3 - steps) address)
        (takeTable machine.data.frames)).tables address (3 - (steps + 1))
      (frameOf (takeTable machine.data.frames).1) = 3 - (steps + 1) := by
    apply missingBelow_clear
    intro positive
    have low := descent.low
    exact goesOn (by omega)
  refine ⟨stocked.1, _, passable', ?_, ?_, descent.cr3, descent.pml4, ?_, ?_, Or.inr goesOn⟩
  · rw [missing']
    rfl
  · rw [missing', all, ← leftEq, List.append_assoc]
    rfl
  · rw [missing']
    exact stocked.2
  · rw [List.map_append]
    refine descent.built.append (Built.add steps below ?_ absent (Built.done _))
    rw [← descent.root]
    exact descent.here

/-- Reads, and stores to absent entries, through a pointer that reaches its table. -/
def Admits (ok : Word → Prop) (good : Kernel → Access → Prop) : Prop :=
  ∀ (machine : Kernel) (access : Access) (frame : Frame), machine.Reaches access.pointer frame →
    (∀ t, access.pointer.target = some t → frameOf t = frame ∧ ok t) →
    (∀ value, access.value = some value → present (machine.tables frame access.index) = false) →
    good machine access

theorem admits_mapGood : Admits ok (MapGood ok start address leaf) := by
  intro machine access frame reaches target absent
  exact ⟨frame, reaches, target, fun value isStore => Or.inl (absent value isStore)⟩

variable {good : Kernel → Access → Prop}

theorem Descent.nextTable (admits : Admits ok good)
    (descent : Descent last ok start machine address steps frame pointer used left) (below : steps < 3)
    (notLarge : present (machine.tables frame (indexAt (3 - steps) address)) = true →
      large (machine.tables frame (indexAt (3 - steps) address)) = false) :
    (nextTable pointer (indexAt (3 - steps) address)).Runs good machine
      fun pointer' machine' => ∃ frame' used' left',
        Descent last ok start machine' address (steps + 1) frame' pointer' used' left' := by
  unfold Osdev64.nextTable
  rw [Prog.runs_andThen, Prog.runs_read pointer _ descent.reaches]
  refine ⟨admits _ _ frame descent.reaches descent.target ?_, ?_⟩
  · intro value impossible
    cases impossible
  · by_cases isPresent : present (machine.tables frame (indexAt (3 - steps) address)) = true
    · rw [if_pos ((and_presentFlag _).mpr isPresent), Prog.runs_pure]
      have leads := tableOf_eq_some_iff.mpr ⟨isPresent, notLarge isPresent, rfl⟩
      exact ⟨_, used, left, descent.kept below leads⟩
    · have absent : present (machine.tables frame (indexAt (3 - steps) address)) = false := by
        simpa using isPresent
      obtain ⟨real, left', descent'⟩ := descent.added below absent
      have reaches : (machine.withFrames (takeTable machine.data.frames).2).Reaches pointer frame :=
        descent.reaches
      rw [if_neg (fun set => isPresent ((and_presentFlag _).mp set)), Prog.runs_andThen]
      refine takePage_runs real ?_
      rw [Prog.runs_andThen, Prog.runs_write pointer _ _ reaches, Prog.runs_pure]
      exact ⟨admits _ _ frame reaches descent.target fun _ _ => absent, _, _, left', descent'⟩

/-! ### The whole call -/

/-- The entry a call writes. -/
def leafEntry (machine : Kernel) (frame : PagePtr) (flags : BitVec 32) : Word :=
  (machine.data.frames.page frame).address ||| flagWord flags

/-- What a call needs: the PML4 is reached through the address kept in its page
structure, the other tables and the frames for new ones, which the allocator has, through `P2V`. -/
structure MapReady (ok : Word → Prop) (machine : Kernel) (address : Word) : Prop
    extends Ready ok machine address 0 machine.root
      (plainPointer (machine.data.frames.page machine.data.pml4).data) (machine.newTables address) where
  available : machine.HasNewTables address

/-- A call that writes its entry. -/
structure Mapped (start machine : Kernel) (frame : PagePtr) (address : Word)
    (flags : BitVec 32) : Prop where
  built : ∃ tables table, Built start.root address start.tables
      ((start.newTables address).map tableEntry) tables ∧
    tableAt tables start.root (pathTo address 3) = some table ∧
    machine.tables = setEntry tables table (indexAt 0 address) (leafEntry start frame flags)
  cr3 : machine.cr3 = start.cr3
  data : machine.data = setData frame address
    { start.data with
      frames := (takeTables (missingBelow start.tables address 3 start.root) start.data.frames).2 }

/-- A call that meets a two-megabyte page. -/
structure Blocked (start machine : Kernel) (frame : PagePtr) (address : Word) : Prop where
  large : ∃ table, tableAt start.tables start.root (pathTo address 2) = some table ∧
    present (start.tables table (indexAt 1 address)) = true ∧
    Paging.large (start.tables table (indexAt 1 address)) = true
  tables : machine.tables = start.tables
  cr3 : machine.cr3 = start.cr3
  data : machine.data = setData frame 0 start.data

/-- A two-megabyte page is in the way of a mapping. -/
def Kernel.LargeAt (machine : Kernel) (address : Word) : Prop :=
  ∃ table, tableAt machine.tables machine.root (pathTo address 2) = some table ∧
    present (machine.tables table (indexAt 1 address)) = true ∧
    large (machine.tables table (indexAt 1 address)) = true

theorem Mapped.not_largeAt {machine' : Kernel} {page : PagePtr} {flags : BitVec 32}
    (mapped : Mapped machine machine' page address flags) : ¬machine.LargeAt address := by
  intro blocks
  obtain ⟨pd, pdAt, isPresent, isLarge⟩ := blocks
  obtain ⟨middle, table, built, here, _⟩ := mapped.built
  obtain ⟨parent, atParent, leads⟩ := tableAt_cons_eq_some_iff.mp here
  rw [built.grows.tableAt pdAt] at atParent
  have same := Option.some.inj atParent
  subst same
  change tableOf (middle pd (indexAt 1 address)) = some table at leads
  rw [built.grows pd _ isPresent] at leads
  have notLarge := (tableOf_eq_some_iff.mp leads).2.1
  rw [isLarge] at notLarge
  cases notLarge

theorem pageAlloc_page (frames : Frames) : (pageAlloc frames).2.page = frames.page := by
  unfold pageAlloc
  split
  · rfl
  · rfl

theorem takeTable_page (frames : Frames) (pointer : PagePtr) :
    ((takeTable frames).2.page pointer).address = (frames.page pointer).address ∧
      ((takeTable frames).2.page pointer).data = (frames.page pointer).data := by
  have same := pageAlloc_page frames
  unfold takeTable
  simp only [Frames.setFlags, Frames.setPage, same]
  by_cases here : pointer = (pageAlloc frames).1
  · subst here
    simp
  · simp [Function.update_of_ne here]

theorem takeTables_page (count : Nat) (frames : Frames) (pointer : PagePtr) :
    ((takeTables count frames).2.page pointer).address = (frames.page pointer).address ∧
      ((takeTables count frames).2.page pointer).data = (frames.page pointer).data := by
  induction count generalizing frames with
  | zero => exact ⟨rfl, rfl⟩
  | succ count ih =>
    obtain ⟨address, data⟩ := ih (takeTable frames).2
    obtain ⟨address', data'⟩ := takeTable_page frames pointer
    exact ⟨address.trans address', data.trans data'⟩

theorem takeTables_numpages (count : Nat) (frames : Frames) :
    (takeTables count frames).2.numpages = frames.numpages := by
  induction count generalizing frames with
  | zero => rfl
  | succ count ih =>
    refine (ih (takeTable frames).2).trans ?_
    change (pageAlloc frames).2.numpages = frames.numpages
    unfold pageAlloc
    split
    · rfl
    · rfl

/-- The kernel's data after `p->data` was written. -/
def storedData (p : PagePtr) (data : Word) (kernel : KernelData) : KernelData :=
  if p = .null then kernel else setData p data kernel

theorem storeData_data {machine' : Kernel} {page : PagePtr} {data : Word} {result : Unit}
    (ran : (storeData page data).run machine = some (result, machine')) :
    machine'.data = storedData page data machine.data := by
  unfold storeData at ran
  unfold storedData
  by_cases none : page = .null
  · rw [if_pos none] at ran ⊢
    obtain ⟨_, _, same⟩ := Option.bind_eq_some_iff.mp ran
    cases same
    rfl
  · rw [if_neg none] at ran ⊢
    cases ran
    rfl

theorem loadAddress_machine {machine' : Kernel} {page : PagePtr} {word : Word}
    (ran : (loadAddress page).run machine = some (word, machine')) : machine' = machine := by
  unfold loadAddress at ran
  by_cases none : page = .null
  · rw [if_pos none] at ran
    obtain ⟨_, _, same⟩ := Option.bind_eq_some_iff.mp ran
    cases same
    rfl
  · rw [if_neg none] at ran
    cases ran
    rfl

/-- What a call that returns did to the kernel's data, whatever the tables: two lookups, then it
met a large page, or a third lookup. -/
theorem mmuMapPage_cases {machine' : Kernel} {page : PagePtr} {flags : BitVec 32} {result : Unit}
    (ran : (mmuMapPage page address flags).run machine = some (result, machine')) :
    ∃ pdpt first pd second,
      (nextTable (plainPointer (machine.data.frames.page machine.data.pml4).data)
        (indexAt 3 address)).run machine = some (pdpt, first) ∧
      (nextTable pdpt (indexAt 2 address)).run first = some (pd, second) ∧
      (machine'.data = storedData page 0 second.data ∨
        ∃ pt third, (nextTable pd (indexAt 1 address)).run second = some (pt, third) ∧
          machine'.data = storedData page address third.data) := by
  unfold mmuMapPage at ran
  simp only [pml4e_eq, pdpte_eq, pde_eq] at ran
  rw [Prog.run_andThen] at ran
  change (Prog.run _ machine) = _ at ran
  rw [Prog.run_andThen] at ran
  obtain ⟨⟨_, logged⟩, ranLog, ran⟩ := Option.bind_eq_some_iff.mp ran
  obtain rfl := loadAddress_machine ranLog
  rw [Prog.run_andThen] at ran
  obtain ⟨⟨pdpt, first⟩, ranFirst, ran⟩ := Option.bind_eq_some_iff.mp ran
  rw [Prog.run_andThen] at ran
  obtain ⟨⟨pd, second⟩, ranSecond, ran⟩ := Option.bind_eq_some_iff.mp ran
  refine ⟨pdpt, first, pd, second, ranFirst, ranSecond, ?_⟩
  rw [Prog.run_andThen] at ran
  obtain ⟨⟨entry, _⟩, ranEntry, ran⟩ := Option.bind_eq_some_iff.mp ran
  obtain ⟨place, _, same⟩ := Option.bind_eq_some_iff.mp ranEntry
  cases same
  simp only at ran
  by_cases big : second.tables place.1 place.2 &&& presentFlag ≠ 0 ∧
      second.tables place.1 place.2 &&& ps ≠ 0
  · rw [if_pos big] at ran
    exact Or.inl (storeData_data ran)
  · rw [if_neg big, Prog.run_andThen] at ran
    obtain ⟨⟨pt, third⟩, ranThird, ran⟩ := Option.bind_eq_some_iff.mp ran
    rw [Prog.run_andThen] at ran
    obtain ⟨⟨physical, loaded⟩, ranLoad, ran⟩ := Option.bind_eq_some_iff.mp ran
    obtain rfl := loadAddress_machine ranLoad
    rw [Prog.run_andThen] at ran
    obtain ⟨⟨_, fourth⟩, ranFourth, ran⟩ := Option.bind_eq_some_iff.mp ran
    obtain ⟨place, _, same⟩ := Option.bind_eq_some_iff.mp ranFourth
    cases same
    have stored : (storeData page address).run (loaded.write place (physical ||| flagWord flags)) =
      some (result, machine') := ran
    have data := storeData_data stored
    exact Or.inr ⟨pt, loaded, ranThird, data⟩

theorem mmuReqPage_run (address : Word) (flags : BitVec 32)
    (real : (pageAlloc machine.data.frames).1 ≠ .null) :
    (mmuReqPage address flags).run machine =
      ((mmuMapPage (pageAlloc machine.data.frames).1 (roundDown address pageSize) flags).run
        (machine.withFrames (pageAlloc machine.data.frames).2)).map fun result =>
          (if (result.2.data.frames.page (pageAlloc machine.data.frames).1).data ≠
            roundDown address pageSize then .null else (pageAlloc machine.data.frames).1, result.2) := by
  unfold mmuReqPage allocPage
  rw [Prog.run_andThen, Prog.run_local, Option.bind_some, Prog.run_andThen]
  change Option.bind ((mmuMapPage (pageAlloc machine.data.frames).1 (roundDown address pageSize) flags).run
    (machine.withFrames (pageAlloc machine.data.frames).2)) _ = _
  cases (mmuMapPage (pageAlloc machine.data.frames).1 (roundDown address pageSize) flags).run
      (machine.withFrames (pageAlloc machine.data.frames).2) with
  | none => rfl
  | some result =>
    rw [Option.bind_some, Option.map_some, loadData_real real, Prog.run_andThen]
    change (if (result.2.data.frames.page (pageAlloc machine.data.frames).1).data ≠
      roundDown address pageSize then (pure .null : Prog KernelData PagePtr) else pure _).run result.2 = _
    split
    · rfl
    · rfl

private theorem Descent.finish
    (descent : Descent last ok start machine address 3 frame pointer used left) :
    used = start.newTables address ∧
      machine.data = { start.data with
        frames := (takeTables (missingBelow start.tables address 3 start.root)
          start.data.frames).2 } := by
  have all : takeTables (missingBelow start.tables address 3 start.root) start.data.frames =
      (used ++ left, machine.data.frames) := descent.allEq
  have leftEq : [] = left := descent.leftEq
  rw [← leftEq, List.append_nil] at all
  refine ⟨?_, ?_⟩
  · unfold Kernel.newTables
    rw [all]
  · rw [all]
    change machine.data = ⟨machine.data.frames, start.data.pml4⟩
    rw [← descent.pml4]

private theorem Descent.leafValue (page : PagePtr) (flags : BitVec 32)
    (descent : Descent last ok start machine address 3 frame pointer used left) :
    (machine.data.frames.page page).address ||| flagWord flags = leafEntry start page flags := by
  unfold leafEntry
  rw [descent.finish.2]
  change ((takeTables _ start.data.frames).2.page page).address ||| _ = _
  rw [(takeTables_page _ start.data.frames page).1]

private theorem Descent.store (page : PagePtr) (flags : BitVec 32)
    (descent : Descent 0 ok start machine address 3 frame pointer used left) :
    MapGood ok start address (leafEntry start page flags) machine
      ⟨pointer, indexAt 0 address, some (leafEntry start page flags)⟩ := by
  refine ⟨frame, descent.reaches, descent.target, ?_⟩
  intro value same
  have valueEq := Option.some.inj same
  subst valueEq
  rcases descent.state with atStart | absent
  · subst atStart
    exact Or.inr ⟨rfl, rfl, rfl, descent.here⟩
  · exact Or.inl (absent (Nat.le_refl 0))

theorem Passable.mmuMapPage_runs (page : PagePtr) (flags : BitVec 32)
    (real : page ≠ .null) (passable : Passable last ok machine address 0 machine.root
      (plainPointer (machine.data.frames.page machine.data.pml4).data) (machine.newTables address))
    (available : machine.HasNewTables address)
    (admits : Admits ok good)
    (stores : ∀ (during : Kernel) (table : Frame) (pt : Pointer) (used left : List Word),
      Descent last ok machine during address 3 table pt used left →
      good during ⟨pt, indexAt 0 address, some (leafEntry machine page flags)⟩) :
    (mmuMapPage page address flags).Runs good machine
      fun _ machine' => Mapped machine machine' page address flags ∨
        Blocked machine machine' page address := by
  have begin : Descent last ok machine machine address 0 machine.root
      (plainPointer (machine.data.frames.page machine.data.pml4).data) []
      (machine.newTables address) :=
    ⟨passable, rfl, rfl, rfl, rfl, available, Built.done _, Or.inl rfl⟩
  unfold mmuMapPage
  rw [loadAddress_real real, storeData_real real, storeData_real real]
  rw [Prog.runs_andThen, Prog.runs_getData, Prog.runs_andThen, Prog.runs_andThen, Prog.runs_getData,
    Prog.runs_pure, Prog.runs_andThen, pml4e_eq, pdpte_eq, pde_eq, pte_eq]
  -- the PML4
  refine (begin.nextTable admits (by omega) (begin.small 0 (Nat.le_refl 0) (by omega) _ begin.here)).mono
    (fun _ _ isGood => isGood) ?_
  rintro pdpt second ⟨frame₁, used₁, left₁, descent₁⟩
  rw [Prog.runs_andThen]
  -- the page directory pointer table
  refine (descent₁.nextTable admits (by omega)
    (descent₁.small 1 (Nat.le_refl 1) (by omega) _ descent₁.here)).mono
    (fun _ _ isGood => isGood) ?_
  rintro pd third ⟨frame₂, used₂, left₂, descent₂⟩
  rw [Prog.runs_andThen, Prog.runs_read pd _ descent₂.reaches]
  refine ⟨admits _ _ frame₂ descent₂.reaches descent₂.target ?_, ?_⟩
  · intro value impossible
    cases impossible
  · simp only [and_presentFlag, and_ps]
    split
    · -- a two-megabyte page: nothing was added on the way here
      rename_i blocks
      rcases descent₂.state with atStart | absent
      · subst atStart
        rw [Prog.runs_local]
        exact Or.inr ⟨⟨frame₂, descent₂.here, blocks⟩, rfl, rfl, rfl⟩
      · have isPresent := blocks.1
        rw [absent descent₂.low] at isPresent
        cases isPresent
    · rename_i passes
      rw [Prog.runs_andThen]
      have notLarge : present (third.tables frame₂ (indexAt (3 - 2) address)) = true →
          large (third.tables frame₂ (indexAt (3 - 2) address)) = false := by
        intro isPresent
        by_contra isLarge
        exact passes ⟨isPresent, by simpa using isLarge⟩
      refine (descent₂.nextTable admits (by omega) notLarge).mono (fun _ _ isGood => isGood) ?_
      rintro pt fourth ⟨frame₃, used₃, left₃, descent₃⟩
      obtain ⟨usedEq, dataEq⟩ := descent₃.finish
      rw [Prog.runs_andThen, Prog.runs_andThen, Prog.runs_getData, Prog.runs_pure, Prog.runs_andThen,
        Prog.runs_write pt _ _ descent₃.reaches, Prog.runs_local, descent₃.leafValue page flags]
      refine ⟨stores _ _ _ _ _ descent₃, Or.inl ⟨?_, descent₃.cr3, ?_⟩⟩
      · rw [← usedEq]
        refine ⟨fourth.tables, frame₃, descent₃.built, ?_, rfl⟩
        rw [← descent₃.root]
        exact descent₃.here
      · change setData page address fourth.data = _
        rw [dataEq]

theorem mmuMapPage_runs (page : PagePtr) (flags : BitVec 32) (real : page ≠ .null)
    (ready : MapReady ok machine address) :
    (mmuMapPage page address flags).Runs
      (MapGood ok machine address (leafEntry machine page flags)) machine
      fun _ machine' => Mapped machine machine' page address flags ∨
        Blocked machine machine' page address :=
  ready.passable.mmuMapPage_runs page flags real ready.available admits_mapGood
    fun _ _ _ _ _ descent => descent.store page flags

end Osdev64
