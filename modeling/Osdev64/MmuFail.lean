/-
What a failed `mmu_req_page` leaves behind.

The page is taken off the free list before anything can fail, and no path puts it
back.  So with a free page the call maps it or leaks it.  Without one it works on
the page structure at address 0: it faults, or it goes by what is there and returns
the null pointer.
-/

import Osdev64.ElfTrace
import Osdev64.MmuNewTables

namespace Osdev64

open PointerRing Word64 Paging

/-- The page returned is what the hardware finds at the address. -/
structure MapsRequested (p : PagePtr) (machine : Kernel) (address : Word) : Prop where
  returned : p ≠ .null
  walks : ∃ leaf, walk machine.tables machine.root (roundDown address pageSize) = some leaf ∧
    leaf.frame = frameOf (machine.data.frames.page p).address

def SameTranslations (machine machine' : Kernel) : Prop :=
  ∀ other, walk machine'.tables machine'.root other = walk machine.tables machine.root other

/-- The lists, the counters and every translation are as before. -/
structure NothingChanged (machine machine' : Kernel) : Prop where
  free : ∀ items, Ring machine'.data.frames.heap (.head .free) items ↔
    Ring machine.data.frames.heap (.head .free) items
  used : ∀ items, Ring machine'.data.frames.heap (.head .used) items ↔
    Ring machine.data.frames.heap (.head .used) items
  freeCount : machine'.data.frames.numFreePages = machine.data.frames.numFreePages
  usedCount : machine'.data.frames.numUsedPages = machine.data.frames.numUsedPages
  translations : SameTranslations machine machine'

/-- The call returns; it has mapped the page, or it returns `NULL` with nothing changed. -/
def MapsOrFailsCleanly (machine : Kernel) (address : Word) (flags : BitVec 32) : Prop :=
  ∃ p machine', (mmuReqPage address flags).run machine = some (p, machine') ∧
    (MapsRequested p machine' address ∨ p = .null ∧ NothingChanged machine machine')

/-- A canonical address with a page table, in which it has no page. -/
def Kernel.UnmappedAt (machine : Kernel) (address : Word) : Prop :=
  canonical address = true ∧ ∃ table, tableAt machine.tables machine.root (pathTo address 3) = some table ∧
    present (machine.tables table (indexAt 0 address)) = false

/-- A kernel with tables in order, and an address outside the recursive slot and not in a page of a
gigabyte.  If a page is free there are also pages for the missing tables, which hold no entry where
the walk goes on.  If none is free and address 0 is mapped, it is not mapped to a table, and the
call meets a two-megabyte page or a page table, for otherwise the words at address 0 become a table. -/
structure Requestable (machine : Kernel) (address : Word) (free used : List Nat) : Prop where
  graph : TableGraph machine
  pool : Pool machine.data.frames free used
  outside : indexAt 3 address ≠ mmuRe
  small : ∀ level < 2, ∀ table,
    tableAt machine.tables machine.root (pathTo address level) = some table →
    present (machine.tables table (indexAt (3 - level) address)) = true →
    large (machine.tables table (indexAt (3 - level) address)) = false
  stocked : free ≠ [] →
    Spare (machine.withFrames (pageAlloc machine.data.frames).2) address ∧
      PathClear 1 machine.tables address
        ((machine.withFrames (pageAlloc machine.data.frames).2).newTables address)
  drained : free = [] → ∀ frame, machine.Reaches nullPage frame →
    (machine.LargeAt address ∨ machine.UnmappedAt address) ∧
      ¬Live machine.tables machine.root frame

/-- When the call does what it should, by the free list.  With a page at its head: no large page is
in the way, the address is canonical, and the flags have `PRESENT` and do not reach into the frame
number; or the address is 0 and its large page leads to just this page.  Without one: the null page
can be read, and a large page is in the way or `NULL->address` and the flags have no `PRESENT`. -/
def RequestWorks (machine : Kernel) (address : Word) (flags : BitVec 32) : List Nat → Prop
  | [] => ∃ frame, machine.Reaches nullPage frame ∧ (machine.LargeAt address ∨
      present (machine.tables frame 0 ||| flagWord flags) = false)
  | i :: _ =>
    (¬machine.LargeAt address ∧ canonical address = true ∧
      present (pageAddress i ||| flagWord flags) = true ∧
      frameOf (pageAddress i ||| flagWord flags) = frameOf (pageAddress i)) ∨
    (machine.LargeAt address ∧ address = 0 ∧
      ∃ leaf, walk machine.tables machine.root 0 = some leaf ∧ leaf.frame = frameOf (pageAddress i))

variable {machine machine' : Kernel} {address : Word} {flags : BitVec 32} {p page : PagePtr}
  {free free' used : List Nat} {i : Nat} {base : Word}

/-! ### With a free page -/

theorem TableGraph.alloc (graph : TableGraph machine) :
    TableGraph (machine.withFrames (pageAlloc machine.data.frames).2) where
  recursive := graph.recursive
  pml4 := by
    change ((pageAlloc machine.data.frames).2.page machine.data.pml4).data = _
    rw [pageAlloc_page]
    exact graph.pml4
  leveled := graph.leveled
  windowed := graph.windowed

theorem not_unchanged {more : List Nat} (pool : Pool machine.data.frames free used)
    (pool' : Pool machine'.data.frames free' (more ++ used)) (grown : more ≠ []) :
    ¬NothingChanged machine machine' := by
  intro unchanged
  have same := ((unchanged.used _).mp pool'.usedRing).items_unique pool.usedRing
  have lengths := congrArg List.length same
  rw [List.length_map, List.length_map, List.length_append] at lengths
  exact grown (List.length_eq_zero_iff.mp (by omega))

theorem cleanly_iff (ran : (mmuReqPage address flags).run machine = some (p, machine'))
    (changed : ¬NothingChanged machine machine') :
    MapsOrFailsCleanly machine address flags ↔ MapsRequested p machine' address := by
  constructor
  · rintro ⟨_, _, ran', outcome⟩
    rw [ran] at ran'
    cases ran'
    exact outcome.resolve_right fun failed => changed failed.2
  · intro mapped
    exact ⟨p, machine', ran, Or.inl mapped⟩

theorem cleanly_null_iff (ran : (mmuReqPage address flags).run machine = some (.null, machine')) :
    MapsOrFailsCleanly machine address flags ↔ NothingChanged machine machine' := by
  constructor
  · rintro ⟨_, _, ran', outcome⟩
    rw [ran] at ran'
    cases ran'
    rcases outcome with mapped | ⟨_, unchanged⟩
    · exact absurd rfl mapped.returned
    · exact unchanged
  · intro unchanged
    exact ⟨.null, machine', ran, Or.inr ⟨rfl, unchanged⟩⟩

theorem mapsRequested_iff (rounded : roundDown address pageSize = base) (returned : p ≠ .null) :
    MapsRequested p machine address ↔ ∃ leaf, walk machine.tables machine.root base = some leaf ∧
      leaf.frame = frameOf (machine.data.frames.page p).address := by
  subst rounded
  exact ⟨fun maps => maps.walks, fun walks => ⟨returned, walks⟩⟩

section Stocked

variable (request : Requestable machine base (i :: free) used) (rounded : roundDown address pageSize = base)

include request

theorem Requestable.alloc :
    pageAlloc machine.data.frames = (.elem i, machine.data.frames.allocated i) ∧
      (machine.data.frames.page (.elem i)).address = pageAddress i :=
  ⟨request.pool.alloc.1, request.pool.address i (request.pool.bounded i (Or.inl List.mem_cons_self))⟩

include rounded

theorem Requestable.run :
    (mmuReqPage address flags).run machine =
      ((mmuMapPage (.elem i) base flags).run
        (machine.withFrames (pageAlloc machine.data.frames).2)).map fun result =>
          (if (result.2.data.frames.page (.elem i)).data ≠ base then .null
            else .elem i, result.2) := by
  subst rounded
  have taken : (pageAlloc machine.data.frames).1 = .elem i := by rw [request.alloc.1]
  rw [mmuReqPage_run address flags (by rw [taken]; exact PagePtr.noConfusion), taken]

theorem Requestable.mapped_iff
    (ran : (mmuMapPage (.elem i) base flags).run
      (machine.withFrames (pageAlloc machine.data.frames).2) = some ((), machine'))
    (mapped : Mapped (machine.withFrames (pageAlloc machine.data.frames).2) machine' (.elem i)
      base flags) :
    MapsOrFailsCleanly machine address flags ↔ RequestWorks machine base flags (i :: free) := by
  obtain ⟨spare, clear⟩ := request.stocked (List.cons_ne_nil i free)
  have pool : Pool (machine.withFrames (pageAlloc machine.data.frames).2).data.frames free (i :: used) := by
    change Pool (pageAlloc machine.data.frames).2 free (i :: used)
    rw [request.alloc.1]
    exact request.pool.alloc.2
  obtain ⟨count, _, _, pool'⟩ := mapped.pool pool
    ⟨free, pool.freeRing, pool.enough_of_hasPages spare.available⟩
  have changed : ¬NothingChanged machine machine' := by
    rw [List.append_cons] at pool'
    exact not_unchanged request.pool pool' (by simp)
  obtain ⟨table, here, entry⟩ := mapped.ends_of_spare spare clear request.graph.leveled
  have old : ((pageAlloc machine.data.frames).2.page (.elem i)).address = pageAddress i := by
    rw [pageAlloc_page, request.alloc.2]
  have leaf : machine'.tables table (indexAt 0 base) =
      pageAddress i ||| flagWord flags := by
    rw [entry, ← old]
    rfl
  have frame : (machine'.data.frames.page (.elem i)).address = pageAddress i := by
    rw [mapped.data]
    simp only [setData, Frames.setPage, Function.update_self]
    rw [(takeTables_page _ _ _).1]
    exact old
  have data : (machine'.data.frames.page (.elem i)).data = base := by
    rw [mapped.data]
    simp [setData, Frames.setPage]
  have returned : (mmuReqPage address flags).run machine = some (.elem i, machine') := by
    rw [request.run rounded, ran, Option.map_some, if_neg (not_not.mpr data)]
  have notLarge : ¬machine.LargeAt base := mapped.not_largeAt
  rw [cleanly_iff returned changed, mapsRequested_iff rounded PagePtr.noConfusion, RequestWorks,
    or_iff_left fun covered => notLarge covered.1, and_iff_right notLarge, ← leaf, ← walk_frame_iff here, frame]

theorem Requestable.blocked_iff
    (ran : (mmuMapPage (.elem i) base flags).run
      (machine.withFrames (pageAlloc machine.data.frames).2) = some ((), machine'))
    (blocked : Blocked (machine.withFrames (pageAlloc machine.data.frames).2) machine' (.elem i)
      base) :
    MapsOrFailsCleanly machine address flags ↔ RequestWorks machine base flags (i :: free) := by
  have covered : machine.LargeAt base := blocked.large
  have data : machine'.data.frames = (machine.data.frames.allocated i).setPage (.elem i)
      { (machine.data.frames.allocated i).page (.elem i) with data := 0 } := by
    rw [blocked.data]
    change ((pageAlloc machine.data.frames).2.setPage (.elem i) _) = _
    rw [request.alloc.1]
    rfl
  have pool' : Pool machine'.data.frames free ([i] ++ used) := by
    rw [data]
    exact request.pool.alloc.2.setPage rfl
  have changed : ¬NothingChanged machine machine' := not_unchanged request.pool pool' (by simp)
  have same : walk machine'.tables machine'.root = walk machine.tables machine.root := by
    rw [Machine.root_congr blocked.cr3, blocked.tables]
    rfl
  have frame : (machine'.data.frames.page (.elem i)).address = pageAddress i := by
    rw [data, ← request.alloc.2]
    simp [Frames.setPage, Frames.allocated]
  have zero : (machine'.data.frames.page (.elem i)).data = 0 := by
    rw [data]
    simp [Frames.setPage]
  have returned : (mmuReqPage address flags).run machine =
      some (if base = 0 then .elem i else .null, machine') := by
    rw [request.run rounded, ran, Option.map_some, zero]
    by_cases atZero : base = 0
    · rw [if_pos atZero, if_neg (not_not.mpr atZero.symm)]
    · rw [if_neg atZero, if_pos (Ne.symm atZero)]
  rw [cleanly_iff returned changed, RequestWorks, or_iff_right fun free => free.1 covered, and_iff_right covered]
  by_cases atZero : base = 0
  · rw [if_pos atZero, mapsRequested_iff rounded PagePtr.noConfusion, and_iff_right atZero, same, frame, atZero]
  · rw [if_neg atZero]
    exact iff_of_false (fun maps => maps.returned rfl) fun at' => atZero at'.1

theorem Requestable.stocked_iff :
    MapsOrFailsCleanly machine address flags ↔ RequestWorks machine base flags (i :: free) := by
  obtain ⟨spare, clear⟩ := request.stocked (List.cons_ne_nil i free)
  obtain ⟨machine', ran, mapped | blocked⟩ := request.graph.alloc.runs spare clear
    (show PagePtr.elem i ≠ .null from PagePtr.noConfusion) request.small
  · exact request.mapped_iff rounded ran mapped
  · exact request.blocked_iff rounded ran blocked

end Stocked

/-! ### Without one -/

theorem nextTable_present {pointer : Pointer} {table : Frame} {index : Index}
    {post : Pointer → Kernel → Prop} (reaches : machine.Reaches pointer table)
    (isPresent : present (machine.tables table index) = true)
    (after : post (window (roundDown (machine.tables table index) pageSize)) machine) :
    (nextTable pointer index).Runs (fun _ _ => True) machine post := by
  unfold nextTable
  rw [Prog.runs_andThen, Prog.runs_read pointer _ reaches, if_pos ((and_presentFlag _).mpr isPresent),
    Prog.runs_pure]
  exact ⟨trivial, after⟩

section PresentTables

variable {table : Frame} (here : tableAt machine.tables machine.root (pathTo address 3) = some table)

include here

theorem noLargePage_of_tableAt : NoLargePage machine address := by
  obtain ⟨pd, atPd, toPt⟩ := tableAt_cons_eq_some_iff.mp here
  obtain ⟨pdpt, atPdpt, toPd⟩ := tableAt_cons_eq_some_iff.mp atPd
  obtain ⟨root, atRoot, toPdpt⟩ := tableAt_cons_eq_some_iff.mp atPdpt
  intro level below other found _
  have levels : level = 0 ∨ level = 1 ∨ level = 2 := by omega
  rcases levels with rfl | rfl | rfl
  · obtain rfl := Option.some.inj (atRoot.symm.trans found)
    exact (tableOf_eq_some_iff.mp toPdpt).2.1
  · obtain rfl := Option.some.inj (atPdpt.symm.trans found)
    exact (tableOf_eq_some_iff.mp toPd).2.1
  · obtain rfl := Option.some.inj (atPd.symm.trans found)
    exact (tableOf_eq_some_iff.mp toPt).2.1

theorem not_largeAt_of_tableAt : ¬machine.LargeAt address := by
  rintro ⟨table, atTable, isPresent, isLarge⟩
  rw [noLargePage_of_tableAt here 2 (by decide) table atTable isPresent] at isLarge
  cases isLarge

theorem spare_of_tableAt (outside : indexAt 3 address ≠ mmuRe) (frames : Frames) :
    Spare (machine.withFrames frames) address ∧ (machine.withFrames frames).newTables address = [] := by
  have missing : missingBelow machine.tables address 3 machine.root = 0 := missingBelow_of_tableAt here
  have nothing : (machine.withFrames frames).newTables address = [] := by
    change (takeTables (missingBelow machine.tables address 3 machine.root) frames).1 = []
    rw [missing]
    rfl
  refine ⟨⟨outside, ?_, ?_, ?_, ?_, ?_⟩, nothing⟩
  · change HasPages (missingBelow machine.tables address 3 machine.root) frames
    rw [missing]
    trivial
  all_goals simp [nothing]

end PresentTables

variable {frame pt : Frame}

/-- What a call with `NULL` for its page leaves: another `data` there, and in a page table an entry
made of the `address` there. -/
inductive NullRun (machine : Kernel) (address : Word) (flags : BitVec 32) (frame : Frame) : Kernel → Prop
  | covered (met : machine.LargeAt address) : NullRun machine address flags frame (machine.write (frame, 2) 0)
  | entered (pt : Frame) (isCanonical : canonical address = true)
      (ptAt : tableAt machine.tables machine.root (pathTo address 3) = some pt)
      (absent : present (machine.tables pt (indexAt 0 address)) = false) :
      NullRun machine address flags frame
        ((machine.write (frame, 2) address).write (pt, indexAt 0 address) (machine.tables frame 0 ||| flagWord flags))

section Null

variable (reaches : machine.Reaches nullPage frame) (dead : ¬Live machine.tables machine.root frame)

include dead

theorem agree_of_dead (value : Word) {table : Frame} (live : Live machine.tables machine.root table) :
    (machine.write (frame, 2) value).tables table = machine.tables table := by
  funext index
  apply setEntry_of_ne
  rintro ⟨rfl, _⟩
  exact dead live

theorem live_absent {index : Index} (live : Live machine.tables machine.root pt)
    (absent : present (machine.tables pt index) = false) (value : Word) :
    present ((machine.write (frame, 2) value).tables pt index) = false := by
  rw [agree_of_dead dead value live]
  exact absent

theorem NullRun.unchanged_iff (null : NullRun machine address flags frame machine') :
    NothingChanged machine machine' ↔
      machine.LargeAt address ∨ present (machine.tables frame 0 ||| flagWord flags) = false := by
  cases null with
  | covered met =>
    refine iff_of_true ⟨fun _ => Iff.rfl, fun _ => Iff.rfl, rfl, rfl, fun other => ?_⟩ (Or.inl met)
    exact walk_of_agree fun _ => agree_of_dead dead 0
  | entered pt isCanonical ptAt absent =>
    have free := live_absent dead ⟨_, by rw [length_pathTo], ptAt⟩ absent address
    rw [or_iff_right (not_largeAt_of_tableAt ptAt)]
    constructor
    · intro unchanged
      by_contra isPresent
      have grows : Grows _ (setEntry (machine.write (frame, 2) address).tables pt (indexAt 0 address)
        (machine.tables frame 0 ||| flagWord flags)) := grows_setEntry (Or.inl free)
      have here := grows.tableAt ((tableAt_of_agree (fun _ => agree_of_dead dead address)
        (by rw [length_pathTo]; omega)).trans ptAt)
      obtain ⟨leaf, found, _⟩ := walk_of_tables isCanonical here
        (by rw [setEntry_same]; exact eq_true_of_ne_false isPresent)
      have before := (unchanged.translations address).symm.trans found
      rw [((walk_frame_iff ptAt).mp ⟨leaf, before, rfl⟩).2.1] at absent
      cases absent
    · intro new
      refine ⟨fun _ => Iff.rfl, fun _ => Iff.rfl, rfl, rfl, fun other => ?_⟩
      exact (walk_setEntry_absent free new).trans (walk_of_agree fun _ => agree_of_dead dead address)

include reaches

theorem NullRun.reaches_null (null : NullRun machine address flags frame machine') :
    machine'.Reaches nullPage frame := by
  obtain ⟨aligned, leaf, found, atFrame⟩ := reaches
  have moved (value : Word) : (machine.write (frame, 2) value).Reaches nullPage frame :=
    ⟨aligned, leaf, (walk_of_agree fun _ => agree_of_dead dead value).trans found, atFrame⟩
  cases null with
  | covered met => exact moved 0
  | entered pt isCanonical ptAt absent =>
    have free := live_absent dead ⟨_, by rw [length_pathTo], ptAt⟩ absent address
    exact (moved address).grows (grows_setEntry (Or.inl free)) rfl

theorem mmuMapPage_null (graph : TableGraph machine) (outside : indexAt 3 address ≠ mmuRe)
    (met : machine.LargeAt address ∨ machine.UnmappedAt address) :
    (mmuMapPage .null address flags).Runs (fun _ _ => True) machine
      fun _ => NullRun machine address flags frame := by
  obtain ⟨pd, pdAt⟩ : ∃ pd, tableAt machine.tables machine.root (pathTo address 2) = some pd := by
    rcases met with ⟨pd, pdAt, _⟩ | ⟨_, _, ptAt, _⟩
    · exact ⟨pd, pdAt⟩
    · exact (tableAt_cons_eq_some_iff.mp ptAt).imp fun _ here => here.1
  obtain ⟨pdpt, pdptAt, toPd⟩ := tableAt_cons_eq_some_iff.mp pdAt
  obtain ⟨root, rootAt, toPdpt⟩ := tableAt_cons_eq_some_iff.mp pdptAt
  obtain rfl : machine.root = root := Option.some.inj rootAt
  have pdptReaches := graph.windowed _ pdpt (links_pathTo outside (by decide) rootAt toPdpt)
  have pdReaches := graph.windowed _ pd (links_pathTo outside (by decide) pdptAt toPd)
  unfold mmuMapPage
  rw [Prog.runs_andThen, Prog.runs_getData, Prog.runs_andThen]
  change (Prog.read nullPage 0).Runs _ machine _
  rw [Prog.runs_read nullPage _ reaches]
  refine ⟨trivial, ?_⟩
  rw [pml4e_eq, pdpte_eq, pde_eq, Prog.runs_andThen]
  refine nextTable_present (recursive_reaches graph.recursive graph.pml4) (tableOf_eq_some_iff.mp toPdpt).1 ?_
  rw [Prog.runs_andThen]
  refine nextTable_present pdptReaches (tableOf_eq_some_iff.mp toPd).1 ?_
  rw [Prog.runs_andThen, Prog.runs_read _ _ pdReaches]
  refine ⟨trivial, ?_⟩
  rcases met with ⟨_, here, isPresent, isLarge⟩ | ⟨isCanonical, pt, ptAt, absent⟩
  · obtain rfl := Option.some.inj (pdAt.symm.trans here)
    rw [if_pos ⟨(and_presentFlag _).mpr isPresent, (and_ps _).mpr isLarge⟩]
    change (Prog.write nullPage 2 0).Runs _ machine _
    rw [Prog.runs_write nullPage _ _ reaches]
    exact ⟨trivial, .covered ⟨pd, pdAt, isPresent, isLarge⟩⟩
  · obtain ⟨_, here, toPt⟩ := tableAt_cons_eq_some_iff.mp ptAt
    obtain rfl := Option.some.inj (pdAt.symm.trans here)
    obtain ⟨isPresent, notLarge, _⟩ := tableOf_eq_some_iff.mp toPt
    have ptReaches := graph.windowed _ pt (links_pathTo outside (by decide) pdAt toPt)
    have small : ¬machine.tables pd (indexAt 1 address) &&& ps ≠ 0 := by
      rw [and_ps]
      exact ne_true_of_eq_false notLarge
    have apart : pt ≠ frame := by
      rintro rfl
      exact dead ⟨_, by rw [length_pathTo], ptAt⟩
    have written : (machine.write (pt, indexAt 0 address) (machine.tables frame 0 ||| flagWord flags)).Reaches
      nullPage frame := reaches.grows (grows_setEntry (Or.inl absent)) rfl
    have swapped : (machine.write (pt, indexAt 0 address) (machine.tables frame 0 ||| flagWord flags)).write
        (frame, 2) address = _ := congrArg (fun tables => { machine with tables }) (setEntry_comm apart 2 address)
    rw [if_neg fun both => small both.2, Prog.runs_andThen]
    refine nextTable_present pdReaches isPresent ?_
    rw [Prog.runs_andThen]
    change (Prog.read nullPage 0).Runs _ machine _
    rw [Prog.runs_read nullPage _ reaches]
    refine ⟨trivial, ?_⟩
    rw [Prog.runs_andThen, Prog.runs_write _ _ _ ptReaches, pte_eq]
    change True ∧ (Prog.write nullPage 2 address).Runs _ (machine.write (pt, _) _) _
    rw [Prog.runs_write nullPage _ _ written, swapped]
    exact ⟨trivial, trivial, .entered pt isCanonical ptAt absent⟩

end Null

section Drained

variable (request : Requestable machine base [] used) (rounded : roundDown address pageSize = base)

include request

theorem Requestable.empty : pageAlloc machine.data.frames = (.null, machine.data.frames) :=
  pageAlloc_nil request.pool.freeRing

include rounded

theorem Requestable.faults (unmapped : ¬∃ frame, machine.Reaches nullPage frame) :
    (mmuReqPage address flags).run machine = none := by
  subst rounded
  have absent : walk machine.tables machine.root (nullPage.entry 0) = none := by
    rw [Option.eq_none_iff_forall_not_mem]
    intro leaf found
    exact unmapped ⟨leaf.frame, rfl, leaf, found, rfl⟩
  have faulted : (loadAddress .null).run machine = none := by
    change (machine.locate nullPage 0).bind _ = none
    unfold Machine.locate
    rw [absent]
    rfl
  unfold mmuReqPage allocPage
  rw [Prog.run_andThen, Prog.run_local, Option.bind_some, Prog.run_andThen, request.empty]
  change ((mmuMapPage .null _ flags).run machine).bind _ = none
  unfold mmuMapPage
  rw [Prog.run_andThen]
  change Option.bind (Prog.run (loadAddress .null >>= _) machine) _ = none
  rw [Prog.run_andThen, faulted]
  rfl

theorem Requestable.run_null (reaches : machine.Reaches nullPage frame) :
    ∃ machine', (mmuReqPage address flags).run machine = some (.null, machine') ∧
      NullRun machine base flags frame machine' := by
  subst rounded
  obtain ⟨met, dead⟩ := request.drained rfl frame reaches
  have runs : (mmuReqPage address flags).Runs (fun _ _ => True) machine fun p machine' =>
      p = .null ∧ NullRun machine (roundDown address pageSize) flags frame machine' := by
    unfold mmuReqPage allocPage
    rw [Prog.runs_andThen, Prog.runs_local, request.empty, Prog.runs_andThen]
    refine (mmuMapPage_null reaches dead request.graph request.outside met).mono (fun _ _ good => good) ?_
    intro _ machine' null
    rw [Prog.runs_andThen]
    change (Prog.read nullPage 2).Runs _ machine' _
    rw [Prog.runs_read nullPage _ (null.reaches_null reaches dead), ite_self, Prog.runs_pure]
    exact ⟨trivial, rfl, null⟩
  obtain ⟨_, machine', ran, rfl, null⟩ := runs.run
  exact ⟨machine', ran, null⟩

end Drained

/-- The same machine with an empty free list. -/
def drainedKernel : Kernel :=
  (loaderKernel 0 0 0 0).withFrames
    { (loaderKernel 0 0 0 0).data.frames with heap := Frames.blank.heap }

end Osdev64
