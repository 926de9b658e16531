/-
`mmu_req_page` as a step of the address space.

A request takes the first free page as the new home of its page and up to three
more as tables.  The page then holds what the free page held; every other page
and the image stay as they are.
-/

import Osdev64.ElfHosts

namespace Osdev64

open Word64 Bytes Paging

variable {layout : Layout} {spare : Nat → Content} {machine machine' : Kernel} {space : Space}
  {home : Nat → Frame} {free used : List Nat} {i page count : Nat} {address : Word}
  {flags : BitVec 32} {pointer : PagePtr}

/-! ### The free pages -/

theorem Stock.below (stock : Stock layout spare machine free used) (member : i ∈ free) : i < 2 ^ 40 :=
  Nat.lt_of_lt_of_le (stock.pool.bounded i (Or.inl member)) stock.physical

theorem Stock.frame_inj {j : Nat} (stock : Stock layout spare machine free used) (left : i ∈ free)
    (right : j ∈ free) (same : pageFrame i = pageFrame j) : i = j :=
  frameOf_pageAddress_inj (stock.below left) (stock.below right) same

theorem Stock.alloc (stock : Stock layout spare machine (i :: free) used) :
    pageAlloc machine.data.frames = (.elem i, machine.data.frames.allocated i) ∧
      Stock layout spare (machine.withFrames (machine.data.frames.allocated i)) free (i :: used) := by
  obtain ⟨allocated, pool⟩ := stock.pool.alloc
  have later {j : Nat} (member : j ∈ free) : j ∈ i :: free := List.mem_cons_of_mem i member
  exact ⟨allocated, pool, stock.physical, fun j member => stock.notPml4 j (later member),
    fun j member => stock.window j (later member), fun j member => stock.windowed j (later member),
    fun j member => stock.blank j (later member),
    fun j member => stock.dead j (later member), fun j member => stock.holds j (later member)⟩

theorem Stock.stocked (stock : Stock layout spare machine free used) (enough : 3 ≤ free.length)
    (address : Word) : machine.Stocked address :=
  ⟨free, stock.pool.freeRing, Nat.le_trans (missingBelow_le _ _ _ _) enough⟩

theorem Stock.supplied (stock : Stock layout spare machine free used) (enough : 3 ≤ free.length)
    (outside : indexAt 3 address ≠ mmuRe) : Supplied layout.window machine address := by
  have stocked := stock.stocked enough address
  refine stock.pool.supplied stock.physical outside stocked ?_ stock.dead
  intro t member
  rw [(stock.pool.newTables stocked).2] at member
  obtain ⟨j, taken, rfl⟩ := List.mem_map.mp member
  have inFree := List.mem_of_mem_take taken
  exact ⟨stock.windowed j inFree, stock.window j inFree, stock.blank j inFree⟩

/-! ### What a mapping leaves alone -/

/-- A page that is not taken for a table. -/
structure KeptFrame (machine machine' : Kernel) (frame : Frame) : Prop where
  words : machine'.tables frame = machine.tables frame
  dead : ¬Live machine'.tables machine'.root frame

/-- The outcome of a call, with the free pages it took for tables. -/
structure MappedFrom (layout : Layout) (machine machine' : Kernel) (page : PagePtr) (address : Word)
    (flags : BitVec 32) (free : List Nat) (count : Nat) : Prop where
  mapped : Mapped machine machine' page address flags
  wired : Wired layout.window layout.fix machine
  supplied : Supplied layout.window machine address
  tables : machine.newTables address = (free.take count).map pageAddress

theorem MappedFrom.changed
    (from' : MappedFrom layout machine machine' pointer address flags free count) :
    Changed layout.fix machine machine' address (leafEntry machine pointer flags) :=
  from'.mapped.changed from'.supplied from'.wired.separated

theorem MappedFrom.keeps {frame : Frame}
    (from' : MappedFrom layout machine machine' pointer address flags free count)
    (dead : ¬Live machine.tables machine.root frame)
    (notTaken : ∀ j ∈ free.take count, pageFrame j ≠ frame) : KeptFrame machine machine' frame := by
  have notNew : ∀ t ∈ machine.newTables address, frameOf t ≠ frame := by
    intro t member
    rw [from'.tables] at member
    obtain ⟨j, taken, rfl⟩ := List.mem_map.mp member
    exact notTaken j taken
  refine ⟨from'.mapped.untouched from'.supplied dead notNew, ?_⟩
  intro live
  rcases from'.changed.live from'.wired.recursive live with old | ⟨t, isNew, rfl⟩
  · exact dead old
  · exact notNew t isNew rfl

theorem MappedFrom.taken {frame : Frame}
    (from' : MappedFrom layout machine machine' pointer address flags free count)
    (taken : machine.Taken free frame) :
    machine'.tables frame = machine.tables frame ∧ machine'.Taken (free.drop count) frame := by
  have kept := from'.keeps taken.dead fun j member => taken.notFree j (List.mem_of_mem_take member)
  exact ⟨kept.words, kept.dead, fun j member => taken.notFree j (List.mem_of_mem_drop member)⟩

theorem MappedFrom.walk_eq
    (from' : MappedFrom layout machine machine' pointer address flags free count) {other : Word}
    (outside : indexAt 3 other ≠ mmuRe) (different : ¬SameEntry layout.fix address other) :
    walk machine'.tables machine'.root other = walk machine.tables machine.root other := by
  rw [from'.changed.root]
  exact from'.changed.walk_eq other outside different

theorem MappedFrom.clear (sound : layout.Sound)
    (from' : MappedFrom layout machine machine' pointer (pageStart page) flags free count)
    (inArea : layout.area page) :
    Clear layout.fix machine (pageStart page) := by
  constructor
  · intro t next links
    exact sound.windowApart page inArea t (from'.wired.windowed t next links).2
  · intro t isNew
    exact sound.windowApart page inArea t (from'.supplied.fresh t isNew).2.1

theorem MappedFrom.stock
    (from' : MappedFrom layout machine machine' pointer (pageStart page) flags free count)
    (sound : layout.Sound) (inArea : layout.area page) (stock : Stock layout spare machine free used)
    {used' : List Nat} (pool : Pool machine'.data.frames (free.drop count) used') :
    Stock layout spare machine' (free.drop count) used' := by
  have split := stock.pool.free_nodup
  rw [← List.take_append_drop count free] at split
  have kept (j : Nat) (left : j ∈ free.drop count) : KeptFrame machine machine' (pageFrame j) := by
    have inFree := List.mem_of_mem_drop left
    refine from'.keeps (stock.dead j inFree) ?_
    intro k taken same
    have equal := stock.frame_inj (List.mem_of_mem_take taken) inFree same
    exact (List.nodup_append.mp split).2.2 k taken j left equal
  refine ⟨pool, ?_, ?_, fun j left => stock.window j (List.mem_of_mem_drop left), ?_, ?_,
    fun j left => (kept j left).dead, ?_⟩
  · rw [from'.mapped.data]
    change (takeTables _ machine.data.frames).2.numpages.toNat ≤ _
    rw [takeTables_numpages]
    exact stock.physical
  · intro j left
    rw [from'.mapped.data]
    exact stock.notPml4 j (List.mem_of_mem_drop left)
  · intro j left
    obtain ⟨aligned, leaf, found, atFrame⟩ := stock.windowed j (List.mem_of_mem_drop left)
    have outside : indexAt 3 (p2v (pageAddress j)) ≠ mmuRe := by
      rw [indexAt_p2v]
      decide
    have same := from'.walk_eq outside
      (sound.windowApart page inArea _ (stock.window j (List.mem_of_mem_drop left)))
    exact ⟨aligned, leaf, same.trans found, atFrame⟩
  · intro j left
    rw [(kept j left).words]
    exact stock.blank j (List.mem_of_mem_drop left)
  · intro j left x below
    rw [frameByte_congr (kept j left).words]
    exact stock.holds j (List.mem_of_mem_drop left) x below

/-! ### The page itself -/

theorem MappedFrom.walk_page (from' : MappedFrom layout machine machine' pointer (pageStart page) elfFlags
      free count) (isCanonical : canonical (pageStart page) = true) (below : i < 2 ^ 40)
    (atAddress : (machine.data.frames.page pointer).address = pageAddress i) :
    ∃ leaf, walk machine'.tables machine'.root (pageStart page) = some leaf ∧
      leaf.frame = pageFrame i := by
  have aligned : (pageAddress i).toNat % 4096 = 0 := by
    rw [pageAddress_toNat (Nat.lt_trans below (by decide))]
    omega
  obtain ⟨table, found, written⟩ := from'.changed.written
  unfold leafEntry at written
  rw [atAddress] at written
  rw [← from'.changed.root] at found
  obtain ⟨leaf, walked, atFrame⟩ := walk_of_tables isCanonical found
    (by rw [written]; exact getLsbD_leaf aligned elfFlags (by decide))
  rw [written, frameOf_leaf aligned (by decide)] at atFrame
  exact ⟨leaf, walked, atFrame⟩

theorem MappedFrom.smallPages (from' : MappedFrom layout machine machine' pointer address flags free count)
    {other : Word} (outside : indexAt 3 other ≠ mmuRe)
    (small : ∀ table, tableAt machine.tables machine.root (pathTo other 2) = some table →
      present (machine.tables table (indexAt 1 other)) = true →
      large (machine.tables table (indexAt 1 other)) = false) (table : Frame)
    (found : tableAt machine'.tables machine'.root (pathTo other 2) = some table)
    (isPresent : present (machine'.tables table (indexAt 1 other)) = true) :
    large (machine'.tables table (indexAt 1 other)) = false := by
  rw [from'.changed.root] at found
  rcases from'.changed.entries _ table _ (by simp) (avoids_pathTo outside 2) found isPresent with
    ⟨old, same⟩ | ⟨t, isNew, same⟩
  · rw [same] at isPresent ⊢
    exact small table old isPresent
  · rw [same]
    exact (tableOf_eq_some_iff.mp (tableOf_tableEntry t (from'.supplied.aligned t isNew))).2.1

/-! ### The request -/

theorem Hosts.apart_update (hosts : Hosts layout spare machine space home free used) {frame : Frame}
    {content : Content}
    (fresh : ∀ other, layout.area other → space other ≠ none → frame ≠ home other) :
    ∀ left right, layout.area left → layout.area right →
      Function.update space page (some content) left ≠ none →
      Function.update space page (some content) right ≠ none →
      Function.update home page frame left = Function.update home page frame right → left = right := by
  intro left right areaLeft areaRight isLeft isRight sameHome
  by_cases onLeft : left = page
  · by_cases onRight : right = page
    · rw [onLeft, onRight]
    · rw [onLeft, Function.update_self, Function.update_of_ne onRight] at sameHome
      rw [Function.update_of_ne onRight] at isRight
      exact absurd sameHome (fresh right areaRight isRight)
  · rw [Function.update_of_ne onLeft] at isLeft sameHome
    by_cases onRight : right = page
    · rw [onRight, Function.update_self] at sameHome
      exact absurd sameHome.symm (fresh left areaLeft isLeft)
    · rw [Function.update_of_ne onRight] at isRight sameHome
      exact hosts.apart left right areaLeft areaRight isLeft isRight sameHome

theorem Stock.first_taken (stock : Stock layout spare machine (i :: free) used) :
    machine.Taken free (pageFrame i) := by
  have here : i ∈ i :: free := List.mem_cons_self
  refine ⟨stock.dead i here, ?_⟩
  intro j member same
  have equal := stock.frame_inj (List.mem_cons_of_mem i member) here same
  exact (List.nodup_cons.mp stock.pool.free_nodup).1 (equal ▸ member)

/-- The space after a mapping: the page has a new home, and everything else its old one. -/
theorem Hosts.mappedFrom (sound : layout.Sound)
    (hosts : Hosts layout spare machine space home (i :: free) used) (inArea : layout.area page)
    (from' : MappedFrom layout (machine.withFrames (machine.data.frames.allocated i)) machine'
      (.elem i) (pageStart page) elfFlags free count)
    {used' : List Nat} (pool : Pool machine'.data.frames (free.drop count) used') :
    Hosts layout spare machine' (Function.update space page (some (spare i)))
      (Function.update home page (pageFrame i)) (free.drop count) used' := by
  obtain ⟨_, stock⟩ := hosts.stock.alloc
  have here : i ∈ i :: free := List.mem_cons_self
  have below := hosts.stock.below here
  have bounded := hosts.stock.pool.bounded i (Or.inl here)
  have fromFirst {frame : Frame} (taken : machine.Taken (i :: free) frame) :
      machine'.tables frame = machine.tables frame ∧ machine'.Taken (free.drop count) frame :=
    from'.taken ⟨taken.dead, fun j member => taken.notFree j (List.mem_cons_of_mem i member)⟩
  have own : machine'.tables (pageFrame i) = machine.tables (pageFrame i) ∧
      machine'.Taken (free.drop count) (pageFrame i) := by
    obtain ⟨dead, notFree⟩ := hosts.stock.first_taken
    exact from'.taken ⟨dead, notFree⟩
  have others {other : Nat} (area : layout.area other) (different : other ≠ page) :
      walk machine'.tables machine'.root (pageStart other) =
        walk machine.tables machine.root (pageStart other) :=
    from'.walk_eq (sound.outside other area)
      (sound.pagesApart page other inArea area (Ne.symm different))
  have notOwn (other : Nat) (area : layout.area other) (isMapped : space other ≠ none) :
      pageFrame i ≠ home other := by
    obtain ⟨content, atOther⟩ := Option.ne_none_iff_exists'.mp isMapped
    exact (hosts.mapped other content area atOther).2.1.notFree i here
  refine ⟨?_, from'.stock sound inArea stock pool, ?_, ?_, ?_, ?_, ?_⟩
  · exact from'.wired.mapped from'.supplied (from'.clear sound inArea)
      (hosts.stock.notPml4 i here) from'.mapped
  · intro other area
    exact from'.smallPages (sound.outside other area) (hosts.smallPages other area)
  · intro other area absent
    by_cases same : other = page
    · rw [same, Function.update_self] at absent
      cases absent
    · rw [Function.update_of_ne same] at absent
      rw [others area same]
      exact hosts.unmapped other area absent
  · intro other content area found
    by_cases same : other = page
    · subst same
      rw [Function.update_self] at found
      cases found
      rw [Function.update_self]
      refine ⟨from'.walk_page (sound.isCanonical _ inArea) below (hosts.stock.pool.address i bounded), own.2, ?_⟩
      intro x inside
      rw [frameByte_congr own.1]
      exact hosts.stock.holds i here x inside
    · rw [Function.update_of_ne same] at found
      rw [Function.update_of_ne same]
      obtain ⟨walked, taken, holds⟩ := hosts.mapped other content area found
      obtain ⟨words, taken'⟩ := fromFirst taken
      rw [others area same]
      refine ⟨walked, taken', ?_⟩
      intro x inside
      rw [frameByte_congr words]
      exact holds x inside
  · exact hosts.apart_update notOwn
  · intro x inside
    obtain ⟨leaf, walked, taken, holds, away⟩ := hosts.image x inside
    obtain ⟨words, taken'⟩ := fromFirst taken
    have sameWalk := from'.walk_eq (sound.imageOutside x inside) (sound.imageApart page inArea x inside)
    refine ⟨leaf, sameWalk.trans walked, taken', ?_, ?_⟩
    · rw [frameByte_congr words]
      exact holds
    · intro other area isMapped
      by_cases same : other = page
      · rw [same, Function.update_self]
        exact taken.notFree i here
      · rw [Function.update_of_ne same] at isMapped ⊢
        exact away other area isMapped

theorem roundDown_eq_pageStart (address : Word) :
    roundDown address pageSize = pageStart (address.toNat / 4096) := by
  have room := address.isLt
  apply BitVec.eq_of_toNat_eq
  rw [roundDown_page, pageStart_toNat (by omega)]

theorem Hosts.request (sound : layout.Sound)
    (hosts : Hosts layout spare machine space home (i :: free) used) (enough : 3 ≤ free.length)
    (inArea : layout.area (address.toNat / 4096)) :
    ∃ machine' count used', count ≤ 3 ∧
      (mmuReqPage address elfFlags).run machine = some (.elem i, machine') ∧
      (machine'.data.frames.page (.elem i)).data = roundDown address pageSize ∧
      Hosts layout spare machine' (Function.update space (address.toNat / 4096) (some (spare i)))
        (Function.update home (address.toNat / 4096) (pageFrame i)) (free.drop count) used' := by
  obtain ⟨allocated, stock⟩ := hosts.stock.alloc
  have wired : Wired layout.window layout.fix
      (machine.withFrames (machine.data.frames.allocated i)) := hosts.wired.withFrames rfl
  have supplied := stock.supplied enough (sound.outside _ inArea)
  obtain ⟨_, machine', ran, outcome⟩ :=
    (mmuMapPage_runs (.elem i) elfFlags PagePtr.noConfusion (wired.mapReady supplied)).run
  rcases outcome with mapped | blocked
  · obtain ⟨count, few, tables, pool⟩ := mapped.pool stock.pool (stock.stocked enough _)
    have data : (machine'.data.frames.page (.elem i)).data = pageStart (address.toNat / 4096) := by
      rw [mapped.data]
      simp [setData, Frames.setPage]
    refine ⟨machine', count, _, few, ?_, ?_, hosts.mappedFrom sound inArea
      ⟨mapped, wired, supplied, tables⟩ pool⟩
    · have real : (pageAlloc machine.data.frames).1 ≠ .null := by
        rw [allocated]
        exact PagePtr.noConfusion
      rw [mmuReqPage_run _ _ real, allocated, roundDown_eq_pageStart]
      change ((mmuMapPage (.elem i) (pageStart (address.toNat / 4096)) elfFlags).run
        (machine.withFrames (machine.data.frames.allocated i))).map _ = _
      rw [ran, Option.map_some, if_neg (not_not.mpr data)]
    · rw [roundDown_eq_pageStart, data]
  · obtain ⟨table, found, isPresent, isLarge⟩ := blocked.large
    have notLarge := hosts.smallPages _ inArea table found isPresent
    exact absurd (notLarge.symm.trans isLarge) (by decide)

end Osdev64
