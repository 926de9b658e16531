/-
The kernel as the host of an address space.

`Hosts` relates the machine to the abstract address space of the loader: which
frame is the home of each page, that a home is neither a table nor on the free
list, and what the free pages hold.  Each access of the loader is then a step of
the abstract space.
-/

import Osdev64.Elf
import Osdev64.ElfSpace
import Osdev64.MmuPool

namespace Osdev64

open Word64 Bytes Paging

/-- The first address of a page. -/
def pageStart (page : Nat) : Word := BitVec.ofNat 64 (page * 4096)

/-- The frame of a page structure. -/
def pageFrame (i : Nat) : Frame := frameOf (pageAddress i)

/-- Where the image lies in memory, the pages its segments are loaded to, and the addresses of the
frames that are tables or may become tables. -/
structure Layout where
  fix : List Index → Index → Index
  window : Word → Prop
  data : Word
  image : Memory
  size : Nat
  area : Nat → Prop

def Layout.address (layout : Layout) (x : Nat) : Word := layout.data + BitVec.ofNat 64 x

/-- Each page of the area has an entry of its own, through which neither the image nor a table is
reached. -/
structure Layout.Sound (layout : Layout) : Prop where
  isCanonical : ∀ page, layout.area page → canonical (pageStart page) = true
  outside : ∀ page, layout.area page → indexAt 3 (pageStart page) ≠ mmuRe
  pagesApart : ∀ page other, layout.area page → layout.area other → page ≠ other →
    ¬SameEntry layout.fix (pageStart page) (pageStart other)
  imageOutside : ∀ x < layout.size, indexAt 3 (layout.address x) ≠ mmuRe
  imageApart : ∀ page, layout.area page → ∀ x < layout.size,
    ¬SameEntry layout.fix (pageStart page) (layout.address x)
  windowApart : ∀ page, layout.area page → ∀ t, layout.window t →
    ¬SameEntry layout.fix (pageStart page) (p2v t)

/-- The free pages: what they hold, and that each can become a table. -/
structure Stock (layout : Layout) (spare : Nat → Content) (machine : Kernel) (free used : List Nat) :
    Prop where
  pool : Pool machine.data.frames free used
  physical : machine.data.frames.numpages.toNat ≤ 2 ^ 40
  notPml4 : ∀ i ∈ free, PagePtr.elem i ≠ machine.data.pml4
  window : ∀ i ∈ free, layout.window (pageAddress i)
  windowed : ∀ i ∈ free, machine.Reaches (Osdev64.window (pageAddress i)) (pageFrame i)
  blank : ∀ i ∈ free, ∀ place, present (machine.tables (pageFrame i) place) = false
  dead : ∀ i ∈ free, ¬Live machine.tables machine.root (pageFrame i)
  holds : ∀ i ∈ free, ∀ x < 4096, frameByte machine.tables (pageFrame i) x = spare i x

/-- A frame that is neither a table nor free. -/
structure Kernel.Taken (machine : Kernel) (free : List Nat) (frame : Frame) : Prop where
  dead : ¬Live machine.tables machine.root frame
  notFree : ∀ i ∈ free, pageFrame i ≠ frame

structure Hosts (layout : Layout) (spare : Nat → Content) (machine : Kernel) (space : Space)
    (home : Nat → Frame) (free used : List Nat) : Prop where
  wired : Wired layout.window layout.fix machine
  stock : Stock layout spare machine free used
  smallPages : ∀ page, layout.area page → ∀ table,
    tableAt machine.tables machine.root (pathTo (pageStart page) 2) = some table →
    present (machine.tables table (indexAt 1 (pageStart page))) = true →
    large (machine.tables table (indexAt 1 (pageStart page))) = false
  unmapped : ∀ page, layout.area page → space page = none →
    walk machine.tables machine.root (pageStart page) = none
  mapped : ∀ page content, layout.area page → space page = some content →
    (∃ leaf, walk machine.tables machine.root (pageStart page) = some leaf ∧
      leaf.frame = home page) ∧
    machine.Taken free (home page) ∧
    ∀ x < 4096, frameByte machine.tables (home page) x = content x
  apart : ∀ page other, layout.area page → layout.area other → space page ≠ none →
    space other ≠ none → home page = home other → page = other
  image : ∀ x < layout.size, ∃ leaf,
    walk machine.tables machine.root (layout.address x) = some leaf ∧
    machine.Taken free leaf.frame ∧
    frameByte machine.tables leaf.frame ((layout.address x).toNat % 4096) = layout.image x ∧
    ∀ page, layout.area page → space page ≠ none → home page ≠ leaf.frame

variable {layout : Layout} {spare : Nat → Content} {machine : Kernel} {space : Space}
  {home : Nat → Frame} {free used : List Nat}

theorem pageStart_toNat {page : Nat} (small : page < 2 ^ 52) :
    (pageStart page).toNat = page * 4096 := by
  unfold pageStart
  rw [BitVec.toNat_ofNat]
  omega

theorem walk_pageStart {tables : Tables} {root : Frame} (address : Word) :
    walk tables root address = walk tables root (pageStart (address.toNat / 4096)) := by
  have room := address.isLt
  apply walk_page
  rw [pageStart_toNat (by omega)]
  omega

/-! ### Accesses -/

theorem Hosts.readImage (hosts : Hosts layout spare machine space home free used) {x : Nat}
    (inside : x < layout.size) :
    (Prog.readByte (layout.address x)).run machine = some (layout.image x, machine) := by
  obtain ⟨leaf, found, _, byte, _⟩ := hosts.image x inside
  rw [readByte_run]
  unfold Machine.byteAt
  rw [found, Option.map_some, byte, Option.map_some]

theorem Hosts.byteAt (hosts : Hosts layout spare machine space home free used) {address : Word}
    (inArea : layout.area (address.toNat / 4096)) :
    machine.byteAt address = space.byte address.toNat := by
  unfold Machine.byteAt Space.byte
  rw [walk_pageStart]
  cases isMapped : space (address.toNat / 4096) with
  | none => rw [hosts.unmapped _ inArea isMapped, Option.map_none, Option.map_none]
  | some content =>
    obtain ⟨⟨leaf, found, atFrame⟩, _, holds⟩ := hosts.mapped _ content inArea isMapped
    rw [found, Option.map_some, Option.map_some, atFrame, holds _ (Nat.mod_lt _ (by decide))]

/-- The words of the live tables and of the free pages are those of `machine`. -/
structure ChangesData (machine : Kernel) (free : List Nat) (tables : Tables) : Prop where
  live : ∀ table, Live machine.tables machine.root table → tables table = machine.tables table
  free : ∀ i ∈ free, tables (pageFrame i) = machine.tables (pageFrame i)

/-- The free pages stay free pages when the live tables stay and no free page gets an entry. -/
theorem Stock.of_agree {tables : Tables} {spare' : Nat → Content}
    (stock : Stock layout spare machine free used)
    (agree : ∀ table, Live machine.tables machine.root table → tables table = machine.tables table)
    (blank : ∀ i ∈ free, ∀ place, present (tables (pageFrame i) place) = false)
    (holds : ∀ i ∈ free, ∀ x < 4096, frameByte tables (pageFrame i) x = spare' i x) :
    Stock layout spare' { machine with tables := tables } free used where
  pool := stock.pool
  physical := stock.physical
  notPml4 := stock.notPml4
  window := stock.window
  windowed := by
    intro i member
    obtain ⟨aligned, leaf, found, atFrame⟩ := stock.windowed i member
    exact ⟨aligned, leaf, (walk_of_agree agree).trans found, atFrame⟩
  blank := blank
  dead := by
    intro i member live
    exact stock.dead i member ((live_of_agree agree).mp live)
  holds := holds

theorem Stock.changesData {tables : Tables} (stock : Stock layout spare machine free used)
    (changes : ChangesData machine free tables) :
    Stock layout spare { machine with tables := tables } free used := by
  apply stock.of_agree changes.live
  · intro i member place
    rw [changes.free i member]
    exact stock.blank i member place
  · intro i member x below
    rw [frameByte_congr (changes.free i member)]
    exact stock.holds i member x below

theorem Kernel.Taken.of_agree {tables : Tables} {frame : Frame} (taken : machine.Taken free frame)
    (agree : ∀ table, Live machine.tables machine.root table → tables table = machine.tables table) :
    Kernel.Taken { machine with tables := tables } free frame :=
  ⟨fun live => taken.dead ((live_of_agree agree).mp live), taken.notFree⟩

theorem Hosts.smallPages_of_agree (hosts : Hosts layout spare machine space home free used)
    {tables : Tables}
    (agree : ∀ table, Live machine.tables machine.root table → tables table = machine.tables table) :
    ∀ page, layout.area page → ∀ table,
      tableAt tables machine.root (pathTo (pageStart page) 2) = some table →
      present (tables table (indexAt 1 (pageStart page))) = true →
      large (tables table (indexAt 1 (pageStart page))) = false := by
  intro page area table found
  have found' : tableAt machine.tables machine.root (pathTo (pageStart page) 2) = some table :=
    (tableAt_of_agree agree (by simp)).symm.trans found
  rw [agree table ⟨_, by simp, found'⟩]
  exact hosts.smallPages page area table found'

theorem Hosts.setByte (hosts : Hosts layout spare machine space home free used) {page offset : Nat}
    (inArea : layout.area page) (isMapped : space page ≠ none) (inside : offset < 4096) (byte : Byte) :
    Hosts layout spare
      { machine with tables := setFrameByte machine.tables (home page) offset byte }
      (space.fill (4096 * page + offset) 1 fun _ => byte) home free used := by
  obtain ⟨content, atPage⟩ := Option.ne_none_iff_exists'.mp isMapped
  obtain ⟨_, taken, _⟩ := hosts.mapped page content inArea atPage
  have changes : ChangesData machine free (setFrameByte machine.tables (home page) offset byte) := by
    constructor
    · intro table live
      apply setFrameByte_other
      rintro rfl
      exact taken.dead live
    · intro i member
      exact setFrameByte_other (taken.notFree i member) offset byte
  have walkEq (address : Word) :
      walk (setFrameByte machine.tables (home page) offset byte) machine.root address =
        walk machine.tables machine.root address := walk_of_agree changes.live
  refine ⟨hosts.wired.agree changes.live rfl rfl, hosts.stock.changesData changes,
    hosts.smallPages_of_agree changes.live, ?_, ?_, ?_, ?_⟩
  · intro other area absent
    rw [Space.fill_eq_none_iff] at absent
    exact (walkEq _).trans (hosts.unmapped other area absent)
  · intro other content' area found
    obtain ⟨old, atOther, rfl⟩ := Option.map_eq_some_iff.mp found
    obtain ⟨⟨leaf, walked, atFrame⟩, taken', holds⟩ := hosts.mapped other old area atOther
    refine ⟨⟨leaf, (walkEq _).trans walked, atFrame⟩, taken'.of_agree changes.live, ?_⟩
    intro x below
    change frameByte (setFrameByte machine.tables (home page) offset byte) (home other) x =
      if 4096 * page + offset ≤ 4096 * other + x ∧ 4096 * other + x < 4096 * page + offset + 1 then byte
      else old x
    rw [frameByte_setFrameByte inside below]
    by_cases here : other = page ∧ x = offset
    · rw [if_pos ⟨by rw [here.1], here.2⟩, if_pos (by omega)]
    · rw [if_neg, if_neg (by omega), holds x below]
      rintro ⟨sameHome, rfl⟩
      refine here ⟨hosts.apart other page area inArea ?_ isMapped sameHome, rfl⟩
      rw [atOther]
      exact Option.some_ne_none _
  · intro left right areaLeft areaRight isLeft isRight
    rw [ne_eq, Space.fill_eq_none_iff] at isLeft isRight
    exact hosts.apart left right areaLeft areaRight isLeft isRight
  · intro x below
    obtain ⟨leaf, walked, taken', holds, away⟩ := hosts.image x below
    refine ⟨leaf, (walkEq _).trans walked, taken'.of_agree changes.live, ?_, ?_⟩
    · rw [← holds]
      exact frameByte_congr (setFrameByte_other (away page inArea isMapped).symm offset byte) _
    · intro other area mapped
      rw [ne_eq, Space.fill_eq_none_iff] at mapped
      exact away other area mapped

theorem Hosts.write (hosts : Hosts layout spare machine space home free used) {address : Word}
    (inArea : layout.area (address.toNat / 4096)) (isMapped : space (address.toNat / 4096) ≠ none)
    (byte : Byte) :
    ∃ machine', (Prog.writeByte address byte).run machine = some ((), machine') ∧
      Hosts layout spare machine' (space.fill address.toNat 1 fun _ => byte) home free used := by
  obtain ⟨content, atPage⟩ := Option.ne_none_iff_exists'.mp isMapped
  obtain ⟨⟨leaf, found, atFrame⟩, _, _⟩ := hosts.mapped _ content inArea atPage
  rw [← walk_pageStart] at found
  have stored := hosts.setByte inArea isMapped (Nat.mod_lt address.toNat (by decide)) byte
  rw [Nat.div_add_mod, ← atFrame] at stored
  exact ⟨_, writeByte_run found byte, stored⟩

theorem Hosts.write_fault (hosts : Hosts layout spare machine space home free used) {address : Word}
    (inArea : layout.area (address.toNat / 4096)) (absent : space (address.toNat / 4096) = none)
    (byte : Byte) : (Prog.writeByte address byte).run machine = none := by
  apply writeByte_fault
  rw [walk_pageStart]
  exact hosts.unmapped _ inArea absent

end Osdev64
