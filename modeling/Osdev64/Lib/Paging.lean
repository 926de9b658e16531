/-
Four-level paging over physical memory.

Physical memory is seen as frames of 512 words.  The walk of a virtual address
reads one word a level; a present word without the large-page bit leads to the
frame of the next table.  Two facts carry what is proved with it: a walk depends
only on the words it reads, and words that were not present before take no
successful walk away.
-/

import Osdev64.Lib.Word
import Mathlib.Data.Option.Basic

namespace Paging

open Word64

/-- Bits 12 to 51 of a physical address. -/
abbrev Frame := BitVec 40

abbrev Index := BitVec 9

abbrev Tables := Frame → Index → Word

def present (entry : Word) : Bool := entry.getLsbD 0

def writable (entry : Word) : Bool := entry.getLsbD 1

def userMode (entry : Word) : Bool := entry.getLsbD 2

/-- The page-size bit. -/
def large (entry : Word) : Bool := entry.getLsbD 7

def frameOf (entry : Word) : Frame := entry.extractLsb' 12 40

/-- The nine bits that select the entry at a level; level 0 is the page table. -/
def indexAt (level : Nat) (address : Word) : Index := address.extractLsb' (12 + 9 * level) 9

/-- Bits 48 to 63 repeat bit 47. -/
def canonical (address : Word) : Bool :=
  address.extractLsb' 47 17 = 0 ∨ address.extractLsb' 47 17 = BitVec.allOnes 17

/-- The frame of a virtual page and the rights all levels grant. -/
structure Leaf where
  frame : Frame
  writable : Bool
  user : Bool
  deriving DecidableEq, Repr

def Leaf.under (entry : Word) (leaf : Leaf) : Leaf where
  frame := leaf.frame
  writable := Paging.writable entry && leaf.writable
  user := userMode entry && leaf.user

def largeFrame (level : Nat) (entry address : Word) : Frame :=
  let low : Frame := ~~~(BitVec.allOnes 40 <<< (9 * level))
  (frameOf entry &&& ~~~low) ||| (frameOf address &&& low)

/-- The walk from a table of the given level.  The large-page bit is reserved at
the top level and is no size bit in a page table. -/
def walkFrom (tables : Tables) (address : Word) : Nat → Frame → Option Leaf
  | 0, frame => some { frame := frame, writable := true, user := true }
  | level + 1, frame =>
    let entry := tables frame (indexAt level address)
    if present entry = false then none
    else if level = 0 ∨ large entry = false then
      (walkFrom tables address level (frameOf entry)).map (Leaf.under entry)
    else if level = 3 then none
    else some (Leaf.under entry
      { frame := largeFrame level entry address, writable := true, user := true })

def walk (tables : Tables) (root : Frame) (address : Word) : Option Leaf :=
  if canonical address then walkFrom tables address 4 root else none

/-- The frame an entry above the page tables leads to. -/
def tableOf (entry : Word) : Option Frame :=
  if present entry = true ∧ large entry = false then some (frameOf entry) else none

/-- The table at a path of entries, the last one first. -/
def tableAt (tables : Tables) (root : Frame) : List Index → Option Frame
  | [] => some root
  | index :: path => (tableAt tables root path).bind fun frame => tableOf (tables frame index)

/-- The entries of the first `steps` levels on the walk of an address. -/
def pathTo (address : Word) : Nat → List Index
  | 0 => []
  | steps + 1 => indexAt (3 - steps) address :: pathTo address steps

def setEntry (tables : Tables) (frame : Frame) (index : Index) (entry : Word) : Tables :=
  fun other place => if other = frame ∧ place = index then entry else tables other place

variable {tables tables' : Tables} {root frame fresh : Frame} {index : Index}
  {entry address : Word} {path : List Index}

@[simp] theorem setEntry_same : setEntry tables frame index entry frame index = entry := by
  simp [setEntry]

theorem setEntry_comm {other : Frame} (apart : frame ≠ other) (place : Index) (value : Word) :
    setEntry (setEntry tables frame index entry) other place value =
      setEntry (setEntry tables other place value) frame index entry := by
  funext table slot
  unfold setEntry
  by_cases here : table = frame
  · rw [if_neg fun (same : table = other ∧ _) => apart (here.symm.trans same.1),
      if_neg fun (same : table = other ∧ _) => apart (here.symm.trans same.1)]
  · rw [if_neg fun (same : table = frame ∧ _) => here same.1, if_neg fun (same : table = frame ∧ _) => here same.1]

theorem setEntry_of_ne {other : Frame} {place : Index} (different : ¬(other = frame ∧ place = index)) :
    setEntry tables frame index entry other place = tables other place := by
  simp only [setEntry, if_neg different]

@[simp] theorem length_pathTo (address : Word) (steps : Nat) :
    (pathTo address steps).length = steps := by
  induction steps with
  | zero => rfl
  | succ steps ih => simp [pathTo, ih]

theorem tableOf_eq_some_iff :
    tableOf entry = some frame ↔ present entry = true ∧ large entry = false ∧ frameOf entry = frame := by
  unfold tableOf
  by_cases leads : present entry = true ∧ large entry = false
  · simp [leads]
  · rw [if_neg leads]
    tauto

theorem tableAt_cons_eq_some_iff :
    tableAt tables root (index :: path) = some frame ↔
      ∃ parent, tableAt tables root path = some parent ∧
        tableOf (tables parent index) = some frame := by
  simp [tableAt, Option.bind_eq_some_iff]

/-! ### What a walk reads -/

theorem walkFrom_step (level : Nat) (frame next : Frame)
    (leads : tableOf (tables frame (indexAt level address)) = some next) :
    walkFrom tables address (level + 1) frame =
      (walkFrom tables address level next).map (Leaf.under (tables frame (indexAt level address))) := by
  obtain ⟨isPresent, notLarge, target⟩ := tableOf_eq_some_iff.mp leads
  simp [walkFrom, isPresent, notLarge, target]

theorem walkFrom_absent (level : Nat) (frame : Frame)
    (absent : present (tables frame (indexAt level address)) = false) :
    walkFrom tables address (level + 1) frame = none := by
  simp [walkFrom, absent]

theorem walkFrom_congr_step {level : Nat}
    (same : tables' frame (indexAt level address) = tables frame (indexAt level address))
    (below : ∀ next, level ≠ 0 → tableOf (tables frame (indexAt level address)) = some next →
      walkFrom tables' address level next = walkFrom tables address level next) :
    walkFrom tables' address (level + 1) frame = walkFrom tables address (level + 1) frame := by
  cases isPresent : present (tables frame (indexAt level address)) with
  | false => rw [walkFrom_absent level frame (by rw [same]; exact isPresent), walkFrom_absent level frame isPresent]
  | true =>
    simp only [walkFrom, same, isPresent]
    by_cases last : level = 0
    · simp only [last, walkFrom]
    · cases isLarge : large (tables frame (indexAt level address)) with
      | false => rw [below _ last (tableOf_eq_some_iff.mpr ⟨isPresent, isLarge, rfl⟩)]
      | true => simp [last]

theorem tableAt_pathTo_next {level : Nat} {next : Frame} (low : level < 4)
    (here : tableAt tables root (pathTo address (4 - (level + 1))) = some frame)
    (leads : tableOf (tables frame (indexAt level address)) = some next) :
    tableAt tables root (pathTo address (4 - level)) = some next := by
  have steps : 4 - level = 4 - (level + 1) + 1 := by omega
  have below : 3 - (4 - (level + 1)) = level := by omega
  rw [steps, pathTo, below]
  exact tableAt_cons_eq_some_iff.mpr ⟨frame, here, leads⟩

private theorem walkFrom_congr (level : Nat) (low : level ≤ 4) (frame : Frame)
    (here : tableAt tables root (pathTo address (4 - level)) = some frame)
    (same : ∀ steps < 4, ∀ table, tableAt tables root (pathTo address steps) = some table →
      tables' table (indexAt (3 - steps) address) = tables table (indexAt (3 - steps) address)) :
    walkFrom tables' address level frame = walkFrom tables address level frame := by
  induction level generalizing frame with
  | zero => rfl
  | succ level ih =>
    have below : 3 - (4 - (level + 1)) = level := by omega
    have sameEntry := same (4 - (level + 1)) (by omega) frame here
    rw [below] at sameEntry
    apply walkFrom_congr_step sameEntry
    intro next _ leads
    exact ih (by omega) next (tableAt_pathTo_next low here leads)

theorem walk_congr
    (same : ∀ steps < 4, ∀ table, tableAt tables root (pathTo address steps) = some table →
      tables' table (indexAt (3 - steps) address) = tables table (indexAt (3 - steps) address)) :
    walk tables' root address = walk tables root address := by
  unfold walk
  rw [walkFrom_congr 4 (Nat.le_refl 4) root rfl same]

theorem walk_setEntry_of_not_visited
    (unvisited : ∀ steps < 4, tableAt tables root (pathTo address steps) = some frame →
      indexAt (3 - steps) address ≠ index) :
    walk (setEntry tables frame index entry) root address = walk tables root address := by
  apply walk_congr
  intro steps below table here
  apply setEntry_of_ne
  rintro ⟨rfl, same⟩
  exact unvisited steps below here same

theorem walkFrom_pathTo {steps : Nat} (inside : steps ≤ 4)
    (here : tableAt tables root (pathTo address steps) = some frame) :
    walkFrom tables address 4 root = none ↔ walkFrom tables address (4 - steps) frame = none := by
  induction steps generalizing frame with
  | zero => rw [Option.some.inj here]
  | succ steps ih =>
    obtain ⟨parent, atParent, leads⟩ := tableAt_cons_eq_some_iff.mp here
    have levels : 4 - steps = 3 - steps + 1 := by omega
    have levels' : 4 - (steps + 1) = 3 - steps := by omega
    rw [ih (by omega) atParent, levels, levels', walkFrom_step (3 - steps) parent frame leads,
      Option.map_eq_none_iff]

theorem walk_through (isCanonical : canonical address = true) {table : Frame}
    (here : tableAt tables root (pathTo address 3) = some table)
    (isPresent : present (tables table (indexAt 0 address)) = true) :
    ∃ third second, tableAt tables root (pathTo address 1) = some third ∧
      tableAt tables root (pathTo address 2) = some second ∧
      walk tables root address = some
        (((Leaf.mk (frameOf (tables table (indexAt 0 address))) true true).under
          (tables table (indexAt 0 address)) |>.under (tables second (indexAt 1 address))
          |>.under (tables third (indexAt 2 address))) |>.under (tables root (indexAt 3 address))) := by
  obtain ⟨second, secondAt, toTable⟩ := tableAt_cons_eq_some_iff.mp here
  obtain ⟨third, thirdAt, toSecond⟩ := tableAt_cons_eq_some_iff.mp secondAt
  obtain ⟨fourth, fourthAt, toThird⟩ := tableAt_cons_eq_some_iff.mp thirdAt
  have atRoot : root = fourth := Option.some.inj fourthAt
  subst atRoot
  have last : walkFrom tables address 1 table =
      some (Leaf.under (tables table (indexAt 0 address))
        { frame := frameOf (tables table (indexAt 0 address)), writable := true, user := true }) := by
    simp [walkFrom, isPresent]
  refine ⟨third, second, thirdAt, secondAt, ?_⟩
  unfold walk
  rw [if_pos isCanonical, walkFrom_step 3 root third toThird,
    walkFrom_step 2 third second toSecond, walkFrom_step 1 second table toTable, last]
  rfl

theorem walk_of_tables (isCanonical : canonical address = true) {table : Frame}
    (here : tableAt tables root (pathTo address 3) = some table)
    (isPresent : present (tables table (indexAt 0 address)) = true) :
    ∃ leaf, walk tables root address = some leaf ∧
      leaf.frame = frameOf (tables table (indexAt 0 address)) := by
  obtain ⟨_, _, _, _, found⟩ := walk_through isCanonical here isPresent
  exact ⟨_, found, rfl⟩

theorem walk_frame_iff {table target : Frame}
    (here : tableAt tables root (pathTo address 3) = some table) :
    (∃ leaf, walk tables root address = some leaf ∧ leaf.frame = target) ↔
      canonical address = true ∧ present (tables table (indexAt 0 address)) = true ∧
        frameOf (tables table (indexAt 0 address)) = target := by
  constructor
  · rintro ⟨leaf, found, atTarget⟩
    have isCanonical : canonical address = true := by
      by_contra notCanonical
      unfold walk at found
      rw [if_neg notCanonical] at found
      cases found
    have isPresent : present (tables table (indexAt 0 address)) = true := by
      by_contra absent
      have nothing : walkFrom tables address 4 root = none :=
        (walkFrom_pathTo (by decide) here).mpr (walkFrom_absent 0 table (Bool.of_not_eq_true absent))
      unfold walk at found
      rw [if_pos isCanonical, nothing] at found
      cases found
    obtain ⟨leaf', found', atEntry⟩ := walk_of_tables isCanonical here isPresent
    have same : leaf = leaf' := Option.some.inj (found.symm.trans found')
    exact ⟨isCanonical, isPresent, by rw [← atEntry, ← same, atTarget]⟩
  · rintro ⟨isCanonical, isPresent, atTarget⟩
    obtain ⟨leaf, found, atEntry⟩ := walk_of_tables isCanonical here isPresent
    exact ⟨leaf, found, atEntry.trans atTarget⟩

theorem walk_of_large (isCanonical : canonical address = true) {table : Frame}
    (here : tableAt tables root (pathTo address 2) = some table)
    (isPresent : present (tables table (indexAt 1 address)) = true)
    (isLarge : large (tables table (indexAt 1 address)) = true) :
    ∃ leaf, walk tables root address = some leaf ∧
      leaf.frame = largeFrame 1 (tables table (indexAt 1 address)) address := by
  obtain ⟨third, thirdAt, toTable⟩ := tableAt_cons_eq_some_iff.mp here
  obtain ⟨fourth, fourthAt, toThird⟩ := tableAt_cons_eq_some_iff.mp thirdAt
  have atRoot : root = fourth := Option.some.inj fourthAt
  subst atRoot
  have last : walkFrom tables address 2 table =
      some (Leaf.under (tables table (indexAt 1 address))
        { frame := largeFrame 1 (tables table (indexAt 1 address)) address
          writable := true
          user := true }) := by
    simp [walkFrom, isPresent, isLarge]
  unfold walk
  rw [if_pos isCanonical, walkFrom_step 3 root third toThird,
    walkFrom_step 2 third table toTable, last]
  exact ⟨_, rfl, rfl⟩

/-! ### Pages -/

private theorem extract_page {left right : Word} (samePage : left.toNat / 4096 = right.toNat / 4096)
    (start length : Nat) (high : 12 ≤ start) :
    left.extractLsb' start length = right.extractLsb' start length := by
  apply BitVec.eq_of_toNat_eq
  obtain ⟨above, rfl⟩ : ∃ above, start = 12 + above := ⟨start - 12, by omega⟩
  rw [BitVec.extractLsb'_toNat, BitVec.extractLsb'_toNat, Nat.shiftRight_eq_div_pow,
    Nat.shiftRight_eq_div_pow, Nat.pow_add, ← Nat.div_div_eq_div_mul, ← Nat.div_div_eq_div_mul]
  change left.toNat / 4096 / 2 ^ above % 2 ^ length = right.toNat / 4096 / 2 ^ above % 2 ^ length
  rw [samePage]

theorem indexAt_page {left right : Word} (samePage : left.toNat / 4096 = right.toNat / 4096)
    (level : Nat) : indexAt level left = indexAt level right :=
  extract_page samePage _ 9 (by omega)

private theorem walkFrom_page {left right : Word} (samePage : left.toNat / 4096 = right.toNat / 4096)
    (level : Nat) (frame : Frame) :
    walkFrom tables left level frame = walkFrom tables right level frame := by
  induction level generalizing frame with
  | zero => rfl
  | succ level ih =>
    have sameIndex := indexAt_page samePage level
    have sameFrame : frameOf left = frameOf right := extract_page samePage 12 40 (Nat.le_refl 12)
    simp only [walkFrom, largeFrame, sameIndex, sameFrame, ih]

theorem walk_page {left right : Word} (samePage : left.toNat / 4096 = right.toNat / 4096) :
    walk tables root left = walk tables root right := by
  have sameHigh : canonical left = canonical right := by
    unfold canonical
    rw [extract_page samePage 47 17 (by omega)]
  unfold walk
  rw [sameHigh, walkFrom_page samePage]

theorem indexAt_toNat (level : Nat) (address : Word) :
    (indexAt level address).toNat = address.toNat / 2 ^ (12 + 9 * level) % 512 := by
  unfold indexAt
  rw [BitVec.extractLsb'_toNat, Nat.shiftRight_eq_div_pow]

theorem frameOf_toNat (entry : Word) : (frameOf entry).toNat = entry.toNat / 4096 % 2 ^ 40 := by
  unfold frameOf
  rw [BitVec.extractLsb'_toNat, Nat.shiftRight_eq_div_pow]

theorem largeFrame_toNat {level : Nat} (low : level < 3) (entry address : Word) :
    (largeFrame level entry address).toNat =
      (frameOf entry).toNat / 2 ^ (9 * level) * 2 ^ (9 * level) +
        (frameOf address).toNat % 2 ^ (9 * level) := by
  have masks : ∀ level < 3,
      ~~~(BitVec.allOnes 40 <<< (9 * level)) = BitVec.ofNat 40 (2 ^ (9 * level) - 1) ∧
        ~~~~~~(BitVec.allOnes 40 <<< (9 * level)) = BitVec.allOnes 40 <<< (9 * level) ∧
        (BitVec.ofNat 40 (2 ^ (9 * level) - 1)).toNat = 2 ^ (9 * level) - 1 := by decide
  obtain ⟨lowMask, highMask, value⟩ := masks level low
  unfold largeFrame
  simp only
  rw [highMask, lowMask, BitVec.toNat_or, toNat_and_high, BitVec.toNat_and, value,
    Nat.and_two_pow_sub_one_eq_mod, Nat.mul_comm (_ / _),
    ← Nat.two_pow_add_eq_or_of_lt (Nat.mod_lt _ (Nat.two_pow_pos _))]

theorem canonical_iff :
    canonical address = true ↔ address.toNat < 2 ^ 47 ∨ 2 ^ 64 - 2 ^ 47 ≤ address.toNat := by
  have bound := address.isLt
  have high : (address.extractLsb' 47 17).toNat = address.toNat / 2 ^ 47 := by
    rw [BitVec.extractLsb'_toNat, Nat.shiftRight_eq_div_pow]
    omega
  unfold canonical
  simp only [decide_eq_true_eq, ← BitVec.toNat_inj, high]
  change address.toNat / 2 ^ 47 = 0 ∨ address.toNat / 2 ^ 47 = 2 ^ 17 - 1 ↔ _
  omega

/-- A place in a table of one level, from the place in the level above and the index. -/
private theorem quotient_eq {left right : Nat} (level : Nat)
    (above : left / 2 ^ (12 + 9 * (level + 1)) = right / 2 ^ (12 + 9 * (level + 1)))
    (index : left / 2 ^ (12 + 9 * level) % 512 = right / 2 ^ (12 + 9 * level) % 512) :
    left / 2 ^ (12 + 9 * level) = right / 2 ^ (12 + 9 * level) := by
  have split : ∀ place, place / 2 ^ (12 + 9 * (level + 1)) = place / 2 ^ (12 + 9 * level) / 512 := by
    intro place
    rw [Nat.div_div_eq_div_mul, Nat.mul_succ, ← Nat.add_assoc, Nat.pow_add]
  rw [split, split] at above
  omega

theorem samePage_of_indices {left right : Word} (leftCanonical : canonical left = true)
    (rightCanonical : canonical right = true)
    (same : ∀ level < 4, indexAt level left = indexAt level right) :
    left.toNat / 4096 = right.toNat / 4096 := by
  have equal : ∀ level < 4, left.toNat / 2 ^ (12 + 9 * level) % 512 =
      right.toNat / 2 ^ (12 + 9 * level) % 512 := by
    intro level below
    rw [← indexAt_toNat, ← indexAt_toNat, same level below]
  -- the top index decides the bits above it, as the address is canonical
  have top : left.toNat / 2 ^ (12 + 9 * 3) = right.toNat / 2 ^ (12 + 9 * 3) := by
    have index := equal 3 (by omega)
    have leftBound := left.isLt
    have rightBound := right.isLt
    rw [canonical_iff] at leftCanonical rightCanonical
    omega
  have third := quotient_eq 2 top (equal 2 (by omega))
  have second := quotient_eq 1 third (equal 1 (by omega))
  exact quotient_eq 0 second (equal 0 (by omega))

theorem exists_address (third second first zeroth : Index) :
    ∃ address : Word, canonical address = true ∧ indexAt 3 address = third ∧
      indexAt 2 address = second ∧ indexAt 1 address = first ∧ indexAt 0 address = zeroth := by
  have bounds := And.intro (And.intro third.isLt second.isLt) (And.intro first.isLt zeroth.isLt)
  -- bits 48 to 63 repeat bit 47
  obtain ⟨high, isHigh⟩ : ∃ high : Nat, third.toNat < 256 ∧ high = 0 ∨
      256 ≤ third.toNat ∧ high = 2 ^ 64 - 2 ^ 48 := by
    by_cases low : third.toNat < 256
    · exact ⟨0, Or.inl ⟨low, rfl⟩⟩
    · exact ⟨2 ^ 64 - 2 ^ 48, Or.inr ⟨by omega, rfl⟩⟩
  have value : (BitVec.ofNat 64 (high + third.toNat * 2 ^ 39 + second.toNat * 2 ^ 30 +
      first.toNat * 2 ^ 21 + zeroth.toNat * 2 ^ 12)).toNat = high + third.toNat * 2 ^ 39 +
        second.toNat * 2 ^ 30 + first.toNat * 2 ^ 21 + zeroth.toNat * 2 ^ 12 := by
    rw [BitVec.toNat_ofNat]
    omega
  refine ⟨_, canonical_iff.mpr (by rw [value]; omega), ?_, ?_, ?_, ?_⟩
  all_goals
    apply BitVec.eq_of_toNat_eq
    rw [indexAt_toNat, value]
    omega

theorem pathTo_congr {left right : Word} {steps : Nat}
    (same : ∀ level < 4, indexAt level left = indexAt level right) : pathTo left steps = pathTo right steps := by
  induction steps with
  | zero => rfl
  | succ steps ih => rw [pathTo, pathTo, ih, same _ (by omega)]

theorem indexAt_of_pathTo {left right : Word} {steps level : Nat}
    (same : pathTo left steps = pathTo right steps) (high : 4 ≤ level + steps) (low : level < 4) :
    indexAt level left = indexAt level right := by
  induction steps with
  | zero => omega
  | succ steps ih =>
    obtain ⟨last, before⟩ := List.cons.inj same
    rcases Nat.lt_or_ge (level + steps) 4 with here | above
    · have isLevel : level = 3 - steps := by omega
      rw [isLevel]
      exact last
    · exact ih before above

theorem exists_address_below (path : List Index) (short : path.length ≤ 3) (address : Word) :
    ∃ other : Word, canonical other = true ∧ pathTo other path.length = path ∧
      ∀ level, level + path.length < 4 → indexAt level other = indexAt level address := by
  obtain ⟨other, isCanonical, third, second, first, zeroth⟩ := exists_address
    (path.reverse.getD 0 (indexAt 3 address)) (path.reverse.getD 1 (indexAt 2 address))
    (path.reverse.getD 2 (indexAt 1 address)) (indexAt 0 address)
  refine ⟨other, isCanonical, ?_⟩
  match path, short with
  | [], _ =>
    refine ⟨rfl, fun level below => ?_⟩
    match level, below with
    | 0, _ => exact zeroth
    | 1, _ => exact first
    | 2, _ => exact second
    | 3, _ => exact third
  | [top], _ =>
    refine ⟨by simpa [pathTo] using third, fun level below => ?_⟩
    match level, below with
    | 0, _ => exact zeroth
    | 1, _ => exact first
    | 2, _ => exact second
  | [middle, top], _ =>
    refine ⟨by simpa [pathTo] using ⟨second, third⟩, fun level below => ?_⟩
    match level, below with
    | 0, _ => exact zeroth
    | 1, _ => exact first
  | [last, middle, top], _ =>
    refine ⟨by simpa [pathTo] using ⟨first, second, third⟩, fun level below => ?_⟩
    match level, below with
    | 0, _ => exact zeroth

/-! ### Growing tables -/

/-- Every present word is kept. -/
def Grows (tables tables' : Tables) : Prop :=
  ∀ frame index, present (tables frame index) = true → tables' frame index = tables frame index

theorem Grows.refl (tables : Tables) : Grows tables tables := fun _ _ _ => rfl

theorem Grows.trans {tables'' : Tables} (first : Grows tables tables')
    (second : Grows tables' tables'') : Grows tables tables'' := by
  intro frame index isPresent
  have kept := first frame index isPresent
  rw [second frame index (by rw [kept]; exact isPresent), kept]

theorem grows_setEntry (spare : present (tables frame index) = false ∨ tables frame index = entry) :
    Grows tables (setEntry tables frame index entry) := by
  intro other place isPresent
  by_cases same : other = frame ∧ place = index
  · obtain ⟨rfl, rfl⟩ := same
    rcases spare with absent | equal
    · rw [absent] at isPresent
      cases isPresent
    · rw [setEntry_same, equal]
  · exact setEntry_of_ne same

theorem Grows.tableAt (grows : Grows tables tables')
    (here : tableAt tables root path = some frame) : tableAt tables' root path = some frame := by
  induction path generalizing frame with
  | nil => exact here
  | cons index path ih =>
    obtain ⟨parent, atParent, leads⟩ := tableAt_cons_eq_some_iff.mp here
    refine tableAt_cons_eq_some_iff.mpr ⟨parent, ih atParent, ?_⟩
    rw [grows parent index (tableOf_eq_some_iff.mp leads).1]
    exact leads

theorem Grows.walkFrom (grows : Grows tables tables') {leaf : Leaf} (level : Nat) (frame : Frame)
    (found : walkFrom tables address level frame = some leaf) :
    walkFrom tables' address level frame = some leaf := by
  induction level generalizing frame leaf with
  | zero => exact found
  | succ level ih =>
    have isPresent : present (tables frame (indexAt level address)) = true := by
      by_contra absent
      rw [walkFrom_absent level frame (by simpa using absent)] at found
      cases found
    have kept := grows frame _ isPresent
    simp only [Paging.walkFrom, kept, isPresent, Bool.true_eq_false, if_false] at found ⊢
    by_cases descends : level = 0 ∨ large (tables frame (indexAt level address)) = false
    · rw [if_pos descends] at found ⊢
      obtain ⟨inner, innerFound, result⟩ := Option.map_eq_some_iff.mp found
      rw [ih _ innerFound, Option.map_some, result]
    · rw [if_neg descends] at found ⊢
      exact found

theorem Grows.walk (grows : Grows tables tables') {leaf : Leaf}
    (found : walk tables root address = some leaf) : walk tables' root address = some leaf := by
  unfold Paging.walk at found ⊢
  by_cases isCanonical : canonical address = true
  · rw [if_pos isCanonical] at found ⊢
    exact grows.walkFrom 4 root found
  · rw [if_neg isCanonical] at found
    cases found

theorem walk_setEntry_absent (old : present (tables frame index) = false) (new : present entry = false) :
    walk (setEntry tables frame index entry) root address = walk tables root address := by
  have back : Grows (setEntry tables frame index entry) tables := by
    intro other place isPresent
    by_cases same : other = frame ∧ place = index
    · obtain ⟨rfl, rfl⟩ := same
      rw [setEntry_same, new] at isPresent
      cases isPresent
    · exact (setEntry_of_ne same).symm
  apply Option.ext
  intro leaf
  exact ⟨back.walk, (grows_setEntry (Or.inl old)).walk⟩

end Paging
