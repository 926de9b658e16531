/-
Loading segments into an address space of pages.

The abstract loader gives every page it requests new contents, whatever a spare
page held, and then writes the bytes of the segment.  So a segment loses the
bytes that share a page with a later one, and a segment that reaches into a page
nobody requested ends the load.
-/

import Osdev64.Lib.Bytes

namespace Osdev64

open Bytes

abbrev Content := Nat → Byte

/-- The contents of the mapped pages, by page number. -/
abbrev Space := Nat → Option Content

/-- The bytes a program header asks for. -/
structure Segment where
  start : Nat
  size : Nat
  wanted : Nat → Byte

def Segment.Covers (segment : Segment) (address : Nat) : Prop :=
  segment.start ≤ address ∧ address < segment.start + segment.size

instance (segment : Segment) (address : Nat) : Decidable (segment.Covers address) :=
  inferInstanceAs (Decidable (_ ∧ _))

def Segment.pages (segment : Segment) : Nat := segment.size / 4096 + 1

/-- A page for every 4096 bytes up to and including the size; the last address may wrap around. -/
def Segment.Requests (segment : Segment) (page : Nat) : Prop :=
  ∃ k < segment.pages, page = (segment.start / 4096 + k) % 2 ^ 52

instance (segment : Segment) (page : Nat) : Decidable (segment.Requests page) :=
  inferInstanceAs (Decidable (∃ k < segment.pages, page = (segment.start / 4096 + k) % 2 ^ 52))

namespace Space

def byte (space : Space) (address : Nat) : Option Byte :=
  (space (address / 4096)).map fun content => content (address % 4096)

def request (space : Space) (segment : Segment) (leftover : Nat → Content) : Space := fun page =>
  if segment.Requests page then some (leftover page) else space page

/-- The mapped bytes from `start` on, overwritten. -/
def fill (space : Space) (start size : Nat) (wanted : Nat → Byte) : Space := fun page =>
  (space page).map fun content offset =>
    if start ≤ 4096 * page + offset ∧ 4096 * page + offset < start + size then
      wanted (4096 * page + offset - start)
    else content offset

def load (space : Space) (segment : Segment) (leftover : Nat → Content) : Space :=
  (space.request segment leftover).fill segment.start segment.size segment.wanted

/-- Every byte of the segment is on a mapped page. -/
def Reaches (space : Space) (segment : Segment) : Prop :=
  ∀ address, segment.Covers address → space (address / 4096) ≠ none

/-- The segment is in place. -/
def Holds (space : Space) (segment : Segment) : Prop :=
  ∀ x < segment.size, space.byte (segment.start + x) = some (segment.wanted x)

theorem byte_fill (space : Space) (start size : Nat) (wanted : Nat → Byte) (address : Nat) :
    (space.fill start size wanted).byte address = (space.byte address).map fun old =>
      if start ≤ address ∧ address < start + size then wanted (address - start) else old := by
  have split : 4096 * (address / 4096) + address % 4096 = address := Nat.div_add_mod address 4096
  unfold byte fill
  rw [Option.map_map, Option.map_map]
  simp only [Function.comp_def, split]

theorem fill_eq_none_iff (space : Space) (start size : Nat) (wanted : Nat → Byte) (page : Nat) :
    space.fill start size wanted page = none ↔ space page = none := by
  unfold fill
  exact Option.map_eq_none_iff

theorem fill_zero (space : Space) (start : Nat) (wanted : Nat → Byte) :
    space.fill start 0 wanted = space := by
  funext page
  unfold fill
  cases space page with
  | none => rfl
  | some content =>
    rw [Option.map_some]
    congr 1
    funext offset
    exact if_neg (by omega)

theorem fill_comp {start size start' size' start'' size'' : Nat} {first second wanted : Nat → Byte}
    (same : ∀ address (old : Byte),
      (if start' ≤ address ∧ address < start' + size' then second (address - start')
        else if start ≤ address ∧ address < start + size then first (address - start) else old) =
      if start'' ≤ address ∧ address < start'' + size'' then wanted (address - start'') else old)
    (space : Space) :
    (space.fill start size first).fill start' size' second = space.fill start'' size'' wanted := by
  funext page
  unfold fill
  rw [Option.map_map]
  congr 1
  funext content offset
  exact same (4096 * page + offset) (content offset)

theorem fill_succ (space : Space) (start count : Nat) (wanted : Nat → Byte) :
    space.fill start (count + 1) wanted =
      (space.fill start 1 fun _ => wanted 0).fill (start + 1) count fun x => wanted (x + 1) := by
  symm
  apply fill_comp
  intro address old
  by_cases first : address = start
  · subst first
    rw [if_neg (by omega), if_pos (by omega), if_pos (by omega), Nat.sub_self]
  · by_cases inside : start + 1 ≤ address ∧ address < start + 1 + count
    · rw [if_pos inside, if_pos (by omega)]
      congr 1
      omega
    · rw [if_neg inside, if_neg (by omega), if_neg (by omega)]

theorem fill_fill {short long : Nat} (le : short ≤ long) (space : Space) (start : Nat)
    (first second : Nat → Byte) :
    (space.fill start long first).fill start short second =
      space.fill start long fun x => if x < short then second x else first x := by
  apply fill_comp
  intro address old
  by_cases inside : start ≤ address ∧ address < start + long
  · rw [if_pos inside, if_pos inside]
    by_cases early : address - start < short
    · rw [if_pos (by omega), if_pos early]
    · rw [if_neg (by omega), if_neg early]
  · rw [if_neg inside, if_neg inside, if_neg (by omega)]

end Space

/-- The address spaces after the first `count` headers, a header without a segment being skipped.
`spare` says what a newly requested page may hold. -/
inductive LoadsTo (segment : Nat → Option Segment) (spare : Content → Prop) (before : Space) :
    Nat → Space → Prop where
  | start : LoadsTo segment spare before 0 before
  | skip {count : Nat} {space : Space} (earlier : LoadsTo segment spare before count space)
      (absent : segment count = none) : LoadsTo segment spare before (count + 1) space
  | load {count : Nat} {space : Space} {here : Segment}
      (earlier : LoadsTo segment spare before count space) (found : segment count = some here)
      (leftover : Nat → Content) (spared : ∀ page, spare (leftover page))
      (reaches : (space.request here leftover).Reaches here) :
      LoadsTo segment spare before (count + 1) (space.load here leftover)

/-- The segments of the headers lie in pairwise disjoint byte ranges. -/
def DisjointSegments (segment : Nat → Option Segment) (count : Nat) : Prop :=
  ∀ j < count, ∀ k < count, j ≠ k → ∀ left right, segment j = some left → segment k = some right →
    ∀ address, left.Covers address → ¬right.Covers address

/-- No segment requests a page that holds a byte of an earlier one. -/
def PagesApart (segment : Nat → Option Segment) (count : Nat) : Prop :=
  ∀ k < count, ∀ j < k, ∀ earlier later, segment j = some earlier → segment k = some later →
    ∀ address, earlier.Covers address → ¬later.Requests (address / 4096)

/-- Every byte of a segment is on a page that was mapped before or that it or an earlier segment
requests. -/
def PagesCovered (segment : Nat → Option Segment) (before : Space) (count : Nat) : Prop :=
  ∀ k < count, ∀ here, segment k = some here → ∀ address, here.Covers address →
    before (address / 4096) ≠ none ∨
      ∃ j ≤ k, ∃ other, segment j = some other ∧ other.Requests (address / 4096)

variable {segment : Nat → Option Segment} {spare : Content → Prop} {before space : Space}
  {count : Nat}

theorem DisjointSegments.mono {fewer : Nat} (disjoint : DisjointSegments segment count)
    (le : fewer ≤ count) : DisjointSegments segment fewer :=
  fun j below k below' => disjoint j (by omega) k (by omega)

theorem PagesApart.mono {fewer : Nat} (apart : PagesApart segment count) (le : fewer ≤ count) :
    PagesApart segment fewer :=
  fun k below => apart k (by omega)

/-! ### Which pages are mapped -/

theorem Space.load_ne_none_iff (space : Space) (here : Segment) (leftover : Nat → Content)
    (page : Nat) :
    space.load here leftover page ≠ none ↔ space page ≠ none ∨ here.Requests page := by
  unfold Space.load
  rw [ne_eq, Space.fill_eq_none_iff]
  unfold Space.request
  by_cases requested : here.Requests page
  · simp [requested]
  · simp [requested]

private theorem exists_lt_succ_iff {holds : Nat → Prop} :
    (∃ j < count + 1, holds j) ↔ (∃ j < count, holds j) ∨ holds count := by
  constructor
  · rintro ⟨j, below, here⟩
    rcases Nat.lt_succ_iff_lt_or_eq.mp below with earlier | rfl
    · exact Or.inl ⟨j, earlier, here⟩
    · exact Or.inr here
  · rintro (⟨j, below, here⟩ | here)
    · exact ⟨j, by omega, here⟩
    · exact ⟨count, by omega, here⟩

theorem LoadsTo.mapped_iff (loads : LoadsTo segment spare before count space) (page : Nat) :
    space page ≠ none ↔
      before page ≠ none ∨ ∃ j < count, ∃ other, segment j = some other ∧ other.Requests page := by
  induction loads with
  | start => simp
  | skip earlier absent ih =>
    rw [ih, exists_lt_succ_iff, absent]
    simp
  | load earlier found leftover spared reaches ih =>
    rw [Space.load_ne_none_iff, ih, exists_lt_succ_iff, found, or_assoc]
    simp

theorem LoadsTo.reaches (loads : LoadsTo segment spare before count space) {total : Nat}
    (covered : PagesCovered segment before total) (below : count < total) {here : Segment}
    (found : segment count = some here) (leftover : Nat → Content) :
    (space.request here leftover).Reaches here := by
  intro address covers
  unfold Space.request
  by_cases own : here.Requests (address / 4096)
  · rw [if_pos own]
    exact Option.some_ne_none _
  · rw [if_neg own, loads.mapped_iff]
    rcases covered count below here found address covers with old | ⟨j, le, other, atJ, requests⟩
    · exact Or.inl old
    · refine Or.inr ⟨j, ?_, other, atJ, requests⟩
      rcases Nat.lt_or_eq_of_le le with earlier | rfl
      · exact earlier
      · rw [found] at atJ
        cases atJ
        exact absurd requests own

theorem LoadsTo.covered (loads : LoadsTo segment spare before count space) :
    PagesCovered segment before count := by
  induction loads with
  | start =>
    intro k below
    omega
  | @skip count space earlier absent ih =>
    intro k below here found address covers
    rcases Nat.lt_succ_iff_lt_or_eq.mp below with inside | rfl
    · exact ih k inside here found address covers
    · rw [absent] at found
      cases found
  | @load count space current earlier found leftover spared reaches ih =>
    intro k below here found' address covers
    rcases Nat.lt_succ_iff_lt_or_eq.mp below with inside | rfl
    · exact ih k inside here found' address covers
    · rw [found] at found'
      cases found'
      have isMapped := reaches address covers
      unfold Space.request at isMapped
      by_cases own : current.Requests (address / 4096)
      · exact Or.inr ⟨_, Nat.le_refl _, current, found, own⟩
      · rw [if_neg own, earlier.mapped_iff] at isMapped
        rcases isMapped with old | ⟨j, below, other, atJ, requests⟩
        · exact Or.inl old
        · exact Or.inr ⟨j, by omega, other, atJ, requests⟩

/-! ### What a byte holds -/

theorem Space.byte_request (space : Space) (here : Segment) (leftover : Nat → Content) (address : Nat) :
    (space.request here leftover).byte address =
      if here.Requests (address / 4096) then some (leftover (address / 4096) (address % 4096))
      else space.byte address := by
  unfold Space.byte Space.request
  split_ifs <;> rfl

theorem Space.byte_load (space : Space) (here : Segment) (leftover : Nat → Content) (address : Nat) :
    (space.load here leftover).byte address =
      ((space.request here leftover).byte address).map fun old =>
        if here.Covers address then here.wanted (address - here.start) else old :=
  byte_fill _ _ _ _ _

theorem Space.byte_load_of_not_covered (space : Space) {here : Segment} (leftover : Nat → Content)
    {address : Nat} (outside : ¬here.Covers address) :
    (space.load here leftover).byte address =
      if here.Requests (address / 4096) then some (leftover (address / 4096) (address % 4096))
      else space.byte address := by
  rw [byte_load, byte_request]
  simp only [if_neg outside, Option.map_id']

theorem Space.holds_load {space : Space} {here : Segment} {leftover : Nat → Content}
    (reaches : (space.request here leftover).Reaches here) : (space.load here leftover).Holds here := by
  intro x below
  have covers : here.Covers (here.start + x) := ⟨by omega, by omega⟩
  obtain ⟨content, isMapped⟩ := Option.ne_none_iff_exists'.mp (reaches _ covers)
  rw [byte_load]
  unfold Space.byte
  rw [isMapped]
  simp only [Option.map_some, if_pos covers, Nat.add_sub_cancel_left]

theorem LoadsTo.holds (loads : LoadsTo segment spare before count space)
    (disjoint : DisjointSegments segment count) (apart : PagesApart segment count) :
    ∀ k < count, ∀ here, segment k = some here → space.Holds here := by
  induction loads with
  | start =>
    intro k below
    omega
  | @skip count space earlier absent ih =>
    intro k below here found
    rcases Nat.lt_succ_iff_lt_or_eq.mp below with inside | rfl
    · exact ih (disjoint.mono (by omega)) (apart.mono (by omega)) k inside here found
    · rw [absent] at found
      cases found
  | @load count space current earlier found leftover spared reaches ih =>
    intro k below here found'
    rcases Nat.lt_succ_iff_lt_or_eq.mp below with inside | rfl
    · intro x within
      have covers : here.Covers (here.start + x) := ⟨by omega, by omega⟩
      have outside := disjoint k below count (by omega) (by omega) here current found' found _ covers
      have notRequested := apart count (by omega) k inside here current found' found _ covers
      rw [Space.byte_load_of_not_covered _ _ outside, if_neg notRequested]
      exact ih (disjoint.mono (by omega)) (apart.mono (by omega)) k inside here found' x within
    · rw [found] at found'
      cases found'
      exact Space.holds_load reaches

/-- When all spare pages hold the same byte, so do the bytes whose page was requested after they
were written. -/
theorem LoadsTo.byte_lost {filler : Byte}
    (loads : LoadsTo segment (fun content => ∀ x, content x = filler) before count space)
    {address first : Nat} (le : first ≤ count)
    (outside : ∀ k < count, first ≤ k → ∀ here, segment k = some here → ¬here.Covers address)
    {later : Nat} (after : first ≤ later) (below : later < count) {other : Segment}
    (found : segment later = some other) (requests : other.Requests (address / 4096)) :
    space.byte address = some filler := by
  induction loads with
  | start => omega
  | @skip count space earlier absent ih =>
    rcases Nat.lt_succ_iff_lt_or_eq.mp below with inside | rfl
    · exact ih (by omega) (fun k below => outside k (by omega)) inside
    · rw [absent] at found
      cases found
  | @load count space current earlier here leftover spared reaches ih =>
    have notCovered := outside count (by omega) (by omega) current here
    rw [Space.byte_load_of_not_covered _ _ notCovered]
    split_ifs with requested
    · rw [spared]
    · rcases Nat.lt_succ_iff_lt_or_eq.mp below with inside | rfl
      · exact ih (by omega) (fun k below => outside k (by omega)) inside
      · rw [here] at found
        cases found
        exact absurd requests requested

/-- A load that comes out right whatever the spare pages are filled with, for two different bytes,
requests no page that is in use. -/
theorem pagesApart_of_holds {filler filler' : Byte} {space space' : Space}
    (loads : LoadsTo segment (fun content => ∀ x, content x = filler) before count space)
    (loads' : LoadsTo segment (fun content => ∀ x, content x = filler') before count space')
    (different : filler ≠ filler') (disjoint : DisjointSegments segment count)
    (holds : ∀ k < count, ∀ here, segment k = some here → space.Holds here)
    (holds' : ∀ k < count, ∀ here, segment k = some here → space'.Holds here) :
    PagesApart segment count := by
  intro k below j earlier left right foundLeft foundRight address covers requests
  obtain ⟨low, high⟩ := covers
  have within : address - left.start < left.size := by omega
  have place : left.start + (address - left.start) = address := by omega
  have outside : ∀ i < count, j + 1 ≤ i → ∀ here, segment i = some here → ¬here.Covers address :=
    fun i inside after here found =>
      disjoint j (by omega) i inside (by omega) left here foundLeft found address ⟨low, high⟩
  have lost := loads.byte_lost (by omega) outside (by omega) below foundRight requests
  have lost' := loads'.byte_lost (by omega) outside (by omega) below foundRight requests
  have kept := holds j (by omega) left foundLeft _ within
  have kept' := holds' j (by omega) left foundLeft _ within
  rw [place] at kept kept'
  rw [lost] at kept
  rw [lost'] at kept'
  exact different (Option.some.inj (kept.trans kept'.symm))

end Osdev64
