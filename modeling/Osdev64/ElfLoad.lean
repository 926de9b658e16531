/-
The segments of an ELF image after `elf_load`.

A segment requests new frames for all its pages, also for a page with bytes of an
earlier segment, and it requests as many pages as its size has, wherever in a
page it starts.  So the segments are in place after the load exactly when no
segment requests a page with bytes of an earlier one and every byte is on a page
that was requested or mapped before.
-/

import Osdev64.ElfRounds
import Osdev64.MmuLocal

namespace Osdev64

open Word64 Bytes Paging

/-- Other contents of the free pages, still without present entries. -/
structure Refilled (machine : Kernel) (free : List Nat) (tables : Tables) : Prop where
  elsewhere : ∀ frame, (∀ i ∈ free, pageFrame i ≠ frame) → tables frame = machine.tables frame
  blank : ∀ i ∈ free, ∀ place, present (tables (pageFrame i) place) = false

/-- The machine can load the image: pages can be requested for all segments, and the pages that are
mapped before have frames of their own. -/
structure ElfReady (layout : Layout) (machine : Kernel) (before : Space) (free used : List Nat) :
    Prop where
  sound : layout.Sound
  image : ImageFits layout
  hosts : ∃ spare home, Hosts layout spare machine before home free used
  enough : 4 * requestedPages layout.image 0 (elfPhnum layout.image) ≤ free.length

/-- The segments of the first `count` headers read as in the image. -/
def SegmentsInPlace (machine : Kernel) (image : Memory) (count : Nat) : Prop :=
  ∀ k < count, ∀ here, elfSegment image k = some here → ∀ x < here.size,
    machine.byteAt (BitVec.ofNat 64 (here.start + x)) = some (here.wanted x)

/-- After each round the segments loaded so far are in place, whatever the free pages held.  No loop
over pages takes more than `2 ^ 52` steps. -/
def LoadsInPlace (layout : Layout) (machine : Kernel) (free : List Nat) : Prop :=
  ∀ steps > 2 ^ 52, ∀ tables, Refilled machine free tables → ∀ count ≤ elfPhnum layout.image,
    ∃ machine', (elfRounds steps layout.data count { machine with tables := tables }).result =
      some ((), machine') ∧ SegmentsInPlace machine' layout.image count

variable {layout : Layout} {spare : Nat → Content} {machine : Kernel} {space before : Space}
  {home : Nat → Frame} {free used : List Nat} {room count : Nat}

/-! ### Free pages with other contents -/

theorem Hosts.refilled (hosts : Hosts layout spare machine space home free used) {tables : Tables}
    (refilled : Refilled machine free tables) {spare' : Nat → Content}
    (holds : ∀ i ∈ free, ∀ x < 4096, frameByte tables (pageFrame i) x = spare' i x) :
    Hosts layout spare' { machine with tables := tables } space home free used := by
  have live : ∀ table, Live machine.tables machine.root table → tables table = machine.tables table := by
    intro table isLive
    apply refilled.elsewhere
    rintro i member rfl
    exact hosts.stock.dead i member isLive
  have same {frame : Frame} (taken : machine.Taken free frame) (x : Nat) :
      frameByte tables frame x = frameByte machine.tables frame x :=
    frameByte_congr (refilled.elsewhere frame taken.notFree) x
  constructor
  case wired => exact hosts.wired.agree live rfl rfl
  case stock => exact hosts.stock.of_agree live refilled.blank holds
  case smallPages => exact hosts.smallPages_of_agree live
  case unmapped =>
    intro page area absent
    exact (walk_of_agree live).trans (hosts.unmapped page area absent)
  case mapped =>
    intro page content area isMapped
    obtain ⟨⟨leaf, found, atFrame⟩, taken, byte⟩ := hosts.mapped page content area isMapped
    refine ⟨⟨leaf, (walk_of_agree live).trans found, atFrame⟩, taken.of_agree live, ?_⟩
    intro x below
    exact (same taken x).trans (byte x below)
  case apart => exact hosts.apart
  case image =>
    intro x below
    obtain ⟨leaf, found, taken, byte, away⟩ := hosts.image x below
    exact ⟨leaf, (walk_of_agree live).trans found, taken.of_agree live, (same taken _).trans byte, away⟩

/-- All free pages filled with one word. -/
def refill (machine : Kernel) (free : List Nat) (word : Word) : Tables := fun frame place =>
  if ∃ i ∈ free, pageFrame i = frame then word else machine.tables frame place

theorem refill_refilled (machine : Kernel) (free : List Nat) {word : Word}
    (absent : present word = false) : Refilled machine free (refill machine free word) := by
  constructor
  · intro frame outside
    funext place
    unfold refill
    rw [if_neg]
    rintro ⟨i, member, here⟩
    exact outside i member here
  · intro i member place
    unfold refill
    rw [if_pos ⟨i, member, rfl⟩]
    exact absent

theorem frameByte_refill {word : Word} {filler : Byte} (bytes : ∀ k < 8, wordByte word k = filler)
    {i : Nat} (member : i ∈ free) (x : Nat) :
    frameByte (refill machine free word) (pageFrame i) x = filler := by
  unfold frameByte refill
  rw [if_pos ⟨i, member, rfl⟩]
  exact bytes _ (Nat.mod_lt _ (by decide))

/-! ### Both directions -/

theorem requestedPages_mono (image : Memory) {fewer : Nat} (le : fewer ≤ count) :
    requestedPages image 0 fewer ≤ requestedPages image 0 count := by
  obtain ⟨rest, rfl⟩ := Nat.exists_eq_add_of_le le
  unfold requestedPages
  rw [← List.range'_append_1, List.map_append, List.sum_append]
  omega

theorem Hosted.inPlace_iff (hosted : Hosted layout spare machine space room) (fits : ImageFits layout)
    (le : count ≤ elfPhnum layout.image) :
    SegmentsInPlace machine layout.image count ↔
      ∀ k < count, ∀ here, elfSegment layout.image k = some here → space.Holds here := by
  obtain ⟨home, free, used, hosts, _⟩ := hosted
  unfold SegmentsInPlace Space.Holds
  refine forall₄_congr fun k below here found => forall₂_congr fun x within => ?_
  obtain ⟨loadable, same⟩ := (Option.ite_none_right_eq_some).mp found
  cases same
  have segment := fits.segments k (by omega) loadable
  have noWrap := segment.noWrap
  have small : (BitVec.ofNat 64 ((elfHeader layout.image k).pVaddr.toNat + x)).toNat =
      (elfHeader layout.image k).pVaddr.toNat + x := by
    rw [BitVec.toNat_ofNat]
    apply Nat.mod_eq_of_lt
    change x < (elfHeader layout.image k).pMemsz.toNat at within
    omega
  have inArea := segment.covered ((elfHeader layout.image k).pVaddr.toNat + x)
    ⟨Nat.le_add_right _ _, Nat.add_lt_add_left within _⟩
  rw [← small] at inArea
  change machine.byteAt (BitVec.ofNat 64 ((elfHeader layout.image k).pVaddr.toNat + x)) = _ ↔ _
  rw [hosts.byteAt inArea, small]
  rfl

theorem ElfReady.hosted (ready : ElfReady layout machine before free used) {tables : Tables}
    (refilled : Refilled machine free tables)
    (holds : ∀ i ∈ free, ∀ x < 4096, frameByte tables (pageFrame i) x = spare i x)
    (le : count ≤ elfPhnum layout.image) :
    Hosted layout spare { machine with tables := tables } before
      (0 + 4 * requestedPages layout.image 0 count) := by
  obtain ⟨_, home, hosts⟩ := ready.hosts
  have fewer := requestedPages_mono layout.image le
  have enough := ready.enough
  exact ⟨home, free, used, hosts.refilled refilled holds, by omega⟩

theorem ElfReady.loadsInPlace (ready : ElfReady layout machine before free used)
    (disjoint : DisjointSegments (elfSegment layout.image) (elfPhnum layout.image))
    (apart : PagesApart (elfSegment layout.image) (elfPhnum layout.image))
    (covered : PagesCovered (elfSegment layout.image) before (elfPhnum layout.image)) :
    LoadsInPlace layout machine free := by
  intro steps enough tables refilled count le
  have hosted := ready.hosted refilled (fun _ _ _ _ => rfl) le
  rcases Hosted.elfRounds (fun _ => True) ready.sound (fun _ => trivial) ready.image enough le hosted with
    ⟨machine', space, ran, hosted', loads⟩ | ⟨_, missed⟩
  · refine ⟨machine', ran, ?_⟩
    rw [hosted'.inPlace_iff ready.image le]
    exact loads.holds (disjoint.mono le) (apart.mono le)
  · exact absurd covered missed

theorem ElfReady.loads_filled (ready : ElfReady layout machine before free used)
    (right : LoadsInPlace layout machine free) (word : Word) (filler : Byte)
    (absent : present word = false) (bytes : ∀ k < 8, wordByte word k = filler) :
    ∃ space, LoadsTo (elfSegment layout.image) (fun content => ∀ x, content x = filler) before
        (elfPhnum layout.image) space ∧
      ∀ k < elfPhnum layout.image, ∀ here, elfSegment layout.image k = some here →
        space.Holds here := by
  have refilled := refill_refilled machine free absent
  have hosted : Hosted layout (fun _ _ => filler) _ before _ :=
    ready.hosted refilled (fun i member x _ => frameByte_refill bytes member x) (Nat.le_refl _)
  obtain ⟨machine', ran, inPlace⟩ := right _ (Nat.lt_succ_self _) _ refilled _ (Nat.le_refl _)
  rcases Hosted.elfRounds (fun content => ∀ x, content x = filler) ready.sound (fun _ _ => rfl)
    ready.image (Nat.lt_succ_self _) (Nat.le_refl _) hosted with ⟨machine'', space, ran', hosted', loads⟩ | ⟨faulted, _⟩
  · rw [ran] at ran'
    cases ran'
    exact ⟨space, loads, (hosted'.inPlace_iff ready.image (Nat.le_refl _)).mp inPlace⟩
  · rw [ran] at faulted
    cases faulted

/-- The segments of an image with disjoint byte ranges are in place after `elf_load`, whatever the
free pages held, exactly when no segment requests a page with bytes of an earlier one and each byte
is on a page that was mapped before or that its own or an earlier segment requests. -/
theorem loadsInPlace_iff (ready : ElfReady layout machine before free used)
    (disjoint : DisjointSegments (elfSegment layout.image) (elfPhnum layout.image)) :
    LoadsInPlace layout machine free ↔
      PagesApart (elfSegment layout.image) (elfPhnum layout.image) ∧
        PagesCovered (elfSegment layout.image) before (elfPhnum layout.image) := by
  constructor
  · intro right
    obtain ⟨space, loads, holds⟩ := ready.loads_filled right 0 0 (by decide) (by decide)
    obtain ⟨space', loads', holds'⟩ := ready.loads_filled right 0x0202020202020202 2 (by decide)
      (by decide)
    exact ⟨pagesApart_of_holds loads loads' (by decide) disjoint holds holds', loads.covered⟩
  · intro ⟨apart, covered⟩
    exact ready.loadsInPlace disjoint apart covered

/-! ### Two small images -/

/-- An image with two segments of one file byte each, on one page or on two. -/
def sampleImage (shared : Bool) : Memory := fun place =>
  (([(32, 64), (54, 56), (56, 2),
    (64, 1), (72, 176), (84, 0x80), (96, 1), (104, 2),
    (120, 1), (128, 177), (136, if shared then 0x10 else 0), (137, if shared then 0 else 0x10),
    (140, 0x80), (152, 1), (160, 1),
    (176, 0xAA), (177, 0xBB)] : List (Nat × Byte)).lookup place).getD 0

/-- The image is in frame `0x80`, below the kernel. -/
def sampleKernel (image : Memory) : Kernel :=
  { lowKernel with tables := fun frame place =>
      if frame = 0x80 then BitVec.ofNat 64 (value image 8 (8 * place.toNat))
      else lowKernel.tables frame place }

def sampleLayout (image : Memory) : Layout where
  fix := bootFix
  window _ := True
  data := p2v 0x80000
  image := image
  size := 178
  area page := page = 0x8000000 ∨ page = 0x8000001

theorem sampleLayout_slot {image : Memory} {page : Nat} (area : (sampleLayout image).area page) :
    indexAt 3 (pageStart page) = 1 := by
  rcases area with rfl | rfl
  · decide
  · decide

theorem sampleLayout_address (image : Memory) {x : Nat} (below : x < 178) :
    ((sampleLayout image).address x).toNat = 0xFFFFFFFF80080000 + x := by
  have start : (p2v 0x80000).toNat = 0xFFFFFFFF80080000 := by decide
  change (p2v 0x80000 + BitVec.ofNat 64 x).toNat = _
  rw [BitVec.toNat_add, BitVec.toNat_ofNat, start]
  omega

theorem sampleLayout_top (image : Memory) {x : Nat} (below : x < 178) :
    indexAt 3 ((sampleLayout image).address x) = 0x1FF := by
  apply BitVec.eq_of_toNat_eq
  rw [indexAt_toNat, sampleLayout_address image below]
  change (0xFFFFFFFF80080000 + x) / 2 ^ 39 % 512 = 0x1FF
  omega

theorem sampleLayout_sound (image : Memory) : (sampleLayout image).Sound := by
  have indices {page : Nat} {other : Word} (area : (sampleLayout image).area page)
      (same : SameEntry bootFix (pageStart page) other) :
      ∀ level < 4, indexAt level (pageStart page) = indexAt level other := by
    have slot := sampleLayout_slot area
    exact indices_of_sameEntry (by rw [slot]; decide) (by rw [slot]; decide) same
  constructor
  case isCanonical =>
    intro page area
    rcases area with rfl | rfl
    · decide
    · decide
  case outside =>
    intro page area
    rw [sampleLayout_slot area]
    decide
  case pagesApart =>
    intro page other area area' different same
    have last := indices area same 0 (by omega)
    rcases area with rfl | rfl
    · rcases area' with rfl | rfl
      · exact different rfl
      · exact absurd last (by decide)
    · rcases area' with rfl | rfl
      · exact absurd last (by decide)
      · exact different rfl
  case imageOutside =>
    intro x below
    rw [sampleLayout_top image below]
    decide
  case imageApart =>
    intro page area x below same
    have top := indices area same 3 (by omega)
    rw [sampleLayout_slot area, sampleLayout_top image below] at top
    exact absurd top (by decide)
  case windowApart =>
    intro page area t _ same
    have top := indices area same 3 (by omega)
    rw [sampleLayout_slot area, indexAt_p2v] at top
    exact absurd top (by decide)

theorem lowKernel_stock {layout : Layout} (everywhere : ∀ t, layout.window t) :
    ∃ free used, 8 ≤ free.length ∧ (∀ i ∈ free, pageFrame i ≠ 0x80) ∧
      Stock layout (fun _ _ => 0) lowKernel free used := by
  obtain ⟨pml4, size, free, used, pool, enough, placed⟩ := lowKernel_pool
  have frame (i : Nat) (member : i ∈ free) : (pageFrame i).toNat = i :=
    (lowKernel_frame pool (Or.inl member)).1
  have zero (i : Nat) (member : i ∈ free) (place : Index) : lowKernel.tables (pageFrame i) place = 0 := by
    apply lowKernel_zero
    rw [frame i member]
    exact (placed i member).2
  refine ⟨free, used, enough, ?_, ?_⟩
  · intro i member same
    have value := frame i member
    rw [same] at value
    change 0x80 = i at value
    have notKernel := (placed i member).1
    omega
  constructor
  case pool => exact pool
  case physical =>
    rw [size]
    decide
  case notPml4 =>
    intro i member same
    rw [pml4] at same
    cases same
    have outside := (placed _ member).2
    omega
  case window => exact fun i _ => everywhere (pageAddress i)
  case windowed =>
    intro i member
    obtain ⟨_, address, below⟩ := lowKernel_frame pool (Or.inl member)
    exact lowKernel_window (by omega) (by omega)
  case blank =>
    intro i member place
    rw [zero i member]
    decide
  case dead =>
    intro i member live
    have bounds := lowKernel_live live
    have outside := (placed i member).2
    rw [frame i member] at bounds
    omega
  case holds =>
    intro i member x _
    unfold frameByte wordByte
    rw [zero i member]
    exact BitVec.extractLsb'_zero

theorem sampleKernel_changes (image : Memory) {free : List Nat}
    (notFree : ∀ i ∈ free, pageFrame i ≠ 0x80) :
    ChangesData lowKernel free (sampleKernel image).tables := by
  constructor
  · intro table live
    have bounds := lowKernel_live live
    funext place
    apply if_neg
    rintro rfl
    revert bounds
    decide
  · intro i member
    funext place
    exact if_neg (notFree i member)

theorem sampleKernel_image (image : Memory) {x : Nat} (below : x < 178) :
    ∃ leaf, walk lowKernel.tables lowKernel.root ((sampleLayout image).address x) = some leaf ∧
      leaf.frame = 0x80 ∧
      frameByte (sampleKernel image).tables 0x80 (((sampleLayout image).address x).toNat % 4096) =
        image x := by
  have address := sampleLayout_address image below
  obtain ⟨_, leaf, found, atFrame⟩ := lowKernel_window (t := 0x80000) (by decide) (by decide)
  refine ⟨leaf, ?_, ?_, ?_⟩
  · rw [← found]
    apply walk_page
    have start : (window 0x80000).address.toNat = 0xFFFFFFFF80080000 := by decide
    omega
  · rw [atFrame]
    decide
  · have offset : ((sampleLayout image).address x).toNat % 4096 = x := by omega
    have place : 8 * (BitVec.ofNat 9 (x / 8)).toNat + x % 8 = x := by
      rw [BitVec.toNat_ofNat]
      omega
    rw [offset]
    unfold frameByte
    change wordByte (BitVec.ofNat 64 (value image 8 (8 * (BitVec.ofNat 9 (x / 8)).toNat))) _ = image x
    rw [wordByte_value _ _ (Nat.mod_lt _ (by decide)), place]

theorem sampleKernel_hosts (image : Memory) :
    ∃ free used, 8 ≤ free.length ∧
      Hosts (sampleLayout image) (fun _ _ => 0) (sampleKernel image) (fun _ => none) (fun _ => 0)
        free used := by
  obtain ⟨free, used, enough, notFree, stock⟩ :=
    lowKernel_stock (show ∀ t, (sampleLayout image).window t from fun _ => trivial)
  have changes := sampleKernel_changes image notFree
  refine ⟨free, used, enough, ?_⟩
  constructor
  case wired => exact lowKernel_wired.agree changes.live rfl rfl
  case stock => exact stock.changesData changes
  case smallPages =>
    intro page area table found
    have found' : tableAt lowKernel.tables lowKernel.root (pathTo (pageStart page) 2) = some table :=
      (tableAt_of_agree changes.live (by simp)).symm.trans found
    exact absurd found' (lowKernel_slotOne_table (sampleLayout_slot area) 1 table)
  case unmapped =>
    intro page area _
    refine (walk_of_agree changes.live).trans ?_
    unfold walk
    rw [if_pos ((sampleLayout_sound image).isCanonical page area)]
    apply walkFrom_absent 3
    rw [sampleLayout_slot area]
    exact lowKernel_slotOne
  case mapped =>
    intro page content _ isMapped
    cases isMapped
  case apart =>
    intro page other _ _ isMapped
    exact absurd rfl isMapped
  case image =>
    intro x below
    obtain ⟨leaf, found, isFrame, byte⟩ := sampleKernel_image image below
    have taken : lowKernel.Taken free 0x80 := by
      refine ⟨fun live => ?_, notFree⟩
      have bounds := lowKernel_live live
      revert bounds
      decide
    refine ⟨leaf, (walk_of_agree changes.live).trans found, ?_, ?_, ?_⟩
    · rw [isFrame]
      exact taken.of_agree changes.live
    · rw [isFrame]
      exact byte
    · intro page _ isMapped
      exact absurd rfl isMapped

theorem Segment.requests_iff {segment : Segment} (short : segment.size < 4096)
    (small : segment.start < 2 ^ 64) (page : Nat) :
    segment.Requests page ↔ page = segment.start / 4096 := by
  have one : segment.pages = 1 := by
    unfold Segment.pages
    omega
  unfold Segment.Requests
  rw [one]
  constructor
  · rintro ⟨k, below, rfl⟩
    omega
  · intro same
    exact ⟨0, by omega, by omega⟩

/-- The page of a segment of the sample. -/
def samplePage (shared : Bool) (k : Nat) : Nat :=
  if k = 1 ∧ shared = false then 0x8000001 else 0x8000000

theorem sampleImage_table (shared : Bool) :
    elfPhoff (sampleImage shared) = 64 ∧ elfPhnum (sampleImage shared) = 2 ∧
      requestedPages (sampleImage shared) 0 2 = 2 := by
  cases shared
  · decide +kernel
  · decide +kernel

theorem sampleImage_header (shared : Bool) : ∀ k < 2,
    (elfHeader (sampleImage shared) k).pType = 1 ∧
    (elfHeader (sampleImage shared) k).pFilesz.toNat ≤ (elfHeader (sampleImage shared) k).pMemsz.toNat ∧
    (elfHeader (sampleImage shared) k).pOffset.toNat + (elfHeader (sampleImage shared) k).pFilesz.toNat ≤ 178 ∧
    (elfHeader (sampleImage shared) k).pVaddr.toNat / 4096 = samplePage shared k ∧
    (elfHeader (sampleImage shared) k).pVaddr.toNat % 4096 +
      (elfHeader (sampleImage shared) k).pMemsz.toNat < 4096 := by
  cases shared
  · decide +kernel
  · decide +kernel

theorem sampleImage_apart (shared : Bool) : ∀ j < 2, ∀ k < 2, j < k →
    (elfHeader (sampleImage shared) j).pVaddr.toNat + (elfHeader (sampleImage shared) j).pMemsz.toNat ≤
      (elfHeader (sampleImage shared) k).pVaddr.toNat := by
  cases shared
  · decide +kernel
  · decide +kernel

variable {shared : Bool} {k : Nat}

theorem sampleImage_segment (below : k < 2) :
    elfSegment (sampleImage shared) k =
      some ((elfHeader (sampleImage shared) k).segment (sampleImage shared)) :=
  if_pos (sampleImage_header shared k below).1

theorem sampleImage_covers (below : k < 2) {address : Nat}
    (covers : ((elfHeader (sampleImage shared) k).segment (sampleImage shared)).Covers address) :
    address / 4096 = samplePage shared k := by
  obtain ⟨_, _, _, page, onePage⟩ := sampleImage_header shared k below
  obtain ⟨low, high⟩ := covers
  simp only [Phdr.segment] at low high
  omega

theorem sampleImage_requests_iff (below : k < 2) (page : Nat) :
    ((elfHeader (sampleImage shared) k).segment (sampleImage shared)).Requests page ↔
      page = samplePage shared k := by
  obtain ⟨_, _, _, start, onePage⟩ := sampleImage_header shared k below
  rw [← start]
  exact Segment.requests_iff (Nat.lt_of_le_of_lt (Nat.le_add_left _ _) onePage) (BitVec.isLt _) page

theorem sampleImage_area (shared : Bool) (k : Nat) :
    (sampleLayout (sampleImage shared)).area (samplePage shared k) := by
  unfold samplePage
  split_ifs
  · exact Or.inr rfl
  · exact Or.inl rfl

theorem sampleImage_fits (shared : Bool) : ImageFits (sampleLayout (sampleImage shared)) := by
  obtain ⟨phoff, phnum, _⟩ := sampleImage_table shared
  constructor
  case header =>
    change 64 ≤ 178
    decide
  case table =>
    change elfPhoff (sampleImage shared) + 56 * elfPhnum (sampleImage shared) ≤ 178
    omega
  case segments =>
    intro k inside _
    change k < elfPhnum (sampleImage shared) at inside
    rw [phnum] at inside
    obtain ⟨_, filesz, inImage, page, onePage⟩ := sampleImage_header shared k inside
    refine ⟨filesz, inImage, ?_, ?_, ?_⟩
    · have vaddr := (elfHeader (sampleImage shared) k).pVaddr.isLt
      change (elfHeader (sampleImage shared) k).pVaddr.toNat +
        (elfHeader (sampleImage shared) k).pMemsz.toNat ≤ 2 ^ 64
      omega
    · intro requested requests
      rw [(sampleImage_requests_iff inside requested).mp requests]
      exact sampleImage_area shared k
    · intro address covers
      rw [sampleImage_covers inside covers]
      exact sampleImage_area shared k

theorem sampleImage_ready (shared : Bool) :
    ∃ free used, Hosts (sampleLayout (sampleImage shared)) (fun _ _ => 0)
        (sampleKernel (sampleImage shared)) (fun _ => none) (fun _ => 0) free used ∧
      ElfReady (sampleLayout (sampleImage shared)) (sampleKernel (sampleImage shared)) (fun _ => none)
        free used := by
  obtain ⟨_, phnum, requested⟩ := sampleImage_table shared
  obtain ⟨free, used, enough, hosts⟩ := sampleKernel_hosts (sampleImage shared)
  refine ⟨free, used, hosts, sampleLayout_sound _, sampleImage_fits shared, ⟨_, _, hosts⟩, ?_⟩
  change 4 * requestedPages (sampleImage shared) 0 (elfPhnum (sampleImage shared)) ≤ free.length
  rw [phnum, requested]
  exact enough

theorem sampleImage_disjoint (shared : Bool) : DisjointSegments (elfSegment (sampleImage shared)) 2 := by
  intro j belowJ k belowK different left right foundLeft foundRight address covers covers'
  rw [sampleImage_segment belowJ] at foundLeft
  rw [sampleImage_segment belowK] at foundRight
  cases foundLeft
  cases foundRight
  obtain ⟨low, high⟩ := covers
  obtain ⟨low', high'⟩ := covers'
  simp only [Phdr.segment] at low high low' high'
  rcases Nat.lt_or_gt_of_ne different with before | after
  · have ordered := sampleImage_apart shared j belowJ k belowK before
    omega
  · have ordered := sampleImage_apart shared k belowK j belowJ after
    omega

theorem sampleImage_covered (shared : Bool) (before : Space) :
    PagesCovered (elfSegment (sampleImage shared)) before 2 := by
  intro k below here found address covers
  rw [sampleImage_segment below] at found
  cases found
  refine Or.inr ⟨k, Nat.le_refl k, _, sampleImage_segment below, ?_⟩
  rw [sampleImage_requests_iff below]
  exact sampleImage_covers below covers

/-- Two segments on pages of their own. -/
theorem loadsInPlace_two_pages :
    ∃ free used, ElfReady (sampleLayout (sampleImage false)) (sampleKernel (sampleImage false))
        (fun _ => none) free used ∧
      DisjointSegments (elfSegment (sampleImage false)) (elfPhnum (sampleImage false)) ∧
      LoadsInPlace (sampleLayout (sampleImage false)) (sampleKernel (sampleImage false)) free := by
  obtain ⟨free, used, _, ready⟩ := sampleImage_ready false
  have phnum := (sampleImage_table false).2.1
  have disjoint : DisjointSegments (elfSegment (sampleImage false)) (elfPhnum (sampleImage false)) := by
    rw [phnum]
    exact sampleImage_disjoint false
  refine ⟨free, used, ready, disjoint, (loadsInPlace_iff ready disjoint).mpr ⟨?_, ?_⟩⟩
  · change PagesApart (elfSegment (sampleImage false)) (elfPhnum (sampleImage false))
    rw [phnum]
    intro k below j earlier left right foundLeft foundRight address covers requests
    rw [sampleImage_segment (by omega)] at foundLeft foundRight
    cases foundLeft
    cases foundRight
    rw [sampleImage_requests_iff below, sampleImage_covers (by omega) covers] at requests
    have first : j = 0 := by omega
    have second : k = 1 := by omega
    subst first second
    exact absurd requests (by decide)
  · change PagesCovered (elfSegment (sampleImage false)) _ (elfPhnum (sampleImage false))
    rw [phnum]
    exact sampleImage_covered false _

/-- Two segments on one page: the first byte of the first reads as zero after the load. -/
theorem shared_page_lost :
    ∃ free used machine', ElfReady (sampleLayout (sampleImage true)) (sampleKernel (sampleImage true))
        (fun _ => none) free used ∧
      DisjointSegments (elfSegment (sampleImage true)) (elfPhnum (sampleImage true)) ∧
      (elfRounds (2 ^ 52 + 1) (sampleLayout (sampleImage true)).data (elfPhnum (sampleImage true))
        (sampleKernel (sampleImage true))).result = some ((), machine') ∧
      (elfSegment (sampleImage true) 0).map (fun here => (here.start, here.wanted 0)) =
        some (0x8000000000, 0xAA) ∧
      machine'.byteAt 0x8000000000 = some 0 := by
  obtain ⟨free, used, hosts, ready⟩ := sampleImage_ready true
  have phnum := (sampleImage_table true).2.1
  have disjoint := sampleImage_disjoint true
  have enough : 0 + 4 * requestedPages (sampleImage true) 0 (elfPhnum (sampleImage true)) ≤ free.length := by
    rw [Nat.zero_add]
    exact ready.enough
  have hosted : Hosted _ _ _ _ _ := ⟨_, _, _, hosts, enough⟩
  rcases Hosted.elfRounds (fun content => ∀ x, content x = 0) ready.sound (fun _ _ => rfl) ready.image
    (Nat.lt_succ_self _) (Nat.le_refl _) hosted with ⟨machine', space, ran, hosted', loads⟩ | ⟨_, missed⟩
  · refine ⟨free, used, machine', ready, ?_, ran, by decide +kernel, ?_⟩
    · rw [phnum]
      exact disjoint
    · obtain ⟨_, _, _, hosts, _⟩ := hosted'
      change LoadsTo (elfSegment (sampleImage true)) _ _ (elfPhnum (sampleImage true)) space at loads
      rw [phnum] at loads
      rw [hosts.byteAt (Or.inl (by decide))]
      refine loads.byte_lost (by omega) ?_ (Nat.le_refl 1) (by omega)
        (sampleImage_segment (by omega)) ?_
      · intro k below after here found covers
        exact disjoint 0 (by omega) k below (by omega) _ here (sampleImage_segment (by omega)) found _
          (by decide +kernel) covers
      · rw [sampleImage_requests_iff (by omega)]
        decide
  · refine absurd ?_ missed
    change PagesCovered (elfSegment (sampleImage true)) _ (elfPhnum (sampleImage true))
    rw [phnum]
    exact sampleImage_covered true _

end Osdev64
