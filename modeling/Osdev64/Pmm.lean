/-
The memory setup of `src/kernel.c`: `pmm_init` over the firmware's memory map.

The map is the list of entries at `P2V(0x7000)`.  Marking an entry touches the
pages from the one its first byte is in up to the one just past its last byte,
so what becomes of a page is decided by the last entry that touches it.
-/

import Osdev64.FrameTidy

namespace Osdev64

open PointerRing Word64

structure MemoryMap where
  base : Word
  len : Word
  type : Word

def MemoryMap.usable (entry : MemoryMap) : Bool := entry.type &&& 0xF = 1

def MemoryMap.stop (entry : MemoryMap) : Word := entry.base + entry.len

/-- The end of the last usable entry. -/
def highestAddr (map : List MemoryMap) : Word :=
  map.foldl (fun highest entry => if entry.usable then entry.len + entry.base else highest) 0

def markEntry (highest : Word) (frames : Frames) (entry : MemoryMap) : Frames :=
  if entry.stop ≤ highest then
    if entry.usable then (pageMarkRange entry.base entry.stop pFree frames).2
    else (pageMarkRange entry.base entry.stop pUsed frames).2
  else frames

def kernelFlags : BitVec 32 := pKernel ||| pImmutable ||| pUsed

def pmmInit (map : List MemoryMap) (kernelEnd : Word) (frames : Frames) : Frames :=
  let highest := highestAddr map
  let frames := pageInit highest (v2p kernelEnd) frames
  let frames := map.foldl (markEntry highest) frames
  -- mark everything below end of kernel as belonging to us
  (pageMarkRange 0 (v2p kernelEnd) kernelFlags frames).2

/-- The entries the second loop of `pmm_init` marks, and the pages it marks for them. -/
def MemoryMap.touches (highest : Word) (entry : MemoryMap) (i : Nat) : Bool :=
  entry.stop ≤ highest ∧ entry.base.toNat / 4096 ≤ i ∧ i ≤ entry.stop.toNat / 4096

/-- Whether the last entry that touches a page is usable. -/
def lastMark (highest : Word) (map : List MemoryMap) (i : Nat) : Option Bool :=
  map.foldl (fun last entry => if entry.touches highest i then some entry.usable else last) none

/-- No entry wraps around the end of the address space. -/
def NoWrap (map : List MemoryMap) : Prop :=
  ∀ entry ∈ map, entry.base.toNat + entry.len.toNat < 2 ^ 64

/-! ### The books of the setup -/

/-- An accepted call of `page_mark_range`, from its first page up to, not including, `high`. -/
structure Request where
  low : Nat
  high : Nat
  flags : BitVec 32

/-- The three lists, and the flags written to each page last. -/
structure Books where
  free : List Nat
  used : List Nat
  lru : List Nat
  written : Nat → Option (BitVec 32)

def Books.empty : Books := { free := [], used := [], lru := [], written := fun _ => none }

/-- The pages of a request that are not closed to it. -/
def Request.pages (opened : Nat → Bool) (request : Request) : List Nat :=
  (List.range' request.low (request.high - request.low)).filter opened

/-- What a request does, when the pages `opened` are the ones it may touch. -/
def Books.mark (opened : Nat → Bool) (books : Books) (request : Request) : Books where
  free := freeAfter request.flags books.free (request.pages opened)
  used := usedAfter request.flags books.used (request.pages opened)
  lru := lruAfter request.flags books.lru (request.pages opened)
  written := fun i =>
    if i ∈ request.pages opened then some request.flags else books.written i

/-- The call of `page_mark_range` for an entry of the map. -/
def MemoryMap.request (entry : MemoryMap) : Request where
  low := (markBounds entry.base entry.stop).1
  high := (markBounds entry.base entry.stop).2
  flags := if entry.usable then pFree else pUsed

/-- The second loop of `pmm_init`; an entry that wraps around is rejected. -/
def mapRequests (highest : Word) (map : List MemoryMap) : List Request :=
  (map.filter fun entry => entry.stop ≤ highest ∧ entry.base ≤ entry.stop).map MemoryMap.request

def kernelRequest (kernelEnd : Word) : Request where
  low := (markBounds 0 (v2p kernelEnd)).1
  high := (markBounds 0 (v2p kernelEnd)).2
  flags := kernelFlags

def pmmRequests (map : List MemoryMap) (kernelEnd : Word) : List Request :=
  mapRequests (highestAddr map) map ++ [kernelRequest kernelEnd]

/-- The flags of the last request that covers a page. -/
def lastFlags (requests : List Request) (i : Nat) : Option (BitVec 32) :=
  requests.foldl (fun last request =>
    if request.low ≤ i ∧ i < request.high then some request.flags else last) none

variable {start frames : Frames} {free used lru : List Nat} {status : Nat → Option Bool}
  {books : Books} {opened : Nat → Bool} {request : Request} {requests : List Request} {i : Nat}

theorem MemoryMap.request_kind (entry : MemoryMap) :
    marksUsed entry.request.flags = !entry.usable := by
  change marksUsed (if entry.usable then pFree else pUsed) = !entry.usable
  cases entry.usable with
  | true => decide
  | false => decide

theorem mem_pages : i ∈ request.pages opened ↔
    (request.low ≤ i ∧ i < request.high) ∧ opened i = true := by
  unfold Request.pages
  rw [List.mem_filter, List.mem_range'_1]
  constructor
  · rintro ⟨⟨low, high⟩, isOpen⟩
    exact ⟨⟨low, by omega⟩, isOpen⟩
  · rintro ⟨⟨low, high⟩, isOpen⟩
    exact ⟨⟨low, by omega⟩, isOpen⟩

/-- Every page is on the list its flags name. -/
structure Books.Filed (opened : Nat → Bool) (books : Books) : Prop where
  free : ∀ i, i ∈ books.free ↔ ∃ flags, books.written i = some flags ∧ marksUsed flags = false
  used : ∀ i, i ∈ books.used ↔ ∃ flags, books.written i = some flags ∧ marksUsed flags = true

theorem Books.Filed.mark (filed : books.Filed opened) (request : Request) :
    (books.mark opened request).Filed opened := by
  constructor
  · intro i
    unfold Books.mark
    simp only
    rw [mem_freeAfter, filed.free i]
    by_cases covered : i ∈ request.pages opened
    · simp [covered]
    · simp [covered]
  · intro i
    unfold Books.mark
    simp only
    rw [mem_usedAfter, filed.used i]
    by_cases covered : i ∈ request.pages opened
    · simp [covered]
    · simp [covered]

theorem Books.filed_run (opened : Nat → Bool) (requests : List Request) (filed : books.Filed opened) :
    (requests.foldl (Books.mark opened) books).Filed opened := by
  induction requests generalizing books with
  | nil => exact filed
  | cons request rest ih => exact ih (filed.mark request)

theorem Books.empty_filed (opened : Nat → Bool) : Books.empty.Filed opened := by
  constructor
  · intro i
    simp [Books.empty]
  · intro i
    simp [Books.empty]

theorem Books.written_run (opened : Nat → Bool) (requests : List Request) (i : Nat) :
    (requests.foldl (Books.mark opened) Books.empty).written i =
      if opened i then lastFlags requests i else none := by
  have general : ∀ (requests : List Request) (books : Books) (last : Option (BitVec 32)),
      (books.written i = if opened i then last else none) →
      (requests.foldl (Books.mark opened) books).written i =
        if opened i then requests.foldl (fun last request =>
          if request.low ≤ i ∧ i < request.high then some request.flags else last) last
        else none := by
    intro requests
    induction requests with
    | nil => exact fun books last same => same
    | cons request rest ih =>
      intro books last same
      rw [List.foldl_cons, List.foldl_cons]
      apply ih
      unfold Books.mark
      simp only [mem_pages, same]
      cases opened i with
      | true => simp
      | false => simp
  exact general requests Books.empty none (by simp [Books.empty])

theorem lastFlags_append (requests : List Request) (request : Request) (i : Nat) :
    lastFlags (requests ++ [request]) i =
      if request.low ≤ i ∧ i < request.high then some request.flags else lastFlags requests i := by
  unfold lastFlags
  rw [List.foldl_append, List.foldl_cons, List.foldl_nil]

theorem lastFlags_eq_none_iff :
    lastFlags requests i = none ↔ ∀ request ∈ requests, ¬(request.low ≤ i ∧ i < request.high) := by
  induction requests using List.reverseRecOn with
  | nil => simp [lastFlags]
  | append_singleton rest last ih =>
    rw [lastFlags_append]
    by_cases covers : last.low ≤ i ∧ i < last.high
    · rw [if_pos covers]
      refine iff_of_false (by simp) fun none => none last ?_ covers
      exact List.mem_append_right rest List.mem_cons_self
    · rw [if_neg covers, ih]
      constructor
      · intro none request member
        rcases List.mem_append.mp member with earlier | atEnd
        · exact none request earlier
        · rw [List.mem_singleton.mp atEnd]
          exact covers
      · intro none request member
        exact none request (List.mem_append_left [last] member)

theorem exists_of_lastFlags {flags : BitVec 32} (last : lastFlags requests i = some flags) :
    ∃ request ∈ requests, (request.low ≤ i ∧ i < request.high) ∧ request.flags = flags := by
  induction requests using List.reverseRecOn with
  | nil => cases last
  | append_singleton rest request ih =>
    rw [lastFlags_append] at last
    by_cases covers : request.low ≤ i ∧ i < request.high
    · rw [if_pos covers] at last
      exact ⟨request, List.mem_append_right rest List.mem_cons_self, covers, Option.some.inj last⟩
    · rw [if_neg covers] at last
      obtain ⟨earlier, member, covered, same⟩ := ih last
      exact ⟨earlier, List.mem_append_left [request] member, covered, same⟩

/-! ### The allocator keeps the books -/

/-- The state represents the books, and differs from `start` only by what they say. -/
structure Keeps (start frames : Frames) (books : Books) : Prop
    extends Lists frames books.free books.used books.lru where
  placed : ∀ i, i < frames.numpages.toNat → LruPlaced frames.heap books.lru i
  numpages : frames.numpages = start.numpages
  parray : frames.parray = start.parray
  sameOpen : ∀ i, frames.isOpen i = start.isOpen i
  address : ∀ pointer, (frames.page pointer).address = (start.page pointer).address
  data : ∀ pointer, (frames.page pointer).data = (start.page pointer).data
  flags : ∀ i, (frames.page (.elem i)).flags =
    ((books.written i).map flagWord).getD (start.page (.elem i)).flags

private theorem Marked.isOpen {frames' : Frames} {flags : BitVec 32} {gone : List Nat}
    (marked : Marked flags gone lru frames frames') (stays : flagWord flags &&& protectedFlags = 0)
    (wereOpen : ∀ i ∈ gone, frames.isOpen i = true) (i : Nat) :
    frames'.isOpen i = frames.isOpen i := by
  by_cases member : i ∈ gone
  · rw [wereOpen i member]
    unfold Frames.isOpen
    rw [marked.markedPage i member]
    simpa using stays
  · unfold Frames.isOpen
    rw [marked.page (.elem i)]
    intro k inGone same
    injection same with same
    exact member (same ▸ inGone)

private theorem Marked.sameContents {frames' : Frames} {flags : BitVec 32} {gone : List Nat}
    (marked : Marked flags gone lru frames frames') (pointer : PagePtr) :
    (frames'.page pointer).address = (frames.page pointer).address ∧
      (frames'.page pointer).data = (frames.page pointer).data := by
  by_cases member : ∃ k ∈ gone, pointer = .elem k
  · obtain ⟨k, inGone, rfl⟩ := member
    rw [marked.markedPage k inGone]
    exact ⟨rfl, rfl⟩
  · rw [marked.page pointer]
    · exact ⟨rfl, rfl⟩
    · intro k inGone same
      exact member ⟨k, inGone, same⟩

private theorem Marked.placed {frames' : Frames} {flags : BitVec 32} {gone : List Nat} {i : Nat}
    (marked : Marked flags gone lru frames frames') (placed : LruPlaced frames.heap lru i) :
    LruPlaced frames'.heap (lruAfter flags lru gone) i := by
  cases kind : marksUsed flags with
  | true =>
    simp only [lruAfter, kind, if_true]
    by_cases inGone : i ∈ gone
    · exact Or.inl (List.mem_append_right _ inGone)
    · rcases placed with inLru | lone
      · exact Or.inl (List.mem_append_left _ (mem_without.mpr ⟨inLru, inGone⟩))
      · by_cases inLru : i ∈ lru
        · exact Or.inl (List.mem_append_left _ (mem_without.mpr ⟨inLru, inGone⟩))
        · exact Or.inr ((marked.lruNode i inGone inLru).selfLinked lone)
  | false =>
    simp only [lruAfter, kind, Bool.false_eq_true, if_false]
    rcases placed with inLru | lone
    · exact Or.inl inLru
    · exact Or.inr ((marked.lruKept kind i).selfLinked lone)

theorem Keeps.mark {low high : Word} {flags : BitVec 32} (keeps : Keeps start frames books)
    (marks : Marks low high flags) (stays : flagWord flags &&& protectedFlags = 0)
    (inside : (markBounds low high).2 ≤ frames.numpages.toNat) :
    Keeps start (pageMarkRange low high flags frames).2
      (books.mark start.isOpen ⟨(markBounds low high).1, (markBounds low high).2, flags⟩) := by
  have sameOpen : frames.isOpen = start.isOpen := funext keeps.sameOpen
  have within : ∀ k ∈ List.range' (markBounds low high).1
      ((markBounds low high).2 - (markBounds low high).1), k < frames.numpages.toNat := by
    intro k member
    rw [List.mem_range'_1] at member
    omega
  have placed : marksUsed flags = true → ∀ k ∈ frames.marked (List.range' (markBounds low high).1
      ((markBounds low high).2 - (markBounds low high).1)), LruPlaced frames.heap books.lru k :=
    fun _ k member => keeps.placed k (within k (mem_marked.mp member).1)
  obtain ⟨lists, marked⟩ := markLoop_spec _ List.nodup_range' within keeps.toLists placed
  have wereOpen : ∀ i ∈ frames.marked (List.range' (markBounds low high).1
      ((markBounds low high).2 - (markBounds low high).1)), frames.isOpen i = true :=
    fun i member => (mem_marked.mp member).2
  rw [pageMarkRange_of_marks marks]
  unfold Frames.marked at lists marked wereOpen
  rw [sameOpen] at lists marked wereOpen
  refine ⟨lists, ?_, marked.numpages.trans keeps.numpages, marked.parray.trans keeps.parray, ?_, ?_,
    ?_, ?_⟩
  · intro i below
    rw [marked.numpages] at below
    exact marked.placed (keeps.placed i below)
  · intro i
    rw [marked.isOpen stays (by rw [sameOpen]; exact wereOpen) i, keeps.sameOpen i]
  · intro pointer
    rw [(marked.sameContents pointer).1, keeps.address pointer]
  · intro pointer
    rw [(marked.sameContents pointer).2, keeps.data pointer]
  · intro i
    unfold Books.mark Request.pages
    simp only
    split
    · rename_i member
      rw [marked.markedPage i member]
      rfl
    · rename_i outside
      rw [marked.page (.elem i), keeps.flags i]
      intro k member same
      injection same with same
      exact outside (same ▸ member)

theorem markBounds_of_lt (low high : Word) (small : high.toNat + 4096 < 2 ^ 64) :
    markBounds low high = (low.toNat / 4096, high.toNat / 4096 + 1) := by
  unfold markBounds
  rw [roundDown_div_page, roundUp_div_page_of_lt high small]

theorem Keeps.entries {highest : Word} (map : List MemoryMap) (keeps : Keeps start frames books)
    (small : highest.toNat + 4096 < 2 ^ 64)
    (inside : highest.toNat / 4096 < frames.numpages.toNat) :
    Keeps start (map.foldl (markEntry highest) frames)
      ((mapRequests highest map).foldl (Books.mark start.isOpen) books) := by
  induction map generalizing frames books with
  | nil => exact keeps
  | cons entry rest ih =>
    rw [List.foldl_cons]
    unfold mapRequests at ih ⊢
    by_cases processed : entry.stop ≤ highest ∧ entry.base ≤ entry.stop
    · rw [List.filter_cons_of_pos (by simpa using processed), List.map_cons, List.foldl_cons]
      obtain ⟨low, ordered⟩ := processed
      have below : entry.stop.toNat ≤ highest.toNat := low
      have bounds := markBounds_of_lt entry.base entry.stop (by omega)
      have insideEntry : (markBounds entry.base entry.stop).2 ≤ frames.numpages.toNat := by
        rw [bounds]
        omega
      have turn : Keeps start (markEntry highest frames entry)
          (books.mark start.isOpen entry.request) := by
        unfold markEntry MemoryMap.request
        rw [if_pos low]
        cases kind : entry.usable with
        | true => exact keeps.mark ⟨ordered, by decide⟩ (by decide) insideEntry
        | false => exact keeps.mark ⟨ordered, by decide⟩ (by decide) insideEntry
      apply ih turn
      rw [turn.numpages, ← keeps.numpages]
      exact inside
    · rw [List.filter_cons_of_neg (by simpa using processed)]
      have skipped : markEntry highest frames entry = frames := by
        unfold markEntry
        split
        · rename_i low
          have rejected : ∀ flags, ¬Marks entry.base entry.stop flags :=
            fun flags marks => processed ⟨low, marks.1⟩
          rw [pageMarkRange_of_not_marks (rejected pFree), pageMarkRange_of_not_marks (rejected pUsed),
            ite_self]
        · rfl
      rw [skipped]
      exact ih keeps inside

/-! ### The whole setup -/

/-- What `pmm_init` makes of a page it may touch: the kernel's own pages are
used, the others are what the map says last. -/
def pmmStatus (map : List MemoryMap) (kernelEnd : Word) (i : Nat) : Option Bool :=
  if i ≤ (v2p kernelEnd).toNat / 4096 then some false else lastMark (highestAddr map) map i

def pmmPlan (map : List MemoryMap) (kernelEnd : Word) : InitPlan :=
  pageInitPlan (highestAddr map) (v2p kernelEnd)

theorem pmmPlan_numpages (map : List MemoryMap) (kernelEnd : Word) :
    (pmmPlan map kernelEnd).numpages.toNat =
      ((highestAddr map).toNat + 4096) % 2 ^ 64 / 4096 := by
  unfold pmmPlan
  rw [pageInitPlan_numpages, roundUp_div_page]

theorem pmmInit_numpages (map : List MemoryMap) (kernelEnd : Word) (before : Frames) :
    (pmmInit map kernelEnd before).numpages = (pmmPlan map kernelEnd).numpages := by
  have entries : ∀ (highest : Word) (map : List MemoryMap) (frames : Frames),
      (map.foldl (markEntry highest) frames).numpages = frames.numpages := by
    intro highest map
    induction map with
    | nil => exact fun _ => rfl
    | cons entry rest ih =>
      intro frames
      rw [List.foldl_cons, ih]
      unfold markEntry
      split
      · split
        · exact pageMarkRange_numpages _ _ _ _
        · exact pageMarkRange_numpages _ _ _ _
      · rfl
  unfold pmmInit
  simp only
  rw [pageMarkRange_numpages, entries, pageInit_numpages]
  rfl

theorem pmmInit_keeps (map : List MemoryMap) (kernelEnd : Word) (before : Frames)
    (static : before.Static)
    (reaches : (v2p kernelEnd).toNat / 4096 < (pmmPlan map kernelEnd).numpages.toNat) :
    Keeps (pageInit (highestAddr map) (v2p kernelEnd) before) (pmmInit map kernelEnd before)
      ((pmmRequests map kernelEnd).foldl
        (Books.mark (pageInit (highestAddr map) (v2p kernelEnd) before).isOpen) Books.empty) := by
  have fresh := pageInit_fresh (highestAddr map) (v2p kernelEnd) static
  have count : (pageInit (highestAddr map) (v2p kernelEnd) before).numpages.toNat =
      ((highestAddr map).toNat + 4096) % 2 ^ 64 / 4096 := by
    rw [fresh.numpages]
    exact pmmPlan_numpages map kernelEnd
  rw [pmmPlan_numpages] at reaches
  have room := (highestAddr map).isLt
  have small : (highestAddr map).toNat + 4096 < 2 ^ 64 := by omega
  have started : Keeps (pageInit (highestAddr map) (v2p kernelEnd) before)
      (pageInit (highestAddr map) (v2p kernelEnd) before) Books.empty := by
    refine ⟨fresh.lists, ?_, rfl, rfl, fun _ => rfl, fun _ => rfl, fun _ => rfl, fun _ => rfl⟩
    intro i below
    exact Or.inr (fresh.lruLone i below)
  have marked := started.entries map small (by rw [count]; omega)
  have kernelSmall : (v2p kernelEnd).toNat + 4096 < 2 ^ 64 := by
    rw [v2p_toNat]
    omega
  have insideKernel : (markBounds 0 (v2p kernelEnd)).2 ≤
      (map.foldl (markEntry (highestAddr map))
        (pageInit (highestAddr map) (v2p kernelEnd) before)).numpages.toNat := by
    rw [markBounds_of_lt 0 (v2p kernelEnd) kernelSmall, marked.numpages, count]
    omega
  have ordered : (0 : Word) ≤ v2p kernelEnd := by
    rw [BitVec.le_def]
    exact Nat.zero_le _
  unfold pmmRequests
  rw [List.foldl_append]
  exact marked.mark ⟨ordered, by decide⟩ (by decide) insideKernel

theorem pmmInit_onFree_iff (map : List MemoryMap) (kernelEnd : Word) (before : Frames)
    (static : before.Static)
    (reaches : (v2p kernelEnd).toNat / 4096 < (pmmPlan map kernelEnd).numpages.toNat) (i : Nat) :
    OnFree (pmmInit map kernelEnd before) i ↔
      (pageInit (highestAddr map) (v2p kernelEnd) before).isOpen i = true ∧
        ∃ flags, lastFlags (pmmRequests map kernelEnd) i = some flags ∧ marksUsed flags = false := by
  have keeps := pmmInit_keeps map kernelEnd before static reaches
  generalize pageInit (highestAddr map) (v2p kernelEnd) before = start at keeps
  have filed := Books.filed_run start.isOpen (pmmRequests map kernelEnd) (Books.empty_filed start.isOpen)
  rw [onFree_iff keeps.toRings, filed.free i, Books.written_run]
  cases start.isOpen i with
  | true => simp
  | false => simp

/-- The page of the last byte of the kernel and all pages below it are requested last. -/
theorem lastFlags_pmmRequests (map : List MemoryMap) (kernelEnd : Word) (i : Nat) :
    lastFlags (pmmRequests map kernelEnd) i =
      if i ≤ (v2p kernelEnd).toNat / 4096 then some kernelFlags
      else lastFlags (mapRequests (highestAddr map) map) i := by
  have small : (v2p kernelEnd).toNat + 4096 < 2 ^ 64 := by
    rw [v2p_toNat]
    omega
  unfold pmmRequests
  rw [lastFlags_append]
  unfold kernelRequest
  rw [markBounds_of_lt 0 (v2p kernelEnd) small]
  change (if 0 / 4096 ≤ i ∧ i < (v2p kernelEnd).toNat / 4096 + 1 then _ else _) = _
  by_cases own : i ≤ (v2p kernelEnd).toNat / 4096
  · rw [if_pos (by omega), if_pos own]
  · rw [if_neg (by omega), if_neg own]

/-! ### The lists by what the map says last -/

/-- The lists are what `status` says of the pages `page_mark_range` may touch. -/
structure Sorted (start frames : Frames) (free used lru : List Nat)
    (status : Nat → Option Bool) : Prop extends Lists frames free used lru where
  placed : ∀ i, i < frames.numpages.toNat → LruPlaced frames.heap lru i
  inFree : ∀ i, i < frames.numpages.toNat →
    (i ∈ free ↔ start.isOpen i = true ∧ status i = some true)
  inUsed : ∀ i, i < frames.numpages.toNat →
    (i ∈ used ↔ start.isOpen i = true ∧ status i = some false)
  sameNumpages : frames.numpages = start.numpages
  sameParray : frames.parray = start.parray
  sameOpen : ∀ i, frames.isOpen i = start.isOpen i
  sameAddress : ∀ pointer, (frames.page pointer).address = (start.page pointer).address

/-- Without wrapping around, the requests of a map are the entries that touch a page. -/
private theorem lastFlags_mapRequests {highest : Word} (map : List MemoryMap) (noWrap : NoWrap map)
    (small : highest.toNat + 4096 < 2 ^ 64) (i : Nat) :
    (lastFlags (mapRequests highest map) i).map (fun flags => !marksUsed flags) =
      lastMark highest map i := by
  have general : ∀ (map : List MemoryMap) (last : Option (BitVec 32)) (kind : Option Bool),
      NoWrap map → last.map (fun flags => !marksUsed flags) = kind →
      ((mapRequests highest map).foldl (fun last request =>
          if request.low ≤ i ∧ i < request.high then some request.flags else last) last).map
        (fun flags => !marksUsed flags) =
      map.foldl (fun last entry => if entry.touches highest i then some entry.usable else last)
        kind := by
    intro map
    induction map with
    | nil => exact fun last kind _ same => same
    | cons entry rest ih =>
      intro last kind noWrap same
      have noWrapRest : NoWrap rest := fun other member =>
        noWrap other (List.mem_cons_of_mem entry member)
      have sum := noWrap entry List.mem_cons_self
      have stopEq : entry.stop.toNat = entry.base.toNat + entry.len.toNat := by
        unfold MemoryMap.stop
        rw [BitVec.toNat_add]
        omega
      have ordered : entry.base ≤ entry.stop := by
        rw [BitVec.le_def]
        omega
      unfold mapRequests at ih ⊢
      rw [List.foldl_cons]
      by_cases processed : entry.stop ≤ highest
      · have below : entry.stop.toNat ≤ highest.toNat := processed
        have covers : (entry.request.low ≤ i ∧ i < entry.request.high) ↔
            entry.touches highest i = true := by
          unfold MemoryMap.request
          rw [markBounds_of_lt entry.base entry.stop (by omega)]
          simp only [MemoryMap.touches, processed, true_and, decide_eq_true_eq]
          omega
        rw [List.filter_cons_of_pos (by simp [processed, ordered]), List.map_cons, List.foldl_cons]
        apply ih _ _ noWrapRest
        by_cases touched : entry.touches highest i = true
        · rw [if_pos (covers.mpr touched), if_pos touched, Option.map_some, entry.request_kind,
            Bool.not_not]
        · rw [if_neg (fun isCovered => touched (covers.mp isCovered)), if_neg touched]
          exact same
      · have untouched : ¬entry.touches highest i = true := by
          simp [MemoryMap.touches, processed]
        rw [List.filter_cons_of_neg (by simp [processed]), if_neg untouched]
        exact ih _ _ noWrapRest same
  exact general map none none noWrap rfl

theorem pmmInit_sorted (map : List MemoryMap) (kernelEnd : Word) (before : Frames)
    (static : before.Static) (noWrap : NoWrap map)
    (reaches : (v2p kernelEnd).toNat / 4096 < (pmmPlan map kernelEnd).numpages.toNat) :
    ∃ free used lru, Sorted (pageInit (highestAddr map) (v2p kernelEnd) before)
      (pmmInit map kernelEnd before) free used lru (pmmStatus map kernelEnd) := by
  have keeps := pmmInit_keeps map kernelEnd before static reaches
  rw [pmmPlan_numpages] at reaches
  have room := (highestAddr map).isLt
  have status : ∀ i, pmmStatus map kernelEnd i =
      (lastFlags (pmmRequests map kernelEnd) i).map fun flags => !marksUsed flags := by
    intro i
    rw [lastFlags_pmmRequests]
    unfold pmmStatus
    split
    · rfl
    · exact (lastFlags_mapRequests map noWrap (by omega) i).symm
  generalize pageInit (highestAddr map) (v2p kernelEnd) before = start at keeps
  have filed := Books.filed_run start.isOpen (pmmRequests map kernelEnd) (Books.empty_filed start.isOpen)
  refine ⟨_, _, _, keeps.toLists, keeps.placed, ?_, ?_, keeps.numpages, keeps.parray, keeps.sameOpen,
    keeps.address⟩
  · intro i _
    rw [filed.free i, Books.written_run, status i]
    cases start.isOpen i with
    | true => simp [Option.map_eq_some_iff]
    | false => simp
  · intro i _
    rw [filed.used i, Books.written_run, status i]
    cases start.isOpen i with
    | true => simp [Option.map_eq_some_iff]
    | false => simp

theorem pmmInit_onFree (map : List MemoryMap) (kernelEnd : Word) (before : Frames)
    (static : before.Static) (noWrap : NoWrap map)
    (reaches : (v2p kernelEnd).toNat / 4096 < (pmmPlan map kernelEnd).numpages.toNat) (i : Nat) :
    OnFree (pmmInit map kernelEnd before) i ↔
      i < (pmmPlan map kernelEnd).numpages.toNat ∧ before.isOpen i = true ∧
        ¬(pmmPlan map kernelEnd).Protects i ∧ pmmStatus map kernelEnd i = some true := by
  obtain ⟨free, used, lru, sorted⟩ := pmmInit_sorted map kernelEnd before static noWrap reaches
  have count := pmmInit_numpages map kernelEnd before
  rw [onFree_iff sorted.toRings]
  constructor
  · intro member
    have below := sorted.bounded i (Or.inl member)
    obtain ⟨isOpen, status⟩ := (sorted.inFree i below).mp member
    obtain ⟨wasOpen, free⟩ := (pageInit_isOpen _ _ before i).mp isOpen
    exact ⟨count ▸ below, wasOpen, free, status⟩
  · rintro ⟨below, wasOpen, free, status⟩
    exact (sorted.inFree i (count ▸ below)).mpr
      ⟨(pageInit_isOpen _ _ before i).mpr ⟨wasOpen, free⟩, status⟩

end Osdev64
