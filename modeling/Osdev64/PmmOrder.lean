/-
What the order of the memory map decides.

The last usable entry of the map decides how much memory there is, and where two
entries touch the same page the later one decides what becomes of it.  The
outcome is the same for every order exactly when neither choice matters.
-/

import Osdev64.Pmm
import Osdev64.FrameRuns

namespace Osdev64

open PointerRing Word64

/-- The same pages, free pages and flags. -/
structure SameOutcome (frames frames' : Frames) : Prop where
  numpages : frames'.numpages = frames.numpages
  free : ∀ i, OnFree frames i ↔ OnFree frames' i
  flags : ∀ i, i < frames.numpages.toNat →
    (frames'.page (.elem i)).flags = (frames.page (.elem i)).flags

/-- `pmm_init` does the same for every order of the entries. -/
def OrderFree (map : List MemoryMap) (kernelEnd : Word) (before : Frames) : Prop :=
  ∀ map', map.Perm map' →
    SameOutcome (pmmInit map kernelEnd before) (pmmInit map' kernelEnd before)

/-- No two entries share a byte. -/
def DisjointEntries (map : List MemoryMap) : Prop :=
  map.Pairwise fun entry other =>
    entry.base.toNat + entry.len.toNat ≤ other.base.toNat ∨
      other.base.toNat + other.len.toNat ≤ entry.base.toNat

def PageAligned (map : List MemoryMap) : Prop :=
  ∀ entry ∈ map, entry.base.toNat % 4096 = 0 ∧ entry.len.toNat % 4096 = 0

/-- The pages `pmm_init` marks for an entry, the one after its last byte among them. -/
def MemoryMap.Marks (highest : Word) (entry : MemoryMap) (i : Nat) : Prop :=
  entry.stop ≤ highest ∧ entry.base ≤ entry.stop ∧ entry.request.low ≤ i ∧ i < entry.request.high

/-- All usable entries end at the same address, and entries that mark the same page are of the
same kind, unless the page is the kernel's or closed. -/
structure OrderSafe (map : List MemoryMap) (kernelEnd : Word) (before : Frames) : Prop where
  ends : ∀ entry ∈ map, entry.usable = true → entry.stop = highestAddr map
  pages : ∀ i, (v2p kernelEnd).toNat / 4096 < i → before.isOpen i = true →
    ¬(pmmPlan map kernelEnd).Protects i →
    ∀ entry ∈ map, ∀ other ∈ map, entry.Marks (highestAddr map) i → other.Marks (highestAddr map) i →
      entry.usable = other.usable

variable {map map' : List MemoryMap} {kernelEnd : Word} {before : Frames} {i : Nat}

/-! ### The end of memory -/

theorem highestAddr_append (map : List MemoryMap) (entry : MemoryMap) :
    highestAddr (map ++ [entry]) = if entry.usable then entry.stop else highestAddr map := by
  unfold highestAddr MemoryMap.stop
  rw [List.foldl_append, List.foldl_cons, List.foldl_nil, BitVec.add_comm]

theorem highestAddr_cases (map : List MemoryMap) :
    (highestAddr map = 0 ∧ ∀ entry ∈ map, entry.usable = false) ∨
      ∃ entry ∈ map, entry.usable = true ∧ highestAddr map = entry.stop := by
  induction map using List.reverseRecOn with
  | nil => exact Or.inl ⟨rfl, by simp⟩
  | append_singleton rest last ih =>
    rw [highestAddr_append]
    cases kind : last.usable with
    | true =>
      refine Or.inr ⟨last, List.mem_append_right rest List.mem_cons_self, kind, ?_⟩
      rw [if_pos rfl]
    | false =>
      rw [if_neg (by decide)]
      rcases ih with ⟨zero, none⟩ | ⟨entry, member, usable, same⟩
      · refine Or.inl ⟨zero, ?_⟩
        intro entry member
        rcases List.mem_append.mp member with earlier | atEnd
        · exact none entry earlier
        · rw [List.mem_singleton.mp atEnd]
          exact kind
      · exact Or.inr ⟨entry, List.mem_append_left [last] member, usable, same⟩

theorem highestAddr_perm (ends : ∀ entry ∈ map, entry.usable = true → entry.stop = highestAddr map)
    (perm : map.Perm map') : highestAddr map' = highestAddr map := by
  rcases highestAddr_cases map' with ⟨zero, none⟩ | ⟨entry, member, usable, same⟩
  · rcases highestAddr_cases map with ⟨zero', _⟩ | ⟨entry, member, usable, _⟩
    · rw [zero, zero']
    · rw [none entry (perm.mem_iff.mp member)] at usable
      cases usable
  · rw [same]
    exact ends entry (perm.mem_iff.mpr member) usable

private theorem stop_aligned (aligned : PageAligned map) {entry : MemoryMap} (member : entry ∈ map) :
    entry.stop.toNat % 4096 = 0 := by
  obtain ⟨base, len⟩ := aligned entry member
  unfold MemoryMap.stop
  rw [BitVec.toNat_add]
  omega

private theorem OrderFree.ends (aligned : PageAligned map) (free : OrderFree map kernelEnd before)
    (entry : MemoryMap) (member : entry ∈ map) (usable : entry.usable = true) :
    entry.stop = highestAddr map := by
  obtain ⟨first, second, rfl⟩ := List.append_of_mem member
  have perm : (first ++ entry :: second).Perm (first ++ second ++ [entry]) :=
    List.perm_middle.trans (List.perm_append_singleton entry (first ++ second)).symm
  have top : highestAddr (first ++ second ++ [entry]) = entry.stop := by
    rw [highestAddr_append, if_pos usable]
  have count := (free _ perm).numpages
  rw [pmmInit_numpages, pmmInit_numpages, ← BitVec.toNat_inj, pmmPlan_numpages, pmmPlan_numpages,
    top] at count
  have alignedTop : (highestAddr (first ++ entry :: second)).toNat % 4096 = 0 := by
    rcases highestAddr_cases (first ++ entry :: second) with ⟨_, none⟩ | ⟨other, inMap, _, same⟩
    · rw [none entry member] at usable
      cases usable
    · rw [same]
      exact stop_aligned aligned inMap
  have alignedStop := stop_aligned aligned member
  have topRoom := (highestAddr (first ++ entry :: second)).isLt
  have stopRoom := entry.stop.isLt
  apply BitVec.eq_of_toNat_eq
  omega

/-! ### The pages -/

private theorem mem_mapRequests {highest : Word} {request : Request} :
    request ∈ mapRequests highest map ↔
      ∃ entry ∈ map, (entry.stop ≤ highest ∧ entry.base ≤ entry.stop) ∧ entry.request = request := by
  unfold mapRequests
  simp [List.mem_map, List.mem_filter, and_assoc]

private theorem lastFlags_perm {highest : Word} (perm : map.Perm map')
    (oneKind : ∀ entry ∈ map, ∀ other ∈ map, entry.Marks highest i → other.Marks highest i →
      entry.usable = other.usable) :
    lastFlags (mapRequests highest map') i = lastFlags (mapRequests highest map) i := by
  have covering : ∀ {items : List MemoryMap} {flags : BitVec 32},
      lastFlags (mapRequests highest items) i = some flags →
        ∃ entry ∈ items, entry.Marks highest i ∧ entry.request.flags = flags := by
    intro items flags last
    obtain ⟨request, inRequests, covers, same⟩ := exists_of_lastFlags last
    obtain ⟨entry, member, ⟨low, ordered⟩, rfl⟩ := mem_mapRequests.mp inRequests
    exact ⟨entry, member, ⟨low, ordered, covers⟩, same⟩
  have absent : ∀ {items : List MemoryMap}, lastFlags (mapRequests highest items) i = none →
      ∀ entry ∈ items, ¬entry.Marks highest i := by
    intro items none entry member marks
    exact lastFlags_eq_none_iff.mp none entry.request
      (mem_mapRequests.mpr ⟨entry, member, ⟨marks.1, marks.2.1⟩, rfl⟩) marks.2.2
  cases first : lastFlags (mapRequests highest map') i with
  | none =>
    cases second : lastFlags (mapRequests highest map) i with
    | none => rfl
    | some flags =>
      obtain ⟨entry, member, marks, _⟩ := covering second
      exact absurd marks (absent first entry (perm.mem_iff.mp member))
  | some flags =>
    obtain ⟨entry, member, marks, rfl⟩ := covering first
    cases second : lastFlags (mapRequests highest map) i with
    | none => exact absurd marks (absent second entry (perm.mem_iff.mpr member))
    | some flags =>
      obtain ⟨other, inMap, marks', rfl⟩ := covering second
      have kinds := oneKind entry (perm.mem_iff.mpr member) other inMap marks marks'
      unfold MemoryMap.request
      rw [kinds]

private theorem onFree_above (static : before.Static) (perm : map.Perm map')
    (ends : ∀ entry ∈ map, entry.usable = true → entry.stop = highestAddr map)
    (reaches : (v2p kernelEnd).toNat / 4096 < (pmmPlan map kernelEnd).numpages.toNat)
    (above : (v2p kernelEnd).toNat / 4096 < i) (isOpen : before.isOpen i = true)
    (unprotected : ¬(pmmPlan map kernelEnd).Protects i) :
    OnFree (pmmInit map' kernelEnd before) i ↔
      ∃ flags, lastFlags (mapRequests (highestAddr map) map') i = some flags ∧
        marksUsed flags = false := by
  have top := highestAddr_perm ends perm
  have plan : pmmPlan map' kernelEnd = pmmPlan map kernelEnd := by
    unfold pmmPlan
    rw [top]
  rw [pmmInit_onFree_iff map' kernelEnd before static (by rw [plan]; exact reaches), top,
    lastFlags_pmmRequests, if_neg (by omega), top]
  exact and_iff_right ((pageInit_isOpen _ _ _ _).mpr ⟨isOpen, unprotected⟩)

private theorem exists_perm_last {highest : Word} {entry : MemoryMap} (member : entry ∈ map)
    (marks : entry.Marks highest i) :
    ∃ map', map.Perm map' ∧ lastFlags (mapRequests highest map') i = some entry.request.flags := by
  obtain ⟨first, second, rfl⟩ := List.append_of_mem member
  refine ⟨first ++ second ++ [entry],
    List.perm_middle.trans (List.perm_append_singleton entry (first ++ second)).symm, ?_⟩
  have split : mapRequests highest (first ++ second ++ [entry]) =
      mapRequests highest (first ++ second) ++ [entry.request] := by
    unfold mapRequests
    rw [List.filter_append, List.map_append, List.filter_cons_of_pos (by simp [marks.1, marks.2.1])]
    rfl
  rw [split, lastFlags_append, if_pos marks.2.2]

private theorem OrderFree.pages (static : before.Static) (free : OrderFree map kernelEnd before)
    (ends : ∀ entry ∈ map, entry.usable = true → entry.stop = highestAddr map)
    (reaches : (v2p kernelEnd).toNat / 4096 < (pmmPlan map kernelEnd).numpages.toNat)
    (above : (v2p kernelEnd).toNat / 4096 < i) (isOpen : before.isOpen i = true)
    (unprotected : ¬(pmmPlan map kernelEnd).Protects i) {entry : MemoryMap} (member : entry ∈ map)
    (marks : entry.Marks (highestAddr map) i) :
    OnFree (pmmInit map kernelEnd before) i ↔ entry.usable = true := by
  obtain ⟨map', perm, last⟩ := exists_perm_last member marks
  rw [(free map' perm).free i, onFree_above static perm ends reaches above isOpen unprotected, last]
  simp [entry.request_kind]

/-- The outcome does not depend on the order of an aligned map exactly when neither choice
matters. -/
theorem orderFree_iff (map : List MemoryMap) (kernelEnd : Word) (before : Frames)
    (static : before.Static) (aligned : PageAligned map)
    (reaches : (v2p kernelEnd).toNat / 4096 < (pmmPlan map kernelEnd).numpages.toNat) :
    OrderFree map kernelEnd before ↔ OrderSafe map kernelEnd before := by
  constructor
  · intro free
    have ends := free.ends aligned
    refine ⟨ends, ?_⟩
    intro i above isOpen unprotected entry inMap other inMap' marks marks'
    have first := free.pages static ends reaches above isOpen unprotected inMap marks
    have second := free.pages static ends reaches above isOpen unprotected inMap' marks'
    exact Bool.eq_iff_iff.mpr (first.symm.trans second)
  · intro safe map' perm
    have top := highestAddr_perm safe.ends perm
    have plan : pmmPlan map' kernelEnd = pmmPlan map kernelEnd := by
      unfold pmmPlan
      rw [top]
    have last : ∀ i, (pageInit (highestAddr map) (v2p kernelEnd) before).isOpen i = true →
        lastFlags (pmmRequests map' kernelEnd) i = lastFlags (pmmRequests map kernelEnd) i := by
      intro i isOpen
      obtain ⟨wasOpen, unprotected⟩ := (pageInit_isOpen _ _ _ _).mp isOpen
      rw [lastFlags_pmmRequests, lastFlags_pmmRequests, top]
      by_cases own : i ≤ (v2p kernelEnd).toNat / 4096
      · rw [if_pos own, if_pos own]
      · rw [if_neg own, if_neg own]
        exact lastFlags_perm perm (safe.pages i (by omega) wasOpen unprotected)
    have reaches' : (v2p kernelEnd).toNat / 4096 < (pmmPlan map' kernelEnd).numpages.toNat := by
      rw [plan]
      exact reaches
    refine ⟨?_, ?_, ?_⟩
    · rw [pmmInit_numpages, pmmInit_numpages, plan]
    · intro i
      rw [pmmInit_onFree_iff map kernelEnd before static reaches,
        pmmInit_onFree_iff map' kernelEnd before static reaches', top]
      apply and_congr_right
      intro isOpen
      rw [last i isOpen]
    · intro i _
      rw [(pmmInit_keeps map kernelEnd before static reaches).flags i,
        (pmmInit_keeps map' kernelEnd before static reaches').flags i, top, Books.written_run,
        Books.written_run]
      cases isOpen : (pageInit (highestAddr map) (v2p kernelEnd) before).isOpen i with
      | true => rw [if_pos rfl, if_pos rfl, last i isOpen]
      | false => rfl

/-- Reserved low memory and one usable region of 31 megabytes above the first. -/
def reservedLowMap : List MemoryMap := [⟨0, 0x9F000, 2⟩, ⟨0x100000, 0x1F00000, 1⟩]

/-- With one usable entry and no page in common, the order does not matter. -/
theorem orderFree_reservedLowMap :
    DisjointEntries reservedLowMap ∧ OrderFree reservedLowMap 0xFFFFFFFF8010C000 Frames.blank := by
  have aligned : PageAligned reservedLowMap := by
    unfold PageAligned reservedLowMap
    decide
  constructor
  · unfold DisjointEntries reservedLowMap
    decide
  · refine (orderFree_iff reservedLowMap 0xFFFFFFFF8010C000 Frames.blank blank_static aligned
      (by decide)).mpr ⟨?_, ?_⟩
    · unfold reservedLowMap
      decide
    · -- the two entries mark the pages up to 0x9F and from 0x100 on
      intro i _ _ _ entry inMap other inMap' marks marks'
      simp only [reservedLowMap, List.mem_cons, List.not_mem_nil, or_false] at inMap inMap'
      have low : (MemoryMap.mk 0 0x9F000 2).request.high = 0xA0 := by decide
      have high : (MemoryMap.mk 0x100000 0x1F00000 1).request.low = 0x100 := by decide
      rcases inMap with rfl | rfl
      · rcases inMap' with rfl | rfl
        · rfl
        · have above := marks'.2.2.1
          have below := marks.2.2.2
          omega
      · rcases inMap' with rfl | rfl
        · have above := marks.2.2.1
          have below := marks'.2.2.2
          omega
        · rfl

/-- Two usable regions; the one listed last decides how much memory there is. -/
def twoUsableMap : List MemoryMap := [⟨0, 0x9F000, 1⟩, ⟨0x100000, 0x1F00000, 1⟩]

theorem twoUsableMap_depends_on_order :
    DisjointEntries twoUsableMap ∧ PageAligned twoUsableMap ∧
      ¬OrderFree twoUsableMap 0xFFFFFFFF8010C000 Frames.blank := by
  refine ⟨?_, ?_, ?_⟩
  · unfold DisjointEntries twoUsableMap
    decide
  · unfold PageAligned twoUsableMap
    decide
  · intro free
    have swapped := (free [⟨0x100000, 0x1F00000, 1⟩, ⟨0, 0x9F000, 1⟩] (List.Perm.swap _ _ [])).numpages
    rw [pmmInit_numpages, pmmInit_numpages] at swapped
    exact absurd swapped (by decide)

end Osdev64
