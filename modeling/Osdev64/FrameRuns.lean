/-
The list representation over whole runs of the allocator.

A run starts at `page_init` and makes any number of calls.  Two calls of
`page_mark_range` break the representation: marking a used page free leaves its
lru node on the lru list, and marking a page used that `page_free` released
unlinks a node whose pointers are stale.  Runs without them keep it.
-/

import Osdev64.FrameTidy
import Osdev64.Lib.Runs

namespace Osdev64

open PointerRing Word64 Runs

inductive FrameCall where
  | mark (start stop : Word) (flags : BitVec 32)
  | alloc
  | free (page : PagePtr)

/-- The allocator, and the pages it handed out that were not given back since. -/
structure Session where
  frames : Frames
  owned : List PagePtr

def Session.step (session : Session) : FrameCall → Session
  | .mark start stop flags =>
    { session with frames := (pageMarkRange start stop flags session.frames).2 }
  | .alloc =>
    match pageAlloc session.frames with
    | (.null, frames) => { session with frames := frames }
    | (page, frames) => { frames := frames, owned := page :: session.owned }
  | .free page =>
    { frames := pageFree page session.frames, owned := session.owned.erase page }

/-- A range inside the page array; only pages that `page_alloc` returned are freed. -/
def Session.Allows (session : Session) : FrameCall → Prop
  | .mark _ stop _ => stop.toNat ≤ session.frames.numpages.toNat * 4096
  | .alloc => True
  | .free page => page ∈ session.owned

/-- The states `page_init` leaves, whatever memory held. -/
def Session.Initial (session : Session) : Prop :=
  ∃ (memory table : Word) (frames : Frames), frames.Static ∧
    session = { frames := pageInit memory table frames, owned := [] }

/-- The states of the runs all of whose calls meet `condition` in the state they start from. -/
def Reaches (condition : Session → FrameCall → Prop) : Session → Prop :=
  Reachable Session.Initial fun session call session' =>
    session.Allows call ∧ condition session call ∧ session' = session.step call

theorem Reaches.step {condition : Session → FrameCall → Prop} {session : Session}
    (before : Reaches condition session) (call : FrameCall) (allowed : session.Allows call)
    (met : condition session call) : Reaches condition (session.step call) :=
  Reachable.step session call _ before ⟨allowed, met, rfl⟩

/-- The three heads start well-formed rings, no page is on both page lists, and
the lru ring holds the lru nodes of exactly the used pages. -/
def ListsWellFormed (frames : Frames) : Prop :=
  ∃ free used lru, Rings frames.heap free used lru ∧ ∀ i, i ∈ lru ↔ i ∈ used

/-! ### The calls that keep the representation -/

/-- The rounded range ends inside the array, no page that is marked used has a
stale lru node, and no used page is marked free. -/
def KeepsNodes (session : Session) : FrameCall → Prop
  | .mark start stop flags => Marks start stop flags →
      (markBounds start stop).2 ≤ session.frames.numpages.toNat ∧
      ∀ i, InRange session.frames start stop i →
        if marksUsed flags then LruIntact session.frames i else ¬OnUsed session.frames i
  | _ => True

/-! ### The invariant of a run -/

variable {frames : Frames} {session : Session} {free used lru : List Nat}

structure Sound (session : Session) (free used lru : List Nat) : Prop
    extends Tidy session.frames free used lru where
  ownedUsed : ∀ page ∈ session.owned, ∃ i ∈ used, page = .elem i
  ownedDistinct : session.owned.Nodup

theorem sound_init (memory table : Word) (static : frames.Static) :
    Sound { frames := pageInit memory table frames, owned := [] } [] [] [] := by
  refine ⟨(pageInit_fresh memory table static).tidy, ?_, ?_⟩
  · simp
  · simp

theorem ownedUsed_cons {owned : List PagePtr} {i : Nat}
    (ownedUsed : ∀ page ∈ owned, ∃ j ∈ used, page = .elem j) :
    ∀ page ∈ .elem i :: owned, ∃ j ∈ i :: used, page = .elem j := by
  intro page member
  rcases List.mem_cons.mp member with same | older
  · exact ⟨i, List.mem_cons_self, same⟩
  · obtain ⟨j, inUsed, same⟩ := ownedUsed page older
    exact ⟨j, List.mem_cons_of_mem i inUsed, same⟩

theorem ownedDistinct_cons {owned : List PagePtr} {i : Nat}
    (ownedUsed : ∀ page ∈ owned, ∃ j ∈ used, page = .elem j) (distinct : owned.Nodup)
    (notUsed : i ∉ used) : (PagePtr.elem i :: owned).Nodup := by
  refine List.nodup_cons.mpr ⟨?_, distinct⟩
  intro member
  obtain ⟨j, inUsed, same⟩ := ownedUsed _ member
  injection same with same
  exact notUsed (same ▸ inUsed)

theorem ownedUsed_erase {owned : List PagePtr} {i : Nat}
    (ownedUsed : ∀ page ∈ owned, ∃ j ∈ used, page = .elem j) (distinct : owned.Nodup) :
    ∀ page ∈ owned.erase (.elem i), ∃ j ∈ used.erase i, page = .elem j := by
  intro page member
  have different : page ≠ .elem i := by
    rintro rfl
    exact distinct.not_mem_erase member
  obtain ⟨j, present, same⟩ := ownedUsed page (List.mem_of_mem_erase member)
  refine ⟨j, (List.mem_erase_of_ne ?_).mpr present, same⟩
  rintro rfl
  exact different same

private theorem Sound.mark {start stop : Word} {flags : BitVec 32}
    (sound : Sound session free used lru) (keeps : KeepsNodes session (.mark start stop flags)) :
    ∃ free' used' lru', Sound (session.step (.mark start stop flags)) free' used' lru' := by
  by_cases marks : Marks start stop flags
  · obtain ⟨inside, pages⟩ := keeps marks
    cases kind : marksUsed flags with
    | true =>
      simp only [kind, if_true] at pages
      obtain ⟨gone, _, _, tidy, _⟩ := sound.toTidy.markUsed kind marks inside pages
      refine ⟨_, _, _, tidy, ?_, sound.ownedDistinct⟩
      intro page member
      obtain ⟨i, inUsed, same⟩ := sound.ownedUsed page member
      refine ⟨i, ?_, same⟩
      simp only [List.mem_append, mem_without]
      tauto
    | false =>
      simp only [kind, Bool.false_eq_true, if_false] at pages
      obtain ⟨gone, _, _, tidy, _⟩ := sound.toTidy.markFree kind marks inside pages
      exact ⟨_, _, _, tidy, sound.ownedUsed, sound.ownedDistinct⟩
  · refine ⟨free, used, lru, ?_⟩
    have same : session.step (.mark start stop flags) = session := by
      simp only [Session.step, pageMarkRange_of_not_marks marks]
    rw [same]
    exact sound

private theorem Sound.alloc (sound : Sound session free used lru) :
    ∃ free' used' lru', Sound (session.step .alloc) free' used' lru' := by
  cases free with
  | nil =>
    refine ⟨[], used, lru, ?_⟩
    have same : session.step .alloc = session := by
      simp only [Session.step, pageAlloc_nil sound.freeRing]
    rw [same]
    exact sound
  | cons i rest =>
    have result : session.step .alloc =
        { frames := session.frames.allocated i, owned := .elem i :: session.owned } := by
      simp only [Session.step, pageAlloc_cons sound.freeRing]
    rw [result]
    exact ⟨rest, i :: used, lru ++ [i], sound.toTidy.alloc, ownedUsed_cons sound.ownedUsed,
      ownedDistinct_cons sound.ownedUsed sound.ownedDistinct (sound.apart List.mem_cons_self)⟩

private theorem Sound.giveBack {page : PagePtr} (sound : Sound session free used lru)
    (owned : page ∈ session.owned) :
    ∃ free' used' lru', Sound (session.step (.free page)) free' used' lru' := by
  obtain ⟨i, inUsed, rfl⟩ := sound.ownedUsed page owned
  exact ⟨_, _, _, sound.toTidy.release inUsed, ownedUsed_erase sound.ownedUsed sound.ownedDistinct,
    sound.ownedDistinct.erase _⟩

theorem reaches_sound (reached : Reaches KeepsNodes session) :
    ∃ free used lru, Sound session free used lru := by
  apply reached.invariant (fun session => ∃ free used lru, Sound session free used lru)
  · rintro _ ⟨memory, table, frames, static, rfl⟩
    exact ⟨[], [], [], sound_init memory table static⟩
  · rintro session call _ ⟨free, used, lru, sound⟩ ⟨allowed, met, rfl⟩
    cases call with
    | mark start stop flags => exact sound.mark met
    | alloc => exact sound.alloc
    | free page => exact sound.giveBack allowed

/-! ### Concrete runs -/

/-- A machine whose memory past the static data is zero. -/
def Frames.blank : Frames where
  heap := ⟨id, id⟩
  page := fun _ => ⟨0, 0, 0⟩
  numpages := 0
  parray := 0
  numFreePages := 0
  numUsedPages := 0

theorem blank_static : Frames.blank.Static :=
  ⟨⟨rfl, rfl⟩, ⟨rfl, rfl⟩, ⟨rfl, rfl⟩, rfl, rfl⟩

/-- `page_init` for a few pages of memory. -/
def smallSession : Session where
  frames := pageInit 0x4000 0x1000 Frames.blank
  owned := []

theorem smallSession_reaches (condition : Session → FrameCall → Prop) :
    Reaches condition smallSession :=
  Reachable.start _ ⟨0x4000, 0x1000, Frames.blank, blank_static, rfl⟩

/-- Every run whose calls keep the nodes intact keeps all three rings. -/
theorem listsWellFormed_of_reaches (session : Session)
    (reached : Reaches KeepsNodes session) : ListsWellFormed session.frames := by
  obtain ⟨free, used, lru, sound⟩ := reaches_sound reached
  exact ⟨free, used, lru, sound.toRings, sound.lruUsed⟩

private theorem smallSession_not_onUsed (i : Nat) : ¬OnUsed smallSession.frames i := by
  intro onUsed
  have inNil := (onUsed_iff (sound_init 0x4000 0x1000 blank_static).toRings i).mp onUsed
  cases inNil

/-- One page is put on the free list, handed out and given back. -/
theorem listsWellFormed_smallSession :
    ListsWellFormed (((smallSession.step (.mark 0 0xFFF pFree)).step .alloc).step
      (.free (.elem 0))).frames := by
  apply listsWellFormed_of_reaches
  refine (((smallSession_reaches KeepsNodes).step (.mark 0 0xFFF pFree) ?_ ?_).step .alloc
    trivial trivial).step (.free (.elem 0)) ?_ trivial
  · change (0xFFF : Word).toNat ≤ smallSession.frames.numpages.toNat * 4096
    decide
  · intro _
    refine ⟨by decide, ?_⟩
    intro i _
    rw [if_neg (by decide)]
    exact smallSession_not_onUsed i
  · change PagePtr.elem 0 ∈ ((smallSession.step (.mark 0 0xFFF pFree)).step .alloc).owned
    decide

/-- Marking a used page free leaves it on the lru list only. -/
theorem used_page_marked_free_breaks_lists :
    ¬∀ session, Reaches (fun _ _ => True) session → ListsWellFormed session.frames := by
  intro always
  have reached : Reaches (fun _ _ => True)
      ((smallSession.step (.mark 0 0xFFF pUsed)).step (.mark 0 0xFFF pFree)) := by
    refine ((smallSession_reaches _).step (.mark 0 0xFFF pUsed) ?_ trivial).step
      (.mark 0 0xFFF pFree) ?_ trivial
    · change (0xFFF : Word).toNat ≤ smallSession.frames.numpages.toNat * 4096
      decide
    · change (0xFFF : Word).toNat ≤
        (smallSession.step (.mark 0 0xFFF pUsed)).frames.numpages.toNat * 4096
      decide
  obtain ⟨free, used, lru, rings, members⟩ := always _ reached
  have noUsed : used = [] :=
    List.map_eq_nil_iff.mp (rings.usedRing.next_head_eq_iff.mp (by decide))
  have noLru : lru = [] := by
    apply List.eq_nil_iff_forall_not_mem.mpr
    intro i inLru
    rw [members i, noUsed] at inLru
    cases inLru
  have atHead := rings.lruRing.next_head_eq_iff.mpr (by rw [noLru]; rfl)
  exact absurd atHead (by decide)

-- A page that `page_free` released and `page_mark_range` marks used again: its
-- neighbours have moved on, and the first entry of the lru list loses its way back.
example :
    let session := (((((((smallSession.step (.mark 0 0x3FFF pFree)).step .alloc).step .alloc).step
      .alloc).step (.free (.elem 1))).step (.free (.elem 0))).step (.mark 0x1000 0x1FFF pUsed))
    session.frames.heap.next (.head .lru) = lruOf 3 ∧
      session.frames.heap.prev (lruOf 3) = lruOf 0 := by
  decide

end Osdev64
