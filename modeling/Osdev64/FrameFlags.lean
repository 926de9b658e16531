/-
The flags of a page and the list it is on.

`page_mark_range` writes the flags of the pages it moves.  `page_alloc` and
`page_free` move pages and leave their flags alone, and `mmu_map_page` adds
`P_VIRT` to the pages it takes.  Flags and lists therefore agree only as long as
no page is handed out.
-/

import Osdev64.FramePool
import Osdev64.FrameRuns
import Osdev64.MmuMap

namespace Osdev64

open PointerRing Word64 Runs Paging

/-- `flags & bits`. -/
def contains (flags : Word) (bits : BitVec 32) : Prop := flags &&& flagWord bits ≠ 0

def FreeFlags (flags : Word) : Prop := contains flags pFree ∧ ¬contains flags pUsed

def UsedFlags (flags : Word) : Prop := contains flags pUsed ∧ ¬contains flags pFree

/-- The flags of every page say which list it is on. -/
structure FlagsAgree (frames : Frames) : Prop where
  free : ∀ i, i < frames.numpages.toNat →
    (OnFree frames i ↔ FreeFlags (frames.page (.elem i)).flags)
  used : ∀ i, OnUsed frames i → UsedFlags (frames.page (.elem i)).flags
  immutable : ∀ i, contains (frames.page (.elem i)).flags pImmutable → ¬OnFree frames i

inductive FlagCall where
  | mark (start stop : Word) (flags : BitVec 32)
  | alloc
  | free (page : PagePtr)
  | map (frame : PagePtr) (address : Word) (flags : BitVec 32)

/-- The machine, and the pages `page_alloc` returned so far. -/
structure FlagSession where
  machine : Kernel
  obtained : List PagePtr

def FlagSession.frames (session : FlagSession) : Frames := session.machine.data.frames

/-- `none` is a page fault, which ends the run. -/
def FlagSession.step (session : FlagSession) : FlagCall → Option FlagSession
  | .mark start stop flags =>
    some { session with
      machine := session.machine.withFrames (pageMarkRange start stop flags session.frames).2 }
  | .alloc =>
    some
      { machine := session.machine.withFrames (pageAlloc session.frames).2
        obtained := (pageAlloc session.frames).1 :: session.obtained }
  | .free page =>
    some { session with machine := session.machine.withFrames (pageFree page session.frames) }
  | .map frame address flags =>
    ((mmuMapPage frame address flags).run session.machine).map fun result =>
      { session with machine := result.2 }

/-- Only pages that `page_alloc` or `page_request` returned are freed. -/
def FlagSession.Allows (session : FlagSession) : FlagCall → Prop
  | .free page => page ≠ .null ∧
      (page ∈ session.obtained ∨ ∃ address, page = pageRequest session.frames address)
  | _ => True

/-- The states of the runs from `page_init`, over any page tables, that start from memory as
`clean` says and all of whose calls meet `condition`. -/
def FlagsReach (clean : Word → Word → Frames → Prop) (condition : FlagSession → FlagCall → Prop) :
    FlagSession → Prop :=
  Reachable
    (fun session => session.obtained = [] ∧ ∃ (memory table : Word) (before : Frames),
      before.Static ∧ clean memory table before ∧ session.frames = pageInit memory table before)
    fun session call session' => session.Allows call ∧ condition session call ∧
      session.step call = some session'

theorem FlagsReach.step {clean : Word → Word → Frames → Prop}
    {condition : FlagSession → FlagCall → Prop} {session session' : FlagSession}
    (before : FlagsReach clean condition session) (call : FlagCall) (allowed : session.Allows call)
    (met : condition session call) (stepped : session.step call = some session') :
    FlagsReach clean condition session' :=
  Reachable.step session call session' before ⟨allowed, met, stepped⟩

/-! ### The calls that keep the agreement -/

/-- What memory held where `page_init` writes no flags does not look like a free page. -/
def NoFreeLeftover (memory table : Word) (before : Frames) : Prop :=
  ∀ i, i < (pageInitPlan memory table).numpages.toNat → (pageInitPlan memory table).Protects i ∨
    ¬FreeFlags (before.page (.elem i)).flags

/-- The tables `mmu_map_page` looks up, from the pointer for the given level on, are all there. -/
def Kernel.TablesThere (machine : Kernel) (address : Word) : Nat → Pointer → Prop
  | 0, _ => True
  | level + 1, pointer => ∀ place,
      machine.locate pointer (indexAt (level + 1) address) = some place →
        present (machine.tables place.1 place.2) = true ∧
          machine.TablesThere address level
            (window (roundDown (machine.tables place.1 place.2) pageSize))

/-- Marking stays inside the array and does not put immutable pages on the free list; a page is
freed only if it is free already; no page is taken off a free list that has one. -/
def KeepsFlags (session : FlagSession) : FlagCall → Prop
  | .mark start stop flags => Marks start stop flags →
      (markBounds start stop).2 ≤ session.frames.numpages.toNat ∧
        (marksUsed flags = false → flags &&& pImmutable = 0)
  | .alloc => ∀ i, ¬OnFree session.frames i
  | .free page => ∃ i, page = .elem i ∧ OnFree session.frames i
  | .map _ address _ => (∀ i, ¬OnFree session.frames i) ∨
      session.machine.TablesThere address 3
        (plainPointer (session.frames.page session.machine.data.pml4).data)

variable {frames frames' : Frames} {free used : List Nat} {i k : Nat} {flags : BitVec 32}
  {machine machine' : Kernel}

/-! ### Flags as bits -/

private theorem contains_iff {bits : BitVec 32} {bit : Nat} (flags : Word)
    (one : flagWord bits = BitVec.twoPow 64 bit) (low : bit < 64) :
    contains flags bits ↔ flags.getLsbD bit = true := by
  unfold contains
  rw [one]
  exact and_twoPow_ne_zero_iff flags bit low

private theorem contains_free (flags : Word) : contains flags pFree ↔ flags.getLsbD 12 = true :=
  contains_iff flags (by decide) (by decide)

private theorem contains_used (flags : Word) : contains flags pUsed ↔ flags.getLsbD 13 = true :=
  contains_iff flags (by decide) (by decide)

private theorem contains_immutable (flags : Word) :
    contains flags pImmutable ↔ flags.getLsbD 17 = true :=
  contains_iff flags (by decide) (by decide)

private theorem accepted_bits (accepted : acceptedFlags flags = true) :
    flags.getLsbD 12 = !flags.getLsbD 13 := by
  have split : flags &&& (pUsed ||| pFree) =
      (if flags.getLsbD 13 then pUsed else 0) ||| if flags.getLsbD 12 then pFree else 0 := by
    rw [BitVec.and_or_distrib_left]
    congr 1
    · exact BitVec.and_twoPow flags 13
    · exact BitVec.and_twoPow flags 12
  unfold acceptedFlags at accepted
  rw [split] at accepted
  cases used : flags.getLsbD 13 with
  | true =>
    cases free : flags.getLsbD 12 with
    | true => rw [used, free] at accepted; exact absurd accepted (by decide)
    | false => rfl
  | false =>
    cases free : flags.getLsbD 12 with
    | true => rfl
    | false => rw [used, free] at accepted; exact absurd accepted (by decide)

private theorem marksUsed_eq (flags : BitVec 32) : marksUsed flags = flags.getLsbD 13 := by
  apply Bool.eq_iff_iff.mpr
  unfold marksUsed
  rw [decide_eq_true_eq]
  exact and_twoPow_ne_zero_iff flags 13 (by decide)

private theorem written_flags (accepted : acceptedFlags flags = true) :
    (marksUsed flags = true → UsedFlags (flagWord flags)) ∧
      (marksUsed flags = false → FreeFlags (flagWord flags)) := by
  have bits := accepted_bits accepted
  unfold UsedFlags FreeFlags
  rw [contains_free, contains_used, flagWord_bit flags (by decide), flagWord_bit flags (by decide),
    marksUsed_eq, bits]
  cases flags.getLsbD 13 with
  | true => simp
  | false => simp

private theorem written_immutable (flags : BitVec 32) (mutable : flags &&& pImmutable = 0) :
    ¬contains (flagWord flags) pImmutable := by
  rw [contains_immutable, flagWord_bit flags (by decide)]
  intro isSet
  exact (and_twoPow_ne_zero_iff flags 17 (by decide)).mpr isSet mutable

/-! ### The invariant of a run -/

structure FlagsSound (frames : Frames) (free used : List Nat) : Prop
    extends Pool frames free used where
  lone : ∀ i, i < frames.numpages.toNat → i ∉ free → i ∉ used →
    frames.heap.SelfLinked (pagesOf i)
  freeFlags : ∀ i, i < frames.numpages.toNat →
    (i ∈ free ↔ FreeFlags (frames.page (.elem i)).flags)
  usedFlags : ∀ i ∈ used, UsedFlags (frames.page (.elem i)).flags
  mutableFree : ∀ i ∈ free, ¬contains (frames.page (.elem i)).flags pImmutable

private theorem FlagsSound.onFree_iff (sound : FlagsSound frames free used) (i : Nat) :
    OnFree frames i ↔ i ∈ free := by
  unfold OnFree
  rw [sound.freeRing.follows_iff, mem_map_pagesOf]

theorem FlagsSound.agree (sound : FlagsSound frames free used) : FlagsAgree frames where
  free := fun i inside => (sound.onFree_iff i).trans (sound.freeFlags i inside)
  used := by
    intro i onUsed
    unfold OnUsed at onUsed
    rw [sound.usedRing.follows_iff, mem_map_pagesOf] at onUsed
    exact sound.usedFlags i onUsed
  immutable := by
    intro i fixed onFree
    exact sound.mutableFree i ((sound.onFree_iff i).mp onFree) fixed

private theorem FlagsSound.congr (sound : FlagsSound frames free used)
    (heap : frames'.heap = frames.heap) (numpages : frames'.numpages = frames.numpages)
    (address : ∀ i, (frames'.page (.elem i)).address = (frames.page (.elem i)).address)
    (sameFlags : ∀ i, (frames'.page (.elem i)).flags = (frames.page (.elem i)).flags) :
    FlagsSound frames' free used := by
  obtain ⟨⟨rings, bounded, closed, place⟩, lone, freeFlags, usedFlags, mutableFree⟩ := sound
  refine ⟨⟨?_, ?_, ?_, ?_⟩, ?_, ?_, ?_, ?_⟩
  · rw [heap]
    exact rings
  · rw [numpages]
    exact bounded
  · rw [heap, numpages]
    exact closed
  · intro i
    rw [numpages, address i]
    exact place i
  · rw [heap, numpages]
    exact lone
  · intro i
    rw [numpages, sameFlags i]
    exact freeFlags i
  · intro i
    rw [sameFlags i]
    exact usedFlags i
  · intro i
    rw [sameFlags i]
    exact mutableFree i

private theorem FlagsSound.placed (sound : FlagsSound frames free used)
    (inside : k < frames.numpages.toNat) : PagesPlaced frames.heap free used k :=
  pagesPlaced_of_lone (sound.lone k inside)

private theorem FlagsSound.markPage_freeFlags {j : Nat} (sound : FlagsSound frames free used)
    (isOpen : frames.isOpen k = true) (accepted : acceptedFlags flags = true)
    (below : j < frames.numpages.toNat) :
    j ∈ freeAfter flags free [k] ↔
      FreeFlags ((Osdev64.markPage flags frames k).page (.elem j)).flags := by
  obtain ⟨isUsed, isFree⟩ := written_flags accepted
  rw [mem_freeAfter, List.mem_singleton, markPage_flags flags isOpen]
  by_cases same : j = k
  · rw [if_pos same]
    cases kind : marksUsed flags with
    | true =>
      refine iff_of_false ?_ fun flagsFree => (isUsed kind).2 flagsFree.1
      rintro (⟨_, different⟩ | ⟨impossible, _⟩)
      · exact different same
      · cases impossible
    | false => exact iff_of_true (Or.inr ⟨rfl, same⟩) (isFree kind)
  · rw [if_neg same, ← sound.freeFlags j below]
    constructor
    · rintro (⟨inFree, _⟩ | ⟨_, here⟩)
      · exact inFree
      · exact absurd here same
    · exact fun inFree => Or.inl ⟨inFree, same⟩

/-- One turn of the loop of `page_mark_range` writes the flags that belong to the list. -/
private theorem FlagsSound.markPage (sound : FlagsSound frames free used)
    (inside : k < frames.numpages.toNat) (accepted : acceptedFlags flags = true)
    (mutable : marksUsed flags = false → flags &&& pImmutable = 0) :
    (markPage flags frames k).numpages = frames.numpages ∧
      ∃ free' used', FlagsSound (markPage flags frames k) free' used' := by
  cases isOpen : frames.isOpen k with
  | false =>
    rw [markPage_of_not_open isOpen]
    exact ⟨rfl, free, used, sound⟩
  | true =>
    obtain ⟨pool, others⟩ := sound.toPool.mark flags inside (sound.placed inside) isOpen
    have numpages := markPage_numpages flags frames k
    obtain ⟨isUsed, _⟩ := written_flags accepted
    have here : ((Osdev64.markPage flags frames k).page (.elem k)).flags = flagWord flags := by
      rw [markPage_flags flags isOpen, if_pos rfl]
    have elsewhere : ∀ j, j ≠ k →
        ((Osdev64.markPage flags frames k).page (.elem j)).flags = (frames.page (.elem j)).flags := by
      intro j different
      rw [markPage_flags flags isOpen, if_neg different]
    refine ⟨numpages, _, _, pool, ?_, ?_, ?_, ?_⟩
    · intro j below notFree notUsed
      rw [mem_freeAfter, List.mem_singleton] at notFree
      rw [mem_usedAfter, List.mem_singleton] at notUsed
      rw [numpages] at below
      have different : j ≠ k := by
        rintro rfl
        cases kind : marksUsed flags with
        | true => exact notUsed (Or.inr ⟨kind, rfl⟩)
        | false => exact notFree (Or.inr ⟨kind, rfl⟩)
      have notFree' : j ∉ free := fun inFree => notFree (Or.inl ⟨inFree, different⟩)
      have notUsed' : j ∉ used := fun inUsed => notUsed (Or.inl ⟨inUsed, different⟩)
      exact (others j different notFree' notUsed').selfLinked (sound.lone j below notFree' notUsed')
    · intro j below
      rw [numpages] at below
      exact sound.markPage_freeFlags isOpen accepted below
    · intro j member
      rw [mem_usedAfter, List.mem_singleton] at member
      rcases member with ⟨inUsed, different⟩ | ⟨kind, rfl⟩
      · rw [elsewhere j different]
        exact sound.usedFlags j inUsed
      · rw [here]
        exact isUsed kind
    · intro j member
      rw [mem_freeAfter, List.mem_singleton] at member
      rcases member with ⟨inFree, different⟩ | ⟨kind, rfl⟩
      · rw [elsewhere j different]
        exact sound.mutableFree j inFree
      · rw [here]
        exact written_immutable flags (mutable kind)

private theorem FlagsSound.markPages (indices : List Nat) (sound : FlagsSound frames free used)
    (inside : ∀ k ∈ indices, k < frames.numpages.toNat) (accepted : acceptedFlags flags = true)
    (mutable : marksUsed flags = false → flags &&& pImmutable = 0) :
    ∃ free' used', FlagsSound (indices.foldl (Osdev64.markPage flags) frames) free' used' := by
  induction indices generalizing frames free used with
  | nil => exact ⟨free, used, sound⟩
  | cons k rest ih =>
    obtain ⟨numpages, free', used', turn⟩ :=
      sound.markPage (inside k List.mem_cons_self) accepted mutable
    apply ih turn
    intro j member
    rw [numpages]
    exact inside j (List.mem_cons_of_mem k member)

private theorem FlagsSound.freeAgain (sound : FlagsSound frames free used) (member : i ∈ free) :
    FlagsSound (pageFree (.elem i) frames) (free.erase i ++ [i]) used := by
  have below : i < frames.numpages.toNat := sound.bounded i (Or.inl member)
  have notUsed : i ∉ used := sound.apart member
  obtain ⟨rings, lruKept, others⟩ := sound.toPageRings.markFree (Or.inl member)
  rw [List.erase_of_not_mem notUsed] at rings
  have closed := sound.closed.congr lruKept
  obtain ⟨before, after⟩ := closed.around below
  have pagesKept : ∀ node, node.isLru = false →
      Agrees (listMoveTail frames.heap (.head .free) (pagesOf i))
        (pageFree (.elem i) frames).heap node := fun _ isPages => lruDel_agrees before after isPages
  have sameMembers : ∀ j, j ∈ free.erase i ++ [i] ↔ j ∈ free := by
    intro j
    rw [List.mem_append, List.mem_singleton, sound.free_nodup.mem_erase_iff]
    constructor
    · rintro (⟨_, inFree⟩ | rfl)
      · exact inFree
      · exact member
    · intro inFree
      by_cases same : j = i
      · exact Or.inr same
      · exact Or.inl ⟨same, inFree⟩
  refine ⟨⟨rings.congr pagesKept, ?_, closed.del below, sound.address⟩, ?_, ?_, sound.usedFlags, ?_⟩
  · intro j listed
    rw [sameMembers j] at listed
    exact sound.bounded j listed
  · intro j inside notFree notUsed'
    rw [sameMembers j] at notFree
    have different : j ≠ i := fun same => notFree (same ▸ member)
    exact ((others j different notFree notUsed').trans (pagesKept _ rfl)).selfLinked
      (sound.lone j inside notFree notUsed')
  · intro j inside
    rw [sameMembers j]
    exact sound.freeFlags j inside
  · intro j inFree
    exact sound.mutableFree j ((sameMembers j).mp inFree)

theorem FlagsSound.alloc_disagrees (sound : FlagsSound frames (i :: free) used) :
    ¬FlagsAgree (pageAlloc frames).2 := by
  obtain ⟨taken, pool⟩ := sound.toPool.alloc
  rw [taken]
  intro agree
  have onUsed : OnUsed (frames.allocated i) i := by
    unfold OnUsed
    rw [pool.usedRing.follows_iff, mem_map_pagesOf]
    exact List.mem_cons_self
  have isFree := (sound.freeFlags i (sound.bounded i (Or.inl List.mem_cons_self))).mp List.mem_cons_self
  exact isFree.2 (agree.used i onUsed).1

/-! ### `mmu_map_page` -/

private theorem FlagsSound.storedData {kernel : KernelData} (frame : PagePtr) (data : Word)
    (sound : FlagsSound kernel.frames free used) :
    FlagsSound (storedData frame data kernel).frames free used := by
  unfold Osdev64.storedData
  split
  · exact sound
  refine sound.congr rfl rfl ?_ ?_
  · intro i
    unfold Osdev64.setData Frames.setPage
    by_cases here : PagePtr.elem i = frame
    · simp [here]
    · simp [Function.update_of_ne here]
  · intro i
    unfold Osdev64.setData Frames.setPage
    by_cases here : PagePtr.elem i = frame
    · simp [here]
    · simp [Function.update_of_ne here]

/-- Looking up a table keeps the lists when the free list is empty or the table is there. -/
private theorem FlagsSound.nextTable {table pointer : Pointer} {address : Word} {level : Nat}
    (sound : FlagsSound machine.data.frames free used)
    (quiet : free = [] ∨ machine.TablesThere address (level + 1) table)
    (ran : (nextTable table (indexAt (level + 1) address)).run machine = some (pointer, machine')) :
    FlagsSound machine'.data.frames free used ∧
      (free = [] ∨ machine'.TablesThere address level pointer) := by
  obtain ⟨place, located, ⟨_, rfl, rfl⟩ | ⟨absent, data⟩⟩ := nextTable_cases ran
  · exact ⟨sound, quiet.imp_right fun there => (there place located).2⟩
  · rcases quiet with rfl | there
    · rw [data, pageAlloc_nil sound.freeRing, if_pos rfl]
      exact ⟨sound, Or.inl rfl⟩
    · rw [(there place located).1] at absent
      cases absent

private theorem FlagsSound.mapPage {frame : PagePtr} {address : Word} {result : Unit}
    (sound : FlagsSound machine.data.frames free used)
    (quiet : free = [] ∨ machine.TablesThere address 3
      (plainPointer (machine.data.frames.page machine.data.pml4).data))
    (ran : (mmuMapPage frame address flags).run machine = some (result, machine')) :
    FlagsSound machine'.data.frames free used := by
  obtain ⟨pdpt, first, pd, second, ranFirst, ranSecond, outcome⟩ := mmuMapPage_cases ran
  obtain ⟨sound, quiet⟩ := sound.nextTable quiet ranFirst
  obtain ⟨sound, quiet⟩ := sound.nextTable quiet ranSecond
  rcases outcome with data | ⟨pt, third, ranThird, data⟩
  · rw [data]
    exact sound.storedData frame 0
  · obtain ⟨sound, _⟩ := sound.nextTable quiet ranThird
    rw [data]
    exact sound.storedData frame address

/-! ### Whole runs -/

private theorem flagsSound_init {memory table : Word} {before : Frames} (static : before.Static)
    (clean : NoFreeLeftover memory table before) :
    FlagsSound (pageInit memory table before) [] [] := by
  have fresh := pageInit_fresh memory table static
  refine ⟨fresh.pool, fresh.lists.lone, ?_, by simp, by simp⟩
  intro i below
  rw [pageInit_flags]
  rw [fresh.numpages] at below
  refine iff_of_false List.not_mem_nil ?_
  cases own : (pageInitPlan memory table).ownFlags i with
  | none =>
    have unprotected := (InitPlan.ownFlags_eq_none_iff _ i).mp own
    exact (clean i below).resolve_left unprotected
  | some flags =>
    -- neither of the two flag words `page_init` writes has one of the list flags
    unfold InitPlan.ownFlags at own
    split at own
    · cases own
      rw [Option.getD_some]
      unfold FreeFlags contains
      decide
    · split at own
      · cases own
        rw [Option.getD_some]
        unfold FreeFlags contains
        decide
      · cases own

private theorem flagsReach_sound {session : FlagSession}
    (reached : FlagsReach NoFreeLeftover KeepsFlags session) :
    ∃ free used, FlagsSound session.frames free used := by
  apply reached.invariant fun session => ∃ free used, FlagsSound session.frames free used
  · rintro session ⟨_, memory, table, before, static, clean, same⟩
    rw [same]
    exact ⟨[], [], flagsSound_init static clean⟩
  · rintro session call session' ⟨free, used, sound⟩ ⟨_, keeps, stepped⟩
    cases call with
    | mark start stop flags =>
      cases stepped
      by_cases marks : Marks start stop flags
      · obtain ⟨inside, mutable⟩ := keeps marks
        change ∃ free used, FlagsSound (pageMarkRange start stop flags session.frames).2 free used
        rw [pageMarkRange_of_marks marks]
        apply sound.markPages _ _ marks.2 mutable
        intro k member
        rw [List.mem_range'_1] at member
        omega
      · change ∃ free used, FlagsSound (pageMarkRange start stop flags session.frames).2 free used
        rw [pageMarkRange_of_not_marks marks]
        exact ⟨free, used, sound⟩
    | alloc =>
      cases stepped
      have none : free = [] := by
        apply List.eq_nil_iff_forall_not_mem.mpr
        intro i member
        exact keeps i ((sound.onFree_iff i).mpr member)
      subst none
      change ∃ free used, FlagsSound (pageAlloc session.frames).2 free used
      rw [pageAlloc_nil sound.freeRing]
      exact ⟨[], used, sound⟩
    | free page =>
      cases stepped
      obtain ⟨i, rfl, onFree⟩ := keeps
      exact ⟨_, used, sound.freeAgain ((sound.onFree_iff i).mp onFree)⟩
    | map frame address flags =>
      obtain ⟨⟨result, machine'⟩, ran, same⟩ := Option.map_eq_some_iff.mp stepped
      cases same
      refine ⟨free, used, sound.mapPage ?_ ran⟩
      refine keeps.imp_left fun none => ?_
      apply List.eq_nil_iff_forall_not_mem.mpr
      intro i member
      exact none i ((sound.onFree_iff i).mpr member)

/-- A run with the memory of `smallSession`, over empty page tables. -/
def smallFlagSession : FlagSession where
  machine := { tables := fun _ _ => 0, cr3 := 0, data := { frames := smallSession.frames, pml4 := .null } }
  obtained := []

private theorem smallFlagSession_reached (clean : Word → Word → Frames → Prop)
    (condition : FlagSession → FlagCall → Prop) (isClean : clean 0x4000 0x1000 Frames.blank) :
    FlagsReach clean condition smallFlagSession :=
  Reachable.start _ ⟨rfl, 0x4000, 0x1000, Frames.blank, blank_static, isClean, rfl⟩

end Osdev64
