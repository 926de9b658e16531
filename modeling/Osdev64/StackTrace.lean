/-
`stack_trace`: the walk along the chain of saved frame pointers.

The walk leaves at the first return address outside the kernel.  It keeps no count
and compares no frame with the one before, so a frame that comes back is walked
forever, and a frame pointer that is not mapped is a page fault inside the handler
of a page fault.
-/

import Osdev64.BootRounds
import Osdev64.Lib.Orbit
import Mathlib.Data.BitVec

namespace Osdev64

open Word64 Bytes Orbit

/-! ### The function -/

/-- The symbols `_kernel_start` and `_kernel_end`. -/
structure KernelRange where
  start : Word
  last : Word

def KernelRange.inside (kernel : KernelRange) (rip : Word) : Bool := kernel.start ≤ rip ∧ rip ≤ kernel.last

/-- A line "%2d: RIP %#x". -/
structure TraceLine where
  depth : Word
  rip : Word
deriving DecidableEq

/-- What a call of `printf` with these arguments does to memory. -/
abbrev PrintLine := TraceLine → Memory → Option Memory

/-- The loop at `.l1`, with the lines it prints; `none` is a page fault, or no fuel left. -/
def stackTraceLoop (translation : Translation) (kernel : KernelRange) (printf : PrintLine) (rsp : Word) :
    Nat → Word → Word → Memory → Option (List TraceLine × Memory)
  | 0, _, _, _ => none
  | fuel + 1, rax, rcx, memory => do
    let rcx := rcx + 1
    let memory ← store translation memory 8 rsp rax.toNat
    let memory ← store translation memory 8 (rsp + 8) rcx.toNat
    let rdx ← load64 translation memory (rax + 8)
    if kernel.inside rdx then do
      let memory ← printf ⟨rcx, rdx⟩ memory
      let depth ← load64 translation memory (rsp + 8)
      let rax ← load64 translation memory rsp
      let rax ← load64 translation memory rax
      let (lines, memory) ← stackTraceLoop translation kernel printf rsp fuel rax depth memory
      some (⟨rcx, rdx⟩ :: lines, memory)
    else some ([], memory)

/-- `stack_trace(rdi)`, with the lines it prints and the registers it returns with. -/
structure Traced where
  lines : List TraceLine
  rbp : Word
  rip : Word

def stackTrace (translation : Translation) (kernel : KernelRange) (printf : PrintLine) (fuel : Nat)
    (rdi rsp rbp : Word) (memory : Memory) : Option Traced := do
  let memory ← push translation memory rsp rbp
  let frame := rsp - 8
  let rax := if rdi = 0 then frame else rdi
  let (lines, memory) ← stackTraceLoop translation kernel printf (frame - 16) fuel rax (-1) memory
  let rbp ← pop translation memory frame
  let rip ← pop translation memory (frame + 8)
  some ⟨lines, rbp, rip⟩

variable {translation : Translation} {kernel : KernelRange} {printf : PrintLine} {memory now : Memory}
  {first frame rsp rcx : Word} {slot fuel : Nat} {stable : Nat → Prop}

/-! ### The chain of frames -/

/-- The frame pointer that a frame saved. -/
def savedFrame (translation : Translation) (memory : Memory) (frame : Word) : Word :=
  (load64 translation memory frame).getD 0

/-- The walk prints a line at this frame and has a next one. -/
def GoesOn (translation : Translation) (kernel : KernelRange) (memory : Memory) (frame : Word) : Prop :=
  ∃ rip saved, load64 translation memory (frame + 8) = some rip ∧ kernel.inside rip = true ∧
    load64 translation memory frame = some saved

/-- The walk is over at this frame. -/
def Leaves (translation : Translation) (kernel : KernelRange) (memory : Memory) (frame : Word) : Prop :=
  ∃ rip, load64 translation memory (frame + 8) = some rip ∧ kernel.inside rip = false

/-- The return address, or the frame pointer that is wanted next, is not mapped. -/
def Faults (translation : Translation) (kernel : KernelRange) (memory : Memory) (frame : Word) : Prop :=
  load64 translation memory (frame + 8) = none ∨
    ∃ rip, load64 translation memory (frame + 8) = some rip ∧ kernel.inside rip = true ∧
      load64 translation memory frame = none

/-- Frame number `k` of the walk. -/
def frameAt (translation : Translation) (memory : Memory) (first : Word) (k : Nat) : Word :=
  (savedFrame translation memory)^[k] first

/-- The walk comes to frame number `k`. -/
def Walks (translation : Translation) (kernel : KernelRange) (memory : Memory) (first : Word) (k : Nat) :
    Prop :=
  Visits (savedFrame translation memory) (GoesOn translation kernel memory) first k

theorem frame_cases (translation : Translation) (kernel : KernelRange) (memory : Memory) (frame : Word) :
    GoesOn translation kernel memory frame ∨ Leaves translation kernel memory frame ∨
      Faults translation kernel memory frame := by
  cases rip : load64 translation memory (frame + 8) with
  | none => exact Or.inr (Or.inr (Or.inl rip))
  | some address =>
    cases inside : kernel.inside address with
    | false => exact Or.inr (Or.inl ⟨address, rip, inside⟩)
    | true =>
      cases saved : load64 translation memory frame with
      | none => exact Or.inr (Or.inr (Or.inr ⟨address, rip, inside, saved⟩))
      | some next => exact Or.inl ⟨address, next, rip, inside, saved⟩

theorem Leaves.not_goesOn (leaves : Leaves translation kernel memory frame) :
    ¬GoesOn translation kernel memory frame := by
  obtain ⟨rip, loaded, outside⟩ := leaves
  rintro ⟨rip', _, loaded', inside, _⟩
  rw [loaded, Option.some.injEq] at loaded'
  rw [loaded', inside] at outside
  cases outside

theorem Faults.not_goesOn (faults : Faults translation kernel memory frame) :
    ¬GoesOn translation kernel memory frame := by
  rintro ⟨rip, saved, loaded, _, next⟩
  rcases faults with missing | ⟨_, _, _, missing⟩
  · rw [loaded] at missing
    cases missing
  · rw [next] at missing
    cases missing

theorem Faults.not_leaves (faults : Faults translation kernel memory frame) :
    ¬Leaves translation kernel memory frame := by
  rintro ⟨rip, loaded, outside⟩
  rcases faults with missing | ⟨rip', loaded', inside, _⟩
  · rw [loaded] at missing
    cases missing
  · rw [loaded, Option.some.injEq] at loaded'
    rw [loaded', inside] at outside
    cases outside

/-- No frame of the walk is a page fault, and no frame comes twice. -/
structure ProperChain (translation : Translation) (kernel : KernelRange) (memory : Memory) (first : Word) :
    Prop where
  mapped : ∀ k, Walks translation kernel memory first k →
    ¬Faults translation kernel memory (frameAt translation memory first k)
  different : ∀ i j, i < j → Walks translation kernel memory first j →
    frameAt translation memory first i ≠ frameAt translation memory first j

theorem leaves_iff : (∃ k, Walks translation kernel memory first k ∧
      Leaves translation kernel memory (frameAt translation memory first k)) ↔
    ProperChain translation kernel memory first := by
  have finite : Finite Word := finite_bitVec 64
  have repeats : Orbit.Ends (savedFrame translation memory) (GoesOn translation kernel memory) first ↔ _ := ends_iff
  constructor
  · rintro ⟨k, walks, leaves⟩
    refine ⟨?_, repeats.mp ⟨k, leaves.not_goesOn⟩⟩
    intro other comes faults
    rcases Nat.lt_trichotomy other k with before | rfl | behind
    · exact faults.not_goesOn (walks other before)
    · exact faults.not_leaves leaves
    · exact leaves.not_goesOn (comes k behind)
  · rintro ⟨readable, different⟩
    have ends := repeats.mpr different
    classical
    have walks : Walks translation kernel memory first (Nat.find ends) := fun j below =>
      not_not.mp (Nat.find_min ends below)
    refine ⟨Nat.find ends, walks, ?_⟩
    rcases frame_cases translation kernel memory (frameAt translation memory first (Nat.find ends)) with
      goes | leaves | faults
    · exact absurd goes (Nat.find_spec ends)
    · exact leaves
    · exact absurd faults (readable _ walks)

/-! ### The stores of the walk itself -/

/-- Room for the walk at `rsp`: its two slots are mapped, `printf` returns, and neither touches the
places that are called stable. -/
structure TraceRoom (translation : Translation) (printf : PrintLine) (rsp : Word) (slot : Nat)
    (stable : Nat → Prop) : Prop where
  slots : Maps translation rsp slot 16
  apart : ∀ place, stable place → place < slot ∨ slot + 16 ≤ place
  prints : ∀ line now, ∃ after, printf line now = some after ∧
    ∀ place, stable place ∨ (slot ≤ place ∧ place < slot + 16) → after place = now place

/-- The two words of a frame are at stable places, as far as they are mapped. -/
def StableFrame (translation : Translation) (stable : Nat → Prop) (frame : Word) : Prop :=
  ∀ x < 16, ∀ place, translation (frame + BitVec.ofNat 64 x) = some place → stable place

def SameStable (stable : Nat → Prop) (now memory : Memory) : Prop :=
  ∀ place, stable place → now place = memory place

/-- Memory with the frame and the depth in the two slots. -/
def spilled (now : Memory) (slot : Nat) (frame rcx : Word) : Memory :=
  put (put now 8 slot frame.toNat) 8 (slot + 8) rcx.toNat

theorem spilled_same (room : TraceRoom translation printf rsp slot stable)
    (same : SameStable stable now memory) : SameStable stable (spilled now slot frame rcx) memory := by
  intro place here
  have apart := room.apart place here
  unfold spilled
  rw [put_of_outside (by omega), put_of_outside (by omega)]
  exact same place here

theorem load64_frame {offset : Nat} (stays : StableFrame translation stable frame)
    (same : SameStable stable now memory) (inside : offset ≤ 8) :
    load64 translation now (frame + BitVec.ofNat 64 offset) =
      load64 translation memory (frame + BitVec.ofNat 64 offset) := by
  unfold load64
  rw [load_congr]
  intro x below place behind
  rw [BitVec.add_assoc, ← BitVec.ofNat_add] at behind
  exact same place (stays (offset + x) (by omega) place behind)

theorem load64_saved (stays : StableFrame translation stable frame) (same : SameStable stable now memory) :
    load64 translation now frame = load64 translation memory frame := by
  have first := load64_frame stays same (Nat.zero_le 8)
  rwa [BitVec.add_zero] at first

theorem load64_rip (stays : StableFrame translation stable frame) (same : SameStable stable now memory) :
    load64 translation now (frame + 8) = load64 translation memory (frame + 8) :=
  load64_frame stays same (Nat.le_refl 8)

theorem stackTraceLoop_spill (room : TraceRoom translation printf rsp slot stable)
    (stays : StableFrame translation stable frame) (same : SameStable stable now memory) :
    stackTraceLoop translation kernel printf rsp (fuel + 1) frame rcx now =
      (load64 translation memory (frame + 8)).bind fun rip =>
        if kernel.inside rip then do
          let after ← printf ⟨rcx + 1, rip⟩ (spilled now slot frame (rcx + 1))
          let depth ← load64 translation after (rsp + 8)
          let rax ← load64 translation after rsp
          let rax ← load64 translation after rax
          let (lines, after) ← stackTraceLoop translation kernel printf rsp fuel rax depth after
          some (⟨rcx + 1, rip⟩ :: lines, after)
        else some ([], spilled now slot frame (rcx + 1)) := by
  have lower : Maps translation rsp slot 8 := room.slots.mono (by decide)
  have upper : Maps translation (rsp + 8) (slot + 8) 8 := room.slots.shift (by decide : 8 ≤ 16)
  have kept : SameStable stable (spilled now slot frame (rcx + 1)) memory := spilled_same room same
  have rip := load64_rip stays kept
  unfold spilled at rip
  simp only [stackTraceLoop, store_of_maps lower, store_of_maps upper, Option.bind_eq_bind,
    Option.bind_some, rip]
  rfl

theorem load64_of_value {address number : Word} {place : Nat} (maps : Maps translation address place 8)
    (holds : value memory 8 place = number.toNat) : load64 translation memory address = some number := by
  unfold load64
  rw [load_of_maps maps, holds, Option.map_some, BitVec.ofNat_toNat, BitVec.setWidth_eq]

theorem load64_slots {after : Memory} (room : TraceRoom translation printf rsp slot stable)
    (kept : ∀ place, slot ≤ place ∧ place < slot + 16 → after place = spilled now slot frame rcx place) :
    load64 translation after rsp = some frame ∧ load64 translation after (rsp + 8) = some rcx := by
  have lower : Maps translation rsp slot 8 := room.slots.mono (by decide)
  have upper : Maps translation (rsp + 8) (slot + 8) 8 := room.slots.shift (by decide : 8 ≤ 16)
  constructor
  · apply load64_of_value lower
    have first : value after 8 slot = value (put now 8 slot frame.toNat) 8 slot := by
      apply value_congr
      intro x below
      rw [kept _ (by omega)]
      unfold spilled
      rw [put_of_outside (by omega)]
    rw [first, value_put]
    exact Nat.mod_eq_of_lt frame.isLt
  · apply load64_of_value upper
    have second : value after 8 (slot + 8) = value (spilled now slot frame rcx) 8 (slot + 8) := by
      apply value_congr
      intro x below
      exact kept _ (by omega)
    unfold spilled at second
    rw [second, value_put]
    exact Nat.mod_eq_of_lt rcx.isLt

/-! ### Rounds -/

theorem stackTraceLoop_leaves (room : TraceRoom translation printf rsp slot stable)
    (stays : StableFrame translation stable frame) (same : SameStable stable now memory)
    (leaves : Leaves translation kernel memory frame) :
    ∃ after, stackTraceLoop translation kernel printf rsp (fuel + 1) frame rcx now = some ([], after) ∧
      SameStable stable after memory := by
  obtain ⟨rip, loaded, outside⟩ := leaves
  refine ⟨spilled now slot frame (rcx + 1), ?_, spilled_same room same⟩
  rw [stackTraceLoop_spill room stays same, loaded, Option.bind_some, outside]
  rfl

theorem stackTraceLoop_inside {rip : Word} (room : TraceRoom translation printf rsp slot stable)
    (stays : StableFrame translation stable frame) (same : SameStable stable now memory)
    (loaded : load64 translation memory (frame + 8) = some rip) (inside : kernel.inside rip = true) :
    ∃ after, SameStable stable after memory ∧
      stackTraceLoop translation kernel printf rsp (fuel + 1) frame rcx now =
        (load64 translation memory frame).bind fun saved =>
          (stackTraceLoop translation kernel printf rsp fuel saved (rcx + 1) after).map fun rest =>
            (⟨rcx + 1, rip⟩ :: rest.1, rest.2) := by
  obtain ⟨after, printed, kept⟩ := room.prints ⟨rcx + 1, rip⟩ (spilled now slot frame (rcx + 1))
  have agrees : SameStable stable after memory := fun place here =>
    (kept place (Or.inl here)).trans (spilled_same room same place here)
  obtain ⟨spilledFrame, spilledDepth⟩ := load64_slots room fun place here => kept place (Or.inr here)
  refine ⟨after, agrees, ?_⟩
  rw [stackTraceLoop_spill room stays same, loaded, Option.bind_some, if_pos inside, printed]
  simp only [Option.bind_eq_bind, Option.bind_some, spilledFrame, spilledDepth, load64_saved stays agrees]
  cases load64 translation memory frame with
  | none => rfl
  | some saved =>
    rw [Option.bind_some, Option.bind_some]
    cases stackTraceLoop translation kernel printf rsp fuel saved (rcx + 1) after with
    | none => rfl
    | some rest => rfl

theorem stackTraceLoop_faults (room : TraceRoom translation printf rsp slot stable)
    (stays : StableFrame translation stable frame) (same : SameStable stable now memory)
    (faults : Faults translation kernel memory frame) :
    stackTraceLoop translation kernel printf rsp (fuel + 1) frame rcx now = none := by
  rcases faults with missing | ⟨rip, loaded, inside, missing⟩
  · rw [stackTraceLoop_spill room stays same, missing]
    rfl
  · obtain ⟨after, _, round⟩ := stackTraceLoop_inside room stays same loaded inside
    rw [round, missing]
    rfl

theorem stackTraceLoop_goesOn (fuel : Nat) (rcx : Word)
    (room : TraceRoom translation printf rsp slot stable)
    (stays : StableFrame translation stable frame) (same : SameStable stable now memory)
    (goes : GoesOn translation kernel memory frame) :
    ∃ rip after, load64 translation memory (frame + 8) = some rip ∧ SameStable stable after memory ∧
      stackTraceLoop translation kernel printf rsp (fuel + 1) frame rcx now =
        (stackTraceLoop translation kernel printf rsp fuel (savedFrame translation memory frame) (rcx + 1)
          after).map fun rest => (⟨rcx + 1, rip⟩ :: rest.1, rest.2) := by
  obtain ⟨rip, saved, loaded, inside, next⟩ := goes
  obtain ⟨after, agrees, round⟩ := stackTraceLoop_inside room stays same loaded inside
  refine ⟨rip, after, loaded, agrees, ?_⟩
  have here : savedFrame translation memory frame = saved := by
    unfold savedFrame
    rw [next, Option.getD_some]
  rw [round, next, Option.bind_some, here]

/-! ### Whole walks -/

/-- Every frame that the walk comes to is at stable places. -/
def StableWalk (translation : Translation) (kernel : KernelRange) (memory : Memory)
    (stable : Nat → Prop) (first : Word) : Prop :=
  ∀ k, Walks translation kernel memory first k →
    StableFrame translation stable (frameAt translation memory first k)

theorem StableWalk.head (stays : StableWalk translation kernel memory stable first) :
    StableFrame translation stable first :=
  stays 0 fun j below => absurd below (Nat.not_lt_zero j)

theorem StableWalk.tail (stays : StableWalk translation kernel memory stable first)
    (goes : GoesOn translation kernel memory first) :
    StableWalk translation kernel memory stable (savedFrame translation memory first) := by
  intro k walks
  exact stays (k + 1) (visits_succ_iff.mpr ⟨goes, walks⟩)

/-- The lines of the first `k` frames. -/
def traceLines (translation : Translation) (memory : Memory) : Nat → Word → Word → List TraceLine
  | 0, _, _ => []
  | k + 1, frame, depth =>
    ⟨depth, (load64 translation memory (frame + 8)).getD 0⟩ ::
      traceLines translation memory k (savedFrame translation memory frame) (depth + 1)

theorem stackTraceLoop_of_walk {k : Nat} (room : TraceRoom translation printf rsp slot stable)
    (stays : StableWalk translation kernel memory stable first) (same : SameStable stable now memory)
    (walks : Walks translation kernel memory first k)
    (leaves : Leaves translation kernel memory (frameAt translation memory first k)) :
    ∃ after, SameStable stable after memory ∧
      stackTraceLoop translation kernel printf rsp (k + 1) first rcx now =
        some (traceLines translation memory k first (rcx + 1), after) := by
  induction k generalizing first rcx now with
  | zero =>
    obtain ⟨after, ran, agrees⟩ := stackTraceLoop_leaves room stays.head same leaves
    exact ⟨after, agrees, ran⟩
  | succ k ih =>
    obtain ⟨goes, rest⟩ := visits_succ_iff.mp walks
    obtain ⟨rip, after, loaded, agrees, round⟩ :=
      stackTraceLoop_goesOn (k + 1) rcx room stays.head same goes
    obtain ⟨final, agreesToo, ran⟩ : ∃ final, SameStable stable final memory ∧
        stackTraceLoop translation kernel printf rsp (k + 1) (savedFrame translation memory first)
            (rcx + 1) after =
          some (traceLines translation memory k (savedFrame translation memory first) (rcx + 1 + 1),
            final) :=
      ih (stays.tail goes) agrees rest leaves
    refine ⟨final, agreesToo, ?_⟩
    rw [round, ran, Option.map_some, traceLines, loaded, Option.getD_some]

theorem walk_of_stackTraceLoop {result : List TraceLine × Memory}
    (room : TraceRoom translation printf rsp slot stable)
    (stays : StableWalk translation kernel memory stable first) (same : SameStable stable now memory)
    (ran : stackTraceLoop translation kernel printf rsp fuel first rcx now = some result) :
    ∃ k, Walks translation kernel memory first k ∧
      Leaves translation kernel memory (frameAt translation memory first k) := by
  induction fuel generalizing first rcx now result with
  | zero => cases ran
  | succ fuel ih =>
    rcases frame_cases translation kernel memory first with goes | leaves | faults
    · obtain ⟨rip, after, _, agrees, round⟩ := stackTraceLoop_goesOn fuel rcx room stays.head same goes
      rw [round] at ran
      obtain ⟨rest, returned, _⟩ := Option.map_eq_some_iff.mp ran
      obtain ⟨k, walks, ends⟩ := ih (stays.tail goes) agrees returned
      exact ⟨k + 1, visits_succ_iff.mpr ⟨goes, walks⟩, ends⟩
    · exact ⟨0, fun j below => absurd below (Nat.not_lt_zero j), leaves⟩
    · rw [stackTraceLoop_faults room stays.head same faults] at ran
      cases ran

/-! ### The whole function -/

/-- Room for a call with the stack pointer at `rsp`: also the saved `rbp` and the return address are
mapped, and stay. -/
structure CallRoom (translation : Translation) (printf : PrintLine) (rsp : Word) (slot : Nat)
    (stable : Nat → Prop) : Prop extends TraceRoom translation printf (rsp - 8 - 16) slot stable where
  frame : Maps translation (rsp - 8) (slot + 16) 16
  stays : ∀ x < 16, stable (slot + 16 + x)

/-- Memory when the walk starts. -/
def entered (memory : Memory) (slot : Nat) (rbp : Word) : Memory := put memory 8 (slot + 16) rbp.toNat

/-- The frame of the caller, or the own one. -/
def firstFrame (rdi rsp : Word) : Word := if rdi = 0 then rsp - 8 else rdi

theorem stackTrace_eq {rdi rbp : Word} (room : CallRoom translation printf rsp slot stable) :
    stackTrace translation kernel printf fuel rdi rsp rbp memory =
      (stackTraceLoop translation kernel printf (rsp - 8 - 16) fuel (firstFrame rdi rsp) (-1)
        (entered memory slot rbp)).bind fun result =>
          (load64 translation result.2 (rsp - 8)).bind fun rbp =>
            (load64 translation result.2 (rsp - 8 + 8)).bind fun rip => some ⟨result.1, rbp, rip⟩ := by
  have saved : Maps translation (rsp - 8) (slot + 16) 8 := room.frame.mono (by decide)
  unfold stackTrace push
  rw [store_of_maps saved]
  rfl

theorem stackTrace_of_walk {rdi rbp : Word} {k : Nat} (room : CallRoom translation printf rsp slot stable)
    (stays : StableWalk translation kernel (entered memory slot rbp) stable (firstFrame rdi rsp))
    (walks : Walks translation kernel (entered memory slot rbp) (firstFrame rdi rsp) k)
    (leaves : Leaves translation kernel (entered memory slot rbp)
      (frameAt translation (entered memory slot rbp) (firstFrame rdi rsp) k)) :
    stackTrace translation kernel printf (k + 1) rdi rsp rbp memory =
      some ⟨traceLines translation (entered memory slot rbp) k (firstFrame rdi rsp) 0, rbp,
        BitVec.ofNat 64 (value memory 8 (slot + 24))⟩ := by
  obtain ⟨after, agrees, ran⟩ : ∃ after, SameStable stable after (entered memory slot rbp) ∧
      stackTraceLoop translation kernel printf (rsp - 8 - 16) (k + 1) (firstFrame rdi rsp) (-1)
          (entered memory slot rbp) =
        some (traceLines translation (entered memory slot rbp) k (firstFrame rdi rsp) (-1 + 1), after) :=
    stackTraceLoop_of_walk room.toTraceRoom stays (fun _ _ => rfl) walks leaves
  have lower : Maps translation (rsp - 8) (slot + 16) 8 := room.frame.mono (by decide)
  have upper : Maps translation (rsp - 8 + 8) (slot + 16 + 8) 8 := room.frame.shift (by decide : 8 ≤ 16)
  have savedRbp : load64 translation after (rsp - 8) = some rbp := by
    apply load64_of_value lower
    have same : value after 8 (slot + 16) = value (entered memory slot rbp) 8 (slot + 16) := by
      apply value_congr
      intro x below
      exact agrees _ (room.stays x (by omega))
    unfold entered at same
    rw [same, value_put]
    exact Nat.mod_eq_of_lt rbp.isLt
  have savedRip : load64 translation after (rsp - 8 + 8) =
      some (BitVec.ofNat 64 (value memory 8 (slot + 24))) := by
    have same : value after 8 (slot + 16 + 8) = value memory 8 (slot + 16 + 8) := by
      apply value_congr
      intro x below
      have kept := agrees (slot + 16 + (8 + x)) (room.stays (8 + x) (by omega))
      unfold entered at kept
      rw [put_of_outside (by omega), ← Nat.add_assoc] at kept
      exact kept
    unfold load64
    rw [load_of_maps upper, same, Option.map_some]
  rw [stackTrace_eq room, ran, Option.bind_some, savedRbp, Option.bind_some, savedRip, Option.bind_some]
  rfl

theorem returns_iff_walk {rdi rbp : Word} (room : CallRoom translation printf rsp slot stable)
    (stays : StableWalk translation kernel (entered memory slot rbp) stable (firstFrame rdi rsp)) :
    (∃ fuel traced, stackTrace translation kernel printf fuel rdi rsp rbp memory = some traced) ↔
      ∃ k, Walks translation kernel (entered memory slot rbp) (firstFrame rdi rsp) k ∧
        Leaves translation kernel (entered memory slot rbp)
          (frameAt translation (entered memory slot rbp) (firstFrame rdi rsp) k) := by
  constructor
  · rintro ⟨fuel, traced, returned⟩
    rw [stackTrace_eq room] at returned
    obtain ⟨result, ran, _⟩ := Option.bind_eq_some_iff.mp returned
    exact walk_of_stackTraceLoop room.toTraceRoom stays (fun _ _ => rfl) ran
  · rintro ⟨k, walks, leaves⟩
    exact ⟨k + 1, _, stackTrace_of_walk room stays walks leaves⟩

/-- A kernel of 1 MB. -/
def smallKernel : KernelRange := ⟨0x100000, 0x200000⟩

/-- A frame at 0x1000 with a return address in the kernel, and this saved frame pointer. -/
def oneFrame (saved : Byte) : Memory := fun place =>
  if place = 0x1001 then saved else if place = 0x100A then 0x10 else 0

def offSlots (place : Nat) : Prop := place < 0x7FE8 ∨ 0x7FE8 + 16 ≤ place

/-- The stack of a call with the stack pointer at 0x8000, and a `printf` that writes elsewhere. -/
theorem offSlots_room : CallRoom flatTranslation (fun _ now => some now) 0x8000 0x7FE8 offSlots := by
  refine ⟨⟨?_, fun _ off => off, fun _ now => ⟨now, rfl, fun _ _ => rfl⟩⟩, ?_, ?_⟩
  · unfold Maps
    decide
  · unfold Maps
    decide
  · intro x below
    right
    omega

theorem stableFrame_low {address : Word} (low : address.toNat + 16 ≤ 0x7FE8) :
    StableFrame flatTranslation offSlots address := by
  intro x below place here
  have place_eq : (address + BitVec.ofNat 64 x).toNat = place := Option.some.inj here
  rw [BitVec.toNat_add, BitVec.toNat_ofNat] at place_eq
  left
  omega

end Osdev64
