/-
The rounds of the loop of `load_elf`.

A round copies a header and goes on 56 bytes further, or clears memory and falls
out of the loop.  The end is `e_phentsize * e_phnum` bytes on, in sixteen bits, and
the loop compares for equality.
-/

import Osdev64.BootElf
import Mathlib.Data.Nat.Find

namespace Osdev64

open Word64 Bytes

variable {translation : Translation} {rax rsp r8 r9 : Word} {memory : Memory}

/-- One round of the loop; `true` if it falls into `.done`. -/
def loadElfRound (translation : Translation) (rax rsp r8 : Word) (memory : Memory) :
    Option (Bool × Memory) := do
  let rcx ← load64 translation memory (rax + r8 + 32)
  let rdx ← load64 translation memory (rax + r8 + 8)
  if rcx = 0 then do
    let rcx ← load64 translation memory (rax + r8 + 40)
    let rdi ← load64 translation memory (rax + r8 + 16)
    let memory ← push translation memory rsp rax
    let memory ← repStosq translation 0 rcx.toNat rdi memory
    let _ ← pop translation memory (rsp - 8)
    pure (true, memory)
  else do
    let rdi ← load64 translation memory (rax + r8 + 24)
    let memory ← repMovsb translation rcx.toNat rdi (rax + rdx) memory
    pure (false, memory)

/-- The loop, with the number of its rounds. -/
def loadElfRounds (translation : Translation) (rax rsp r9 : Word) :
    Nat → Word → Memory → Option (Nat × Memory)
  | 0, _, _ => none
  | fuel + 1, r8, memory =>
    if r8 = r9 then some (0, memory)
    else do
      let round ← loadElfRound translation rax rsp r8 memory
      if round.1 then pure (1, round.2)
      else do
        let last ← loadElfRounds translation rax rsp r9 fuel (r8 + 56) round.2
        pure (last.1 + 1, last.2)

/-- The loop comes to `.done` after at most `e_phnum` rounds. -/
def EndsInTime (translation : Translation) (rax rsp phoff : Word) (phentsize phnum : BitVec 16)
    (memory : Memory) : Prop :=
  ∃ fuel last, loadElfRounds translation rax rsp ((phentsize * phnum).setWidth 64 + phoff) fuel phoff
    memory = some last ∧ last.1 ≤ phnum.toNat

/-- Memory after so many rounds, all of which go on. -/
def copyHeaders (translation : Translation) (rax rsp : Word) : Nat → Word → Memory → Option Memory
  | 0, _, memory => some memory
  | k + 1, r8, memory => do
    let round ← loadElfRound translation rax rsp r8 memory
    if round.1 then none else copyHeaders translation rax rsp k (r8 + 56) round.2

/-- The loop can end here: the offset is the end, or this header has no file bytes and a round is left. -/
def StopsAt (translation : Translation) (rax rsp r9 : Word) (left : Nat) (r8 : Word) (memory : Memory) :
    Prop :=
  r8 = r9 ∨ 0 < left ∧ ∃ cleared, loadElfRound translation rax rsp r8 memory = some (true, cleared)

theorem copyHeaders_succ {after : Memory} (k : Nat)
    (copies : loadElfRound translation rax rsp r8 memory = some (false, after)) :
    copyHeaders translation rax rsp (k + 1) r8 memory = copyHeaders translation rax rsp k (r8 + 56) after := by
  rw [copyHeaders, copies]
  rfl

theorem offset_succ (r8 : Word) (k : Nat) :
    r8 + BitVec.ofNat 64 (56 * (k + 1)) = r8 + 56 + BitVec.ofNat 64 (56 * k) := by
  rw [Nat.mul_succ, Nat.add_comm, BitVec.ofNat_add, ← BitVec.add_assoc]
  rfl

theorem offset_zero (r8 : Word) : r8 + BitVec.ofNat 64 (56 * 0) = r8 := BitVec.add_zero r8

theorem copyHeaders_snoc {k : Nat} {copied : Memory}
    (copies : copyHeaders translation rax rsp k r8 memory = some copied) :
    copyHeaders translation rax rsp (k + 1) r8 memory =
      (loadElfRound translation rax rsp (r8 + BitVec.ofNat 64 (56 * k)) copied).bind fun round =>
        if round.1 then none else some round.2 := by
  induction k generalizing r8 memory with
  | zero =>
    obtain rfl : memory = copied := Option.some.inj copies
    rw [offset_zero]
    rfl
  | succ k ih =>
    obtain ⟨⟨falls, after⟩, happened, rest⟩ := Option.bind_eq_some_iff.mp copies
    cases falls with
    | true => cases rest
    | false =>
      rw [copyHeaders_succ (k + 1) happened, offset_succ]
      exact ih rest

theorem stopsAt_of_rounds {limit fuel : Nat} {last : Nat × Memory}
    (ran : loadElfRounds translation rax rsp r9 fuel r8 memory = some last) (few : last.1 ≤ limit) :
    ∃ k ≤ limit, ∃ copied, copyHeaders translation rax rsp k r8 memory = some copied ∧
      StopsAt translation rax rsp r9 (limit - k) (r8 + BitVec.ofNat 64 (56 * k)) copied := by
  induction fuel generalizing limit r8 memory last with
  | zero => cases ran
  | succ fuel ih =>
    rw [loadElfRounds] at ran
    split at ran
    · rename_i here
      exact ⟨0, Nat.zero_le _, memory, rfl, Or.inl ((offset_zero r8).trans here)⟩
    · obtain ⟨⟨falls, after⟩, happened, rest⟩ := Option.bind_eq_some_iff.mp ran
      cases falls with
      | true =>
        obtain rfl : (1, after) = last := Option.some.inj rest
        refine ⟨0, Nat.zero_le _, memory, rfl, Or.inr ⟨few, after, ?_⟩⟩
        rw [offset_zero]
        exact happened
      | false =>
        obtain ⟨later, ran', same⟩ := Option.bind_eq_some_iff.mp rest
        obtain rfl : (later.1 + 1, later.2) = last := Option.some.inj same
        obtain ⟨limit, rfl⟩ : ∃ less, limit = less + 1 := ⟨limit - 1, by omega⟩
        obtain ⟨k, within, copied, copies, stops⟩ := ih ran' (Nat.le_of_succ_le_succ few)
        refine ⟨k + 1, Nat.succ_le_succ within, copied, ?_, ?_⟩
        · rw [copyHeaders_succ k happened]
          exact copies
        · rw [offset_succ, Nat.add_sub_add_right]
          exact stops

theorem rounds_of_stopsAt {limit k : Nat} {copied : Memory} (within : k ≤ limit)
    (copies : copyHeaders translation rax rsp k r8 memory = some copied)
    (stops : StopsAt translation rax rsp r9 (limit - k) (r8 + BitVec.ofNat 64 (56 * k)) copied) :
    ∃ fuel last, loadElfRounds translation rax rsp r9 fuel r8 memory = some last ∧ last.1 ≤ limit := by
  induction k generalizing limit r8 memory with
  | zero =>
    obtain rfl : memory = copied := Option.some.inj copies
    rw [offset_zero] at stops
    by_cases here : r8 = r9
    · exact ⟨1, (0, memory), if_pos here, Nat.zero_le _⟩
    · obtain ⟨left, cleared, happened⟩ := stops.resolve_left here
      refine ⟨1, (1, cleared), ?_, left⟩
      rw [loadElfRounds, if_neg here, happened]
      rfl
  | succ k ih =>
    by_cases here : r8 = r9
    · exact ⟨1, (0, memory), if_pos here, Nat.zero_le _⟩
    · obtain ⟨⟨falls, after⟩, happened, rest⟩ := Option.bind_eq_some_iff.mp copies
      cases falls with
      | true => cases rest
      | false =>
        obtain ⟨limit, rfl⟩ : ∃ less, limit = less + 1 := ⟨limit - 1, by omega⟩
        rw [offset_succ, Nat.add_sub_add_right] at stops
        obtain ⟨fuel, last, ran, few⟩ := ih (Nat.le_of_succ_le_succ within) rest stops
        refine ⟨fuel + 1, (last.1 + 1, last.2), ?_, Nat.succ_le_succ few⟩
        rw [loadElfRounds, if_neg here, happened]
        change (loadElfRounds translation rax rsp r9 fuel (r8 + 56) after).bind _ = _
        rw [ran]
        rfl

/-- The offset is equal to the end when the headers passed fill the table, in sixteen bits. -/
theorem offset_eq_end_iff (phoff : Word) (phentsize phnum : BitVec 16) {k : Nat} (small : k ≤ phnum.toNat) :
    phoff + BitVec.ofNat 64 (56 * k) = (phentsize * phnum).setWidth 64 + phoff ↔
      56 * k = phentsize.toNat * phnum.toNat % 2 ^ 16 := by
  have bound := phnum.isLt
  have rest := Nat.mod_lt (phentsize.toNat * phnum.toNat) (show 0 < 2 ^ 16 by decide)
  rw [BitVec.add_comm, BitVec.add_left_inj, ← BitVec.toNat_inj, BitVec.toNat_ofNat, BitVec.toNat_setWidth,
    BitVec.toNat_mul, Nat.mod_eq_of_lt (by omega), Nat.mod_eq_of_lt (by omega)]

theorem goes_on_of_copied {n k : Nat} {copied whole : Memory} (below : k < n)
    (all : copyHeaders translation rax rsp n r8 memory = some whole)
    (copies : copyHeaders translation rax rsp k r8 memory = some copied) :
    ∃ after, loadElfRound translation rax rsp (r8 + BitVec.ofNat 64 (56 * k)) copied =
      some (false, after) := by
  induction k generalizing n r8 memory with
  | zero =>
    obtain rfl : memory = copied := Option.some.inj copies
    obtain ⟨n, rfl⟩ : ∃ less, n = less + 1 := ⟨n - 1, by omega⟩
    obtain ⟨⟨falls, after⟩, happened, rest⟩ := Option.bind_eq_some_iff.mp all
    rw [offset_zero]
    cases falls with
    | true => cases rest
    | false => exact ⟨after, happened⟩
  | succ k ih =>
    obtain ⟨n, rfl⟩ : ∃ less, n = less + 1 := ⟨n - 1, by omega⟩
    obtain ⟨⟨falls, after⟩, happened, rest⟩ := Option.bind_eq_some_iff.mp copies
    rw [offset_succ]
    cases falls with
    | true => cases rest
    | false =>
      rw [copyHeaders_succ n happened] at all
      exact ih (Nat.lt_of_succ_lt_succ below) all rest

theorem sizes_of_endsInTime {phoff : Word} {phentsize phnum : BitVec 16} {whole : Memory}
    (all : copyHeaders translation rax rsp phnum.toNat phoff memory = some whole)
    (ends : EndsInTime translation rax rsp phoff phentsize phnum memory) :
    ∃ k ≤ phnum.toNat, 56 * k = phentsize.toNat * phnum.toNat % 2 ^ 16 := by
  obtain ⟨fuel, last, ran, few⟩ := ends
  obtain ⟨k, within, copied, copies, here | ⟨left, cleared, falls⟩⟩ := stopsAt_of_rounds ran few
  · exact ⟨k, within, (offset_eq_end_iff phoff phentsize phnum within).mp here⟩
  · obtain ⟨after, goesOn⟩ := goes_on_of_copied (Nat.sub_pos_iff_lt.mp left) all copies
    rw [falls] at goesOn
    cases goesOn

/-! ### What the headers say -/

/-- Where the loop looks for a header. -/
def phdrAddress (rax phoff : Word) (k : Nat) : Word := rax + (phoff + BitVec.ofNat 64 (56 * k))

/-- A field of a header, as memory has it before the loop. -/
def phdrField (translation : Translation) (memory : Memory) (rax phoff : Word) (k : Nat) (field : Word) :
    Word :=
  (load64 translation memory (phdrAddress rax phoff k + field)).getD 0

/-- A header the loop goes on from: it is not at the end, and has file bytes. -/
def HeaderGoesOn (translation : Translation) (rax phoff : Word) (phentsize phnum : BitVec 16) (memory : Memory)
    (k : Nat) : Prop :=
  56 * k ≠ phentsize.toNat * phnum.toNat % 2 ^ 16 ∧ phdrField translation memory rax phoff k 32 ≠ 0

/-- The headers are read as they were before the loop and nothing faults: the fields of a header that
is come to are mapped; a copy is mapped, and leaves the fields of the headers behind it alone; what
`.bss` pushes and clears is mapped. -/
structure LoopRoom (translation : Translation) (rax rsp phoff : Word) (phentsize phnum : BitVec 16)
    (memory : Memory) : Prop where
  table : ∀ k < phnum.toNat, (∀ j < k, HeaderGoesOn translation rax phoff phentsize phnum memory j) →
    AllMapped translation (phdrAddress rax phoff k + 8) 40
  copies : ∀ k < phnum.toNat, (∀ j ≤ k, HeaderGoesOn translation rax phoff phentsize phnum memory j) →
    AllMapped translation (rax + phdrField translation memory rax phoff k 8)
        (phdrField translation memory rax phoff k 32).toNat ∧
      AllMapped translation (phdrField translation memory rax phoff k 24)
        (phdrField translation memory rax phoff k 32).toNat ∧
      ∀ place, Behind translation (phdrField translation memory rax phoff k 24)
        (phdrField translation memory rax phoff k 32).toNat place →
        ∀ j < phnum.toNat, k < j → ¬Behind translation (phdrAddress rax phoff j + 8) 40 place
  clears : ∀ k < phnum.toNat, (∀ j < k, HeaderGoesOn translation rax phoff phentsize phnum memory j) →
    phdrField translation memory rax phoff k 32 = 0 →
      AllMapped translation (rsp - 8) 8 ∧
      AllMapped translation (phdrField translation memory rax phoff k 16)
        (8 * (phdrField translation memory rax phoff k 40).toNat)

variable {phoff : Word} {phentsize phnum : BitVec 16} {k : Nat} {copied : Memory}

/-- The fields of a header are as before the loop. -/
def SameFields (translation : Translation) (rax phoff : Word) (memory copied : Memory) (k : Nat) : Prop :=
  ∀ place, Behind translation (phdrAddress rax phoff k + 8) 40 place → copied place = memory place

private theorem SameFields.read {field : Nat} (same : SameFields translation rax phoff memory copied k)
    (mapped : AllMapped translation (phdrAddress rax phoff k + 8) 40) (low : 8 ≤ field)
    (high : field + 8 ≤ 48) :
    load64 translation copied (phdrAddress rax phoff k + BitVec.ofNat 64 field) =
      some (phdrField translation memory rax phoff k (BitVec.ofNat 64 field)) := by
  have inside : field - 8 + 8 ≤ 40 := by omega
  have address : phdrAddress rax phoff k + 8 + BitVec.ofNat 64 (field - 8) =
      phdrAddress rax phoff k + BitVec.ofNat 64 field := by
    rw [BitVec.add_assoc, show (8 : Word) = BitVec.ofNat 64 8 from rfl, ← BitVec.ofNat_add,
      Nat.add_sub_cancel' low]
  obtain ⟨number, read⟩ := @load_mapped translation memory _ _ (mapped.sub inside)
  have kept : load translation copied 8 (phdrAddress rax phoff k + BitVec.ofNat 64 field) =
      load translation memory 8 (phdrAddress rax phoff k + BitVec.ofNat 64 field) := by
    apply load_congr
    intro x below place here
    rw [← address] at here
    exact same place (Behind.sub ⟨x, below, here⟩ inside)
  rw [address] at read
  unfold phdrField load64
  rw [kept, read]
  rfl

private theorem LoopRoom.copy (room : LoopRoom translation rax rsp phoff phentsize phnum memory)
    (below : k < phnum.toNat) (before : ∀ j ≤ k, HeaderGoesOn translation rax phoff phentsize phnum memory j)
    (same : ∀ j < phnum.toNat, k ≤ j → SameFields translation rax phoff memory copied j) :
    ∃ after, loadElfRound translation rax rsp (phoff + BitVec.ofNat 64 (56 * k)) copied =
        some (false, after) ∧
      ∀ j < phnum.toNat, k + 1 ≤ j → SameFields translation rax phoff memory after j := by
  have mapped := room.table k below fun j earlier => before j (Nat.le_of_lt earlier)
  obtain ⟨reads, writes, apart⟩ := room.copies k below before
  obtain ⟨after, copies, others⟩ := @repMovsb_mapped translation copied _ _ _ reads writes
  have fields := same k below (Nat.le_refl k)
  have filesz : load64 translation copied (phdrAddress rax phoff k + 32) =
      some (phdrField translation memory rax phoff k 32) := fields.read mapped (by decide) (by decide)
  have offset : load64 translation copied (phdrAddress rax phoff k + 8) =
      some (phdrField translation memory rax phoff k 8) := fields.read mapped (by decide) (by decide)
  have paddr : load64 translation copied (phdrAddress rax phoff k + 24) =
      some (phdrField translation memory rax phoff k 24) := fields.read mapped (by decide) (by decide)
  refine ⟨after, ?_, ?_⟩
  · unfold loadElfRound
    rw [← phdrAddress, filesz, offset, paddr]
    simp only [Option.bind_eq_bind, Option.bind_some]
    rw [if_neg (before k (Nat.le_refl k)).2]
    exact congrArg (Option.bind · fun memory => some (false, memory)) copies
  · intro j belowJ later place behind
    rw [others place fun target => apart place target j belowJ later behind]
    exact same j belowJ (by omega) place behind

private theorem LoopRoom.clear (room : LoopRoom translation rax rsp phoff phentsize phnum memory)
    (below : k < phnum.toNat) (before : ∀ j < k, HeaderGoesOn translation rax phoff phentsize phnum memory j)
    (empty : phdrField translation memory rax phoff k 32 = 0)
    (same : SameFields translation rax phoff memory copied k) :
    ∃ cleared, loadElfRound translation rax rsp (phoff + BitVec.ofNat 64 (56 * k)) copied =
      some (true, cleared) := by
  have mapped := room.table k below before
  obtain ⟨word, range⟩ := room.clears k below before empty
  have filesz : load64 translation copied (phdrAddress rax phoff k + 32) =
      some (phdrField translation memory rax phoff k 32) := same.read mapped (by decide) (by decide)
  have offset : load64 translation copied (phdrAddress rax phoff k + 8) =
      some (phdrField translation memory rax phoff k 8) := same.read mapped (by decide) (by decide)
  have memsz : load64 translation copied (phdrAddress rax phoff k + 40) =
      some (phdrField translation memory rax phoff k 40) := same.read mapped (by decide) (by decide)
  have vaddr : load64 translation copied (phdrAddress rax phoff k + 16) =
      some (phdrField translation memory rax phoff k 16) := same.read mapped (by decide) (by decide)
  obtain ⟨pushed, stored, _⟩ := @store_mapped translation copied _ _ rax.toNat word
  obtain ⟨cleared, filled, _⟩ := @repStosq_mapped translation pushed _ _ range
  obtain ⟨number, popped⟩ := @load_mapped translation cleared _ _ word
  refine ⟨cleared, ?_⟩
  unfold loadElfRound push pop
  rw [← phdrAddress, filesz, offset, memsz, vaddr]
  simp only [Option.bind_eq_bind, Option.bind_some]
  rw [if_pos empty, stored, Option.bind_some, filled, Option.bind_some]
  unfold load64
  rw [popped]
  rfl

private theorem LoopRoom.copyHeaders (room : LoopRoom translation rax rsp phoff phentsize phnum memory)
    (upTo : k ≤ phnum.toNat) (before : ∀ j < k, HeaderGoesOn translation rax phoff phentsize phnum memory j) :
    ∃ copied, Osdev64.copyHeaders translation rax rsp k phoff memory = some copied ∧
      ∀ j < phnum.toNat, k ≤ j → SameFields translation rax phoff memory copied j := by
  induction k with
  | zero => exact ⟨memory, rfl, fun _ _ _ _ _ => rfl⟩
  | succ k ih =>
    obtain ⟨copied, copies, same⟩ := ih (by omega) fun j earlier => before j (by omega)
    obtain ⟨after, round, same'⟩ := room.copy upTo (fun j least => before j (by omega)) same
    refine ⟨after, ?_, same'⟩
    rw [copyHeaders_snoc copies, round]
    rfl

def flatTranslation : Translation := fun address => some address.toNat

/-- Memory with one header at 64, of one file byte. -/
def oneByteHeader : Memory := fun place => if place = 96 then 1 else 0

private theorem oneByteHeader_filesz : phdrField flatTranslation oneByteHeader 0 64 0 32 = 1 := by
  decide +kernel

private theorem oneByteHeader_room (phentsize : BitVec 16) :
    LoopRoom flatTranslation 0 0x7000 64 phentsize 1 oneByteHeader := by
  have one : (1 : BitVec 16).toNat = 1 := rfl
  refine ⟨fun _ _ _ _ _ => rfl, ?_, ?_⟩
  · intro k below _
    refine ⟨fun _ _ => rfl, fun _ _ => rfl, ?_⟩
    intro place _ j belowJ later
    omega
  · intro k below _ empty
    have first : k = 0 := by omega
    rw [first, oneByteHeader_filesz] at empty
    exact absurd empty (by decide)

end Osdev64
