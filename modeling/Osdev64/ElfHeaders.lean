/-
The headers `elf_load` examines.

The end of the loop is the first header plus a number of bytes, as a pointer to
headers: with 56-byte entries the loop examines 56 times as many headers as the
file has, unless a round before stops it for good.
-/

import Osdev64.ElfTrace

namespace Osdev64

open Word64 Bytes Paging Reporting

/-- The header an event examines. -/
def LoadEvent.examined : LoadEvent → Option Word
  | .header phdr => some phdr
  | _ => none

def headersOf (events : List LoadEvent) : List Word := events.filterMap LoadEvent.examined

/-- `count` headers in a row. -/
def headersFrom (phdr : Word) (count : Nat) : List Word :=
  (List.range count).map fun k => phdr + BitVec.ofNat 64 (56 * k)

theorem headersFrom_succ (phdr : Word) (count : Nat) :
    headersFrom phdr (count + 1) = phdr :: headersFrom (phdr + phdrSize) count := by
  unfold headersFrom
  rw [List.range_succ_eq_map, List.map_cons, List.map_map, Nat.mul_zero, BitVec.add_zero]
  congr 1
  apply List.map_congr_left
  intro k _
  change phdr + BitVec.ofNat 64 (56 * (k + 1)) = phdr + 56 + BitVec.ofNat 64 (56 * k)
  rw [BitVec.add_assoc, Nat.mul_succ, Nat.add_comm, BitVec.ofNat_add]
  rfl

theorem length_headersFrom (phdr : Word) (count : Nat) : (headersFrom phdr count).length = count := by
  unfold headersFrom
  rw [List.length_map, List.length_range]

variable {machine machine' : Kernel} {data phdr last : Word} {steps rounds : Nat}

/-! ### One round -/

def LoadEvent.NotHeader (event : LoadEvent) : Prop := event.examined = none

private theorem report_only {event : LoadEvent} (other : event.examined = none) :
    Only LoadEvent.NotHeader (report event : Reporting LoadEvent KernelData Unit) := only_report other

private theorem readField_only (address : Word) : Only LoadEvent.NotHeader (readField address) :=
  (only_perform _).andThen fun _ => (report_only rfl).andThen fun _ => only_pure _

theorem requestLoop_only (phdr : Word) (steps : Nat) :
    ∀ i, Only LoadEvent.NotHeader (requestLoop phdr steps i) := by
  induction steps with
  | zero => exact fun _ => only_stop
  | succ steps ih =>
    intro i
    refine (readField_only _).andThen fun memsz => ?_
    split
    · exact only_pure _
    refine (readField_only _).andThen fun vaddr => ?_
    have request : Only LoadEvent.NotHeader
        (call (LoadEvent.request (vaddr + i)) (mmuReqPage (vaddr + i) elfFlags)) :=
      only_call (fun p => show (LoadEvent.request (vaddr + i) p).examined = none from rfl) _
    refine request.andThen fun p => (report_only rfl).andThen fun _ => ?_
    refine (only_perform _).andThen fun data => (readField_only _).andThen fun again => ?_
    split
    · exact only_pure _
    · exact ih _

theorem loadSegment_only (steps : Nat) (data phdr : Word) :
    Only LoadEvent.NotHeader (loadSegment steps data phdr) := by
  refine (requestLoop_only phdr steps 0).andThen fun _ => ?_
  refine Only.andThen ?_ fun _ => ?_
  · refine (readField_only _).andThen fun _ => (readField_only _).andThen fun _ => ?_
    exact (report_only rfl).andThen fun _ => only_perform _
  · refine (readField_only _).andThen fun _ => (readField_only _).andThen fun _ => ?_
    exact (readField_only _).andThen fun _ => (report_only rfl).andThen fun _ => only_perform _

theorem headersOf_headerRound :
    headersOf (headerRound steps data phdr machine).events = [phdr] := by
  have split : (headerRound steps data phdr machine).events =
      .header phdr :: ((perform (readNumber 4 phdr) >>= fun pType =>
        if pType ≠ 1 then pure () else loadSegment steps data phdr) machine).events := rfl
  have rest : Only LoadEvent.NotHeader (perform (readNumber 4 phdr) >>= fun pType =>
      if pType ≠ 1 then pure () else loadSegment steps data phdr) := by
    refine (only_perform _).andThen fun pType => ?_
    split
    · exact only_pure _
    · exact loadSegment_only steps data phdr
  unfold headersOf
  rw [split, List.filterMap_cons, List.filterMap_eq_nil_iff.mpr (rest machine)]
  rfl

/-! ### The loop -/

theorem headersOf_headerLoop_end (outside : ¬phdr < last) :
    headersOf (headerLoop steps data last (rounds + 1) phdr machine).events = [] := by
  rw [headerLoop, if_neg outside]
  rfl

theorem headersOf_headerLoop_stop (inside : phdr < last)
    (stopped : (headerRound steps data phdr machine).result = none) :
    headersOf (headerLoop steps data last (rounds + 1) phdr machine).events = headersFrom phdr 1 := by
  rw [headerLoop, if_pos inside, events_stopped stopped, headersFrom_succ]
  exact headersOf_headerRound

theorem headersOf_headerLoop_next (inside : phdr < last)
    (returned : (headerRound steps data phdr machine).result = some ((), machine')) :
    headersOf (headerLoop steps data last (rounds + 1) phdr machine).events =
      phdr :: headersOf (headerLoop steps data last rounds (phdr + phdrSize) machine').events := by
  have round : headersOf (headerRound steps data phdr machine).events = [phdr] := headersOf_headerRound
  unfold headersOf at round ⊢
  rw [headerLoop, if_pos inside, events_andThen returned, List.filterMap_append, round]
  rfl

/-- The loop examines its first headers in a row, and one more than the rounds that return. -/
theorem headersOf_headerLoop (count : Nat) :
    ∀ (phdr : Word) (machine : Kernel) (rounds : Nat), phdr.toNat + 56 * count < 2 ^ 64 →
      last = phdr + BitVec.ofNat 64 (56 * count) → count < rounds →
      ∃ n ≤ count, headersOf (headerLoop steps data last rounds phdr machine).events = headersFrom phdr n ∧
        ∀ m < count, (headerRounds steps data m phdr machine).result ≠ none → m < n := by
  induction count with
  | zero =>
    intro phdr machine rounds _ atEnd more
    obtain ⟨rounds, rfl⟩ := Nat.exists_eq_succ_of_ne_zero (Nat.ne_of_gt more)
    have outside : ¬phdr < last := by
      rw [atEnd, Nat.mul_zero, BitVec.add_zero, BitVec.lt_def]
      exact Nat.lt_irrefl _
    exact ⟨0, Nat.le_refl 0, headersOf_headerLoop_end outside, fun m below => absurd below (Nat.not_lt_zero m)⟩
  | succ count ih =>
    intro phdr machine rounds noWrap atEnd more
    obtain ⟨rounds, rfl⟩ := Nat.exists_eq_succ_of_ne_zero (Nat.ne_of_gt (Nat.lt_of_le_of_lt (Nat.zero_le _) more))
    have inside : phdr < last := by
      rw [atEnd, BitVec.lt_def, BitVec.toNat_add, BitVec.toNat_ofNat]
      omega
    have nextValue : (phdr + phdrSize).toNat = phdr.toNat + 56 := by
      rw [BitVec.toNat_add]
      change (phdr.toNat + 56) % 2 ^ 64 = _
      omega
    have nextEnd : last = phdr + phdrSize + BitVec.ofNat 64 (56 * count) := by
      rw [atEnd, BitVec.add_assoc, Nat.mul_succ, Nat.add_comm, BitVec.ofNat_add]
      rfl
    cases ran : (headerRound steps data phdr machine).result with
    | none =>
      refine ⟨1, by omega, headersOf_headerLoop_stop inside ran, ?_⟩
      intro m _ returns
      cases m with
      | zero => exact Nat.one_pos
      | succ m =>
        rw [headerRounds, result_andThen, ran] at returns
        exact absurd rfl returns
    | some returned =>
      obtain ⟨_, machine'⟩ := returned
      obtain ⟨n, few, headers, later⟩ := ih (phdr + phdrSize) machine' rounds (by omega) nextEnd (by omega)
      refine ⟨n + 1, by omega, ?_, ?_⟩
      · rw [headersOf_headerLoop_next inside ran, headers, headersFrom_succ]
      · intro m below returns
        cases m with
        | zero => exact Nat.succ_pos n
        | succ m =>
          rw [headerRounds, result_andThen, ran, Option.bind_some] at returns
          exact Nat.succ_lt_succ (later m (by omega) returns)

/-! ### The whole call -/

theorem readNumber_lt (count : Nat) :
    ∀ {address : Word} {machine machine' : Kernel} {number : Nat},
      (readNumber count address).run machine = some (number, machine') → number < 256 ^ count := by
  induction count with
  | zero =>
    intro address machine machine' number ran
    cases ran
    decide
  | succ count ih =>
    intro address machine machine' number ran
    rw [readNumber, Prog.run_andThen] at ran
    obtain ⟨⟨byte, middle⟩, _, ran⟩ := Option.bind_eq_some_iff.mp ran
    rw [Prog.run_andThen] at ran
    obtain ⟨⟨rest, middle'⟩, ranRest, ran⟩ := Option.bind_eq_some_iff.mp ran
    cases ran
    have below := ih ranRest
    have small := byte.isLt
    rw [Nat.pow_succ]
    change byte.toNat + 256 * rest < 256 ^ count * 256
    omega

theorem readEhdr_phnum_lt {ehdr : Ehdr} (read : (readEhdr data).run machine = some (ehdr, machine')) :
    ehdr.ePhnum < 65536 := by
  rw [readEhdr, Prog.run_andThen] at read
  obtain ⟨⟨ePhoff, first⟩, _, read⟩ := Option.bind_eq_some_iff.mp read
  rw [Prog.run_andThen] at read
  obtain ⟨⟨ePhentsize, second⟩, _, read⟩ := Option.bind_eq_some_iff.mp read
  rw [Prog.run_andThen] at read
  obtain ⟨⟨ePhnum, third⟩, ran, read⟩ := Option.bind_eq_some_iff.mp read
  cases read
  exact readNumber_lt 2 ran

theorem lastPhdr_eq {ehdr : Ehdr} (entry : ehdr.ePhentsize = 56) (few : ehdr.ePhnum < 65536) :
    lastPhdr data ehdr = data + ehdr.ePhoff + BitVec.ofNat 64 (56 * (56 * ehdr.ePhnum)) := by
  have value : ((BitVec.ofNat 32 (56 * ehdr.ePhnum)).signExtend 64 * phdrSize : Word) =
      BitVec.ofNat 64 (56 * (56 * ehdr.ePhnum)) := by
    have small : (BitVec.ofNat 32 (56 * ehdr.ePhnum)).toNat = 56 * ehdr.ePhnum :=
      Nat.mod_eq_of_lt (by omega)
    have positive : (BitVec.ofNat 32 (56 * ehdr.ePhnum)).msb = false := by
      rw [BitVec.msb_eq_false_iff_two_mul_lt, small]
      omega
    apply BitVec.eq_of_toNat_eq
    rw [BitVec.toNat_mul, BitVec.signExtend_eq_setWidth_of_msb_false positive, BitVec.toNat_setWidth,
      small, BitVec.toNat_ofNat, Nat.mod_eq_of_lt (show 56 * ehdr.ePhnum < 2 ^ 64 by omega), Nat.mul_comm]
    rfl
  unfold lastPhdr
  rw [entry, value]

/-- `elf_load` examines headers in a row from the first on, up to 56 times as many as there are.  If
the rounds of the program headers return, these are all it examines only if there are none. -/
theorem examines_headers_iff {ehdr : Ehdr} (read : (readEhdr data).run machine = some (ehdr, machine'))
    (entry : ehdr.ePhentsize = 56) (more : 56 * ehdr.ePhnum < rounds) :
    (∃ n ≤ 56 * ehdr.ePhnum, headersOf (elfLoad steps rounds data machine).events =
        headersFrom (data + ehdr.ePhoff) n) ∧
      ((headerRounds steps data ehdr.ePhnum (data + ehdr.ePhoff) machine').result ≠ none →
        (headersOf (elfLoad steps rounds data machine).events =
          headersFrom (data + ehdr.ePhoff) ehdr.ePhnum ↔ ehdr.ePhnum = 0)) := by
  have few := readEhdr_phnum_lt read
  have atEnd : lastPhdr data ehdr = data + ehdr.ePhoff + BitVec.ofNat 64 (56 * (56 * ehdr.ePhnum)) :=
    lastPhdr_eq entry few
  have events : (elfLoad steps rounds data machine).events =
      (headerLoop steps data (lastPhdr data ehdr) rounds (data + ehdr.ePhoff) machine').events :=
    events_perform read
  have bound := (data + ehdr.ePhoff).isLt
  have sameLength (n : Nat) : headersFrom (data + ehdr.ePhoff) n =
      headersFrom (data + ehdr.ePhoff) ehdr.ePhnum → n = ehdr.ePhnum := by
    intro same
    have lengths := congrArg List.length same
    rwa [length_headersFrom, length_headersFrom] at lengths
  rw [events]
  by_cases noWrap : (data + ehdr.ePhoff).toNat + 56 * (56 * ehdr.ePhnum) < 2 ^ 64
  · obtain ⟨n, atMost, headers, later⟩ :=
      headersOf_headerLoop (56 * ehdr.ePhnum) (data + ehdr.ePhoff) machine' rounds noWrap atEnd more
    refine ⟨⟨n, atMost, headers⟩, ?_⟩
    intro returns
    rw [headers]
    constructor
    · intro same
      by_contra some
      have next := later ehdr.ePhnum (by omega) returns
      have length := sameLength n same
      omega
    · intro none
      obtain rfl : n = 0 := by omega
      rw [none]
  · -- the end lies before the first header
    obtain ⟨rounds, rfl⟩ := Nat.exists_eq_succ_of_ne_zero (Nat.ne_of_gt (Nat.lt_of_le_of_lt (Nat.zero_le _) more))
    have outside : ¬data + ehdr.ePhoff < lastPhdr data ehdr := by
      have size : 56 * (56 * ehdr.ePhnum) < 2 ^ 64 := by omega
      rw [atEnd, BitVec.lt_def, BitVec.toNat_add (data + ehdr.ePhoff), BitVec.toNat_ofNat,
        Nat.mod_eq_of_lt size]
      omega
    rw [headersOf_headerLoop_end outside]
    refine ⟨⟨0, Nat.zero_le _, rfl⟩, fun _ => iff_of_false ?_ (by omega)⟩
    intro same
    have length := sameLength 0 same
    omega

/-- An image with one header of type 0, and one without program headers. -/
theorem examines_headers_one :
    headersOf (elfLoad 1 57 0x6000 (loaderKernel 1 0 0 0)).events ≠ headersFrom 0x6040 1 ∧
      headersOf (elfLoad 1 1 0x6000 (loaderKernel 0 0 0 0)).events = headersFrom 0x6040 0 := by
  have first : ((readEhdr 0x6000).run (loaderKernel 1 0 0 0)).map (fun read =>
      (0x6000 + read.1.ePhoff, read.1.ePhentsize, read.1.ePhnum,
        (headerRounds 1 0x6000 1 0x6040 read.2).result.isSome)) = some (0x6040, 56, 1, true) := by
    decide +kernel
  have empty : ((readEhdr 0x6000).run (loaderKernel 0 0 0 0)).map (fun read =>
      (0x6000 + read.1.ePhoff, read.1.ePhentsize, read.1.ePhnum)) = some (0x6040, 56, 0) := by
    decide +kernel
  constructor
  · obtain ⟨⟨ehdr, machine'⟩, read, values⟩ := Option.map_eq_some_iff.mp first
    simp only [Prod.mk.injEq] at values
    obtain ⟨offset, entry, count, returns⟩ := values
    have examined := (@examines_headers_iff _ _ _ 1 57 ehdr read entry (by omega)).2
    rw [offset, count] at examined
    intro same
    exact absurd ((examined (Option.isSome_iff_ne_none.mp returns)).mp same) (by decide)
  · obtain ⟨⟨ehdr, machine'⟩, read, values⟩ := Option.map_eq_some_iff.mp empty
    simp only [Prod.mk.injEq] at values
    obtain ⟨offset, entry, count⟩ := values
    have examined := (@examines_headers_iff _ _ _ 1 1 ehdr read entry (by omega)).2
    rw [offset, count] at examined
    exact (examined (Option.some_ne_none _)).mpr rfl

/-- With one header at `0x6040`, the bytes behind it are examined as another. -/
theorem second_header_examined :
    (0x6078 : Word) ∈ headersOf (elfLoad 1 57 0x6000 (loaderKernel 1 0 0 0)).events ∧
      (0x6078 : Word) ∉ headersFrom 0x6040 1 := by
  decide +kernel

end Osdev64
