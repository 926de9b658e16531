/-
What the loader reports of the requests for a segment.

In a loop over pages that returns, every request has returned a page pointer, and
the loop went on as long as the page was the one asked for.
-/

import Osdev64.Elf
import Osdev64.FrameRuns
import Osdev64.MmuMap

namespace Osdev64

open Word64 Bytes Paging Reporting

variable {machine machine' final : Kernel} {address value phdr i : Word} {steps : Nat} {p : PagePtr}

theorem mmuReqPage_data {flags : BitVec 32}
    (ran : (mmuReqPage address flags).run machine = some (p, machine')) (notNull : p ≠ .null) :
    (machine'.data.frames.page p).data = roundDown address pageSize := by
  by_cases real : (pageAlloc machine.data.frames).1 = .null
  · -- without a page the call returns the null pointer or none at all
    unfold mmuReqPage allocPage at ran
    rw [Prog.run_andThen, Prog.run_local, Option.bind_some, Prog.run_andThen] at ran
    obtain ⟨⟨_, mapped⟩, _, ran⟩ := Option.bind_eq_some_iff.mp ran
    rw [Prog.run_andThen] at ran
    obtain ⟨⟨data, loaded⟩, _, ran⟩ := Option.bind_eq_some_iff.mp ran
    simp only at ran
    split at ran
    · cases ran
      exact absurd rfl notNull
    · cases ran
      exact absurd real notNull
  · rw [mmuReqPage_run _ _ real] at ran
    obtain ⟨⟨_, after⟩, _, result⟩ := Option.map_eq_some_iff.mp ran
    obtain ⟨returned, same⟩ := Prod.mk.inj result
    subst same
    split at returned
    · exact absurd returned.symm notNull
    · rename_i agrees
      rw [← returned]
      exact not_not.mp agrees

theorem readField_returned (returned : (readField address machine).result = some (value, machine')) :
    (readField address machine).events = [.field address value] := by
  unfold readField at returned ⊢
  obtain ⟨read, after, ran, returned⟩ := returned_andThen.mp returned
  rw [events_andThen ran]
  cases returned
  rfl

theorem requestLoop_returned
    (returned : (requestLoop phdr (steps + 1) i machine).result = some ((), final)) :
    ∃ memsz, memsz < i ∧ (requestLoop phdr (steps + 1) i machine).events = [.field (phdr + 40) memsz] ∨
      ¬memsz < i ∧ ∃ vaddr p again data asked answered read rest,
        (mmuReqPage (vaddr + i) elfFlags).run asked = some (p, answered) ∧
        (loadData p).run answered = some (data, read) ∧
        (requestLoop phdr (steps + 1) i machine).events = .field (phdr + 40) memsz ::
          .field (phdr + 16) vaddr :: .request (vaddr + i) (some p) :: .readData p ::
          .field (phdr + 16) again :: rest ∧
        (data ≠ roundDown (again + i) pageSize ∧ rest = [] ∨
          data = roundDown (again + i) pageSize ∧
            ∃ next, rest = (requestLoop phdr steps (i + 0x1000) next).events ∧
              (requestLoop phdr steps (i + 0x1000) next).result = some ((), final)) := by
  rw [requestLoop] at returned ⊢
  obtain ⟨memsz, sized, ranSize, returned⟩ := returned_andThen.mp returned
  rw [events_andThen ranSize, readField_returned ranSize]
  refine ⟨memsz, ?_⟩
  by_cases past : memsz < i
  · rw [if_pos past]
    exact Or.inl ⟨past, rfl⟩
  · rw [if_neg past] at returned ⊢
    obtain ⟨vaddr, asked, ranVaddr, returned⟩ := returned_andThen.mp returned
    rw [events_andThen ranVaddr, readField_returned ranVaddr]
    obtain ⟨p, answered, ranRequest, returned⟩ := returned_andThen.mp returned
    have requested : (mmuReqPage (vaddr + i) elfFlags).run asked = some (p, answered) := ranRequest
    obtain ⟨_, _, reported, returned⟩ := returned_andThen.mp returned
    cases reported
    obtain ⟨data, read, ranData, returned⟩ := returned_andThen.mp returned
    have loaded : (loadData p).run answered = some (data, read) := ranData
    obtain ⟨again, compared, ranAgain, returned⟩ := returned_andThen.mp returned
    have events : ((report (.readData p) >>= fun _ => perform (loadData p) >>= fun data =>
        readField (phdr + 16) >>= fun again =>
          if data ≠ roundDown (again + i) pageSize then pure () else requestLoop phdr steps (i + 0x1000) :
            Reporting LoadEvent KernelData Unit) answered).events = .readData p :: .field (phdr + 16) again ::
          ((if data ≠ roundDown (again + i) pageSize then pure () else requestLoop phdr steps (i + 0x1000) :
            Reporting LoadEvent KernelData Unit) compared).events := by
      rw [events_andThen rfl, events_perform loaded, events_andThen ranAgain, readField_returned ranAgain]
      rfl
    rw [events_call requested, events]
    refine Or.inr ⟨past, vaddr, p, again, data, asked, answered, read, _, requested, loaded, rfl, ?_⟩
    by_cases differs : data ≠ roundDown (again + i) pageSize
    · rw [if_pos differs]
      exact Or.inl ⟨differs, rfl⟩
    · rw [if_neg differs] at returned ⊢
      exact Or.inr ⟨not_not.mp differs, compared, rfl, returned⟩

/-! ### A small machine -/

/-- An image in frame 6, with one header.  The first two megabytes are one page, the next two have
an empty page table, and page 5 is free. -/
def loaderKernel (phnum kind vaddr memsz : Word) : Kernel where
  tables frame index :=
    if frame = 1 then
      if index = mmuRe then 0x1003 else if index = 0 ∨ index = 0x1FF then 0x2003 else 0
    else if frame = 2 then
      if index = 0 ∨ index = 0x1FE then 0x3003 else 0
    else if frame = 3 then
      if index = 0 then 0x83 else if index = 1 then 0x4003 else 0
    else if frame = 6 then
      (([(4, 64), (6, 56 <<< 48), (7, phnum), (8, kind), (10, vaddr), (13, memsz)] :
        List (Index × Word)).lookup index).getD 0
    else 0
  cr3 := 0x1000
  data :=
    { frames :=
        { Frames.blank with
          heap := listAddTail Frames.blank.heap (.head .free) (.pages (.elem 5))
          page := fun p =>
            if p = .elem 5 then ⟨0x5000, 0, 0⟩
            else if p = .elem 1 then ⟨0x1000, 0, mmuRecursive mmuRe mmuRe mmuRe mmuRe⟩
            else ⟨0, 0, 0⟩ }
      pml4 := .elem 1 }

end Osdev64
