/-
The pages `elf_load` requests for a segment, and what it does when a request fails.

The counter of the loop runs over the size and not over the pages, so whether
the last page is right depends on the offsets of start and size.  A failed
request gives a null pointer; the loop reads its `data` all the same, and the
segment is cleared and copied after it.
-/

import Osdev64.ElfTrace

namespace Osdev64

open Word64 Bytes Paging Reporting

/-! ### The pages of a segment -/

def RequestedPage (events : List LoadEvent) (page : Nat) : Prop :=
  ∃ address p, LoadEvent.request address p ∈ events ∧ address.toNat / 4096 = page

/-- Every call of `mmu_req_page` returns a page. -/
def AllSucceed (events : List LoadEvent) : Prop :=
  ∀ address p, LoadEvent.request address p ∈ events → ∃ page, p = some page ∧ page ≠ .null

/-- Each time `p_vaddr` and `p_memsz` of the header are read they are `vaddr` and `memsz`: no page
is mapped over the header. -/
def FieldsKept (events : List LoadEvent) (phdr vaddr memsz : Word) : Prop :=
  ∀ value, (LoadEvent.field (phdr + 16) value ∈ events → value = vaddr) ∧
    (LoadEvent.field (phdr + 40) value ∈ events → value = memsz)

/-- The pages requested are those of the segment, so that `memset` and `memcpy` stay on them. -/
structure RequestsSegment (events : List LoadEvent) (vaddr memsz filesz : Word) : Prop where
  exact : ∀ page, RequestedPage events page ↔
    ∃ x, vaddr.toNat ≤ x ∧ x < vaddr.toNat + memsz.toNat ∧ x / 4096 = page
  cleared : ∀ x < memsz.toNat, RequestedPage events ((vaddr.toNat + x) / 4096)
  copied : ∀ x < filesz.toNat, RequestedPage events ((vaddr.toNat + x) / 4096)

variable {machine final : Kernel} {phdr vaddr memsz filesz address i : Word} {steps : Nat}

theorem AllSucceed.sub {events later : List LoadEvent} (succeed : AllSucceed events)
    (sub : ∀ event ∈ later, event ∈ events) : AllSucceed later :=
  fun address p member => succeed address p (sub _ member)

theorem FieldsKept.sub {events later : List LoadEvent} (kept : FieldsKept events phdr vaddr memsz)
    (sub : ∀ event ∈ later, event ∈ events) : FieldsKept later phdr vaddr memsz :=
  fun value => ⟨fun member => (kept value).1 (sub _ member), fun member => (kept value).2 (sub _ member)⟩

theorem requestLoop_next
    (returned : (requestLoop phdr (steps + 1) i machine).result = some ((), final))
    (kept : FieldsKept (requestLoop phdr (steps + 1) i machine).events phdr vaddr memsz)
    (succeed : AllSucceed (requestLoop phdr (steps + 1) i machine).events) :
    memsz < i ∧ (∀ address p, LoadEvent.request address p ∉ (requestLoop phdr (steps + 1) i machine).events) ∨
      ¬memsz < i ∧ ∃ page next,
        (requestLoop phdr steps (i + 0x1000) next).result = some ((), final) ∧
        (∀ event ∈ (requestLoop phdr steps (i + 0x1000) next).events,
          event ∈ (requestLoop phdr (steps + 1) i machine).events) ∧
        ∀ address p, LoadEvent.request address p ∈ (requestLoop phdr (steps + 1) i machine).events ↔
          address = vaddr + i ∧ p = some page ∨
            LoadEvent.request address p ∈ (requestLoop phdr steps (i + 0x1000) next).events := by
  obtain ⟨size, ⟨past, events⟩ | ⟨going, start, page, again, data, asked, answered, read, rest, requested,
    loaded, events, outcome⟩⟩ := requestLoop_returned returned
  · rw [events] at kept ⊢
    obtain rfl := (kept size).2 List.mem_cons_self
    exact Or.inl ⟨past, by simp⟩
  · rw [events] at kept succeed ⊢
    obtain rfl := (kept size).2 (by simp)
    obtain rfl := (kept start).1 (by simp)
    obtain rfl := (kept again).1 (by simp)
    obtain ⟨_, same, real⟩ := succeed (again + i) (some page) (by simp)
    cases same
    have right : data = roundDown (again + i) pageSize := by
      rw [loadData_real real] at loaded
      cases loaded
      exact mmuReqPage_data requested real
    rcases outcome with ⟨differs, _⟩ | ⟨_, next, rfl, returned'⟩
    · exact absurd right differs
    · refine Or.inr ⟨going, page, next, returned', ?_, ?_⟩
      · intro event member
        simp only [List.mem_cons, member, or_true]
      · intro address p
        simp

/-- The requests of a loop that returns are those of the multiples of 4096 up to the size, from the
counter on at least; the counter may have wrapped. -/
theorem requestLoop_requests (steps : Nat) :
    ∀ (i : Word) (machine : Kernel), i.toNat % 4096 = 0 →
      (requestLoop phdr steps i machine).result = some ((), final) →
      FieldsKept (requestLoop phdr steps i machine).events phdr vaddr memsz →
      AllSucceed (requestLoop phdr steps i machine).events →
      (∀ address p, LoadEvent.request address p ∈ (requestLoop phdr steps i machine).events →
        ∃ j : Word, j.toNat % 4096 = 0 ∧ j.toNat ≤ memsz.toNat ∧ address = vaddr + j) ∧
      ∀ j : Word, j.toNat % 4096 = 0 → i.toNat ≤ j.toNat → j.toNat ≤ memsz.toNat →
        ∃ p, LoadEvent.request (vaddr + j) p ∈ (requestLoop phdr steps i machine).events := by
  induction steps with
  | zero =>
    intro i machine _ returned
    cases returned
  | succ steps ih =>
    intro i machine aligned returned kept succeed
    rcases requestLoop_next returned kept succeed with ⟨past, none⟩ | ⟨going, page, next, returned', sub, requests⟩
    · rw [BitVec.lt_def] at past
      refine ⟨fun address p member => absurd member (none address p), ?_⟩
      intro j _ later within
      omega
    · rw [BitVec.lt_def] at going
      have value : (i + 0x1000).toNat = (i.toNat + 0x1000) % 2 ^ 64 := BitVec.toNat_add i 0x1000
      obtain ⟨only, all⟩ := ih (i + 0x1000) next (by omega) returned' (kept.sub sub) (succeed.sub sub)
      constructor
      · intro address p member
        rcases (requests address p).mp member with ⟨rfl, _⟩ | later
        · exact ⟨i, aligned, by omega, rfl⟩
        · exact only address p later
      · intro j multiple from' within
        by_cases here : j = i
        · exact ⟨some page, (requests _ _).mpr (Or.inl ⟨by rw [here], rfl⟩)⟩
        · have different : j.toNat ≠ i.toNat := fun same => here (BitVec.eq_of_toNat_eq same)
          have bound := j.isLt
          obtain ⟨p, member⟩ := all j multiple (by omega) within
          exact ⟨p, (requests _ _).mpr (Or.inr member)⟩

theorem requested_pages_iff (noWrap : vaddr.toNat + memsz.toNat < 2 ^ 64)
    (returned : (requestLoop phdr steps 0 machine).result = some ((), final))
    (kept : FieldsKept (requestLoop phdr steps 0 machine).events phdr vaddr memsz)
    (succeed : AllSucceed (requestLoop phdr steps 0 machine).events) (page : Nat) :
    RequestedPage (requestLoop phdr steps 0 machine).events page ↔
      vaddr.toNat / 4096 ≤ page ∧ page ≤ vaddr.toNat / 4096 + memsz.toNat / 4096 := by
  obtain ⟨only, all⟩ := requestLoop_requests steps 0 machine rfl returned kept succeed
  constructor
  · rintro ⟨address, p, member, rfl⟩
    obtain ⟨j, aligned, le, rfl⟩ := only address p member
    rw [BitVec.toNat_add]
    omega
  · rintro ⟨first, last⟩
    obtain ⟨k, rfl⟩ := Nat.exists_eq_add_of_le first
    have value : (BitVec.ofNat 64 (k * 4096)).toNat = k * 4096 := by
      rw [BitVec.toNat_ofNat]
      omega
    obtain ⟨p, member⟩ := all (BitVec.ofNat 64 (k * 4096)) (by omega) (Nat.zero_le _) (by omega)
    refine ⟨_, p, member, ?_⟩
    rw [BitVec.toNat_add, value]
    omega

/-- The offsets of start and size in their pages add up to at least one byte, and not to more than
a page. -/
def OffsetsMatch (vaddr memsz : Word) : Prop :=
  0 < memsz.toNat ∧ 1 ≤ vaddr.toNat % 4096 + memsz.toNat % 4096 ∧
    vaddr.toNat % 4096 + memsz.toNat % 4096 ≤ 4096

/-- The events of a loop that asks for one page of the small machine. -/
private def oneRequest (vaddr : Word) : List LoadEvent :=
  [.field 0x6068 16, .field 0x6050 vaddr, .request vaddr (some (.elem 5)), .readData (.elem 5),
    .field 0x6050 vaddr, .field 0x6068 16]

/-- No null page is read, and once a request has failed the segment around its address is neither
cleared nor copied. -/
structure HandlesFailure (events : List LoadEvent) : Prop where
  noNull : LoadEvent.readData .null ∉ events
  noWrites : ∀ before after address,
    events = before ++ LoadEvent.request address (some .null) :: after →
      ∀ vaddr memsz : Word, vaddr.toNat ≤ address.toNat → address.toNat ≤ vaddr.toNat + memsz.toNat →
        LoadEvent.memset vaddr memsz ∉ after ∧ ∀ src count, LoadEvent.memcpy vaddr src count ∉ after

def LoadEvent.Failed (event : LoadEvent) : Prop := ∃ address, event = .request address (some .null)

section Unfailed

private theorem report_unfailed {event : LoadEvent} (other : ¬event.Failed) :
    Only (fun event => ¬event.Failed) (report event : Reporting LoadEvent KernelData Unit) := only_report other

private theorem readField_unfailed (address : Word) : Only (fun event => ¬event.Failed) (readField address) := by
  refine (only_perform _).andThen fun _ => (report_unfailed ?_).andThen fun _ => only_pure _
  rintro ⟨_, impossible⟩
  cases impossible

private theorem clearSegment_unfailed (phdr : Word) :
    Only (fun event => ¬event.Failed) (clearSegment phdr) := by
  refine (readField_unfailed _).andThen fun _ => (readField_unfailed _).andThen fun _ => ?_
  refine (report_unfailed ?_).andThen fun _ => only_perform _
  rintro ⟨_, impossible⟩
  cases impossible

private theorem copySegment_unfailed (data phdr : Word) :
    Only (fun event => ¬event.Failed) (copySegment data phdr) := by
  refine (readField_unfailed _).andThen fun _ => (readField_unfailed _).andThen fun _ => ?_
  refine (readField_unfailed _).andThen fun _ => (report_unfailed ?_).andThen fun _ => only_perform _
  rintro ⟨_, impossible⟩
  cases impossible

end Unfailed

theorem requestLoop_readsNull (phdr : Word) (steps : Nat) :
    ∀ i, Leads LoadEvent.Failed (· = .readData .null) (requestLoop phdr steps i) := by
  induction steps with
  | zero => exact fun _ => leads_of_only only_stop
  | succ steps ih =>
    intro i
    refine (leads_of_only (readField_unfailed _)).andThen fun memsz => ?_
    split
    · exact leads_of_only (only_pure _)
    refine (leads_of_only (readField_unfailed _)).andThen fun vaddr => leads_call ?_ ?_ fun p => ?_
    · rintro ⟨_, impossible⟩
      cases impossible
    · rintro p answered ⟨_, same⟩
      cases same
      exact ⟨_, mem_events_andThen.mpr (Or.inl (List.mem_singleton_self _)), rfl⟩
    refine Leads.andThen (leads_of_only (report_unfailed ?_)) fun _ => ?_
    · rintro ⟨_, impossible⟩
      cases impossible
    refine (leads_of_only (only_perform _)).andThen fun data => ?_
    refine (leads_of_only (readField_unfailed _)).andThen fun again => ?_
    split
    · exact leads_of_only (only_pure _)
    · exact ih _

theorem loadSegment_readsNull (steps : Nat) (data phdr : Word) :
    Leads LoadEvent.Failed (· = .readData .null) (loadSegment steps data phdr) :=
  (requestLoop_readsNull phdr steps 0).andThen fun _ =>
    (leads_of_only (clearSegment_unfailed phdr)).andThen fun _ => leads_of_only (copySegment_unfailed data phdr)

/-- In a report that gets to its end, a segment is cleared and one copied behind the failed request. -/
def WritesOn {α : Type} (address : Word) (report : Report LoadEvent KernelData α) : Prop :=
  report.result ≠ none → ∃ before after,
    report.events = before ++ LoadEvent.request address (some .null) :: after ∧
      (∃ dest count, LoadEvent.memset dest count ∈ after) ∧
      ∃ dest src count, LoadEvent.memcpy dest src count ∈ after

/-- So it does whatever the machine. -/
def AlwaysWritesOn {α : Type} (computation : Reporting LoadEvent KernelData α) : Prop :=
  ∀ machine address, LoadEvent.request address (some .null) ∈ (computation machine).events →
    WritesOn address (computation machine)

theorem writesOn_of_only {α : Type} {computation : Reporting LoadEvent KernelData α}
    (only : Only (fun event => ¬event.Failed) computation) : AlwaysWritesOn computation :=
  fun machine address failed => absurd ⟨address, rfl⟩ (only machine _ failed)

theorem AlwaysWritesOn.andThen {α β : Type} {first : Reporting LoadEvent KernelData α}
    {rest : α → Reporting LoadEvent KernelData β} (writes : AlwaysWritesOn first)
    (later : ∀ value, AlwaysWritesOn (rest value)) : AlwaysWritesOn (first >>= rest) := by
  intro machine address failed returns
  obtain ⟨returned, ended⟩ := Option.ne_none_iff_exists'.mp returns
  obtain ⟨value, machine', ran, ended⟩ := returned_andThen.mp ended
  rw [events_andThen ran] at failed ⊢
  rcases List.mem_append.mp failed with early | late
  · obtain ⟨before, after, split, ⟨dest, count, clears⟩, dest', src, count', copies⟩ :=
      writes machine address early (by rw [ran]; exact Option.some_ne_none _)
    refine ⟨before, after ++ (rest value machine').events, by rw [split]; simp, ?_, ?_⟩
    · exact ⟨dest, count, List.mem_append_left _ clears⟩
    · exact ⟨dest', src, count', List.mem_append_left _ copies⟩
  · obtain ⟨before, after, split, writes⟩ :=
      later value machine' address late (by rw [ended]; exact Option.some_ne_none _)
    exact ⟨(first machine).events ++ before, after, by rw [split, List.append_assoc], writes⟩

private theorem clearSegment_reports (returned : (clearSegment phdr machine).result = some ((), final)) :
    ∃ dest count, LoadEvent.memset dest count ∈ (clearSegment phdr machine).events := by
  unfold clearSegment at returned ⊢
  obtain ⟨vaddr, _, ranVaddr, returned⟩ := returned_andThen.mp returned
  obtain ⟨memsz, _, ranMemsz, _⟩ := returned_andThen.mp returned
  refine ⟨vaddr, memsz, ?_⟩
  rw [events_andThen ranVaddr, events_andThen ranMemsz]
  refine List.mem_append_right _ (List.mem_append_right _ ?_)
  exact mem_events_andThen.mpr (Or.inl (List.mem_singleton_self _))

private theorem copySegment_reports {data : Word}
    (returned : (copySegment data phdr machine).result = some ((), final)) :
    ∃ dest src count, LoadEvent.memcpy dest src count ∈ (copySegment data phdr machine).events := by
  unfold copySegment at returned ⊢
  obtain ⟨vaddr, _, ranVaddr, returned⟩ := returned_andThen.mp returned
  obtain ⟨offset, _, ranOffset, returned⟩ := returned_andThen.mp returned
  obtain ⟨filesz, _, ranFilesz, _⟩ := returned_andThen.mp returned
  refine ⟨vaddr, data + offset, filesz, ?_⟩
  rw [events_andThen ranVaddr, events_andThen ranOffset, events_andThen ranFilesz]
  refine List.mem_append_right _ (List.mem_append_right _ (List.mem_append_right _ ?_))
  exact mem_events_andThen.mpr (Or.inl (List.mem_singleton_self _))

theorem loadSegment_writesOn (steps : Nat) (data phdr : Word) :
    AlwaysWritesOn (loadSegment steps data phdr) := by
  intro machine address failed returns
  obtain ⟨⟨_, final⟩, ended⟩ := Option.ne_none_iff_exists'.mp returns
  unfold loadSegment at failed ended ⊢
  obtain ⟨_, requested, ranLoop, ended⟩ := returned_andThen.mp ended
  obtain ⟨_, cleared, ranClear, ranCopy⟩ := returned_andThen.mp ended
  obtain ⟨dest, count, clears⟩ := clearSegment_reports ranClear
  obtain ⟨dest', src, count', copies⟩ := copySegment_reports ranCopy
  rw [events_andThen ranLoop, events_andThen ranClear] at failed ⊢
  have inLoop : LoadEvent.request address (some .null) ∈ (requestLoop phdr steps 0 machine).events := by
    rcases List.mem_append.mp failed with early | late
    · exact early
    rcases List.mem_append.mp late with early | late
    · exact absurd ⟨address, rfl⟩ (clearSegment_unfailed phdr _ _ early)
    · exact absurd ⟨address, rfl⟩ (copySegment_unfailed data phdr _ _ late)
  obtain ⟨before, after, split⟩ := List.append_of_mem inLoop
  refine ⟨before, after ++ ((clearSegment phdr requested).events ++ (copySegment data phdr cleared).events),
    by rw [split]; simp, ?_, ?_⟩
  · exact ⟨dest, count, List.mem_append_right _ (List.mem_append_left _ clears)⟩
  · exact ⟨dest', src, count', List.mem_append_right _ (List.mem_append_right _ copies)⟩

/-- A failed request of the computation is ignored: the null page is read, and the writes follow. -/
def IgnoresFailure {α : Type} (computation : Reporting LoadEvent KernelData α) : Prop :=
  Leads LoadEvent.Failed (· = .readData .null) computation ∧ AlwaysWritesOn computation

theorem ignores_of_only {α : Type} {computation : Reporting LoadEvent KernelData α}
    (only : Only (fun event => ¬event.Failed) computation) : IgnoresFailure computation :=
  ⟨leads_of_only only, writesOn_of_only only⟩

theorem IgnoresFailure.andThen {α β : Type} {first : Reporting LoadEvent KernelData α}
    {rest : α → Reporting LoadEvent KernelData β} (ignores : IgnoresFailure first)
    (later : ∀ value, IgnoresFailure (rest value)) : IgnoresFailure (first >>= rest) :=
  ⟨ignores.1.andThen fun value => (later value).1, ignores.2.andThen fun value => (later value).2⟩

theorem headerRound_ignores (steps : Nat) (data phdr : Word) :
    IgnoresFailure (headerRound steps data phdr) := by
  refine (ignores_of_only (report_unfailed ?_)).andThen fun _ => ?_
  · rintro ⟨_, impossible⟩
    cases impossible
  refine (ignores_of_only (only_perform _)).andThen fun pType => ?_
  split
  · exact ignores_of_only (only_pure _)
  · exact ⟨loadSegment_readsNull steps data phdr, loadSegment_writesOn steps data phdr⟩

theorem headerLoop_ignores (steps : Nat) (data last : Word) (rounds : Nat) :
    ∀ phdr, IgnoresFailure (headerLoop steps data last rounds phdr) := by
  induction rounds with
  | zero => exact fun _ => ignores_of_only only_stop
  | succ rounds ih =>
    intro phdr
    rw [headerLoop]
    split
    · exact (headerRound_ignores steps data phdr).andThen fun _ => ih _
    · exact ignores_of_only (only_pure _)

/-- `elf_load` handles no failed request: it reads the null page, and if it returns it has cleared
and copied a segment after that. -/
theorem failure_ignored (steps rounds : Nat) (data : Word) (machine : Kernel) (address : Word)
    (failed : LoadEvent.request address (some .null) ∈ (elfLoad steps rounds data machine).events) :
    ¬HandlesFailure (elfLoad steps rounds data machine).events ∧
      LoadEvent.readData .null ∈ (elfLoad steps rounds data machine).events ∧
      WritesOn address (elfLoad steps rounds data machine) := by
  have ignores : IgnoresFailure (elfLoad steps rounds data) :=
    (ignores_of_only (only_perform _)).andThen fun ehdr => headerLoop_ignores _ _ _ _ _
  obtain ⟨_, read, rfl⟩ := ignores.1 machine _ failed ⟨address, rfl⟩
  exact ⟨fun handles => handles.noNull read, read, ignores.2 machine address failed⟩

/-- A segment in a two-megabyte page, with no other header to load. -/
theorem failure_ignored_covered :
    (elfLoad 2 57 0x6000 (loaderKernel 1 1 0x100000 16)).result.isSome = true ∧
      ¬HandlesFailure (elfLoad 2 57 0x6000 (loaderKernel 1 1 0x100000 16)).events ∧
      WritesOn 0x100000 (elfLoad 2 57 0x6000 (loaderKernel 1 1 0x100000 16)) := by
  have ignored := failure_ignored 2 57 0x6000 (loaderKernel 1 1 0x100000 16) 0x100000 (by decide +kernel)
  exact ⟨by decide +kernel, ignored.1, ignored.2.2⟩

/-- The request fails, the null page is read, and the segment is cleared and copied. -/
theorem failure_not_handled :
    (elfLoad 2 1 0x6000 (loaderKernel 1 1 0x100000 16)).events =
      [.header 0x6040, .field 0x6068 16, .field 0x6050 0x100000, .request 0x100000 (some .null),
        .readData .null, .field 0x6050 0x100000, .field 0x6050 0x100000, .field 0x6068 16,
        .memset 0x100000 16, .field 0x6050 0x100000, .field 0x6048 0, .field 0x6060 0,
        .memcpy 0x100000 0x6000 0] := by
  decide +kernel

end Osdev64
