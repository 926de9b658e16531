/-
The loader as a run of the abstract address space.

Requesting, clearing and copying are steps of the space the machine hosts, and
the headers are read from the image, which none of these steps changes.  So a
round of `elf_load` either loads one more segment or ends in a page fault because
a byte of the segment has no page.
-/

import Osdev64.ElfRequest

namespace Osdev64

open Word64 Bytes Paging Reporting

/-- The machine hosts the space and has at least `room` free pages. -/
def Hosted (layout : Layout) (spare : Nat → Content) (machine : Kernel) (space : Space) (room : Nat) :
    Prop :=
  ∃ home free used, Hosts layout spare machine space home free used ∧ room ≤ free.length

/-- With `reaches` the outcome has the space `space`, and otherwise it is a page fault. -/
def Yields (layout : Layout) (spare : Nat → Content) (room : Nat) (outcome : Option (Unit × Kernel))
    (reaches : Prop) (space : Space) : Prop :=
  (reaches ∧ ∃ machine', outcome = some ((), machine') ∧ Hosted layout spare machine' space room) ∨
  (¬reaches ∧ outcome = none)

variable {layout : Layout} {spare : Nat → Content} {machine : Kernel} {space space' : Space}
  {room place : Nat} {reaches reaches' : Prop} {outcome : Option (Unit × Kernel)}

theorem Yields.iff (yields : Yields layout spare room outcome reaches space)
    (same : reaches ↔ reaches') : Yields layout spare room outcome reaches' space := by
  unfold Yields at yields ⊢
  rw [← same]
  exact yields

theorem Yields.andThen {rest : Kernel → Option (Unit × Kernel)}
    (first : Yields layout spare room outcome reaches space)
    (second : ∀ machine', Hosted layout spare machine' space room →
      Yields layout spare room (rest machine') reaches' space') :
    Yields layout spare room (outcome.bind fun returned => rest returned.2) (reaches ∧ reaches')
      space' := by
  rcases first with ⟨reached, machine', rfl, hosted⟩ | ⟨missed, rfl⟩
  · rcases second machine' hosted with ⟨reached', ran'⟩ | ⟨missed, faulted⟩
    · exact Or.inl ⟨⟨reached, reached'⟩, ran'⟩
    · exact Or.inr ⟨fun both => missed both.2, faulted⟩
  · exact Or.inr ⟨fun both => missed both.1, rfl⟩

/-! ### Requests -/

/-- The space with the pages requested. -/
def Space.renew (space : Space) (pages : List Nat) (leftover : Nat → Content) : Space := fun page =>
  if page ∈ pages then some (leftover page) else space page

theorem Space.renew_cons (space : Space) (first : Nat) (pages : List Nat) (content : Content)
    (leftover : Nat → Content) :
    space.renew (first :: pages) (fun page => if page ∈ pages then leftover page else content) =
      Space.renew (Function.update space first (some content)) pages leftover := by
  funext page
  simp only [Space.renew]
  by_cases later : page ∈ pages
  · rw [if_pos (List.mem_cons_of_mem _ later), if_pos later, if_pos later]
  · rw [if_neg later, if_neg later]
    by_cases here : page = first
    · subst here
      rw [if_pos List.mem_cons_self, Function.update_self]
    · rw [if_neg (by simp [here, later]), Function.update_of_ne here]

/-! ### Stores -/

/-- The bytes of the space from `start` on are mapped. -/
def Space.MapsFrom (space : Space) (start count : Nat) : Prop :=
  ∀ x < count, space ((start + x) / 4096) ≠ none

theorem Space.mapsFrom_fill (space : Space) (start size : Nat) (wanted : Nat → Byte) (start' count : Nat) :
    (space.fill start size wanted).MapsFrom start' count ↔ space.MapsFrom start' count := by
  unfold Space.MapsFrom
  simp only [ne_eq, Space.fill_eq_none_iff]

theorem Space.mapsFrom_succ (space : Space) (start count : Nat) :
    space.MapsFrom start (count + 1) ↔ space (start / 4096) ≠ none ∧ space.MapsFrom (start + 1) count := by
  unfold Space.MapsFrom
  constructor
  · intro mapped
    refine ⟨mapped 0 (by omega), ?_⟩
    intro x below
    have next := mapped (x + 1) (by omega)
    rwa [← Nat.add_assoc, Nat.add_right_comm] at next
  · intro ⟨first, mapped⟩ x below
    cases x with
    | zero => exact first
    | succ x =>
      have next := mapped x (by omega)
      rwa [Nat.add_right_comm] at next

private theorem ofNat_succ (start : Nat) :
    BitVec.ofNat 64 start + 1 = BitVec.ofNat 64 (start + 1) := (BitVec.ofNat_add start 1).symm

theorem Hosted.writeByte (hosted : Hosted layout spare machine space room) {start : Nat}
    (fits : start < 2 ^ 64) (inArea : layout.area (start / 4096)) (byte : Byte) :
    Yields layout spare room ((Prog.writeByte (BitVec.ofNat 64 start) byte).run machine)
      (space (start / 4096) ≠ none) (space.fill start 1 fun _ => byte) := by
  obtain ⟨home, free, used, hosts, enough⟩ := hosted
  have exact' : (BitVec.ofNat 64 start).toNat = start := by
    rw [BitVec.toNat_ofNat, Nat.mod_eq_of_lt fits]
  rw [← exact'] at inArea
  by_cases mapped : space (start / 4096) = none
  · refine Or.inr ⟨not_not.mpr mapped, hosts.write_fault inArea ?_ byte⟩
    rw [exact', mapped]
  · rw [← exact'] at mapped
    obtain ⟨machine', ran, hosts'⟩ := hosts.write inArea mapped byte
    rw [exact'] at mapped hosts'
    exact Or.inl ⟨mapped, machine', ran, home, free, used, hosts', enough⟩

theorem Hosted.stores (loop : Nat → Nat → Prog KernelData Unit) (wanted : Nat → Byte)
    {start total : Nat} (ends : ∀ x, loop 0 x = pure ())
    (step : ∀ count x machine space, x + (count + 1) = total → Hosted layout spare machine space room →
      (loop (count + 1) x).run machine =
        (Prog.writeByte (BitVec.ofNat 64 (start + x)) (wanted x) >>= fun _ => loop count (x + 1)).run machine)
    (fits : start + total ≤ 2 ^ 64) (inArea : ∀ x < total, layout.area ((start + x) / 4096))
    (count : Nat) :
    ∀ (x : Nat) (machine : Kernel) (space : Space), x + count = total →
      Hosted layout spare machine space room →
      Yields layout spare room ((loop count x).run machine) (space.MapsFrom (start + x) count)
        (space.fill (start + x) count fun k => wanted (x + k)) := by
  induction count with
  | zero =>
    intro x machine space _ hosted
    rw [Space.fill_zero, ends]
    exact Or.inl ⟨fun k below => absurd below (Nat.not_lt_zero k), machine, rfl, hosted⟩
  | succ count ih =>
    intro x machine space place hosted
    have written := hosted.writeByte (by omega) (inArea x (by omega)) (wanted x)
    have both := written.andThen fun machine' hosted' =>
      (ih (x + 1) machine' _ (by omega) hosted').iff (Space.mapsFrom_fill ..)
    rw [step count x machine space place hosted, Prog.run_andThen, Space.fill_succ, Space.mapsFrom_succ]
    simp only [Nat.add_zero, Nat.add_assoc, Nat.add_comm 1] at both ⊢
    exact both

theorem Hosted.memset (hosted : Hosted layout spare machine space room) (c : Byte) {count : Nat}
    {address : Word} (fits : address.toNat + count ≤ 2 ^ 64)
    (inArea : ∀ x < count, layout.area ((address.toNat + x) / 4096)) :
    Yields layout spare room ((memset c count address).run machine)
      (space.MapsFrom address.toNat count) (space.fill address.toNat count fun _ => c) := by
  have stored := Hosted.stores
    (fun count x => Osdev64.memset c count (BitVec.ofNat 64 (address.toNat + x))) (fun _ => c)
    (fun _ => rfl) (fun count x machine space _ _ => by rw [Osdev64.memset, ofNat_succ]; rfl)
    fits inArea count 0 machine space (Nat.zero_add count) hosted
  rw [Nat.add_zero, BitVec.ofNat_toNat, BitVec.setWidth_eq] at stored
  exact stored

theorem Layout.address_add (layout : Layout) (x count : Nat) :
    layout.address x + OfNat.ofNat count = layout.address (x + count) := by
  unfold Layout.address
  rw [BitVec.add_assoc, BitVec.ofNat_add]
  rfl

theorem Hosted.readImage (hosted : Hosted layout spare machine space room) {x : Nat}
    (inside : x < layout.size) :
    (Prog.readByte (layout.address x)).run machine = some (layout.image x, machine) := by
  obtain ⟨home, free, used, hosts, _⟩ := hosted
  exact hosts.readImage inside

theorem Hosted.memcpy (hosted : Hosted layout spare machine space room) {count source : Nat}
    {address : Word} (fits : address.toNat + count ≤ 2 ^ 64)
    (inArea : ∀ x < count, layout.area ((address.toNat + x) / 4096))
    (inside : source + count ≤ layout.size) :
    Yields layout spare room ((memcpy count address (layout.address source)).run machine)
      (space.MapsFrom address.toNat count)
      (space.fill address.toNat count fun x => layout.image (source + x)) := by
  have stored := Hosted.stores
    (fun count x => Osdev64.memcpy count (BitVec.ofNat 64 (address.toNat + x)) (layout.address (source + x)))
    (fun x => layout.image (source + x)) (fun _ => rfl) ?_ fits inArea count 0 machine space
    (Nat.zero_add count) hosted
  · simp only [Nat.add_zero, Nat.zero_add, BitVec.ofNat_toNat, BitVec.setWidth_eq] at stored
    exact stored
  · intro count x machine space place hosted
    rw [Osdev64.memcpy, Prog.run_andThen, hosted.readImage (by omega), Option.bind_some, ofNat_succ,
      layout.address_add (source + x) 1]
    rfl

/-! ### Headers -/

def elfPhoff (image : Memory) : Nat := value image 8 32

def elfPhnum (image : Memory) : Nat := value image 2 56

/-- `Elf64_Phdr`, apart from the fields `elf_load` does not read. -/
structure Phdr where
  pType : Nat
  pOffset : Word
  pVaddr : Word
  pFilesz : Word
  pMemsz : Word
  deriving DecidableEq

/-- The program header at a place of the image. -/
def elfPhdr (image : Memory) (place : Nat) : Phdr where
  pType := value image 4 place
  pOffset := BitVec.ofNat 64 (value image 8 (place + 8))
  pVaddr := BitVec.ofNat 64 (value image 8 (place + 16))
  pFilesz := BitVec.ofNat 64 (value image 8 (place + 32))
  pMemsz := BitVec.ofNat 64 (value image 8 (place + 40))

/-- The file bytes and then zeros. -/
def Phdr.segment (image : Memory) (phdr : Phdr) : Segment where
  start := phdr.pVaddr.toNat
  size := phdr.pMemsz.toNat
  wanted x := if x < phdr.pFilesz.toNat then image (phdr.pOffset.toNat + x) else 0

def elfHeader (image : Memory) (k : Nat) : Phdr := elfPhdr image (elfPhoff image + 56 * k)

/-- The segment of header `k` when it is to be loaded. -/
def elfSegment (image : Memory) (k : Nat) : Option Segment :=
  if (elfHeader image k).pType = 1 then some ((elfHeader image k).segment image) else none

theorem Hosted.readNumber (hosted : Hosted layout spare machine space room) (count : Nat) :
    ∀ place, place + count ≤ layout.size →
      (readNumber count (layout.address place)).run machine =
        some (value layout.image count place, machine) := by
  induction count with
  | zero =>
    intro place _
    rw [value_zero]
    rfl
  | succ count ih =>
    intro place inside
    rw [Osdev64.readNumber, Prog.run_andThen, hosted.readImage (by omega), Option.bind_some,
      Prog.run_andThen, layout.address_add place 1, ih (place + 1) (by omega), value_succ]
    rfl

theorem Hosted.readWord (hosted : Hosted layout spare machine space room) {place : Nat}
    (inside : place + 8 ≤ layout.size) :
    (readWord (layout.address place)).run machine =
      some (BitVec.ofNat 64 (value layout.image 8 place), machine) := by
  rw [Osdev64.readWord, Prog.run_andThen, hosted.readNumber 8 place inside]
  rfl

theorem Hosted.readField (hosted : Hosted layout spare machine space room) (offset : Nat)
    {rest : Word → Reporting LoadEvent KernelData Unit} (inside : place + offset + 8 ≤ layout.size) :
    ((Osdev64.readField (layout.address place + OfNat.ofNat offset) >>= rest) machine).result =
      (rest (BitVec.ofNat 64 (value layout.image 8 (place + offset))) machine).result := by
  have ran : (Osdev64.readField (layout.address place + OfNat.ofNat offset) machine).result =
      some (BitVec.ofNat 64 (value layout.image 8 (place + offset)), machine) := by
    unfold Osdev64.readField
    rw [layout.address_add place offset, result_perform (hosted.readWord inside)]
    rfl
  rw [result_andThen, ran, Option.bind_some]

section Fields

variable {rest : Word → Reporting LoadEvent KernelData Unit} (inside : place + 56 ≤ layout.size)
include inside

theorem Hosted.readVaddr (hosted : Hosted layout spare machine space room) :
    ((Osdev64.readField (layout.address place + 16) >>= rest) machine).result =
      (rest (elfPhdr layout.image place).pVaddr machine).result := hosted.readField 16 (by omega)

theorem Hosted.readMemsz (hosted : Hosted layout spare machine space room) :
    ((Osdev64.readField (layout.address place + 40) >>= rest) machine).result =
      (rest (elfPhdr layout.image place).pMemsz machine).result := hosted.readField 40 (by omega)

end Fields

/-! ### One segment -/

/-- The page requested in round `k` of the loop. -/
def stepPage (vaddr : Word) (k : Nat) : Nat := (vaddr + BitVec.ofNat 64 (k * 0x1000)).toNat / 4096

theorem mem_stepPages_iff (image : Memory) (phdr : Phdr) (page : Nat) :
    page ∈ (List.range' 0 (phdr.segment image).pages).map (stepPage phdr.pVaddr) ↔
      (phdr.segment image).Requests page := by
  have value (k : Nat) : stepPage phdr.pVaddr k = (phdr.pVaddr.toNat / 4096 + k) % 2 ^ 52 := by
    unfold stepPage
    rw [BitVec.toNat_add, BitVec.toNat_ofNat]
    omega
  unfold Segment.Requests
  simp only [List.mem_map, ← List.range_eq_range', List.mem_range, value, eq_comm (b := page)]
  rfl

theorem Space.renew_stepPages (space : Space) (image : Memory) (phdr : Phdr) (leftover : Nat → Content) :
    space.renew ((List.range' 0 (phdr.segment image).pages).map (stepPage phdr.pVaddr)) leftover =
      space.request (phdr.segment image) leftover := by
  funext page
  unfold Space.renew Space.request
  exact if_congr (mem_stepPages_iff image phdr page) rfl rfl

private theorem toNat_step {k : Nat} (inside : k * 0x1000 < 2 ^ 64) :
    (BitVec.ofNat 64 (k * 0x1000)).toNat = k * 0x1000 := by
  rw [BitVec.toNat_ofNat]
  omega

theorem Hosted.requestStep (sound : layout.Sound) (inside : place + 56 ≤ layout.size)
    (hosted : Hosted layout spare machine space (room + 4)) {i : Word}
    (going : ¬(elfPhdr layout.image place).pMemsz < i)
    (inArea : layout.area (((elfPhdr layout.image place).pVaddr + i).toNat / 4096)) :
    ∃ j middle, Hosted layout spare middle
        (Function.update space (((elfPhdr layout.image place).pVaddr + i).toNat / 4096) (some (spare j))) room ∧
      ∀ steps, (requestLoop (layout.address place) (steps + 1) i machine).result =
        (requestLoop (layout.address place) steps (i + 0x1000) middle).result := by
  obtain ⟨home, free, used, hosts, enough⟩ := hosted
  cases free with
  | nil =>
    rw [List.length_nil] at enough
    omega
  | cons j free =>
    rw [List.length_cons] at enough
    have hosted : Hosted layout spare machine space 0 := ⟨home, j :: free, used, hosts, Nat.zero_le _⟩
    obtain ⟨middle, count, used', few, ran, data, hosts'⟩ := hosts.request sound (by omega) inArea
    have hosted' : Hosted layout spare middle _ room := ⟨_, _, _, hosts', by rw [List.length_drop]; omega⟩
    refine ⟨j, middle, hosted', ?_⟩
    intro steps
    have loaded : (loadData (.elem j)).run middle =
        some (roundDown ((elfPhdr layout.image place).pVaddr + i) pageSize, middle) := by
      rw [loadData_real PagePtr.noConfusion, ← data]
      rfl
    rw [requestLoop, hosted.readMemsz inside, if_neg going, hosted.readVaddr inside, result_call ran,
      result_andThen]
    change ((perform (loadData (.elem j)) >>= _) middle).result = _
    rw [result_perform loaded, hosted'.readVaddr inside, if_neg (not_not.mpr rfl)]

/-- The loop over the pages of a segment, with a page and up to three tables for each. -/
theorem Hosted.requestLoop {kind : Content → Prop} (sound : layout.Sound) (kinds : ∀ i, kind (spare i))
    (inside : place + 56 ≤ layout.size)
    (small : (elfPhdr layout.image place).pMemsz.toNat < 2 ^ 64 - 0x1000) (left : Nat) :
    ∀ (k steps : Nat) (machine : Kernel) (space : Space),
      k + left = (elfPhdr layout.image place).pMemsz.toNat / 0x1000 + 1 → left < steps →
      Hosted layout spare machine space (room + 4 * left) →
      (∀ j ∈ List.range' k left, layout.area (stepPage (elfPhdr layout.image place).pVaddr j)) →
      ∃ machine' leftover,
        (requestLoop (layout.address place) steps (BitVec.ofNat 64 (k * 0x1000)) machine).result =
          some ((), machine') ∧
        (∀ page, kind (leftover page)) ∧
        Hosted layout spare machine' (space.renew
          ((List.range' k left).map (stepPage (elfPhdr layout.image place).pVaddr)) leftover) room := by
  induction left with
  | zero =>
    intro k steps machine space total enough hosted _
    obtain ⟨steps, rfl⟩ := Nat.exists_eq_succ_of_ne_zero (Nat.ne_of_gt enough)
    have past : (elfPhdr layout.image place).pMemsz < BitVec.ofNat 64 (k * 0x1000) := by
      rw [BitVec.lt_def, toNat_step (by omega)]
      omega
    refine ⟨machine, fun _ => spare 0, ?_, fun _ => kinds 0, ?_⟩
    · rw [Osdev64.requestLoop, hosted.readMemsz inside, if_pos past]
      rfl
    · have same : space.renew [] (fun _ => spare 0) = space := by
        funext page
        exact if_neg List.not_mem_nil
      rw [List.range'_zero, List.map_nil, same]
      exact hosted
  | succ left ih =>
    intro k steps machine space total enough hosted inArea
    obtain ⟨steps, rfl⟩ := Nat.exists_eq_succ_of_ne_zero (Nat.ne_of_gt (Nat.lt_of_le_of_lt (Nat.zero_le _) enough))
    have going : ¬(elfPhdr layout.image place).pMemsz < BitVec.ofNat 64 (k * 0x1000) := by
      rw [BitVec.lt_def, toNat_step (by omega)]
      omega
    have next : BitVec.ofNat 64 (k * 0x1000) + 0x1000 = BitVec.ofNat 64 ((k + 1) * 0x1000) := by
      rw [Nat.succ_mul, BitVec.ofNat_add]
      rfl
    rw [List.range'_succ] at inArea ⊢
    obtain ⟨j, middle, hosted', step⟩ :=
      Hosted.requestStep sound inside hosted going (inArea k List.mem_cons_self)
    obtain ⟨machine', leftover, ran, kept, hosted''⟩ := ih (k + 1) steps middle _ (by omega) (by omega)
      hosted' fun j member => inArea j (List.mem_cons_of_mem _ member)
    rw [← Space.renew_cons] at hosted''
    refine ⟨machine', _, ?_, ?_, hosted''⟩
    · rw [step steps, next]
      exact ran
    · intro page
      split_ifs with later
      · exact kept page
      · exact kinds j

theorem Space.reaches_iff (space : Space) (segment : Segment) :
    space.Reaches segment ↔ space.MapsFrom segment.start segment.size := by
  constructor
  · intro reaches x below
    exact reaches _ ⟨by omega, by omega⟩
  · intro mapped address ⟨low, high⟩
    have here := mapped (address - segment.start) (by omega)
    rwa [Nat.add_sub_cancel' low] at here

/-- The segment of a header is in the image and in the area. -/
structure Phdr.Fits (phdr : Phdr) (layout : Layout) : Prop where
  filesz_le : phdr.pFilesz.toNat ≤ phdr.pMemsz.toNat
  inImage : phdr.pOffset.toNat + phdr.pFilesz.toNat ≤ layout.size
  noWrap : phdr.pVaddr.toNat + phdr.pMemsz.toNat ≤ 2 ^ 64
  requested : ∀ page, (phdr.segment layout.image).Requests page → layout.area page
  covered : ∀ address, (phdr.segment layout.image).Covers address → layout.area (address / 4096)

/-- A segment of nearly all of the address space would have a page that is not canonical. -/
theorem Phdr.Fits.small {phdr : Phdr} (sound : layout.Sound) (fits : phdr.Fits layout) :
    phdr.pMemsz.toNat < 2 ^ 64 - 0x1000 := by
  by_contra large
  have all : (phdr.segment layout.image).Requests (2 ^ 35) := by
    refine ⟨(2 ^ 35 + (2 ^ 52 - phdr.pVaddr.toNat / 4096)) % 2 ^ 52, ?_, ?_⟩
    · change _ < phdr.pMemsz.toNat / 4096 + 1
      omega
    · change 2 ^ 35 = (phdr.pVaddr.toNat / 4096 + _) % 2 ^ 52
      have bound := phdr.pVaddr.isLt
      omega
  exact absurd (sound.isCanonical _ (fits.requested _ all)) (by decide)

section Segment

variable (inside : place + 56 ≤ layout.size) (fits : (elfPhdr layout.image place).Fits layout)

include fits

theorem Phdr.Fits.inArea {x : Nat} (below : x < (elfPhdr layout.image place).pMemsz.toNat) :
    layout.area (((elfPhdr layout.image place).pVaddr.toNat + x) / 4096) :=
  fits.covered _ ⟨Nat.le_add_right _ _, Nat.add_lt_add_left below _⟩

include inside

theorem Hosted.clearSegment (hosted : Hosted layout spare machine space room) :
    Yields layout spare room (clearSegment (layout.address place) machine).result
      (space.MapsFrom (elfPhdr layout.image place).pVaddr.toNat (elfPhdr layout.image place).pMemsz.toNat)
      (space.fill (elfPhdr layout.image place).pVaddr.toNat (elfPhdr layout.image place).pMemsz.toNat
        fun _ => 0) := by
  have cleared := hosted.memset 0 fits.noWrap fun x below => fits.inArea below
  rw [Osdev64.clearSegment, hosted.readVaddr inside, hosted.readMemsz inside, result_andThen]
  exact cleared

theorem Hosted.copySegment (hosted : Hosted layout spare machine space room) :
    Yields layout spare room (copySegment layout.data (layout.address place) machine).result
      (space.MapsFrom (elfPhdr layout.image place).pVaddr.toNat (elfPhdr layout.image place).pFilesz.toNat)
      (space.fill (elfPhdr layout.image place).pVaddr.toNat (elfPhdr layout.image place).pFilesz.toNat
        fun x => layout.image ((elfPhdr layout.image place).pOffset.toNat + x)) := by
  have le := fits.filesz_le
  have noWrap := fits.noWrap
  have copied := hosted.memcpy (by omega) (fun x below => fits.inArea (Nat.lt_of_lt_of_le below le))
    fits.inImage
  have source : layout.address (elfPhdr layout.image place).pOffset.toNat =
      layout.data + (elfPhdr layout.image place).pOffset := by
    unfold Layout.address
    rw [BitVec.ofNat_toNat, BitVec.setWidth_eq]
  rw [source] at copied
  rw [Osdev64.copySegment, hosted.readVaddr inside, hosted.readField 8 (by omega),
    hosted.readField 32 (by omega), result_andThen]
  exact copied

theorem Hosted.loadSegment {kind : Content → Prop} (sound : layout.Sound) (kinds : ∀ i, kind (spare i))
    {steps : Nat} (enough : 2 ^ 52 < steps)
    (hosted : Hosted layout spare machine space
      (room + 4 * ((elfPhdr layout.image place).segment layout.image).pages)) :
    ∃ leftover, (∀ page, kind (leftover page)) ∧
      Yields layout spare room (loadSegment steps layout.data (layout.address place) machine).result
        ((space.request ((elfPhdr layout.image place).segment layout.image) leftover).Reaches
          ((elfPhdr layout.image place).segment layout.image))
        (space.load ((elfPhdr layout.image place).segment layout.image) leftover) := by
  have small := fits.small sound
  have few : ((elfPhdr layout.image place).segment layout.image).pages < steps := by
    change (elfPhdr layout.image place).pMemsz.toNat / 4096 + 1 < steps
    omega
  have inArea : ∀ j ∈ List.range' 0 ((elfPhdr layout.image place).segment layout.image).pages,
      layout.area (stepPage (elfPhdr layout.image place).pVaddr j) := by
    intro j member
    exact fits.requested _ ((mem_stepPages_iff layout.image _ _).mp (List.mem_map_of_mem member))
  obtain ⟨middle, leftover, requested, kept, hosted'⟩ := Hosted.requestLoop sound kinds inside small
    ((elfPhdr layout.image place).segment layout.image).pages 0 steps machine space (Nat.zero_add _) few
    hosted inArea
  rw [Space.renew_stepPages space layout.image] at hosted'
  have loaded := (hosted'.clearSegment inside fits).andThen fun machine' hosted'' =>
    hosted''.copySegment inside fits
  rw [Space.fill_fill fits.filesz_le] at loaded
  refine ⟨leftover, kept, ?_⟩
  rw [Osdev64.loadSegment, result_andThen]
  change Yields layout spare room (Option.bind (Osdev64.requestLoop _ _ (BitVec.ofNat 64 (0 * 0x1000)) _).result
    _) _ _
  rw [requested, Option.bind_some, result_andThen]
  refine Yields.iff loaded ?_
  rw [Space.reaches_iff, Space.mapsFrom_fill]
  constructor
  · exact fun both => both.1
  · exact fun mapped => ⟨mapped, fun x below => mapped x (Nat.lt_of_lt_of_le below fits.filesz_le)⟩

end Segment

/-! ### All rounds -/

/-- The loader up to the end of round `count`. -/
def elfRounds (steps : Nat) (data : Word) (count : Nat) : Reporting LoadEvent KernelData Unit := do
  let ePhoff ← perform (readWord (data + 32))
  headerRounds steps data count (data + ePhoff)

/-- The image has the headers and the file bytes that it counts. -/
structure ImageFits (layout : Layout) : Prop where
  header : 64 ≤ layout.size
  table : elfPhoff layout.image + 56 * elfPhnum layout.image ≤ layout.size
  segments : ∀ k < elfPhnum layout.image, (elfHeader layout.image k).pType = 1 →
    (elfHeader layout.image k).Fits layout

/-- The pages requested in `count` rounds from header `k` on. -/
def requestedPages (image : Memory) (k count : Nat) : Nat :=
  ((List.range' k count).map fun j => (elfSegment image j).elim 0 Segment.pages).sum

theorem requestedPages_succ (image : Memory) (k count : Nat) :
    requestedPages image k (count + 1) =
      (elfSegment image k).elim 0 Segment.pages + requestedPages image (k + 1) count := by
  unfold requestedPages
  rw [List.range'_succ, List.map_cons, List.sum_cons]

section Rounds

variable {steps : Nat}

theorem Hosted.headerRound (hosted : Hosted layout spare machine space room)
    (inside : place + 56 ≤ layout.size) :
    (headerRound steps layout.data (layout.address place) machine).result =
      if (elfPhdr layout.image place).pType ≠ 1 then some ((), machine)
      else (Osdev64.loadSegment steps layout.data (layout.address place) machine).result := by
  rw [Osdev64.headerRound, result_andThen]
  change ((perform (Osdev64.readNumber 4 (layout.address place)) >>= _) machine).result = _
  rw [result_perform (hosted.readNumber 4 place (by omega))]
  change ((if (elfPhdr layout.image place).pType ≠ 1 then _ else _ : Reporting LoadEvent KernelData Unit)
    machine).result = _
  split <;> rfl

theorem Hosted.round_skip (hosted : Hosted layout spare machine space room)
    (inside : place + 56 ≤ layout.size) (skipped : (elfPhdr layout.image place).pType ≠ 1) (count : Nat) :
    (headerRounds steps layout.data (count + 1) (layout.address place) machine).result =
      (headerRounds steps layout.data count (layout.address (place + 56)) machine).result := by
  rw [headerRounds, result_andThen, hosted.headerRound inside, if_pos skipped, Option.bind_some, phdrSize,
    layout.address_add place 56]

theorem Hosted.round_load (hosted : Hosted layout spare machine space room)
    (inside : place + 56 ≤ layout.size) (loadable : (elfPhdr layout.image place).pType = 1) (count : Nat) :
    (headerRounds steps layout.data (count + 1) (layout.address place) machine).result =
      (Osdev64.loadSegment steps layout.data (layout.address place) machine).result.bind fun returned =>
        (headerRounds steps layout.data count (layout.address (place + 56)) returned.2).result := by
  rw [headerRounds, result_andThen, hosted.headerRound inside, if_neg (not_not.mpr loadable), phdrSize,
    layout.address_add place 56]

/-- The outcome is that of the abstract loader at the end of round `count`, or a page fault when a
byte of a segment has no page. -/
def LoadsOrFaults (layout : Layout) (spare : Nat → Content) (kind : Content → Prop) (before : Space)
    (room : Nat) (outcome : Option (Unit × Kernel)) (count : Nat) : Prop :=
  (∃ machine' space, outcome = some ((), machine') ∧
    Hosted layout spare machine' space room ∧ LoadsTo (elfSegment layout.image) kind before count space) ∨
  (outcome = none ∧ ¬PagesCovered (elfSegment layout.image) before (elfPhnum layout.image))

/-- Each round is a step of the abstract loader, or a page fault that it has as well. -/
theorem Hosted.headerRounds {kind : Content → Prop} {before : Space} (sound : layout.Sound)
    (kinds : ∀ i, kind (spare i)) (fits : ImageFits layout) (enough : 2 ^ 52 < steps) (count : Nat) :
    ∀ (k : Nat) (machine : Kernel) (space : Space), k + count ≤ elfPhnum layout.image →
      Hosted layout spare machine space (room + 4 * requestedPages layout.image k count) →
      LoadsTo (elfSegment layout.image) kind before k space →
      LoadsOrFaults layout spare kind before room (headerRounds steps layout.data count
        (layout.address (elfPhoff layout.image + 56 * k)) machine).result (k + count) := by
  induction count with
  | zero =>
    intro k machine space _ hosted loads
    exact Or.inl ⟨machine, space, rfl, hosted, loads⟩
  | succ count ih =>
    intro k machine space below hosted loads
    have inside : elfPhoff layout.image + 56 * k + 56 ≤ layout.size := by
      have table := fits.table
      omega
    have next (machine' : Kernel) (space' : Space)
        (hosted' : Hosted layout spare machine' space'
          (room + 4 * requestedPages layout.image (k + 1) count))
        (loads' : LoadsTo (elfSegment layout.image) kind before (k + 1) space') :
        LoadsOrFaults layout spare kind before room (Osdev64.headerRounds steps layout.data count
          (layout.address (elfPhoff layout.image + 56 * k + 56)) machine').result (k + (count + 1)) := by
      rw [Nat.add_comm count, ← Nat.add_assoc]
      exact ih (k + 1) machine' space' (by omega) hosted' loads'
    rw [requestedPages_succ] at hosted
    by_cases loadable : (elfHeader layout.image k).pType = 1
    · have found : elfSegment layout.image k = some ((elfHeader layout.image k).segment layout.image) :=
        if_pos loadable
      rw [hosted.round_load inside loadable]
      rw [found, Option.elim_some, Nat.mul_add, Nat.add_comm (4 * _), ← Nat.add_assoc] at hosted
      obtain ⟨leftover, kept, yields⟩ := Hosted.loadSegment inside
        (fits.segments k (by omega) loadable) sound kinds enough hosted
      rcases yields with ⟨reaches, machine', ran, hosted'⟩ | ⟨missed, faulted⟩
      · rw [ran, Option.bind_some]
        exact next machine' _ hosted' (loads.load found leftover kept reaches)
      · rw [faulted]
        exact Or.inr ⟨rfl, fun covered => missed (loads.reaches covered (by omega) found leftover)⟩
    · have absent : elfSegment layout.image k = none := if_neg loadable
      rw [hosted.round_skip inside loadable]
      rw [absent, Option.elim_none, Nat.zero_add] at hosted
      exact next machine space hosted (loads.skip absent)

theorem Hosted.elfRounds (kind : Content → Prop) (sound : layout.Sound) (kinds : ∀ i, kind (spare i))
    (fits : ImageFits layout) (enough : 2 ^ 52 < steps) {count : Nat} (le : count ≤ elfPhnum layout.image)
    (hosted : Hosted layout spare machine space (room + 4 * requestedPages layout.image 0 count)) :
    LoadsOrFaults layout spare kind space room (elfRounds steps layout.data count machine).result count := by
  have ran := Hosted.headerRounds sound kinds fits enough count 0 machine space (by omega) hosted .start
  have header := fits.header
  rw [Osdev64.elfRounds]
  change LoadsOrFaults layout spare kind space room
    ((perform (Osdev64.readWord (layout.address 32)) >>= _) machine).result count
  rw [result_perform (hosted.readWord (by omega))]
  rw [Nat.zero_add] at ran
  exact ran

end Rounds

end Osdev64
