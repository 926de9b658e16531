/-
The kernel loader of `src/boot/elf64.asm`, as `long_mode` calls it.

The loader walks the program headers of the image at `data`.  A header with file
bytes is copied to its physical address, whatever its type; the first header
without any has `memsz` quadwords cleared at its virtual address and ends the
walk.  The loader's stack lies at `0xA000`, inside the memory the image is read
to.
-/

import Osdev64.Lib.Bytes

namespace Osdev64

open Word64 Bytes

/-- The label `data`, the end of the bootloader. -/
def dataLabel : Nat := 0x8000

/-- The physical end of the loader's stack. -/
def stackTop : Nat := 0xA000

def load64 (translation : Translation) (memory : Memory) (address : Word) : Option Word :=
  (load translation memory 8 address).map (BitVec.ofNat 64)

def load16 (translation : Translation) (memory : Memory) (address : Word) : Option (BitVec 16) :=
  (load translation memory 2 address).map (BitVec.ofNat 16)

def push (translation : Translation) (memory : Memory) (rsp number : Word) : Option Memory :=
  store translation memory 8 (rsp - 8) number.toNat

def pop (translation : Translation) (memory : Memory) (rsp : Word) : Option Word :=
  load64 translation memory rsp

/-- The loop of `load_elf` with its two exits; `none` is a page fault, or no fuel left. -/
def loadElfLoop (translation : Translation) (rax rsp r9 : Word) : Nat → Word → Memory → Option Memory
  | 0, _, _ => none
  | fuel + 1, r8, memory =>
    if r8 = r9 then some memory
    else do
      let rcx ← load64 translation memory (rax + r8 + 32)
      let rdx ← load64 translation memory (rax + r8 + 8)
      if rcx = 0 then do
        -- .bss, which falls into .done
        let rcx ← load64 translation memory (rax + r8 + 40)
        let rdi ← load64 translation memory (rax + r8 + 16)
        let memory ← push translation memory rsp rax
        let memory ← repStosq translation 0 rcx.toNat rdi memory
        let _ ← pop translation memory (rsp - 8)
        pure memory
      else do
        let rdi ← load64 translation memory (rax + r8 + 24)
        let memory ← repMovsb translation rcx.toNat rdi (rax + rdx) memory
        loadElfLoop translation rax rsp r9 fuel (r8 + 56) memory

/-- The address `load_elf` calls, and memory when it does.  `mul cx` leaves the low
sixteen bits of the product in `ax`. -/
def loadElf (translation : Translation) (fuel : Nat) (rdi rsp returnTo : Word) (memory : Memory) :
    Option (Word × Memory) := do
  let memory ← push translation memory rsp rdi
  let r8 ← load64 translation memory (rdi + 32)
  let ax ← load16 translation memory (rdi + 54)
  let cx ← load16 translation memory (rdi + 56)
  let r9 := (ax * cx).setWidth 64 + r8
  let memory ← loadElfLoop translation rdi (rsp - 8) r9 fuel r8 memory
  let rdi ← pop translation memory (rsp - 8)
  let rax ← load64 translation memory (rdi + 24)
  let memory ← push translation memory rsp returnTo
  pure (rax, memory)

/-- `long_mode`: the address it enters the kernel at, and memory at that moment.  The two
return addresses are those of its own call and of the call of the kernel. -/
def longMode (translation : Translation) (fuel : Nat) (halt returnTo : Word) (memory : Memory) :
    Option (Word × Memory) := do
  let rsp : Word := 0xFFFFFFFF8000A000
  let memory ← push translation memory rsp halt
  loadElf translation fuel (BitVec.ofNat 64 dataLabel) (rsp - 8) returnTo memory

/-! ### The image -/

structure BootPhdr where
  type : BitVec 32
  offset : Word
  vaddr : Word
  paddr : Word
  filesz : Word
  memsz : Word
  deriving DecidableEq

def field64 (memory : Memory) (offset : Nat) : Word :=
  BitVec.ofNat 64 (value memory 8 (dataLabel + offset))

def imagePhoff (memory : Memory) : Nat := value memory 8 (dataLabel + 32)

def imagePhnum (memory : Memory) : Nat := value memory 2 (dataLabel + 56)

/-- A program header of the image in memory. -/
def imagePhdr (memory : Memory) (i : Nat) : BootPhdr :=
  let place := imagePhoff memory + 56 * i
  { type := BitVec.ofNat 32 (value memory 4 (dataLabel + place))
    offset := field64 memory (place + 8)
    vaddr := field64 memory (place + 16)
    paddr := field64 memory (place + 24)
    filesz := field64 memory (place + 32)
    memsz := field64 memory (place + 40) }

/-- A program header of type `PT_LOAD`. -/
structure IsSegment (memory : Memory) (i : Nat) : Prop where
  below : i < imagePhnum memory
  isLoad : (imagePhdr memory i).type = 1

/-- The physical place of a byte of a segment. -/
def segmentPlace (memory : Memory) (i x : Nat) : Nat := (imagePhdr memory i).paddr.toNat + x

/-- The byte of the file that belongs there. -/
def fileByte (memory : Memory) (i x : Nat) : Byte :=
  memory (dataLabel + (imagePhdr memory i).offset.toNat + x)

/-- The physical places of a segment. -/
def BootPhdr.Covers (header : BootPhdr) (place : Nat) : Prop :=
  header.paddr.toNat ≤ place ∧ place < header.paddr.toNat + header.memsz.toNat

/-- The walk comes to this header: every header before it has file bytes. -/
def ReachesHeader (memory : Memory) (i : Nat) : Prop := ∀ j < i, (imagePhdr memory j).filesz ≠ 0

/-- The walk ends at this header, behind which none is looked at. -/
structure StopsWalk (memory : Memory) (i : Nat) : Prop where
  below : i < imagePhnum memory
  empty : (imagePhdr memory i).filesz = 0
  reached : ReachesHeader memory i

/-- The physical places the file bytes of a header are copied to. -/
def BootPhdr.Fills (header : BootPhdr) (place : Nat) : Prop :=
  header.paddr.toNat ≤ place ∧ place < header.paddr.toNat + header.filesz.toNat

/-- One of the headers the walk copies fills the place. -/
def FileCopied (memory : Memory) (place : Nat) : Prop :=
  ∃ i < imagePhnum memory, ReachesHeader memory (i + 1) ∧ (imagePhdr memory i).Fills place

/-- The place is among the `memsz` quadwords of the header that ends the walk. -/
def BssCleared (translation : Translation) (memory : Memory) (place : Nat) : Prop :=
  ∃ i, StopsWalk memory i ∧
    Behind translation (imagePhdr memory i).vaddr (8 * (imagePhdr memory i).memsz.toNat) place

/-- The word `.bss` pushes. -/
def Spilled (memory : Memory) (place : Nat) : Prop :=
  (∃ i, StopsWalk memory i) ∧ stackTop - 24 ≤ place ∧ place < stackTop - 16

/-- The two words pushed before the walk: the return address of the call and `rdi`. -/
def OnEntryStack (place : Nat) : Prop := stackTop - 16 ≤ place ∧ place < stackTop

/-- The words `long_mode` and `load_elf` push. -/
def OnStack (memory : Memory) (place : Nat) : Prop := OnEntryStack place ∨ Spilled memory place

/-- An image of `size` bytes at `data` that the loader is meant for. -/
structure BootImage (translation : Translation) (memory : Memory) (size : Nat) : Prop where
  header : 64 ≤ size
  mapped : Maps translation (BitVec.ofNat 64 dataLabel) dataLabel size
  stack : Maps translation (0xFFFFFFFF8000A000 - 24) (stackTop - 24) 24
  phentsize : value memory 2 (dataLabel + 54) = 56
  phnum : imagePhnum memory * 56 < 65536
  table : imagePhoff memory + 56 * imagePhnum memory ≤ size
  sized : ∀ i, IsSegment memory i →
    (imagePhdr memory i).filesz.toNat ≤ (imagePhdr memory i).memsz.toNat ∧
      (imagePhdr memory i).offset.toNat + (imagePhdr memory i).filesz.toNat ≤ size
  ranges : ∀ i, IsSegment memory i →
    Maps translation (imagePhdr memory i).paddr (imagePhdr memory i).paddr.toNat
        (imagePhdr memory i).memsz.toNat ∧
      Maps translation (imagePhdr memory i).vaddr (imagePhdr memory i).paddr.toNat
        (imagePhdr memory i).memsz.toNat
  outside : ∀ i, IsSegment memory i → ∀ x < size, ¬(imagePhdr memory i).Covers (dataLabel + x)
  disjoint : ∀ i, IsSegment memory i → ∀ j, IsSegment memory j → i ≠ j →
    ∀ place, (imagePhdr memory i).Covers place → ¬(imagePhdr memory j).Covers place

/-- Every segment is in place, and nothing else was written but the loader's stack. -/
structure ImageLoaded (memory memory' : Memory) : Prop where
  copied : ∀ i, IsSegment memory i → ∀ x < (imagePhdr memory i).filesz.toNat,
    memory' (segmentPlace memory i x) = fileByte memory i x
  cleared : ∀ i, IsSegment memory i → ∀ x, (imagePhdr memory i).filesz.toNat ≤ x →
    x < (imagePhdr memory i).memsz.toNat → memory' (segmentPlace memory i x) = 0
  kept : ∀ place, (∀ i, IsSegment memory i → ¬(imagePhdr memory i).Covers place) →
    ¬OnStack memory place → memory' place = memory place

/-! ### The condition -/

/-- The bytes of a header the walk looks at. -/
def BootPhdr.Reads (header : BootPhdr) (x : Nat) : Prop :=
  8 ≤ x ∧ x < 16 ∨ 32 ≤ x ∧ x < 40 ∨
    if header.filesz = 0 then 16 ≤ x ∧ x < 24 ∨ 40 ≤ x ∧ x < 48 else 24 ≤ x ∧ x < 32

/-- The instructions from `.loop` to the call of the kernel; those of `.bss` only where it is come to. -/
def LiveCode (memory : Memory) (place : Nat) : Prop :=
  0x7E22 ≤ place ∧ place < 0x7E4A ∨ 0x7E5E ≤ place ∧ place < 0x7E68 ∨
    (∃ i, StopsWalk memory i) ∧ 0x7E4A ≤ place ∧ place < 0x7E5E

/-- The loader is not in its own way.  A header of another type that is copied repeats bytes of a
segment; what `.bss` clears is mapped; the words on the stack lie on no byte that is read, and what is
written lies neither on the saved `rdi` nor on the code and the page tables in use. -/
structure LoaderRoom (translation : Translation) (memory : Memory) : Prop where
  repeats : ∀ i < imagePhnum memory, ¬IsSegment memory i → ReachesHeader memory (i + 1) →
    ∃ j, IsSegment memory j ∧ ∃ skip,
      (imagePhdr memory i).offset.toNat = (imagePhdr memory j).offset.toNat + skip ∧
      (imagePhdr memory i).paddr.toNat = (imagePhdr memory j).paddr.toNat + skip ∧
      skip + (imagePhdr memory i).filesz.toNat ≤ (imagePhdr memory j).filesz.toNat
  clears : ∀ i, StopsWalk memory i →
    AllMapped translation (imagePhdr memory i).vaddr (8 * (imagePhdr memory i).memsz.toNat)
  headers : ∀ i < imagePhnum memory, ReachesHeader memory i → ∀ x, (imagePhdr memory i).Reads x →
    ¬OnEntryStack (dataLabel + (imagePhoff memory + 56 * i + x))
  files : ∀ i < imagePhnum memory, ReachesHeader memory (i + 1) →
    ∀ x < (imagePhdr memory i).filesz.toNat,
      ¬OnEntryStack (dataLabel + ((imagePhdr memory i).offset.toNat + x))
  saved : ∀ place, stackTop - 16 ≤ place → place < stackTop - 8 → ¬BssCleared translation memory place ∧
    ∀ i, IsSegment memory i → ¬(imagePhdr memory i).Covers place
  spilled : ∀ i, IsSegment memory i → ∀ place, (imagePhdr memory i).Covers place →
    Spilled memory place → BssCleared translation memory place
  live : ∀ place, FileCopied memory place ∨ BssCleared translation memory place →
    ¬LiveCode memory place ∧ ¬(0x3F1000 ≤ place ∧ place < 0x3F6000)

/-- What the walk copies and clears is right, byte by byte.  A file byte is copied by a header before
the end of the walk or was there when `load_elf` was called; a byte behind the file bytes is cleared or
was zero; and `.bss` clears nothing else but zeros. -/
structure BytesRight (translation : Translation) (memory called : Memory) : Prop where
  files : ∀ i, IsSegment memory i → ∀ x < (imagePhdr memory i).filesz.toNat,
    (BssCleared translation memory (segmentPlace memory i x) → fileByte memory i x = 0) ∧
      (BssCleared translation memory (segmentPlace memory i x) ∨
        FileCopied memory (segmentPlace memory i x) ∨
        called (segmentPlace memory i x) = fileByte memory i x)
  zeros : ∀ i, IsSegment memory i → ∀ x, (imagePhdr memory i).filesz.toNat ≤ x →
    x < (imagePhdr memory i).memsz.toNat →
      BssCleared translation memory (segmentPlace memory i x) ∨ called (segmentPlace memory i x) = 0
  rest : ∀ place, (∀ i, IsSegment memory i → ¬(imagePhdr memory i).Covers place) →
    ¬OnStack memory place → BssCleared translation memory place → memory place = 0

variable {translation : Translation} {memory memory' begun : Memory} {size i : Nat}

/-! ### What a copied header fills -/

private theorem LoaderRoom.within (room : LoaderRoom translation memory) (below : i < imagePhnum memory)
    (reached : ReachesHeader memory (i + 1)) :
    ∃ j, IsSegment memory j ∧ ∃ skip,
      (imagePhdr memory i).offset.toNat = (imagePhdr memory j).offset.toNat + skip ∧
      (imagePhdr memory i).paddr.toNat = (imagePhdr memory j).paddr.toNat + skip ∧
      skip + (imagePhdr memory i).filesz.toNat ≤ (imagePhdr memory j).filesz.toNat := by
  by_cases segment : IsSegment memory i
  · exact ⟨i, segment, 0, (Nat.add_zero _).symm, (Nat.add_zero _).symm, Nat.le_of_eq (Nat.zero_add _)⟩
  · exact room.repeats i below segment reached

theorem BootImage.covers {x : Nat} (image : BootImage translation memory size)
    (segment : IsSegment memory i) (inFile : x < (imagePhdr memory i).filesz.toNat) :
    (imagePhdr memory i).Covers (segmentPlace memory i x) := by
  have sized := (image.sized i segment).1
  unfold BootPhdr.Covers segmentPlace
  omega

theorem covers_place {x : Nat} (inSegment : x < (imagePhdr memory i).memsz.toNat) :
    (imagePhdr memory i).Covers (segmentPlace memory i x) :=
  ⟨Nat.le_add_right _ _, Nat.add_lt_add_left inSegment _⟩

section Copied

variable (image : BootImage translation memory size) (room : LoaderRoom translation memory)

include image room

private theorem FileCopied.segment {place : Nat} (copied : FileCopied memory place) :
    ∃ j, IsSegment memory j ∧ (imagePhdr memory j).Fills place ∧ (imagePhdr memory j).Covers place := by
  obtain ⟨i, below, reached, fills⟩ := copied
  obtain ⟨j, segment, skip, _, paddr, fits⟩ := room.within below reached
  have sized := (image.sized j segment).1
  refine ⟨j, segment, ?_⟩
  unfold BootPhdr.Covers
  unfold BootPhdr.Fills at fills ⊢
  omega

private theorem FileCopied.inFile {x : Nat} (segment : IsSegment memory i)
    (inSegment : x < (imagePhdr memory i).memsz.toNat)
    (copied : FileCopied memory (segmentPlace memory i x)) : x < (imagePhdr memory i).filesz.toNat := by
  obtain ⟨j, other, fills, covers⟩ := copied.segment image room
  have same : i = j := by
    by_contra different
    exact image.disjoint i segment j other different _ (covers_place inSegment) covers
  rw [← same] at fills
  unfold BootPhdr.Fills segmentPlace at fills
  omega

private theorem not_fileCopied_image {x : Nat} (inside : x < size) :
    ¬FileCopied memory (dataLabel + x) := by
  intro copied
  obtain ⟨j, segment, _, covers⟩ := copied.segment image room
  exact image.outside j segment x inside covers

end Copied

/-! ### One header -/

/-- The state of the walk before a header. -/
structure Walked (memory begun memory' : Memory) (i : Nat) : Prop where
  copied : ∀ k, IsSegment memory k → ∀ x < (imagePhdr memory k).filesz.toNat,
    (∃ j < i, (imagePhdr memory j).Fills (segmentPlace memory k x)) →
      memory' (segmentPlace memory k x) = fileByte memory k x
  kept : ∀ place, (∀ j < i, ¬(imagePhdr memory j).Fills place) → memory' place = begun place

/-- Nothing but the words on the stack changed before the walk. -/
def BegunFrom (memory begun : Memory) : Prop :=
  ∀ place, ¬OnEntryStack place → begun place = memory place

private theorem Walked.image {x : Nat} (image : BootImage translation memory size)
    (room : LoaderRoom translation memory) (start : BegunFrom memory begun)
    (walked : Walked memory begun memory' i) (upTo : i ≤ imagePhnum memory)
    (reached : ReachesHeader memory i) (inside : x < size)
    (offStack : ¬OnEntryStack (dataLabel + x)) : memory' (dataLabel + x) = memory (dataLabel + x) := by
  rw [walked.kept, start _ offStack]
  intro j before fills
  refine not_fileCopied_image image room inside ⟨j, by omega, ?_, fills⟩
  intro k earlier
  exact reached k (by omega)

theorem BootImage.read {offset count : Nat} {address : Word}
    (image : BootImage translation memory size) (inside : offset + count ≤ size)
    (here : address = BitVec.ofNat 64 dataLabel + BitVec.ofNat 64 offset) :
    load translation memory' count address = some (value memory' count (dataLabel + offset)) := by
  rw [here]
  apply load_of_maps
  exact (image.mapped.shift (by omega)).mono (by omega)

private theorem BootImage.readField {field : Nat} (image : BootImage translation memory size)
    (room : LoaderRoom translation memory) (start : BegunFrom memory begun)
    (walked : Walked memory begun memory' i) (below : i < imagePhnum memory)
    (reached : ReachesHeader memory i) (inField : field + 8 ≤ 56)
    (reads : ∀ x, field ≤ x → x < field + 8 → (imagePhdr memory i).Reads x) :
    load64 translation memory' (BitVec.ofNat 64 dataLabel +
        BitVec.ofNat 64 (imagePhoff memory + 56 * i) + BitVec.ofNat 64 field) =
      some (field64 memory (imagePhoff memory + 56 * i + field)) := by
  have table := image.table
  have address : (BitVec.ofNat 64 dataLabel + BitVec.ofNat 64 (imagePhoff memory + 56 * i) +
      BitVec.ofNat 64 field : Word) =
        BitVec.ofNat 64 dataLabel + BitVec.ofNat 64 (imagePhoff memory + 56 * i + field) := by
    rw [BitVec.add_assoc, ← BitVec.ofNat_add]
  have same : value memory' 8 (dataLabel + (imagePhoff memory + 56 * i + field)) =
      value memory 8 (dataLabel + (imagePhoff memory + 56 * i + field)) := by
    apply value_congr
    intro x inWord
    rw [Nat.add_assoc dataLabel, Nat.add_assoc _ field]
    apply walked.image image room start (by omega) reached (by omega)
    exact room.headers i below reached (field + x) (reads _ (by omega) (by omega))
  unfold load64
  rw [image.read (by omega) address, same]
  rfl

/-- Memory after the file bytes of a header were copied. -/
def copyHeader (header : BootPhdr) (memory : Memory) : Memory := fun place =>
  if header.paddr.toNat ≤ place ∧ place < header.paddr.toNat + header.filesz.toNat then
    memory (dataLabel + header.offset.toNat + (place - header.paddr.toNat))
  else memory place

private theorem copyHeader_of_fills {header : BootPhdr} {place : Nat} (fills : header.Fills place) :
    copyHeader header memory place =
      memory (dataLabel + header.offset.toNat + (place - header.paddr.toNat)) := if_pos fills

private theorem copyHeader_of_not_fills {header : BootPhdr} {place : Nat} (not : ¬header.Fills place) :
    copyHeader header memory place = memory place := if_neg not

private theorem BootImage.copy (image : BootImage translation memory size)
    (room : LoaderRoom translation memory) (below : i < imagePhnum memory)
    (reached : ReachesHeader memory (i + 1)) :
    repMovsb translation (imagePhdr memory i).filesz.toNat (imagePhdr memory i).paddr
        (BitVec.ofNat 64 dataLabel + (imagePhdr memory i).offset) memory' =
      some (copyHeader (imagePhdr memory i) memory') := by
  obtain ⟨j, other, skip, offset, paddr, fits⟩ := room.within below reached
  obtain ⟨sized, inImage⟩ := image.sized j other
  obtain ⟨mapped, _⟩ := image.ranges j other
  have source : Maps translation (BitVec.ofNat 64 dataLabel + (imagePhdr memory i).offset)
      (dataLabel + (imagePhdr memory i).offset.toNat) (imagePhdr memory i).filesz.toNat := by
    have shifted : Maps translation (BitVec.ofNat 64 dataLabel +
        BitVec.ofNat 64 (imagePhdr memory i).offset.toNat)
        (dataLabel + (imagePhdr memory i).offset.toNat) (size - (imagePhdr memory i).offset.toNat) :=
      image.mapped.shift (by omega)
    rw [BitVec.ofNat_toNat, BitVec.setWidth_eq] at shifted
    exact shifted.mono (by omega)
  have target : Maps translation (imagePhdr memory i).paddr (imagePhdr memory i).paddr.toNat
      (imagePhdr memory i).filesz.toNat := by
    have shifted : Maps translation ((imagePhdr memory j).paddr + BitVec.ofNat 64 skip)
        ((imagePhdr memory j).paddr.toNat + skip) ((imagePhdr memory j).memsz.toNat - skip) :=
      mapped.shift (by omega)
    have address : (imagePhdr memory i).paddr = (imagePhdr memory j).paddr + BitVec.ofNat 64 skip := by
      apply BitVec.eq_of_toNat_eq
      have bound := (imagePhdr memory i).paddr.isLt
      rw [BitVec.toNat_add, BitVec.toNat_ofNat, paddr]
      omega
    rw [← address, ← paddr] at shifted
    exact shifted.mono (by omega)
  have apart : dataLabel + (imagePhdr memory i).offset.toNat + (imagePhdr memory i).filesz.toNat ≤
        (imagePhdr memory i).paddr.toNat ∨
      (imagePhdr memory i).paddr.toNat + (imagePhdr memory i).filesz.toNat ≤
        dataLabel + (imagePhdr memory i).offset.toNat := by
    by_contra meet
    -- the later of the two starts would be in the image and in the segment
    have place := image.outside j other
      (max (dataLabel + (imagePhdr memory i).offset.toNat) (imagePhdr memory i).paddr.toNat - dataLabel)
      (by omega)
    apply place
    unfold BootPhdr.Covers
    omega
  exact repMovsb_of_maps source target apart

/-- Copying a header that repeats its segment keeps what was copied and adds the header's own. -/
private theorem Walked.copyHeader (image : BootImage translation memory size)
    (room : LoaderRoom translation memory) (start : BegunFrom memory begun)
    (walked : Walked memory begun memory' i) (below : i < imagePhnum memory)
    (reached : ReachesHeader memory (i + 1)) :
    Walked memory begun (Osdev64.copyHeader (imagePhdr memory i) memory') (i + 1) := by
  obtain ⟨j, other, skip, offset, paddr, fits⟩ := room.within below reached
  obtain ⟨sized, inImage⟩ := image.sized j other
  have before : ReachesHeader memory i := fun k earlier => reached k (by omega)
  refine ⟨?_, ?_⟩
  · intro k segment x inFile filled
    by_cases target : (imagePhdr memory i).Fills (segmentPlace memory k x)
    · -- segments are disjoint, so the header repeats this segment
      have coversJ : (imagePhdr memory j).Covers (segmentPlace memory k x) := by
        unfold BootPhdr.Fills at target
        unfold BootPhdr.Covers
        omega
      have same : k = j := by
        by_contra different
        exact image.disjoint k segment j other different _ (image.covers segment inFile) coversJ
      subst same
      rw [copyHeader_of_fills target]
      unfold BootPhdr.Fills segmentPlace at target
      have place : dataLabel + (imagePhdr memory i).offset.toNat +
          (segmentPlace memory k x - (imagePhdr memory i).paddr.toNat) =
            dataLabel + ((imagePhdr memory k).offset.toNat + x) := by
        unfold segmentPlace
        omega
      have read := room.files i below reached (x - skip) (by omega)
      have source : (imagePhdr memory i).offset.toNat + (x - skip) =
          (imagePhdr memory k).offset.toNat + x := by omega
      rw [source] at read
      rw [place, fileByte, Nat.add_assoc]
      exact walked.image image room start (by omega) before (by omega) read
    · obtain ⟨l, upTo, fills⟩ := filled
      rw [copyHeader_of_not_fills target]
      refine walked.copied k segment x inFile ⟨l, ?_, fills⟩
      by_contra late
      have same : l = i := by omega
      rw [same] at fills
      exact target fills
  · intro place unfilled
    rw [copyHeader_of_not_fills (unfilled i (Nat.lt_succ_self i))]
    exact walked.kept place fun k earlier => unfilled k (by omega)

/-! ### The end of the walk -/

/-- Memory when the loop is left. -/
structure WalkEnded (translation : Translation) (memory begun after : Memory) : Prop where
  cleared : ∀ place, BssCleared translation memory place → after place = 0
  copied : ∀ k, IsSegment memory k → ∀ x < (imagePhdr memory k).filesz.toNat,
    FileCopied memory (segmentPlace memory k x) → ¬BssCleared translation memory (segmentPlace memory k x) →
      ¬Spilled memory (segmentPlace memory k x) → after (segmentPlace memory k x) = fileByte memory k x
  kept : ∀ place, ¬FileCopied memory place → ¬BssCleared translation memory place →
    ¬Spilled memory place → after place = begun place

theorem StopsWalk.unique {i j : Nat} (here : StopsWalk memory i) (there : StopsWalk memory j) : i = j := by
  rcases Nat.lt_trichotomy i j with less | same | more
  · exact absurd here.empty (there.reached i less)
  · exact same
  · exact absurd there.empty (here.reached j more)

private theorem Walked.ended_last (walked : Walked memory begun memory' (imagePhnum memory))
    (reached : ReachesHeader memory (imagePhnum memory)) :
    WalkEnded translation memory begun memory' := by
  have noStop : ∀ i, ¬StopsWalk memory i := fun i stop => reached i stop.below stop.empty
  refine ⟨?_, ?_, ?_⟩
  · rintro place ⟨i, stop, _⟩
    exact absurd stop (noStop i)
  · rintro k segment x inFile ⟨i, below, _, fills⟩ _ _
    exact walked.copied k segment x inFile ⟨i, below, fills⟩
  · intro place uncopied _ _
    refine walked.kept place fun j before fills => uncopied ⟨j, before, ?_, fills⟩
    exact fun k earlier => reached k (by omega)

private theorem Walked.ended_stop {number : Nat} {after : Memory}
    (walked : Walked memory begun memory' i) (stop : StopsWalk memory i)
    (zeros : ∀ place, Behind translation (imagePhdr memory i).vaddr
      (8 * (imagePhdr memory i).memsz.toNat) place → after place = 0)
    (others : ∀ place, ¬Behind translation (imagePhdr memory i).vaddr
      (8 * (imagePhdr memory i).memsz.toNat) place →
        after place = put memory' 8 (stackTop - 24) number place) :
    WalkEnded translation memory begun after := by
  have unspilled : ∀ place, ¬BssCleared translation memory place → ¬Spilled memory place →
      after place = memory' place := by
    intro place uncleared offStack
    rw [others place fun behind => uncleared ⟨i, stop, behind⟩, put_of_outside]
    intro inWord
    refine offStack ⟨⟨i, stop⟩, inWord.1, ?_⟩
    unfold stackTop at inWord ⊢
    omega
  refine ⟨?_, ?_, ?_⟩
  · rintro place ⟨j, other, behind⟩
    rw [other.unique stop] at behind
    exact zeros place behind
  · rintro k segment x inFile ⟨j, belowJ, reachedJ, fills⟩ uncleared offStack
    rw [unspilled _ uncleared offStack]
    refine walked.copied k segment x inFile ⟨j, ?_, fills⟩
    by_contra late
    exact reachedJ i (by omega) stop.empty
  · intro place uncopied uncleared offStack
    rw [unspilled place uncleared offStack]
    refine walked.kept place fun j before fills => uncopied ⟨j, ?_, ?_, fills⟩
    · exact before.trans stop.below
    · exact fun k earlier => stop.reached k (by omega)

/-! ### The walk -/

private theorem BootImage.stackWord (image : BootImage translation memory size) {address : Word}
    {depth : Nat} (word : depth = 8 ∨ depth = 16 ∨ depth = 24)
    (here : address = 0xFFFFFFFF8000A000 - BitVec.ofNat 64 depth) :
    Maps translation address (stackTop - depth) 8 := by
  rw [here]
  rcases word with rfl | rfl | rfl
  · exact (image.stack.shift (show 16 ≤ 24 by decide)).mono (by decide)
  · exact (image.stack.shift (show 8 ≤ 24 by decide)).mono (by decide)
  · exact image.stack.mono (by decide)

private theorem BootImage.pushes (image : BootImage translation memory size) (number : Word)
    {rsp : Word} {depth : Nat} (word : depth = 8 ∨ depth = 16 ∨ depth = 24)
    (here : rsp - 8 = 0xFFFFFFFF8000A000 - BitVec.ofNat 64 depth) :
    push translation memory' rsp number = some (put memory' 8 (stackTop - depth) number.toNat) :=
  store_of_maps (image.stackWord word here)

private theorem BootImage.pops (image : BootImage translation memory size) {rsp : Word} {depth : Nat}
    (word : depth = 8 ∨ depth = 16 ∨ depth = 24) (here : rsp = 0xFFFFFFFF8000A000 - BitVec.ofNat 64 depth) :
    pop translation memory' rsp = some (BitVec.ofNat 64 (value memory' 8 (stackTop - depth))) := by
  unfold pop load64
  rw [load_of_maps (image.stackWord word here)]
  rfl

private theorem header_ne (base : Nat) {k count : Nat} (below : k < count) (small : count * 56 < 65536) :
    (BitVec.ofNat 64 (base + 56 * k) : Word) ≠ BitVec.ofNat 64 (base + 56 * count) := by
  have left : 56 * k < 2 ^ 64 := by omega
  have right : 56 * count < 2 ^ 64 := by omega
  have different : 56 * k ≠ 56 * count := by omega
  intro same
  rw [BitVec.ofNat_add, BitVec.ofNat_add, BitVec.add_right_inj] at same
  have value := congrArg BitVec.toNat same
  rw [BitVec.toNat_ofNat, BitVec.toNat_ofNat, Nat.mod_eq_of_lt left, Nat.mod_eq_of_lt right] at value
  exact different value

/-- The walk from any header on: it ends, at the last header or at one without file bytes. -/
private theorem Walked.run (image : BootImage translation memory size)
    (room : LoaderRoom translation memory) (start : BegunFrom memory begun) {fuel : Nat}
    (walked : Walked memory begun memory' i) (inside : i ≤ imagePhnum memory)
    (enough : imagePhnum memory - i < fuel) (reached : ReachesHeader memory i) :
    ∃ after, loadElfLoop translation (BitVec.ofNat 64 dataLabel) (0xFFFFFFFF8000A000 - 8 - 8)
        (BitVec.ofNat 64 (imagePhoff memory + 56 * imagePhnum memory)) fuel
        (BitVec.ofNat 64 (imagePhoff memory + 56 * i)) memory' = some after ∧
      WalkEnded translation memory begun after := by
  induction fuel generalizing i memory' with
  | zero => omega
  | succ fuel ih =>
    unfold loadElfLoop
    rcases Nat.lt_or_ge i (imagePhnum memory) with below | atEnd
    · rw [if_neg (header_ne _ below image.phnum)]
      have filesz : load64 translation memory' (BitVec.ofNat 64 dataLabel +
          BitVec.ofNat 64 (imagePhoff memory + 56 * i) + 32) = some (imagePhdr memory i).filesz :=
        image.readField room start walked below reached (by decide)
          fun x low high => Or.inr (Or.inl ⟨low, high⟩)
      have offset : load64 translation memory' (BitVec.ofNat 64 dataLabel +
          BitVec.ofNat 64 (imagePhoff memory + 56 * i) + 8) = some (imagePhdr memory i).offset :=
        image.readField room start walked below reached (by decide) fun x low high => Or.inl ⟨low, high⟩
      simp only [filesz, offset, Option.bind_eq_bind, Option.bind_some]
      by_cases empty : (imagePhdr memory i).filesz = 0
      · have stop : StopsWalk memory i := ⟨below, empty, reached⟩
        have memsz : load64 translation memory' (BitVec.ofNat 64 dataLabel +
            BitVec.ofNat 64 (imagePhoff memory + 56 * i) + 40) = some (imagePhdr memory i).memsz := by
          refine image.readField room start walked below reached (by decide) fun x low high => ?_
          exact Or.inr (Or.inr (by rw [if_pos empty]; exact Or.inr ⟨low, high⟩))
        have vaddr : load64 translation memory' (BitVec.ofNat 64 dataLabel +
            BitVec.ofNat 64 (imagePhoff memory + 56 * i) + 16) = some (imagePhdr memory i).vaddr := by
          refine image.readField room start walked below reached (by decide) fun x low high => ?_
          exact Or.inr (Or.inr (by rw [if_pos empty]; exact Or.inl ⟨low, high⟩))
        obtain ⟨after, filled, zeros, others⟩ := @repStosq_mapped translation
          (put memory' 8 (stackTop - 24) (BitVec.ofNat 64 dataLabel).toNat) _ _ (room.clears i stop)
        refine ⟨after, ?_, walked.ended_stop stop zeros others⟩
        rw [if_pos empty, memsz, vaddr]
        simp only [Option.bind_some]
        rw [image.pushes (BitVec.ofNat 64 dataLabel) (Or.inr (Or.inr rfl)) (by decide),
          Option.bind_some, filled, Option.bind_some,
          image.pops (Or.inr (Or.inr rfl)) (by decide), Option.bind_some]
        rfl
      · have paddr : load64 translation memory' (BitVec.ofNat 64 dataLabel +
            BitVec.ofNat 64 (imagePhoff memory + 56 * i) + 24) = some (imagePhdr memory i).paddr := by
          refine image.readField room start walked below reached (by decide) fun x low high => ?_
          exact Or.inr (Or.inr (by rw [if_neg empty]; exact ⟨low, high⟩))
        have next : ReachesHeader memory (i + 1) := by
          intro j upTo
          rcases Nat.lt_or_ge j i with before | here
          · exact reached j before
          · have same : j = i := by omega
            rw [same]
            exact empty
        rw [if_neg empty, paddr, Option.bind_some, image.copy room below next, Option.bind_some]
        have advance : (BitVec.ofNat 64 (imagePhoff memory + 56 * i) + 56 : Word) =
            BitVec.ofNat 64 (imagePhoff memory + 56 * (i + 1)) := by
          rw [Nat.mul_add, ← Nat.add_assoc, BitVec.ofNat_add _ (56 * 1)]
          rfl
        rw [advance]
        exact ih (walked.copyHeader image room start below next) below (by omega) next
    · have last : i = imagePhnum memory := by omega
      subst last
      rw [if_pos rfl]
      exact ⟨memory', rfl, walked.ended_last reached⟩

/-! ### The whole load -/

/-- Memory when `load_elf` is called. -/
def calledMemory (memory : Memory) (halt : Word) : Memory := put memory 8 (stackTop - 8) halt.toNat

/-- Memory when its loop is entered. -/
def begunMemory (memory : Memory) (halt : Word) : Memory :=
  put (calledMemory memory halt) 8 (stackTop - 16) dataLabel

private theorem begunMemory_off (memory : Memory) (halt : Word) :
    BegunFrom memory (begunMemory memory halt) := by
  intro place offStack
  unfold OnEntryStack stackTop at offStack
  unfold begunMemory calledMemory stackTop
  rw [put_of_outside (by omega), put_of_outside (by omega)]

private theorem walked_start (begun : Memory) : Walked memory begun begun 0 := by
  refine ⟨?_, fun _ _ => rfl⟩
  rintro k _ x _ ⟨j, impossible, _⟩
  exact absurd impossible (Nat.not_lt_zero j)

private theorem BootImage.readEhdr {field count : Nat} (image : BootImage translation memory size)
    (start : BegunFrom memory begun) (inHeader : field + count ≤ 64) :
    load translation begun count (BitVec.ofNat 64 dataLabel + BitVec.ofNat 64 field) =
      some (value memory count (dataLabel + field)) := by
  have header := image.header
  rw [image.read (by omega) rfl]
  congr 1
  apply value_congr
  intro x below
  apply start
  unfold OnEntryStack stackTop dataLabel
  omega

private theorem lastHeader {phoff phnum : Nat} (small : phnum * 56 < 65536) :
    ((BitVec.ofNat 16 56 * BitVec.ofNat 16 phnum).setWidth 64 + BitVec.ofNat 64 phoff : Word) =
      BitVec.ofNat 64 (phoff + 56 * phnum) := by
  have product : ((BitVec.ofNat 16 56 * BitVec.ofNat 16 phnum).setWidth 64 : Word) =
      BitVec.ofNat 64 (56 * phnum) := by
    have count : phnum % 2 ^ 16 = phnum := by omega
    have inside : 56 * phnum % 2 ^ 16 = 56 * phnum := by omega
    have wide : 56 * phnum % 2 ^ 64 = 56 * phnum := by omega
    apply BitVec.eq_of_toNat_eq
    rw [BitVec.toNat_setWidth, BitVec.toNat_mul, BitVec.toNat_ofNat, BitVec.toNat_ofNat,
      BitVec.toNat_ofNat, count]
    change 56 * phnum % 2 ^ 16 % 2 ^ 64 = _
    rw [inside]
  rw [product, BitVec.add_comm, ← BitVec.ofNat_add]

private theorem WalkEnded.saved {halt : Word} {after : Memory} (image : BootImage translation memory size)
    (room : LoaderRoom translation memory)
    (ended : WalkEnded translation memory (begunMemory memory halt) after) :
    value after 8 (stackTop - 16) = dataLabel := by
  have word : value (begunMemory memory halt) 8 (stackTop - 16) = dataLabel := by
    unfold begunMemory
    rw [value_put]
    decide
  rw [← word]
  apply value_congr
  intro x inWord
  obtain ⟨uncleared, uncovered⟩ := room.saved (stackTop - 16 + x) (by omega)
    (by unfold stackTop; omega)
  refine ended.kept _ ?_ uncleared ?_
  · intro copied
    obtain ⟨j, segment, _, covers⟩ := copied.segment image room
    exact uncovered j segment covers
  · intro spilled
    have high := spilled.2.2
    omega

private theorem longMode_runs (image : BootImage translation memory size)
    (room : LoaderRoom translation memory) (halt returnTo : Word) {fuel : Nat}
    (enough : imagePhnum memory < fuel) :
    ∃ after, WalkEnded translation memory (begunMemory memory halt) after ∧
      longMode translation fuel halt returnTo memory =
        some (field64 after 24, put after 8 (stackTop - 16) returnTo.toNat) := by
  have start := begunMemory_off memory halt
  have halted : push translation memory 0xFFFFFFFF8000A000 halt = some (calledMemory memory halt) :=
    image.pushes halt (Or.inl rfl) (by decide)
  have saved : push translation (calledMemory memory halt) (0xFFFFFFFF8000A000 - 8)
      (BitVec.ofNat 64 dataLabel) = some (begunMemory memory halt) :=
    image.pushes _ (Or.inr (Or.inl rfl)) (by decide)
  have phoff : load64 translation (begunMemory memory halt) (BitVec.ofNat 64 dataLabel + 32) =
      some (BitVec.ofNat 64 (imagePhoff memory)) :=
    congrArg (Option.map _) (image.readEhdr start (by decide))
  have phentsize : load16 translation (begunMemory memory halt) (BitVec.ofNat 64 dataLabel + 54) =
      some (BitVec.ofNat 16 56) := by
    rw [← image.phentsize]
    exact congrArg (Option.map _) (image.readEhdr start (by decide))
  have phnum : load16 translation (begunMemory memory halt) (BitVec.ofNat 64 dataLabel + 56) =
      some (BitVec.ofNat 16 (imagePhnum memory)) :=
    congrArg (Option.map _) (image.readEhdr start (by decide))
  obtain ⟨after, ran, ended⟩ := (walked_start (begunMemory memory halt)).run image room start
    (Nat.zero_le _) enough (fun j impossible => absurd impossible (Nat.not_lt_zero j))
  rw [Nat.mul_zero, Nat.add_zero] at ran
  have restored : pop translation after (0xFFFFFFFF8000A000 - 8 - 8) =
      some (BitVec.ofNat 64 dataLabel) := by
    rw [image.pops (Or.inr (Or.inl rfl)) (by decide), ended.saved image room]
  have header := image.header
  have entry : load64 translation after (BitVec.ofNat 64 dataLabel + 24) = some (field64 after 24) :=
    congrArg (Option.map _) (image.read (show 24 + 8 ≤ size by omega) rfl)
  have called : push translation after (0xFFFFFFFF8000A000 - 8) returnTo =
      some (put after 8 (stackTop - 16) returnTo.toNat) :=
    image.pushes returnTo (Or.inr (Or.inl rfl)) (by decide)
  refine ⟨after, ended, ?_⟩
  unfold longMode loadElf
  simp only [halted, saved, phoff, phentsize, phnum, lastHeader image.phnum, ran, restored, entry,
    called, Option.bind_eq_bind, Option.bind_some, Option.pure_def]

private theorem put_of_covers {after : Memory} {number place : Nat} (room : LoaderRoom translation memory)
    (segment : IsSegment memory i) (covers : (imagePhdr memory i).Covers place) :
    put after 8 (stackTop - 16) number place = after place := by
  rw [put_of_outside]
  intro inWord
  refine (room.saved place inWord.1 ?_).2 i segment covers
  unfold stackTop at inWord ⊢
  omega

section Ended

variable {halt : Word} {after : Memory} {place x number : Nat}
  (ended : WalkEnded translation memory (begunMemory memory halt) after)

include ended

/-- A byte of a segment that is neither copied nor cleared is as `load_elf` found it. -/
private theorem WalkEnded.found (room : LoaderRoom translation memory) (segment : IsSegment memory i)
    (covers : (imagePhdr memory i).Covers place) (uncopied : ¬FileCopied memory place)
    (uncleared : ¬BssCleared translation memory place) : after place = calledMemory memory halt place := by
  rw [ended.kept place uncopied uncleared
    fun spilled => uncleared (room.spilled i segment place covers spilled)]
  exact put_of_covers room segment covers

variable (image : BootImage translation memory size) (room : LoaderRoom translation memory)

include image room

private theorem WalkEnded.file_iff (segment : IsSegment memory i)
    (inFile : x < (imagePhdr memory i).filesz.toNat) :
    put after 8 (stackTop - 16) number (segmentPlace memory i x) = fileByte memory i x ↔
      (BssCleared translation memory (segmentPlace memory i x) → fileByte memory i x = 0) ∧
        (BssCleared translation memory (segmentPlace memory i x) ∨
          FileCopied memory (segmentPlace memory i x) ∨
          calledMemory memory halt (segmentPlace memory i x) = fileByte memory i x) := by
  have covers := image.covers segment inFile
  rw [put_of_covers room segment covers]
  by_cases cleared : BssCleared translation memory (segmentPlace memory i x)
  · rw [ended.cleared _ cleared]
    exact ⟨fun zero => ⟨fun _ => zero.symm, Or.inl cleared⟩, fun right => (right.1 cleared).symm⟩
  · by_cases copied : FileCopied memory (segmentPlace memory i x)
    · have there := ended.copied i segment x inFile copied cleared
        fun spilled => cleared (room.spilled i segment _ covers spilled)
      exact ⟨fun _ => ⟨fun impossible => absurd impossible cleared, Or.inr (Or.inl copied)⟩, fun _ => there⟩
    · rw [ended.found room segment covers copied cleared]
      exact ⟨fun right => ⟨fun impossible => absurd impossible cleared, Or.inr (Or.inr right)⟩,
        fun right => (right.2.resolve_left cleared).resolve_left copied⟩

private theorem WalkEnded.zero_iff (segment : IsSegment memory i)
    (past : (imagePhdr memory i).filesz.toNat ≤ x) (inSegment : x < (imagePhdr memory i).memsz.toNat) :
    put after 8 (stackTop - 16) number (segmentPlace memory i x) = 0 ↔
      BssCleared translation memory (segmentPlace memory i x) ∨
        calledMemory memory halt (segmentPlace memory i x) = 0 := by
  rw [put_of_covers room segment (covers_place inSegment)]
  by_cases cleared : BssCleared translation memory (segmentPlace memory i x)
  · exact ⟨fun _ => Or.inl cleared, fun _ => ended.cleared _ cleared⟩
  · have uncopied : ¬FileCopied memory (segmentPlace memory i x) := fun copied =>
      Nat.not_lt.mpr past (copied.inFile image room segment inSegment)
    rw [ended.found room segment (covers_place inSegment) uncopied cleared]
    exact ⟨Or.inr, fun right => right.resolve_left cleared⟩

private theorem WalkEnded.rest_iff (uncovered : ∀ i, IsSegment memory i → ¬(imagePhdr memory i).Covers place)
    (offStack : ¬OnStack memory place) :
    put after 8 (stackTop - 16) number place = memory place ↔
      (BssCleared translation memory place → memory place = 0) := by
  have offEntry : ¬OnEntryStack place := fun onStack => offStack (Or.inl onStack)
  have apart : put after 8 (stackTop - 16) number place = after place := by
    rw [put_of_outside]
    intro inWord
    refine offEntry ⟨inWord.1, ?_⟩
    unfold stackTop at inWord ⊢
    omega
  have uncopied : ¬FileCopied memory place := by
    intro copied
    obtain ⟨j, segment, _, covers⟩ := copied.segment image room
    exact uncovered j segment covers
  rw [apart]
  by_cases cleared : BssCleared translation memory place
  · rw [ended.cleared place cleared]
    exact ⟨fun zero _ => zero.symm, fun right => (right cleared).symm⟩
  · rw [ended.kept place uncopied cleared fun spilled => offStack (Or.inr spilled),
      begunMemory_off memory halt place offEntry]
    exact ⟨fun _ impossible => absurd impossible cleared, fun _ => rfl⟩

private theorem WalkEnded.imageLoaded_iff :
    ImageLoaded memory (put after 8 (stackTop - 16) number) ↔
      BytesRight translation memory (calledMemory memory halt) := by
  constructor
  · intro loaded
    refine ⟨fun i segment x inFile => ?_, fun i segment x past inSegment => ?_, fun place uncovered offStack => ?_⟩
    · exact (ended.file_iff image room segment inFile).mp (loaded.copied i segment x inFile)
    · exact (ended.zero_iff image room segment past inSegment).mp (loaded.cleared i segment x past inSegment)
    · exact (ended.rest_iff image room uncovered offStack).mp (loaded.kept place uncovered offStack)
  · intro right
    refine ⟨fun i segment x inFile => ?_, fun i segment x past inSegment => ?_, fun place uncovered offStack => ?_⟩
    · exact (ended.file_iff image room segment inFile).mpr (right.files i segment x inFile)
    · exact (ended.zero_iff image room segment past inSegment).mpr (right.zeros i segment x past inSegment)
    · exact (ended.rest_iff image room uncovered offStack).mpr (right.rest place uncovered offStack)

end Ended

private theorem ImageLoaded.entry {after : Memory} {number : Nat}
    (image : BootImage translation memory size)
    (loaded : ImageLoaded memory (put after 8 (stackTop - 16) number)) :
    field64 after 24 = field64 memory 24 := by
  have header := image.header
  unfold field64
  congr 1
  apply value_congr
  intro x below
  rw [← loaded.kept (dataLabel + 24 + x), put_of_outside]
  · unfold stackTop dataLabel
    omega
  · intro i segment
    rw [Nat.add_assoc]
    exact image.outside i segment (24 + x) (by omega)
  · unfold OnStack OnEntryStack Spilled stackTop dataLabel
    omega

/-- What the boot tables map: the first four megabytes, at 0 and at `KERNEL_VIRT`. -/
def bootTranslation : Translation := fun address =>
  if address.toNat < 0x400000 then some address.toNat
  else if 0xFFFFFFFF80000000 ≤ address.toNat ∧ address.toNat < 0xFFFFFFFF80400000 then
    some (address.toNat - 0xFFFFFFFF80000000)
  else none

/-- An image with one segment of eight file bytes, in memory that is nowhere zero. -/
def tinyImage (memsz : Nat) : Memory :=
  let memory : Memory := fun place => if 0x8000 ≤ place ∧ place < 0x8078 then 0 else 0xFF
  let memory := put memory 8 (dataLabel + 24) 0xFFFFFFFF80100000
  let memory := put memory 8 (dataLabel + 32) 64
  let memory := put memory 2 (dataLabel + 54) 56
  let memory := put memory 2 (dataLabel + 56) 1
  let memory := put memory 4 (dataLabel + 64) 1
  let memory := put memory 8 (dataLabel + 80) 0xFFFFFFFF80100000
  let memory := put memory 8 (dataLabel + 88) 0x100000
  let memory := put memory 8 (dataLabel + 96) 8
  put memory 8 (dataLabel + 104) memsz

private theorem bootTranslation_low {address : Word} {place count : Nat} (here : address.toNat = place)
    (small : place + count ≤ 0x400000) : Maps bootTranslation address place count := by
  intro x below
  have value : (address + BitVec.ofNat 64 x : Word).toNat = place + x := by
    rw [BitVec.toNat_add, BitVec.toNat_ofNat, here]
    omega
  unfold bootTranslation
  rw [value, if_pos (by omega)]

private theorem bootTranslation_high {address : Word} {place count : Nat}
    (here : address.toNat = 0xFFFFFFFF80000000 + place) (small : place + count ≤ 0x400000) :
    Maps bootTranslation address place count := by
  intro x below
  have value : (address + BitVec.ofNat 64 x : Word).toNat = 0xFFFFFFFF80000000 + place + x := by
    rw [BitVec.toNat_add, BitVec.toNat_ofNat, here]
    omega
  have place' : 0xFFFFFFFF80000000 + place + x - 0xFFFFFFFF80000000 = place + x := by omega
  unfold bootTranslation
  rw [value, if_neg (by omega), if_pos (by omega), place']

private theorem tinyImage_phnum {memsz : Nat} (word : memsz = 8 ∨ memsz = 16) :
    imagePhnum (tinyImage memsz) = 1 ∧ imagePhoff (tinyImage memsz) = 64 ∧
      imagePhdr (tinyImage memsz) 0 =
        ⟨1, 0, 0xFFFFFFFF80100000, 0x100000, 8, BitVec.ofNat 64 memsz⟩ := by
  rcases word with rfl | rfl
  · decide +kernel
  · decide +kernel

attribute [irreducible] tinyImage

private theorem tinyImage_only {memsz : Nat} (word : memsz = 8 ∨ memsz = 16) :
    ∀ i < imagePhnum (tinyImage memsz), i = 0 ∧ imagePhdr (tinyImage memsz) i =
      ⟨1, 0, 0xFFFFFFFF80100000, 0x100000, 8, BitVec.ofNat 64 memsz⟩ := by
  obtain ⟨phnum, _, phdr⟩ := tinyImage_phnum word
  intro i below
  rw [phnum] at below
  have first := Nat.lt_one_iff.mp below
  rw [first]
  exact ⟨rfl, phdr⟩

private theorem tinyImage_bootImage {memsz : Nat} (word : memsz = 8 ∨ memsz = 16) :
    BootImage bootTranslation (tinyImage memsz) 120 := by
  obtain ⟨phnum, phoff, _⟩ := tinyImage_phnum word
  have only := tinyImage_only word
  have small : (BitVec.ofNat 64 memsz : Word).toNat = memsz ∧ 0x100000 + memsz ≤ 0x400000 := by
    rcases word with rfl | rfl <;> decide
  refine ⟨by decide, bootTranslation_low (by decide) (by decide),
    bootTranslation_high (by decide) (by decide), ?_, ?_, ?_, ?_, ?_, ?_, ?_⟩
  · rcases word with rfl | rfl <;> decide +kernel
  · rw [phnum]
    decide
  · rw [phnum, phoff]
  · intro i segment
    rw [(only i segment.below).2]
    rcases word with rfl | rfl <;> decide
  · intro i segment
    rw [(only i segment.below).2]
    simp only [small.1]
    exact ⟨bootTranslation_low (by decide) small.2, bootTranslation_high (by decide) small.2⟩
  · intro i segment x inside covers
    rw [(only i segment.below).2] at covers
    unfold BootPhdr.Covers dataLabel at covers
    have low : 0x100000 ≤ 0x8000 + x := covers.1
    omega
  · intro i first j second different
    exact absurd ((only i first.below).1.trans (only j second.below).1.symm) different

private theorem tinyImage_noStop (i : Nat) : ¬StopsWalk (tinyImage 8) i := by
  intro stop
  have empty := stop.empty
  rw [(tinyImage_only (Or.inl rfl) i stop.below).2] at empty
  exact absurd empty (by decide)

private theorem tinyImage_uncleared (place : Nat) : ¬BssCleared bootTranslation (tinyImage 8) place := by
  rintro ⟨i, stop, _⟩
  exact tinyImage_noStop i stop

private theorem tinyImage_room : LoaderRoom bootTranslation (tinyImage 8) := by
  obtain ⟨_, phoff, _⟩ := tinyImage_phnum (Or.inl rfl)
  have only := tinyImage_only (Or.inl rfl)
  refine ⟨?_, ?_, ?_, ?_, ?_, ?_, ?_⟩
  · intro i below noSegment
    refine absurd ⟨below, ?_⟩ noSegment
    rw [(only i below).2]
  · intro i stop
    exact absurd stop (tinyImage_noStop i)
  · intro i below _ x reads
    have first := (only i below).1
    have inHeader : x < 48 := by
      unfold BootPhdr.Reads at reads
      split at reads <;> omega
    unfold OnEntryStack stackTop dataLabel
    rw [phoff]
    omega
  · intro i below _ x inFile
    rw [(only i below).2] at inFile ⊢
    change x < 8 at inFile
    change ¬(0xA000 - 16 ≤ 0x8000 + (0 + x) ∧ _)
    omega
  · intro place low high
    refine ⟨tinyImage_uncleared place, fun i segment covers => ?_⟩
    rw [(only i segment.below).2] at covers
    have above : 0x100000 ≤ place := covers.1
    unfold stackTop at high
    omega
  · rintro i _ place _ ⟨⟨j, stop⟩, _⟩
    exact absurd stop (tinyImage_noStop j)
  · rintro place (⟨i, below, _, fills⟩ | cleared)
    · rw [(only i below).2] at fills
      have low : 0x100000 ≤ place := fills.1
      have high : place < 0x100008 := fills.2
      unfold LiveCode
      omega
    · exact absurd cleared (tinyImage_uncleared place)

private theorem tinyImage_right (halt : Word) :
    BytesRight bootTranslation (tinyImage 8) (calledMemory (tinyImage 8) halt) := by
  have only := tinyImage_only (Or.inl rfl)
  refine ⟨?_, ?_, ?_⟩
  · intro i segment x inFile
    refine ⟨fun cleared => absurd cleared (tinyImage_uncleared _), Or.inr (Or.inl ⟨i, segment.below, ?_, ?_⟩)⟩
    · intro j upTo empty
      have first := (only i segment.below).1
      exact tinyImage_noStop j ⟨upTo.trans_le segment.below, empty, fun k earlier => by omega⟩
    · exact ⟨Nat.le_add_right _ _, Nat.add_lt_add_left inFile _⟩
  · intro i segment x past inSegment
    rw [(only i segment.below).2] at past inSegment
    exact absurd inSegment (Nat.not_lt.mpr past)
  · intro place _ _ cleared
    exact absurd cleared (tinyImage_uncleared place)

end Osdev64
