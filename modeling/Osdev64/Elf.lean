/-
The program loader of `src/elf.c`.

For every loadable header the loader requests pages, clears the segment and
copies its file bytes, all through the page tables as they are at that moment.
The image is read in the same way, and a field of a header again at each use.
The loader reports what it does, up to the point where it stops for good.
-/

import Osdev64.Lib.PageBytes
import Osdev64.Lib.Report
import Osdev64.Mmu

namespace Osdev64

open Word64 Bytes Paging Reporting

/-- The flags of `mmu_req_page` in `elf_load`: `PRESENT|RW|USER`. -/
def elfFlags : BitVec 32 := 0x7

inductive LoadEvent where
  | header (phdr : Word)
  /-- A field of a header was read. -/
  | field (address value : Word)
  /-- A call of `mmu_req_page`; `none` if it ends in a page fault. -/
  | request (address : Word) (p : Option PagePtr)
  /-- A read of `p->data`. -/
  | readData (p : PagePtr)
  | memset (dest : Word) (count : Word)
  | memcpy (dest src : Word) (count : Word)
  deriving DecidableEq

/-- `sizeof(Elf64_Phdr)`. -/
def phdrSize : Word := 56

/-- A number of `count` bytes. -/
def readNumber : Nat → Word → Prog KernelData Nat
  | 0, _ => pure 0
  | count + 1, address => do
    let byte ← Prog.readByte address
    let rest ← readNumber count (address + 1)
    pure (byte.toNat + 256 * rest)

def readWord (address : Word) : Prog KernelData Word := do
  let number ← readNumber 8 address
  pure (BitVec.ofNat 64 number)

/-- `memset`, which is `rep stosb`. -/
def memset (c : Byte) : Nat → Word → Prog KernelData Unit
  | 0, _ => pure ()
  | count + 1, address => do
    Prog.writeByte address c
    memset c count (address + 1)

/-- `memcpy`, which is `rep movsb`. -/
def memcpy : Nat → Word → Word → Prog KernelData Unit
  | 0, _, _ => pure ()
  | count + 1, dest, src => do
    let byte ← Prog.readByte src
    Prog.writeByte dest byte
    memcpy count (dest + 1) (src + 1)

def readField (address : Word) : Reporting LoadEvent KernelData Word := do
  let value ← perform (readWord address)
  report (.field address value)
  pure value

/-- `for (i = ...; i <= phdr->p_memsz; i += 0x1000)`, for at most `steps` rounds.  The counter may
wrap, and a null page is dereferenced like any other. -/
def requestLoop (phdr : Word) : Nat → Word → Reporting LoadEvent KernelData Unit
  | 0, _ => stop
  | steps + 1, i => do
    let memsz ← readField (phdr + 40)
    if memsz < i then pure ()
    else do
      let vaddr ← readField (phdr + 16)
      let p ← call (.request (vaddr + i)) (mmuReqPage (vaddr + i) elfFlags)
      report (.readData p)
      let data ← perform (loadData p)
      let again ← readField (phdr + 16)
      if data ≠ roundDown (again + i) pageSize then pure ()
      else requestLoop phdr steps (i + 0x1000)

def clearSegment (phdr : Word) : Reporting LoadEvent KernelData Unit := do
  let vaddr ← readField (phdr + 16)
  let memsz ← readField (phdr + 40)
  report (.memset vaddr memsz)
  perform (memset 0 memsz.toNat vaddr)

def copySegment (data phdr : Word) : Reporting LoadEvent KernelData Unit := do
  let vaddr ← readField (phdr + 16)
  let offset ← readField (phdr + 8)
  let filesz ← readField (phdr + 32)
  report (.memcpy vaddr (data + offset) filesz)
  perform (memcpy filesz.toNat vaddr (data + offset))

def loadSegment (steps : Nat) (data phdr : Word) : Reporting LoadEvent KernelData Unit := do
  requestLoop phdr steps 0
  clearSegment phdr
  copySegment data phdr

/-- One round of the loop over the headers. -/
def headerRound (steps : Nat) (data phdr : Word) : Reporting LoadEvent KernelData Unit := do
  report (.header phdr)
  let pType ← perform (readNumber 4 phdr)
  if pType ≠ 1 then pure () else loadSegment steps data phdr

/-- `while (phdr < last_phdr)`, for at most `rounds` rounds. -/
def headerLoop (steps : Nat) (data last : Word) : Nat → Word → Reporting LoadEvent KernelData Unit
  | 0, _ => stop
  | rounds + 1, phdr =>
    if phdr < last then do
      headerRound steps data phdr
      headerLoop steps data last rounds (phdr + phdrSize)
    else pure ()

/-- The fields of `Elf64_Ehdr` that `elf_load` reads. -/
structure Ehdr where
  ePhoff : Word
  ePhentsize : Nat
  ePhnum : Nat

def readEhdr (data : Word) : Prog KernelData Ehdr := do
  let ePhoff ← readWord (data + 32)
  let ePhentsize ← readNumber 2 (data + 54)
  let ePhnum ← readNumber 2 (data + 56)
  pure ⟨ePhoff, ePhentsize, ePhnum⟩

/-- `phdr + (ehdr->e_phentsize * ehdr->e_phnum)`: a product of ints, counted in headers. -/
def lastPhdr (data : Word) (ehdr : Ehdr) : Word :=
  data + ehdr.ePhoff + (BitVec.ofNat 32 (ehdr.ePhentsize * ehdr.ePhnum)).signExtend 64 * phdrSize

def elfLoad (steps rounds : Nat) (data : Word) : Reporting LoadEvent KernelData Unit := do
  let ehdr ← perform (readEhdr data)
  headerLoop steps data (lastPhdr data ehdr) rounds (data + ehdr.ePhoff)

/-- The first `count` rounds of the loop over the headers. -/
def headerRounds (steps : Nat) (data : Word) : Nat → Word → Reporting LoadEvent KernelData Unit
  | 0, _ => pure ()
  | count + 1, phdr => do
    headerRound steps data phdr
    headerRounds steps data count (phdr + phdrSize)

end Osdev64
