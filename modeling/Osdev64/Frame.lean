/-
The physical memory manager of `src/frame.c` and `include/frame.h`.

The state is the static data of the file: the three list heads and every list
node as a pointer heap, the page structures, and the counters.  Memory past the
end of the page array is a page structure like any other, with whatever content
it had, because the C code does not stop an index there: `assert` prints and
goes on.  The spin lock is left out; one processor never waits for it.  So are
the log messages and `refs`, which nothing reads.
-/

import Osdev64.Kernel
import Osdev64.List

namespace Osdev64

open PointerRing Word64

/-- The static heads of `frame.c`. -/
inductive ListHead where
  | free
  | used
  | lru
  deriving DecidableEq, Repr

/-- A `struct page*`.  `elem` points into the page array, `stack` to a caller's
own structure.  The last two are what `list_entry` computes from a node that is
no `pages` member. -/
inductive PagePtr where
  | elem (index : Nat)
  | null
  | stack (slot : Nat)
  | overHead (list : ListHead)
  | overLru (page : PagePtr)
  deriving DecidableEq, Repr

inductive Node where
  | head (list : ListHead)
  | pages (page : PagePtr)
  | lru (page : PagePtr)
  deriving DecidableEq, Repr

/-- `&p->pages`.  A misread entry names the node it was read from. -/
def PagePtr.pagesNode : PagePtr → Node
  | .overHead list => .head list
  | .overLru page => .lru page
  | page => .pages page

/-- `&p->lru`. -/
def PagePtr.lruNode (page : PagePtr) : Node := .lru page

/-- `list_entry(ptr, struct page, pages)`. -/
def listEntry : Node → PagePtr
  | .head list => .overHead list
  | .pages page => page
  | .lru page => .overLru page

@[ext] structure Page where
  address : Word
  flags : Word
  data : Word

def sizeofPage : Word := 64

def pFree : BitVec 32 := 0x01000
def pUsed : BitVec 32 := 0x02000
def pKernel : BitVec 32 := 0x04000
def pUser : BitVec 32 := 0x08000
def pVirt : BitVec 32 := 0x10000
/-- In use by physical memory manager. -/
def pPhys : BitVec 32 := 0x18000
/-- Not freeable. -/
def pImmutable : BitVec 32 := 0x20000

/-- An `int` flag word stored in or compared with a `size_t`. -/
def flagWord (flags : BitVec 32) : Word := flags.signExtend 64

theorem flagWord_bit (flags : BitVec 32) {bit : Nat} (low : bit < 32) :
    (flagWord flags).getLsbD bit = flags.getLsbD bit := by
  unfold flagWord
  rw [BitVec.getLsbD_signExtend, if_pos low]
  simp
  omega

structure Frames where
  heap : Heap Node
  page : PagePtr → Page
  numpages : Word
  parray : Word
  numFreePages : Word
  numUsedPages : Word

def Frames.setPage (frames : Frames) (pointer : PagePtr) (page : Page) : Frames :=
  { frames with page := Function.update frames.page pointer page }

def Frames.setFlags (frames : Frames) (pointer : PagePtr) (flags : Word) : Frames :=
  frames.setPage pointer { frames.page pointer with flags := flags }

/-! ### Initialisation -/

/-- What `page_init` computes before it touches the page array: the number of
pages, the pages the array takes, where it starts, and the three table frames
taken from it when the array does not fit below `INITIAL_TOP`. -/
structure InitPlan where
  numpages : Word
  r : Word
  table : Word
  req : Word
  mmu : List Word
  bootstrap : Bool

def pageInitPlan (memory table : Word) : InitPlan :=
  let table := roundUp table pageSize
  let numpages := roundUp memory pageSize / pageSize
  let r := roundUp (numpages * sizeofPage) pageSize / pageSize
  if r * pageSize + table > v2p initialTop then
    { numpages := numpages
      r := r
      table := table + pageSize * 3
      req := roundUp (r * pageSize + table) 0x200000
      mmu := [table, table + pageSize * 1, table + pageSize * 2]
      bootstrap := true }
  else
    { numpages := numpages
      r := r
      table := table
      req := 0
      mmu := [0, 0, 0]
      bootstrap := false }

def initPage (frames : Frames) (i : Nat) : Frames :=
  let p := PagePtr.elem i
  let heap := listInit (listInit frames.heap p.lruNode) p.pagesNode
  { frames with heap := heap }.setPage p
    { frames.page p with address := BitVec.ofNat 64 i * pageSize }

/-- The index `parray[j]` takes for the `int j` computed in the marking loop. -/
def markIndex (table : Word) (i : Nat) : Nat :=
  let j : BitVec 32 := (BitVec.ofNat 64 i + roundDown table pageSize / pageSize).setWidth 32
  (j.signExtend 64).toNat

def markTablePage (frames : Frames) (mmu : Word) : Frames :=
  if mmu = 0 then frames
  else frames.setFlags (.elem (roundDown mmu pageSize / pageSize).toNat)
    (flagWord (pImmutable ||| pVirt ||| pKernel))

def markArrayPage (table : Word) (frames : Frames) (i : Nat) : Frames :=
  frames.setFlags (.elem (markIndex table i)) (flagWord (pImmutable ||| pPhys ||| pKernel))

/-- The part of `page_init` that works on the allocator's own data.  Switching
to new page tables is `mmu_bootstrap`, which does not touch it. -/
def pageInit (memory table : Word) (frames : Frames) : Frames :=
  let plan := pageInitPlan memory table
  let frames := { frames with numpages := plan.numpages, parray := p2v plan.table }
  let frames := (List.range plan.numpages.toNat).foldl initPage frames
  let frames := plan.mmu.foldl markTablePage frames
  (List.range plan.r.toNat).foldl (markArrayPage plan.table) frames

/-! ### Marking, allocating and freeing -/

def protectedFlags : Word := flagWord (pPhys ||| pVirt)

/-- One turn of the loop of `page_mark_range`. -/
def markPage (flags : BitVec 32) (frames : Frames) (s : Nat) : Frames :=
  let p := PagePtr.elem s
  if (frames.page p).flags &&& protectedFlags ≠ 0 then frames
  else
    let frames := frames.setFlags p (flagWord flags)
    if flags &&& pUsed ≠ 0 then
      let heap := listMoveTail frames.heap (.head .used) p.pagesNode
      let heap := listMoveTail heap (.head .lru) p.lruNode
      { frames with heap := heap, numUsedPages := frames.numUsedPages + 1 }
    else
      let heap := listMoveTail frames.heap (.head .free) p.pagesNode
      { frames with heap := heap, numFreePages := frames.numFreePages + 1 }

/-- The indices a range is rounded to: from its first page up to, not including,
the second component. -/
def markBounds (start stop : Word) : Nat × Nat :=
  ((roundDown start pageSize / pageSize).toNat, (roundUp stop pageSize / pageSize).toNat)

def acceptedFlags (flags : BitVec 32) : Bool :=
  flags &&& (pUsed ||| pFree) ≠ pUsed ||| pFree ∧ flags &&& (pUsed ||| pFree) ≠ 0

def pageMarkRange (start stop : Word) (flags : BitVec 32) (frames : Frames) : Int × Frames :=
  if start > stop then (-1, frames)
  else if flags &&& (pUsed ||| pFree) = pUsed ||| pFree then (-1, frames)
  else if flags &&& (pUsed ||| pFree) = 0 then (-1, frames)
  else
    let (s, e) := markBounds start stop
    (0, (List.range' s (e - s)).foldl (markPage flags) frames)

/-- `NULL` on failure, the page moved from the free to the used list otherwise. -/
def pageAlloc (frames : Frames) : PagePtr × Frames :=
  if listEmpty frames.heap (.head .free) then (.null, frames)
  else
    let p := listEntry (frames.heap.next (.head .free))
    let heap := listAddTail frames.heap (.head .lru) p.lruNode
    let heap := listMove heap (.head .used) p.pagesNode
    (p, { frames with
      heap := heap
      numUsedPages := frames.numUsedPages + 1
      numFreePages := frames.numFreePages - 1 })

def pageFree (p : PagePtr) (frames : Frames) : Frames :=
  let heap := listMoveTail frames.heap (.head .free) p.pagesNode
  let heap := listDel heap p.lruNode
  { frames with
    heap := heap
    numUsedPages := frames.numUsedPages - 1
    numFreePages := frames.numFreePages + 1 }

/-- Request page struct for a given physical address. -/
def pageRequest (frames : Frames) (address : Word) : PagePtr :=
  let index := roundDown address pageSize / pageSize
  if index > frames.numpages then .null else .elem index.toNat

theorem pageRequest_of_lt {frames : Frames} {cr3 : Word} (inside : cr3.toNat / 4096 < frames.numpages.toNat) :
    pageRequest frames cr3 = .elem (cr3.toNat / 4096) := by
  have value := roundDown_div_page cr3
  have below : ¬roundDown cr3 pageSize / pageSize > frames.numpages := by
    rw [gt_iff_lt, BitVec.lt_def, value]
    omega
  unfold pageRequest
  rw [if_neg below, value]

end Osdev64
