/-
The assembly string copies: `strncpy` and `strcpy`.

`strncpy` counts the length down behind each byte, fills up what is left of it with
zeros, and keeps the destination in a slot below its stack pointer.  `strcpy` leaves
its loop at the terminator before it is stored, with the terminator in `rax`: the
bytes behind the copy are the old ones, and the result is a null pointer.
-/

import Osdev64.SseString
import Osdev64.StringLib
import Osdev64.PrintfEnds

namespace Osdev64

open Word64 Bytes

/-! ### The functions -/

def storeQword (memory : Word → Byte) (address number : Word) : Word → Byte := fun other =>
  if (other - address).toNat < 8 then BitVec.ofNat 8 (number.toNat / 256 ^ (other - address).toNat)
  else memory other

def loadQword (memory : Word → Byte) (address : Word) : Word :=
  BitVec.ofNat 64 (value (charAt memory address) 8 0)

/-- `rep stosb`. -/
def Asm.repStosb (al : Byte) : Nat → Word → (Word → Byte) → Word → Byte
  | 0, _, memory => memory
  | rcx + 1, rdi, memory => Asm.repStosb al rcx (rdi + 1) (Function.update memory rdi al)

/-- The loop of `strncpy`, with the registers `rdi` and `rdx` behind it. -/
def Asm.strncpyLoop : Nat → Word → Word → Word → (Word → Byte) → Option (Word × Word × (Word → Byte))
  | 0, _, _, _, _ => none
  | fuel + 1, rsi, rdi, rdx, memory =>
    -- lodsb
    let al := memory rsi
    if al = 0 then some (rdi, rdx, memory)
    else
      -- stosb
      let memory := Function.update memory rdi al
      if rdx - 1 = 0 then some (rdi + 1, rdx - 1, memory)
      else Asm.strncpyLoop fuel (rsi + 1) (rdi + 1) (rdx - 1) memory

structure Asm.Returned where
  rax : Word
  rbp : Word
  memory : Word → Byte

/-- `strncpy(rdi, rsi, rdx)`; `none` is no fuel left. -/
def Asm.strncpy (fuel : Nat) (rdi rsi rdx rsp rbp : Word) (memory : Word → Byte) :
    Option Asm.Returned := do
  let memory := storeQword memory (rsp - 8) rbp
  let memory := storeQword memory (rsp - 8 - 8 - 8) rdi
  let (rdi, rdx, memory) ← Asm.strncpyLoop fuel rsi rdi rdx memory
  let memory := Asm.repStosb 0 rdx.toNat rdi memory
  some ⟨loadQword memory (rsp - 8 - 8 - 8), loadQword memory (rsp - 8), memory⟩

/-- `strcpy(rdi, rsi)`: `rax` was cleared, so that it is the byte that `lodsb` took last. -/
def Asm.strcpy : Nat → Word → Word → (Word → Byte) → Option (Word × (Word → Byte))
  | 0, _, _, _ => none
  | fuel + 1, rdi, rsi, memory =>
    let al := memory rsi
    if al = 0 then some (al.setWidth 64, memory)
    else Asm.strcpy fuel (rdi + 1) (rsi + 1) (Function.update memory rdi al)

/-! ### Memory after a copy -/

/-- Memory with `count` bytes of the source at the destination. -/
def copiedTo (memory : Word → Byte) (dest src : Word) (count : Nat) : Word → Byte := fun other =>
  if (other - dest).toNat < count then charAt memory src (other - dest).toNat else memory other

variable {memory : Word → Byte} {dest src rsp rbp : Word} {count fuel : Nat}

theorem copiedTo_zero : copiedTo memory dest src 0 = memory := by
  funext other
  unfold copiedTo
  rw [if_neg (Nat.not_lt_zero _)]

theorem distance_self (dest : Word) : (dest - dest).toNat = 0 := by
  rw [sub_self]
  rfl

theorem distance_before (dest : Word) : (dest - (dest + 1)).toNat = 2 ^ 64 - 1 := by
  rw [sub_add_cancel_left]
  rfl

theorem distance_succ {other : Word} (different : other ≠ dest) :
    (other - dest).toNat = (other - (dest + 1)).toNat + 1 := by
  have positive : 0 < (other - dest).toNat := toNat_pos_of_ne (sub_ne_zero.mpr different)
  have less : (other - dest - 1).toNat = (other - dest).toNat - 1 := BitVec.toNat_sub_of_le positive
  rw [sub_add_eq_sub_sub, less, Nat.sub_add_cancel positive]

/-- The first byte and then the others, if the first is not one that is still to be read. -/
theorem copiedTo_succ (small : count < 2 ^ 64 - 1)
    (clear : ∀ x < count, src + BitVec.ofNat 64 (x + 1) ≠ dest) :
    copiedTo (Function.update memory dest (memory src)) (dest + 1) (src + 1) count =
      copiedTo memory dest src (count + 1) := by
  funext other
  unfold copiedTo
  by_cases first : other = dest
  · rw [first, distance_before, distance_self, if_neg (by omega), if_pos (Nat.succ_pos count),
      Function.update_self, charAt_zero]
  · rw [distance_succ first]
    by_cases inside : (other - (dest + 1)).toNat < count
    · rw [if_pos inside, if_pos (Nat.succ_lt_succ inside), charAt_tail]
      unfold charAt
      rw [Function.update_of_ne (clear _ inside)]
    · rw [if_neg inside, if_neg (by omega), Function.update_of_ne first]

theorem repStosb_eq {al : Byte} (small : count < 2 ^ 64) :
    Asm.repStosb al count dest memory = fun other =>
      if (other - dest).toNat < count then al else memory other := by
  induction count generalizing dest memory with
  | zero =>
    funext other
    rw [if_neg (Nat.not_lt_zero _)]
    rfl
  | succ count ih =>
    rw [Asm.repStosb, ih (by omega)]
    funext other
    by_cases first : other = dest
    · rw [first, distance_before, distance_self, if_neg (by omega), if_pos (Nat.succ_pos count),
        Function.update_self]
    · rw [distance_succ first]
      by_cases inside : (other - (dest + 1)).toNat < count
      · rw [if_pos inside, if_pos (Nat.succ_lt_succ inside)]
      · rw [if_neg inside, if_neg (by omega), Function.update_of_ne first]

/-! ### The loops -/

/-- Addresses come back after 2 ^ 64, so a string that is longer would have met its terminator. -/
theorem StringAt.length_lt {length : Nat} (string : StringAt memory src length) : length < 2 ^ 64 := by
  by_contra long
  have wraps : BitVec.ofNat 64 (length - 2 ^ 64) = BitVec.ofNat 64 length := by
    apply BitVec.eq_of_toNat_eq
    rw [BitVec.toNat_ofNat, BitVec.toNat_ofNat]
    omega
  apply string.nonzero (length - 2 ^ 64) (by omega)
  unfold charAt
  rw [wraps]
  exact string.terminator

/-- The loop of `strncpy` with the length `n` copies `count` bytes: the string ends there, or the
length does. -/
structure StopsAfter (memory : Word → Byte) (src : Word) (n count : Nat) : Prop where
  within : count ≤ n
  nonzero : ∀ index < count, charAt memory src index ≠ 0
  terminator : count < n → charAt memory src count = 0

/-- No byte of the source is overwritten before it is read. -/
def NotOverrun (dest src : Word) (last : Nat) : Prop :=
  ∀ index ≤ last, ∀ earlier < index, src + BitVec.ofNat 64 index ≠ dest + BitVec.ofNat 64 earlier

theorem NotOverrun.first {last : Nat} (clear : NotOverrun dest src last) {x : Nat} (inside : x < last) :
    src + BitVec.ofNat 64 (x + 1) ≠ dest := by
  have behind := clear (x + 1) inside 0 (Nat.succ_pos x)
  rwa [BitVec.add_zero] at behind

theorem sub_ofNat_succ (start : Word) (index : Nat) :
    start - 1 - BitVec.ofNat 64 index = start - BitVec.ofNat 64 (index + 1) := by
  rw [sub_sub, add_comm 1, BitVec.ofNat_add]
  rfl

theorem NotOverrun.mono {last fewer : Nat} (clear : NotOverrun dest src last) (le : fewer ≤ last) :
    NotOverrun dest src fewer :=
  fun index inside => clear index (inside.trans le)

theorem NotOverrun.tail {last : Nat} (clear : NotOverrun dest src (last + 1)) :
    NotOverrun (dest + 1) (src + 1) last := by
  intro index inside earlier lower
  rw [next_address, next_address]
  exact clear (index + 1) (Nat.succ_le_succ inside) (earlier + 1) (Nat.succ_lt_succ lower)

theorem charAt_update {last x : Nat} (clear : NotOverrun dest src last) (inside : x < last) (al : Byte) :
    charAt (Function.update memory dest al) (src + 1) x = charAt memory src (x + 1) := by
  rw [charAt_tail]
  unfold charAt
  rw [Function.update_of_ne (clear.first inside)]

theorem StopsAfter.tail {n : Nat} (stops : StopsAfter memory src (n + 1) (count + 1))
    (clear : NotOverrun dest src (min (count + 1) n)) (al : Byte) :
    StopsAfter (Function.update memory dest al) (src + 1) n count := by
  have within := stops.within
  constructor
  · omega
  · intro index below
    rw [charAt_update clear (by omega)]
    exact stops.nonzero (index + 1) (by omega)
  · intro more
    rw [charAt_update clear (by omega)]
    exact stops.terminator (by omega)

theorem strncpyLoop_copies {rdx : Word} (positive : rdx ≠ 0) (enough : rdx.toNat ≤ fuel)
    (stops : StopsAfter memory src rdx.toNat count)
    (clear : NotOverrun dest src (min count (rdx.toNat - 1))) :
    Asm.strncpyLoop fuel src dest rdx memory =
      some (dest + BitVec.ofNat 64 count, rdx - BitVec.ofNat 64 count, copiedTo memory dest src count) := by
  have some' := toNat_pos_of_ne positive
  induction fuel generalizing memory src dest rdx count with
  | zero => omega
  | succ fuel ih =>
    have bound := rdx.isLt
    simp only [Asm.strncpyLoop]
    cases count with
    | zero =>
      have zero := stops.terminator some'
      rw [charAt_zero] at zero
      rw [if_pos zero, copiedTo_zero, BitVec.add_zero, BitVec.sub_zero]
    | succ count =>
      have within := stops.within
      have nonzero := stops.nonzero 0 (Nat.succ_pos count)
      rw [charAt_zero] at nonzero
      have less : (rdx - 1).toNat = rdx.toNat - 1 := BitVec.toNat_sub_of_le some'
      have whole : rdx.toNat = (rdx - 1).toNat + 1 := by omega
      have copied : copiedTo (Function.update memory dest (memory src)) (dest + 1) (src + 1) count =
          copiedTo memory dest src (count + 1) :=
        copiedTo_succ (by omega) fun x below => clear.first (by omega)
      rw [if_neg nonzero, ← copied, ← next_address, ← sub_ofNat_succ]
      by_cases last : rdx - 1 = 0
      · have none : count = 0 := by
          rw [last] at whole
          change rdx.toNat = 1 at whole
          omega
        rw [if_pos last, none, copiedTo_zero, BitVec.add_zero, BitVec.sub_zero]
      · have more := toNat_pos_of_ne last
        have here : NotOverrun dest src (min (count + 1) (rdx - 1).toNat) := clear.mono (by omega)
        have later : NotOverrun dest src (min count ((rdx - 1).toNat - 1) + 1) := clear.mono (by omega)
        rw [whole] at stops
        rw [if_neg last]
        exact ih last (by omega) (stops.tail here (memory src)) later.tail more

theorem strcpy_copies {length : Nat} (string : StringAt memory src length)
    (clear : NotOverrun dest src length) :
    Asm.strcpy fuel dest src memory =
      if length < fuel then some (0, copiedTo memory dest src length) else none := by
  induction fuel generalizing memory src dest length with
  | zero =>
    rw [if_neg (Nat.not_lt_zero length)]
    rfl
  | succ fuel ih =>
    simp only [Asm.strcpy]
    cases length with
    | zero =>
      rw [if_pos string.head_zero, if_pos (Nat.succ_pos fuel), copiedTo_zero, string.head_zero]
      rfl
    | succ length =>
      have rest : StringAt (Function.update memory dest (memory src)) (src + 1) length := by
        constructor
        · rw [charAt_update clear (Nat.lt_succ_self length)]
          exact string.terminator
        · intro index below
          rw [charAt_update clear (by omega)]
          exact string.nonzero (index + 1) (by omega)
      have small := string.length_lt
      have copied : copiedTo (Function.update memory dest (memory src)) (dest + 1) (src + 1) length =
          copiedTo memory dest src (length + 1) :=
        copiedTo_succ (by omega) fun x below => clear.first (by omega)
      rw [if_neg string.head_nonzero, ih rest clear.tail, copied]
      simp only [Nat.succ_lt_succ_iff]

/-- Memory with `count` bytes of the source and zeros up to `n` bytes at the destination. -/
def padded (memory : Word → Byte) (dest src : Word) (count n : Nat) : Word → Byte := fun other =>
  if (other - dest).toNat < count then charAt memory src (other - dest).toNat
  else if (other - dest).toNat < n then 0 else memory other

theorem repStosb_copiedTo {n : Nat} (within : count ≤ n) (small : n < 2 ^ 64) :
    Asm.repStosb 0 (n - count) (dest + BitVec.ofNat 64 count) (copiedTo memory dest src count) =
      padded memory dest src count n := by
  rw [repStosb_eq (by omega)]
  funext other
  have bound := (other - dest).isLt
  have place : (other - (dest + BitVec.ofNat 64 count)).toNat < n - count ↔
      count ≤ (other - dest).toNat ∧ (other - dest).toNat < n := by
    rw [sub_add_eq_sub_sub]
    generalize other - dest = offset at bound
    rw [BitVec.toNat_sub, BitVec.toNat_ofNat]
    omega
  simp only [place]
  unfold copiedTo padded
  by_cases early : (other - dest).toNat < count
  · rw [if_neg (by omega), if_pos early, if_pos early]
  · by_cases late : (other - dest).toNat < n
    · rw [if_pos ⟨by omega, late⟩, if_neg early, if_pos late]
    · rw [if_neg (by omega), if_neg early, if_neg early, if_neg late]

theorem address_eq (dest address : Word) : address = dest + BitVec.ofNat 64 (address - dest).toNat := by
  rw [BitVec.ofNat_toNat, BitVec.setWidth_eq, add_sub_cancel]

theorem distance_index {index : Nat} (dest : Word) (small : index < 2 ^ 64) :
    (dest + BitVec.ofNat 64 index - dest).toNat = index := by
  rw [add_sub_cancel_left, BitVec.toNat_ofNat, Nat.mod_eq_of_lt small]

theorem charAt_padded {n index : Nat} (inside : index < n) (small : n < 2 ^ 64) :
    charAt (padded memory dest src count n) dest index =
      if index < count then charAt memory src index else 0 := by
  unfold charAt padded
  rw [distance_index dest (by omega)]
  by_cases early : index < count
  · rw [if_pos early, if_pos early]
    rfl
  · rw [if_neg early, if_neg early, if_pos inside]

theorem padded_of_outside {n : Nat} {address : Word} (within : count ≤ n)
    (outside : ∀ index < n, address ≠ dest + BitVec.ofNat 64 index) :
    padded memory dest src count n address = memory address := by
  have far : n ≤ (address - dest).toNat := by
    by_contra near
    exact outside _ (Nat.lt_of_not_le near) (address_eq dest address)
  unfold padded
  rw [if_neg (by omega), if_neg (by omega)]

/-! ### The stack of `strncpy` -/

/-- The 24 bytes that `strncpy` uses of the stack, down to the slot below its stack pointer. -/
def OwnStack (rsp address : Word) : Prop := (address - (rsp - 24)).toNat < 24

/-- Memory when the loop starts. -/
def saved (memory : Word → Byte) (rsp rbp dest : Word) : Word → Byte :=
  storeQword (storeQword memory (rsp - 8) rbp) (rsp - 8 - 8 - 8) dest

theorem storeQword_of_far {address number other : Word} (far : 8 ≤ (other - address).toNat) :
    storeQword memory address number other = memory other := by
  unfold storeQword
  rw [if_neg (Nat.not_lt_of_le far)]

theorem saved_of_off {address : Word} (off : ¬OwnStack rsp address) :
    saved memory rsp rbp dest address = memory address := by
  unfold OwnStack at off
  have lower : 8 ≤ (address - (rsp - 8 - 8 - 8)).toNat := by bv_omega
  have upper : 8 ≤ (address - (rsp - 8)).toNat := by bv_omega
  unfold saved
  rw [storeQword_of_far lower, storeQword_of_far upper]

theorem loadQword_storeQword (memory : Word → Byte) (address number : Word) :
    loadQword (storeQword memory address number) address = number := by
  have bytes : value (charAt (storeQword memory address number) address) 8 0 =
      value (put (fun _ => 0) 8 0 number.toNat) 8 0 := by
    apply value_congr
    intro x below
    have offset : (address + BitVec.ofNat 64 x - address).toNat = x := by
      rw [add_sub_cancel_left, BitVec.toNat_ofNat]
      omega
    unfold charAt storeQword put
    rw [Nat.zero_add, offset, if_pos below, if_pos (by omega), Nat.sub_zero]
  have whole : number.toNat % 256 ^ 8 = number.toNat := Nat.mod_eq_of_lt number.isLt
  unfold loadQword
  rw [bytes, value_put, whole, BitVec.ofNat_toNat, BitVec.setWidth_eq]

theorem loadQword_congr {memory' : Word → Byte} {address : Word}
    (same : ∀ x < 8, charAt memory' address x = charAt memory address x) :
    loadQword memory' address = loadQword memory address := by
  unfold loadQword
  rw [value_congr]
  intro x below
  rw [Nat.zero_add]
  exact same x below

theorem loadQword_saved_dest : loadQword (saved memory rsp rbp dest) (rsp - 8 - 8 - 8) = dest :=
  loadQword_storeQword _ _ _

theorem loadQword_saved_rbp : loadQword (saved memory rsp rbp dest) (rsp - 8) = rbp := by
  refine Eq.trans ?_ (loadQword_storeQword memory (rsp - 8) rbp)
  apply loadQword_congr
  intro x below
  apply storeQword_of_far
  have distance : rsp - 8 + BitVec.ofNat 64 x - (rsp - 8 - 8 - 8) = 16 + BitVec.ofNat 64 x := by bv_omega
  rw [distance, BitVec.toNat_add, BitVec.toNat_ofNat]
  change 8 ≤ (16 + x % 2 ^ 64) % 2 ^ 64
  omega

/-! ### `strncpy` -/

/-- The calls that are allowed: no byte of the source is overwritten before it is read, and neither
string is on the stack that the function uses itself. -/
structure StrncpyRoom (dest src : Word) (length : Nat) (n rsp : Word) : Prop where
  clear : NotOverrun dest src (min length (n.toNat - 1))
  source : ∀ index ≤ length, index < n.toNat → ¬OwnStack rsp (src + BitVec.ofNat 64 index)
  target : ∀ index < n.toNat, ¬OwnStack rsp (dest + BitVec.ofNat 64 index)

/-- The bytes of the string, zeros up to the length and nothing else; the destination is returned. -/
structure StrncpyDone (memory : Word → Byte) (dest src : Word) (length : Nat) (n rsp rbp : Word)
    (returned : Asm.Returned) : Prop where
  copied : ∀ index < n.toNat, charAt returned.memory dest index =
    if index < length then charAt memory src index else 0
  kept : ∀ address, (∀ index < n.toNat, address ≠ dest + BitVec.ofNat 64 index) →
    ¬OwnStack rsp address → returned.memory address = memory address
  rax : returned.rax = dest
  rbp : returned.rbp = rbp

theorem saved_source {length index : Nat} {n : Word} (room : StrncpyRoom dest src length n rsp)
    (inside : index ≤ length) (below : index < n.toNat) :
    charAt (saved memory rsp rbp dest) src index = charAt memory src index :=
  saved_of_off (room.source index inside below)

theorem saved_stops {length : Nat} {n : Word} (string : StringAt memory src length)
    (room : StrncpyRoom dest src length n rsp) :
    StopsAfter (saved memory rsp rbp dest) src n.toNat (min length n.toNat) := by
  constructor
  · omega
  · intro index below
    rw [saved_source room (by omega) (by omega)]
    exact string.nonzero index (by omega)
  · intro more
    have whole : min length n.toNat = length := by omega
    rw [whole, saved_source room (Nat.le_refl length) (by omega)]
    exact string.terminator

theorem strncpy_eq {length : Nat} {n : Word} (string : StringAt memory src length) (positive : n ≠ 0)
    (room : StrncpyRoom dest src length n rsp) (enough : n.toNat ≤ fuel) :
    Asm.strncpy fuel dest src n rsp rbp memory =
      some ⟨loadQword (padded (saved memory rsp rbp dest) dest src (min length n.toNat) n.toNat)
          (rsp - 8 - 8 - 8),
        loadQword (padded (saved memory rsp rbp dest) dest src (min length n.toNat) n.toNat) (rsp - 8),
        padded (saved memory rsp rbp dest) dest src (min length n.toNat) n.toNat⟩ := by
  have bound := n.isLt
  have some' := toNat_pos_of_ne positive
  have clear : NotOverrun dest src (min (min length n.toNat) (n.toNat - 1)) := room.clear.mono (by omega)
  have stops : StopsAfter (saved memory rsp rbp dest) src n.toNat (min length n.toNat) :=
    saved_stops string room
  have left : (n - BitVec.ofNat 64 (min length n.toNat)).toNat = n.toNat - min length n.toNat := by
    bv_omega
  have loop := strncpyLoop_copies positive enough stops clear
  unfold saved at loop
  simp only [Asm.strncpy, loop, Option.bind_eq_bind, Option.bind_some, left]
  rw [repStosb_copiedTo (by omega) bound]
  rfl

theorem loadQword_padded {length : Nat} {n address : Word} (room : StrncpyRoom dest src length n rsp)
    (own : ∀ x < 8, OwnStack rsp (address + BitVec.ofNat 64 x)) (memory : Word → Byte) :
    loadQword (padded memory dest src (min length n.toNat) n.toNat) address = loadQword memory address := by
  apply loadQword_congr
  intro x below
  apply padded_of_outside (by omega)
  intro index inside same
  apply room.target index inside
  rw [← same]
  exact own x below

theorem strncpy_done {length : Nat} {n : Word} (string : StringAt memory src length) (positive : n ≠ 0)
    (room : StrncpyRoom dest src length n rsp) (enough : n.toNat ≤ fuel) :
    ∃ returned, Asm.strncpy fuel dest src n rsp rbp memory = some returned ∧
      StrncpyDone memory dest src length n rsp rbp returned := by
  have bound := n.isLt
  refine ⟨_, strncpy_eq string positive room enough, ?_, ?_, ?_, ?_⟩
  · intro index below
    dsimp only
    rw [charAt_padded below bound]
    by_cases early : index < length
    · rw [if_pos early, if_pos (by omega), saved_source room early.le below]
    · rw [if_neg early, if_neg (by omega)]
  · intro address outside off
    dsimp only
    rw [padded_of_outside (by omega) outside, saved_of_off off]
  · have slot : ∀ x < 8, OwnStack rsp (rsp - 8 - 8 - 8 + BitVec.ofNat 64 x) := by
      intro x below
      unfold OwnStack
      bv_omega
    dsimp only
    rw [loadQword_padded room slot, loadQword_saved_dest]
  · have slot : ∀ x < 8, OwnStack rsp (rsp - 8 + BitVec.ofNat 64 x) := by
      intro x below
      unfold OwnStack
      bv_omega
    dsimp only
    rw [loadQword_padded room slot, loadQword_saved_rbp]

/-! ### `strcpy` -/

/-- The string at the destination is that of the source, and the destination is returned. -/
structure StrcpyDone (memory : Word → Byte) (dest src : Word) (length : Nat) (rax : Word)
    (after : Word → Byte) : Prop where
  string : StringAt after dest length
  same : ∀ index < length, charAt after dest index = charAt memory src index
  rax : rax = dest

def StrcpyRight (memory : Word → Byte) (dest src : Word) (length : Nat) : Prop :=
  ∃ fuel rax after, Asm.strcpy fuel dest src memory = some (rax, after) ∧
    StrcpyDone memory dest src length rax after

theorem charAt_copiedTo {index : Nat} (inside : index < count) (small : count ≤ 2 ^ 64) :
    charAt (copiedTo memory dest src count) dest index = charAt memory src index := by
  unfold charAt copiedTo
  rw [distance_index dest (by omega), if_pos inside]
  rfl

theorem charAt_copiedTo_end (small : count < 2 ^ 64) :
    charAt (copiedTo memory dest src count) dest count = charAt memory dest count := by
  unfold charAt copiedTo
  rw [distance_index dest small, if_neg (Nat.lt_irrefl count)]

/-- A null pointer is returned, and the string is right only if a zero was there by chance. -/
theorem strcpyRight_iff {length : Nat} (string : StringAt memory src length)
    (clear : NotOverrun dest src length) :
    StrcpyRight memory dest src length ↔ dest = 0 ∧ charAt memory dest length = 0 := by
  have small := string.length_lt
  constructor
  · rintro ⟨fuel, rax, after, ran, done⟩
    rw [strcpy_copies string clear] at ran
    by_cases enough : length < fuel
    · rw [if_pos enough, Option.some.injEq, Prod.mk.injEq] at ran
      have terminator := done.string.terminator
      rw [← ran.2, charAt_copiedTo_end small] at terminator
      exact ⟨done.rax.symm.trans ran.1.symm, terminator⟩
    · rw [if_neg enough] at ran
      cases ran
  · rintro ⟨null, zero⟩
    refine ⟨length + 1, 0, copiedTo memory dest src length, ?_, ?_, ?_, null.symm⟩
    · rw [strcpy_copies string clear, if_pos (Nat.lt_succ_self length)]
    · constructor
      · rw [charAt_copiedTo_end small]
        exact zero
      · intro index below
        rw [charAt_copiedTo below small.le]
        exact string.nonzero index below
    · intro index below
      exact charAt_copiedTo below small.le

/-! ### The calls of `vsnprintf` -/

/-- A conversion is made with the position of the percent sign, behind the jumps back to
`next_format`. -/
theorem nextFormat_convert {size : Nat} {strings : Word → List Byte} {printer converted : Printer}
    (returned : Printer.nextFormat size strings fuel printer = some converted) :
    ∃ (jumps : Nat) (conversion : Conversion),
      conversionOf (Printer.jump^[jumps] printer).current = some conversion ∧
        (Printer.jump^[jumps] printer).n = printer.n ∧
          converted = (Printer.jump^[jumps] printer).convert size strings conversion := by
  induction fuel generalizing printer with
  | zero => cases returned
  | succ fuel ih =>
    cases known : conversionOf printer.current with
    | some conversion =>
      rw [Printer.nextFormat_known known, Option.some.injEq] at returned
      exact ⟨0, conversion, known, rfl, returned.symm⟩
    | none =>
      rw [Printer.nextFormat_unknown known] at returned
      obtain ⟨jumps, conversion, here, position, same⟩ := ih returned
      exact ⟨jumps + 1, conversion, here, position.trans (Printer.jump_eq printer).1, same⟩

/-- In every round of the loop of `vsnprintf` a conversion is made where `size - n`, the length
that a string is copied with, is not zero. -/
def PositiveLengths : Prop :=
  ∀ (size fuel : Nat) (strings : Word → List Byte) (printer converted : Printer),
    size < 2 ^ 64 → ¬(printer.current = 0 ∨ size ≤ printer.n) →
      Printer.nextFormat size strings fuel printer.advance = some converted →
        ∃ (jumps : Nat) (conversion : Conversion),
          conversionOf (Printer.jump^[jumps] printer.advance).current = some conversion ∧
            BitVec.ofNat 64 (size - (Printer.jump^[jumps] printer.advance).n) ≠ 0 ∧
              converted = (Printer.jump^[jumps] printer.advance).convert size strings conversion

theorem positiveLengths : PositiveLengths := by
  intro size fuel strings printer converted fits goesOn returned
  obtain ⟨jumps, conversion, here, position, same⟩ := nextFormat_convert returned
  have advanced : printer.advance.n = printer.n := rfl
  refine ⟨jumps, conversion, here, ?_, same⟩
  intro zero
  have none := congrArg BitVec.toNat zero
  rw [position, advanced, BitVec.toNat_ofNat] at none
  change (size - printer.n) % 2 ^ 64 = 0 at none
  omega

/-! ### Both copies -/

def StrncpyRight (memory : Word → Byte) (dest src : Word) (length : Nat) (n rsp rbp : Word) : Prop :=
  ∃ fuel returned, Asm.strncpy fuel dest src n rsp rbp memory = some returned ∧
    StrncpyDone memory dest src length n rsp rbp returned

/-- `strncpy` is right for every length but zero, and `vsnprintf` passes no zero; `strcpy` is right
only for a null pointer, and if the terminator was there before. -/
theorem string_copies {length : Nat} (string : StringAt memory src length) :
    (∀ n rsp rbp : Word, n ≠ 0 → StrncpyRoom dest src length n rsp →
        StrncpyRight memory dest src length n rsp rbp) ∧
      PositiveLengths ∧
        (NotOverrun dest src length →
          (StrcpyRight memory dest src length ↔ dest = 0 ∧ charAt memory dest length = 0)) := by
  refine ⟨?_, positiveLengths, strcpyRight_iff string⟩
  intro n rsp rbp positive room
  obtain ⟨returned, ran, done⟩ := strncpy_done string positive room (Nat.le_refl n.toNat)
  exact ⟨n.toNat, returned, ran, done⟩

/-- "ab" at 0x1000, and four other characters where it goes. -/
def shortOverLong : Word → Byte := fun address =>
  twoStrings [0x61, 0x62] [0x78, 0x78, 0x78, 0x78] address.toNat

theorem strncpy_short : StrncpyRight shortOverLong 0x2000 0x1000 2 3 0x8000 0 := by
  have string : StringAt shortOverLong 0x1000 2 := ⟨by decide, by decide⟩
  have room : StrncpyRoom 0x2000 0x1000 2 3 0x8000 := by
    constructor
    · unfold NotOverrun
      decide
    · unfold OwnStack
      decide
    · unfold OwnStack
      decide
  exact (string_copies string).1 3 0x8000 0 (by decide) room

/-- The old string shows behind the copy, and nothing is returned. -/
theorem strcpy_short : StringAt shortOverLong 0x1000 2 ∧ NotOverrun 0x2000 0x1000 2 ∧
    (∃ after, Asm.strcpy 3 0x2000 0x1000 shortOverLong = some (0, after) ∧ StringAt after 0x2000 4 ∧
      ¬StringAt after 0x2000 2) ∧
    ¬StrcpyRight shortOverLong 0x2000 0x1000 2 := by
  have string : StringAt shortOverLong 0x1000 2 := ⟨by decide, by decide⟩
  have clear : NotOverrun 0x2000 0x1000 2 := by
    unfold NotOverrun
    decide
  refine ⟨string, clear, ⟨copiedTo shortOverLong 0x2000 0x1000 2, ?_, ⟨by decide, by decide⟩, ?_⟩, ?_⟩
  · rw [strcpy_copies string clear]
    rfl
  · intro ended
    exact absurd ended.terminator (by decide)
  · rw [strcpyRight_iff string clear]
    decide

end Osdev64
