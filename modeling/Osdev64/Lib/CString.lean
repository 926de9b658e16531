/-
Strings in a finite piece of memory.

A buffer is the bytes from a pointer on; behind its end every byte is zero, so
that a string that was never terminated still has an end.  A store beyond the end
makes the buffer longer.
-/

import Osdev64.Lib.Bytes
import Mathlib.Data.List.TakeWhile

namespace CString

open Bytes

abbrev Buffer := List Byte

def peek (buffer : Buffer) (index : Nat) : Byte := buffer.getD index 0

def poke (buffer : Buffer) (index : Nat) (byte : Byte) : Buffer :=
  if index < buffer.length then buffer.set index byte
  else buffer ++ List.replicate (index - buffer.length) 0 ++ [byte]

/-- The bytes up to the first zero. -/
def content (buffer : Buffer) : List Byte := buffer.takeWhile (· ≠ 0)

def strlen (buffer : Buffer) : Nat := (content buffer).length

/-- `count` bytes of one value. -/
def memset (buffer : Buffer) (start : Nat) (byte : Byte) : Nat → Buffer
  | 0 => buffer
  | count + 1 => poke (memset buffer start byte count) (start + count) byte

/-- The buffer holds exactly this string. -/
structure Holds (buffer : Buffer) (string : List Byte) : Prop where
  bytes : ∀ index < string.length, peek buffer index = string.getD index 0
  zero : peek buffer string.length = 0
  nonzero : ∀ byte ∈ string, byte ≠ 0

variable {buffer : Buffer}

theorem peek_poke (buffer : Buffer) (index other : Nat) (byte : Byte) :
    peek (poke buffer index byte) other = if other = index then byte else peek buffer other := by
  unfold peek poke
  by_cases inside : index < buffer.length
  · rw [if_pos inside, List.getD_eq_getElem?_getD, List.getElem?_set, List.getD_eq_getElem?_getD]
    by_cases same : other = index
    · rw [if_pos same, if_pos same.symm, if_pos (by omega), Option.getD_some]
    · rw [if_neg same, if_neg (Ne.symm same)]
  · have padded : (buffer ++ List.replicate (index - buffer.length) 0).length = index := by
      rw [List.length_append, List.length_replicate]
      omega
    rw [if_neg inside]
    rcases Nat.lt_trichotomy other index with before | rfl | behind
    · rw [List.getD_append _ _ _ _ (by omega), if_neg (Nat.ne_of_lt before)]
      rcases Nat.lt_or_ge other buffer.length with old | new
      · rw [List.getD_append _ _ _ _ old]
      · rw [List.getD_append_right _ _ _ _ new, List.getD_replicate _ (by omega),
          List.getD_eq_default _ _ new]
    · rw [List.getD_append_right _ _ _ _ (Nat.le_of_eq padded), padded, Nat.sub_self, if_pos rfl]
      rfl
    · have ended : (buffer ++ List.replicate (index - buffer.length) 0 ++ [byte]).length ≤ other := by
        rw [List.length_append, padded, List.length_singleton]
        exact behind
      rw [if_neg (Nat.ne_of_gt behind), List.getD_eq_default _ _ ended,
        List.getD_eq_default _ _ (by omega)]

theorem peek_memset (buffer : Buffer) (start count other : Nat) (byte : Byte) :
    peek (memset buffer start byte count) other =
      if start ≤ other ∧ other < start + count then byte else peek buffer other := by
  induction count with
  | zero => rw [memset, if_neg (by omega)]
  | succ count ih =>
    rw [memset, peek_poke, ih]
    split_ifs <;> first | rfl | omega

theorem content_zero (rest : Buffer) : content (0 :: rest) = [] := rfl

theorem content_cons {byte : Byte} (nonzero : byte ≠ 0) (rest : Buffer) :
    content (byte :: rest) = byte :: content rest := by
  unfold content
  rw [List.takeWhile_cons_of_pos (by simpa using nonzero)]

theorem getElem_content {index : Nat} (inside : index < (content buffer).length) :
    (content buffer)[index] = peek buffer index := by
  have front : content buffer <+: buffer := List.takeWhile_prefix _
  rw [List.IsPrefix.getElem front, peek, List.getD_eq_getElem?_getD,
    List.getElem?_eq_getElem (Nat.lt_of_lt_of_le inside front.length_le), Option.getD_some]

theorem ne_zero_of_mem_content {byte : Byte} (member : byte ∈ content buffer) : byte ≠ 0 := by
  have kept := List.mem_takeWhile_imp member
  simpa using kept

theorem peek_ne_zero {index : Nat} (inside : index < strlen buffer) : peek buffer index ≠ 0 := by
  rw [← getElem_content inside]
  exact ne_zero_of_mem_content (List.getElem_mem inside)

theorem peek_strlen (buffer : Buffer) : peek buffer (strlen buffer) = 0 := by
  induction buffer with
  | nil => rfl
  | cons byte rest ih =>
    by_cases zero : byte = 0
    · subst zero
      rfl
    · have longer : strlen (byte :: rest) = strlen rest + 1 := by
        rw [strlen, content_cons zero, List.length_cons, strlen]
      rw [longer]
      exact ih

theorem strlen_eq {length : Nat} (nonzero : ∀ index < length, peek buffer index ≠ 0)
    (zero : peek buffer length = 0) : strlen buffer = length := by
  rcases Nat.lt_trichotomy (strlen buffer) length with less | same | more
  · exact absurd (peek_strlen buffer) (nonzero _ less)
  · exact same
  · exact absurd zero (peek_ne_zero more)

namespace Holds

variable {string : List Byte}

theorem peek_ne_zero (holds : Holds buffer string) {index : Nat} (inside : index < string.length) :
    peek buffer index ≠ 0 := by
  rw [holds.bytes index inside, List.getD_eq_getElem _ _ inside]
  exact holds.nonzero _ (List.getElem_mem inside)

theorem strlen_eq (holds : Holds buffer string) : strlen buffer = string.length :=
  CString.strlen_eq (fun _ inside => holds.peek_ne_zero inside) holds.zero

end Holds

end CString
