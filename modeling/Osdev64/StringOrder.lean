/-
`strncmp` as an order.

The strings are cut at their terminator and at the count, and their bytes are taken
as unsigned numbers: the order is the lexicographic one of these lists.  The loop
leaves at the first difference, at a terminator that both have, or with the count
used up, and reads the two bytes of each index up to there.
-/

import Osdev64.SseString
import Osdev64.Lib.Log
import Mathlib.Data.List.Lex

namespace Osdev64

open Word64 Bytes Log

/-- The bytes of a string in front of its terminator, and at most `n` of them. -/
def cutString (memory : Word → Byte) (s : Word) (length n : Nat) : List Nat :=
  (List.range (min length n)).map fun index => (charAt memory s index).toNat

/-- `strncmp` with the addresses it reads, in order. -/
def strncmpLog (memory : Word → Byte) : Nat → Word → Word → Log Word Int
  | 0, _, _ => pure 0
  | n + 1, s1, s2 => do
    tell [s1, s2]
    if memory s1 ≠ memory s2 then do
      tell [s1, s2]
      pure (if (memory s1).toNat < (memory s2).toNat then -1 else 1)
    else do
      tell [s1]
      if memory s1 = 0 then pure 0 else strncmpLog memory n (s1 + 1) (s2 + 1)

variable {memory : Word → Byte} {a b c s : Word} {lengthA lengthB lengthC length : Nat}

/-! ### Cut strings -/

theorem cutString_none : cutString memory s length 0 = [] := by
  unfold cutString
  rw [Nat.min_zero]
  rfl

theorem cutString_empty {n : Nat} : cutString memory s 0 n = [] := by
  unfold cutString
  rw [Nat.zero_min]
  rfl

theorem cutString_succ {n : Nat} : cutString memory s (length + 1) (n + 1) =
    (memory s).toNat :: cutString memory (s + 1) length n := by
  unfold cutString
  rw [Nat.succ_min_succ, List.range_succ_eq_map, List.map_cons, List.map_map, charAt_zero]
  congr 2
  funext index
  rw [Function.comp_apply, charAt_tail]

/-! ### The three results -/

variable {n : Nat}

theorem strncmpLoop_swap (memory : Word → Byte) (n : Nat) (a b : Word) :
    strncmpLoop memory n b a = -strncmpLoop memory n a b := by
  induction n generalizing a b with
  | zero => rfl
  | succ n ih =>
    by_cases same : memory a = memory b
    · by_cases zero : memory a = 0
      · rw [strncmpLoop_end same zero, strncmpLoop_end same.symm (same ▸ zero), Int.neg_zero]
      · rw [strncmpLoop_next same zero, strncmpLoop_next same.symm (same ▸ zero), ih]
    · have different : (memory a).toNat ≠ (memory b).toNat := fun equal =>
        same (BitVec.eq_of_toNat_eq equal)
      rw [strncmpLoop_differ same, strncmpLoop_differ (Ne.symm same)]
      by_cases less : (memory a).toNat < (memory b).toNat
      · rw [if_pos less, if_neg (by omega), Int.neg_neg]
      · rw [if_neg less, if_pos (by omega)]

theorem strncmpLoop_equal (stringA : StringAt memory a lengthA) (stringB : StringAt memory b lengthB)
    (equal : cutString memory a lengthA n = cutString memory b lengthB n) :
    strncmpLoop memory n a b = 0 := by
  induction n generalizing a b lengthA lengthB with
  | zero => rfl
  | succ n ih =>
    cases lengthA with
    | zero =>
      cases lengthB with
      | zero =>
        have same : memory a = memory b := stringA.head_zero.trans stringB.head_zero.symm
        exact strncmpLoop_end same stringA.head_zero
      | succ lengthB =>
        rw [cutString_empty, cutString_succ] at equal
        cases equal
    | succ lengthA =>
      cases lengthB with
      | zero =>
        rw [cutString_empty, cutString_succ] at equal
        cases equal
      | succ lengthB =>
        rw [cutString_succ, cutString_succ, List.cons.injEq] at equal
        have same : memory a = memory b := BitVec.eq_of_toNat_eq equal.1
        rw [strncmpLoop_next same stringA.head_nonzero]
        exact ih stringA.tail stringB.tail equal.2

theorem strncmpLoop_less (stringA : StringAt memory a lengthA) (stringB : StringAt memory b lengthB)
    (less : cutString memory a lengthA n < cutString memory b lengthB n) :
    strncmpLoop memory n a b = -1 := by
  induction n generalizing a b lengthA lengthB with
  | zero =>
    rw [cutString_none, cutString_none] at less
    exact absurd less (List.not_lt_nil [])
  | succ n ih =>
    cases lengthB with
    | zero =>
      rw [cutString_empty] at less
      exact absurd less (List.not_lt_nil _)
    | succ lengthB =>
      have positive := toNat_pos_of_ne stringB.head_nonzero
      cases lengthA with
      | zero =>
        -- the first string ends here, and its terminator is below every other byte
        have differ : memory a ≠ memory b := fun same =>
          stringB.head_nonzero (same.symm.trans stringA.head_zero)
        have lower : (memory a).toNat < (memory b).toNat := by
          rw [stringA.head_zero]
          exact positive
        rw [strncmpLoop_differ differ, if_pos lower]
      | succ lengthA =>
        rw [cutString_succ, cutString_succ, List.cons_lt_cons_iff] at less
        cases less with
        | inl lower =>
          have differ : memory a ≠ memory b := fun same => by
            rw [same] at lower
            exact absurd lower (Nat.lt_irrefl _)
          rw [strncmpLoop_differ differ, if_pos lower]
        | inr later =>
          have same : memory a = memory b := BitVec.eq_of_toNat_eq later.1
          rw [strncmpLoop_next same stringA.head_nonzero]
          exact ih stringA.tail stringB.tail later.2

theorem strncmpLoop_greater (stringA : StringAt memory a lengthA) (stringB : StringAt memory b lengthB)
    (greater : cutString memory b lengthB n < cutString memory a lengthA n) :
    strncmpLoop memory n a b = 1 := by
  rw [strncmpLoop_swap, strncmpLoop_less stringB stringA greater]
  rfl

/-! ### Signs -/

theorem strncmpLoop_nonpos_iff (stringA : StringAt memory a lengthA)
    (stringB : StringAt memory b lengthB) :
    strncmpLoop memory n a b ≤ 0 ↔ cutString memory a lengthA n ≤ cutString memory b lengthB n := by
  rcases lt_trichotomy (cutString memory a lengthA n) (cutString memory b lengthB n) with
    less | equal | greater
  · rw [strncmpLoop_less stringA stringB less]
    exact iff_of_true (by decide) less.le
  · rw [strncmpLoop_equal stringA stringB equal]
    exact iff_of_true (by decide) equal.le
  · rw [strncmpLoop_greater stringA stringB greater]
    exact iff_of_false (by decide) (not_le.mpr greater)

theorem strncmpLoop_neg_iff (stringA : StringAt memory a lengthA)
    (stringB : StringAt memory b lengthB) :
    strncmpLoop memory n a b < 0 ↔ cutString memory a lengthA n < cutString memory b lengthB n := by
  have other := strncmpLoop_nonpos_iff (n := n) stringB stringA
  rw [strncmpLoop_swap] at other
  rw [← not_le, ← not_le, ← other]
  constructor
  · intro below above
    omega
  · intro above below
    omega

theorem strncmpLoop_zero_iff (stringA : StringAt memory a lengthA)
    (stringB : StringAt memory b lengthB) :
    strncmpLoop memory n a b = 0 ↔ cutString memory a lengthA n = cutString memory b lengthB n := by
  have left := strncmpLoop_nonpos_iff (n := n) stringA stringB
  have right := strncmpLoop_nonpos_iff (n := n) stringB stringA
  rw [strncmpLoop_swap] at right
  constructor
  · intro zero
    exact le_antisymm (left.mp zero.le) (right.mp (by omega))
  · exact strncmpLoop_equal stringA stringB

/-! ### What is read -/

theorem strncmpLog_differ (differ : memory a ≠ memory b) : strncmpLog memory (n + 1) a b =
    ⟨[a, b, a, b], some (if (memory a).toNat < (memory b).toNat then -1 else 1)⟩ := by
  rw [strncmpLog, tell_andThen, if_pos differ]
  rfl

theorem strncmpLog_end (same : memory a = memory b) (zero : memory a = 0) :
    strncmpLog memory (n + 1) a b = ⟨[a, b, a], some 0⟩ := by
  rw [strncmpLog, tell_andThen, if_neg (not_not_intro same), tell_andThen, if_pos zero]
  rfl

theorem strncmpLog_next (same : memory a = memory b) (nonzero : memory a ≠ 0) :
    strncmpLog memory (n + 1) a b =
      ⟨a :: b :: a :: (strncmpLog memory n (a + 1) (b + 1)).events,
        (strncmpLog memory n (a + 1) (b + 1)).result⟩ := by
  rw [strncmpLog, tell_andThen, if_neg (not_not_intro same), tell_andThen, if_neg nonzero]
  rfl

theorem strncmpLog_result (memory : Word → Byte) (n : Nat) (a b : Word) :
    (strncmpLog memory n a b).result = some (strncmpLoop memory n a b) := by
  induction n generalizing a b with
  | zero => rfl
  | succ n ih =>
    by_cases same : memory a = memory b
    · by_cases zero : memory a = 0
      · rw [strncmpLog_end same zero, strncmpLoop_end same zero]
      · rw [strncmpLog_next same zero, strncmpLoop_next same zero]
        exact ih (a + 1) (b + 1)
    · rw [strncmpLog_differ same, strncmpLoop_differ same]

theorem strncmpLog_congr {memory' : Word → Byte}
    (agree : ∀ address ∈ (strncmpLog memory n a b).events, memory' address = memory address) :
    strncmpLog memory' n a b = strncmpLog memory n a b := by
  induction n generalizing a b with
  | zero => rfl
  | succ n ih =>
    by_cases same : memory a = memory b
    · by_cases zero : memory a = 0
      · rw [strncmpLog_end same zero] at agree ⊢
        have first := agree a (by simp)
        have second := agree b (by simp)
        exact strncmpLog_end (by rw [first, second, same]) (by rw [first, zero])
      · rw [strncmpLog_next same zero] at agree ⊢
        have first := agree a (by simp)
        have second := agree b (by simp)
        have rest : strncmpLog memory' n (a + 1) (b + 1) = strncmpLog memory n (a + 1) (b + 1) := by
          apply ih
          intro address later
          exact agree address
            (List.mem_cons_of_mem a (List.mem_cons_of_mem b (List.mem_cons_of_mem a later)))
        rw [strncmpLog_next (by rw [first, second, same]) (by rw [first]; exact zero), rest]
    · rw [strncmpLog_differ same] at agree ⊢
      have first := agree a (by simp)
      have second := agree b (by simp)
      rw [strncmpLog_differ (by rw [first, second]; exact same), first, second]

/-- Every address that is read belongs to an index below the count that is not behind the
terminator of the string it is read from. -/
def ReadsInside (memory : Word → Byte) (a b : Word) (lengthA lengthB n : Nat) : Prop :=
  ∀ address ∈ (strncmpLog memory n a b).events, ∃ index < n,
    (index ≤ lengthA ∧ address = a + BitVec.ofNat 64 index) ∨
      (index ≤ lengthB ∧ address = b + BitVec.ofNat 64 index)

theorem mem_strncmpLog {address : Word} (read : address ∈ (strncmpLog memory (n + 1) a b).events) :
    address = a ∨ address = b ∨ (memory a = memory b ∧ memory a ≠ 0 ∧
      address ∈ (strncmpLog memory n (a + 1) (b + 1)).events) := by
  by_cases same : memory a = memory b
  · by_cases zero : memory a = 0
    · rw [strncmpLog_end same zero] at read
      simp only [List.mem_cons, List.not_mem_nil] at read
      tauto
    · rw [strncmpLog_next same zero] at read
      simp only [List.mem_cons] at read
      tauto
  · rw [strncmpLog_differ same] at read
    simp only [List.mem_cons, List.not_mem_nil] at read
    tauto

theorem StringAt.exists_succ (string : StringAt memory s length) (nonzero : memory s ≠ 0) :
    ∃ rest, length = rest + 1 := by
  cases length with
  | zero => exact absurd string.head_zero nonzero
  | succ rest => exact ⟨rest, rfl⟩

theorem readsInside (stringA : StringAt memory a lengthA) (stringB : StringAt memory b lengthB) :
    ReadsInside memory a b lengthA lengthB n := by
  induction n generalizing a b lengthA lengthB with
  | zero =>
    intro address read
    exact absurd read List.not_mem_nil
  | succ n ih =>
    intro address read
    rcases mem_strncmpLog read with rfl | rfl | ⟨same, nonzero, later⟩
    · exact ⟨0, Nat.succ_pos n, Or.inl ⟨Nat.zero_le _, (BitVec.add_zero address).symm⟩⟩
    · exact ⟨0, Nat.succ_pos n, Or.inr ⟨Nat.zero_le _, (BitVec.add_zero address).symm⟩⟩
    · obtain ⟨restA, rfl⟩ := stringA.exists_succ nonzero
      obtain ⟨restB, rfl⟩ := stringB.exists_succ (same ▸ nonzero)
      obtain ⟨index, below, place⟩ := ih stringA.tail stringB.tail address later
      rw [next_address, next_address] at place
      refine ⟨index + 1, Nat.succ_lt_succ below, ?_⟩
      cases place with
      | inl first => exact Or.inl ⟨Nat.succ_le_succ first.1, first.2⟩
      | inr second => exact Or.inr ⟨Nat.succ_le_succ second.1, second.2⟩

/-! ### The order -/

/-- `strncmp` with this count is the order of the cut strings; it reads no byte behind them, and what
it reads decides its result. -/
structure OrdersStrings (memory : Word → Byte) (a b c : Word) (lengthA lengthB lengthC : Nat) (n : Word) :
    Prop where
  less : cutString memory a lengthA n.toNat < cutString memory b lengthB n.toNat →
    strncmp memory a b n = -1
  equal : cutString memory a lengthA n.toNat = cutString memory b lengthB n.toNat →
    strncmp memory a b n = 0
  greater : cutString memory b lengthB n.toNat < cutString memory a lengthA n.toNat →
    strncmp memory a b n = 1
  antisymmetric : strncmp memory b a n = -strncmp memory a b n
  transitive : strncmp memory a b n ≤ 0 → strncmp memory b c n ≤ 0 → strncmp memory a c n ≤ 0
  transitiveStrict : strncmp memory a b n < 0 → strncmp memory b c n < 0 → strncmp memory a c n < 0
  zero : strncmp memory a b n = 0 ↔
    cutString memory a lengthA n.toNat = cutString memory b lengthB n.toNat
  result : (strncmpLog memory n.toNat a b).result = some (strncmp memory a b n)
  reads : ReadsInside memory a b lengthA lengthB n.toNat
  decided : ∀ memory', (∀ address ∈ (strncmpLog memory n.toNat a b).events,
    memory' address = memory address) → strncmp memory' a b n = strncmp memory a b n

theorem strncmp_orders (n : Word) (stringA : StringAt memory a lengthA)
    (stringB : StringAt memory b lengthB) (stringC : StringAt memory c lengthC) :
    OrdersStrings memory a b c lengthA lengthB lengthC n where
  less := strncmpLoop_less stringA stringB
  equal := strncmpLoop_equal stringA stringB
  greater := strncmpLoop_greater stringA stringB
  antisymmetric := strncmpLoop_swap memory n.toNat a b
  transitive := by
    intro first second
    have below := (strncmpLoop_nonpos_iff stringA stringB).mp first
    have above := (strncmpLoop_nonpos_iff stringB stringC).mp second
    exact (strncmpLoop_nonpos_iff stringA stringC).mpr (below.trans above)
  transitiveStrict := by
    intro first second
    have below := (strncmpLoop_neg_iff stringA stringB).mp first
    have above := (strncmpLoop_neg_iff stringB stringC).mp second
    exact (strncmpLoop_neg_iff stringA stringC).mpr (below.trans above)
  zero := strncmpLoop_zero_iff stringA stringB
  result := strncmpLog_result memory n.toNat a b
  reads := readsInside stringA stringB
  decided := by
    intro memory' agree
    have other := strncmpLog_result memory' n.toNat a b
    rw [strncmpLog_congr agree, strncmpLog_result] at other
    exact (Option.some.inj other).symm

/-- Memory with the strings "a", "ab" and one with a byte above 0x7F, one behind the other. -/
def threeStrings : Word → Byte := fun address =>
  [0x61, 0, 0x61, 0x62, 0, 0x61, 0xE9, 0].getD (address.toNat - 0x1000) 0

/-- A string in front of its extension, and 0x62 in front of 0xE9. -/
theorem strncmp_orders_three : OrdersStrings threeStrings 0x1000 0x1002 0x1005 1 2 2 8 ∧
    strncmp threeStrings 0x1000 0x1002 8 = -1 ∧ strncmp threeStrings 0x1002 0x1005 8 = -1 := by
  have first : StringAt threeStrings 0x1000 1 := ⟨by decide, by decide⟩
  have second : StringAt threeStrings 0x1002 2 := ⟨by decide, by decide⟩
  have third : StringAt threeStrings 0x1005 2 := ⟨by decide, by decide⟩
  exact ⟨strncmp_orders 8 first second third, by decide, by decide⟩

end Osdev64
