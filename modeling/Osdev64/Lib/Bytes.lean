/-
Byte memory behind an address translation.

Numbers are stored with their low byte first.  A run of addresses that is mapped
to a run of places is read and written as that run; the loops over bytes and
words are stated on it, so that a proof about them never looks at one address.
-/

import Osdev64.Lib.Word
import Mathlib.Data.Option.Basic
import Mathlib.Logic.Function.Basic

namespace Bytes

open Word64

abbrev Byte := BitVec 8

abbrev Memory := Nat → Byte

/-- The place behind an address; `none` is a page fault. -/
abbrev Translation := Word → Option Nat

/-- The number in `count` bytes. -/
def value (memory : Memory) : Nat → Nat → Nat
  | 0, _ => 0
  | count + 1, place => (memory place).toNat + 256 * value memory count (place + 1)

/-- Memory after `count` bytes of a number were stored at a place. -/
def put (memory : Memory) (count place number : Nat) : Memory := fun other =>
  if place ≤ other ∧ other < place + count then
    BitVec.ofNat 8 (number / 256 ^ (other - place))
  else memory other

def load (translation : Translation) (memory : Memory) : Nat → Word → Option Nat
  | 0, _ => some 0
  | count + 1, address => do
    let place ← translation address
    let rest ← load translation memory count (address + 1)
    pure ((memory place).toNat + 256 * rest)

def store (translation : Translation) (memory : Memory) : Nat → Word → Nat → Option Memory
  | 0, _, _ => some memory
  | count + 1, address, number => do
    let place ← translation address
    store translation (Function.update memory place (BitVec.ofNat 8 number)) count (address + 1)
      (number / 256)

/-- `rep movsb`. -/
def repMovsb (translation : Translation) : Nat → Word → Word → Memory → Option Memory
  | 0, _, _, memory => some memory
  | rcx + 1, rdi, rsi, memory => do
    let source ← translation rsi
    let target ← translation rdi
    repMovsb translation rcx (rdi + 1) (rsi + 1) (Function.update memory target (memory source))

/-- `rep stosq`. -/
def repStosq (translation : Translation) (rax : Nat) : Nat → Word → Memory → Option Memory
  | 0, _, memory => some memory
  | rcx + 1, rdi, memory => do
    let memory ← store translation memory 8 rdi rax
    repStosq translation rax rcx (rdi + 8) memory

/-- Memory after `count` bytes were copied, all of them read before the first was written. -/
def copied (memory : Memory) (source target count : Nat) : Memory := fun other =>
  if target ≤ other ∧ other < target + count then memory (source + (other - target))
  else memory other

/-- The addresses from `address` on are mapped to the places from `place` on. -/
def Maps (translation : Translation) (address : Word) (place count : Nat) : Prop :=
  ∀ x < count, translation (address + BitVec.ofNat 64 x) = some (place + x)

variable {translation : Translation} {memory memory' : Memory} {address : Word}
  {place place' count number : Nat}

/-! ### Mapped runs -/

theorem Maps.head (maps : Maps translation address place (count + 1)) :
    translation address = some place := by
  have first := maps 0 (Nat.succ_pos count)
  simpa using first

theorem Maps.shift {offset : Nat} (maps : Maps translation address place count)
    (inside : offset ≤ count) :
    Maps translation (address + BitVec.ofNat 64 offset) (place + offset) (count - offset) := by
  intro x below
  have here := maps (offset + x) (by omega)
  rwa [BitVec.ofNat_add, ← BitVec.add_assoc, ← Nat.add_assoc] at here

theorem Maps.tail (maps : Maps translation address place (count + 1)) :
    Maps translation (address + 1) (place + 1) count := by
  have shifted := maps.shift (Nat.succ_le_succ (Nat.zero_le count))
  exact shifted

theorem Maps.mono {fewer : Nat} (maps : Maps translation address place count) (le : fewer ≤ count) :
    Maps translation address place fewer :=
  fun x below => maps x (Nat.lt_of_lt_of_le below le)

/-! ### Numbers -/

theorem value_succ : value memory (count + 1) place =
    (memory place).toNat + 256 * value memory count (place + 1) := rfl

theorem value_zero : value memory 0 place = 0 := rfl

theorem value_congr (same : ∀ x < count, memory' (place + x) = memory (place + x)) :
    value memory' count place = value memory count place := by
  induction count generalizing place with
  | zero => rfl
  | succ count ih =>
    have first := same 0 (Nat.succ_pos count)
    have rest : value memory' count (place + 1) = value memory count (place + 1) := by
      apply ih
      intro x below
      have here := same (x + 1) (by omega)
      rwa [Nat.add_comm x 1, ← Nat.add_assoc] at here
    rw [Nat.add_zero] at first
    simp only [value, first, rest]

theorem put_of_outside {other : Nat} (outside : ¬(place ≤ other ∧ other < place + count)) :
    put memory count place number other = memory other := by
  unfold put
  rw [if_neg outside]

private theorem put_succ :
    put (Function.update memory place (BitVec.ofNat 8 number)) count (place + 1) (number / 256) =
      put memory (count + 1) place number := by
  funext other
  unfold put
  by_cases first : other = place
  · subst first
    rw [if_neg (by omega), if_pos (by omega), Function.update_self, Nat.sub_self, Nat.pow_zero,
      Nat.div_one]
  · by_cases inside : place + 1 ≤ other ∧ other < place + 1 + count
    · have exponent : other - place = other - (place + 1) + 1 := by omega
      rw [if_pos inside, if_pos (by omega), exponent, Nat.pow_succ', Nat.div_div_eq_div_mul]
    · rw [if_neg inside, if_neg (by omega), Function.update_of_ne first]

theorem value_put_field {offset width : Nat} (inside : offset + width ≤ count) :
    value (put memory count place number) width (place + offset) =
      number / 256 ^ offset % 256 ^ width := by
  induction width generalizing offset with
  | zero => simp [value, Nat.mod_one]
  | succ width ih =>
    have first : put memory count place number (place + offset) =
        BitVec.ofNat 8 (number / 256 ^ offset) := by
      unfold put
      rw [if_pos (by omega), Nat.add_sub_cancel_left]
    have rest := ih (show offset + 1 + width ≤ count by omega)
    have power : 256 ^ (width + 1) = 256 * 256 ^ width := Nat.pow_succ'
    rw [← Nat.add_assoc, Nat.pow_succ, ← Nat.div_div_eq_div_mul] at rest
    simp only [value, first, rest]
    rw [BitVec.toNat_ofNat, power, Nat.mod_mul]

theorem value_put : value (put memory count place number) count place = number % 256 ^ count := by
  have whole : value (put memory count place number) count (place + 0) = _ :=
    value_put_field (Nat.le_of_eq (Nat.zero_add count))
  rwa [Nat.add_zero, Nat.pow_zero, Nat.div_one] at whole

theorem value_mod {short long : Nat} (le : short ≤ long) :
    value memory long place % 256 ^ short = value memory short place := by
  induction short generalizing long place with
  | zero => simp [value, Nat.mod_one]
  | succ short ih =>
    cases long with
    | zero => omega
    | succ long =>
      have power : 256 ^ (short + 1) = 256 * 256 ^ short := Nat.pow_succ'
      have byte := (memory place).isLt
      have low : ((memory place).toNat + 256 * value memory long (place + 1)) % 256 =
          (memory place).toNat := by omega
      have high : ((memory place).toNat + 256 * value memory long (place + 1)) / 256 =
          value memory long (place + 1) := by omega
      simp only [value]
      rw [power, Nat.mod_mul, low, high, ih (by omega)]

theorem value_byte {k : Nat} (below : k < count) :
    value memory count place / 256 ^ k % 256 = (memory (place + k)).toNat := by
  induction k generalizing count place with
  | zero =>
    have low : value memory count place % 256 ^ 1 = value memory 1 place := value_mod below
    rw [Nat.pow_one] at low
    rw [Nat.pow_zero, Nat.div_one, low]
    simp [value]
  | succ k ih =>
    cases count with
    | zero => omega
    | succ count =>
      have byte := (memory place).isLt
      have high : ((memory place).toNat + 256 * value memory count (place + 1)) / 256 =
          value memory count (place + 1) := by omega
      simp only [value]
      rw [Nat.pow_succ', ← Nat.div_div_eq_div_mul, high, ih (by omega), Nat.add_right_comm,
        Nat.add_assoc]

theorem toNat_first (long : 1 ≤ count) : (memory place).toNat = value memory count place % 256 := by
  have first : value memory count place / 256 ^ 0 % 256 = (memory (place + 0)).toNat := value_byte long
  rw [Nat.pow_zero, Nat.div_one] at first
  exact first.symm

theorem load_of_maps (maps : Maps translation address place count) :
    load translation memory count address = some (value memory count place) := by
  induction count generalizing address place with
  | zero => rfl
  | succ count ih =>
    simp only [load, value, maps.head, ih maps.tail]
    rfl

theorem load_congr (same : ∀ x < count, ∀ place,
    translation (address + BitVec.ofNat 64 x) = some place → memory' place = memory place) :
    load translation memory' count address = load translation memory count address := by
  induction count generalizing address with
  | zero => rfl
  | succ count ih =>
    have rest : load translation memory' count (address + 1) =
        load translation memory count (address + 1) := by
      apply ih
      intro x below place behind
      apply same (1 + x) (by omega)
      rw [BitVec.ofNat_add, ← BitVec.add_assoc]
      exact behind
    cases here : translation address with
    | none => simp only [load, here, Option.bind_eq_bind, Option.bind_none]
    | some place =>
      have byte := same 0 (Nat.succ_pos count) place (by rwa [BitVec.add_zero])
      simp only [load, here, rest, byte, Option.bind_eq_bind, Option.bind_some]

theorem store_of_maps (maps : Maps translation address place count) :
    store translation memory count address number = some (put memory count place number) := by
  induction count generalizing address place memory number with
  | zero =>
    simp only [store]
    congr 1
    funext other
    rw [put_of_outside (by omega)]
  | succ count ih =>
    simp only [store, maps.head]
    rw [← put_succ]
    exact ih maps.tail

/-! ### Loops -/

theorem copied_zero {source target : Nat} : copied memory source target 0 = memory := by
  funext other
  unfold copied
  rw [if_neg (by omega)]

theorem copied_above {source target lower upper : Nat}
    (apart : source + (lower + upper) ≤ target ∨ target + (lower + upper) ≤ source) :
    copied (copied memory source target lower) (source + lower) (target + lower) upper =
      copied memory source target (lower + upper) := by
  funext other
  unfold copied
  by_cases high : target + lower ≤ other ∧ other < target + lower + upper
  · have offset : source + lower + (other - (target + lower)) = source + (other - target) := by omega
    rw [if_pos high, if_neg (by omega), if_pos (by omega), offset]
  · by_cases low : target ≤ other ∧ other < target + lower
    · rw [if_neg high, if_pos low, if_pos (by omega)]
    · rw [if_neg high, if_neg low, if_neg (by omega)]

theorem copied_below {source target lower upper : Nat}
    (apart : source + (lower + upper) ≤ target ∨ target + (lower + upper) ≤ source) :
    copied (copied memory (source + lower) (target + lower) upper) source target lower =
      copied memory source target (lower + upper) := by
  funext other
  unfold copied
  by_cases low : target ≤ other ∧ other < target + lower
  · rw [if_pos low, if_neg (by omega), if_pos (by omega)]
  · by_cases high : target + lower ≤ other ∧ other < target + lower + upper
    · have offset : source + lower + (other - (target + lower)) = source + (other - target) := by omega
      rw [if_neg low, if_pos high, if_pos (by omega), offset]
    · rw [if_neg low, if_neg high, if_neg (by omega)]

/-- A copy of fewer bytes is the whole copy exactly if the other bytes were there before. -/
theorem copied_eq_iff {source target fewer : Nat} (le : fewer ≤ count) :
    copied memory source target fewer = copied memory source target count ↔
      ∀ x, fewer ≤ x → x < count → memory (target + x) = memory (source + x) := by
  constructor
  · intro same x behind below
    have here := congrFun same (target + x)
    unfold copied at here
    rwa [if_neg (by omega), if_pos (by omega), Nat.add_sub_cancel_left] at here
  · intro there
    funext other
    unfold copied
    by_cases first : target ≤ other ∧ other < target + fewer
    · rw [if_pos first, if_pos (by omega)]
    · by_cases inside : target ≤ other ∧ other < target + count
      · have place : target + (other - target) = other := by omega
        have here := there (other - target) (by omega) (by omega)
        rw [if_neg first, if_pos inside, ← here, place]
      · rw [if_neg first, if_neg inside]

theorem put_value {source target : Nat} :
    put memory count target (value memory count source) = copied memory source target count := by
  funext other
  unfold put copied
  by_cases inside : target ≤ other ∧ other < target + count
  · have byte : value memory count source / 256 ^ (other - target) % 256 =
        (memory (source + (other - target))).toNat := value_byte (by omega)
    rw [if_pos inside, if_pos inside]
    apply BitVec.eq_of_toNat_eq
    rw [BitVec.toNat_ofNat]
    exact byte
  · rw [if_neg inside, if_neg inside]

theorem repMovsb_of_maps {rdi rsi : Word} {source target : Nat}
    (reads : Maps translation rsi source count) (writes : Maps translation rdi target count)
    (apart : source + count ≤ target ∨ target + count ≤ source) :
    repMovsb translation count rdi rsi memory = some (copied memory source target count) := by
  induction count generalizing rdi rsi source target memory with
  | zero =>
    rw [copied_zero]
    rfl
  | succ count ih =>
    have first : Function.update memory target (memory source) = copied memory source target 1 := by
      funext other
      unfold copied
      by_cases here : other = target
      · subst here
        rw [Function.update_self, if_pos (by omega), Nat.sub_self, Nat.add_zero]
      · rw [Function.update_of_ne here, if_neg (by omega)]
    simp only [repMovsb, reads.head, writes.head]
    refine (ih reads.tail writes.tail (by omega)).trans ?_
    rw [first, copied_above (by omega), Nat.add_comm]

/-! ### Mapped addresses, wherever their places are -/

/-- None of the addresses faults. -/
def AllMapped (translation : Translation) (address : Word) (count : Nat) : Prop :=
  ∀ x < count, (translation (address + BitVec.ofNat 64 x)).isSome

/-- The place is behind one of the addresses. -/
def Behind (translation : Translation) (address : Word) (count place : Nat) : Prop :=
  ∃ x < count, translation (address + BitVec.ofNat 64 x) = some place

theorem AllMapped.sub {offset fewer : Nat} (mapped : AllMapped translation address count)
    (inside : offset + fewer ≤ count) :
    AllMapped translation (address + BitVec.ofNat 64 offset) fewer := by
  intro x below
  rw [BitVec.add_assoc, ← BitVec.ofNat_add]
  exact mapped (offset + x) (by omega)

theorem AllMapped.head (mapped : AllMapped translation address (count + 1)) :
    ∃ place, translation address = some place := by
  have first := mapped 0 (Nat.succ_pos count)
  rw [BitVec.add_zero] at first
  exact Option.isSome_iff_exists.mp first

theorem AllMapped.tail (mapped : AllMapped translation address (count + 1)) :
    AllMapped translation (address + 1) count :=
  mapped.sub (Nat.le_of_eq (Nat.add_comm 1 count))

theorem behind_add {first rest : Nat} : Behind translation address (first + rest) place ↔
    Behind translation address first place ∨
      Behind translation (address + BitVec.ofNat 64 first) rest place := by
  constructor
  · rintro ⟨x, below, here⟩
    rcases Nat.lt_or_ge x first with low | high
    · exact Or.inl ⟨x, low, here⟩
    · refine Or.inr ⟨x - first, by omega, ?_⟩
      rwa [BitVec.add_assoc, ← BitVec.ofNat_add, Nat.add_sub_cancel' high]
  · rintro (⟨x, below, here⟩ | ⟨x, below, here⟩)
    · exact ⟨x, by omega, here⟩
    · rw [BitVec.add_assoc, ← BitVec.ofNat_add] at here
      exact ⟨first + x, by omega, here⟩

theorem behind_succ : Behind translation address (count + 1) place ↔
    translation address = some place ∨ Behind translation (address + 1) count place := by
  rw [Nat.add_comm, behind_add]
  refine or_congr_left ⟨?_, fun here => ⟨0, Nat.one_pos, by rwa [BitVec.add_zero]⟩⟩
  rintro ⟨x, below, here⟩
  rwa [Nat.lt_one_iff.mp below, BitVec.add_zero] at here

theorem Behind.sub {offset fewer : Nat}
    (behind : Behind translation (address + BitVec.ofNat 64 offset) fewer place)
    (inside : offset + fewer ≤ count) : Behind translation address count place := by
  obtain ⟨x, below, here⟩ := behind
  rw [BitVec.add_assoc, ← BitVec.ofNat_add] at here
  exact ⟨offset + x, by omega, here⟩

theorem load_mapped (mapped : AllMapped translation address count) :
    ∃ number, load translation memory count address = some number := by
  induction count generalizing address with
  | zero => exact ⟨0, rfl⟩
  | succ count ih =>
    obtain ⟨place, here⟩ := mapped.head
    obtain ⟨rest, loaded⟩ := ih mapped.tail
    simp only [load, here, loaded]
    exact ⟨_, rfl⟩

theorem store_mapped (mapped : AllMapped translation address count) :
    ∃ memory', store translation memory count address number = some memory' ∧
      (number = 0 → ∀ place, Behind translation address count place → memory' place = 0) ∧
      ∀ place, ¬Behind translation address count place → memory' place = memory place := by
  induction count generalizing address memory number with
  | zero =>
    refine ⟨memory, rfl, ?_, fun _ _ => rfl⟩
    rintro _ place ⟨x, below, _⟩
    exact absurd below (Nat.not_lt_zero x)
  | succ count ih =>
    obtain ⟨first, here⟩ := mapped.head
    obtain ⟨memory', stored, zeros, others⟩ :=
      @ih (Function.update memory first (BitVec.ofNat 8 number)) (address + 1) (number / 256) mapped.tail
    refine ⟨memory', ?_, ?_, ?_⟩
    · simp only [store, here]
      exact stored
    · rintro rfl place behind
      by_cases later : Behind translation (address + 1) count place
      · exact zeros rfl place later
      · have same : first = place :=
          Option.some.inj (here.symm.trans ((behind_succ.mp behind).resolve_right later))
        rw [others place later, same, Function.update_self]
        rfl
    · intro place outside
      rw [behind_succ, not_or] at outside
      rw [others place outside.2, Function.update_of_ne]
      rintro rfl
      exact outside.1 here

theorem repStosq_mapped {rcx : Nat} {rdi : Word} (mapped : AllMapped translation rdi (8 * rcx)) :
    ∃ memory', repStosq translation 0 rcx rdi memory = some memory' ∧
      (∀ place, Behind translation rdi (8 * rcx) place → memory' place = 0) ∧
      ∀ place, ¬Behind translation rdi (8 * rcx) place → memory' place = memory place := by
  induction rcx generalizing rdi memory with
  | zero =>
    refine ⟨memory, rfl, ?_, fun _ _ => rfl⟩
    rintro place ⟨x, below, _⟩
    omega
  | succ rcx ih =>
    have split : 8 * (rcx + 1) = 8 + 8 * rcx := by omega
    rw [split] at mapped ⊢
    have word : AllMapped translation rdi 8 := fun x below => mapped x (by omega)
    obtain ⟨begun, stored, zeros, others⟩ := @store_mapped translation memory rdi 8 0 word
    obtain ⟨memory', cleared, zeros', others'⟩ := @ih begun _ (mapped.sub (Nat.le_refl _))
    refine ⟨memory', ?_, ?_, ?_⟩
    · simp only [repStosq, stored]
      exact cleared
    · intro place behind
      by_cases later : Behind translation (rdi + BitVec.ofNat 64 8) (8 * rcx) place
      · exact zeros' place later
      · rw [others' place later]
        exact zeros rfl place ((behind_add.mp behind).resolve_right later)
    · intro place outside
      rw [behind_add, not_or] at outside
      rw [others' place outside.2, others place outside.1]

theorem repMovsb_mapped {rdi rsi : Word} (reads : AllMapped translation rsi count)
    (writes : AllMapped translation rdi count) :
    ∃ memory', repMovsb translation count rdi rsi memory = some memory' ∧
      ∀ place, ¬Behind translation rdi count place → memory' place = memory place := by
  induction count generalizing rdi rsi memory with
  | zero => exact ⟨memory, rfl, fun _ _ => rfl⟩
  | succ count ih =>
    obtain ⟨source, read⟩ := reads.head
    obtain ⟨target, written⟩ := writes.head
    obtain ⟨memory', copied, others⟩ :=
      @ih (Function.update memory target (memory source)) _ _ reads.tail writes.tail
    refine ⟨memory', ?_, ?_⟩
    · simp only [repMovsb, read, written]
      exact copied
    · intro place outside
      rw [behind_succ, not_or] at outside
      rw [others place outside.2, Function.update_of_ne]
      rintro rfl
      exact outside.1 written

attribute [irreducible] value

end Bytes
