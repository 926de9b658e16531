/-
The numbers that `vsnprintf` prints.

Each numeric conversion hands its argument to `ulltostr` with a base and a limit
on the digits.  `%d` and `%i` hand over the unsigned value of a signed argument.
`%o` allows sixteen digits, which is 48 bits.  A width comes out as it is
written.
-/

import Osdev64.Lib.Numeral
import Osdev64.PrintfRuns
import Osdev64.PrintfTruncate

namespace Osdev64

open Bytes CString Word64 Numeral

/-! ### Digits -/

def digitValue (c : Byte) : Nat := if c.toNat ≤ 0x39 then c.toNat - 0x30 else c.toNat - 0x41 + 10

theorem digitValue_digitChar {d : Nat} (small : d < 36) : digitValue (digitChar d) = d := by
  have all : ∀ d < 36, digitValue (digitChar d) = d := by decide
  exact all d small

theorem lowDigits_eq {base : Nat} (large : 1 < base) (len num : Nat) :
    lowDigits base len num = ((Nat.digits base num).take len).map digitChar := by
  induction len generalizing num with
  | zero => rfl
  | succ len ih =>
    unfold lowDigits
    by_cases zero : num = 0
    · rw [if_pos zero, zero, Nat.digits_zero]
      rfl
    · rw [if_neg zero, ih, Nat.digits_def' large (Nat.pos_of_ne_zero zero), List.take_succ_cons,
        List.map_cons]

theorem numeral_eq_spell {base : Nat} (large : 1 < base) {v : Word} (nonzero : v ≠ 0) (len : Nat) :
    numeral v base len = spell digitChar ((Nat.digits base v.toNat).take len) := by
  unfold numeral
  rw [if_neg nonzero, lowDigits_eq large]
  rfl

theorem numeral_eq_canonical {base len : Nat} {v : Word} (large : 1 < base)
    (fits : v.toNat < base ^ len) : numeral v base len = canonical digitChar base v.toNat := by
  unfold canonical
  by_cases zero : v = 0
  · rw [zero]
    rfl
  · have nonzero : v.toNat ≠ 0 := fun same => zero (BitVec.eq_of_toNat_eq same)
    have short : (Nat.digits base v.toNat).length ≤ len := (Nat.digits_length_le_iff large _).mpr fits
    rw [numeral_eq_spell large zero, List.take_of_length_le short, if_neg nonzero]

theorem evaluate_numeral {base len : Nat} (v : Word) (large : 1 < base) (most : base ≤ 36) :
    evaluate digitValue base (numeral v base len) = v.toNat % base ^ len := by
  by_cases zero : v = 0
  · rw [zero]
    change 0 * base + 0 = 0 % base ^ len
    rw [Nat.zero_mul, Nat.zero_mod]
  · rw [numeral_eq_spell large zero, evaluate_spell, Nat.self_mod_pow_eq_ofDigits_take _ _ large]
    intro d member
    have below : d < base := Nat.digits_lt_base large (List.mem_of_mem_take member)
    exact digitValue_digitChar (Nat.lt_of_lt_of_le below most)

theorem mem_numeral {base len : Nat} {v : Word} (large : 1 < base) {c : Byte}
    (member : c ∈ numeral v base len) : ∃ d < base, c = digitChar d := by
  by_cases zero : v = 0
  · rw [zero] at member
    exact ⟨0, Nat.lt_trans Nat.zero_lt_one large, List.mem_singleton.mp member⟩
  · rw [numeral_eq_spell large zero] at member
    obtain ⟨d, kept, rfl⟩ := List.mem_map.mp (List.mem_reverse.mp member)
    exact ⟨d, Nat.digits_lt_base large (List.mem_of_mem_take kept), rfl⟩

/-- What `ulltostr` should return and leave: the numeral of a number, its end, and the rest as it was. -/
structure WritesNumeral (num base : Nat) (before : Buffer) (k : Nat) (after : Buffer) : Prop where
  nonempty : 1 ≤ k
  digits : ∀ i < k, (0x30 ≤ (peek after i).toNat ∧ (peek after i).toNat ≤ 0x39 ∨
    0x41 ≤ (peek after i).toNat ∧ (peek after i).toNat ≤ 0x5A) ∧ digitValue (peek after i) < base
  leading : peek after 0 = 0x30 → num = 0
  terminated : peek after k = 0
  value : evaluate digitValue base ((List.range k).map (peek after)) = num
  untouched : ∀ j, k < j → peek after j = peek before j

theorem digitChar_range {d : Nat} (small : d < 36) :
    0x30 ≤ (digitChar d).toNat ∧ (digitChar d).toNat ≤ 0x39 ∨
      0x41 ≤ (digitChar d).toNat ∧ (digitChar d).toNat ≤ 0x5A := by
  have all : ∀ d < 36, 0x30 ≤ (digitChar d).toNat ∧ (digitChar d).toNat ≤ 0x39 ∨
      0x41 ≤ (digitChar d).toNat ∧ (digitChar d).toNat ≤ 0x5A := by decide
  exact all d small

theorem canonical_head {base n : Nat} (large : 1 < base) (most : base ≤ 36)
    (zero : (canonical digitChar base n).head? = some 0x30) : n = 0 := by
  by_contra positive
  unfold canonical spell at zero
  rw [if_neg positive, List.head?_reverse, List.getLast?_map, Option.map_eq_some_iff] at zero
  obtain ⟨d, last, same⟩ := zero
  have nonempty : Nat.digits base n ≠ [] := Nat.digits_ne_nil_iff_ne_zero.mpr positive
  rw [List.getLast?_eq_some_getLast nonempty, Option.some.injEq] at last
  have highest := Nat.getLast_digit_ne_zero base positive
  have below : d < base := by
    rw [← last]
    exact Nat.digits_lt_base large (List.getLast_mem nonempty)
  have value := digitValue_digitChar (Nat.lt_of_lt_of_le below most)
  rw [same] at value
  exact highest (last.trans value.symm)

/-- `ulltostr` writes the canonical numeral, if it is given room for all digits. -/
theorem ulltostr_numeral (num : Word) (buffer : Buffer) (base len : Nat) (large : 2 ≤ base) (most : base ≤ 36)
    (enough : (Nat.digits base num.toNat).length ≤ len) :
    WritesNumeral num.toNat base buffer (ulltostr num buffer base len).1 (ulltostr num buffer base len).2 := by
  obtain ⟨length, holds, rest⟩ := ulltostr_eq num buffer len (show 0 < base by omega) most
  have fits : num.toNat < base ^ len := (Nat.digits_length_le_iff large _).mp enough
  rw [numeral_eq_canonical large fits] at length holds rest
  rw [length]
  have bytes : (List.range (canonical digitChar base num.toNat).length).map
      (peek (ulltostr num buffer base len).2) = canonical digitChar base num.toNat := by
    apply List.ext_getElem
    · rw [List.length_map, List.length_range]
    · intro i _ inside
      rw [List.getElem_map, List.getElem_range, holds.bytes i inside, List.getD_eq_getElem _ _ inside]
  have digit {i : Nat} (inside : i < (canonical digitChar base num.toNat).length) :
      ∃ d < base, peek (ulltostr num buffer base len).2 i = digitChar d := by
    rw [holds.bytes i inside, List.getD_eq_getElem _ _ inside]
    exact mem_canonical large (List.getElem_mem inside)
  have nonempty : 0 < (canonical digitChar base num.toNat).length :=
    List.length_pos_of_ne_nil (canonical_ne_nil base num.toNat)
  refine ⟨nonempty, ?_, ?_, holds.zero, ?_, rest⟩
  · intro i inside
    obtain ⟨d, below, same⟩ := digit inside
    rw [same, digitValue_digitChar (Nat.lt_of_lt_of_le below most)]
    exact ⟨digitChar_range (Nat.lt_of_lt_of_le below most), below⟩
  · intro zero
    rw [holds.bytes 0 nonempty, List.getD_eq_getElem _ _ nonempty] at zero
    apply canonical_head large most
    rw [List.head?_eq_getElem?, List.getElem?_eq_getElem nonempty, zero]
  · rw [bytes]
    exact evaluate_canonical large (fun d below => digitValue_digitChar (Nat.lt_of_lt_of_le below most)) _

theorem ulltostr_numeral_binary :
    WritesNumeral 6 2 [0xFF, 0xFF, 0xFF, 0xFF, 0xFF] 3 [0x31, 0x31, 0x30, 0, 0xFF] :=
  ulltostr_numeral 6 [0xFF, 0xFF, 0xFF, 0xFF, 0xFF] 2 3 (by decide) (by decide) (by decide)

/-- The decimal numeral of an integer. -/
def decimal (d : Int) : List Byte :=
  (if d < 0 then [0x2D] else []) ++ canonical digitChar 10 d.natAbs

/-- The same, with a sign in any case. -/
def signedDecimal (d : Int) : List Byte := (if 0 ≤ d then [0x2B] else []) ++ decimal d

/-! ### One specification alone -/

/-- `vsnprintf` returns, and the output is this text. -/
def Prints (size : Nat) (format : List Byte) (args : List Word) (text : List Byte) : Prop :=
  ∀ (str : Memory) (behind : Buffer) (string : Word → List Byte) (fuel : Nat), format.length < fuel →
    ∃ last, vsnprintf fuel str size behind string format args = some last ∧ Wrote last text

theorem Prints.unique {size : Nat} {format : List Byte} {args : List Word} {text text' : List Byte}
    (prints : Prints size format args text) (prints' : Prints size format args text') : text = text' := by
  have enough := Nat.lt_succ_self format.length
  obtain ⟨last, ran, wrote⟩ := prints (fun _ => 0) [] (fun _ => []) _ enough
  obtain ⟨last', ran', wrote'⟩ := prints' (fun _ => 0) [] (fun _ => []) _ enough
  have same : last = last' := Option.some.inj (ran.symm.trans ran')
  rw [← same] at wrote'
  exact wrote.unique wrote'

/-- The conversions that call `ulltostr`. -/
def Conversion.isNumber : Conversion → Bool
  | .hex | .signed | .integer | .unsigned | .long | .octal => true
  | _ => false

/-- Base and limit they call it with. -/
def Conversion.numberBase : Conversion → Nat × Nat
  | .hex => (16, 16)
  | .long => (16, 16)
  | .octal => (8, 16)
  | _ => (10, 20)

namespace Conversion

variable {conversion : Conversion}

theorem body_number (number : conversion.isNumber = true) (string : Word → List Byte) (v : Word) :
    conversion.body string v = numeral v conversion.numberBase.1 conversion.numberBase.2 := by
  cases conversion with
  | hex => rfl
  | signed => rfl
  | integer => rfl
  | unsigned => rfl
  | long => rfl
  | octal => rfl
  | percent => cases number
  | string => cases number
  | char => cases number
  | wide => cases number

theorem length_body_number (number : conversion.isNumber = true) (string : Word → List Byte) (v : Word) :
    (conversion.body string v).length ≤ 20 := by
  rw [body_number number]
  cases conversion with
  | hex => exact Nat.le_trans (length_numeral_le v 16 (by decide)) (by decide)
  | long => exact Nat.le_trans (length_numeral_le v 16 (by decide)) (by decide)
  | octal => exact Nat.le_trans (length_numeral_le v 8 (by decide)) (by decide)
  | _ => exact length_numeral_le v 10 (by decide)

theorem kept_number (number : conversion.isNumber = true) (string : Word → List Byte) (v : Word)
    (room : Nat) : conversion.kept string v room = conversion.body string v := by
  cases conversion with
  | string => cases number
  | _ => rfl

end Conversion

def numberText (options : List Byte) (conversion : Conversion) (v : Word) : List Byte :=
  Style.field ⟨0, 0⟩ (fun _ => []) options conversion v

theorem numberText_eq {conversion : Conversion} (number : conversion.isNumber = true)
    (string : Word → List Byte) (options : List Byte) (v : Word) :
    Style.field ⟨0, 0⟩ string options conversion v = numberText options conversion v := by
  unfold numberText Style.field
  rw [conversion.body_number number, conversion.body_number number]

theorem fieldFits_number {conversion : Conversion} (number : conversion.isNumber = true)
    (string : Word → List Byte) (options : List Byte) (v : Word) {size width : Nat}
    (pads : ((Style.after ⟨0, 0⟩ options conversion).padding
      (conversion.body string v).length).length ≤ width) (room : 2 * width + 64 ≤ size) :
    FieldFits size 0 string ⟨0, 0⟩ options conversion v := by
  have sign : (Style.sign ⟨0, 0⟩ options conversion v).length ≤ conversion.signRoom :=
    conversion.length_sign_le _ v
  have signRoom := conversion.signRoom_le
  have body := conversion.length_body_number number string v
  refine ⟨Or.inr (by omega), ?_, Or.inl ?_, Or.inl (by omega)⟩
  · rw [conversion.kept_number number]
  · rw [conversion.kept_number number]
    omega

theorem prints_number {conversion : Conversion} {letter : Byte} {options : List Byte} {v : Word}
    {size width : Nat} (known : conversionOf letter = some conversion)
    (number : conversion.isNumber = true) (valid : ∀ c ∈ options, isOption c = true)
    (pads : ((Style.after ⟨0, 0⟩ options conversion).padding
      (numeral v conversion.numberBase.1 conversion.numberBase.2).length).length ≤ width)
    (room : 2 * width + 64 ≤ size) (bounded : size < 2 ^ 64) :
    Prints size (0x25 :: (options ++ [letter])) [v] (numberText options conversion v) := by
  intro str behind string fuel enough
  let piece : Piece := .spec options letter conversion known valid
  have format : formatOf [piece] = 0x25 :: (options ++ [letter]) := List.append_nil _
  rw [← conversion.body_number number string] at pads
  have fits := fieldFits_number number string options v pads room
  have asked : render string [piece] ⟨0, 0⟩ [v] = numberText options conversion v := by
    rw [← numberText_eq number string]
    exact List.append_nil _
  have short : ∀ argument ∈ stringArgs [piece] [v], (content (string argument)).length < size := by
    intro argument member
    have notString : conversion ≠ .string := by
      rintro rfl
      cases number
    change argument ∈ (if conversion = .string then [v] else []) ++ [] at member
    rw [if_neg notString] at member
    cases member
  obtain ⟨last, ran, wrote⟩ := vsnprintf_pieces (by omega) bounded str behind string [piece] [v]
    (fun _ => ⟨fits, trivial⟩) short (by rw [format]; exact enough)
  rw [format] at ran
  rw [asked] at wrote
  have whole : (numberText options conversion v).length ≤ size := by
    have sign : (Style.sign ⟨0, 0⟩ options conversion v).length ≤ conversion.signRoom :=
      conversion.length_sign_le _ v
    have signRoom := conversion.signRoom_le
    have body := conversion.length_body_number number string v
    rw [← numberText_eq number string, Style.field, List.length_append, List.length_append]
    omega
  rw [List.take_of_length_le whole] at wrote
  exact ⟨last, ran, wrote⟩

theorem prints_unpadded_iff (options : List Byte) {conversion : Conversion} {letter : Byte}
    (known : conversionOf letter = some conversion) (number : conversion.isNumber = true)
    (valid : ∀ c ∈ options, isOption c = true)
    (unpadded : (Style.after ⟨0, 0⟩ options conversion).flags &&& padFlag = 0) (v : Word) {size : Word}
    (large : 64 ≤ size.toNat) {text : List Byte} :
    Prints size.toNat (0x25 :: (options ++ [letter])) [v] text ↔
      Style.sign ⟨0, 0⟩ options conversion v ++
        numeral v conversion.numberBase.1 conversion.numberBase.2 = text := by
  have none (length : Nat) : (Style.after ⟨0, 0⟩ options conversion).padding length = [] := by
    unfold Style.padding
    rw [if_neg (not_not.mpr unpadded)]
  have written : numberText options conversion v = Style.sign ⟨0, 0⟩ options conversion v ++
      numeral v conversion.numberBase.1 conversion.numberBase.2 := by
    unfold numberText
    rw [Style.field, none, conversion.body_number number, List.append_nil]
  rw [← written]
  have prints : Prints size.toNat _ [v] (numberText options conversion v) :=
    prints_number known number valid (Nat.le_of_eq (congrArg List.length (none _))) (by omega) size.isLt
  constructor
  · exact prints.unique
  · rintro rfl
    exact prints

/-! ### Signed conversions -/

/-- The lowest 64-bit number, the only negative one whose unsigned value is its absolute value. -/
def lowest : Word := 0x8000000000000000

theorem natAbs_eq_toNat_iff (d : Word) : d.toInt.natAbs = d.toNat ↔ 0 ≤ d.toInt ∨ d = lowest := by
  have bound := d.isLt
  have isLowest : d = lowest ↔ d.toNat = 2 ^ 63 :=
    ⟨fun same => by rw [same]; rfl, fun same => BitVec.eq_of_toNat_eq same⟩
  rw [isLowest, BitVec.toInt_eq_toNat_cond]
  split
  · omega
  · omega

theorem canonical_decimal_inj {m n : Nat} :
    canonical digitChar 10 m = canonical digitChar 10 n ↔ m = n :=
  canonical_inj (by decide) fun _ small => digitValue_digitChar (Nat.lt_trans small (by decide))

theorem numeral_decimal (d : Word) : numeral d 10 20 = canonical digitChar 10 d.toNat :=
  numeral_eq_canonical (by decide) (Nat.lt_trans d.isLt (by decide))

theorem canonical_ne_minus (m : Nat) (rest : List Byte) :
    canonical digitChar 10 m ≠ 0x2D :: rest := by
  intro same
  have member : (0x2D : Byte) ∈ canonical digitChar 10 m := by
    rw [same]
    exact List.mem_cons_self
  obtain ⟨d, small, isDigit⟩ := mem_canonical (by decide) member
  have none : ∀ d < 10, (0x2D : Byte) ≠ digitChar d := by decide
  exact none d small isDigit

theorem prints_d_iff (d : Word) {size : Word} (large : 64 ≤ size.toNat) :
    Prints size.toNat [0x25, 0x64] [d] (decimal d.toInt) ↔ 0 ≤ d.toInt := by
  have absolute := natAbs_eq_toNat_iff d
  refine (prints_unpadded_iff [] (show conversionOf 0x64 = some .signed from rfl) rfl (by simp) rfl d
    large).trans ?_
  change numeral d 10 20 = decimal d.toInt ↔ _
  unfold decimal
  rw [numeral_decimal]
  by_cases negative : d.toInt < 0
  · rw [if_pos negative]
    exact iff_of_false (canonical_ne_minus _ _) (by omega)
  · rw [if_neg negative, List.nil_append, canonical_decimal_inj]
    omega

theorem prints_i_iff (d : Word) {size : Word} (large : 64 ≤ size.toNat) :
    Prints size.toNat [0x25, 0x69] [d] (decimal d.toInt) ↔ 0 ≤ d.toInt ∨ d = lowest := by
  refine (prints_unpadded_iff [] (show conversionOf 0x69 = some .integer from rfl) rfl (by simp) rfl d
    large).trans ?_
  change (if d.toInt < 0 then [0x2D] else []) ++ numeral d 10 20 = decimal d.toInt ↔ _
  unfold decimal
  rw [numeral_decimal, List.append_right_inj, canonical_decimal_inj, eq_comm]
  exact natAbs_eq_toNat_iff d

theorem prints_plus_d_iff (d : Word) {size : Word} (large : 64 ≤ size.toNat) :
    Prints size.toNat [0x25, 0x2B, 0x64] [d] (signedDecimal d.toInt) ↔ 0 < d.toInt ∨ d = lowest := by
  have absolute := natAbs_eq_toNat_iff d
  refine (prints_unpadded_iff [0x2B] (show conversionOf 0x64 = some .signed from rfl) rfl (by decide) rfl
    d large).trans ?_
  change (if 0 < d.toInt then 0x2B else 0x2D) :: numeral d 10 20 = signedDecimal d.toInt ↔ _
  unfold signedDecimal decimal
  rw [numeral_decimal]
  rcases lt_trichotomy d.toInt 0 with negative | zero | positive
  · rw [if_neg (by omega), if_neg (by omega), if_pos negative, List.nil_append, List.singleton_append,
      List.cons_inj_right, canonical_decimal_inj, eq_comm, absolute]
    exact or_congr_left (iff_of_false (by omega) (by omega))
  · rw [if_neg (by omega), if_pos (by omega)]
    refine iff_of_false (fun same => ?_) ?_
    · exact absurd (List.cons.inj same).1 (by decide)
    · rintro (positive | rfl)
      · omega
      · exact absurd zero (by decide)
  · rw [if_pos positive, if_pos (by omega), if_neg (by omega), List.nil_append, List.singleton_append,
      List.cons_inj_right, canonical_decimal_inj]
    omega

/-- The digits are those of the unsigned value, the signs those of the three cases. -/
theorem prints_signed_iff (d : Word) (size : Word) (large : 64 ≤ size.toNat) :
    (Prints size.toNat [0x25, 0x64] [d] (decimal d.toInt) ↔ 0 ≤ d.toInt) ∧
    (Prints size.toNat [0x25, 0x69] [d] (decimal d.toInt) ↔ 0 ≤ d.toInt ∨ d = lowest) ∧
    (Prints size.toNat [0x25, 0x2B, 0x64] [d] (signedDecimal d.toInt) ↔ 0 < d.toInt ∨ d = lowest) :=
  ⟨prints_d_iff d large, prints_i_iff d large, prints_plus_d_iff d large⟩

theorem prints_signed_seven :
    64 ≤ (64 : Word).toNat ∧ Prints (64 : Word).toNat [0x25, 0x69] [7] (decimal 7) :=
  ⟨by decide, (prints_signed_iff 7 64 (by decide)).2.1.mpr (Or.inl (by decide))⟩

/-- -1 comes out as 18446744073709551615, with `%i` behind a minus; 0 with `%+d` as `-0`. -/
theorem minus_one_prints_unsigned :
    ¬Prints (64 : Word).toNat [0x25, 0x64] [-1] (decimal (-1)) ∧
    ¬Prints (64 : Word).toNat [0x25, 0x69] [-1] (decimal (-1)) ∧
    ¬Prints (64 : Word).toNat [0x25, 0x2B, 0x64] [0] (signedDecimal 0) := by
  have large : 64 ≤ (64 : Word).toNat := by decide
  refine ⟨fun prints => ?_, fun prints => ?_, fun prints => ?_⟩
  · exact absurd ((prints_d_iff (-1) large).mp prints) (by decide)
  · exact absurd ((prints_i_iff (-1) large).mp prints) (by decide)
  · exact absurd ((prints_plus_d_iff 0 large).mp prints) (by decide)

/-! ### Unsigned conversions -/

def unsignedBase : List (Byte × Nat) := [(0x75, 10), (0x78, 16), (0x58, 16), (0x6C, 16), (0x6F, 8)]

/-- The conversion prints digits of the base, and their value is `v`. -/
def ReadsBack (size : Nat) (letter : Byte) (base : Nat) (v : Word) : Prop :=
  ∃ text, Prints size [0x25, letter] [v] text ∧ (∀ c ∈ text, ∃ d < base, c = digitChar d) ∧
    evaluate digitValue base text = v.toNat

section ReadsBack

variable {conversion : Conversion} {letter : Byte} {v : Word} {size : Word}
    (known : conversionOf letter = some conversion) (number : conversion.isNumber = true)
    (unsigned : Style.sign ⟨0, 0⟩ [] conversion v = [])
    (unpadded : (Style.after ⟨0, 0⟩ [] conversion).flags &&& padFlag = 0) (large : 64 ≤ size.toNat)

include known number unsigned unpadded large

theorem readsBack_iff_mod :
    ReadsBack size.toNat letter conversion.numberBase.1 v ↔
      v.toNat % conversion.numberBase.1 ^ conversion.numberBase.2 = v.toNat := by
  have base : 1 < conversion.numberBase.1 ∧ conversion.numberBase.1 ≤ 36 := by
    cases conversion <;> decide
  have printed (text : List Byte) : Prints size.toNat [0x25, letter] [v] text ↔
      numeral v conversion.numberBase.1 conversion.numberBase.2 = text := by
    refine (prints_unpadded_iff [] known number (by simp) unpadded v large).trans ?_
    rw [unsigned, List.nil_append]
  rw [← evaluate_numeral v base.1 base.2]
  constructor
  · rintro ⟨text, prints, -, value⟩
    rw [(printed text).mp prints]
    exact value
  · intro value
    exact ⟨_, (printed _).mpr rfl, fun c member => mem_numeral base.1 member, value⟩

theorem readsBack_of_digits
    (digits : 2 ^ 64 ≤ conversion.numberBase.1 ^ conversion.numberBase.2) :
    ReadsBack size.toNat letter conversion.numberBase.1 v :=
  (readsBack_iff_mod known number unsigned unpadded large).mpr
    (Nat.mod_eq_of_lt (Nat.lt_of_lt_of_le v.isLt digits))

end ReadsBack

theorem readsBack_octal_iff {v : Word} {size : Word} (large : 64 ≤ size.toNat) :
    ReadsBack size.toNat 0x6F 8 v ↔ v.toNat < 2 ^ 48 := by
  refine (readsBack_iff_mod (show conversionOf 0x6F = some .octal from rfl) rfl rfl rfl large).trans ?_
  exact Nat.mod_eq_iff_lt (by decide)

/-- `%o` keeps 48 bits, the others all. -/
theorem readsBack_iff (v size : Word) (large : 64 ≤ size.toNat) (letter : Byte) (base : Nat)
    (listed : (letter, base) ∈ unsignedBase) :
    ReadsBack size.toNat letter base v ↔ (letter = 0x6F → v.toNat < 2 ^ 48) := by
  simp only [unsignedBase, List.mem_cons, List.not_mem_nil, or_false, Prod.mk.injEq] at listed
  rcases listed with ⟨rfl, rfl⟩ | ⟨rfl, rfl⟩ | ⟨rfl, rfl⟩ | ⟨rfl, rfl⟩ | ⟨rfl, rfl⟩
  · refine iff_of_true ?_ fun octal => absurd octal (by decide)
    exact readsBack_of_digits (show conversionOf 0x75 = some .unsigned from rfl) rfl rfl rfl large
      (by decide)
  · refine iff_of_true ?_ fun octal => absurd octal (by decide)
    exact readsBack_of_digits (show conversionOf 0x78 = some .hex from rfl) rfl rfl rfl large (by decide)
  · refine iff_of_true ?_ fun octal => absurd octal (by decide)
    exact readsBack_of_digits (show conversionOf 0x58 = some .hex from rfl) rfl rfl rfl large (by decide)
  · refine iff_of_true ?_ fun octal => absurd octal (by decide)
    exact readsBack_of_digits (show conversionOf 0x6C = some .long from rfl) rfl rfl rfl large (by decide)
  · rw [readsBack_octal_iff large]
    exact ⟨fun small _ => small, fun small => small rfl⟩

theorem readsBack_highest :
    (0x75, 10) ∈ unsignedBase ∧ ReadsBack (64 : Word).toNat 0x75 10 0xFFFFFFFFFFFFFFFF :=
  ⟨by decide, (readsBack_iff 0xFFFFFFFFFFFFFFFF 64 (by decide) 0x75 10 (by decide)).mpr (by decide)⟩

/-- 2^48 comes out as sixteen zeros. -/
theorem octal_drops_digits : ¬ReadsBack (64 : Word).toNat 0x6F 8 0x1000000000000 := by
  rw [readsBack_octal_iff (by decide)]
  decide

/-! ### Widths -/

theorem readOptions_digits {digits : List Byte} (valid : ∀ c ∈ digits, isdigit c = true) (number : Nat) :
    readOptions ⟨BitVec.ofNat 64 number, padFlag⟩ true digits =
      ⟨BitVec.ofNat 64 (digits.foldl (fun number c => number * 10 + digitValue c) number), padFlag⟩ := by
  induction digits generalizing number with
  | nil => rfl
  | cons c digits ih =>
    have digit := valid c List.mem_cons_self
    have value : digitValue c = c.toNat - 0x30 := by
      unfold isdigit at digit
      unfold digitValue
      rw [Bool.and_eq_true, decide_eq_true_eq, decide_eq_true_eq] at digit
      rw [if_pos digit.2]
    have step : BitVec.ofNat 64 number * 10 + BitVec.ofNat 64 (c.toNat - 0x30) =
        BitVec.ofNat 64 (number * 10 + digitValue c) := by
      rw [value, BitVec.ofNat_add, BitVec.ofNat_mul]
      rfl
    have set : padFlag ||| padFlag = padFlag := by decide
    rw [Printer.readOptions_digit digit, if_pos rfl, step, set]
    exact ih (fun d member => valid d (List.mem_cons_of_mem c member)) _

theorem readOptions_width {digits : List Byte} (nonempty : digits ≠ [])
    (valid : ∀ c ∈ digits, isdigit c = true) :
    readOptions ⟨0, 0⟩ false digits = ⟨BitVec.ofNat 64 (evaluate digitValue 10 digits), padFlag⟩ := by
  obtain ⟨c, rest, rfl⟩ := List.exists_cons_of_ne_nil nonempty
  have digit := valid c List.mem_cons_self
  have later := readOptions_digits valid 0
  rw [Printer.readOptions_digit digit] at later
  rw [Printer.readOptions_digit digit]
  exact later

def zeroPadded (width : Nat) (text : List Byte) : List Byte :=
  List.replicate (width - text.length) 0x30 ++ text

theorem length_zeroPadded (width : Nat) (text : List Byte) :
    (zeroPadded width text).length = max width text.length := by
  unfold zeroPadded
  rw [List.length_append, List.length_replicate]
  omega

theorem padding_width {width : Nat} (small : width < 2 ^ 64) (length : Nat) :
    Style.padding ⟨BitVec.ofNat 64 width, padFlag⟩ length = List.replicate (width - length) 0x30 := by
  have padded : padFlag &&& padFlag ≠ 0 := by decide
  have number : ¬padFlag &&& notnumFlag ≠ 0 := by decide
  unfold Style.padding
  rw [if_pos padded, if_neg number, BitVec.toNat_ofNat, Nat.mod_eq_of_lt small]

theorem numeral_of_plain {conversion : Conversion} (plain : conversion = .unsigned ∨ conversion = .hex)
    (v : Word) : numeral v conversion.numberBase.1 conversion.numberBase.2 =
      canonical digitChar conversion.numberBase.1 v.toNat := by
  have bound := v.isLt
  rcases plain with rfl | rfl
  · exact numeral_eq_canonical (by decide) (Nat.lt_trans bound (by decide))
  · exact numeral_eq_canonical (by decide) bound

theorem prints_width {conversion : Conversion} {letter : Byte} (known : conversionOf letter = some conversion)
    (plain : conversion = .unsigned ∨ conversion = .hex) (v : Word) {size : Word} {digits : List Byte}
    (nonempty : digits ≠ []) (valid : ∀ c ∈ digits, isdigit c = true)
    (small : evaluate digitValue 10 digits < 2 ^ 30)
    (large : 2 * evaluate digitValue 10 digits + 64 ≤ size.toNat) :
    Prints size.toNat (0x25 :: (digits ++ [letter])) [v]
      (zeroPadded (evaluate digitValue 10 digits) (canonical digitChar conversion.numberBase.1 v.toNat)) := by
  have number : conversion.isNumber = true := by
    rcases plain with rfl | rfl <;> rfl
  have read := readOptions_width nonempty valid
  have padding (length : Nat) : (Style.after ⟨0, 0⟩ digits conversion).padding length =
      List.replicate (evaluate digitValue 10 digits - length) 0x30 := by
    have style : Style.after ⟨0, 0⟩ digits conversion =
        ⟨BitVec.ofNat 64 (evaluate digitValue 10 digits), padFlag⟩ := by
      unfold Style.after
      rw [read]
      rcases plain with rfl | rfl <;> rfl
    rw [style]
    exact padding_width (Nat.lt_trans small (by decide)) length
  have sign : Style.sign ⟨0, 0⟩ digits conversion v = [] := by
    unfold Style.sign
    rw [read]
    rcases plain with rfl | rfl
    · rfl
    · exact if_neg (show ¬padFlag &&& prefixFlag ≠ 0 by decide)
  have written : numberText digits conversion v = zeroPadded (evaluate digitValue 10 digits)
      (canonical digitChar conversion.numberBase.1 v.toNat) := by
    unfold numberText
    rw [Style.field, padding, sign, conversion.body_number number, numeral_of_plain plain]
    rfl
  rw [← written]
  refine prints_number known number ?_ ?_ large size.isLt
  · intro c member
    unfold isOption
    rw [valid c member, Bool.or_true]
  · rw [padding, List.length_replicate]
    exact Nat.sub_le _ _

theorem length_canonical_le {conversion : Conversion} (plain : conversion = .unsigned ∨ conversion = .hex)
    (v : Word) : (canonical digitChar conversion.numberBase.1 v.toNat).length ≤ 20 := by
  have number : conversion.isNumber = true := by
    rcases plain with rfl | rfl <;> rfl
  rw [← numeral_of_plain plain v, ← conversion.body_number number fun _ => []]
  exact conversion.length_body_number number _ v

/-- The conversions whose width is asked for, and their bases. -/
def widthBase : List (Byte × Nat) := [(0x75, 10), (0x78, 16)]

/-- A width is honoured: zeros up to it, in front of the numeral.  Each character is stored once,
and the number of them is returned. -/
theorem vsnprintf_width (v size : Word) (digits : List Byte) (nonempty : digits ≠ [])
    (valid : ∀ c ∈ digits, isdigit c = true) (small : evaluate digitValue 10 digits < 2 ^ 30)
    (large : 2 * evaluate digitValue 10 digits + 64 ≤ size.toNat) (letter : Byte) (base : Nat)
    (listed : (letter, base) ∈ widthBase) (str : Memory) (behind : Buffer) (string : Word → List Byte)
    (fuel : Nat) (enough : digits.length + 2 < fuel) :
    ∃ last, vsnprintf fuel str size.toNat behind string (0x25 :: (digits ++ [letter])) [v] = some last ∧
      Wrote last (zeroPadded (evaluate digitValue 10 digits) (canonical digitChar base v.toNat)) ∧
      last.stores = (List.range last.n).reverse ∧
      (BitVec.ofNat 32 last.n).toInt =
        max (evaluate digitValue 10 digits) (canonical digitChar base v.toNat).length := by
  obtain ⟨conversion, known, plain, rfl⟩ : ∃ conversion, conversionOf letter = some conversion ∧
      (conversion = .unsigned ∨ conversion = .hex) ∧ conversion.numberBase.1 = base := by
    simp only [widthBase, List.mem_cons, List.not_mem_nil, or_false, Prod.mk.injEq] at listed
    rcases listed with ⟨rfl, rfl⟩ | ⟨rfl, rfl⟩
    · exact ⟨.unsigned, rfl, Or.inl rfl, rfl⟩
    · exact ⟨.hex, rfl, Or.inr rfl, rfl⟩
  have length : (0x25 :: (digits ++ [letter])).length < fuel := by
    rw [List.length_cons, List.length_append]
    exact enough
  obtain ⟨last, ran, wrote⟩ := prints_width known plain v nonempty valid small large str behind string
    fuel length
  have few := length_canonical_le plain v
  have count : last.n = max (evaluate digitValue 10 digits)
      (canonical digitChar conversion.numberBase.1 v.toNat).length := by
    rw [wrote.n, length_zeroPadded]
  refine ⟨last, ran, wrote, Printer.formatLoop_stores ran rfl, ?_⟩
  have returned : (BitVec.ofNat 32 last.n).toNat = last.n := by
    rw [BitVec.toNat_ofNat]
    omega
  rw [BitVec.toInt_eq_toNat_of_lt (by omega), returned, count]

theorem vsnprintf_width_eight :
    evaluate digitValue 10 [0x38] = 8 ∧
      ∃ last, vsnprintf 4 (fun _ => 0) (128 : Word).toNat [] (fun _ => []) [0x25, 0x38, 0x78] [0xB8000] =
        some last ∧ Wrote last [0x30, 0x30, 0x30, 0x42, 0x38, 0x30, 0x30, 0x30] := by
  refine ⟨by decide, ?_⟩
  obtain ⟨last, ran, wrote, -, -⟩ := vsnprintf_width 0xB8000 128 [0x38] (by decide) (by decide) (by decide)
    (by decide) 0x78 16 (by decide) (fun _ => 0) [] (fun _ => []) 4 (by decide)
  have text : zeroPadded (evaluate digitValue 10 [0x38])
      (canonical digitChar 16 (0xB8000 : Word).toNat) =
        [0x30, 0x30, 0x30, 0x42, 0x38, 0x30, 0x30, 0x30] := by
    decide +kernel
  rw [text] at wrote
  exact ⟨last, ran, wrote⟩

end Osdev64
