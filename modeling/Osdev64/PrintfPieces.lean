/-
What `vsnprintf` stores, piece by piece.

A format is a list of literal characters and specifications.  Each specification
asks for a field: a sign or prefix, padding, and the body.  The code stores the
sign only if it sees room for it, and of padding and body only as much as half of
the room that is left, rounded up; where that is enough, the output is the text
the pieces ask for, cut at the size.
-/

import Osdev64.PrintfEnds
import Osdev64.StringLib

namespace Osdev64

open Bytes CString Word64

/-! ### Formats in pieces -/

inductive Piece where
  | literal (c : Byte) (plain : c ≠ 0 ∧ c ≠ 0x25)
  | spec (options : List Byte) (letter : Byte) (conversion : Conversion)
      (known : conversionOf letter = some conversion) (valid : ∀ c ∈ options, isOption c = true)

def Piece.bytes : Piece → List Byte
  | .literal c _ => [c]
  | .spec options letter _ _ _ => 0x25 :: (options ++ [letter])

def formatOf (pieces : List Piece) : List Byte := pieces.flatMap Piece.bytes

theorem formatOf_spec (options : List Byte) (letter : Byte) {conversion : Conversion}
    (known : conversionOf letter = some conversion) (valid : ∀ c ∈ options, isOption c = true)
    (pieces : List Piece) :
    formatOf (.spec options letter conversion known valid :: pieces) =
      0x25 :: (options ++ letter :: formatOf pieces) := by
  change 0x25 :: (options ++ [letter]) ++ formatOf pieces = _
  rw [List.cons_append, List.append_assoc]
  rfl

/-- The width and the flags, which one specification leaves to the next. -/
structure Style where
  pad : Word
  flags : BitVec 32

/-- The options of a specification; a width begins anew after any other option. -/
def readOptions (style : Style) (number : Bool) : List Byte → Style
  | [] => style
  | c :: rest =>
    if c = 0x23 then
      readOptions ⟨16, style.flags ||| (prefixFlag ||| padFlag)⟩ false rest
    else if c = 0x2B then readOptions { style with flags := style.flags ||| alwaysSignFlag } false rest
    else
      readOptions
        ⟨(if number then style.pad else 0) * 10 + BitVec.ofNat 64 (c.toNat - 0x30),
          style.flags ||| padFlag⟩ true rest

namespace Conversion

def argsAfter : Conversion → List Word → List Word
  | .percent, args => args
  | .wide, args => args
  | _, args => args.tail

def flagsAfter (flags : BitVec 32) : Conversion → BitVec 32
  | .long => flags ||| longFlag
  | .string => flags ||| notnumFlag
  | .char => flags ||| notnumFlag
  | .wide => flags ||| padFlag
  | _ => flags

/-- The characters in front of the padding. -/
def sign (flags : BitVec 32) (argument : Word) : Conversion → List Byte
  | .hex => if flags &&& prefixFlag ≠ 0 then [0x30, 0x78] else []
  | .signed =>
    if flags &&& alwaysSignFlag ≠ 0 then [if 0 < argument.toInt then 0x2B else 0x2D] else []
  | .integer => if argument.toInt < 0 then [0x2D] else []
  | .octal => if flags &&& prefixFlag ≠ 0 then [0x30] else []
  | _ => []

/-- The room that is tested for, less one. -/
def signRoom : Conversion → Nat
  | .hex => 2
  | .octal => 2
  | .signed => 1
  | .integer => 1
  | _ => 0

def body (string : Word → List Byte) (argument : Word) : Conversion → List Byte
  | .percent => [0x25]
  | .hex => numeral argument 16 16
  | .signed => numeral argument 10 20
  | .integer => numeral argument 10 20
  | .unsigned => numeral argument 10 20
  | .long => numeral argument 16 16
  | .octal => numeral argument 8 16
  | .string => content (string argument)
  | .char => if argument.setWidth 8 = (0 : Byte) then [] else [argument.setWidth 8]
  | .wide => [0x20]

/-- The part of the body that comes to `buf`; only a string is cut there. -/
def kept (string : Word → List Byte) (argument : Word) (room : Nat) : Conversion → List Byte
  | .string => (content (string argument)).take room
  | conversion => conversion.body string argument

end Conversion

/-- The padding in front of a body of this length. -/
def Style.padding (style : Style) (length : Nat) : List Byte :=
  if style.flags &&& padFlag ≠ 0 then
    List.replicate (style.pad.toNat - length) (if style.flags &&& notnumFlag ≠ 0 then 0x20 else 0x30)
  else []

/-- The style in which the field of a specification is printed. -/
def Style.after (style : Style) (options : List Byte) (conversion : Conversion) : Style :=
  let read := readOptions style false options
  ⟨read.pad, conversion.flagsAfter read.flags⟩

/-- The sign of a field, after its options. -/
def Style.sign (style : Style) (options : List Byte) (conversion : Conversion) (argument : Word) :
    List Byte :=
  conversion.sign (readOptions style false options).flags argument

/-- The text that a specification asks for. -/
def Style.field (style : Style) (string : Word → List Byte) (options : List Byte)
    (conversion : Conversion) (argument : Word) : List Byte :=
  let body := conversion.body string argument
  style.sign options conversion argument ++ (style.after options conversion).padding body.length ++ body

/-- The text that the pieces ask for. -/
def render (string : Word → List Byte) : List Piece → Style → List Word → List Byte
  | [], _, _ => []
  | .literal c _ :: rest, style, args => c :: render string rest { style with flags := 0 } args
  | .spec options _ conversion _ _ :: rest, style, args =>
    style.field string options conversion (args.headD 0) ++
      render string rest (style.after options conversion) (conversion.argsAfter args)

/-! ### Characters stored -/

/-- The output so far. -/
structure Wrote (printer : Printer) (text : List Byte) : Prop where
  n : printer.n = text.length
  bytes : ∀ j < text.length, printer.str j = text.getD j 0

theorem Wrote.unique {printer : Printer} {text text' : List Byte} (wrote : Wrote printer text)
    (wrote' : Wrote printer text') : text = text' := by
  have length : text.length = text'.length := wrote.n.symm.trans wrote'.n
  apply List.ext_getElem length
  intro j inside inside'
  have byte := (wrote.bytes j inside).symm.trans (wrote'.bytes j inside')
  rwa [List.getD_eq_getElem _ _ inside, List.getD_eq_getElem _ _ inside'] at byte

namespace Printer

variable {size : Nat} {string : Word → List Byte} {printer : Printer} {text : List Byte}

theorem wrote_putc (wrote : Wrote printer text) (c : Byte) : Wrote (printer.putc c) (text ++ [c]) := by
  have n := wrote.n
  refine ⟨by simp [putc, n], ?_⟩
  intro j inside
  rw [List.length_append] at inside
  simp only [List.length_singleton] at inside
  change Function.update printer.str printer.n c j = _
  rw [Function.update_apply, n]
  by_cases last : j = text.length
  · subst last
    rw [if_pos rfl]
    simp
  · rw [if_neg last, wrote.bytes j (by omega), List.getD_append _ _ _ _ (by omega)]

theorem wrote_storeLoop (size : Nat) (wrote : Wrote printer text) (chars : Nat → Byte) (left i : Nat) :
    Wrote (storeLoop size chars left i printer)
      (text ++ ((List.range' i left).map chars).take ((size - (i + text.length) + 1) / 2)) := by
  induction left generalizing i printer text with
  | zero => simpa [storeLoop] using wrote
  | succ left ih =>
    unfold storeLoop
    by_cases room : i + printer.n < size
    · rw [if_pos room]
      rw [wrote.n] at room
      have next := ih (wrote_putc wrote (chars i)) (i + 1)
      have half : (size - (i + text.length) + 1) / 2 =
          (size - (i + 1 + (text ++ [chars i]).length) + 1) / 2 + 1 := by
        rw [List.length_append, List.length_singleton]
        omega
      rw [half, List.range'_succ, List.map_cons, List.take_succ_cons]
      rw [List.append_assoc] at next
      exact next
    · rw [if_neg room]
      rw [wrote.n] at room
      have none' : (size - (i + text.length) + 1) / 2 = 0 := by omega
      rw [none', List.take_zero, List.append_nil]
      exact wrote

/-! ### Options -/

/-- The printer with this style, at this place of the format. -/
def at' (printer : Printer) (style : Style) (format : List Byte) : Printer :=
  { printer with pad := style.pad, flags := style.flags, format := format }

theorem isdigit_of_conversionOf {letter : Byte} {conversion : Conversion}
    (known : conversionOf letter = some conversion) : isdigit letter = false := by
  by_contra digit
  rw [Bool.not_eq_false] at digit
  rw [conversionOf_digit digit] at known
  exact absurd known (by simp)

theorem conversionOf_option {c : Byte} (option : isOption c = true) : conversionOf c = none := by
  by_cases digit : isdigit c = true
  · exact conversionOf_digit digit
  · rcases flag_of_option option digit with rfl | rfl
    · decide
    · decide

theorem readOptions_digit {c : Byte} (digit : isdigit c = true) (style : Style) (number : Bool)
    (rest : List Byte) :
    readOptions style number (c :: rest) =
      readOptions ⟨(if number then style.pad else 0) * 10 + BitVec.ofNat 64 (c.toNat - 0x30),
        style.flags ||| padFlag⟩ true rest := by
  have other := ne_of_isdigit digit
  rw [readOptions, if_neg (other 0x23 (by decide)), if_neg (other 0x2B (by decide))]

theorem jump_digit {c : Byte} (digit : isdigit c = true) (style : Style) (rest : List Byte) :
    (printer.at' style (c :: rest)).jump =
      padLoop (printer.at' ⟨0 * 10 + BitVec.ofNat 64 (c.toNat - 0x30), style.flags ||| padFlag⟩
        (c :: rest)) rest := by
  have other := ne_of_isdigit digit
  have here : (printer.at' style (c :: rest)).current = c := rfl
  rw [jump, here, if_neg (other 0x23 (by decide)), if_neg (other 0x2B (by decide))]
  change padLoop _ (c :: rest) = _
  rw [padLoop, if_pos digit]
  rfl

/-- The options are read one by one, the digits of a width in one jump.  The second part is
the state within a width. -/
theorem nextFormat_options (options : List Byte) (valid : ∀ c ∈ options, isOption c = true)
    {letter : Byte} {conversion : Conversion} (known : conversionOf letter = some conversion)
    (rest : List Byte) (style : Style) {fuel : Nat} (enough : options.length < fuel)
    (format : List Byte) :
    nextFormat size string fuel (printer.at' style (options ++ letter :: rest)) =
        some ((printer.at' (readOptions style false options) (letter :: rest)).convert size string
          conversion) ∧
      nextFormat size string fuel
          (padLoop (printer.at' style format) (options ++ letter :: rest)) =
        some ((printer.at' (readOptions style true options) (letter :: rest)).convert size string
          conversion) := by
  induction options generalizing style fuel format with
  | nil =>
    cases fuel with
    | zero => exact absurd enough (Nat.not_lt_zero _)
    | succ fuel =>
      have letterOnly : nextFormat size string (fuel + 1) (printer.at' style (letter :: rest)) =
          some ((printer.at' style (letter :: rest)).convert size string conversion) :=
        nextFormat_known known
      refine ⟨letterOnly, ?_⟩
      rw [List.nil_append, padLoop, if_neg (by rw [isdigit_of_conversionOf known]; decide)]
      exact letterOnly
  | cons c options ih =>
    have option := valid c List.mem_cons_self
    have later : ∀ c ∈ options, isOption c = true :=
      fun c member => valid c (List.mem_cons_of_mem _ member)
    rw [List.length_cons] at enough
    cases fuel with
    | zero => exact absurd enough (Nat.not_lt_zero _)
    | succ fuel =>
      have short : options.length < fuel := Nat.lt_of_succ_lt_succ enough
      have around : nextFormat size string (fuel + 1)
            (printer.at' style (c :: options ++ letter :: rest)) =
          nextFormat size string fuel (printer.at' style (c :: options ++ letter :: rest)).jump :=
        nextFormat_unknown (conversionOf_option option)
      by_cases digit : isdigit c = true
      · rw [readOptions_digit digit, readOptions_digit digit]
        constructor
        · rw [around, List.cons_append, jump_digit digit]
          exact (ih later _ short _).2
        · rw [List.cons_append, padLoop, if_pos digit]
          exact (ih later ⟨style.pad * 10 + BitVec.ofNat 64 (c.toNat - 0x30),
            style.flags ||| padFlag⟩ (Nat.lt_succ_of_lt short) format).2
      · have flag := flag_of_option option digit
        have plain : nextFormat size string (fuel + 1)
              (printer.at' style (c :: options ++ letter :: rest)) =
            some ((printer.at' (readOptions style false (c :: options)) (letter :: rest)).convert
              size string conversion) := by
          rw [around]
          rcases flag with rfl | rfl
          · exact (ih later ⟨16, style.flags ||| (prefixFlag ||| padFlag)⟩ short []).1
          · exact (ih later ⟨style.pad, style.flags ||| alwaysSignFlag⟩ short []).1
        refine ⟨plain, ?_⟩
        rw [List.cons_append, padLoop, if_neg digit]
        rcases flag with rfl | rfl
        · exact plain
        · exact plain

/-! ### One field -/

/-- What a conversion leaves: its sign in the output if there was room for it, and its body in
`buf`, which is otherwise still clear. -/
structure Converted (size : Nat) (printer after : Printer) (sign : List Byte) (room : Nat)
    (body : List Byte) (flags : BitVec 32) (args : List Word) : Prop where
  wrote : ∀ text, Wrote printer text →
    Wrote after (text ++ if printer.n + room < size then sign else [])
  holds : Holds after.buf body
  zeros : ∀ i < size, body.length < i → peek after.buf i = 0
  pad : after.pad = printer.pad
  flags : after.flags = flags
  args : after.args = args
  format : after.format = printer.format

theorem number_holds (zeros : ∀ i < size, peek printer.buf i = 0) (value : Word) {base : Nat}
    (len : Nat) (positive : 0 < base) (most : base ≤ 36) :
    Holds (printer.number value base len).buf (numeral value base len) ∧
      ∀ i < size, (numeral value base len).length < i →
        peek (printer.number value base len).buf i = 0 := by
  obtain ⟨-, holds, others⟩ := ulltostr_eq value printer.buf len positive most
  exact ⟨holds, fun i inside behind => (others i behind).trans (zeros i inside)⟩

theorem converted_plain {after : Printer} {body : List Byte} (n : after.n = printer.n)
    (str : after.str = printer.str) (holds : Holds after.buf body)
    (zeros : ∀ i < size, body.length < i → peek after.buf i = 0) (pad : after.pad = printer.pad)
    (format : after.format = printer.format) :
    Converted size printer after [] 0 body after.flags after.args where
  wrote := by
    intro text wrote
    rw [ite_self, List.append_nil]
    exact ⟨n.trans wrote.n, fun j inside => by rw [str]; exact wrote.bytes j inside⟩
  holds := holds
  zeros := zeros
  pad := pad
  flags := rfl
  args := rfl
  format := format

theorem wrote_foldl_putc (wrote : Wrote printer text) (chars : List Byte) :
    Wrote (chars.foldl putc printer) (text ++ chars) := by
  induction chars generalizing printer text with
  | nil => simpa using wrote
  | cons c chars ih =>
    have next := ih (wrote_putc wrote c)
    rw [List.append_assoc] at next
    exact next

theorem foldl_putc_eq (chars : List Byte) (printer : Printer) :
    ∃ str stores n, chars.foldl putc printer =
      { printer with str := str, stores := stores, n := n } := by
  induction chars generalizing printer with
  | nil => exact ⟨printer.str, printer.stores, printer.n, rfl⟩
  | cons c chars ih => exact ih (printer.putc c)

theorem Converted.signed {base : Printer} {body : List Byte} {flags : BitVec 32} {args : List Word}
    (plain : Converted size printer base [] 0 body flags args) (sign : List Byte) (room : Nat) :
    Converted size printer (if printer.n + room < size then sign.foldl putc base else base) sign room
      body flags args := by
  have wrote : ∀ text, Wrote printer text → Wrote base text := by
    intro text before
    have after := plain.wrote text before
    rwa [ite_self, List.append_nil] at after
  by_cases fits : printer.n + room < size
  · obtain ⟨str, stores, n, same⟩ := foldl_putc_eq sign base
    simp only [if_pos fits]
    refine ⟨?_, ?_, ?_, ?_, ?_, ?_, ?_⟩
    · intro text before
      rw [if_pos fits]
      exact wrote_foldl_putc (wrote text before) sign
    · rw [same]
      exact plain.holds
    · rw [same]
      exact plain.zeros
    · rw [same]
      exact plain.pad
    · rw [same]
      exact plain.flags
    · rw [same]
      exact plain.args
    · rw [same]
      exact plain.format
  · simp only [if_neg fits]
    refine ⟨?_, plain.holds, plain.zeros, plain.pad, plain.flags, plain.args, plain.format⟩
    intro text before
    rw [if_neg fits, List.append_nil]
    exact wrote text before

theorem Converted.flagged {base : Printer} {body : List Byte} {flags : BitVec 32} {args : List Word}
    (plain : Converted size printer base [] 0 body flags args) (flag : BitVec 32) (chars : List Byte)
    (room : Nat) :
    Converted size printer
      (if printer.has flag = true ∧ printer.n + room < size then chars.foldl putc base else base)
      (if printer.flags &&& flag ≠ 0 then chars else []) room body flags args := by
  have signed := plain.signed (if printer.flags &&& flag ≠ 0 then chars else []) room
  by_cases asked : printer.flags &&& flag ≠ 0
  · have has : printer.has flag = true := decide_eq_true asked
    simpa only [has, true_and, if_pos asked] using signed
  · have hasNot : ¬printer.has flag = true := fun has => asked (of_decide_eq_true has)
    rw [if_neg (fun both => hasNot both.1)]
    rw [if_neg asked] at signed ⊢
    simpa only [List.foldl_nil, ite_self] using signed

/-! ### Each conversion -/

theorem holds_char {buffer : Buffer} (zeros : ∀ i < size, peek buffer i = 0) (c : Byte) :
    Holds (poke (poke buffer 0 c) 1 0) (if c = 0 then [] else [c]) ∧
      ∀ i < size, (if c = 0 then [] else [c] : List Byte).length < i →
        peek (poke (poke buffer 0 c) 1 0) i = 0 := by
  have first : peek (poke (poke buffer 0 c) 1 0) 0 = c := by
    rw [peek_poke, peek_poke]
    rfl
  constructor
  · by_cases zero : c = 0
    · rw [if_pos zero]
      refine ⟨fun j inside => absurd inside (Nat.not_lt_zero j), first.trans zero, ?_⟩
      intro byte member
      exact absurd member List.not_mem_nil
    · rw [if_neg zero]
      refine ⟨?_, ?_, ?_⟩
      · intro j inside
        rw [Nat.lt_one_iff.1 inside]
        exact first
      · rw [peek_poke]
        rfl
      · intro byte member
        rw [List.mem_singleton.1 member]
        exact zero
  · intro i inside behind
    rw [peek_poke, peek_poke, if_neg (show i ≠ 0 by omega), zeros i inside, ite_self]

theorem holds_blank {buffer : Buffer} (zeros : ∀ i < size, peek buffer i = 0) (large : 2 ≤ size) :
    Holds (poke buffer 0 0x20) [0x20] ∧
      ∀ i < size, ([0x20] : List Byte).length < i → peek (poke buffer 0 0x20) i = 0 := by
  have behind (i : Nat) (inside : i < size) (after : 1 ≤ i) : peek (poke buffer 0 0x20) i = 0 := by
    rw [peek_poke, if_neg (by omega)]
    exact zeros i inside
  refine ⟨⟨?_, behind 1 large (Nat.le_refl 1), by decide⟩, ?_⟩
  · intro j inside
    rw [Nat.lt_one_iff.1 inside, peek_poke]
    rfl
  · intro i inside after
    exact behind i inside (Nat.le_of_lt after)

theorem converted_string (zeros : ∀ i < size, peek printer.buf i = 0) (here : printer.n < size)
    (bounded : size < 2 ^ 64)
    (short : 0 < printer.n ∨ (content (string printer.argument)).length < size) :
    Holds (strncpy printer.buf (string printer.argument) (BitVec.ofNat 64 (size - printer.n)))
        ((content (string printer.argument)).take (size - printer.n)) ∧
      ∀ i < size, ((content (string printer.argument)).take (size - printer.n)).length < i →
        peek (strncpy printer.buf (string printer.argument) (BitVec.ofNat 64 (size - printer.n))) i =
          0 := by
  have room : (BitVec.ofNat 64 (size - printer.n)).toNat = size - printer.n := by
    rw [BitVec.toNat_ofNat, Nat.mod_eq_of_lt (by omega)]
  have bytes (j : Nat) := peek_strncpy printer.buf (string printer.argument)
    (show 0 < (BitVec.ofNat 64 (size - printer.n)).toNat by omega) j
  rw [room] at bytes
  simp only [List.length_take]
  refine ⟨⟨?_, ?_, ?_⟩, ?_⟩
  · intro j inside
    rw [List.length_take] at inside
    rw [bytes, if_pos (by omega), List.getD_eq_getElem _ _ (by omega),
      List.getD_eq_getElem _ _ (by rw [List.length_take]; omega), List.getElem_take]
  · rw [List.length_take, bytes]
    split_ifs with copied
    · rw [List.getD_eq_default _ _ (by omega)]
    · exact zeros _ (by omega)
  · intro byte member
    exact ne_zero_of_mem_content (List.mem_of_mem_take member)
  · intro i inside behind
    rw [bytes]
    split_ifs with copied
    · rw [List.getD_eq_default _ _ (by omega)]
    · exact zeros i inside

theorem converted_number (zeros : ∀ i < size, peek printer.buf i = 0) (value : Word) (base len : Nat)
    (positive : 0 < base) (most : base ≤ 36) :
    Converted size printer (printer.dropArgument.number value base len) [] 0
      (numeral value base len) printer.flags printer.args.tail := by
  have clear : ∀ i < size, peek printer.dropArgument.buf i = 0 := zeros
  obtain ⟨holds, behind⟩ := number_holds clear value len positive most
  exact converted_plain rfl rfl holds behind rfl rfl

theorem convert_integer (size : Nat) (string : Word → List Byte) (printer : Printer) :
    printer.convert size string .integer =
      if printer.n + 1 < size then
        (if printer.argument.toInt < 0 then [0x2D] else []).foldl putc
          (printer.dropArgument.number printer.argument 10 20)
      else printer.dropArgument.number printer.argument 10 20 := by
  simp only [convert]
  by_cases room : printer.n + 1 < size
  · by_cases negative : printer.argument.toInt < 0
    · rw [if_pos ⟨room, negative⟩, if_pos room, if_pos negative]
      rfl
    · rw [if_neg (fun both => negative both.2), if_pos room, if_neg negative]
      rfl
  · rw [if_neg (fun both => room both.1), if_neg room]

theorem convert_signed (size : Nat) (string : Word → List Byte) (printer : Printer) :
    printer.convert size string .signed =
      if printer.has alwaysSignFlag = true ∧ printer.n + 1 < size then
        [if 0 < printer.argument.toInt then 0x2B else 0x2D].foldl putc
          (printer.dropArgument.number printer.argument 10 20)
      else printer.dropArgument.number printer.argument 10 20 :=
  apply_ite (fun base : Printer => base.number printer.argument 10 20) _ _ _

/-- Each conversion does what the tables of its sign, body, flags and arguments say; the buffer
must have room for the zero behind a blank, and behind a string that is copied whole. -/
theorem converted (zeros : ∀ i < size, peek printer.buf i = 0) (here : printer.n < size)
    (bounded : size < 2 ^ 64) (conversion : Conversion) (large : conversion = .wide → 2 ≤ size)
    (short : conversion = .string →
      0 < printer.n ∨ (content (string printer.argument)).length < size) :
    Converted size printer (printer.convert size string conversion)
      (conversion.sign printer.flags printer.argument) conversion.signRoom
      (conversion.kept string printer.argument (size - printer.n))
      (conversion.flagsAfter printer.flags) (conversion.argsAfter printer.args) := by
  have counted := converted_number zeros printer.argument
  cases conversion with
  | percent =>
    have held := holds_char zeros 0x25
    rw [if_neg (by decide)] at held
    exact converted_plain rfl rfl held.1 held.2 rfl rfl
  | hex => exact (counted 16 16 (by decide) (by decide)).flagged prefixFlag [0x30, 0x78] 2
  | signed =>
    rw [convert_signed]
    exact (counted 10 20 (by decide) (by decide)).flagged alwaysSignFlag _ 1
  | integer =>
    rw [convert_integer]
    exact (counted 10 20 (by decide) (by decide)).signed _ 1
  | unsigned => exact counted _ _ (by decide) (by decide)
  | long =>
    have clear : ∀ i < size, peek (printer.setFlag longFlag).dropArgument.buf i = 0 := zeros
    obtain ⟨holds, behind⟩ := number_holds clear printer.argument 16 (show 0 < 16 by decide)
      (by decide)
    exact converted_plain rfl rfl holds behind rfl rfl
  | octal => exact (counted 8 16 (by decide) (by decide)).flagged prefixFlag [0x30] 2
  | string =>
    obtain ⟨holds, behind⟩ := converted_string zeros here bounded (short rfl)
    exact converted_plain rfl rfl holds behind rfl rfl
  | char =>
    obtain ⟨holds, behind⟩ := holds_char zeros (printer.argument.setWidth 8)
    exact converted_plain rfl rfl holds behind rfl rfl
  | wide =>
    obtain ⟨holds, behind⟩ := holds_blank zeros (large rfl)
    exact converted_plain rfl rfl holds behind rfl rfl

/-! ### Padding and body -/

/-- Of so many characters a loop stores. -/
def halfRoom (size n : Nat) : Nat := (size - n + 1) / 2

/-- What the loops after the `switch` leave. -/
structure Emitted (size : Nat) (printer after : Printer) (text : List Byte) : Prop where
  wrote : Wrote after text
  zeros : ∀ i < size, peek after.buf i = 0
  pad : after.pad = printer.pad
  flags : after.flags = printer.flags
  args : after.args = printer.args
  format : after.format = printer.format

theorem map_peek_eq {buffer : Buffer} {body : List Byte} (holds : Holds buffer body) :
    (List.range' 0 body.length).map (peek buffer) = body := by
  apply List.ext_getElem
  · rw [List.length_map, List.length_range']
  · intro j left right
    rw [List.getElem_map, List.getElem_range', Nat.zero_add, Nat.one_mul, holds.bytes j right,
      List.getD_eq_getElem _ _ right]

variable {body : List Byte}

theorem wrote_padOut (wrote : Wrote printer text) (holds : Holds printer.buf body) :
    Wrote (printer.padOut size) (text ++
      ((⟨printer.pad, printer.flags⟩ : Style).padding body.length).take
        (halfRoom size text.length)) := by
  unfold padOut Style.padding
  rw [holds.strlen_eq]
  by_cases asked : printer.flags &&& padFlag ≠ 0
  · have has : printer.has padFlag = true := decide_eq_true asked
    have fill : (if printer.has notnumFlag = true then (0x20 : Byte) else 0x30) =
        if printer.flags &&& notnumFlag ≠ 0 then 0x20 else 0x30 := by
      unfold Printer.has
      simp only [decide_eq_true_eq]
    rw [if_pos asked, has, fill]
    by_cases wide : body.length < printer.pad.toNat
    · have stored := wrote_storeLoop size wrote
        (fun _ => if printer.flags &&& notnumFlag ≠ 0 then (0x20 : Byte) else 0x30)
        (printer.pad.toNat - body.length) 0
      rw [if_pos ⟨rfl, wide⟩]
      rw [List.map_const', List.length_range', Nat.zero_add] at stored
      exact stored
    · have none' : printer.pad.toNat - body.length = 0 := by omega
      rw [if_neg (fun both => wide both.2), none', List.replicate_zero, List.take_nil, List.append_nil]
      exact wrote
  · have hasNot : ¬printer.has padFlag = true := fun has => asked (of_decide_eq_true has)
    rw [if_neg (fun both => hasNot both.1), if_neg asked, List.take_nil, List.append_nil]
    exact wrote

theorem emitted_copyOut (wrote : Wrote printer text) (holds : Holds printer.buf body)
    (zeros : ∀ i < size, body.length < i → peek printer.buf i = 0) :
    Emitted size printer (printer.copyOut size) (text ++ body.take (halfRoom size text.length)) := by
  have stored := wrote_storeLoop size wrote (peek printer.buf) body.length 0
  rw [map_peek_eq holds, Nat.zero_add] at stored
  obtain ⟨str, stores, n, same⟩ := storeLoop_eq size (peek printer.buf) body.length 0 printer
  have pad := congrArg Printer.pad same
  have flags := congrArg Printer.flags same
  have args := congrArg Printer.args same
  have format := congrArg Printer.format same
  unfold copyOut
  rw [holds.strlen_eq]
  refine ⟨⟨stored.n, stored.bytes⟩, ?_, pad, flags, args, format⟩
  · intro i inside
    change peek (CString.memset printer.buf 0 0 body.length) i = 0
    rw [peek_memset]
    split_ifs with cleared
    · rfl
    · rcases Nat.lt_or_ge body.length i with behind | at'
      · exact zeros i inside behind
      · have last : i = body.length := by omega
        rw [last]
        exact holds.zero

theorem emitted_emit (wrote : Wrote printer text) (holds : Holds printer.buf body)
    (zeros : ∀ i < size, body.length < i → peek printer.buf i = 0) :
    let padded := text ++ ((⟨printer.pad, printer.flags⟩ : Style).padding body.length).take
      (halfRoom size text.length)
    Emitted size printer (printer.emit size) (padded ++ body.take (halfRoom size padded.length)) := by
  intro padded
  have wrotePads : Wrote (printer.padOut size) padded := wrote_padOut wrote holds
  obtain ⟨str, stores, n, same⟩ := padOut_eq size printer
  have copied : Emitted size (printer.padOut size) ((printer.padOut size).copyOut size)
      (padded ++ body.take (halfRoom size padded.length)) :=
    emitted_copyOut wrotePads (by rw [same]; exact holds) (by rw [same]; exact zeros)
  refine ⟨copied.wrote, copied.zeros, copied.pad.trans ?_, copied.flags.trans ?_,
    copied.args.trans ?_, copied.format.trans ?_⟩
  · rw [same]
  · rw [same]
  · rw [same]
  · rw [same]

end Printer

end Osdev64
