/-
Truncated output.

The loops of `vsnprintf` that store the padding and the body of a field compare
`i + n` with the size while both go up, so near the end of the output they store
only half of what there is room for.  Where every field that begins before the
size fits in spite of that, the output is the text the format asks for, cut at the
size, and so the outputs for two sizes agree as far as the smaller goes.
-/

import Osdev64.PrintfPieces

namespace Osdev64

open Bytes CString Word64

/-! ### Fields that fit -/

/-- Storing `count` characters from position `n` on stops at the end of the room, and not
half way. -/
def HalfFits (size n count : Nat) : Prop := count ≤ (size - n + 1) / 2 ∨ size - n ≤ 1

/-- A field at position `n` comes out as it is asked for, up to the size: there is room for
its sign, padding and body each fit in half of the room left or meet only its last place, and
cutting a string to the room does not change the padding there is room for. -/
structure FieldFits (size n : Nat) (string : Word → List Byte) (style : Style) (options : List Byte)
    (conversion : Conversion) (argument : Word) : Prop where
  sign : style.sign options conversion argument = [] ∨ n + conversion.signRoom < size
  padding : ((style.after options conversion).padding
      (conversion.kept string argument (size - n)).length).take
        (size - (n + (style.sign options conversion argument).length)) =
    ((style.after options conversion).padding (conversion.body string argument).length).take
      (size - (n + (style.sign options conversion argument).length))
  pads : HalfFits size (n + (style.sign options conversion argument).length)
    ((style.after options conversion).padding (conversion.kept string argument (size - n)).length).length
  body : HalfFits size (n + (style.sign options conversion argument).length +
      ((style.after options conversion).padding (conversion.body string argument).length).length)
    (conversion.body string argument).length

/-- Every field that begins before the size fits; `n` is the position of the first piece in
the text asked for. -/
def Fits (size : Nat) (string : Word → List Byte) : List Piece → Style → List Word → Nat → Prop
  | [], _, _, _ => True
  | .literal _ _ :: rest, style, args, n => Fits size string rest { style with flags := 0 } args (n + 1)
  | .spec options _ conversion _ _ :: rest, style, args, n =>
    n < size →
      FieldFits size n string style options conversion (args.headD 0) ∧
      Fits size string rest (style.after options conversion) (conversion.argsAfter args)
        (n + (style.field string options conversion (args.headD 0)).length)

/-- The arguments that are printed as strings. -/
def stringArgs : List Piece → List Word → List Word
  | [], _ => []
  | .literal _ _ :: rest, args => stringArgs rest args
  | .spec _ _ conversion _ _ :: rest, args =>
    (if conversion = .string then [args.headD 0] else []) ++
      stringArgs rest (conversion.argsAfter args)

namespace Printer

variable {size : Nat}

/-- What is stored for a field, cut where the code cuts it. -/
def stored (size n : Nat) (string : Word → List Byte) (style : Style) (options : List Byte)
    (conversion : Conversion) (argument : Word) (full : List Byte) : List Byte :=
  let kept := conversion.kept string argument (size - n)
  let signed := full ++ if n + conversion.signRoom < size then
    style.sign options conversion argument else []
  let padded := signed ++ ((style.after options conversion).padding kept.length).take
    (halfRoom size signed.length)
  padded ++ kept.take (halfRoom size padded.length)

theorem take_halfRoom {chars : List Byte} {n : Nat} (fits : HalfFits size n chars.length) :
    chars.take (halfRoom size n) = chars.take (size - n) := by
  unfold halfRoom
  rcases fits with half | last
  · rw [List.take_of_length_le half, List.take_of_length_le (by omega)]
  · rw [show (size - n + 1) / 2 = size - n by omega]

end Printer

theorem Conversion.signRoom_le (conversion : Conversion) : conversion.signRoom ≤ 2 := by
  cases conversion <;> decide

theorem Conversion.length_sign_le (conversion : Conversion) (flags : BitVec 32) (argument : Word) :
    (conversion.sign flags argument).length ≤ conversion.signRoom := by
  cases conversion with
  | hex =>
    unfold Conversion.sign
    split_ifs <;> decide
  | signed =>
    unfold Conversion.sign
    by_cases asked : flags &&& alwaysSignFlag ≠ 0
    · rw [if_pos asked]
      exact Nat.le_refl 1
    · rw [if_neg asked]
      exact Nat.zero_le 1
  | integer =>
    unfold Conversion.sign
    split_ifs <;> decide
  | octal =>
    unfold Conversion.sign
    split_ifs <;> decide
  | percent => exact Nat.le_refl 0
  | unsigned => exact Nat.le_refl 0
  | long => exact Nat.le_refl 0
  | string => exact Nat.le_refl 0
  | char => exact Nat.le_refl 0
  | wide => exact Nat.le_refl 0

theorem Conversion.take_kept (conversion : Conversion) (string : Word → List Byte) (argument : Word)
    {room count : Nat} (inside : count ≤ room) :
    (conversion.kept string argument room).take count = (conversion.body string argument).take count := by
  cases conversion with
  | string =>
    change ((content (string argument)).take room).take count = _
    rw [List.take_take, Nat.min_eq_left inside]
    rfl
  | percent => rfl
  | hex => rfl
  | signed => rfl
  | integer => rfl
  | unsigned => rfl
  | long => rfl
  | octal => rfl
  | char => rfl
  | wide => rfl

theorem FieldFits.text {size : Nat} {string : Word → List Byte} {style : Style} {options : List Byte}
    {conversion : Conversion} {argument : Word} {full : List Byte} (before : full.length < size)
    (fits : FieldFits size full.length string style options conversion argument) :
    Printer.stored size full.length string style options conversion argument full =
      (full ++ style.field string options conversion argument).take size := by
  let after := style.after options conversion
  let kept := conversion.kept string argument (size - full.length)
  let signed := full ++ if full.length + conversion.signRoom < size then
    style.sign options conversion argument else []
  let padded := signed ++ (after.padding kept.length).take (Printer.halfRoom size signed.length)
  change padded ++ kept.take (Printer.halfRoom size padded.length) = _
  have short := conversion.length_sign_le (readOptions style false options).flags argument
  have signedEq : signed = full ++ style.sign options conversion argument := by
    rcases fits.sign with none' | room
    · change full ++ (if _ then style.sign options conversion argument else []) = _
      rw [none', ite_self]
    · exact congrArg (full ++ ·) (if_pos room)
  have signedLength : signed.length = full.length + (style.sign options conversion argument).length := by
    rw [signedEq, List.length_append]
  have signedFits : signed.length ≤ size := by
    rcases fits.sign with none' | room
    · rw [signedLength, none', List.length_nil]
      omega
    · have : (style.sign options conversion argument).length ≤ conversion.signRoom := short
      omega
  have pads : (after.padding kept.length).take (Printer.halfRoom size signed.length) =
      (after.padding (conversion.body string argument).length).take (size - signed.length) := by
    have half : HalfFits size signed.length (after.padding kept.length).length := by
      rw [signedLength]
      exact fits.pads
    rw [Printer.take_halfRoom half, signedLength]
    exact fits.padding
  have paddedEq : padded = (signed ++ after.padding (conversion.body string argument).length).take size := by
    change signed ++ _ = _
    rw [pads, List.take_append, List.take_of_length_le signedFits]
  have half : Printer.halfRoom size padded.length ≤ size - full.length := by
    have longer : full.length ≤ padded.length := by
      change full.length ≤ (signed ++ _).length
      rw [List.length_append, signedLength]
      omega
    unfold Printer.halfRoom
    omega
  have rest : (conversion.body string argument).take (Printer.halfRoom size padded.length) =
      (conversion.body string argument).take
        (size - (signed ++ after.padding (conversion.body string argument).length).length) := by
    have length : padded.length =
        min size (signed ++ after.padding (conversion.body string argument).length).length := by
      rw [paddedEq, List.length_take]
    rcases Nat.lt_or_ge (signed ++ after.padding (conversion.body string argument).length).length
      size with room | full'
    · rw [length, Nat.min_eq_right (Nat.le_of_lt room)]
      apply Printer.take_halfRoom
      rw [List.length_append, signedLength]
      exact fits.body
    · rw [length, Nat.min_eq_left full', Nat.sub_eq_zero_of_le full', Printer.halfRoom, Nat.sub_self]
  rw [conversion.take_kept string argument half, rest, paddedEq, ← List.take_append, signedEq]
  simp only [Style.field, List.append_assoc]
  rfl

namespace Printer

variable {size fuel : Nat} {string : Word → List Byte} {printer : Printer} {full : List Byte}

/-- The options of a specification are read, then its conversion and the loops after it run. -/
theorem spec_parsed {options : List Byte} {letter : Byte} {conversion : Conversion}
    (known : conversionOf letter = some conversion) (valid : ∀ c ∈ options, isOption c = true)
    {rest : List Byte} (format : printer.format = 0x25 :: (options ++ letter :: rest))
    (enough : options.length < fuel) (before : printer.n < size) :
    formatLoop size string (fuel + 1) printer =
      formatLoop size string fuel
        (((printer.at' (readOptions ⟨printer.pad, printer.flags⟩ false options)
          (letter :: rest)).convert size string conversion).emit size).advance := by
  have advanced : printer.advance = printer.at' ⟨printer.pad, printer.flags⟩
      (options ++ letter :: rest) := by
    unfold advance
    rw [format]
    rfl
  rw [formatLoop_percent format before, advanced,
    (nextFormat_options options valid known rest _ enough []).1, Option.bind_some]

theorem spec_after (bounded : size < 2 ^ 64) (options : List Byte) (letter : Byte)
    {conversion : Conversion} (rest : List Byte) (wrote : Wrote printer full) (before : full.length < size)
    (zeros : ∀ i < size, peek printer.buf i = 0) (large : conversion = .wide → 2 ≤ size)
    (short : conversion = .string →
      0 < full.length ∨ (content (string (printer.args.headD 0))).length < size) :
    let next := (((printer.at' (readOptions ⟨printer.pad, printer.flags⟩ false options)
      (letter :: rest)).convert size string conversion).emit size).advance
    next.format = rest ∧ (∀ i < size, peek next.buf i = 0) ∧
      (⟨next.pad, next.flags⟩ : Style) = Style.after ⟨printer.pad, printer.flags⟩ options conversion ∧
      next.args = conversion.argsAfter printer.args ∧
      Wrote next (stored size full.length string ⟨printer.pad, printer.flags⟩ options conversion
        (printer.args.headD 0) full) := by
  have n := wrote.n
  -- the conversion leaves its body in `buf`, the loops store it
  let read := readOptions ⟨printer.pad, printer.flags⟩ false options
  let spec := printer.at' read (letter :: rest)
  have wroteSpec : Wrote spec full := ⟨wrote.n, wrote.bytes⟩
  have specN : spec.n = full.length := n
  have clear : ∀ i < size, peek spec.buf i = 0 := zeros
  have converted : Converted size spec (spec.convert size string conversion)
      (conversion.sign read.flags (printer.args.headD 0)) conversion.signRoom
      (conversion.kept string (printer.args.headD 0) (size - spec.n))
      (conversion.flagsAfter read.flags) (conversion.argsAfter printer.args) :=
    Printer.converted clear (specN.trans_lt before) bounded conversion large (by rw [specN]; exact short)
  have signed := converted.wrote full wroteSpec
  have emitted := emitted_emit signed converted.holds converted.zeros
  have style : (⟨(spec.convert size string conversion).pad,
      (spec.convert size string conversion).flags⟩ : Style) =
      Style.after ⟨printer.pad, printer.flags⟩ options conversion := by
    rw [converted.pad, converted.flags]
    rfl
  refine ⟨?_, emitted.zeros, ?_, emitted.args.trans converted.args, ?_⟩
  · change ((spec.convert size string conversion).emit size).format.tail = rest
    rw [emitted.format, converted.format]
    rfl
  · change (⟨((spec.convert size string conversion).emit size).pad,
      ((spec.convert size string conversion).emit size).flags⟩ : Style) = _
    rw [emitted.pad, emitted.flags]
    exact style
  · rw [style, specN] at emitted
    exact ⟨emitted.wrote.n, emitted.wrote.bytes⟩

theorem spec_next (bounded : size < 2 ^ 64) {options : List Byte} {letter : Byte}
    {conversion : Conversion} (known : conversionOf letter = some conversion)
    (valid : ∀ c ∈ options, isOption c = true) {rest : List Byte}
    (format : printer.format = 0x25 :: (options ++ letter :: rest)) (enough : options.length < fuel)
    (wrote : Wrote printer full) (before : full.length < size)
    (zeros : ∀ i < size, peek printer.buf i = 0) (large : conversion = .wide → 2 ≤ size)
    (short : conversion = .string →
      0 < full.length ∨ (content (string (printer.args.headD 0))).length < size) :
    ∃ next : Printer,
      formatLoop size string (fuel + 1) printer = formatLoop size string fuel next ∧
      next.format = rest ∧ (∀ i < size, peek next.buf i = 0) ∧
      (⟨next.pad, next.flags⟩ : Style) = Style.after ⟨printer.pad, printer.flags⟩ options conversion ∧
      next.args = conversion.argsAfter printer.args ∧
      Wrote next (stored size full.length string ⟨printer.pad, printer.flags⟩ options conversion
        (printer.args.headD 0) full) :=
  ⟨_, spec_parsed known valid format enough (wrote.n.trans_lt before),
    spec_after bounded options letter rest wrote before zeros large short⟩

theorem literal_next {c : Byte} {rest : List Byte} (shape : printer.format = c :: rest)
    (plain : c ≠ 0 ∧ c ≠ 0x25) (wrote : Wrote printer full) (before : full.length < size)
    (zeros : ∀ i < size, peek printer.buf i = 0) :
    ∃ next : Printer,
      formatLoop size string (fuel + 1) printer = formatLoop size string fuel next ∧
      next.format = rest ∧ (∀ i < size, peek next.buf i = 0) ∧
      (⟨next.pad, next.flags⟩ : Style) = ⟨printer.pad, 0⟩ ∧ next.args = printer.args ∧
      Wrote next (full ++ [c]) := by
  have stored := wrote_putc wrote c
  exact ⟨{ (printer.putc c).advance with flags := 0 },
    formatLoop_literal shape plain.1 plain.2 (wrote.n.trans_lt before), advance_format shape, zeros, rfl, rfl,
    stored.n, stored.bytes⟩

/-- With room for every field, the output is the text the pieces ask for, cut at the size;
`full` is what they asked for before. -/
theorem formatLoop_pieces (large : 2 ≤ size) (bounded : size < 2 ^ 64) (pieces : List Piece)
    (format : printer.format = formatOf pieces) (enough : printer.format.length < fuel)
    (wrote : Wrote printer (full.take size)) (zeros : ∀ i < size, peek printer.buf i = 0)
    (fits : Fits size string pieces ⟨printer.pad, printer.flags⟩ printer.args full.length)
    (short : ∀ argument ∈ stringArgs pieces printer.args, (content (string argument)).length < size) :
    ∃ last, formatLoop size string fuel printer = some last ∧
      Wrote last ((full ++ render string pieces ⟨printer.pad, printer.flags⟩ printer.args).take size) := by
  induction pieces generalizing printer full fuel with
  | nil =>
    cases fuel with
    | zero => exact absurd enough (Nat.not_lt_zero _)
    | succ fuel =>
      refine ⟨printer, formatLoop_ended (Or.inl (by rw [current, format]; rfl)), ?_⟩
      rw [render, List.append_nil]
      exact wrote
  | cons piece pieces ih =>
    cases fuel with
    | zero => exact absurd enough (Nat.not_lt_zero _)
    | succ fuel =>
      by_cases past : size ≤ full.length
      · -- nothing more is stored
        refine ⟨printer, formatLoop_ended (Or.inr ?_), ?_⟩
        · rw [wrote.n, List.length_take]
          omega
        · rw [List.take_append_of_le_length past]
          exact wrote
      · have before : full.length < size := Nat.lt_of_not_le past
        rw [List.take_of_length_le (Nat.le_of_lt before)] at wrote
        cases piece with
        | literal c plain =>
          have shape : printer.format = c :: formatOf pieces := format
          obtain ⟨next, stepped, format', zeros', style, args, output⟩ :=
            literal_next shape plain wrote before zeros
          have cut : (full ++ [c]).take size = full ++ [c] :=
            List.take_of_length_le (by rw [List.length_append]; exact before)
          have enough' : next.format.length < fuel := by
            rw [shape, List.length_cons] at enough
            rw [format']
            omega
          rw [← cut] at output
          obtain ⟨last, ran, rendered⟩ := ih format' enough' output zeros'
            (by rw [style, args, List.length_append]; exact fits) (by rw [args]; exact short)
          refine ⟨last, stepped.trans ran, ?_⟩
          rw [List.append_assoc, style, args] at rendered
          exact rendered
        | spec options letter conversion known valid =>
          have shape := format.trans (formatOf_spec options letter known valid pieces)
          obtain ⟨field, later⟩ := fits before
          rw [shape, List.length_cons, List.length_append, List.length_cons] at enough
          have shortHere : conversion = .string →
              (content (string (printer.args.headD 0))).length < size := by
            intro isString
            apply short
            rw [stringArgs, if_pos isString]
            exact List.mem_append_left _ (List.mem_singleton.2 rfl)
          obtain ⟨next, stepped, format', zeros', style, args, output⟩ :=
            spec_next bounded known valid shape (show options.length < fuel by omega) wrote before
              zeros (fun _ => large) (fun isString => Or.inr (shortHere isString))
          rw [field.text before] at output
          have enough' : next.format.length < fuel := by
            rw [format']
            omega
          rw [← List.length_append, ← style, ← args] at later
          have shortLater : ∀ argument ∈ stringArgs pieces next.args,
              (content (string argument)).length < size := by
            intro argument member
            rw [args] at member
            apply short
            rw [stringArgs]
            exact List.mem_append_right _ member
          obtain ⟨last, ran, rendered⟩ := ih format' enough' output zeros' later shortLater
          refine ⟨last, stepped.trans ran, ?_⟩
          rw [List.append_assoc, style, args] at rendered
          exact rendered

end Printer

theorem printerStart_clear (str : Memory) (size : Nat) (behind : Buffer) (format : List Byte)
    (args : List Word) : ∀ i < size, peek (printerStart str size behind format args).buf i = 0 := by
  intro i inside
  change (List.replicate size 0 ++ behind).getD i 0 = 0
  rw [List.getD_append _ _ _ _ (by rw [List.length_replicate]; exact inside),
    List.getD_replicate _ inside]

theorem vsnprintf_pieces {size : Nat} (large : 2 ≤ size) (bounded : size < 2 ^ 64)
    (str : Memory) (behind : Buffer) (string : Word → List Byte) (pieces : List Piece)
    (args : List Word) (fits : Fits size string pieces ⟨0, 0⟩ args 0)
    (short : ∀ argument ∈ stringArgs pieces args, (content (string argument)).length < size)
    {fuel : Nat} (enough : (formatOf pieces).length < fuel) :
    ∃ last, vsnprintf fuel str size behind string (formatOf pieces) args = some last ∧
      Wrote last ((render string pieces ⟨0, 0⟩ args).take size) := by
  have start : Wrote (printerStart str size behind (formatOf pieces) args) (([] : List Byte).take size) := by
    rw [List.take_nil]
    exact ⟨rfl, fun j inside => absurd inside (Nat.not_lt_zero j)⟩
  exact Printer.formatLoop_pieces large bounded pieces rfl enough start
    (printerStart_clear str size behind (formatOf pieces) args) fits short

/-- Where every field fits in both sizes, the output of the smaller is the beginning of the
output of the larger, as long as the smaller size or the whole of the larger output. -/
theorem vsnprintf_truncates (str str' : Memory) (behind behind' : Buffer)
    (string : Word → List Byte) (pieces : List Piece) (args : List Word) {size size' : Nat}
    (scratch : 32 ≤ size) (order : size ≤ size') (bounded : size' < 2 ^ 63)
    (short : ∀ argument ∈ stringArgs pieces args, (content (string argument)).length < size)
    (fits : Fits size string pieces ⟨0, 0⟩ args 0) (fits' : Fits size' string pieces ⟨0, 0⟩ args 0) :
    ∃ fuel first second,
      vsnprintf fuel str size behind string (formatOf pieces) args = some first ∧
      vsnprintf fuel str' size' behind' string (formatOf pieces) args = some second ∧
      first.n = min size second.n ∧ ∀ j < first.n, first.str j = second.str j := by
  obtain ⟨first, ran, wrote⟩ := vsnprintf_pieces (by omega) (by omega) str behind string pieces args
    fits short (Nat.lt_succ_self _)
  obtain ⟨second, ran', wrote'⟩ := vsnprintf_pieces (by omega) (by omega) str' behind' string pieces
    args fits' (fun argument member => Nat.lt_of_lt_of_le (short argument member) order)
    (Nat.lt_succ_self _)
  have n := wrote.n
  have n' := wrote'.n
  rw [List.length_take] at n n'
  refine ⟨_, first, second, ran, ran', by omega, ?_⟩
  intro j inside
  rw [n] at inside
  rw [wrote.bytes j (by rw [List.length_take]; exact inside),
    wrote'.bytes j (by rw [List.length_take]; omega),
    List.getD_eq_getElem _ _ (by rw [List.length_take]; exact inside),
    List.getD_eq_getElem _ _ (by rw [List.length_take]; omega), List.getElem_take, List.getElem_take]

/-! ### A string near the end -/

def letterA : Piece := .literal 0x61 (by decide)

def stringPiece : Piece := .spec [] 0x73 .string (by decide) (by decide)

/-- The format of some letters and a string, `aaaa%s`. -/
def lettersThenString (letters : Nat) : List Piece := List.replicate letters letterA ++ [stringPiece]

/-- Every pointer points to twenty times the letter b. -/
def twentyLetters : Word → List Byte := fun _ => List.replicate 20 0x62

theorem vsnprintf_truncates_letters :
    ∃ fuel first second,
      vsnprintf fuel (fun _ => 0) 64 [] twentyLetters (formatOf (lettersThenString 2)) [0] =
        some first ∧
      vsnprintf fuel (fun _ => 0) 128 [] twentyLetters (formatOf (lettersThenString 2)) [0] =
        some second ∧
      first.n = min 64 second.n ∧ ∀ j < first.n, first.str j = second.str j := by
  have fits (size : Nat) (large : 64 ≤ size) :
      Fits size twentyLetters (lettersThenString 2) ⟨0, 0⟩ [0] 0 := by
    intro _
    refine ⟨⟨Or.inl rfl, rfl, Or.inl (Nat.zero_le _), Or.inl ?_⟩, trivial⟩
    change 20 ≤ (size - 2 + 1) / 2
    omega
  have short (argument : Word) : (content (twentyLetters argument)).length < 64 :=
    show (content (List.replicate 20 0x62)).length < 64 by decide
  exact vsnprintf_truncates (fun _ => 0) (fun _ => 0) [] [] twentyLetters (lettersThenString 2) [0]
    (by decide) (by decide) (by decide) (fun argument _ => short argument) (fits 64 (by decide))
    (fits 128 (by decide))

/-- With twelve places left, six of the twenty letters are stored. -/
theorem string_cut_in_half :
    (vsnprintf 64 (fun _ => 0) 32 [] twentyLetters (formatOf (lettersThenString 20)) [0]).map
        Printer.n = some 26 ∧
      (vsnprintf 64 (fun _ => 0) 128 [] twentyLetters (formatOf (lettersThenString 20)) [0]).map
        Printer.n = some 40 ∧
      (content (twentyLetters 0)).length < 32 ∧ 26 ≠ min 32 40 := by
  refine ⟨?_, ?_, by decide, by decide⟩
  · decide +kernel
  · decide +kernel

end Osdev64
