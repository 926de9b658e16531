/-
Formatting one format after another.

`flags` and `pad` of `vsnprintf` live across the rounds of its loop: a literal
character clears the flags, nothing clears the width.  So the text of a format
depends on the style the formats before it leave.  As styles only gain flags, and
a width is only read where a flag asks for it, the text never gets shorter by that.
-/

import Osdev64.PrintfRuns
import Osdev64.PrintfTruncate

namespace Osdev64

open Bytes CString Word64

/-! ### The style a format leaves -/

def styleAfter : List Piece → Style → Style
  | [], style => style
  | .literal _ _ :: rest, style => styleAfter rest { style with flags := 0 }
  | .spec options _ conversion _ _ :: rest, style => styleAfter rest (style.after options conversion)

/-- The arguments a conversion reads. -/
def Conversion.arity : Conversion → Nat
  | .percent => 0
  | .wide => 0
  | _ => 1

def argCount : List Piece → Nat
  | [] => 0
  | .literal _ _ :: rest => argCount rest
  | .spec _ _ conversion _ _ :: rest => conversion.arity + argCount rest

theorem Conversion.argsAfter_eq (conversion : Conversion) (args : List Word) :
    conversion.argsAfter args = args.drop conversion.arity := by
  cases conversion with
  | percent => rfl
  | wide => rfl
  | hex => exact (List.drop_one).symm
  | signed => exact (List.drop_one).symm
  | integer => exact (List.drop_one).symm
  | unsigned => exact (List.drop_one).symm
  | long => exact (List.drop_one).symm
  | octal => exact (List.drop_one).symm
  | string => exact (List.drop_one).symm
  | char => exact (List.drop_one).symm

theorem Style.field_congr (style : Style) (string : Word → List Byte) (options : List Byte)
    {conversion : Conversion} {args more : List Word} (enough : conversion.arity ≤ args.length) :
    style.field string options conversion ((args ++ more).headD 0) =
      style.field string options conversion (args.headD 0) := by
  cases args with
  | cons argument args => rfl
  | nil =>
    cases conversion with
    | percent => rfl
    | wide => rfl
    | hex => exact absurd enough (by decide)
    | signed => exact absurd enough (by decide)
    | integer => exact absurd enough (by decide)
    | unsigned => exact absurd enough (by decide)
    | long => exact absurd enough (by decide)
    | octal => exact absurd enough (by decide)
    | string => exact absurd enough (by decide)
    | char => exact absurd enough (by decide)

theorem render_append (string : Word → List Byte) (first second : List Piece) (style : Style)
    {args more : List Word} (counted : args.length = argCount first) :
    render string (first ++ second) style (args ++ more) =
      render string first style args ++ render string second (styleAfter first style) more := by
  induction first generalizing style args with
  | nil =>
    rw [List.length_eq_zero_iff.mp counted]
    rfl
  | cons piece first ih =>
    cases piece with
    | literal c plain => exact congrArg (c :: ·) (ih _ counted)
    | spec options letter conversion known valid =>
      have counted' : args.length = conversion.arity + argCount first := counted
      have later : (conversion.argsAfter args).length = argCount first := by
        rw [conversion.argsAfter_eq, List.length_drop]
        omega
      have dropped : conversion.argsAfter (args ++ more) = conversion.argsAfter args ++ more := by
        rw [conversion.argsAfter_eq, conversion.argsAfter_eq, List.drop_append_of_le_length (by omega)]
      change style.field string options conversion ((args ++ more).headD 0) ++
        render string (first ++ second) (style.after options conversion)
          (conversion.argsAfter (args ++ more)) = _
      rw [style.field_congr string options (by omega), dropped, ih _ later, ← List.append_assoc]
      rfl

/-! ### Texts in two styles -/

/-- Every field of the pieces has the same sign and the same padding in both styles. -/
def Unaffected (string : Word → List Byte) : List Piece → Style → Style → List Word → Prop
  | [], _, _, _ => True
  | .literal _ _ :: rest, style, plain, args =>
    Unaffected string rest { style with flags := 0 } { plain with flags := 0 } args
  | .spec options _ conversion _ _ :: rest, style, plain, args =>
    (style.sign options conversion (args.headD 0) = plain.sign options conversion (args.headD 0) ∧
      (style.after options conversion).padding (conversion.body string (args.headD 0)).length =
        (plain.after options conversion).padding (conversion.body string (args.headD 0)).length) ∧
    Unaffected string rest (style.after options conversion) (plain.after options conversion)
      (conversion.argsAfter args)

/-- More flags, and the same width or one where there was none. -/
structure Style.Above (style plain : Style) : Prop where
  flags : plain.flags &&& style.flags = plain.flags
  pad : plain.pad = style.pad ∨ plain.pad = 0

theorem Style.above_fresh (style : Style) : style.Above ⟨0, 0⟩ := ⟨by simp, Or.inr rfl⟩

private theorem and_or_of_and {style plain : BitVec 32} (within : plain &&& style = plain)
    (more : BitVec 32) : (plain ||| more) &&& (style ||| more) = plain ||| more := by
  apply BitVec.eq_of_getLsbD_eq
  intro i _
  have bit := congrArg (fun word => word.getLsbD i) within
  simp only [BitVec.getLsbD_and, BitVec.getLsbD_or] at bit ⊢
  revert bit
  cases plain.getLsbD i <;> cases style.getLsbD i <;> cases more.getLsbD i <;> decide

theorem readOptions_above {style plain : Style} (above : style.Above plain) (options : List Byte)
    (number : Bool) (same : number = true → plain.pad = style.pad) :
    (readOptions style number options).Above (readOptions plain number options) := by
  induction options generalizing style plain number with
  | nil => exact above
  | cons c rest ih =>
    unfold readOptions
    by_cases alternate : c = 0x23
    · have next : Style.Above ⟨16, style.flags ||| (prefixFlag ||| padFlag)⟩
          ⟨16, plain.flags ||| (prefixFlag ||| padFlag)⟩ :=
        ⟨and_or_of_and above.flags _, Or.inl rfl⟩
      rw [if_pos alternate, if_pos alternate]
      exact ih next false (by simp)
    · rw [if_neg alternate, if_neg alternate]
      by_cases plus : c = 0x2B
      · have next : Style.Above ⟨style.pad, style.flags ||| alwaysSignFlag⟩
            ⟨plain.pad, plain.flags ||| alwaysSignFlag⟩ :=
          ⟨and_or_of_and above.flags _, above.pad⟩
        rw [if_pos plus, if_pos plus]
        exact ih next false (by simp)
      · have samePad : (if number then plain.pad else 0) = if number then style.pad else 0 := by
          cases number with
          | true => exact same rfl
          | false => rfl
        have next (pad : Word) : Style.Above ⟨pad, style.flags ||| padFlag⟩
            ⟨pad, plain.flags ||| padFlag⟩ := ⟨and_or_of_and above.flags _, Or.inl rfl⟩
        rw [if_neg plus, if_neg plus, samePad]
        exact ih (next _) true (fun _ => rfl)

namespace Style.Above

variable {style plain : Style} (above : style.Above plain)

include above

private theorem has {flag : BitVec 32} (asked : plain.flags &&& flag ≠ 0) : style.flags &&& flag ≠ 0 := by
  intro none
  apply asked
  rw [← above.flags, BitVec.and_assoc, none]
  exact BitVec.and_zero

theorem after (options : List Byte) (conversion : Conversion) :
    (style.after options conversion).Above (plain.after options conversion) := by
  have read := readOptions_above above options false (by simp)
  refine ⟨?_, read.pad⟩
  unfold Style.after
  cases conversion with
  | long => exact and_or_of_and read.flags _
  | string => exact and_or_of_and read.flags _
  | char => exact and_or_of_and read.flags _
  | wide => exact and_or_of_and read.flags _
  | percent => exact read.flags
  | hex => exact read.flags
  | signed => exact read.flags
  | integer => exact read.flags
  | unsigned => exact read.flags
  | octal => exact read.flags

theorem clear : Style.Above { style with flags := 0 } { plain with flags := 0 } :=
  ⟨BitVec.zero_and, above.pad⟩

private theorem asked_length (flag : BitVec 32) (chars : List Byte) :
    (if plain.flags &&& flag ≠ 0 then chars else []).length ≤
      (if style.flags &&& flag ≠ 0 then chars else []).length := by
  by_cases asked : plain.flags &&& flag ≠ 0
  · rw [if_pos asked, if_pos (above.has asked)]
  · rw [if_neg asked]
    exact Nat.zero_le _

theorem sign_length (options : List Byte) (conversion : Conversion) (argument : Word) :
    (plain.sign options conversion argument).length ≤ (style.sign options conversion argument).length := by
  have read := readOptions_above above options false (by simp)
  unfold Style.sign
  cases conversion with
  | hex => exact read.asked_length prefixFlag _
  | signed => exact read.asked_length alwaysSignFlag _
  | octal => exact read.asked_length prefixFlag _
  | integer => exact Nat.le_refl _
  | percent => exact Nat.le_refl _
  | unsigned => exact Nat.le_refl _
  | long => exact Nat.le_refl _
  | string => exact Nat.le_refl _
  | char => exact Nat.le_refl _
  | wide => exact Nat.le_refl _

theorem padding_length (length : Nat) : (plain.padding length).length ≤ (style.padding length).length := by
  unfold Style.padding
  by_cases asked : plain.flags &&& padFlag ≠ 0
  · rw [if_pos asked, if_pos (above.has asked), List.length_replicate, List.length_replicate]
    rcases above.pad with same | none
    · rw [same]
    · rw [none]
      exact Nat.le_trans (Nat.sub_le 0 length) (Nat.zero_le _)
  · rw [if_neg asked]
    exact Nat.zero_le _

end Style.Above

theorem length_render_le (string : Word → List Byte) (pieces : List Piece) {style plain : Style}
    (above : style.Above plain) (args : List Word) :
    (render string pieces plain args).length ≤ (render string pieces style args).length := by
  induction pieces generalizing style plain args with
  | nil => exact Nat.le_refl _
  | cons piece pieces ih =>
    cases piece with
    | literal c nonzero => exact Nat.succ_le_succ (ih above.clear args)
    | spec options letter conversion known valid =>
      have sign := above.sign_length options conversion (args.headD 0)
      have padding := (above.after options conversion).padding_length
        (conversion.body string (args.headD 0)).length
      have later := ih (above.after options conversion) (conversion.argsAfter args)
      simp only [render, Style.field, List.length_append]
      omega

theorem render_eq_iff (string : Word → List Byte) (pieces : List Piece) {style plain : Style}
    (above : style.Above plain) (args : List Word) :
    render string pieces style args = render string pieces plain args ↔
      Unaffected string pieces style plain args := by
  induction pieces generalizing style plain args with
  | nil => exact iff_of_true rfl trivial
  | cons piece pieces ih =>
    cases piece with
    | literal c nonzero =>
      unfold render Unaffected
      rw [List.cons_inj_right]
      exact ih above.clear args
    | spec options letter conversion known valid =>
      unfold Unaffected
      rw [← ih (above.after options conversion)]
      simp only [render, Style.field, List.append_assoc]
      constructor
      · intro same
        have sign := above.sign_length options conversion (args.headD 0)
        have padding := (above.after options conversion).padding_length
          (conversion.body string (args.headD 0)).length
        have later := length_render_le string pieces (above.after options conversion)
          (conversion.argsAfter args)
        have lengths := congrArg List.length same
        simp only [List.length_append] at lengths
        obtain ⟨sameSign, behind⟩ := List.append_inj same (by omega)
        obtain ⟨samePadding, behind⟩ := List.append_inj behind (by omega)
        obtain ⟨_, sameRest⟩ := List.append_inj behind rfl
        exact ⟨⟨sameSign, samePadding⟩, sameRest⟩
      · rintro ⟨⟨sameSign, samePadding⟩, sameRest⟩
        rw [sameSign, samePadding, sameRest]

/-! ### Output that is cut reaches past the middle -/

namespace Conversion

theorem body_pos {conversion : Conversion} (string : Word → List Byte) (argument : Word)
    (signed : 0 < conversion.signRoom) : 0 < (conversion.body string argument).length := by
  cases conversion with
  | hex => exact length_numeral_pos _ _ (by decide)
  | signed => exact length_numeral_pos _ _ (by decide)
  | integer => exact length_numeral_pos _ _ (by decide)
  | octal => exact length_numeral_pos _ _ (by decide)
  | percent => exact absurd signed (by decide)
  | unsigned => exact absurd signed (by decide)
  | long => exact absurd signed (by decide)
  | string => exact absurd signed (by decide)
  | char => exact absurd signed (by decide)
  | wide => exact absurd signed (by decide)

theorem kept_cases (conversion : Conversion) (string : Word → List Byte) (argument : Word) (room : Nat) :
    conversion.kept string argument room = conversion.body string argument ∨
      room < (conversion.body string argument).length ∧
        (conversion.kept string argument room).length = room ∧ conversion.signRoom = 0 := by
  cases conversion with
  | string =>
    change (content (string argument)).take room = content (string argument) ∨
      room < (content (string argument)).length ∧ ((content (string argument)).take room).length = room ∧ _
    rcases Nat.lt_or_ge room (content (string argument)).length with cut | whole
    · exact Or.inr ⟨cut, by rw [List.length_take]; omega, rfl⟩
    · exact Or.inl (List.take_of_length_le whole)
  | hex => exact Or.inl rfl
  | signed => exact Or.inl rfl
  | integer => exact Or.inl rfl
  | octal => exact Or.inl rfl
  | percent => exact Or.inl rfl
  | unsigned => exact Or.inl rfl
  | long => exact Or.inl rfl
  | char => exact Or.inl rfl
  | wide => exact Or.inl rfl

end Conversion

/-- A field is stored as it is asked for, or both what is stored and what is asked for reach
past the middle of the output. -/
theorem stored_whole_or_past (size : Nat) (string : Word → List Byte) (style : Style)
    (options : List Byte) (conversion : Conversion) (argument : Word) {full : List Byte}
    (before : 2 * full.length < size) :
    Printer.stored size full.length string style options conversion argument full =
        full ++ style.field string options conversion argument ∨
      size ≤ 2 * (Printer.stored size full.length string style options conversion argument full).length ∧
        size ≤ 2 * (full ++ style.field string options conversion argument).length := by
  have room := conversion.signRoom_le
  have short : (style.sign options conversion argument).length ≤ conversion.signRoom :=
    conversion.length_sign_le _ argument
  unfold Printer.stored Style.field Printer.halfRoom
  by_cases asked : style.sign options conversion argument = [] ∨ full.length + conversion.signRoom < size
  · have same : (if full.length + conversion.signRoom < size then
        style.sign options conversion argument else []) = style.sign options conversion argument := by
      rcases asked with none | fits
      · rw [none, ite_self]
      · rw [if_pos fits]
    rw [same]
    simp only [List.length_append, List.length_take]
    rcases conversion.kept_cases string argument (size - full.length) with whole | ⟨cut, length, _⟩
    · rw [whole]
      by_cases padsFit : ((style.after options conversion).padding
          (conversion.body string argument).length).length ≤
            (size - (full.length + (style.sign options conversion argument).length) + 1) / 2
      · by_cases bodyFits : (conversion.body string argument).length ≤
            (size - (full.length + (style.sign options conversion argument).length +
              ((style.after options conversion).padding
                (conversion.body string argument).length).length) + 1) / 2
        · refine Or.inl ?_
          rw [Nat.min_eq_right padsFit, List.take_of_length_le padsFit, List.take_of_length_le bodyFits]
          simp only [List.append_assoc]
        · refine Or.inr ⟨?_, ?_⟩
          · omega
          · omega
      · refine Or.inr ⟨?_, ?_⟩
        · omega
        · omega
    · refine Or.inr ⟨?_, ?_⟩
      · omega
      · omega
  · -- the sign is left out only in the last two places, and a body follows it
    obtain ⟨some, full'⟩ := not_or.mp asked
    have signed : 0 < (style.sign options conversion argument).length := List.length_pos_iff.mpr some
    have body := conversion.body_pos string argument (by omega)
    have whole : conversion.kept string argument (size - full.length) = conversion.body string argument :=
      (conversion.kept_cases string argument _).resolve_right fun cut => by omega
    rw [if_neg full', whole]
    simp only [List.length_append, List.length_take, List.length_nil]
    refine Or.inr ⟨?_, ?_⟩
    · omega
    · omega

namespace Printer

variable {size fuel : Nat} {string : Word → List Byte} {printer : Printer}

theorem emit_past (printer : Printer) (long : size ≤ strlen printer.buf) :
    size ≤ 2 * (printer.emit size).n := by
  obtain ⟨str, stores, n, same⟩ := padOut_eq size printer
  have buffer : (printer.padOut size).buf = printer.buf := by rw [same]
  change size ≤ 2 * (storeLoop size _ (strlen (printer.padOut size).buf) 0 (printer.padOut size)).n
  rw [storeLoop_n, buffer]
  omega

/-- The buffer holds a body as long as the size: a long string at the start, or a blank in a
buffer of one byte. -/
theorem convert_long {conversion : Conversion} (start : printer.n = 0) (bounded : size < 2 ^ 64)
    (positive : 0 < size)
    (long : conversion = .wide ∧ size < 2 ∨
      conversion = .string ∧ size ≤ (content (string printer.argument)).length) :
    size ≤ strlen (printer.convert size string conversion).buf := by
  rcases long with ⟨rfl, one⟩ | ⟨rfl, long⟩
  · by_contra short
    have zero : strlen (poke printer.buf 0 0x20) = 0 := by
      change ¬size ≤ strlen (poke printer.buf 0 0x20) at short
      omega
    have first := peek_strlen (poke printer.buf 0 0x20)
    rw [zero, peek_poke, if_pos rfl] at first
    exact absurd first (by decide)
  · have room : (BitVec.ofNat 64 (size - printer.n)).toNat = size := by
      rw [BitVec.toNat_ofNat, start, Nat.sub_zero, Nat.mod_eq_of_lt bounded]
    by_contra short
    have end' := peek_strlen (strncpy printer.buf (string printer.argument)
      (BitVec.ofNat 64 (size - printer.n)))
    change ¬size ≤ strlen (strncpy printer.buf (string printer.argument)
      (BitVec.ofNat 64 (size - printer.n))) at short
    generalize strlen (strncpy printer.buf (string printer.argument)
      (BitVec.ofNat 64 (size - printer.n))) = index at end' short
    rw [peek_strncpy _ _ (by rw [room]; exact positive), room, if_pos (by omega),
      List.getD_eq_getElem _ _ (by omega)] at end'
    exact ne_zero_of_mem_content (List.getElem_mem _) end'

theorem complete_formatOf (pieces : List Piece) : complete false (formatOf pieces) = true := by
  induction pieces with
  | nil => rfl
  | cons piece pieces ih =>
    cases piece with
    | literal c plain =>
      change complete false (c :: formatOf pieces) = true
      rw [complete, if_neg plain.1, if_neg plain.2]
      exact ih
    | spec options letter conversion known valid =>
      rw [formatOf_spec, complete, if_neg (by decide), if_pos rfl]
      induction options with
      | nil =>
        rw [List.nil_append, complete_conversion known]
        exact ih
      | cons c options inner =>
        have option := valid c List.mem_cons_self
        rw [List.cons_append, complete_option (conversionOf_option option), option, Bool.true_and]
        exact inner fun c member => valid c (List.mem_cons_of_mem _ member)

private theorem formatLoop_past (pieces : List Piece) (format : printer.format = formatOf pieces)
    (enough : printer.format.length < fuel) (past : size ≤ 2 * printer.n) :
    ∃ last, formatLoop size string fuel printer = some last ∧ size ≤ 2 * last.n := by
  have whole : complete false printer.format = true := by
    rw [format]
    exact complete_formatOf pieces
  have returns : (formatLoop size string fuel printer).isSome := formatLoop_of_complete enough whole
  obtain ⟨last, ran⟩ := Option.isSome_iff_exists.mp returns
  have longer := formatLoop_le_n ran
  exact ⟨last, ran, by omega⟩

private theorem spec_long (bounded : size < 2 ^ 64) {options : List Byte} {letter : Byte}
    {conversion : Conversion} (known : conversionOf letter = some conversion)
    (valid : ∀ c ∈ options, isOption c = true) {rest : List Byte}
    (format : printer.format = 0x25 :: (options ++ letter :: rest)) (enough : options.length < fuel)
    (start : printer.n = 0) (positive : 0 < size)
    (long : conversion = .wide ∧ size < 2 ∨
      conversion = .string ∧ size ≤ (content (string printer.argument)).length) :
    ∃ next : Printer, formatLoop size string (fuel + 1) printer = formatLoop size string fuel next ∧
      next.format = rest ∧ size ≤ 2 * next.n := by
  let spec := printer.at' (readOptions ⟨printer.pad, printer.flags⟩ false options) (letter :: rest)
  have full : size ≤ strlen (spec.convert size string conversion).buf :=
    convert_long start bounded positive long
  refine ⟨((spec.convert size string conversion).emit size).advance,
    spec_parsed known valid format enough (by omega), ?_, emit_past _ full⟩
  change ((spec.convert size string conversion).emit size).format.tail = rest
  rw [emit_format, (convert_position size string spec conversion).1]
  rfl

private theorem length_body_of_long {conversion : Conversion} {argument : Word}
    (long : conversion = .wide ∧ size < 2 ∨
      conversion = .string ∧ size ≤ (content (string argument)).length) :
    size ≤ (conversion.body string argument).length := by
  rcases long with ⟨rfl, one⟩ | ⟨rfl, long⟩
  · exact Nat.le_of_lt_succ one
  · exact long

private theorem not_long {conversion : Conversion} {argument : Word} {n : Nat} (room : 2 * n < size)
    (short : ¬(n = 0 ∧ (conversion = .wide ∧ size < 2 ∨
      conversion = .string ∧ size ≤ (content (string argument)).length))) :
    (conversion = .wide → 2 ≤ size) ∧
      (conversion = .string → 0 < n ∨ (content (string argument)).length < size) := by
  constructor
  · intro wide
    by_contra one
    exact short ⟨by omega, Or.inl ⟨wide, by omega⟩⟩
  · intro isString
    by_contra cut
    exact short ⟨by omega, Or.inr ⟨isString, by omega⟩⟩

/-- One specification comes out as it is asked for, or both what is stored and what is asked for
reach past the middle of the output. -/
private theorem spec_whole_or_past (bounded : size < 2 ^ 64) {options : List Byte} {letter : Byte}
    {conversion : Conversion} (known : conversionOf letter = some conversion)
    (valid : ∀ c ∈ options, isOption c = true) {rest : List Byte}
    (format : printer.format = 0x25 :: (options ++ letter :: rest)) (enough : options.length < fuel)
    {full : List Byte} (wrote : Wrote printer full) (before : 2 * full.length < size)
    (zeros : ∀ i < size, peek printer.buf i = 0) :
    ∃ next : Printer,
      formatLoop size string (fuel + 1) printer = formatLoop size string fuel next ∧
      next.format = rest ∧
      ((∀ i < size, peek next.buf i = 0) ∧
          (⟨next.pad, next.flags⟩ : Style) = Style.after ⟨printer.pad, printer.flags⟩ options conversion ∧
          next.args = conversion.argsAfter printer.args ∧
          Wrote next (full ++ Style.field ⟨printer.pad, printer.flags⟩ string options conversion
            (printer.args.headD 0)) ∨
        size ≤ 2 * next.n ∧
          size ≤ 2 * (full ++ Style.field ⟨printer.pad, printer.flags⟩ string options conversion
            (printer.args.headD 0)).length) := by
  by_cases long : full.length = 0 ∧ (conversion = .wide ∧ size < 2 ∨
      conversion = .string ∧ size ≤ (content (string printer.argument)).length)
  · obtain ⟨next, stepped, format', past⟩ := spec_long bounded known valid format enough
      (wrote.n.trans long.1) (by omega) long.2
    have body := length_body_of_long long.2
    have field : (conversion.body string printer.argument).length ≤
        (full ++ Style.field ⟨printer.pad, printer.flags⟩ string options conversion
          (printer.args.headD 0)).length := by
      rw [List.length_append, Style.field, List.length_append]
      exact Nat.le_trans (Nat.le_add_left _ _) (Nat.le_add_left _ _)
    exact ⟨next, stepped, format', Or.inr ⟨past, by omega⟩⟩
  · obtain ⟨large, short⟩ := not_long before long
    obtain ⟨next, stepped, format', zeros', style, args, output⟩ :=
      spec_next bounded known valid format enough wrote (by omega) zeros large short
    refine ⟨next, stepped, format', ?_⟩
    rcases stored_whole_or_past size string ⟨printer.pad, printer.flags⟩ options conversion
      (printer.args.headD 0) before with whole | ⟨past, asked⟩
    · rw [whole] at output
      exact Or.inl ⟨zeros', style, args, output⟩
    · exact Or.inr ⟨output.n.symm ▸ past, asked⟩

/-- The pieces come out as they are asked for, or both what is stored and what they ask for reach
past the middle of the output. -/
theorem formatLoop_whole_or_past (bounded : size < 2 ^ 64) (pieces : List Piece)
    (format : printer.format = formatOf pieces) (enough : printer.format.length < fuel)
    {full : List Byte} (wrote : Wrote printer full) (zeros : ∀ i < size, peek printer.buf i = 0) :
    ∃ last, formatLoop size string fuel printer = some last ∧
      (Wrote last (full ++ render string pieces ⟨printer.pad, printer.flags⟩ printer.args) ∨
        size ≤ 2 * last.n ∧
          size ≤ 2 * (full ++ render string pieces ⟨printer.pad, printer.flags⟩ printer.args).length) := by
  induction pieces generalizing printer full fuel with
  | nil =>
    cases fuel with
    | zero => exact absurd enough (Nat.not_lt_zero _)
    | succ fuel =>
      refine ⟨printer, formatLoop_ended (Or.inl (by rw [current, format]; rfl)), Or.inl ?_⟩
      rw [render, List.append_nil]
      exact wrote
  | cons piece pieces ih =>
    by_cases past : size ≤ 2 * full.length
    · obtain ⟨last, ran, still⟩ := formatLoop_past _ format enough (wrote.n.symm ▸ past)
      refine ⟨last, ran, Or.inr ⟨still, ?_⟩⟩
      rw [List.length_append]
      omega
    · have n := wrote.n
      cases fuel with
      | zero => exact absurd enough (Nat.not_lt_zero _)
      | succ fuel =>
        cases piece with
        | literal c plain =>
          have shape : printer.format = c :: formatOf pieces := format
          obtain ⟨next, stepped, format', zeros', style, args, output⟩ :=
            literal_next shape plain wrote (by omega) zeros
          have enough' : next.format.length < fuel := by
            rw [shape, List.length_cons] at enough
            rw [format']
            omega
          obtain ⟨last, ran, later⟩ := ih format' enough' output zeros'
          refine ⟨last, stepped.trans ran, ?_⟩
          rw [List.append_assoc, style, args] at later
          exact later
        | spec options letter conversion known valid =>
          have shape := format.trans (formatOf_spec options letter known valid pieces)
          rw [shape, List.length_cons, List.length_append, List.length_cons] at enough
          obtain ⟨next, stepped, format', outcome⟩ := spec_whole_or_past bounded known valid shape
            (show options.length < fuel by omega) wrote (by omega) zeros
          have enough' : next.format.length < fuel := by
            rw [format']
            omega
          rcases outcome with ⟨zeros', style, args, output⟩ | ⟨past', asked⟩
          · obtain ⟨last, ran, later⟩ := ih format' enough' output zeros'
            refine ⟨last, stepped.trans ran, ?_⟩
            rw [List.append_assoc, style, args] at later
            exact later
          · obtain ⟨last, ran, still⟩ := formatLoop_past pieces format' enough' past'
            refine ⟨last, stepped.trans ran, Or.inr ⟨still, ?_⟩⟩
            rw [List.length_append] at asked
            rw [render, List.length_append, List.length_append]
            omega

end Printer

/-! ### One format after another -/

theorem vsnprintf_whole_or_past {size : Nat} (bounded : size < 2 ^ 64) (str : Memory) (behind : Buffer)
    (string : Word → List Byte) (pieces : List Piece) (args : List Word) {fuel : Nat}
    (enough : (formatOf pieces).length < fuel) :
    ∃ last, vsnprintf fuel str size behind string (formatOf pieces) args = some last ∧
      (Wrote last (render string pieces ⟨0, 0⟩ args) ∨
        size ≤ 2 * last.n ∧ size ≤ 2 * (render string pieces ⟨0, 0⟩ args).length) := by
  have start : Wrote (printerStart str size behind (formatOf pieces) args) [] :=
    ⟨rfl, fun j inside => absurd inside (Nat.not_lt_zero j)⟩
  exact Printer.formatLoop_whole_or_past bounded pieces rfl enough start
    (printerStart_clear str size behind (formatOf pieces) args)

/-- The output of one run is that of two others, one after the other. -/
structure Appends (first second whole : Printer) : Prop where
  n : whole.n = first.n + second.n
  front : ∀ j < first.n, whole.str j = first.str j
  back : ∀ j < second.n, whole.str (first.n + j) = second.str j

private theorem appends_iff {first second whole : Printer} {text text' : List Byte}
    (wrote : Wrote first text) (wrote' : Wrote second text') :
    Appends first second whole ↔ Wrote whole (text ++ text') := by
  have n := wrote.n
  have n' := wrote'.n
  constructor
  · intro appends
    refine ⟨by rw [appends.n, List.length_append, n, n'], ?_⟩
    intro j inside
    rw [List.length_append] at inside
    rcases Nat.lt_or_ge j text.length with before | behind
    · rw [appends.front j (by omega), wrote.bytes j before, List.getD_append _ _ _ _ before]
    · have shifted := appends.back (j - text.length) (by omega)
      rw [n, Nat.add_sub_cancel' behind] at shifted
      rw [shifted, wrote'.bytes _ (by omega), List.getD_append_right _ _ _ _ behind]
  · intro output
    have total := output.n
    rw [List.length_append] at total
    refine ⟨by omega, ?_, ?_⟩
    · intro j inside
      rw [output.bytes j (by rw [List.length_append]; omega), wrote.bytes j (by omega),
        List.getD_append _ _ _ _ (by omega)]
    · intro j inside
      rw [output.bytes _ (by rw [List.length_append]; omega), wrote'.bytes j (by omega), n,
        List.getD_append_right _ _ _ _ (Nat.le_add_right _ _), Nat.add_sub_cancel_left]

/-- Where there is room for both outputs twice, the output of two formats together is that of one
after the other exactly when every field of the second is the same in the style the first leaves. -/
theorem vsnprintf_append_iff (first second : List Piece) (args args' : List Word)
    (counted : args.length = argCount first)
    (string : Word → List Byte) (size : Nat) (bounded : size < 2 ^ 63)
    (str str' str'' : Memory) (behind behind' behind'' : Buffer) :
    ∃ fuel one two whole,
      vsnprintf fuel str size behind string (formatOf first) args = some one ∧
      vsnprintf fuel str' size behind' string (formatOf second) args' = some two ∧
      vsnprintf fuel str'' size behind'' string (formatOf (first ++ second)) (args ++ args') =
        some whole ∧
      (2 * (one.n + two.n) < size →
        (Appends one two whole ↔ Unaffected string second (styleAfter first ⟨0, 0⟩) ⟨0, 0⟩ args')) := by
  have joined : formatOf (first ++ second) = formatOf first ++ formatOf second := List.flatMap_append
  have length : (formatOf (first ++ second)).length =
      (formatOf first).length + (formatOf second).length := by
    rw [joined, List.length_append]
  have bounded' : size < 2 ^ 64 := by omega
  let fuel := (formatOf (first ++ second)).length + 1
  obtain ⟨one, ranOne, outOne⟩ := vsnprintf_whole_or_past bounded' str behind string first args
    (show (formatOf first).length < fuel by omega)
  obtain ⟨two, ranTwo, outTwo⟩ := vsnprintf_whole_or_past bounded' str' behind' string second args'
    (show (formatOf second).length < fuel by omega)
  obtain ⟨whole, ranWhole, outWhole⟩ := vsnprintf_whole_or_past bounded' str'' behind'' string
    (first ++ second) (args ++ args') (Nat.lt_succ_self _)
  refine ⟨fuel, one, two, whole, ranOne, ranTwo, ranWhole, ?_⟩
  intro room
  have wroteOne := outOne.resolve_right fun past => by omega
  have wroteTwo := outTwo.resolve_right fun past => by omega
  rw [render_append string first second ⟨0, 0⟩ counted] at outWhole
  rw [← render_eq_iff string second (Style.above_fresh _), appends_iff wroteOne wroteTwo]
  have n := wroteOne.n
  have n' := wroteTwo.n
  constructor
  · intro output
    have total := output.n
    rw [List.length_append] at total
    have same := (outWhole.resolve_right fun past => by omega : Wrote _ _).unique output
    exact List.append_cancel_left same
  · intro same
    rw [same, List.length_append] at outWhole
    exact outWhole.resolve_right fun past => by omega

private theorem conversionOf_hex : conversionOf 0x78 = some .hex := by decide

private theorem isOption_of_mem_nil : ∀ c ∈ ([] : List Byte), isOption c = true := by
  intro c member
  cases member

def hexWithPrefix : Piece := .spec [0x23] 0x78 .hex conversionOf_hex (by decide)

def hexPiece : Piece := .spec [] 0x78 .hex conversionOf_hex isOption_of_mem_nil

def blankPiece : Piece := .literal 0x20 (by decide)

/-- A literal between the two numbers, `%#x ` and `%x`. -/
theorem vsnprintf_append_blank :
    ∃ fuel one two whole,
      vsnprintf fuel (fun _ => 0) 64 [] (fun _ => []) (formatOf [hexWithPrefix, blankPiece]) [1] =
        some one ∧
      vsnprintf fuel (fun _ => 0) 64 [] (fun _ => []) (formatOf [hexPiece]) [1] = some two ∧
      vsnprintf fuel (fun _ => 0) 64 [] (fun _ => [])
        (formatOf ([hexWithPrefix, blankPiece] ++ [hexPiece])) ([1] ++ [1]) = some whole ∧
      Appends one two whole := by
  have unaffected : Unaffected (fun _ => []) [hexPiece] (styleAfter [hexWithPrefix, blankPiece] ⟨0, 0⟩)
      ⟨0, 0⟩ [1] := ⟨⟨rfl, rfl⟩, trivial⟩
  obtain ⟨fuel, one, two, whole, ranOne, ranTwo, ranWhole, appends⟩ :=
    vsnprintf_append_iff [hexWithPrefix, blankPiece] [hexPiece] [1] [1] rfl (fun _ => []) 64 (by decide)
      (fun _ => 0) (fun _ => 0) (fun _ => 0) [] [] []
  have lengths : (vsnprintf 16 (fun _ => 0) 64 [] (fun _ => []) (formatOf [hexWithPrefix, blankPiece])
        [1]).map Printer.n = some 19 ∧
      (vsnprintf 16 (fun _ => 0) 64 [] (fun _ => []) (formatOf [hexPiece]) [1]).map Printer.n = some 1 := by
    decide +kernel
  have room : 2 * (one.n + two.n) < 64 := by
    rw [vsnprintf_n ranOne lengths.1, vsnprintf_n ranTwo lengths.2]
    decide
  exact ⟨fuel, one, two, whole, ranOne, ranTwo, ranWhole, (appends room).mpr unaffected⟩

/-- Without one, the second number gets the prefix and the width of the first. -/
theorem prefix_carried_over :
    (vsnprintf 16 (fun _ => 0) 64 [] (fun _ => []) (formatOf [hexWithPrefix]) [1]).map Printer.n =
        some 18 ∧
      (vsnprintf 16 (fun _ => 0) 64 [] (fun _ => []) (formatOf [hexPiece]) [1]).map Printer.n = some 1 ∧
      (vsnprintf 16 (fun _ => 0) 64 [] (fun _ => []) (formatOf ([hexWithPrefix] ++ [hexPiece]))
        ([1] ++ [1])).map Printer.n = some 36 ∧ 2 * (18 + 1) < 64 ∧ 36 ≠ 18 + 1 := by
  refine ⟨?_, ?_, ?_, by decide, by decide⟩
  · decide +kernel
  · decide +kernel
  · decide +kernel

end Osdev64
