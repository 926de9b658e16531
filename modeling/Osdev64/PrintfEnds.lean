/-
Which formats `vsnprintf` gets through.

The inner `switch` has no way out for a character it does not know: its default
case parses digits and jumps back, and without a digit it jumps back to the same
character for ever.  So every `%` needs, after its flags and digits, one of the
conversions of the `switch`.
-/

import Osdev64.Printf

namespace Osdev64

open Bytes CString Word64

/-- The characters after a `%` that may come before its conversion. -/
def isOption (c : Byte) : Bool := c = 0x23 || c = 0x2B || isdigit c

/-- Every `%` up to the end of the format is followed by options and a conversion; `inside`
says that a `%` still waits for its conversion. -/
def complete : Bool → List Byte → Bool
  | false, [] => true
  | true, [] => false
  | false, c :: rest =>
    if c = 0 then true
    else if c = 0x25 then complete true rest
    else complete false rest
  | true, c :: rest =>
    if (conversionOf c).isSome then complete false rest
    else if isOption c then complete true rest
    else false

/-- `vsnprintf` reaches its end. -/
def Ends (str : Memory) (size : Nat) (behind : Buffer) (string : Word → List Byte)
    (format : List Byte) (args : List Word) : Prop :=
  ∃ fuel, (vsnprintf fuel str size behind string format args).isSome

namespace Printer

variable {size fuel : Nat} {string : Word → List Byte} {printer converted : Printer}

/-! ### What one conversion does to the position -/

theorem storeLoop_eq (size : Nat) (chars : Nat → Byte) (left i : Nat) (printer : Printer) :
    ∃ str stores n, storeLoop size chars left i printer =
      { printer with str := str, stores := stores, n := n } := by
  induction left generalizing i printer with
  | zero => exact ⟨printer.str, printer.stores, printer.n, rfl⟩
  | succ left ih =>
    unfold storeLoop
    split_ifs
    · exact ih (i + 1) (printer.putc (chars i))
    · exact ⟨printer.str, printer.stores, printer.n, rfl⟩

theorem padOut_eq (size : Nat) (printer : Printer) :
    ∃ str stores n, printer.padOut size = { printer with str := str, stores := stores, n := n } := by
  unfold padOut
  by_cases padded : printer.has padFlag = true ∧ strlen printer.buf < printer.pad.toNat
  · rw [if_pos padded]
    exact storeLoop_eq _ _ _ _ _
  · rw [if_neg padded]
    exact ⟨printer.str, printer.stores, printer.n, rfl⟩

/-- Both sides of the test go up, so only every second place of the room left is filled. -/
theorem storeLoop_n (chars : Nat → Byte) (left i : Nat) (printer : Printer) :
    (storeLoop size chars left i printer).n =
      printer.n + min left ((size - (i + printer.n) + 1) / 2) := by
  induction left generalizing i printer with
  | zero => simp [storeLoop]
  | succ left ih =>
    unfold storeLoop
    by_cases room : i + printer.n < size
    · rw [if_pos room, ih]
      change printer.n + 1 + min left ((size - (i + 1 + (printer.n + 1)) + 1) / 2) = _
      omega
    · rw [if_neg room]
      omega

theorem padOut_room (printer : Printer) : (size - printer.n) / 2 ≤ size - (printer.padOut size).n := by
  unfold padOut
  by_cases padded : printer.has padFlag ∧ strlen printer.buf < printer.pad.toNat
  · rw [if_pos padded, storeLoop_n]
    omega
  · rw [if_neg padded]
    omega

theorem emit_format (printer : Printer) : (printer.emit size).format = printer.format := by
  obtain ⟨_, _, _, padded⟩ := padOut_eq size printer
  obtain ⟨_, _, _, copied⟩ := storeLoop_eq size (peek (printer.padOut size).buf)
    (strlen (printer.padOut size).buf) 0 (printer.padOut size)
  have afterCopy := congrArg Printer.format copied
  have afterPad := congrArg Printer.format padded
  exact afterCopy.trans afterPad

theorem emit_room (printer : Printer) : (size - printer.n) / 2 / 2 ≤ size - (printer.emit size).n := by
  have padded : (size - printer.n) / 2 ≤ size - (printer.padOut size).n := padOut_room printer
  unfold emit copyOut
  change _ ≤ size - (storeLoop size _ _ 0 (printer.padOut size)).n
  rw [storeLoop_n]
  omega

theorem convert_position (size : Nat) (string : Word → List Byte) (printer : Printer)
    (conversion : Conversion) :
    (printer.convert size string conversion).format = printer.format ∧
      (printer.convert size string conversion).n ≤ printer.n + 2 := by
  have here : printer.n ≤ printer.n + 2 := Nat.le_add_right _ _
  have next : printer.n + 1 ≤ printer.n + 2 := Nat.le_succ _
  cases conversion with
  | hex =>
    simp only [convert]
    split_ifs
    · exact ⟨rfl, Nat.le_refl _⟩
    · exact ⟨rfl, here⟩
  | signed =>
    simp only [convert]
    split_ifs
    · exact ⟨rfl, next⟩
    · exact ⟨rfl, next⟩
    · exact ⟨rfl, here⟩
  | integer =>
    simp only [convert]
    split_ifs
    · exact ⟨rfl, next⟩
    · exact ⟨rfl, here⟩
  | octal =>
    simp only [convert]
    split_ifs
    · exact ⟨rfl, next⟩
    · exact ⟨rfl, here⟩
  | percent => exact ⟨rfl, here⟩
  | unsigned => exact ⟨rfl, here⟩
  | long => exact ⟨rfl, here⟩
  | string => exact ⟨rfl, here⟩
  | char => exact ⟨rfl, here⟩
  | wide => exact ⟨rfl, here⟩

theorem padLoop_eq (printer : Printer) (format : List Byte) :
    (padLoop printer format).format = format.dropWhile isdigit ∧
      (padLoop printer format).n = printer.n := by
  induction format generalizing printer with
  | nil => exact ⟨rfl, rfl⟩
  | cons c rest ih =>
    unfold padLoop
    by_cases digit : isdigit c
    · rw [if_pos digit, List.dropWhile_cons_of_pos digit]
      exact ih _
    · rw [if_neg digit, List.dropWhile_cons_of_neg digit]
      exact ⟨rfl, rfl⟩

/-! ### Complete specifications -/

theorem ne_of_isdigit {c : Byte} (digit : isdigit c = true) (other : Byte)
    (letter : isdigit other = false) : c ≠ other := by
  rintro rfl
  rw [digit] at letter
  exact absurd letter (by decide)

theorem flag_of_option {c : Byte} (option : isOption c = true) (noDigit : ¬isdigit c = true) :
    c = 0x23 ∨ c = 0x2B := by
  unfold isOption at option
  simp only [Bool.or_eq_true, decide_eq_true_eq] at option
  exact option.resolve_right noDigit

theorem conversionOf_digit {c : Byte} (digit : isdigit c = true) : conversionOf c = none := by
  have other := ne_of_isdigit digit
  unfold conversionOf
  simp only [other 0x25 (by decide), other 0x58 (by decide), other 0x78 (by decide),
    other 0x64 (by decide), other 0x69 (by decide), other 0x75 (by decide), other 0x6C (by decide),
    other 0x6F (by decide), other 0x73 (by decide), other 0x63 (by decide), other 0x77 (by decide),
    or_self, if_false]

theorem complete_dropWhile (format : List Byte) :
    complete true (format.dropWhile isdigit) = complete true format := by
  induction format with
  | nil => rfl
  | cons c rest ih =>
    by_cases digit : isdigit c
    · have option : isOption c = true := by
        unfold isOption
        rw [digit, Bool.or_true]
      rw [List.dropWhile_cons_of_pos digit, ih, complete, conversionOf_digit digit, option]
      rfl
    · rw [List.dropWhile_cons_of_neg digit]

theorem complete_option {c : Byte} (unknown : conversionOf c = none) (rest : List Byte) :
    complete true (c :: rest) = (isOption c && complete true rest) := by
  rw [complete, unknown]
  cases isOption c <;> rfl

theorem jump_eq (printer : Printer) :
    printer.jump.n = printer.n ∧ printer.jump.format =
      if printer.current = 0x23 ∨ printer.current = 0x2B then printer.format.tail
      else printer.format.dropWhile isdigit := by
  unfold jump
  by_cases alternate : printer.current = 0x23
  · rw [if_pos alternate, if_pos (Or.inl alternate)]
    exact ⟨rfl, rfl⟩
  · by_cases sign : printer.current = 0x2B
    · rw [if_neg alternate, if_pos sign, if_pos (Or.inr sign)]
      exact ⟨rfl, rfl⟩
    · rw [if_neg alternate, if_neg sign, if_neg (by tauto)]
      exact (padLoop_eq _ _).symm

theorem current_eq {c : Byte} {rest : List Byte} (shape : printer.format = c :: rest) :
    printer.current = c := by
  rw [current, shape]
  rfl

theorem advance_format {c : Byte} {rest : List Byte} (shape : printer.format = c :: rest) :
    printer.advance.format = rest := by
  rw [advance, shape]
  rfl

theorem complete_jump (unknown : conversionOf printer.current = none) :
    complete true printer.jump.format = complete true printer.format := by
  rw [(jump_eq printer).2]
  by_cases flag : printer.current = 0x23 ∨ printer.current = 0x2B
  · rw [if_pos flag]
    cases found : printer.format with
    | nil => rfl
    | cons c rest =>
      have head := current_eq found
      rw [head] at unknown flag
      have option : isOption c = true := by
        rcases flag with rfl | rfl <;> rfl
      rw [complete_option unknown, option]
      rfl
  · rw [if_neg flag, complete_dropWhile]

theorem format_of_complete (whole : complete true printer.format = true) :
    ∃ rest, printer.format = printer.current :: rest := by
  cases found : printer.format with
  | nil =>
    rw [found] at whole
    exact absurd whole (by decide)
  | cons c rest => exact ⟨rest, by rw [current_eq found]⟩

theorem length_jump_le (printer : Printer) : printer.jump.format.length ≤ printer.format.length := by
  rw [(jump_eq printer).2]
  split_ifs
  · rw [List.length_tail]
    omega
  · exact (List.dropWhile_suffix _).length_le

theorem length_jump_lt (unknown : conversionOf printer.current = none)
    (whole : complete true printer.format = true) :
    printer.jump.format.length < printer.format.length := by
  obtain ⟨rest, found⟩ := format_of_complete whole
  rw [found, complete_option unknown, Bool.and_eq_true] at whole
  rw [(jump_eq printer).2, found]
  by_cases flag : printer.current = 0x23 ∨ printer.current = 0x2B
  · rw [if_pos flag]
    exact Nat.lt_succ_self _
  · have digit : isdigit printer.current = true := by
      by_contra noDigit
      exact flag (flag_of_option whole.1 noDigit)
    rw [if_neg flag, List.dropWhile_cons_of_pos digit]
    exact Nat.lt_succ_of_le (List.dropWhile_suffix _).length_le

theorem complete_conversion {conversion : Conversion} {c : Byte}
    (known : conversionOf c = some conversion) (rest : List Byte) :
    complete true (c :: rest) = complete false rest := by
  rw [complete, known]
  rfl

theorem nextFormat_known {conversion : Conversion}
    (known : conversionOf printer.current = some conversion) :
    nextFormat size string (fuel + 1) printer = some (printer.convert size string conversion) := by
  rw [nextFormat, known]

theorem nextFormat_unknown (unknown : conversionOf printer.current = none) :
    nextFormat size string (fuel + 1) printer = nextFormat size string fuel printer.jump := by
  rw [nextFormat, unknown]

theorem nextFormat_of_complete (enough : printer.format.length < fuel)
    (whole : complete true printer.format = true) :
    ∃ converted, nextFormat size string fuel printer = some converted ∧
      complete false converted.format.tail = true ∧
      converted.format.length ≤ printer.format.length := by
  induction fuel generalizing printer with
  | zero => exact absurd enough (Nat.not_lt_zero _)
  | succ fuel ih =>
    cases known : conversionOf printer.current with
    | some conversion =>
      have position := (convert_position size string printer conversion).1
      rw [nextFormat_known known]
      refine ⟨_, rfl, ?_, by rw [position]⟩
      rw [position]
      obtain ⟨rest, found⟩ := format_of_complete whole
      rw [found, complete_conversion known] at whole
      rw [found]
      exact whole
    | none =>
      have shorter := length_jump_lt known whole
      rw [nextFormat_unknown known]
      obtain ⟨converted, found, rest, length⟩ :=
        ih (by omega) ((complete_jump known).trans whole)
      exact ⟨converted, found, rest, by omega⟩

theorem formatLoop_ended (ended : printer.current = 0 ∨ size ≤ printer.n) :
    formatLoop size string (fuel + 1) printer = some printer := by
  rw [formatLoop, if_pos ended]

theorem formatLoop_literal {c : Byte} {rest : List Byte} (shape : printer.format = c :: rest)
    (nonzero : c ≠ 0) (plain : c ≠ 0x25) (room : printer.n < size) :
    formatLoop size string (fuel + 1) printer =
      formatLoop size string fuel { (printer.putc c).advance with flags := 0 } := by
  rw [formatLoop, current_eq shape, if_neg (not_or.mpr ⟨nonzero, Nat.not_le_of_lt room⟩), if_neg plain]

theorem formatLoop_percent {rest : List Byte} (shape : printer.format = 0x25 :: rest)
    (room : printer.n < size) :
    formatLoop size string (fuel + 1) printer =
      (nextFormat size string fuel printer.advance).bind fun converted =>
        formatLoop size string fuel (converted.emit size).advance := by
  rw [formatLoop, current_eq shape, if_neg (not_or.mpr ⟨by decide, Nat.not_le_of_lt room⟩), if_pos rfl]
  rfl

theorem formatLoop_of_complete (enough : printer.format.length < fuel)
    (whole : complete false printer.format = true) :
    (formatLoop size string fuel printer).isSome := by
  induction fuel generalizing printer with
  | zero => exact absurd enough (Nat.not_lt_zero _)
  | succ fuel ih =>
    by_cases ended : printer.current = 0 ∨ size ≤ printer.n
    · rw [formatLoop_ended ended]
      rfl
    · cases shape : printer.format with
      | nil => exact absurd (Or.inl (by rw [current, shape]; rfl)) ended
      | cons c rest =>
        have tail := advance_format shape
        have nonzero : c ≠ 0 := fun zero => ended (Or.inl ((current_eq shape).trans zero))
        have room : printer.n < size := Nat.lt_of_not_le fun full => ended (Or.inr full)
        rw [shape, List.length_cons] at enough
        rw [shape, complete, if_neg nonzero] at whole
        by_cases percent : c = 0x25
        · subst percent
          rw [if_pos rfl, ← tail] at whole
          have short : printer.advance.format.length < fuel := by
            rw [tail]
            omega
          obtain ⟨converted, spec, after, length⟩ := nextFormat_of_complete short whole
          rw [formatLoop_percent shape room, spec, Option.bind_some]
          apply ih
          · change (converted.emit size).format.tail.length < fuel
            rw [emit_format, List.length_tail]
            omega
          · change complete false (converted.emit size).format.tail = true
            rw [emit_format]
            exact after
        · rw [if_neg percent] at whole
          rw [formatLoop_literal shape nonzero percent room]
          apply ih
          · change printer.advance.format.length < fuel
            rw [tail]
            omega
          · change complete false printer.advance.format = true
            rw [tail]
            exact whole

/-! ### Incomplete formats -/

/-- A specification that is not complete has no end, or it leads to a conversion before one
that has none. -/
theorem nextFormat_of_incomplete (open' : complete true printer.format = false) {converted : Printer}
    (found : nextFormat size string fuel printer = some converted) :
    complete false converted.format.tail = false ∧
      converted.format.length ≤ printer.format.length ∧ converted.n ≤ printer.n + 2 := by
  induction fuel generalizing printer with
  | zero => exact absurd found (by simp [nextFormat])
  | succ fuel ih =>
    cases known : conversionOf printer.current with
    | some conversion =>
      rw [nextFormat_known known] at found
      cases found
      obtain ⟨format, position⟩ := convert_position size string printer conversion
      rw [format]
      refine ⟨?_, Nat.le_refl _, position⟩
      cases shape : printer.format with
      | nil =>
        -- the end of the format is no conversion
        have none' : conversionOf printer.current = none := by rw [current, shape]; rfl
        rw [none'] at known
        exact absurd known (by simp)
      | cons c rest =>
        have head := current_eq shape
        rw [head] at known
        rw [shape, complete_conversion known] at open'
        exact open'
    | none =>
      rw [nextFormat_unknown known] at found
      obtain ⟨rest, length, position⟩ := ih ((complete_jump known).trans open') found
      have shorter := length_jump_le printer
      rw [(jump_eq printer).1] at position
      exact ⟨rest, by omega, position⟩

/-- Room for a format of this length: a conversion leaves at least a quarter of it. -/
def roomFor : Nat → Nat
  | 0 => 1
  | length + 1 => 4 * roomFor length + 8

theorem roomFor_mono {less more : Nat} (order : less ≤ more) : roomFor less ≤ roomFor more := by
  induction order with
  | refl => exact Nat.le_refl _
  | @step more _ ih =>
    have next : roomFor more.succ = 4 * roomFor more + 8 := rfl
    omega

theorem roomFor_pos (length : Nat) : 0 < roomFor length := by
  cases length with
  | zero => exact Nat.one_pos
  | succ length =>
    unfold roomFor
    omega

theorem formatLoop_of_incomplete (open' : complete false printer.format = false)
    (room : roomFor printer.format.length ≤ size - printer.n) :
    formatLoop size string fuel printer = none := by
  induction fuel generalizing printer with
  | zero => rfl
  | succ fuel ih =>
    cases shape : printer.format with
    | nil =>
      rw [shape] at open'
      exact absurd open' (by decide)
    | cons c rest =>
      have tail := advance_format shape
      rw [shape, complete] at open'
      rw [shape, List.length_cons, roomFor] at room
      have before : printer.n < size := by omega
      have nonzero : c ≠ 0 := by
        intro zero
        rw [if_pos zero] at open'
        exact absurd open' (by decide)
      rw [if_neg nonzero] at open'
      by_cases percent : c = 0x25
      · subst percent
        rw [if_pos rfl] at open'
        rw [formatLoop_percent shape before]
        cases spec : nextFormat size string fuel printer.advance with
        | none => rfl
        | some converted =>
          obtain ⟨after, length, position⟩ :=
            nextFormat_of_incomplete (by rw [tail]; exact open') spec
          rw [tail] at length
          rw [Option.bind_some]
          apply ih
          · change complete false (converted.emit size).format.tail = false
            rw [emit_format]
            exact after
          · have left : (size - converted.n) / 2 / 2 ≤ size - (converted.emit size).n := emit_room converted
            have moved : converted.n ≤ printer.n + 2 := position
            have order : roomFor (converted.format.length - 1) ≤ roomFor rest.length :=
              roomFor_mono (by omega)
            change roomFor (converted.emit size).format.tail.length ≤ size - (converted.emit size).n
            rw [emit_format, List.length_tail]
            omega
      · rw [if_neg percent] at open'
        rw [formatLoop_literal shape nonzero percent before]
        apply ih
        · change complete false printer.advance.format = false
          rw [tail]
          exact open'
        · change roomFor printer.advance.format.length ≤ size - (printer.n + 1)
          rw [tail]
          omega

end Printer

/-- `vsnprintf` ends for all sizes and arguments exactly on the complete formats. -/
theorem vsnprintf_ends_iff (format : List Byte) :
    (∀ (str : Memory) (size : Nat) (behind : Buffer) (string : Word → List Byte) (args : List Word),
      1 ≤ size → Ends str size behind string format args) ↔ complete false format = true := by
  constructor
  · intro ends
    by_contra open'
    rw [Bool.not_eq_true] at open'
    have room := Printer.roomFor_pos format.length
    obtain ⟨fuel, ended⟩ := ends (fun _ => 0) (Printer.roomFor format.length) [] (fun _ => []) [] room
    unfold vsnprintf at ended
    rw [Printer.formatLoop_of_incomplete open' (Nat.le_refl _)] at ended
    exact absurd ended (by decide)
  · intro whole str size behind string args _
    exact ⟨format.length + 1, Printer.formatLoop_of_complete (Nat.lt_succ_self _) whole⟩

/-- A `%` at the end of the format. -/
theorem percent_at_end_loops : ¬Ends (fun _ => 0) 32 [] (fun _ => []) [0x25] [] := by
  intro ended
  obtain ⟨fuel, reached⟩ := ended
  unfold vsnprintf at reached
  rw [Printer.formatLoop_of_incomplete (by decide) (by decide)] at reached
  exact absurd reached (by decide)

end Osdev64
