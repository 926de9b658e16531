/-
The entry points `printf`, `pprintf` and `kernel_log`.

Each clears the same 256 bytes, has `vsnprintf` write to them and hands them to a
device that prints up to the first zero.  The stores stay inside the buffer.  The
scratch buffer of `vsnprintf` is left without a zero by one thing only, a string
of 256 characters or more when nothing has been stored yet, and the output by 256
characters.  Both are read off the pieces of the format and the arguments.
-/

import Osdev64.PrintfCompose

namespace Osdev64

open Bytes CString Word64

/-! ### The entry points -/

def logSize : Nat := 256

/-- `memset(buf, 0, 256)`. -/
def clearLog (buf : Memory) : Memory := fun j => if j < logSize then 0 else buf j

inductive Device where
  | uartWrite
  | vgaPuts
  | vgaPretty (color : BitVec 32)

/-- A call: what it returns, the state `vsnprintf` ended in, and the devices that `buf` is handed
to as it is then. -/
structure Logged where
  r : BitVec 32
  printer : Printer
  devices : List Device

/-- The common part; `behind` lies behind the scratch buffer. -/
def logTo (devices : List Device) (fuel : Nat) (buf : Memory) (behind : Buffer)
    (string : Word → List Byte) (fmt : List Byte) (args : List Word) : Option Logged := do
  let printer ← vsnprintf fuel (clearLog buf) logSize behind string fmt args
  pure { r := BitVec.ofNat 32 printer.n, printer := printer, devices := devices }

def printf := logTo [.uartWrite, .vgaPuts]

def pprintf (color : BitVec 32) := logTo [.vgaPretty color, .uartWrite]

def kernelLog := logTo [.uartWrite]

/-- Every index is inside its buffer, and the output is a string that ends where the call says. -/
structure StaysInside (logged : Logged) : Prop where
  output : ∀ offset ∈ logged.printer.stores, offset < logSize
  scratch : logged.printer.reach ≤ logSize
  terminated : ∃ j < logSize, logged.printer.str j = 0
  returned : (∀ j < logged.r.toNat, logged.printer.str j ≠ 0) →
    logged.r.toNat < logSize ∧ logged.printer.str logged.r.toNat = 0

namespace Printer

variable {size fuel : Nat} {string : Word → List Byte} {printer : Printer}

/-! ### The output -/

/-- The characters stored so far are in front, zeros behind them. -/
structure Filled (size : Nat) (printer : Printer) : Prop where
  n : printer.n ≤ size
  stores : ∀ offset ∈ printer.stores, offset < size
  nonzero : ∀ j < printer.n, printer.str j ≠ 0
  rest : ∀ j, printer.n ≤ j → j < size → printer.str j = 0

namespace Filled

theorem same {after : Printer} (filled : Filled size printer) (same : SameOutput printer after) :
    Filled size after := by
  refine ⟨?_, ?_, ?_, ?_⟩
  · rw [same.n]
    exact filled.n
  · rw [same.stores]
    exact filled.stores
  · rw [same.n, same.str]
    exact filled.nonzero
  · rw [same.n, same.str]
    exact filled.rest

theorem putc (filled : Filled size printer) (room : printer.n < size) {c : Byte} (nonzero : c ≠ 0) :
    Filled size (printer.putc c) := by
  refine ⟨room, ?_, ?_, ?_⟩
  · intro offset member
    rcases List.mem_cons.mp member with rfl | earlier
    · exact room
    · exact filled.stores offset earlier
  · intro j inside
    change Function.update printer.str printer.n c j ≠ 0
    by_cases here : j = printer.n
    · rw [here, Function.update_self]
      exact nonzero
    · rw [Function.update_of_ne here]
      exact filled.nonzero j (Nat.lt_of_le_of_ne (Nat.le_of_lt_succ inside) here)
  · intro j behind inside
    have different : j ≠ printer.n := Nat.ne_of_gt behind
    change Function.update printer.str printer.n c j = 0
    rw [Function.update_of_ne different]
    exact filled.rest j (Nat.le_of_lt behind) inside

end Filled

theorem formatLoop_filled {last : Printer} (ran : formatLoop size string fuel printer = some last)
    (filled : Filled size printer) : Filled size last := by
  refine formatLoop_output (P := Filled size) ?_ ?_ ran filled
  · intro before after filled same
    exact filled.same same
  · intro before c filled room nonzero
    exact filled.putc room nonzero

/-! ### The scratch buffer -/

theorem storeLoop_reach (chars : Nat → Byte) (left i : Nat) (printer : Printer) :
    (storeLoop size chars left i printer).reach = printer.reach := by
  obtain ⟨str, stores, n, same⟩ := storeLoop_eq size chars left i printer
  rw [same]

theorem emit_reach (printer : Printer) :
    (printer.emit size).reach = max printer.reach (strlen printer.buf + 1) := by
  obtain ⟨str, stores, n, same⟩ := padOut_eq size printer
  have reach : (printer.padOut size).reach = printer.reach := by rw [same]
  have buffer : (printer.padOut size).buf = printer.buf := by rw [same]
  change max (storeLoop size _ _ 0 (printer.padOut size)).reach (strlen (printer.padOut size).buf + 1) = _
  rw [storeLoop_reach, reach, buffer]

private theorem number_reach (printer : Printer) (value : Word) {base : Nat} (len : Nat)
    (positive : 0 < base) (most : base ≤ 36) :
    (printer.number value base len).reach =
      max printer.reach ((numeral value base len).length + 1) := by
  unfold number
  rw [← (ulltostr_eq value printer.buf len positive most).1]
  rfl

/-- The bytes of the scratch buffer that a conversion writes. -/
def used (string : Word → List Byte) (argument : Word) (room : Nat) : Conversion → Nat
  | .percent => 2
  | .char => 2
  | .wide => 1
  | .string => room
  | conversion => (conversion.body string argument).length + 1

theorem convert_reach (size : Nat) (string : Word → List Byte) (printer : Printer)
    (conversion : Conversion) :
    (printer.convert size string conversion).reach =
      max printer.reach (used string printer.argument (size - printer.n) conversion) := by
  obtain ⟨sign, signs⟩ := convert_signs size string printer conversion
  obtain ⟨str, stores, n, same⟩ := foldl_putc_eq sign (printer.plain size string conversion)
  rw [signs.stored, same]
  cases conversion with
  | hex => exact number_reach _ _ _ (by decide) (by decide)
  | signed => exact number_reach _ _ _ (by decide) (by decide)
  | integer => exact number_reach _ _ _ (by decide) (by decide)
  | unsigned => exact number_reach _ _ _ (by decide) (by decide)
  | long => exact number_reach _ _ _ (by decide) (by decide)
  | octal => exact number_reach _ _ _ (by decide) (by decide)
  | percent => rfl
  | string => rfl
  | char => rfl
  | wide => rfl

private theorem numeral_lt (argument : Word) (large : 32 ≤ size) (base : Nat) {len : Nat}
    (positive : 0 < len) (few : len ≤ 20) : (numeral argument base len).length < size := by
  have most := length_numeral_le argument base positive
  omega

theorem used_le (string : Word → List Byte) (argument : Word) {room : Nat} (conversion : Conversion)
    (large : 32 ≤ size) (inside : room ≤ size) : used string argument room conversion ≤ size := by
  have digits := numeral_lt argument large
  cases conversion with
  | hex => exact digits 16 (by decide) (by decide)
  | signed => exact digits 10 (by decide) (by decide)
  | integer => exact digits 10 (by decide) (by decide)
  | unsigned => exact digits 10 (by decide) (by decide)
  | long => exact digits 16 (by decide) (by decide)
  | octal => exact digits 8 (by decide) (by decide)
  | percent => exact Nat.le_trans (show 2 ≤ 32 by decide) large
  | char => exact Nat.le_trans (show 2 ≤ 32 by decide) large
  | wide => exact Nat.le_trans (show 1 ≤ 32 by decide) large
  | string => exact inside

theorem kept_lt (conversion : Conversion) (large : 32 ≤ size) {argument : Word} {n : Nat}
    (short : conversion = .string → 0 < n ∨ (content (string argument)).length < size) :
    (conversion.kept string argument (size - n)).length < size := by
  have digits := numeral_lt argument large
  cases conversion with
  | hex => exact digits 16 (by decide) (by decide)
  | signed => exact digits 10 (by decide) (by decide)
  | integer => exact digits 10 (by decide) (by decide)
  | unsigned => exact digits 10 (by decide) (by decide)
  | long => exact digits 16 (by decide) (by decide)
  | octal => exact digits 8 (by decide) (by decide)
  | percent => exact Nat.lt_of_lt_of_le (show 1 < 32 by decide) large
  | wide => exact Nat.lt_of_lt_of_le (show 1 < 32 by decide) large
  | char =>
    change (if argument.setWidth 8 = (0 : Byte) then [] else [argument.setWidth 8]).length < size
    split
    · exact Nat.lt_of_lt_of_le (by decide) large
    · exact Nat.lt_of_lt_of_le (show 1 < 32 by decide) large
  | string =>
    change ((content (string argument)).take (size - n)).length < size
    rw [List.length_take]
    have cut := short rfl
    omega

private theorem wrote_self (printer : Printer) :
    Wrote printer ((List.range printer.n).map printer.str) := by
  refine ⟨by simp, ?_⟩
  intro j inside
  rw [List.getD_eq_getElem _ _ inside, List.getElem_map, List.getElem_range]

theorem conversion_reach (large : 32 ≤ size) (bounded : size < 2 ^ 64)
    (zeros : ∀ i < size, peek printer.buf i = 0) (reach : printer.reach ≤ size)
    (here : printer.n < size) (conversion : Conversion)
    (short : conversion = .string →
      0 < printer.n ∨ (content (string printer.argument)).length < size) :
    ((printer.convert size string conversion).emit size).reach ≤ size := by
  have converted := Printer.converted zeros here bounded conversion (fun _ => by omega) short
  have used := used_le string printer.argument conversion large (Nat.sub_le size printer.n)
  have kept := kept_lt conversion large short
  rw [emit_reach, convert_reach, converted.holds.strlen_eq]
  omega

theorem conversion_overfills (bounded : size < 2 ^ 64) (positive : 0 < size) (start : printer.n = 0)
    (long : size ≤ (content (string printer.argument)).length) :
    size < ((printer.convert size string .string).emit size).reach := by
  have full : size ≤ strlen (printer.convert size string .string).buf :=
    convert_long start bounded positive (Or.inr ⟨rfl, long⟩)
  rw [emit_reach]
  omega

theorem conversion_overfills_by_one (bounded : size < 2 ^ 64) (positive : 0 < size) (start : printer.n = 0)
    (reach : printer.reach = size) (behind : peek printer.buf size = 0)
    (long : size ≤ (content (string printer.argument)).length) :
    ((printer.convert size string .string).emit size).reach = size + 1 := by
  have full : size ≤ strlen (printer.convert size string .string).buf :=
    convert_long start bounded positive (Or.inr ⟨rfl, long⟩)
  have room : (BitVec.ofNat 64 (size - printer.n)).toNat = size := by
    rw [BitVec.toNat_ofNat, start, Nat.sub_zero, Nat.mod_eq_of_lt bounded]
  have zero : peek (printer.convert size string .string).buf size = 0 := by
    change peek (strncpy printer.buf (string printer.argument) (BitVec.ofNat 64 (size - printer.n))) size = 0
    rw [peek_strncpy _ _ (by omega), room, if_neg (Nat.lt_irrefl size)]
    exact behind
  have short : strlen (printer.convert size string .string).buf ≤ size := by
    by_contra long
    exact CString.peek_ne_zero (Nat.lt_of_not_le long) zero
  rw [emit_reach, convert_reach, reach]
  change max (max size (size - printer.n)) _ = _
  omega

theorem formatLoop_le_reach {last : Printer} (ran : formatLoop size string fuel printer = some last) :
    printer.reach ≤ last.reach := by
  refine formatLoop_invariant (P := fun later => printer.reach ≤ later.reach) ?_ ?_ ran (Nat.le_refl _)
  · intro before higher _ _
    exact higher
  · intro before style rest conversion higher _
    change printer.reach ≤ (((before.at' style rest).convert size string conversion).emit size).reach
    rw [emit_reach, convert_reach]
    change printer.reach ≤ max (max before.reach _) _
    omega

/-! ### Lines that fit -/

/-- Where a field that begins at `n` ends.  Its sign is stored if room is seen for it, and of padding
and body as much as half of the room that is left, rounded up. -/
def fieldEnd (size n : Nat) (string : Word → List Byte) (style : Style) (options : List Byte)
    (conversion : Conversion) (argument : Word) : Nat :=
  let kept := (conversion.kept string argument (size - n)).length
  let signed := n + if n + conversion.signRoom < size then
    (style.sign options conversion argument).length else 0
  let padded := signed + min (halfRoom size signed) ((style.after options conversion).padding kept).length
  padded + min (halfRoom size padded) kept

/-- The line the pieces ask for ends before the size, `n` being the position of the first of them, and
no string as long as the buffer is asked for while nothing has been stored. -/
def LineFits (size : Nat) (string : Word → List Byte) : List Piece → Style → List Word → Nat → Prop
  | [], _, _, n => n < size
  | .literal _ _ :: rest, style, args, n =>
    LineFits size string rest { style with flags := 0 } args (n + 1)
  | .spec options _ conversion _ _ :: rest, style, args, n =>
    (conversion = .string → 0 < n ∨ (content (string (args.headD 0))).length < size) ∧
      LineFits size string rest (style.after options conversion) (conversion.argsAfter args)
        (fieldEnd size n string style options conversion (args.headD 0))

theorem length_stored (size : Nat) (string : Word → List Byte) (style : Style) (options : List Byte)
    (conversion : Conversion) (argument : Word) (full : List Byte) :
    (stored size full.length string style options conversion argument full).length =
      fieldEnd size full.length string style options conversion argument := by
  simp only [stored, fieldEnd, List.length_append, List.length_take, apply_ite List.length,
    List.length_nil]

theorem le_fieldEnd (size n : Nat) (string : Word → List Byte) (style : Style) (options : List Byte)
    (conversion : Conversion) (argument : Word) :
    n ≤ fieldEnd size n string style options conversion argument :=
  ((Nat.le_add_right _ _).trans (Nat.le_add_right _ _)).trans (Nat.le_add_right _ _)

theorem LineFits.before {pieces : List Piece} {style : Style} {args : List Word} {n : Nat}
    (fits : LineFits size string pieces style args n) : n < size := by
  induction pieces generalizing style args n with
  | nil => exact fits
  | cons piece pieces ih =>
    cases piece with
    | literal c plain => exact Nat.lt_of_succ_lt (ih fits)
    | spec options letter conversion known valid =>
      have later := ih fits.2
      exact Nat.lt_of_le_of_lt (le_fieldEnd size n string style options conversion _) later

private theorem spec_inside (large : 32 ≤ size) (bounded : size < 2 ^ 64) (options : List Byte)
    (letter : Byte) {conversion : Conversion} (rest : List Byte) (here : printer.n < size)
    (zeros : ∀ i < size, peek printer.buf i = 0) (reach : printer.reach ≤ size)
    (short : conversion = .string →
      0 < printer.n ∨ (content (string (printer.args.headD 0))).length < size) :
    let next := (((printer.at' (readOptions ⟨printer.pad, printer.flags⟩ false options)
      (letter :: rest)).convert size string conversion).emit size).advance
    next.format = rest ∧ (∀ i < size, peek next.buf i = 0) ∧ next.reach ≤ size ∧
      (⟨next.pad, next.flags⟩ : Style) = Style.after ⟨printer.pad, printer.flags⟩ options conversion ∧
      next.args = conversion.argsAfter printer.args ∧
      next.n = fieldEnd size printer.n string ⟨printer.pad, printer.flags⟩ options conversion
        (printer.args.headD 0) := by
  have wrote := wrote_self printer
  have length := wrote.n
  obtain ⟨format, zeros', style, args, output⟩ := spec_after bounded options letter rest wrote
    (length.symm.trans_lt here) zeros (fun _ => by omega) (by rw [← length]; exact short)
  refine ⟨format, zeros', ?_, style, args, ?_⟩
  · let spec := printer.at' (readOptions ⟨printer.pad, printer.flags⟩ false options) (letter :: rest)
    have clear : ∀ i < size, peek spec.buf i = 0 := zeros
    have scratch : ((spec.convert size string conversion).emit size).reach ≤ size :=
      conversion_reach large bounded clear reach here conversion short
    exact scratch
  · rw [output.n, length_stored, ← length]

theorem formatLoop_of_lineFits (large : 32 ≤ size) (bounded : size < 2 ^ 64) (pieces : List Piece)
    {tail : List Byte} (format : printer.format = formatOf pieces ++ tail) (ended : tail.headD 0 = 0)
    (enough : printer.format.length < fuel) (zeros : ∀ i < size, peek printer.buf i = 0)
    (reach : printer.reach ≤ size)
    (fits : LineFits size string pieces ⟨printer.pad, printer.flags⟩ printer.args printer.n) :
    ∃ last, formatLoop size string fuel printer = some last ∧ last.n < size ∧ last.reach ≤ size := by
  induction pieces generalizing printer fuel with
  | nil =>
    cases fuel with
    | zero => exact absurd enough (Nat.not_lt_zero _)
    | succ fuel =>
      refine ⟨printer, formatLoop_ended (Or.inl ?_), fits, reach⟩
      rw [current, format]
      exact ended
  | cons piece pieces ih =>
    cases fuel with
    | zero => exact absurd enough (Nat.not_lt_zero _)
    | succ fuel =>
      have here := fits.before
      cases piece with
      | literal c plain =>
        have shape : printer.format = c :: (formatOf pieces ++ tail) := format
        rw [shape, List.length_cons] at enough
        rw [formatLoop_literal shape plain.1 plain.2 here]
        refine ih (advance_format shape) ?_ zeros reach fits
        change printer.advance.format.length < fuel
        rw [advance_format shape]
        omega
      | spec options letter conversion known valid =>
        have shape : printer.format = 0x25 :: (options ++ letter :: (formatOf pieces ++ tail)) := by
          rw [format, formatOf_spec]
          simp only [List.cons_append, List.append_assoc]
        rw [shape, List.length_cons, List.length_append, List.length_cons] at enough
        obtain ⟨format', zeros', reach', style, args, n⟩ := spec_inside large bounded options letter
          (formatOf pieces ++ tail) here zeros reach fits.1
        rw [spec_parsed known valid shape (by omega) here]
        refine ih format' ?_ zeros' reach' ?_
        · rw [format']
          omega
        · rw [style, args, n]
          exact fits.2

theorem lineFits_of_formatLoop (large : 32 ≤ size) (bounded : size < 2 ^ 64) {last : Printer}
    (ran : formatLoop size string fuel printer = some last) (enough : printer.format.length < fuel)
    (zeros : ∀ i < size, peek printer.buf i = 0) (reach : printer.reach ≤ size)
    (ends : last.n < size) (inside : last.reach ≤ size) :
    ∃ pieces tail, printer.format = formatOf pieces ++ tail ∧ tail.headD 0 = 0 ∧
      LineFits size string pieces ⟨printer.pad, printer.flags⟩ printer.args printer.n := by
  induction fuel generalizing printer with
  | zero => cases ran
  | succ fuel ih =>
    rcases formatLoop_cases ran with ⟨ended, rfl⟩ | ⟨room, percent, spec, parsed, _⟩ |
      ⟨room, nonzero, plain, later⟩
    · exact ⟨[], last.format, rfl, ended.resolve_right (Nat.not_le_of_lt ends), ends⟩
    · cases shape : printer.format with
      | nil =>
        rw [current, shape] at percent
        exact absurd percent (by decide)
      | cons c rest' =>
        rw [current_eq shape] at percent
        subst percent
        obtain ⟨options, letter, rest, format, valid, known⟩ := nextSpec_options parsed
        rw [advance_format shape] at format
        rw [format] at shape
        rw [shape, List.length_cons, List.length_append, List.length_cons] at enough
        rw [spec_parsed known valid shape (by omega) room] at ran
        have short : spec.2 = .string →
            0 < printer.n ∨ (content (string (printer.args.headD 0))).length < size := by
          intro isString
          by_contra long
          rw [not_or] at long
          -- the index would stay past the end up to the end of the run
          have passed := formatLoop_le_reach ran
          rw [isString] at passed
          have past : size < (((printer.at' (readOptions ⟨printer.pad, printer.flags⟩ false options)
              (letter :: rest)).convert size string .string).emit size).reach :=
            conversion_overfills bounded (by omega) (Nat.eq_zero_of_not_pos long.1)
              (Nat.le_of_not_lt long.2)
          exact absurd (Nat.lt_of_lt_of_le past passed) (Nat.not_lt.mpr inside)
        obtain ⟨format', zeros', reach', style, args, n⟩ := spec_inside large bounded options letter
          rest room zeros reach short
        obtain ⟨pieces, tail, same, ended, fits⟩ := ih ran (by rw [format']; omega) zeros' reach'
        rw [format'] at same
        rw [style, args, n] at fits
        refine ⟨.spec options letter spec.2 known valid :: pieces, tail, ?_, ended, short, fits⟩
        rw [formatOf_spec, format, same]
        simp only [List.cons_append, List.append_assoc]
    · cases shape : printer.format with
      | nil =>
        rw [current, shape] at nonzero
        exact absurd rfl nonzero
      | cons c rest =>
        rw [current_eq shape] at nonzero plain later
        have tail : { (printer.putc c).advance with flags := 0 }.format = rest := advance_format shape
        rw [shape, List.length_cons] at enough
        obtain ⟨pieces, tail', same, ended, fits⟩ := ih later (by rw [tail]; omega) zeros reach
        rw [tail] at same
        exact ⟨.literal c ⟨nonzero, plain⟩ :: pieces, tail', congrArg (c :: ·) same, ended, fits⟩

end Printer

/-! ### The calls -/

inductive EntryPoint where
  | printf
  | pprintf (color : BitVec 32)
  | kernelLog

/-- A call of one of the three. -/
def EntryPoint.call : EntryPoint → Nat → Memory → Buffer → (Word → List Byte) → List Byte → List Word →
    Option Logged
  | .printf => Osdev64.printf
  | .pprintf color => Osdev64.pprintf color
  | .kernelLog => Osdev64.kernelLog

theorem EntryPoint.call_eq (entry : EntryPoint) {fuel : Nat} {buf : Memory} {behind : Buffer}
    {string : Word → List Byte} {fmt : List Byte} {args : List Word} {logged : Logged}
    (called : entry.call fuel buf behind string fmt args = some logged) :
    vsnprintf fuel (clearLog buf) logSize behind string fmt args = some logged.printer ∧
      logged.r = BitVec.ofNat 32 logged.printer.n := by
  have common : ∀ devices, logTo devices fuel buf behind string fmt args = some logged →
      vsnprintf fuel (clearLog buf) logSize behind string fmt args = some logged.printer ∧
        logged.r = BitVec.ofNat 32 logged.printer.n := by
    intro devices ran
    obtain ⟨printer, returned, same⟩ := Option.bind_eq_some_iff.mp ran
    injection same with same
    subst same
    exact ⟨returned, rfl⟩
  cases entry with
  | printf => exact common _ called
  | pprintf color => exact common _ called
  | kernelLog => exact common _ called

theorem printerStart_filled (buf : Memory) (behind : Buffer) (fmt : List Byte) (args : List Word) :
    Printer.Filled logSize (printerStart (clearLog buf) logSize behind fmt args) := by
  refine ⟨Nat.zero_le _, ?_, ?_, ?_⟩
  · intro offset member
    cases member
  · intro j inside
    exact absurd inside (Nat.not_lt_zero j)
  · intro j _ inside
    exact if_pos inside

/-- A call that returns stays inside both buffers and hands on a terminated string exactly when the
pieces of its format, up to the zero, ask for a line that fits. -/
theorem staysInside_iff (entry : EntryPoint) (fuel : Nat) (buf : Memory) (behind : Buffer)
    (string : Word → List Byte) (fmt : List Byte) (args : List Word) (logged : Logged)
    (called : entry.call fuel buf behind string fmt args = some logged) :
    StaysInside logged ↔ ∃ pieces tail, fmt = formatOf pieces ++ tail ∧ tail.headD 0 = 0 ∧
      Printer.LineFits logSize string pieces ⟨0, 0⟩ args 0 := by
  obtain ⟨ran, r⟩ := entry.call_eq called
  have filled := Printer.formatLoop_filled ran (printerStart_filled buf behind fmt args)
  have clear := printerStart_clear (clearLog buf) logSize behind fmt args
  have few : logged.printer.n ≤ 256 := filled.n
  have returned : logged.r.toNat = logged.printer.n := by
    rw [r, BitVec.toNat_ofNat]
    omega
  constructor
  · intro inside
    -- a full output has no zero
    have short : logged.printer.n < logSize := by
      obtain ⟨j, below, zero⟩ := inside.terminated
      by_contra full
      exact filled.nonzero j (by omega) zero
    have more := Printer.formatLoop_more (fmt.length + 1) ran
    exact Printer.lineFits_of_formatLoop (by decide) (by decide) more
      (show fmt.length < fuel + (fmt.length + 1) by omega) clear (Nat.le_refl logSize) short inside.scratch
  · rintro ⟨pieces, tail, format, ended, fits⟩
    obtain ⟨last, ran', short, scratch⟩ := Printer.formatLoop_of_lineFits (by decide) (by decide) pieces
      (show (printerStart (clearLog buf) logSize behind fmt args).format = _ from format) ended
      (Nat.lt_succ_self _) clear (Nat.le_refl logSize) fits
    rw [← vsnprintf_unique ran ran'] at short scratch
    have zero := filled.rest _ (Nat.le_refl _) short
    refine ⟨filled.stores, scratch, ⟨_, short, zero⟩, ?_⟩
    intro _
    rw [returned]
    exact ⟨short, zero⟩

/-- `printf("n%u", 7)`. -/
theorem staysInside_number :
    ∃ logged, printf 8 (fun _ => 1) [1] (fun _ => []) [0x6E, 0x25, 0x75] [7] = some logged ∧
      StaysInside logged := by
  have returns : (printf 8 (fun _ => 1) [1] (fun _ => []) [0x6E, 0x25, 0x75] [7]).isSome = true := by
    decide +kernel
  obtain ⟨logged, called⟩ := Option.isSome_iff_exists.mp returns
  refine ⟨logged, called, ?_⟩
  refine (staysInside_iff .printf 8 (fun _ => 1) [1] (fun _ => []) [0x6E, 0x25, 0x75] [7] logged
    called).mpr ⟨[.literal 0x6E (by decide), .spec [] 0x75 .unsigned (by decide) (by decide)], [], rfl, rfl,
      ?_, ?_⟩
  · intro impossible
    cases impossible
  · change Printer.fieldEnd logSize 1 (fun _ => []) ⟨0, 0⟩ [] .unsigned 7 < logSize
    decide +kernel

theorem Printer.formatLoop_field {size fuel : Nat} {string : Word → List Byte} {printer : Printer}
    (shape : printer.format = [0x25, 0x73]) (room : printer.n < size) :
    formatLoop size string (fuel + 2) printer =
      some ((printer.advance.convert size string .string).emit size).advance := by
  have rest := advance_format shape
  have known : conversionOf printer.advance.current = some .string := by
    rw [current_eq rest]
    rfl
  have format : ((printer.advance.convert size string .string).emit size).format = [0x73] :=
    (emit_format _).trans ((convert_position size string printer.advance .string).1.trans rest)
  have ended : ((printer.advance.convert size string .string).emit size).advance.current = 0 := by
    rw [current, advance_format format]
    rfl
  rw [formatLoop_percent shape room, nextFormat_known known, Option.bind_some, formatLoop_ended (.inl ended)]

theorem reach_of_long_string (fuel : Nat) (buf : Memory) (string : Word → List Byte) (argument : Word)
    (long : logSize ≤ (content (string argument)).length) :
    (kernelLog (fuel + 2) buf [0] string [0x25, 0x73] [argument]).map (fun logged => logged.printer.reach) =
      some (logSize + 1) := by
  have behind : peek (printerStart (clearLog buf) logSize [0] [0x25, 0x73] [argument]).buf logSize = 0 := by
    change peek (List.replicate 256 0 ++ [0]) 256 = 0
    decide
  have positive : 0 < logSize := by decide
  have overfilled : (((printerStart (clearLog buf) logSize [0] [0x25, 0x73] [argument]).advance.convert
      logSize string .string).emit logSize).reach = logSize + 1 :=
    Printer.conversion_overfills_by_one (by decide) positive rfl rfl behind long
  unfold kernelLog logTo vsnprintf
  rw [Printer.formatLoop_field rfl positive]
  exact congrArg some overfilled

/-- Every pointer points to 256 times the letter b. -/
def longString : Word → List Byte := fun _ => List.replicate 256 0x62

/-- A long string first: `strlen` reads the byte behind the scratch buffer.  256 letters: the
output has no zero. -/
theorem long_line_overruns :
    (kernelLog 8 (fun _ => 1) [0] longString [0x25, 0x73] [0]).map
        (fun logged => logged.printer.reach) = some 257 ∧
      ∃ logged, kernelLog 257 (fun _ => 1) [0] longString (List.replicate 256 0x61) [] = some logged ∧
        ∀ j < logSize, logged.printer.str j ≠ 0 := by
  constructor
  · exact reach_of_long_string 6 (fun _ => 1) longString 0 (by decide +kernel)
  have length : (kernelLog 257 (fun _ => 1) [0] longString (List.replicate 256 0x61) []).map
      (fun logged => logged.printer.n) = some 256 := by decide +kernel
  obtain ⟨logged, called, n⟩ := Option.map_eq_some_iff.mp length
  obtain ⟨ran, _⟩ := EntryPoint.kernelLog.call_eq called
  refine ⟨logged, called, ?_⟩
  have filled := Printer.formatLoop_filled ran (printerStart_filled _ _ _ _)
  have nonzero := filled.nonzero
  rw [n] at nonzero
  exact nonzero

end Osdev64
