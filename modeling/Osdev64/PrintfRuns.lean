/-
Runs of the loop of `vsnprintf`, on any format.

Up to its conversion a specification changes only the width, the flags and the
place in the format.  So a property of the rest of the state holds at the end of
a run if it survives a literal and a conversion.
-/

import Osdev64.PrintfPieces

namespace Osdev64

open Bytes CString Word64

namespace Printer

variable {size fuel : Nat} {string : Word → List Byte} {printer : Printer}

private theorem padLoop_at (printer : Printer) (format : List Byte) :
    ∃ style rest, padLoop printer format = printer.at' style rest := by
  induction format generalizing printer with
  | nil => exact ⟨⟨printer.pad, printer.flags⟩, [], rfl⟩
  | cons c format ih =>
    unfold padLoop
    by_cases digit : isdigit c = true
    · rw [if_pos digit]
      obtain ⟨style, rest, same⟩ := ih { printer.setFlag padFlag with
        pad := printer.pad * 10 + BitVec.ofNat 64 (c.toNat - 0x30) }
      exact ⟨style, rest, same⟩
    · rw [if_neg digit]
      exact ⟨⟨printer.pad, printer.flags⟩, c :: format, rfl⟩

private theorem jump_at (printer : Printer) : ∃ style rest, printer.jump = printer.at' style rest := by
  unfold jump
  by_cases alternate : printer.current = 0x23
  · rw [if_pos alternate]
    exact ⟨⟨16, printer.flags ||| (prefixFlag ||| padFlag)⟩, printer.format.tail, rfl⟩
  · rw [if_neg alternate]
    by_cases plus : printer.current = 0x2B
    · rw [if_pos plus]
      exact ⟨⟨printer.pad, printer.flags ||| alwaysSignFlag⟩, printer.format.tail, rfl⟩
    · rw [if_neg plus]
      obtain ⟨style, rest, same⟩ := padLoop_at { printer with pad := 0 } printer.format
      exact ⟨style, rest, same⟩

/-- From `next_format` to the case that ends the inner `switch`. -/
def nextSpec : Nat → Printer → Option (Printer × Conversion)
  | 0, _ => none
  | fuel + 1, printer =>
    match conversionOf printer.current with
    | some conversion => some (printer, conversion)
    | none => nextSpec fuel printer.jump

theorem nextFormat_eq (size : Nat) (string : Word → List Byte) (fuel : Nat) (printer : Printer) :
    nextFormat size string fuel printer =
      (nextSpec fuel printer).map fun spec => spec.1.convert size string spec.2 := by
  induction fuel generalizing printer with
  | zero => rfl
  | succ fuel ih =>
    unfold nextFormat nextSpec
    cases conversionOf printer.current with
    | some conversion => rfl
    | none => exact ih printer.jump

theorem nextSpec_at {spec : Printer × Conversion} (found : nextSpec fuel printer = some spec) :
    ∃ style rest, spec.1 = printer.at' style rest := by
  induction fuel generalizing printer with
  | zero => cases found
  | succ fuel ih =>
    unfold nextSpec at found
    cases known : conversionOf printer.current with
    | some conversion =>
      rw [known] at found
      injection found with found
      exact ⟨⟨printer.pad, printer.flags⟩, printer.format, congrArg Prod.fst found.symm⟩
    | none =>
      rw [known] at found
      obtain ⟨style, rest, same⟩ := ih found
      obtain ⟨style', rest', jumped⟩ := jump_at printer
      rw [jumped] at same
      exact ⟨style, rest, same⟩

theorem formatLoop_cases {last : Printer} (ran : formatLoop size string (fuel + 1) printer = some last) :
    ((printer.current = 0 ∨ size ≤ printer.n) ∧ last = printer) ∨
      (printer.n < size ∧ printer.current = 0x25 ∧ ∃ spec, nextSpec fuel printer.advance = some spec ∧
        formatLoop size string fuel ((spec.1.convert size string spec.2).emit size).advance = some last) ∨
      (printer.n < size ∧ printer.current ≠ 0 ∧ printer.current ≠ 0x25 ∧
        formatLoop size string fuel { (printer.putc printer.current).advance with flags := 0 } =
          some last) := by
  unfold formatLoop at ran
  by_cases ended : printer.current = 0 ∨ size ≤ printer.n
  · rw [if_pos ended] at ran
    injection ran with same
    exact Or.inl ⟨ended, same.symm⟩
  · rw [if_neg ended] at ran
    obtain ⟨nonzero, room⟩ := not_or.mp ended
    have room' : printer.n < size := Nat.lt_of_not_le room
    by_cases percent : printer.current = 0x25
    · rw [if_pos percent] at ran
      obtain ⟨converted, found, ran⟩ := Option.bind_eq_some_iff.mp ran
      rw [nextFormat_eq] at found
      obtain ⟨spec, parsed, rfl⟩ := Option.map_eq_some_iff.mp found
      exact Or.inr (Or.inl ⟨room', percent, spec, parsed, ran⟩)
    · rw [if_neg percent] at ran
      exact Or.inr (Or.inr ⟨room', nonzero, percent, ran⟩)

theorem nextSpec_options {spec : Printer × Conversion} (found : nextSpec fuel printer = some spec) :
    ∃ options letter rest, printer.format = options ++ letter :: rest ∧
      (∀ c ∈ options, isOption c = true) ∧ conversionOf letter = some spec.2 := by
  induction fuel generalizing printer with
  | zero => cases found
  | succ fuel ih =>
    unfold nextSpec at found
    cases known : conversionOf printer.current with
    | some conversion =>
      rw [known] at found
      cases found
      cases shape : printer.format with
      | nil =>
        -- the end of the format is no conversion
        rw [current, shape] at known
        cases known
      | cons c rest =>
        rw [current_eq shape] at known
        exact ⟨[], c, rest, rfl, fun _ member => absurd member List.not_mem_nil, known⟩
    | none =>
      rw [known] at found
      obtain ⟨options, letter, rest, jumped, valid, known'⟩ := ih found
      rw [(jump_eq printer).2] at jumped
      by_cases flag : printer.current = 0x23 ∨ printer.current = 0x2B
      · rw [if_pos flag] at jumped
        cases shape : printer.format with
        | nil =>
          rw [shape] at jumped
          exact absurd jumped.symm (by simp)
        | cons c tail =>
          rw [current_eq shape] at flag
          rw [shape] at jumped
          refine ⟨c :: options, letter, rest, congrArg (c :: ·) jumped, ?_, known'⟩
          refine List.forall_mem_cons.mpr ⟨?_, valid⟩
          rcases flag with rfl | rfl <;> rfl
      · rw [if_neg flag] at jumped
        refine ⟨printer.format.takeWhile isdigit ++ options, letter, rest, ?_, ?_, known'⟩
        · rw [List.append_assoc, ← jumped, List.takeWhile_append_dropWhile]
        · intro c member
          rcases List.mem_append.mp member with digit | option
          · unfold isOption
            rw [List.mem_takeWhile_imp digit, Bool.or_true]
          · exact valid c option

/-! ### More fuel -/

theorem nextFormat_more {converted : Printer} (more : Nat)
    (found : nextFormat size string fuel printer = some converted) :
    nextFormat size string (fuel + more) printer = some converted := by
  induction fuel generalizing printer with
  | zero => cases found
  | succ fuel ih =>
    rw [Nat.add_right_comm]
    cases known : conversionOf printer.current with
    | some conversion =>
      rw [nextFormat_known known] at found ⊢
      exact found
    | none =>
      rw [nextFormat_unknown known] at found ⊢
      exact ih found

theorem formatLoop_more {last : Printer} (more : Nat)
    (ran : formatLoop size string fuel printer = some last) :
    formatLoop size string (fuel + more) printer = some last := by
  induction fuel generalizing printer with
  | zero => cases ran
  | succ fuel ih =>
    rw [Nat.add_right_comm]
    unfold formatLoop at ran ⊢
    split at ran
    · rename_i ended
      rw [if_pos ended]
      exact ran
    · rename_i going
      rw [if_neg going]
      split at ran
      · rename_i percent
        rw [if_pos percent]
        obtain ⟨converted, found, later⟩ := Option.bind_eq_some_iff.mp ran
        exact Option.bind_eq_some_iff.mpr ⟨converted, nextFormat_more more found, ih later⟩
      · rename_i plain
        rw [if_neg plain]
        exact ih ran

/-! ### What a conversion stores itself -/

/-- The same output. -/
structure SameOutput (before after : Printer) : Prop where
  n : after.n = before.n
  str : after.str = before.str
  stores : after.stores = before.stores

/-- A conversion without its sign. -/
def plain (size : Nat) (string : Word → List Byte) (printer : Printer) : Conversion → Printer
  | .hex => printer.dropArgument.number printer.argument 16 16
  | .signed => printer.dropArgument.number printer.argument 10 20
  | .integer => printer.dropArgument.number printer.argument 10 20
  | .octal => printer.dropArgument.number printer.argument 8 16
  | conversion => printer.convert size string conversion

theorem plain_same (size : Nat) (string : Word → List Byte) (printer : Printer)
    (conversion : Conversion) : SameOutput printer (printer.plain size string conversion) := by
  cases conversion with
  | percent => exact ⟨rfl, rfl, rfl⟩
  | hex => exact ⟨rfl, rfl, rfl⟩
  | signed => exact ⟨rfl, rfl, rfl⟩
  | integer => exact ⟨rfl, rfl, rfl⟩
  | unsigned => exact ⟨rfl, rfl, rfl⟩
  | long => exact ⟨rfl, rfl, rfl⟩
  | octal => exact ⟨rfl, rfl, rfl⟩
  | string => exact ⟨rfl, rfl, rfl⟩
  | char => exact ⟨rfl, rfl, rfl⟩
  | wide => exact ⟨rfl, rfl, rfl⟩

/-- A sign is stored, for which there is room. -/
structure Signs (size : Nat) (base after : Printer) (sign : List Byte) : Prop where
  room : sign = [] ∨ base.n + sign.length < size
  nonzero : ∀ c ∈ sign, c ≠ 0
  stored : after = sign.foldl putc base

private theorem signs_none (size : Nat) (base : Printer) : ∃ sign, Signs size base base sign :=
  ⟨[], Or.inl rfl, fun _ member => absurd member List.not_mem_nil, rfl⟩

private theorem signs_if (base : Printer) {asked : Prop} [Decidable asked] (sign : List Byte)
    (room : asked → base.n + sign.length < size) (nonzero : ∀ c ∈ sign, c ≠ 0) :
    ∃ sign', Signs size base (if asked then sign.foldl putc base else base) sign' := by
  by_cases holds : asked
  · rw [if_pos holds]
    exact ⟨sign, Or.inr (room holds), nonzero, rfl⟩
  · rw [if_neg holds]
    exact signs_none size base

theorem convert_signs (size : Nat) (string : Word → List Byte) (printer : Printer)
    (conversion : Conversion) :
    ∃ sign, Signs size (printer.plain size string conversion)
      (printer.convert size string conversion) sign := by
  cases conversion with
  | hex =>
    exact signs_if (printer.dropArgument.number printer.argument 16 16) [0x30, 0x78]
      (fun asked : printer.has prefixFlag = true ∧ printer.n + 2 < size => asked.2) (by decide)
  | signed =>
    rw [convert_signed]
    refine signs_if (printer.dropArgument.number printer.argument 10 20) _ (fun asked => asked.2) ?_
    intro c member
    rw [List.mem_singleton.mp member]
    split <;> decide
  | integer =>
    rw [convert_integer]
    refine signs_if (printer.dropArgument.number printer.argument 10 20) _ ?_ ?_
    · intro room
      split
      · exact room
      · exact Nat.lt_of_succ_lt room
    · split <;> decide
  | octal =>
    exact signs_if (printer.dropArgument.number printer.argument 8 16) [0x30]
      (fun asked : printer.has prefixFlag = true ∧ printer.n + 2 < size =>
        Nat.lt_of_succ_lt asked.2) (by decide)
  | percent => exact signs_none _ _
  | unsigned => exact signs_none _ _
  | long => exact signs_none _ _
  | string => exact signs_none _ _
  | char => exact signs_none _ _
  | wide => exact signs_none _ _

/-! ### Whole runs -/

theorem formatLoop_invariant {P : Printer → Prop}
    (literal : ∀ before : Printer, P before → before.n < size → before.current ≠ 0 →
      P { (before.putc before.current).advance with flags := 0 })
    (conversion : ∀ (before : Printer) (style : Style) (rest : List Byte) (conversion : Conversion),
      P before → before.n < size →
        P (((before.at' style rest).convert size string conversion).emit size).advance)
    {last : Printer} (ran : formatLoop size string fuel printer = some last) (start : P printer) :
    P last := by
  induction fuel generalizing printer with
  | zero => cases ran
  | succ fuel ih =>
    rcases formatLoop_cases ran with ⟨_, rfl⟩ | ⟨room, _, spec, parsed, later⟩ |
      ⟨room, nonzero, _, later⟩
    · exact start
    · obtain ⟨style, rest, same⟩ := nextSpec_at parsed
      apply ih later
      rw [same]
      exact conversion printer style rest spec.2 start room
    · exact ih later (literal printer start room nonzero)

/-! ### Whole outputs -/

section Output

variable {P : Printer → Prop} (same : ∀ before after : Printer, P before → SameOutput before after → P after)
  (store : ∀ (printer : Printer) (c : Byte), P printer → printer.n < size → c ≠ 0 → P (printer.putc c))

include store in
theorem foldl_putc_output {chars : List Byte} (nonzero : ∀ c ∈ chars, c ≠ 0)
    (room : chars = [] ∨ printer.n + chars.length < size) (start : P printer) :
    P (chars.foldl putc printer) := by
  induction chars generalizing printer with
  | nil => exact start
  | cons c chars ih =>
    have fits := room.resolve_left (List.cons_ne_nil c chars)
    rw [List.length_cons] at fits
    have stored := store printer c start (by omega) (nonzero c List.mem_cons_self)
    refine ih (fun d member => nonzero d (List.mem_cons_of_mem c member)) (Or.inr ?_) stored
    change printer.n + 1 + chars.length < size
    omega

include store in
theorem storeLoop_output {chars : Nat → Byte} (left i : Nat) (nonzero : ∀ j < i + left, chars j ≠ 0)
    (start : P printer) : P (storeLoop size chars left i printer) := by
  induction left generalizing i printer with
  | zero => exact start
  | succ left ih =>
    unfold storeLoop
    split
    · rename_i room
      have stored := store printer (chars i) start (by omega) (nonzero i (by omega))
      exact ih (i + 1) (fun j inside => nonzero j (by omega)) stored
    · exact start

include same store in
theorem emit_output (start : P printer) : P (printer.emit size) := by
  have padded : P (printer.padOut size) := by
    unfold padOut
    split
    · refine storeLoop_output store _ _ (fun _ _ => ?_) start
      split <;> decide
    · exact start
  refine same _ _ (storeLoop_output store _ _ (fun _ inside => ?_) padded) ⟨rfl, rfl, rfl⟩
  exact peek_ne_zero (by omega)

include same store in
theorem convert_output (string : Word → List Byte) (conversion : Conversion) (start : P printer) :
    P (printer.convert size string conversion) := by
  obtain ⟨sign, signs⟩ := convert_signs size string printer conversion
  rw [signs.stored]
  exact foldl_putc_output store signs.nonzero signs.room
    (same _ _ start (plain_same size string printer conversion))

include same store in
/-- The rule for the output of a whole run: what survives a character that is not zero. -/
theorem formatLoop_output {last : Printer} (ran : formatLoop size string fuel printer = some last)
    (start : P printer) : P last := by
  refine formatLoop_invariant ?_ ?_ ran start
  · intro before holds room nonzero
    exact same _ _ (store before before.current holds room nonzero) ⟨rfl, rfl, rfl⟩
  · intro before style rest conversion holds _
    have moved : P (before.at' style rest) := same _ _ holds ⟨rfl, rfl, rfl⟩
    have converted := convert_output same store string conversion moved
    exact same _ _ (emit_output same store converted) ⟨rfl, rfl, rfl⟩

end Output

theorem formatLoop_le_n {last : Printer} (ran : formatLoop size string fuel printer = some last) :
    printer.n ≤ last.n := by
  refine formatLoop_output (P := fun later => printer.n ≤ later.n) ?_ ?_ ran (Nat.le_refl _)
  · intro before after longer same
    rw [same.n]
    exact longer
  · intro before c longer _ _
    exact Nat.le_succ_of_le longer

theorem formatLoop_stores {last : Printer} (ran : formatLoop size string fuel printer = some last)
    (start : printer.stores = (List.range printer.n).reverse) :
    last.stores = (List.range last.n).reverse := by
  refine formatLoop_output (P := fun later => later.stores = (List.range later.n).reverse) ?_ ?_ ran start
  · intro before after inOrder same
    rw [same.stores, same.n]
    exact inOrder
  · intro before c inOrder _ _
    change before.n :: before.stores = (List.range (before.n + 1)).reverse
    rw [inOrder, List.range_succ, List.reverse_append]
    rfl

end Printer

theorem vsnprintf_unique {fuel fuel' size : Nat} {str : Memory} {behind : Buffer}
    {string : Word → List Byte} {format : List Byte} {args : List Word} {last last' : Printer}
    (ran : vsnprintf fuel str size behind string format args = some last)
    (ran' : vsnprintf fuel' str size behind string format args = some last') : last = last' := by
  have more := Printer.formatLoop_more fuel' ran
  have more' := Printer.formatLoop_more fuel ran'
  rw [Nat.add_comm] at more'
  exact Option.some.inj (more.symm.trans more')

theorem vsnprintf_n {fuel fuel' size : Nat} {str : Memory} {behind : Buffer}
    {string : Word → List Byte} {format : List Byte} {args : List Word} {last : Printer} {n : Nat}
    (ran : vsnprintf fuel str size behind string format args = some last)
    (shown : (vsnprintf fuel' str size behind string format args).map Printer.n = some n) :
    last.n = n := by
  obtain ⟨last', ran', same⟩ := Option.map_eq_some_iff.mp shown
  rw [vsnprintf_unique ran ran', same]

end Osdev64
