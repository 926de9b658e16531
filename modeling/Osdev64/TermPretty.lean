/-
`vga_pretty`: a text in colour.

The text is printed first.  Then the cells from the place where it began to the end
of the cursor's row are coloured, but the place is the one saved before printing.
Where the screen has scrolled in between, the text lies above it; and the cells
behind the text in its last row are coloured with it.
-/

import Osdev64.TermSheet

namespace Osdev64

open Bytes

def overwriteLoop (color : BitVec 32) (sizeend i : Nat) (terminal : Terminal) : Terminal :=
  if i < sizeend then overwriteLoop color sizeend (i + 2) (terminal.store i (color.setWidth 8))
  else terminal
termination_by sizeend - i

def vgaOverwriteColor (color : BitVec 32) (startX startY endX endY : Nat) (terminal : Terminal) :
    Terminal :=
  let sizeend := 2 * endX + 160 * endY
  overwriteLoop color sizeend (startX + 1 + 160 * startY) terminal

def vgaPretty (terminal : Terminal) (s : List Byte) (color : BitVec 32) : Terminal :=
  let startX := terminal.x.toNat
  let startY := terminal.y.toNat
  let terminal := vgaPuts terminal s
  vgaOverwriteColor color startX startY 80 terminal.y.toNat terminal

theorem overwriteLoop_vga (color : BitVec 32) (sizeend i other : Nat) (terminal : Terminal) :
    (overwriteLoop color sizeend i terminal).vga other =
      if i ≤ other ∧ other < sizeend ∧ (other - i) % 2 = 0 then color.setWidth 8
      else terminal.vga other := by
  fun_induction overwriteLoop color sizeend i terminal with
  | case1 i terminal more ih =>
    rw [ih]
    simp only [Terminal.store, Function.update_apply]
    split_ifs <;> first | rfl | omega
  | case2 i terminal done => rw [if_neg (by omega)]

/-! ### The text on the screen -/

structure CursorOnScreen (terminal : Terminal) : Prop where
  even : terminal.x.toNat % 2 = 0
  column : terminal.x.toNat < 160
  row : terminal.y.toNat < 25

/-- The characters of a text on a blank sheet, from the cursor on.  Row `n` of the sheet is row `n` of
the screen before the call. -/
def layout (terminal : Terminal) (s : List Byte) : Sheet :=
  s.foldl Sheet.put ⟨fun _ _ => 0, terminal.y.toNat, terminal.x.toNat / 2⟩

/-- The first or second bytes of the cells before the call; the rows that may come into view are
blank. -/
def bytesBefore (p : Nat) (terminal : Terminal) (row col : Nat) : Byte :=
  if row < 25 then terminal.vga (160 * row + 2 * col + p) else cellByte p 0 terminal.attrib

/-- A sheet of such bytes, on which the cells of the text have been written. -/
structure Overlaid (p : Nat) (attrib : BitVec 16) (before : Nat → Nat → Byte) (text sheet : Sheet) : Prop where
  row : sheet.row = text.row
  col : sheet.col = text.col
  cells : ∀ row col, sheet.cells row col =
    if text.cells row col ≠ 0 then cellByte p (text.cells row col) attrib else before row col

namespace Overlaid

variable {p : Nat} {attrib : BitVec 16} {before : Nat → Nat → Byte} {text sheet : Sheet}

theorem putByte (marks : Overlaid p attrib before text sheet) {c : Byte} (printable : Printable c) :
    Overlaid p attrib before (text.put c) (sheet.putByte c (cellByte p c attrib)) := by
  have row := marks.row
  have col := marks.col
  have nonzero : c ≠ 0 := by
    rintro rfl
    exact absurd printable (by decide)
  have written (r k : Nat) : (sheet.write (cellByte p c attrib)).cells r k =
      if (text.write c).cells r k ≠ 0 then cellByte p ((text.write c).cells r k) attrib
      else before r k := by
    unfold Sheet.write
    by_cases here : r = text.row ∧ k = text.col
    · simp only [row, col, if_pos here, if_pos nonzero]
    · simp only [row, col, if_neg here]
      exact marks.cells r k
  unfold Sheet.put Sheet.putByte
  rw [col]
  split_ifs with newline full
  · exact ⟨congrArg Nat.succ row, rfl, marks.cells⟩
  · exact ⟨congrArg Nat.succ row, rfl, written⟩
  · exact ⟨row, rfl, written⟩

theorem foldl {s : List Byte} (printable : ∀ c ∈ s, Printable c) (marks : Overlaid p attrib before text sheet) :
    Overlaid p attrib before (s.foldl Sheet.put text)
      (s.foldl (fun sheet c => sheet.putByte c (cellByte p c attrib)) sheet) := by
  induction s generalizing text sheet with
  | nil => exact marks
  | cons c s ih =>
    exact ih (fun d member => printable d (List.mem_cons_of_mem c member))
      (marks.putByte (printable c List.mem_cons_self))

end Overlaid

theorem Window.foldl {p : Nat} {terminal : Terminal} {sheet : Sheet} {s : List Byte} (half : p < 2)
    (printable : ∀ c ∈ s, Printable c) (window : Window p terminal sheet) :
    Window p (s.foldl Osdev64.vgaPutc terminal)
      (s.foldl (fun sheet c => sheet.putByte c (cellByte p c terminal.attrib)) sheet) := by
  induction s generalizing terminal sheet with
  | nil => exact window
  | cons c s ih =>
    have here := printable c List.mem_cons_self
    have later := ih (fun d member => printable d (List.mem_cons_of_mem c member))
      (window.vgaPutc half here)
    rw [vgaPutc_attrib terminal here] at later
    exact later

section Text

variable {terminal : Terminal} {s : List Byte}

theorem layout_below (row col : Nat) (under : (layout terminal s).row < row) :
    (layout terminal s).cells row col = 0 := by
  have below {sheet : Sheet} (blank : ∀ row col, sheet.row < row → sheet.cells row col = 0) :
      ∀ row col, (s.foldl Sheet.put sheet).row < row → (s.foldl Sheet.put sheet).cells row col = 0 := by
    clear under
    induction s generalizing sheet with
    | nil => exact blank
    | cons c s ih => exact ih (Sheet.put_below blank)
  exact below (fun _ _ _ => rfl) row col under

theorem window_before (cursor : CursorOnScreen terminal) (p : Nat) :
    Window p terminal ⟨bytesBefore p terminal, terminal.y.toNat, terminal.x.toNat / 2⟩ := by
  have even := cursor.even
  have column := cursor.column
  have row := cursor.row
  have top : Sheet.top ⟨bytesBefore p terminal, terminal.y.toNat, terminal.x.toNat / 2⟩ = 0 := by
    change terminal.y.toNat - 24 = 0
    omega
  refine ⟨?_, ?_, ?_, ?_, ?_⟩
  · change terminal.x.toNat / 2 < 80
    omega
  · change terminal.x.toNat = 2 * (terminal.x.toNat / 2)
    omega
  · rw [top, Nat.zero_add]
  · intro row inside col _
    rw [top, Nat.zero_add]
    exact (if_pos inside).symm
  · intro row col _ bottom
    exact if_neg (by omega)

theorem vgaPuts_byte (cursor : CursorOnScreen terminal) (printable : ∀ c ∈ s, Printable c) {p : Nat}
    (half : p < 2) {row col : Nat} (inside : row < 25) (within : col < 80) :
    (vgaPuts terminal s).vga (160 * row + 2 * col + p) =
        (if (layout terminal s).cells ((layout terminal s).top + row) col ≠ 0 then
          cellByte p ((layout terminal s).cells ((layout terminal s).top + row) col) terminal.attrib
        else bytesBefore p terminal ((layout terminal s).top + row) col) ∧
      (layout terminal s).top + (vgaPuts terminal s).y.toNat = (layout terminal s).row := by
  have window := (window_before cursor p).foldl half printable
  have marks : Overlaid p terminal.attrib (bytesBefore p terminal)
      ⟨fun _ _ => 0, terminal.y.toNat, terminal.x.toNat / 2⟩
      ⟨bytesBefore p terminal, terminal.y.toNat, terminal.x.toNat / 2⟩ := ⟨rfl, rfl, fun _ _ => rfl⟩
  have after := marks.foldl printable
  have y := window.y
  have byte := window.byte row inside col within
  rw [Sheet.top, after.row] at y
  rw [Sheet.top, after.row, after.cells] at byte
  rw [vgaPuts_eq_foldl printable]
  exact ⟨byte, y⟩

theorem vgaPretty_attribute (cursor : CursorOnScreen terminal) (printable : ∀ c ∈ s, Printable c)
    (color : BitVec 32) {row col : Nat} (inside : row < 25) (within : col < 80) :
    (vgaPretty terminal s color).vga (160 * row + 2 * col + 1) =
      if terminal.x.toNat + 160 * terminal.y.toNat ≤ 160 * row + 2 * col ∧
          (layout terminal s).top + row ≤ (layout terminal s).row then color.setWidth 8
      else if (layout terminal s).cells ((layout terminal s).top + row) col ≠ 0 then
        terminal.attrib.setWidth 8
      else bytesBefore 1 terminal ((layout terminal s).top + row) col := by
  obtain ⟨printed, y⟩ := vgaPuts_byte cursor printable (show 1 < 2 by decide) inside within
  have even := cursor.even
  unfold vgaPretty vgaOverwriteColor
  simp only
  rw [overwriteLoop_vga, printed]
  congr 1
  rw [eq_iff_iff]
  omega

theorem vgaPretty_character (cursor : CursorOnScreen terminal) (printable : ∀ c ∈ s, Printable c)
    (color : BitVec 32) {row col : Nat} (inside : row < 25) (within : col < 80)
    (ofText : (layout terminal s).cells ((layout terminal s).top + row) col ≠ 0) :
    (vgaPretty terminal s color).vga (160 * row + 2 * col) =
      (layout terminal s).cells ((layout terminal s).top + row) col := by
  obtain ⟨printed, -⟩ := vgaPuts_byte cursor printable (show 0 < 2 by decide) inside within
  have even := cursor.even
  unfold vgaPretty vgaOverwriteColor
  simp only
  rw [overwriteLoop_vga, if_neg (by omega)]
  rw [if_pos ofText] at printed
  exact printed

end Text

/-! ### The colours -/

/-- The characters of the text that are visible have the colour, and the cells among `written` that
are visible and not part of the text keep their attribute. -/
structure ColoursText (terminal : Terminal) (s : List Byte) (color : BitVec 32)
    (written : Nat → Nat → Prop) : Prop where
  text : ∀ row < 25, ∀ col < 80, (layout terminal s).cells ((layout terminal s).top + row) col ≠ 0 →
    (vgaPretty terminal s color).vga (160 * row + 2 * col + 1) = color.setWidth 8
  kept : ∀ row < 25, ∀ col < 80, (layout terminal s).top + row < 25 →
    (layout terminal s).cells ((layout terminal s).top + row) col = 0 →
    written ((layout terminal s).top + row) col →
    (vgaPretty terminal s color).vga (160 * row + 2 * col + 1) =
      terminal.vga (160 * ((layout terminal s).top + row) + 2 * col + 1)

/-- Exactly when no character of the text has moved in front of the place where it began, unless the
colour is the terminal's anyway, and no other cell from there to the end of the cursor's row was written
in another colour. -/
theorem coloursText_iff (terminal : Terminal) (s : List Byte) (color : BitVec 32)
    (written : Nat → Nat → Prop) (cursor : CursorOnScreen terminal) (printable : ∀ c ∈ s, Printable c) :
    ColoursText terminal s color written ↔
      (∀ row < 25, ∀ col < 80, (layout terminal s).cells ((layout terminal s).top + row) col ≠ 0 →
        160 * row + 2 * col < terminal.x.toNat + 160 * terminal.y.toNat →
        terminal.attrib.setWidth 8 = color.setWidth 8) ∧
      (∀ row < 25, ∀ col < 80, (layout terminal s).top + row < 25 →
        (layout terminal s).cells ((layout terminal s).top + row) col = 0 →
        written ((layout terminal s).top + row) col →
        terminal.x.toNat + 160 * terminal.y.toNat ≤ 160 * row + 2 * col →
        (layout terminal s).top + row ≤ (layout terminal s).row →
        terminal.vga (160 * ((layout terminal s).top + row) + 2 * col + 1) = color.setWidth 8) := by
  have shown {row col : Nat} (inside : row < 25) (within : col < 80) :=
    vgaPretty_attribute cursor printable color inside within
  constructor
  · intro colours
    constructor
    · intro row inside col within ofText before
      have colored := colours.text row inside col within ofText
      rw [shown inside within, if_neg (by omega), if_pos ofText] at colored
      exact colored
    · intro row inside col within old unwritten earlier behind above
      have kept := colours.kept row inside col within old unwritten earlier
      rw [shown inside within, if_pos ⟨behind, above⟩] at kept
      exact kept.symm
  · rintro ⟨moved, others⟩
    constructor
    · intro row inside col within ofText
      have above : (layout terminal s).top + row ≤ (layout terminal s).row := by
        by_contra under
        exact ofText (layout_below _ col (by omega))
      rw [shown inside within]
      by_cases behind : terminal.x.toNat + 160 * terminal.y.toNat ≤ 160 * row + 2 * col
      · rw [if_pos ⟨behind, above⟩]
      · rw [if_neg (fun range => behind range.1), if_pos ofText]
        exact moved row inside col within ofText (by omega)
    · intro row inside col within old unwritten earlier
      rw [shown inside within]
      split_ifs with range ofText
      · exact (others row inside col within old unwritten earlier range.1 range.2).symm
      · exact absurd unwritten ofText
      · exact if_pos old

/-- A cursor in the first column of a row, and the same byte everywhere. -/
def evenTerminal (y : BitVec 16) (byte : Byte) : Terminal := ⟨⟨0x7, 0, y⟩, fun _ => byte, 0, []⟩

theorem coloursText_one_row :
    CursorOnScreen (evenTerminal 3 0x07) ∧
      ColoursText (evenTerminal 3 0x07) [0x4F, 0x4B] 0x0A fun row _ => row < 3 := by
  have cursor : CursorOnScreen (evenTerminal 3 0x07) := ⟨by decide, by decide, by decide⟩
  refine ⟨cursor, (coloursText_iff _ _ _ _ cursor (by decide)).mpr ⟨by decide +kernel, ?_⟩⟩
  intro row _ col within _ _ earlier behind _
  have top : (layout (evenTerminal 3 0x07) [0x4F, 0x4B]).top = 0 := by decide
  change _ + row < 3 at earlier
  change 0 + 160 * 3 ≤ 160 * row + 2 * col at behind
  omega

/-- A text that scrolls is not coloured, and one that does not colours the rest of its row. -/
theorem pretty_colours_other_cells :
    ¬ColoursText (evenTerminal 24 0) [0x41, 0x0A] 0x0C (fun _ _ => False) ∧
    ¬ColoursText (evenTerminal 0 0x07) [0x41] 0x0C (fun row col => row = 0 ∧ col = 1) := by
  have low : CursorOnScreen (evenTerminal 24 0) := ⟨by decide, by decide, by decide⟩
  have high : CursorOnScreen (evenTerminal 0 0x07) := ⟨by decide, by decide, by decide⟩
  constructor
  · intro colours
    have colored := colours.text 23 (by decide) 0 (by decide) (by decide)
    have moved := vgaPretty_attribute low (s := [0x41, 0x0A]) (by decide) 0x0C (show 23 < 25 by decide)
      (show 0 < 80 by decide)
    exact absurd (moved.symm.trans colored) (by decide)
  · intro colours
    have kept := colours.kept 0 (by decide) 1 (by decide) (by decide) (by decide) (by decide)
    have behind := vgaPretty_attribute high (s := [0x41]) (by decide) 0x0C (show 0 < 25 by decide)
      (show 1 < 80 by decide)
    exact absurd (behind.symm.trans kept) (by decide)

end Osdev64
