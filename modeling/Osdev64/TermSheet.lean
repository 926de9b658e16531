/-
The terminal as a window on an unbounded sheet.

A text is laid out on a sheet of 80 columns that never ends.  `vga_puts` keeps
the screen equal to the last 25 rows of the sheet down to the cursor, whatever
lay in video memory before and whatever lies behind the screen.
-/

import Osdev64.Term

namespace Osdev64

open Bytes

/-- `vga_puts`, on the bytes from the pointer on; nobody else holds the lock. -/
def vgaPuts (terminal : Terminal) : List Byte → Terminal
  | [] => terminal
  | c :: s => if c = 0 then terminal else vgaPuts (vgaPutc terminal c) s

/-! ### The sheet -/

structure Sheet where
  cells : Nat → Nat → Byte
  row : Nat
  col : Nat

namespace Sheet

def blank : Sheet := ⟨fun _ _ => 0, 0, 0⟩

def nextRow (sheet : Sheet) : Sheet := { sheet with row := sheet.row + 1, col := 0 }

def write (sheet : Sheet) (c : Byte) : Sheet :=
  { sheet with
    cells := fun row col => if row = sheet.row ∧ col = sheet.col then c else sheet.cells row col }

/-- Writing in column 80 goes to the next row at once. -/
def put (sheet : Sheet) (c : Byte) : Sheet :=
  if c = 0x0A then sheet.nextRow
  else if sheet.col + 1 = 80 then (sheet.write c).nextRow
  else { sheet.write c with col := sheet.col + 1 }

def top (sheet : Sheet) : Nat := sheet.row - 24

end Sheet

/-- The characters 0x20 to 0x7E and the newline. -/
def Printable (c : Byte) : Prop := (0x20 ≤ c.toNat ∧ c.toNat ≤ 0x7E) ∨ c = 0x0A

instance : DecidablePred Printable := fun c =>
  inferInstanceAs (Decidable ((0x20 ≤ c.toNat ∧ c.toNat ≤ 0x7E) ∨ c = 0x0A))

/-- The screen is the window of 25 rows that ends with the cursor's row, or the first 25. -/
structure Shows (attrib : BitVec 16) (terminal : Terminal) (sheet : Sheet) : Prop where
  attr : terminal.attrib = attrib
  column : sheet.col < 80
  x : terminal.x.toNat = 2 * sheet.col
  y : sheet.top + terminal.y.toNat = sheet.row
  cell : ∀ row < 25, ∀ col < 80, terminal.vga (160 * row + 2 * col) = sheet.cells (sheet.top + row) col
  color : ∀ row < 25, ∀ col < 80, terminal.vga (160 * row + 2 * col + 1) = attrib.setWidth 8
  below : ∀ row col, sheet.row < row → sheet.cells row col = 0

/-! ### What the loops store -/

namespace Terminal

variable (terminal : Terminal)

theorem storeWord_vga (offset other : Nat) (word : BitVec 16) :
    (terminal.storeWord offset word).vga other =
      if other = offset then word.setWidth 8
      else if other = offset + 1 then word.extractLsb' 8 8
      else terminal.vga other := by
  simp only [storeWord, store, Function.update_apply]
  split_ifs <;> first | rfl | omega

theorem memcpy_coord (target source count : Nat) :
    (terminal.memcpy target source count).toVgaCoord = terminal.toVgaCoord := by
  induction count generalizing target source terminal with
  | zero => rfl
  | succ count ih => exact ih _ _ _

theorem memcpy_vga {target source : Nat} (down : target ≤ source) (count other : Nat) :
    (terminal.memcpy target source count).vga other =
      if target ≤ other ∧ other < target + count then terminal.vga (source + (other - target))
      else terminal.vga other := by
  induction count generalizing target source terminal with
  | zero => rw [memcpy, if_neg (by omega)]
  | succ count ih =>
    rw [memcpy, ih _ (by omega)]
    simp only [store, Function.update_apply]
    by_cases first : other = target
    · rw [if_neg (by omega), if_pos first, if_pos (by omega), first, Nat.sub_self, Nat.add_zero]
    · by_cases inside : target + 1 ≤ other ∧ other < target + 1 + count
      · have next : source + 1 + (other - (target + 1)) = source + (other - target) := by omega
        rw [if_pos inside, if_neg (by omega), if_pos (by omega), next]
      · rw [if_neg inside, if_neg first, if_neg (by omega)]

theorem repStosw_coord (fill : BitVec 16) (target count : Nat) :
    (terminal.repStosw fill target count).toVgaCoord = terminal.toVgaCoord := by
  induction count generalizing target terminal with
  | zero => rfl
  | succ count ih => exact ih _ _

theorem repStosw_vga (fill : BitVec 16) (target count other : Nat) :
    (terminal.repStosw fill target count).vga other =
      if target ≤ other ∧ other < target + 2 * count then
        (if (other - target) % 2 = 0 then fill.setWidth 8 else fill.extractLsb' 8 8)
      else terminal.vga other := by
  induction count generalizing target terminal with
  | zero => rw [repStosw, if_neg (by omega)]
  | succ count ih =>
    rw [repStosw, ih, storeWord_vga]
    split_ifs <;> first | rfl | omega

end Terminal

theorem vgaClearLoop_coord (offset size : Nat) (terminal : Terminal) :
    (vgaClearLoop offset size terminal).toVgaCoord = terminal.toVgaCoord := by
  induction size generalizing offset terminal with
  | zero => rfl
  | succ size ih => exact ih _ _

theorem vgaClearLoop_vga (offset size other : Nat) (terminal : Terminal) :
    (vgaClearLoop offset size terminal).vga other =
      if offset ≤ other ∧ other < offset + 2 * size then
        (if (other - offset) % 2 = 0 then 0 else terminal.attrib.setWidth 8)
      else terminal.vga other := by
  induction size generalizing offset terminal with
  | zero => rw [vgaClearLoop, if_neg (by omega)]
  | succ size ih =>
    rw [vgaClearLoop, ih]
    simp only [Terminal.store, Function.update_apply]
    split_ifs <;> first | rfl | omega

/-! ### One character -/

variable {attrib : BitVec 16} {terminal : Terminal} {sheet : Sheet}

theorem shows_vgaClear (terminal : Terminal) :
    Shows terminal.attrib (vgaClear terminal) Sheet.blank := by
  have attr : (vgaClear terminal).attrib = terminal.attrib := by
    simp only [vgaClear, vgaClearLoop_coord]
  refine ⟨attr, by decide, rfl, rfl, ?_, ?_, fun _ _ _ => rfl⟩
  · intro row inside col within
    simp only [vgaClear, vgaClearLoop_vga]
    rw [if_pos (by omega), if_pos (by omega)]
    rfl
  · intro row inside col within
    simp only [vgaClear, vgaClearLoop_vga]
    rw [if_pos (by omega), if_neg (by omega)]

theorem cellWord {c : Byte} (printable : c.toNat ≤ 0x7E) (attrib : BitVec 16) :
    (c.signExtend 16 ||| attrib <<< 8).setWidth 8 = c ∧
      (c.signExtend 16 ||| attrib <<< 8).extractLsb' 8 8 = attrib.setWidth 8 := by
  have positive : c.msb = false := by
    rw [BitVec.msb_eq_false_iff_two_mul_lt]
    omega
  rw [BitVec.signExtend_eq_setWidth_of_msb_false positive]
  constructor
  · ext i inside
    simp
  · ext i inside
    simp
    omega

/-- Scrolling by one row copies twice the rows of the screen and then blanks the last. -/
theorem vgaScroll_eq (bottom : terminal.y = 25) :
    vgaScroll terminal = vgaUpdateCursor
      { (terminal.memcpy 0 160 7680).repStosw (terminal.attrib <<< 8) (24 * 160) (160 / 2) with
        y := 24 } := by
  have temp : ((terminal.y - 24).setWidth 8 : BitVec 8) = 1 := by
    rw [bottom]
    decide
  have length : (BitVec.ofInt 64 ((25 - (BitVec.toNat (1 : BitVec 8) : Int)) * 160 * 2)).toNat = 7680 := by
    decide
  have source : BitVec.toNat (1 : BitVec 8) * 160 = 160 := by decide
  unfold vgaScroll
  rw [if_pos (by rw [bottom]; decide)]
  simp only [temp, Terminal.memsetw, Terminal.memcpy_coord]
  rw [length, source]

theorem vgaScroll_coord (bottom : terminal.y = 25) :
    (vgaScroll terminal).toVgaCoord = { terminal.toVgaCoord with y := 24 } := by
  rw [vgaScroll_eq bottom]
  simp only [vgaUpdateCursor, vgaMoveCursor, Terminal.repStosw_coord, Terminal.memcpy_coord]

theorem vgaScroll_vga (bottom : terminal.y = 25) {offset : Nat} (inside : offset < 4000) :
    (vgaScroll terminal).vga offset =
      if offset < 3840 then terminal.vga (160 + offset)
      else if offset % 2 = 0 then 0 else terminal.attrib.setWidth 8 := by
  obtain ⟨low, high⟩ : ((0 : Byte).signExtend 16 ||| terminal.attrib <<< 8).setWidth 8 = (0 : Byte) ∧
      _ := cellWord (by decide) terminal.attrib
  rw [show ((0 : Byte).signExtend 16 ||| terminal.attrib <<< 8) = terminal.attrib <<< 8 by simp]
    at low high
  rw [vgaScroll_eq bottom]
  change ((terminal.memcpy 0 160 7680).repStosw (terminal.attrib <<< 8) (24 * 160) (160 / 2)).vga
    offset = _
  rw [Terminal.repStosw_vga, Terminal.memcpy_vga _ (by omega), low, high]
  split_ifs <;> first | rfl | omega

/-! ### One byte of every cell -/

/-- The first or the second byte of a cell with a character in it. -/
def cellByte (p : Nat) (c : Byte) (attrib : BitVec 16) : Byte := if p = 0 then c else attrib.setWidth 8

/-- `put`, with another byte written for the character. -/
def Sheet.putByte (sheet : Sheet) (c byte : Byte) : Sheet :=
  if c = 0x0A then sheet.nextRow
  else if sheet.col + 1 = 80 then (sheet.write byte).nextRow
  else { sheet.write byte with col := sheet.col + 1 }

/-- The first or the second bytes of the cells, as a window on a sheet.  The rows that have not been
in view are blank. -/
structure Window (p : Nat) (terminal : Terminal) (sheet : Sheet) : Prop where
  column : sheet.col < 80
  x : terminal.x.toNat = 2 * sheet.col
  y : sheet.top + terminal.y.toNat = sheet.row
  byte : ∀ row < 25, ∀ col < 80,
    terminal.vga (160 * row + 2 * col + p) = sheet.cells (sheet.top + row) col
  fresh : ∀ row col, sheet.row < row → 24 < row → sheet.cells row col = cellByte p 0 terminal.attrib

namespace Window

variable {p : Nat}

theorem write (window : Window p terminal sheet) (half : p < 2) {c : Byte} (printable : c.toNat ≤ 0x7E) :
    Window p (vgaKputc c terminal.x.toNat terminal.y.toNat terminal)
      (sheet.write (cellByte p c terminal.attrib)) := by
  have x := window.x
  have y := window.y
  have column := window.column
  obtain ⟨low, high⟩ := cellWord printable terminal.attrib
  refine ⟨column, x, y, ?_, ?_⟩
  · intro row inside col within
    unfold vgaKputc cellByte
    rw [Terminal.storeWord_vga, low, high, window.byte row inside col within]
    change _ = if sheet.top + row = sheet.row ∧ col = sheet.col then _ else _
    split_ifs <;> first | rfl | omega
  · intro row col under bottom
    change (if row = sheet.row ∧ col = sheet.col then _ else sheet.cells row col) = _
    rw [if_neg (by change sheet.row < row at under; omega)]
    exact window.fresh row col under bottom

theorem nextRow (window : Window p terminal sheet) (half : p < 2) :
    Window p (vgaScroll { terminal with y := terminal.y + 1, x := 0 }) sheet.nextRow := by
  have y := window.y
  have sum : (terminal.y + 1).toNat = (terminal.y.toNat + 1) % 2 ^ 16 := BitVec.toNat_add _ 1
  unfold Sheet.top at y
  by_cases above : sheet.row < 24
  · have same : sheet.nextRow.top = sheet.top := by
      change sheet.row + 1 - 24 = sheet.row - 24
      omega
    rw [vgaScroll_of_lt (by change (terminal.y + 1).toNat < 25; omega)]
    refine ⟨Nat.zero_lt_succ 79, rfl, ?_, ?_, ?_⟩
    · change sheet.row + 1 - 24 + (terminal.y + 1).toNat = sheet.row + 1
      omega
    · rw [same]
      exact window.byte
    · intro row col under bottom
      exact window.fresh row col (Nat.lt_of_succ_lt under) bottom
  · have bottom : terminal.y + 1 = 25 := by
      apply BitVec.eq_of_toNat_eq
      change (terminal.y + 1).toNat = 25
      omega
    have down : sheet.nextRow.top = sheet.top + 1 := by
      change sheet.row + 1 - 24 = sheet.row - 24 + 1
      omega
    have last : sheet.nextRow.top + 24 = sheet.row + 1 := by
      change sheet.row + 1 - 24 + 24 = sheet.row + 1
      omega
    have coord : (vgaScroll { terminal with y := terminal.y + 1, x := 0 }).toVgaCoord =
      ⟨terminal.attrib, 0, 24⟩ := vgaScroll_coord bottom
    refine ⟨Nat.zero_lt_succ 79, ?_, ?_, ?_, ?_⟩
    · rw [coord]
      rfl
    · rw [coord]
      exact last
    · intro row inside col within
      rw [vgaScroll_vga bottom (by omega)]
      by_cases kept : row < 24
      · rw [if_pos (by omega),
          show 160 + (160 * row + 2 * col + p) = 160 * (row + 1) + 2 * col + p by omega,
          down, show sheet.top + 1 + row = sheet.top + (row + 1) by omega]
        exact window.byte (row + 1) (by omega) col within
      · -- the row that has come into view is blank on the sheet as well
        have lastRow : row = 24 := by omega
        have blank := window.fresh (sheet.row + 1) col (Nat.lt_succ_self _) (by omega)
        unfold cellByte at blank
        rw [if_neg (by omega), lastRow, last]
        refine Eq.trans ?_ blank.symm
        split_ifs <;> first | rfl | omega
    · intro row col under below
      rw [coord]
      exact window.fresh row col (Nat.lt_of_succ_lt under) below

end Window

theorem vgaPutc_character (terminal : Terminal) {c : Byte} (low : 0x20 ≤ c.toNat) :
    vgaPutc terminal c = vgaScroll (wrapRow
      { vgaKputc c terminal.x.toNat terminal.y.toNat terminal with x := terminal.x + 2 }) := by
  have other (control : Byte) (small : control.toNat < 0x20) : c ≠ control := by
    rintro rfl
    omega
  unfold vgaPutc
  rw [if_neg (other _ (by decide)), if_neg (other _ (by decide)), if_neg (other _ (by decide))]
  rfl

theorem Window.vgaPutc {p : Nat} (window : Window p terminal sheet) (half : p < 2) {c : Byte}
    (printable : Printable c) :
    Window p (vgaPutc terminal c) (sheet.putByte c (cellByte p c terminal.attrib)) := by
  unfold Sheet.putByte
  by_cases newline : c = 0x0A
  · rw [if_pos newline, newline]
    exact window.nextRow half
  · obtain ⟨low, high⟩ := printable.resolve_right newline
    have written := window.write half high
    have x := window.x
    have y := window.y
    have column := window.column
    have sum : (terminal.x + 2).toNat = (terminal.x.toNat + 2) % 2 ^ 16 := BitVec.toNat_add _ 2
    rw [vgaPutc_character terminal low, if_neg newline]
    unfold wrapRow
    by_cases full : sheet.col + 1 = 80
    · rw [if_pos (show 160 ≤ (terminal.x + 2).toNat by omega), if_pos full]
      exact written.nextRow half
    · have onScreen : terminal.y.toNat < 25 := by
        unfold Sheet.top at y
        omega
      rw [if_neg (show ¬160 ≤ (terminal.x + 2).toNat by omega), if_neg full,
        vgaScroll_of_lt (by exact onScreen)]
      refine ⟨?_, ?_, written.y, written.byte, written.fresh⟩
      · change sheet.col + 1 < 80
        omega
      · change (terminal.x + 2).toNat = 2 * (sheet.col + 1)
        omega

theorem vgaScroll_attrib (terminal : Terminal) : (vgaScroll terminal).attrib = terminal.attrib := by
  unfold vgaScroll
  split
  · simp only [vgaUpdateCursor, vgaMoveCursor, Terminal.memsetw, Terminal.repStosw_coord,
      Terminal.memcpy_coord]
  · rfl

theorem vgaPutc_attrib (terminal : Terminal) {c : Byte} (printable : Printable c) :
    (vgaPutc terminal c).attrib = terminal.attrib := by
  rcases printable with character | newline
  · rw [vgaPutc_character terminal character.1, vgaScroll_attrib]
    unfold wrapRow
    split <;> rfl
  · rw [newline]
    exact vgaScroll_attrib _

theorem Sheet.put_below {c : Byte} (below : ∀ row col, sheet.row < row → sheet.cells row col = 0)
    (row col : Nat) (under : (sheet.put c).row < row) : (sheet.put c).cells row col = 0 := by
  have written (byte : Byte) (further : sheet.row < row) : (sheet.write byte).cells row col = 0 := by
    change (if row = sheet.row ∧ col = sheet.col then byte else sheet.cells row col) = 0
    rw [if_neg (by omega)]
    exact below row col further
  unfold Sheet.put at under ⊢
  split_ifs at under ⊢ with newline full
  · exact below row col (Nat.lt_of_succ_lt under)
  · exact written c (Nat.lt_of_succ_lt under)
  · exact written c under

theorem Sheet.putByte_const (sheet : Sheet) (c byte : Byte) :
    Sheet.putByte { sheet with cells := fun _ _ => byte } c byte =
      { sheet.put c with cells := fun _ _ => byte } := by
  have written : Sheet.write { sheet with cells := fun _ _ => byte } byte =
      { sheet with cells := fun _ _ => byte } := by
    unfold Sheet.write
    simp only [ite_self]
  unfold Sheet.putByte Sheet.put
  rw [written]
  split_ifs <;> rfl

theorem Shows.vgaPutc (shows : Shows attrib terminal sheet) {c : Byte} (printable : Printable c) :
    Shows attrib (vgaPutc terminal c) (sheet.put c) := by
  have attr := shows.attr
  have characters : Window 0 terminal sheet :=
    ⟨shows.column, shows.x, shows.y, shows.cell, fun row col under _ => shows.below row col under⟩
  have colors : Window 1 terminal { sheet with cells := fun _ _ => attrib.setWidth 8 } :=
    ⟨shows.column, shows.x, shows.y, shows.color, fun _ _ _ _ => by rw [attr]; rfl⟩
  have first : Window 0 (Osdev64.vgaPutc terminal c) (sheet.put c) :=
    characters.vgaPutc (by decide) printable
  have second := colors.vgaPutc (by decide) printable
  rw [attr] at second
  change Window 1 _ (Sheet.putByte _ c (attrib.setWidth 8)) at second
  rw [Sheet.putByte_const] at second
  exact ⟨(vgaPutc_attrib terminal printable).trans attr, first.column, first.x, first.y, first.byte,
    second.byte, Sheet.put_below shows.below⟩

theorem vgaPutc_cursor {c : Byte} (printable : Printable c) :
    (vgaPutc terminal c).cursor = (vgaPutc terminal c).y * 80 + (vgaPutc terminal c).x / 2 := by
  rcases printable with character | newline
  · rw [vgaPutc_character terminal character.1]
    rfl
  · rw [newline]
    rfl

/-! ### Whole texts -/

theorem vgaPuts_eq_foldl {text : List Byte} (printable : ∀ c ∈ text, Printable c) :
    vgaPuts terminal text = text.foldl vgaPutc terminal := by
  induction text generalizing terminal with
  | nil => rfl
  | cons c text ih =>
    have nonzero : c ≠ 0 := by
      rintro rfl
      exact absurd (printable 0 List.mem_cons_self) (by decide)
    rw [vgaPuts, if_neg nonzero]
    exact ih fun c inside => printable c (List.mem_cons_of_mem _ inside)

theorem foldl_vgaPuts_eq {texts : List (List Byte)}
    (printable : ∀ text ∈ texts, ∀ c ∈ text, Printable c) :
    texts.foldl vgaPuts terminal = texts.flatten.foldl vgaPutc terminal := by
  induction texts generalizing terminal with
  | nil => rfl
  | cons text texts ih =>
    rw [List.foldl_cons, vgaPuts_eq_foldl (printable text List.mem_cons_self),
      ih fun text inside => printable text (List.mem_cons_of_mem _ inside),
      List.flatten_cons, List.foldl_append]

theorem Shows.foldl {text : List Byte} (printable : ∀ c ∈ text, Printable c)
    (shows : Shows attrib terminal sheet) :
    Shows attrib (text.foldl Osdev64.vgaPutc terminal) (text.foldl Sheet.put sheet) := by
  induction text generalizing terminal sheet with
  | nil => exact shows
  | cons c text ih =>
    exact ih (fun c inside => printable c (List.mem_cons_of_mem _ inside))
      (shows.vgaPutc (printable c List.mem_cons_self))

theorem foldl_vgaPutc_cursor {text : List Byte} (printable : ∀ c ∈ text, Printable c)
    (nonempty : text ≠ []) :
    (text.foldl vgaPutc terminal).cursor =
      (text.foldl vgaPutc terminal).y * 80 + (text.foldl vgaPutc terminal).x / 2 := by
  rw [← List.dropLast_concat_getLast nonempty, List.foldl_append]
  exact vgaPutc_cursor (printable _ (List.getLast_mem nonempty))

theorem Shows.cursor (shows : Shows attrib terminal sheet)
    (updated : terminal.cursor = terminal.y * 80 + terminal.x / 2) :
    terminal.cursor.toNat = 80 * (sheet.row - sheet.top) + sheet.col := by
  have x := shows.x
  have y := shows.y
  have column := shows.column
  unfold Sheet.top at y ⊢
  rw [updated, BitVec.toNat_add, BitVec.toNat_mul, BitVec.toNat_udiv]
  change (terminal.y.toNat * 80 % 2 ^ 16 + terminal.x.toNat / 2) % 2 ^ 16 = _
  omega

/-- After `vga_clear`, texts of printable characters and newlines leave the window of 25 rows
that ends with the cursor's row, each blank cell zero, with the attribute in every cell and the
cursor in its place.  The bytes of the screen depend on the texts and the attribute alone. -/
theorem vgaPuts_shows_last_rows (terminal : Terminal) (texts : List (List Byte))
    (printable : ∀ text ∈ texts, ∀ c ∈ text, Printable c) :
    let sheet := texts.flatten.foldl Sheet.put Sheet.blank
    let shown := texts.foldl vgaPuts (vgaClear terminal)
    (∀ row < 25, ∀ col < 80,
      shown.vga (160 * row + 2 * col) = sheet.cells (sheet.row - 24 + row) col ∧
      shown.vga (160 * row + 2 * col + 1) = terminal.attrib.setWidth 8) ∧
    shown.x.toNat = 2 * sheet.col ∧ shown.y.toNat = sheet.row - (sheet.row - 24) ∧
    (texts.flatten ≠ [] →
      shown.cursor.toNat = 80 * (sheet.row - (sheet.row - 24)) + sheet.col) ∧
    ∀ other : Terminal, other.attrib = terminal.attrib → ∀ offset < 4000,
      (texts.foldl vgaPuts (vgaClear other)).vga offset = shown.vga offset := by
  intro sheet shown
  have flat : ∀ c ∈ texts.flatten, Printable c := by
    intro c inside
    obtain ⟨text, member, here⟩ := List.mem_flatten.1 inside
    exact printable text member c here
  have shows (start : Terminal) :
      Shows start.attrib (texts.foldl vgaPuts (vgaClear start)) sheet := by
    rw [foldl_vgaPuts_eq printable]
    exact (shows_vgaClear start).foldl flat
  have mine : Shows terminal.attrib shown sheet := shows terminal
  refine ⟨?_, mine.x, ?_, ?_, ?_⟩
  · intro row inside col within
    exact ⟨mine.cell row inside col within, mine.color row inside col within⟩
  · have y := mine.y
    unfold Sheet.top at y
    omega
  · intro nonempty
    have same : shown = texts.flatten.foldl vgaPutc (vgaClear terminal) := foldl_vgaPuts_eq printable
    apply mine.cursor
    rw [same]
    exact foldl_vgaPutc_cursor flat nonempty
  · intro other same offset inside
    have yours := shows other
    have split : offset = 160 * (offset / 160) + 2 * (offset % 160 / 2) ∨
        offset = 160 * (offset / 160) + 2 * (offset % 160 / 2) + 1 := by omega
    have row : offset / 160 < 25 := by omega
    have col : offset % 160 / 2 < 80 := by omega
    rcases split with even | odd
    · rw [even, yours.cell _ row _ col, mine.cell _ row _ col]
    · rw [odd, yours.color _ row _ col, mine.color _ row _ col, same]

def scrollingTexts : List (List Byte) := [[0x48, 0x69, 0x0A, 0x21], List.replicate 24 0x0A ++ [0x3F]]

theorem scrollingTexts_sheet :
    let sheet := scrollingTexts.flatten.foldl Sheet.put Sheet.blank
    sheet.row = 25 ∧ sheet.col = 1 ∧ sheet.cells 1 0 = 0x21 ∧ sheet.cells 25 0 = 0x3F := by
  decide +kernel

/-- Two calls on a screen full of other bytes; the second scrolls the first row off the screen. -/
theorem vgaPuts_shows_scrolled :
    let shown := scrollingTexts.foldl vgaPuts (vgaClear ⟨⟨0x7, 6, 3⟩, fun _ => 0xFF, 0, []⟩)
    shown.vga 0 = 0x21 ∧ shown.vga 3840 = 0x3F ∧ shown.x.toNat = 2 ∧ shown.y.toNat = 24 ∧
      shown.cursor.toNat = 1921 := by
  have window := vgaPuts_shows_last_rows ⟨⟨0x7, 6, 3⟩, fun _ => 0xFF, 0, []⟩ scrollingTexts
    (by decide +kernel)
  have laid := scrollingTexts_sheet
  dsimp only at window laid ⊢
  generalize scrollingTexts.flatten.foldl Sheet.put Sheet.blank = sheet at window laid
  generalize scrollingTexts.foldl vgaPuts (vgaClear ⟨⟨0x7, 6, 3⟩, fun _ => 0xFF, 0, []⟩) = shown at window ⊢
  obtain ⟨row, col, first, last⟩ := laid
  obtain ⟨cells, x, y, cursor, _⟩ := window
  rw [row] at cells y cursor
  rw [col] at x cursor
  exact ⟨(cells 0 (by decide) 0 (by decide)).1.trans first, (cells 24 (by decide) 0 (by decide)).1.trans last,
    x, y, cursor (by decide)⟩

end Osdev64
