/-
The text terminal of `src/term.c`.

The screen is 25 rows of 80 cells, a cell being a character and an attribute
byte, so that `x` counts bytes and goes up by two.  All stores are to offsets
from the pointer `vga`; the model keeps the offsets that were stored to.

Three characters leave the screen: a backspace in the first column, a tab that
wraps on the last row, which moves the cursor down without scrolling, and every
character that makes `vga_scroll` scroll, whose `memcpy` copies twice the rows.
-/

import Osdev64.Lib.Bytes
import Osdev64.Lib.Runs

namespace Osdev64

open Bytes Runs

/-- `struct vga_coord`, apart from its constant pointer. -/
structure VgaCoord where
  attrib : BitVec 16
  x : BitVec 16
  y : BitVec 16

/-- The bytes from `vga` on, which do not end with the screen, and the position in the cursor
registers of the display. -/
structure Terminal extends VgaCoord where
  vga : Memory
  cursor : BitVec 16
  stores : List Nat

namespace Terminal

def store (terminal : Terminal) (offset : Nat) (byte : Byte) : Terminal :=
  { terminal with
    vga := Function.update terminal.vga offset byte
    stores := offset :: terminal.stores }

def storeWord (terminal : Terminal) (offset : Nat) (word : BitVec 16) : Terminal :=
  (terminal.store offset (word.setWidth 8)).store (offset + 1) (word.extractLsb' 8 8)

/-- `memcpy`, on offsets. -/
def memcpy (target source : Nat) : Nat → Terminal → Terminal
  | 0, terminal => terminal
  | count + 1, terminal =>
    memcpy (target + 1) (source + 1) count (terminal.store target (terminal.vga source))

/-- `rep stosw`. -/
def repStosw (fill : BitVec 16) (target : Nat) : Nat → Terminal → Terminal
  | 0, terminal => terminal
  | count + 1, terminal => repStosw fill (target + 2) count (terminal.storeWord target fill)

/-- `memsetw` counts bytes. -/
def memsetw (target : Nat) (fill : BitVec 16) (count : Nat) (terminal : Terminal) : Terminal :=
  repStosw fill target (count / 2) terminal

end Terminal

def vgaClearLoop (offset : Nat) : Nat → Terminal → Terminal
  | 0, terminal => terminal
  | size + 1, terminal =>
    let terminal := terminal.store offset 0
    let terminal := terminal.store (offset + 1) (terminal.attrib.setWidth 8)
    vgaClearLoop (offset + 2) size terminal

def vgaClear (terminal : Terminal) : Terminal :=
  { vgaClearLoop 0 (80 * 25) terminal with y := 0, x := 0 }

def vgaMoveCursor (x y : BitVec 16) (terminal : Terminal) : Terminal :=
  { terminal with cursor := y * 80 + x }

def vgaUpdateCursor (terminal : Terminal) : Terminal :=
  vgaMoveCursor (terminal.x / 2) terminal.y terminal

/-- The length given to `memcpy` is a signed product, converted to `size_t`. -/
def vgaScroll (terminal : Terminal) : Terminal :=
  let terminal :=
    if 25 ≤ terminal.y.toNat then
      let temp : BitVec 8 := (terminal.y - 24).setWidth 8
      let length : BitVec 64 := BitVec.ofInt 64 ((25 - temp.toNat) * 160 * 2)
      let terminal := terminal.memcpy 0 (temp.toNat * 160) length.toNat
      let terminal := terminal.memsetw (24 * 160) (terminal.attrib <<< 8) 160
      { terminal with y := 24 }
    else terminal
  vgaUpdateCursor terminal

/-- `char` is signed, so a character above 0x7F sets the whole attribute byte. -/
def vgaKputc (c : Byte) (x y : Nat) (terminal : Terminal) : Terminal :=
  terminal.storeWord (x + y * 160) (c.signExtend 16 ||| terminal.attrib <<< 8)

/-- `while (x % 16) x++`, for the rounds it is given. -/
def tabLoop : Nat → BitVec 16 → BitVec 16
  | 0, x => x
  | fuel + 1, x => if x % 16 = 0 then x else tabLoop fuel (x + 1)

/-- The end of a row. -/
def wrapRow (terminal : Terminal) : Terminal :=
  if 160 ≤ terminal.x.toNat then { terminal with x := 0, y := terminal.y + 1 } else terminal

def vgaPutc (terminal : Terminal) (c : Byte) : Terminal :=
  if c = 0x0A then
    vgaScroll { terminal with y := terminal.y + 1, x := 0 }
  else if c = 0x08 then
    let terminal := { terminal with x := terminal.x - 2 }
    vgaKputc 0x20 terminal.x.toNat terminal.y.toNat terminal
  else if c = 0x09 then
    wrapRow { terminal with x := tabLoop 15 terminal.x + 2 }
  else
    let terminal := vgaKputc c terminal.x.toNat terminal.y.toNat terminal
    vgaScroll (wrapRow { terminal with x := terminal.x + 2 })

/-! ### The loops -/

private theorem mod_sixteen_iff (x : BitVec 16) : x % 16 = 0 ↔ x.toNat % 16 = 0 := by
  constructor
  · intro aligned
    have value := congrArg BitVec.toNat aligned
    rwa [BitVec.toNat_umod] at value
  · intro aligned
    apply BitVec.eq_of_toNat_eq
    rw [BitVec.toNat_umod]
    exact aligned

theorem tabLoop_toNat (fuel : Nat) (x : BitVec 16) (enough : (16 - x.toNat % 16) % 16 ≤ fuel) :
    (tabLoop fuel x).toNat = (x.toNat + 15) / 16 * 16 % 2 ^ 16 := by
  have room := x.isLt
  induction fuel generalizing x with
  | zero =>
    simp only [tabLoop]
    omega
  | succ fuel ih =>
    unfold tabLoop
    by_cases aligned : x % 16 = 0
    · rw [if_pos aligned]
      have multiple := (mod_sixteen_iff x).mp aligned
      omega
    · rw [if_neg aligned]
      have between : x.toNat % 16 ≠ 0 := fun zero => aligned ((mod_sixteen_iff x).mpr zero)
      have next : (x + 1).toNat = (x.toNat + 1) % 2 ^ 16 := BitVec.toNat_add x 1
      have closer : (16 - (x + 1).toNat % 16) % 16 ≤ fuel := by
        rw [next]
        omega
      rw [ih (x + 1) closer (x + 1).isLt, next]
      omega

namespace Terminal

variable (terminal : Terminal)

theorem mem_storeWord_stores {other : Nat} (offset : Nat) (word : BitVec 16) :
    other ∈ (terminal.storeWord offset word).stores ↔
      other ∈ terminal.stores ∨ (offset ≤ other ∧ other < offset + 2) := by
  simp only [storeWord, store, List.mem_cons]
  grind

theorem mem_memcpy_stores {other : Nat} (target source count : Nat) :
    other ∈ (terminal.memcpy target source count).stores ↔
      other ∈ terminal.stores ∨ (target ≤ other ∧ other < target + count) := by
  induction count generalizing target source terminal with
  | zero =>
    simp only [memcpy]
    grind
  | succ count ih =>
    simp only [memcpy, ih, store, List.mem_cons]
    grind

theorem mem_repStosw_stores {other : Nat} (fill : BitVec 16) (target count : Nat) :
    other ∈ (terminal.repStosw fill target count).stores ↔
      other ∈ terminal.stores ∨ (target ≤ other ∧ other < target + 2 * count) := by
  induction count generalizing target terminal with
  | zero =>
    simp only [repStosw]
    grind
  | succ count ih =>
    simp only [repStosw, ih, mem_storeWord_stores]
    grind

end Terminal

theorem mem_vgaClearLoop_stores {other : Nat} (offset size : Nat) (terminal : Terminal) :
    other ∈ (vgaClearLoop offset size terminal).stores ↔
      other ∈ terminal.stores ∨ (offset ≤ other ∧ other < offset + 2 * size) := by
  induction size generalizing offset terminal with
  | zero =>
    simp only [vgaClearLoop]
    grind
  | succ size ih =>
    simp only [vgaClearLoop, ih, Terminal.store, List.mem_cons]
    grind

/-! ### Staying on the screen -/

/-- The cursor is on a cell of the screen, and every store was to a byte of the screen. -/
structure OnScreen (terminal : Terminal) : Prop where
  even : terminal.x.toNat % 2 = 0
  column : terminal.x.toNat < 160
  row : terminal.y.toNat < 25
  stores : ∀ offset ∈ terminal.stores, offset < 4000

/-- A backspace finds a character in its row, and a character that leaves its row finds a row
below. -/
def Stays (terminal : Terminal) (c : Byte) : Prop :=
  if c = 0x0A then terminal.y.toNat < 24
  else if c = 0x08 then terminal.x ≠ 0
  else if c = 0x09 then terminal.x.toNat ≤ 144 ∨ terminal.y.toNat < 24
  else terminal.x.toNat < 158 ∨ terminal.y.toNat < 24

theorem onScreen_vgaClear (coord : VgaCoord) (vga : Memory) (cursor : BitVec 16) :
    OnScreen (vgaClear ⟨coord, vga, cursor, []⟩) := by
  have x : (vgaClear ⟨coord, vga, cursor, []⟩).x = 0 := rfl
  have y : (vgaClear ⟨coord, vga, cursor, []⟩).y = 0 := rfl
  refine ⟨by rw [x]; rfl, by rw [x]; decide, by rw [y]; decide, ?_⟩
  intro offset stored
  simp only [vgaClear, mem_vgaClearLoop_stores, List.not_mem_nil, false_or] at stored
  exact stored.2

variable {terminal : Terminal}

theorem vgaScroll_of_lt (above : terminal.y.toNat < 25) :
    vgaScroll terminal = vgaUpdateCursor terminal := by
  unfold vgaScroll
  rw [if_neg (by omega)]

theorem onScreen_vgaUpdateCursor : OnScreen (vgaUpdateCursor terminal) ↔ OnScreen terminal :=
  ⟨fun on => ⟨on.even, on.column, on.row, on.stores⟩,
    fun on => ⟨on.even, on.column, on.row, on.stores⟩⟩

theorem mem_vgaScroll_stores (bottom : terminal.y = 25) : 4000 ∈ (vgaScroll terminal).stores := by
  unfold vgaScroll
  rw [if_pos (by rw [bottom]; decide)]
  change 4000 ∈ (Terminal.repStosw _ (24 * 160) (160 / 2) _).stores
  rw [Terminal.mem_repStosw_stores, Terminal.mem_memcpy_stores, bottom]
  exact Or.inl (Or.inr (by decide))

theorem onScreen_vgaScroll_iff (terminal : Terminal) (even : terminal.x.toNat % 2 = 0)
    (column : terminal.x.toNat < 160) (row : terminal.y.toNat ≤ 25)
    (stores : ∀ offset ∈ terminal.stores, offset < 4000) :
    OnScreen (vgaScroll terminal) ↔ terminal.y.toNat < 25 := by
  constructor
  · intro on
    by_contra below
    have bottom : terminal.y = 25 := BitVec.eq_of_toNat_eq (show terminal.y.toNat = 25 by omega)
    exact absurd (on.stores 4000 (mem_vgaScroll_stores bottom)) (by decide)
  · intro above
    rw [vgaScroll_of_lt above, onScreen_vgaUpdateCursor]
    exact ⟨even, column, above, stores⟩

private theorem succ_toNat {y : BitVec 16} (small : y.toNat < 25) : (y + 1).toNat = y.toNat + 1 := by
  have sum : (y + 1).toNat = (y.toNat + 1) % 2 ^ 16 := BitVec.toNat_add y 1
  omega

private theorem two_toNat {x : BitVec 16} (small : x.toNat < 160) : (x + 2).toNat = x.toNat + 2 := by
  have sum : (x + 2).toNat = (x.toNat + 2) % 2 ^ 16 := BitVec.toNat_add x 2
  omega

theorem onScreen_nextRow_iff (terminal : Terminal) (row : terminal.y.toNat < 25)
    (stores : ∀ offset ∈ terminal.stores, offset < 4000) :
    OnScreen (vgaScroll { terminal with y := terminal.y + 1, x := 0 }) ↔ terminal.y.toNat < 24 := by
  have down := succ_toNat row
  have within : (terminal.y + 1).toNat ≤ 25 := by omega
  have scrolled := onScreen_vgaScroll_iff { terminal with y := terminal.y + 1, x := 0 } rfl
    (Nat.zero_lt_succ 159) within stores
  refine scrolled.trans ?_
  change (terminal.y + 1).toNat < 25 ↔ _
  omega

theorem vgaKputc_stores (terminal : Terminal) (c : Byte) {x y : Nat} (even : x % 2 = 0)
    (column : x < 160) (row : y < 25) (stores : ∀ offset ∈ terminal.stores, offset < 4000) :
    ∀ offset ∈ (vgaKputc c x y terminal).stores, offset < 4000 := by
  intro offset stored
  unfold vgaKputc at stored
  rcases (terminal.mem_storeWord_stores _ _).mp stored with before | here
  · exact stores offset before
  · omega

theorem onScreen_backspace_iff (on : OnScreen terminal) :
    OnScreen (vgaPutc terminal 0x08) ↔ terminal.x ≠ 0 := by
  have value : (terminal.x - 2).toNat = (2 ^ 16 - 2 + terminal.x.toNat) % 2 ^ 16 :=
    BitVec.toNat_sub terminal.x 2
  have even := on.even
  have column := on.column
  constructor
  · intro after first
    have before : terminal.x.toNat = 0 := congrArg BitVec.toNat first
    have wrapped : (terminal.x - 2).toNat < 160 := after.column
    omega
  · intro inside
    have positive : terminal.x.toNat ≠ 0 := fun zero => inside (BitVec.eq_of_toNat_eq zero)
    have back : (terminal.x - 2).toNat = terminal.x.toNat - 2 := by omega
    have backEven : (terminal.x - 2).toNat % 2 = 0 := by omega
    have backColumn : (terminal.x - 2).toNat < 160 := by omega
    exact ⟨backEven, backColumn, on.row,
      vgaKputc_stores { terminal with x := terminal.x - 2 } 0x20 backEven backColumn on.row on.stores⟩

theorem onScreen_tab_iff (on : OnScreen terminal) :
    OnScreen (vgaPutc terminal 0x09) ↔ terminal.x.toNat ≤ 144 ∨ terminal.y.toNat < 24 := by
  have column := on.column
  have row := on.row
  have down := succ_toNat row
  have stop := tabLoop_toNat 15 terminal.x (by omega)
  have sum : (tabLoop 15 terminal.x + 2).toNat = ((tabLoop 15 terminal.x).toNat + 2) % 2 ^ 16 :=
    BitVec.toNat_add _ _
  have next : (tabLoop 15 terminal.x + 2).toNat = (terminal.x.toNat + 15) / 16 * 16 + 2 := by omega
  change OnScreen (wrapRow { terminal with x := tabLoop 15 terminal.x + 2 }) ↔ _
  unfold wrapRow
  by_cases inside : terminal.x.toNat ≤ 144
  · rw [if_neg (show ¬160 ≤ (tabLoop 15 terminal.x + 2).toNat by omega)]
    refine iff_of_true ⟨?_, ?_, row, on.stores⟩ (Or.inl inside)
    · change (tabLoop 15 terminal.x + 2).toNat % 2 = 0
      omega
    · change (tabLoop 15 terminal.x + 2).toNat < 160
      omega
  · rw [if_pos (show 160 ≤ (tabLoop 15 terminal.x + 2).toNat by omega)]
    constructor
    · intro after
      have below : (terminal.y + 1).toNat < 25 := after.row
      omega
    · intro above
      refine ⟨rfl, Nat.zero_lt_succ _, ?_, on.stores⟩
      change (terminal.y + 1).toNat < 25
      omega

theorem onScreen_character_iff (on : OnScreen terminal) (c : Byte) :
    OnScreen (vgaScroll (wrapRow
      { vgaKputc c terminal.x.toNat terminal.y.toNat terminal with x := terminal.x + 2 })) ↔
      terminal.x.toNat < 158 ∨ terminal.y.toNat < 24 := by
  have even := on.even
  have column := on.column
  have next := two_toNat column
  have written := vgaKputc_stores terminal c on.even on.column on.row on.stores
  unfold wrapRow
  by_cases inside : terminal.x.toNat < 158
  · rw [if_neg (show ¬160 ≤ (terminal.x + 2).toNat by omega)]
    have nextEven : (terminal.x + 2).toNat % 2 = 0 := by omega
    have nextColumn : (terminal.x + 2).toNat < 160 := by omega
    have scrolled := onScreen_vgaScroll_iff
      { vgaKputc c terminal.x.toNat terminal.y.toNat terminal with x := terminal.x + 2 }
      nextEven nextColumn (Nat.le_of_lt on.row) written
    exact iff_of_true (scrolled.mpr on.row) (Or.inl inside)
  · rw [if_pos (show 160 ≤ (terminal.x + 2).toNat by omega)]
    have wrapped := onScreen_nextRow_iff (vgaKputc c terminal.x.toNat terminal.y.toNat terminal)
      on.row written
    exact wrapped.trans (or_iff_right inside).symm

/-- From a cursor on the screen, a character keeps to the screen exactly when it stays. -/
theorem onScreen_vgaPutc_iff (c : Byte) (on : OnScreen terminal) :
    OnScreen (vgaPutc terminal c) ↔ Stays terminal c := by
  unfold Stays
  split_ifs with newline backspace tab
  · subst newline
    exact onScreen_nextRow_iff terminal on.row on.stores
  · subst backspace
    exact onScreen_backspace_iff on
  · subst tab
    exact onScreen_tab_iff on
  · unfold vgaPutc
    rw [if_neg newline, if_neg backspace, if_neg tab]
    exact onScreen_character_iff on c

/-- A text printed on a cleared screen keeps to the screen exactly when each of its characters
stays in the state it is printed in. -/
theorem onScreen_throughout_iff (coord : VgaCoord) (vga : Memory) (cursor : BitVec 16)
    (text : List Byte) :
    (∀ front, front <+: text → OnScreen (front.foldl vgaPutc (vgaClear ⟨coord, vga, cursor, []⟩))) ↔
      ∀ front c, front ++ [c] <+: text →
        Stays (front.foldl vgaPutc (vgaClear ⟨coord, vga, cursor, []⟩)) c :=
  good_throughout_iff (fun _ c on => onScreen_vgaPutc_iff c on) (onScreen_vgaClear coord vga cursor)
    text

/-- A backspace on a cleared screen moves the cursor to column 65534 and stores behind the screen. -/
theorem backspace_leaves_screen :
    ¬OnScreen (vgaPutc (vgaClear ⟨⟨0x7, 0, 0⟩, fun _ => 0, 0, []⟩) 0x08) := by
  intro on
  have column : (65534 : Nat) < 160 := on.column
  exact absurd column (by decide)

end Osdev64
