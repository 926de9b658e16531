/-
The formatted output of `src/lib/vsnprintf.c`, with `strrev`, `ulltostr` and the
string functions it calls.

Memory is seen from two pointers: the output `str`, and the array `buf` of `size`
bytes with whatever lies behind it on the stack.  Sizes and counts are numbers; an
array has fewer than 2^63 bytes, so that the sums the loops test do not wrap.
Every round of the outer loop and every jump to `next_format` takes one unit of
fuel, and a run without enough of it has no result.
-/

import Osdev64.Lib.CString

namespace Osdev64

open Bytes CString Word64

/-! ### Library functions -/

def isdigit (c : Byte) : Bool := 0x30 ≤ c.toNat && c.toNat ≤ 0x39

/-- The first rounds of the loop in `strrev`. -/
def strrevLoop (s : Buffer) (length : Nat) : Nat → Buffer
  | 0 => s
  | i + 1 =>
    let s := strrevLoop s length i
    let temp := peek s i
    poke (poke s i (peek s (length - i))) (length - i) temp

/-- `strrev`, with the number it returns.  It is never given the empty string, on which it
would exchange the first byte with the one before the buffer. -/
def strrev (s : Buffer) : Nat × Buffer :=
  let length := strlen s - 1
  (strlen s, strrevLoop s length (length / 2 + 1))

def digitChar (remainder : Nat) : Byte :=
  if 9 < remainder then BitVec.ofNat 8 (remainder - 10 + 0x41) else BitVec.ofNat 8 (remainder + 0x30)

def ulltostrLoop (base : Nat) : Nat → Nat → Nat → Buffer → Nat × Buffer
  | 0, _, i, buffer => (i, buffer)
  | len + 1, num, i, buffer =>
    if num = 0 then (i, buffer)
    else ulltostrLoop base len (num / base) (i + 1) (poke buffer i (digitChar (num % base)))

def ulltostr (num : Word) (buffer : Buffer) (base len : Nat) : Nat × Buffer :=
  if num = 0 then (1, poke (poke buffer 0 0x30) 1 0)
  else
    let written := ulltostrLoop base len num.toNat 0 buffer
    strrev (poke written.2 written.1 0)

/-- The loop of `strncpy`: the index it stops at, the length left and the buffer. -/
def strncpyLoop : List Byte → Nat → Word → Buffer → Nat × Word × Buffer
  | [], rdi, rdx, buffer => (rdi, rdx, buffer)
  | al :: rsi, rdi, rdx, buffer =>
    if al = 0 then (rdi, rdx, buffer)
    else if rdx - 1 = 0 then (rdi + 1, 0, poke buffer rdi al)
    else strncpyLoop rsi (rdi + 1) (rdx - 1) (poke buffer rdi al)

def strncpy (dest : Buffer) (source : List Byte) (length : Word) : Buffer :=
  let copied := strncpyLoop source 0 length dest
  CString.memset copied.2.2 copied.1 0 copied.2.1.toNat

/-! ### The state of `vsnprintf` -/

def prefixFlag : BitVec 32 := 1
def alwaysSignFlag : BitVec 32 := 2
def padFlag : BitVec 32 := 4
def longFlag : BitVec 32 := 8
def notnumFlag : BitVec 32 := 0x10

structure Printer where
  str : Memory
  /-- The offsets stored to in `str`. -/
  stores : List Nat
  n : Nat
  pad : Word
  flags : BitVec 32
  buf : Buffer
  /-- One more than the highest index used on `buf`. -/
  reach : Nat
  format : List Byte
  args : List Word

namespace Printer

def has (printer : Printer) (flag : BitVec 32) : Bool := printer.flags &&& flag ≠ 0

def setFlag (printer : Printer) (flag : BitVec 32) : Printer :=
  { printer with flags := printer.flags ||| flag }

/-- `str[n++] = c`. -/
def putc (printer : Printer) (c : Byte) : Printer :=
  { printer with
    str := Function.update printer.str printer.n c
    stores := printer.n :: printer.stores
    n := printer.n + 1 }

/-- A new content of `buf`, of which the first `used` bytes were read or written. -/
def setBuf (printer : Printer) (buf : Buffer) (used : Nat) : Printer :=
  { printer with buf := buf, reach := max printer.reach used }

/-- `*format`. -/
def current (printer : Printer) : Byte := printer.format.headD 0

/-- `format++`. -/
def advance (printer : Printer) : Printer := { printer with format := printer.format.tail }

/-- `va_arg`; there are as many arguments as the format asks for. -/
def argument (printer : Printer) : Word := printer.args.headD 0

def dropArgument (printer : Printer) : Printer := { printer with args := printer.args.tail }

/-- A number goes to `buf`; its digits and the zero behind them are written, and read back. -/
def number (printer : Printer) (value : Word) (base len : Nat) : Printer :=
  let written := ulltostr value printer.buf base len
  printer.setBuf written.2 (written.1 + 1)

/-- The two loops that store to `str` test `i + n`, and both go up in each round. -/
def storeLoop (size : Nat) (chars : Nat → Byte) : Nat → Nat → Printer → Printer
  | 0, _, printer => printer
  | left + 1, i, printer =>
    if i + printer.n < size then storeLoop size chars left (i + 1) (printer.putc (chars i))
    else printer

/-- Zeros or blanks in front of `buf`. -/
def padOut (size : Nat) (printer : Printer) : Printer :=
  if printer.has padFlag ∧ strlen printer.buf < printer.pad.toNat then
    storeLoop size (fun _ => if printer.has notnumFlag then 0x20 else 0x30)
      (printer.pad.toNat - strlen printer.buf) 0 printer
  else printer

/-- The content of `buf`, which is cleared again; `strlen` reads the zero behind it as well. -/
def copyOut (size : Nat) (printer : Printer) : Printer :=
  let length := strlen printer.buf
  (storeLoop size (peek printer.buf) length 0 printer).setBuf
    (CString.memset printer.buf 0 0 length) (length + 1)

/-- From the end of the inner `switch` on. -/
def emit (size : Nat) (printer : Printer) : Printer := (printer.padOut size).copyOut size

end Printer

/-- The cases that end the inner `switch`. -/
inductive Conversion where
  | percent
  | hex
  | signed
  | integer
  | unsigned
  | long
  | octal
  | string
  | char
  | wide
  deriving DecidableEq

def conversionOf (c : Byte) : Option Conversion :=
  if c = 0x25 then some .percent
  else if c = 0x58 ∨ c = 0x78 then some .hex
  else if c = 0x64 then some .signed
  else if c = 0x69 then some .integer
  else if c = 0x75 then some .unsigned
  else if c = 0x6C then some .long
  else if c = 0x6F then some .octal
  else if c = 0x73 then some .string
  else if c = 0x63 then some .char
  else if c = 0x77 then some .wide
  else none

namespace Printer

/-- What each case does; `string` gives the string behind a pointer. -/
def convert (size : Nat) (string : Word → List Byte) (printer : Printer) : Conversion → Printer
  | .percent => printer.setBuf (poke (poke printer.buf 0 0x25) 1 0) 2
  | .hex =>
    let printer := printer.dropArgument.number printer.argument 16 16
    if printer.has prefixFlag ∧ printer.n + 2 < size then (printer.putc 0x30).putc 0x78
    else printer
  | .signed =>
    let d := printer.argument
    let printer := printer.dropArgument
    let printer :=
      if printer.has alwaysSignFlag ∧ printer.n + 1 < size then
        printer.putc (if 0 < d.toInt then 0x2B else 0x2D)
      else printer
    printer.number d 10 20
  | .integer =>
    let d := printer.argument
    let printer := printer.dropArgument
    let printer := if printer.n + 1 < size ∧ d.toInt < 0 then printer.putc 0x2D else printer
    printer.number d 10 20
  | .unsigned => printer.dropArgument.number printer.argument 10 20
  | .long => (printer.setFlag longFlag).dropArgument.number printer.argument 16 16
  | .octal =>
    let printer := printer.dropArgument.number printer.argument 8 16
    if printer.has prefixFlag ∧ printer.n + 2 < size then printer.putc 0x30 else printer
  | .string =>
    let length := size - printer.n
    let buf := strncpy printer.buf (string printer.argument) (BitVec.ofNat 64 length)
    (printer.dropArgument.setBuf buf length).setFlag notnumFlag
  | .char =>
    let buf := poke (poke printer.buf 0 (printer.argument.setWidth 8)) 1 0
    (printer.dropArgument.setBuf buf 2).setFlag notnumFlag
  | .wide => (printer.setFlag padFlag).setBuf (poke printer.buf 0 0x20) 1

/-- `while (isdigit(*format))`, along the format. -/
def padLoop (printer : Printer) : List Byte → Printer
  | [] => { printer with format := [] }
  | c :: rest =>
    if isdigit c then
      padLoop { printer.setFlag padFlag with
        pad := printer.pad * 10 + BitVec.ofNat 64 (c.toNat - 0x30) } rest
    else { printer with format := c :: rest }

/-- The cases that go back to `next_format`: the two flags, and the default. -/
def jump (printer : Printer) : Printer :=
  if printer.current = 0x23 then
    { (printer.setFlag (prefixFlag ||| padFlag)).advance with pad := 16 }
  else if printer.current = 0x2B then (printer.setFlag alwaysSignFlag).advance
  else padLoop { printer with pad := 0 } printer.format

/-- From `next_format` to the end of the inner `switch`. -/
def nextFormat (size : Nat) (string : Word → List Byte) : Nat → Printer → Option Printer
  | 0, _ => none
  | fuel + 1, printer =>
    match conversionOf printer.current with
    | some conversion => some (printer.convert size string conversion)
    | none => nextFormat size string fuel printer.jump

/-- `while (*format && n < size)`. -/
def formatLoop (size : Nat) (string : Word → List Byte) : Nat → Printer → Option Printer
  | 0, _ => none
  | fuel + 1, printer =>
    if printer.current = 0 ∨ size ≤ printer.n then some printer
    else if printer.current = 0x25 then do
      let converted ← nextFormat size string fuel printer.advance
      formatLoop size string fuel (converted.emit size).advance
    else
      formatLoop size string fuel { (printer.putc printer.current).advance with flags := 0 }

end Printer

/-- The start of `vsnprintf`: `buf` is cleared, `behind` lies behind it. -/
def printerStart (str : Memory) (size : Nat) (behind : Buffer) (format : List Byte)
    (args : List Word) : Printer where
  str := str
  stores := []
  n := 0
  pad := 0
  flags := 0
  buf := List.replicate size 0 ++ behind
  reach := size
  format := format
  args := args

/-- The state `vsnprintf` ends in; it returns `n`. -/
def vsnprintf (fuel : Nat) (str : Memory) (size : Nat) (behind : Buffer)
    (string : Word → List Byte) (format : List Byte) (args : List Word) : Option Printer :=
  Printer.formatLoop size string fuel (printerStart str size behind format args)

end Osdev64
