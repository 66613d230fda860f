import Libchef.StringsModel
import Mathlib.Data.BitVec

/-!
A buffer as a hex dump, as `chef_stuff_op.hpp` prints it.

A read outside the buffer is `none`.
-/

namespace Libchef.HexModel

open Libchef.StringsModel

def digitChars : Str := lit ['0', '1', '2', '3', '4', '5', '6', '7', '8', '9']

def lowerChars : Str :=
  lit ['a', 'b', 'c', 'd', 'e', 'f', 'g', 'h', 'i', 'j', 'k', 'l', 'm', 'n', 'o', 'p', 'q', 'r',
    's', 't', 'u', 'v', 'w', 'x', 'y', 'z']

def upperChars : Str :=
  lit ['A', 'B', 'C', 'D', 'E', 'F', 'G', 'H', 'I', 'J', 'K', 'L', 'M', 'N', 'O', 'P', 'Q', 'R',
    'S', 'T', 'U', 'V', 'W', 'X', 'Y', 'Z']

/-- The other characters, in the order of the source: the marks before the digits, those before the
upper case, those before the lower case, those after it, and the blank. -/
def markChars : Str :=
  [0x21, 0x22, 0x23, 0x24, 0x25, 0x26, 0x27, 0x28, 0x29, 0x2a, 0x2b, 0x2c, 0x2d, 0x2e, 0x2f] ++
    [0x3a, 0x3b, 0x3c, 0x3d, 0x3e, 0x3f, 0x40] ++ [0x5b, 0x5c, 0x5d, 0x5e, 0x5f, 0x60] ++
    [0x7b, 0x7c, 0x7d, 0x7e] ++ [0x20]

def printableAscii : Str := digitChars ++ lowerChars ++ upperChars ++ markChars

/-- A number to the base 16 in a field of two, filled with zeros. -/
def hexField (b : UInt8) : Str :=
  let digits := (Nat.toDigits 16 b.toNat).map chr
  List.replicate (2 - digits.length) (chr '0') ++ digits

/-- What is printed of the byte with number `j` of a line. -/
def hexItem (j : ℕ) (b : UInt8) : Str := (if j ≠ 0 then lit [' '] else []) ++ hexField b

/-- What is printed of a byte in the text part. -/
def asciiItem (b : UInt8) : UInt8 := if b ∈ printableAscii then b else chr '.'

/-- A loop over the bytes of a line that prints each of them. -/
def eachItem (buf : Str) (start item : ℕ) (f : ℕ → UInt8 → Str) : Option Str :=
  ((List.range item).mapM fun j => (buf[start + j]?).map (f j)).map List.flatten

/-- `std::setw(num_per_line * 2 + num_per_line - 1)`: a `size_t`, converted to an `int`. -/
def width (numPerLine : ℕ) : ℤ :=
  (BitVec.ofNat 32 ((numPerLine * 2 + numPerLine - 1) % 2 ^ 64)).toInt

/-- A text in a field of some width, on the left and filled with blanks. -/
def leftField (width : ℤ) (s : Str) : Str :=
  s ++ List.replicate (width - s.length).toNat (chr ' ')

/-- The round of the loop in `bytes_to_hex` for the line `i`. -/
def dumpLine (buf : Str) (numPerLine numOfLine : ℕ) (withAscii : Bool) (i : ℕ) : Option Str := do
  let len := buf.length
  let rest := len % numPerLine ≠ 0 ∧ i = numOfLine - 1
  let item := if rest then len % numPerLine else numPerLine
  let line ← eachItem buf (i * numPerLine) item hexItem
  let line := if rest ∧ withAscii then leftField (width numPerLine) line else line
  let text ← if withAscii then
      (eachItem buf (i * numPerLine) item fun _ b => [asciiItem b]).map
        (lit [' ', ' ', ' ', ' '] ++ ·)
    else some []
  some (line ++ text ++ if i ≠ numOfLine then lit ['\n'] else [])

/-- `bytes_to_hex`, for a buffer or a null pointer. -/
def bytesToHex (buf : Option Str) (numPerLine : ℕ) (withAscii : Bool) : Option Str :=
  match buf with
  | none => some []
  | some buf =>
    if buf.length = 0 ∨ numPerLine = 0 then some []
    else
      let numOfLine := buf.length / numPerLine + if buf.length % numPerLine ≠ 0 then 1 else 0
      ((List.range numOfLine).mapM (dumpLine buf numPerLine numOfLine withAscii)).map List.flatten

end Libchef.HexModel
