import Libchef.Base.Blocks
import Libchef.Base.Numeral

/-!
The digest of a string of bytes, as RFC 1321 defines it.

This is what the code is compared with, and not a translation of it.
-/

namespace Libchef.Md5Standard

open Libchef.Blocks Libchef.Numeral

abbrev Word := BitVec 32

/-- The table made from the sines. -/
def T : List Word := [
  0xd76aa478, 0xe8c7b756, 0x242070db, 0xc1bdceee, 0xf57c0faf, 0x4787c62a, 0xa8304613, 0xfd469501,
  0x698098d8, 0x8b44f7af, 0xffff5bb1, 0x895cd7be, 0x6b901122, 0xfd987193, 0xa679438e, 0x49b40821,
  0xf61e2562, 0xc040b340, 0x265e5a51, 0xe9b6c7aa, 0xd62f105d, 0x02441453, 0xd8a1e681, 0xe7d3fbc8,
  0x21e1cde6, 0xc33707d6, 0xf4d50d87, 0x455a14ed, 0xa9e3e905, 0xfcefa3f8, 0x676f02d9, 0x8d2a4c8a,
  0xfffa3942, 0x8771f681, 0x6d9d6122, 0xfde5380c, 0xa4beea44, 0x4bdecfa9, 0xf6bb4b60, 0xbebfbc70,
  0x289b7ec6, 0xeaa127fa, 0xd4ef3085, 0x04881d05, 0xd9d4d039, 0xe6db99e5, 0x1fa27cf8, 0xc4ac5665,
  0xf4292244, 0x432aff97, 0xab9423a7, 0xfc93a039, 0x655b59c3, 0x8f0ccc92, 0xffeff47d, 0x85845dd1,
  0x6fa87e4f, 0xfe2ce6e0, 0xa3014314, 0x4e0811a1, 0xf7537e82, 0xbd3af235, 0x2ad7d2bb, 0xeb86d391]

section Functions

variable (x y z : Word)

def F : Word := (x &&& y) ||| (~~~x &&& z)

def G : Word := (x &&& z) ||| (y &&& ~~~z)

def H : Word := x ^^^ y ^^^ z

def I : Word := y ^^^ (x ||| ~~~z)

end Functions

/-- The function of an operation, by its number. -/
def function (i : ℕ) : Word → Word → Word → Word :=
  if i < 16 then F else if i < 32 then G else if i < 48 then H else I

/-- The word it takes. -/
def index (i : ℕ) : ℕ :=
  if i < 16 then i % 16
  else if i < 32 then (5 * i + 1) % 16
  else if i < 48 then (3 * i + 5) % 16
  else 7 * i % 16

/-- How far it rotates. -/
def shift (i : ℕ) : ℕ :=
  [[7, 12, 17, 22], [5, 9, 14, 20], [4, 11, 16, 23], [6, 10, 15, 21]].getD (i / 16) []
    |>.getD (i % 4) 0

/-- The four words of the state. -/
structure State where
  A : Word
  B : Word
  C : Word
  D : Word

/-- One operation; the words change places. -/
def operation (X : List Word) (v : State) (i : ℕ) : State :=
  ⟨v.D, v.B + (v.A + function i v.B v.C v.D + X.getD (index i) 0 + T.getD i 0).rotateLeft (shift i),
    v.B, v.C⟩

def initial : State := ⟨0x67452301, 0xefcdab89, 0x98badcfe, 0x10325476⟩

/-- The sixteen words of a block. -/
def words (block : List UInt8) : List Word := (blocks 4 block).map fun w => BitVec.ofNat 32 (ofLE w)

/-- The next state. -/
def compress (v : State) (block : List UInt8) : State :=
  let r := (List.range 64).foldl (operation (words block)) v
  ⟨v.A + r.A, v.B + r.B, v.C + r.C, v.D + r.D⟩

/-- A message, a one, as few zeros as fill the last block, the number of its bits. -/
def pad (m : List UInt8) : List UInt8 :=
  m ++ padding 64 8 0x80 0 (fun n => toLE 8 (8 * n)) m.length

def hash (m : List UInt8) : State := (blocks 64 (pad m)).foldl compress initial

/-- The message digest. -/
def digest (m : List UInt8) : List UInt8 :=
  [(hash m).A, (hash m).B, (hash m).C, (hash m).D].flatMap fun w => toLE 4 w.toNat

end Libchef.Md5Standard
