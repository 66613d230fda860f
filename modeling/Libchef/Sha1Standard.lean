import Libchef.Base.Blocks
import Libchef.Base.Numeral
import Mathlib.Data.Nat.Sqrt

/-!
The digest of a string of bytes, as FIPS PUB 180-1 defines it.

This is what the code is compared with, and not a translation of it. The constants are digits of
square roots.
-/

namespace Libchef.Sha1Standard

open Libchef.Blocks Libchef.Numeral

abbrev Word := BitVec 32

section Functions

variable (x y z : Word)

def Ch : Word := (x &&& y) ||| (~~~x &&& z)

def Parity : Word := x ^^^ y ^^^ z

def Maj : Word := (x &&& y) ||| (x &&& z) ||| (y &&& z)

end Functions

/-- The function of a step. -/
def f (t : ℕ) : Word → Word → Word → Word :=
  if t < 20 then Ch else if t < 40 then Parity else if t < 60 then Maj else Parity

/-- The first bits of a square root. -/
def K (t : ℕ) : Word :=
  let n := if t < 20 then 2 else if t < 40 then 3 else if t < 60 then 5 else 10
  BitVec.ofNat 32 (Nat.sqrt (n * 2 ^ 60))

/-- The sixteen words of a block. -/
def words (block : List UInt8) : List Word := (blocks 4 block).map fun w => BitVec.ofNat 32 (ofBE w)

/-- The eighty words made from them. -/
def W (M : List Word) (t : ℕ) : Word :=
  if t < 16 then M.getD t 0
  else (W M (t - 3) ^^^ W M (t - 8) ^^^ W M (t - 14) ^^^ W M (t - 16)).rotateLeft 1
termination_by t
decreasing_by all_goals omega

/-- The five words of the state. -/
structure State where
  a : Word
  b : Word
  c : Word
  d : Word
  e : Word

def step (M : List Word) (v : State) (t : ℕ) : State :=
  ⟨v.a.rotateLeft 5 + f t v.b v.c v.d + v.e + W M t + K t, v.a, v.b.rotateLeft 30, v.c, v.d⟩

def initial : State := ⟨0x67452301, 0xEFCDAB89, 0x98BADCFE, 0x10325476, 0xC3D2E1F0⟩

/-- The next state. -/
def compress (v : State) (block : List UInt8) : State :=
  let r := (List.range 80).foldl (step (words block)) v
  ⟨v.a + r.a, v.b + r.b, v.c + r.c, v.d + r.d, v.e + r.e⟩

/-- A message, a one, as few zeros as fill the last block, the number of its bits. -/
def pad (m : List UInt8) : List UInt8 :=
  m ++ padding 64 8 0x80 0 (fun n => toBE 8 (8 * n)) m.length

def hash (m : List UInt8) : State := (blocks 64 (pad m)).foldl compress initial

/-- The message digest. -/
def digest (m : List UInt8) : List UInt8 :=
  [(hash m).a, (hash m).b, (hash m).c, (hash m).d, (hash m).e].flatMap fun w => toBE 4 w.toNat

end Libchef.Sha1Standard
