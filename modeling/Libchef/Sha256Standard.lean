import Libchef.Base.Blocks
import Libchef.Base.Numeral
import Mathlib.Data.Nat.NthRoot.Defs
import Mathlib.Data.Nat.Prime.Defs
import Mathlib.Data.Nat.Sqrt

/-!
The digest of a string of bits, as the secure hash standard defines it.

This is what the code is compared with, and not a translation of it. The constants are digits
of the square and cube roots of the first primes.
-/

namespace Libchef.Sha256Standard

open Libchef.Blocks Libchef.Numeral

abbrev Word := BitVec 32

/-- The first `n` primes. -/
def primes (n : ℕ) : List ℕ := ((List.range 312).filter fun p => p.Prime).take n

/-- The first bits of the fractional part of the cube root. -/
def K : List Word := (primes 64).map fun p => BitVec.ofNat 32 (Nat.nthRoot 3 (p * 2 ^ 96))

/-- The first bits of the fractional part of the square root. -/
def initial : List Word := (primes 8).map fun p => BitVec.ofNat 32 (Nat.sqrt (p * 2 ^ 64))

section Functions

variable (x y z : Word)

def Ch : Word := (x &&& y) ^^^ (~~~x &&& z)

def Maj : Word := (x &&& y) ^^^ (x &&& z) ^^^ (y &&& z)

def Sigma0 : Word := x.rotateRight 2 ^^^ x.rotateRight 13 ^^^ x.rotateRight 22

def Sigma1 : Word := x.rotateRight 6 ^^^ x.rotateRight 11 ^^^ x.rotateRight 25

def sigma0 : Word := x.rotateRight 7 ^^^ x.rotateRight 18 ^^^ x >>> 3

def sigma1 : Word := x.rotateRight 17 ^^^ x.rotateRight 19 ^^^ x >>> 10

end Functions

/-- The sixteen words of a block. -/
def words (block : List Bool) : List Word :=
  (blocks 32 block).map fun w => BitVec.ofNat 32 (ofBits w)

/-- The message schedule. -/
def W (M : List Word) (t : ℕ) : Word :=
  if t < 16 then M.getD t 0
  else sigma1 (W M (t - 2)) + W M (t - 7) + sigma0 (W M (t - 15)) + W M (t - 16)
termination_by t
decreasing_by all_goals omega

/-- The working variables. -/
structure Working where
  a : Word
  b : Word
  c : Word
  d : Word
  e : Word
  f : Word
  g : Word
  h : Word

def round (M : List Word) (v : Working) (t : ℕ) : Working :=
  let T1 := v.h + Sigma1 v.e + Ch v.e v.f v.g + K.getD t 0 + W M t
  let T2 := Sigma0 v.a + Maj v.a v.b v.c
  ⟨T1 + T2, v.a, v.b, v.c, v.d + T1, v.e, v.f, v.g⟩

def Working.ofHash (H : List Word) : Working :=
  ⟨H.getD 0 0, H.getD 1 0, H.getD 2 0, H.getD 3 0, H.getD 4 0, H.getD 5 0, H.getD 6 0, H.getD 7 0⟩

def Working.toHash (v : Working) : List Word := [v.a, v.b, v.c, v.d, v.e, v.f, v.g, v.h]

/-- The next hash value. -/
def compress (H : List Word) (block : List Bool) : List Word :=
  H.zipWith (· + ·) ((List.range 64).foldl (round (words block)) (.ofHash H)).toHash

/-- A message, a one, as few zeros as fill the last block, the length. -/
def pad (M : List Bool) : List Bool := M ++ padding 512 64 true false (toBits 64) M.length

def hash (M : List Bool) : List Word := (blocks 512 (pad M)).foldl compress initial

/-- The message digest as bytes. -/
def digest (M : List Bool) : List UInt8 := (hash M).flatMap fun w => toBE 4 w.toNat

lemma length_foldl_compress (bs : List (List Bool)) {H : List Word} (h : H.length = 8) :
    (bs.foldl compress H).length = 8 := by
  induction bs generalizing H with
  | nil => exact h
  | cons b bs ih => exact ih (by simp [compress, Working.toHash, h])

lemma length_digest (M : List Bool) : (digest M).length = 32 := by
  have h : (hash M).length = 8 := length_foldl_compress _ rfl
  simp [digest, h]

end Libchef.Sha256Standard
