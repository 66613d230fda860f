import Libchef.Base.Numeral

/-!
A message authentication code from a digest, as RFC 2104 defines it.

This is what the code is compared with, and not a translation of it. The digest and the length of
its blocks are parameters.
-/

namespace Libchef.HmacStandard

open Libchef.Numeral

variable (H : List Bool → List UInt8) (B : ℕ)

/-- A key of the length of a block. -/
def blockKey (K : List UInt8) : List UInt8 :=
  let K := if B < K.length then H (bytesToBits K) else K
  K ++ List.replicate (B - K.length) 0

def xorKey (K : List UInt8) (pad : UInt8) : List UInt8 := (blockKey H B K).map fun b => b ^^^ pad

/-- The digest of the text. -/
def innerHash (K : List UInt8) (text : List Bool) : List UInt8 :=
  H (bytesToBits (xorKey H B K 0x36) ++ text)

/-- The digest of a digest. -/
def outerHash (K digest : List UInt8) : List UInt8 := H (bytesToBits (xorKey H B K 0x5c ++ digest))

def hmac (K : List UInt8) (text : List Bool) : List UInt8 := outerHash H B K (innerHash H B K text)

end Libchef.HmacStandard
