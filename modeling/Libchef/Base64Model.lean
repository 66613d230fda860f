import Libchef.Base.Alloc
import Libchef.StringsModel

/-!
Bytes as characters, as `chef_encoding_base64_op.hpp` has it.

An operation is `none` where it reads past its data or leaves an array, and where an `int`
overflows.
-/

namespace Libchef.Base64Model

open Libchef.StringsModel Libchef.Alloc

def base64Chars : Str :=
  lit ['A', 'B', 'C', 'D', 'E', 'F', 'G', 'H', 'I', 'J', 'K', 'L', 'M',
    'N', 'O', 'P', 'Q', 'R', 'S', 'T', 'U', 'V', 'W', 'X', 'Y', 'Z',
    'a', 'b', 'c', 'd', 'e', 'f', 'g', 'h', 'i', 'j', 'k', 'l', 'm',
    'n', 'o', 'p', 'q', 'r', 's', 't', 'u', 'v', 'w', 'x', 'y', 'z',
    '0', '1', '2', '3', '4', '5', '6', '7', '8', '9', '+', '/']

def isBase64 (c : UInt8) : Bool :=
  c = 43 || (c ≥ 47 && c ≤ 57) || (c ≥ 65 && c ≤ 90) || (c ≥ 97 && c ≤ 122)

/-- A loop that sets the bytes from position `j` up to `n` to zero. -/
def clearFrom (a : Str) (j n : ℕ) : Option Str :=
  (List.range' j (n - j)).foldlM (fun a j => poke a j [0]) a

/-! ### `base64_encode` -/

/-- `char_array_4`, made from `char_array_3`. -/
def fours (a : Str) : Option Str := do
  let x ← a[0]?
  let y ← a[1]?
  let z ← a[2]?
  some [(x &&& 0xfc) >>> 2, ((x &&& 0x03) <<< 4) + ((y &&& 0xf0) >>> 4),
    ((y &&& 0x0f) <<< 2) + ((z &&& 0xc0) >>> 6), z &&& 0x3f]

/-- `base64_chars[b]`. -/
def charOf (b : UInt8) : Option UInt8 := base64Chars[b.toNat]?

/-- A loop that appends the characters for the first `n` elements of `char_array_4`. -/
def addChars (ret array4 : Str) (n : ℕ) : Option Str := do
  let bs ← peek array4 0 n
  some (ret ++ (← bs.mapM charOf))

/-- The loop, with `i`, `char_array_3` and `ret`. -/
def base64EncodeLoop : Str → (i : ℕ) → (array3 ret : Str) → Option (ℕ × Str × Str)
  | [], i, array3, ret => some (i, array3, ret)
  | c :: input, i, array3, ret => do
    let array3 ← poke array3 i [c]
    if i + 1 = 3 then do
      let ret ← addChars ret (← fours array3) 4
      base64EncodeLoop input 0 array3 ret
    else base64EncodeLoop input (i + 1) array3 ret

/-- `base64_encode`. The memory of `char_array_3` comes first. -/
def base64Encode (memory input : Str) : Option Str := do
  let (i, array3, ret) ← base64EncodeLoop input 0 memory []
  if i ≠ 0 then do
    let array3 ← clearFrom array3 i 3
    let ret ← addChars ret (← fours array3) (i + 1)
    some (ret ++ List.replicate (3 - i) (chr '='))
  else some ret

/-! ### `base64_decode` -/

/-- `static_cast<unsigned char>(base64_chars.find(c))`, where `npos` is the greatest `size_t`. -/
def findByte (c : UInt8) : UInt8 := UInt8.ofNat ((base64Chars.idxOf? c).getD (2 ^ 64 - 1))

/-- The loop that replaces the characters in `char_array_4`. -/
def findBytes (array4 : Str) : Option Str := do
  let cs ← peek array4 0 4
  poke array4 0 (cs.map findByte)

/-- `char_array_3`, made from `char_array_4`. -/
def threes (a : Str) : Option Str := do
  let w ← a[0]?
  let x ← a[1]?
  let y ← a[2]?
  let z ← a[3]?
  some [(w <<< 2) + ((x &&& 0x30) >>> 4), ((x &&& 0xf) <<< 4) + ((y &&& 0x3c) >>> 2),
    ((y &&& 0x3) <<< 6) + z]

/-- A loop that appends the first `n` elements of `char_array_3`. -/
def addBytes (ret array3 : Str) (n : ℕ) : Option Str := do some (ret ++ (← peek array3 0 n))

/-- The loop, with `in_`, which is an `int`, `i`, `char_array_4` and `ret`. -/
def base64DecodeLoop : Str → (in_ i : ℕ) → (array4 ret : Str) → Option (ℕ × Str × Str)
  | [], _, i, array4, ret => some (i, array4, ret)
  | c :: input, in_, i, array4, ret =>
    if c ≠ chr '=' ∧ isBase64 c then do
      let array4 ← poke array4 i [c]
      if in_ + 1 < 2 ^ 31 then
        if i + 1 = 4 then do
          let array4 ← findBytes array4
          let ret ← addBytes ret (← threes array4) 3
          base64DecodeLoop input (in_ + 1) 0 array4 ret
        else base64DecodeLoop input (in_ + 1) (i + 1) array4 ret
      else none
    else some (i, array4, ret)

/-- `base64_decode`. The memory of `char_array_4` comes first. -/
def base64Decode (memory input : Str) : Option Str := do
  let (i, array4, ret) ← base64DecodeLoop input 0 0 memory []
  if i ≠ 0 then do
    let array4 ← clearFrom array4 i 4
    let array4 ← findBytes array4
    addBytes ret (← threes array4) (i - 1)
  else some ret

/-! ### `encoding_base64_op` -/

def encodeData (memory data : Str) (len : ℕ) : Option Str := do
  base64Encode memory (← peek data 0 len)

def encode (memory s : Str) : Option Str := encodeData memory s s.length

def decodeData (memory data : Str) (len : ℕ) : Option Str := do
  base64Decode memory (← peek data 0 len)

def decode (memory s : Str) : Option Str := decodeData memory s s.length

end Libchef.Base64Model
