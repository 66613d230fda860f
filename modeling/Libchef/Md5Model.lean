import Libchef.Base.Alloc
import Libchef.StringsModel

/-!
The digest, as `chef_crypto_md5_op.hpp` has it.

An operation is `none` where `memcpy` leaves `buf`, or leaves the data it is given.
-/

namespace Libchef.Md5Model

open Libchef.StringsModel Libchef.Alloc

/-- `md5_word_t`. -/
abbrev Word := BitVec 32

def T_MASK : Word := ~~~0

/-- `ZSW_MD5_T1` to `ZSW_MD5_T64`. -/
def constants : List Word := [
  T_MASK ^^^ 0x28955b87, T_MASK ^^^ 0x173848a9, 0x242070db, T_MASK ^^^ 0x3e423111,
  T_MASK ^^^ 0x0a83f050, 0x4787c62a, T_MASK ^^^ 0x57cfb9ec, T_MASK ^^^ 0x02b96afe, 0x698098d8,
  T_MASK ^^^ 0x74bb0850, T_MASK ^^^ 0x0000a44e, T_MASK ^^^ 0x76a32841, 0x6b901122,
  T_MASK ^^^ 0x02678e6c, T_MASK ^^^ 0x5986bc71, 0x49b40821, T_MASK ^^^ 0x09e1da9d,
  T_MASK ^^^ 0x3fbf4cbf, 0x265e5a51, T_MASK ^^^ 0x16493855, T_MASK ^^^ 0x29d0efa2, 0x02441453,
  T_MASK ^^^ 0x275e197e, T_MASK ^^^ 0x182c0437, 0x21e1cde6, T_MASK ^^^ 0x3cc8f829,
  T_MASK ^^^ 0x0b2af278, 0x455a14ed, T_MASK ^^^ 0x561c16fa, T_MASK ^^^ 0x03105c07, 0x676f02d9,
  T_MASK ^^^ 0x72d5b375, T_MASK ^^^ 0x0005c6bd, T_MASK ^^^ 0x788e097e, 0x6d9d6122,
  T_MASK ^^^ 0x021ac7f3, T_MASK ^^^ 0x5b4115bb, 0x4bdecfa9, T_MASK ^^^ 0x0944b49f,
  T_MASK ^^^ 0x4140438f, 0x289b7ec6, T_MASK ^^^ 0x155ed805, T_MASK ^^^ 0x2b10cf7a, 0x04881d05,
  T_MASK ^^^ 0x262b2fc6, T_MASK ^^^ 0x1924661a, 0x1fa27cf8, T_MASK ^^^ 0x3b53a99a,
  T_MASK ^^^ 0x0bd6ddbb, 0x432aff97, T_MASK ^^^ 0x546bdc58, T_MASK ^^^ 0x036c5fc6, 0x655b59c3,
  T_MASK ^^^ 0x70f3336d, T_MASK ^^^ 0x00100b82, T_MASK ^^^ 0x7a7ba22e, 0x6fa87e4f,
  T_MASK ^^^ 0x01d3191f, T_MASK ^^^ 0x5cfebceb, 0x4e0811a1, T_MASK ^^^ 0x08ac817d,
  T_MASK ^^^ 0x42c50dca, 0x2ad7d2bb, T_MASK ^^^ 0x14792c6e]

def T (i : ℕ) : Word := constants.getD (i - 1) 0

section Macros

variable (x y z : Word)

def ROTATE_LEFT (n : ℕ) : Word := x <<< n ||| x >>> (32 - n)

def F : Word := (x &&& y) ||| (~~~x &&& z)

def G : Word := (x &&& z) ||| (y &&& ~~~z)

def H : Word := x ^^^ y ^^^ z

def I : Word := y ^^^ (x ||| ~~~z)

end Macros

/-! ### `md5_process` -/

/-- The name of a local variable. -/
inductive Reg
  | a
  | b
  | c
  | d
deriving DecidableEq

/-- The local variables, and `abcd`. -/
structure Regs where
  a : Word
  b : Word
  c : Word
  d : Word

def Regs.get (r : Regs) : Reg → Word
  | .a => r.a
  | .b => r.b
  | .c => r.c
  | .d => r.d

def Regs.set (r : Regs) (w : Word) : Reg → Regs
  | .a => { r with a := w }
  | .b => { r with b := w }
  | .c => { r with c := w }
  | .d => { r with d := w }

/-- The arguments of `SET`. -/
structure Set where
  a : Reg
  b : Reg
  c : Reg
  d : Reg
  k : ℕ
  s : ℕ
  Ti : Word
deriving DecidableEq

/-- `SET`, for the function of its round. -/
def SET (f : Word → Word → Word → Word) (X : ℕ → Word) (r : Regs) (o : Set) : Regs :=
  let t := r.get o.a + f (r.get o.b) (r.get o.c) (r.get o.d) + X o.k + o.Ti
  r.set (ROTATE_LEFT t o.s + r.get o.b) o.a

def round1 : List Set := [
  ⟨.a, .b, .c, .d, 0, 7, T 1⟩, ⟨.d, .a, .b, .c, 1, 12, T 2⟩, ⟨.c, .d, .a, .b, 2, 17, T 3⟩,
  ⟨.b, .c, .d, .a, 3, 22, T 4⟩, ⟨.a, .b, .c, .d, 4, 7, T 5⟩, ⟨.d, .a, .b, .c, 5, 12, T 6⟩,
  ⟨.c, .d, .a, .b, 6, 17, T 7⟩, ⟨.b, .c, .d, .a, 7, 22, T 8⟩, ⟨.a, .b, .c, .d, 8, 7, T 9⟩,
  ⟨.d, .a, .b, .c, 9, 12, T 10⟩, ⟨.c, .d, .a, .b, 10, 17, T 11⟩, ⟨.b, .c, .d, .a, 11, 22, T 12⟩,
  ⟨.a, .b, .c, .d, 12, 7, T 13⟩, ⟨.d, .a, .b, .c, 13, 12, T 14⟩, ⟨.c, .d, .a, .b, 14, 17, T 15⟩,
  ⟨.b, .c, .d, .a, 15, 22, T 16⟩]

def round2 : List Set := [
  ⟨.a, .b, .c, .d, 1, 5, T 17⟩, ⟨.d, .a, .b, .c, 6, 9, T 18⟩, ⟨.c, .d, .a, .b, 11, 14, T 19⟩,
  ⟨.b, .c, .d, .a, 0, 20, T 20⟩, ⟨.a, .b, .c, .d, 5, 5, T 21⟩, ⟨.d, .a, .b, .c, 10, 9, T 22⟩,
  ⟨.c, .d, .a, .b, 15, 14, T 23⟩, ⟨.b, .c, .d, .a, 4, 20, T 24⟩, ⟨.a, .b, .c, .d, 9, 5, T 25⟩,
  ⟨.d, .a, .b, .c, 14, 9, T 26⟩, ⟨.c, .d, .a, .b, 3, 14, T 27⟩, ⟨.b, .c, .d, .a, 8, 20, T 28⟩,
  ⟨.a, .b, .c, .d, 13, 5, T 29⟩, ⟨.d, .a, .b, .c, 2, 9, T 30⟩, ⟨.c, .d, .a, .b, 7, 14, T 31⟩,
  ⟨.b, .c, .d, .a, 12, 20, T 32⟩]

def round3 : List Set := [
  ⟨.a, .b, .c, .d, 5, 4, T 33⟩, ⟨.d, .a, .b, .c, 8, 11, T 34⟩, ⟨.c, .d, .a, .b, 11, 16, T 35⟩,
  ⟨.b, .c, .d, .a, 14, 23, T 36⟩, ⟨.a, .b, .c, .d, 1, 4, T 37⟩, ⟨.d, .a, .b, .c, 4, 11, T 38⟩,
  ⟨.c, .d, .a, .b, 7, 16, T 39⟩, ⟨.b, .c, .d, .a, 10, 23, T 40⟩, ⟨.a, .b, .c, .d, 13, 4, T 41⟩,
  ⟨.d, .a, .b, .c, 0, 11, T 42⟩, ⟨.c, .d, .a, .b, 3, 16, T 43⟩, ⟨.b, .c, .d, .a, 6, 23, T 44⟩,
  ⟨.a, .b, .c, .d, 9, 4, T 45⟩, ⟨.d, .a, .b, .c, 12, 11, T 46⟩, ⟨.c, .d, .a, .b, 15, 16, T 47⟩,
  ⟨.b, .c, .d, .a, 2, 23, T 48⟩]

def round4 : List Set := [
  ⟨.a, .b, .c, .d, 0, 6, T 49⟩, ⟨.d, .a, .b, .c, 7, 10, T 50⟩, ⟨.c, .d, .a, .b, 14, 15, T 51⟩,
  ⟨.b, .c, .d, .a, 5, 21, T 52⟩, ⟨.a, .b, .c, .d, 12, 6, T 53⟩, ⟨.d, .a, .b, .c, 3, 10, T 54⟩,
  ⟨.c, .d, .a, .b, 10, 15, T 55⟩, ⟨.b, .c, .d, .a, 1, 21, T 56⟩, ⟨.a, .b, .c, .d, 8, 6, T 57⟩,
  ⟨.d, .a, .b, .c, 15, 10, T 58⟩, ⟨.c, .d, .a, .b, 6, 15, T 59⟩, ⟨.b, .c, .d, .a, 13, 21, T 60⟩,
  ⟨.a, .b, .c, .d, 4, 6, T 61⟩, ⟨.d, .a, .b, .c, 11, 10, T 62⟩, ⟨.c, .d, .a, .b, 2, 15, T 63⟩,
  ⟨.b, .c, .d, .a, 9, 21, T 64⟩]

/-- `X[i]`: four bytes, the least significant one first, whatever the byte order is. -/
def wordAt (data : Str) (i : ℕ) : Word :=
  let byte (j : ℕ) : Word := (data.getD (4 * i + j) 0).toBitVec.setWidth 32
  byte 0 + byte 1 <<< 8 + byte 2 <<< 16 + byte 3 <<< 24

def md5Process (abcd : Regs) (data : Str) : Regs :=
  let X := wordAt data
  let r := round1.foldl (SET F X) abcd
  let r := round2.foldl (SET G X) r
  let r := round3.foldl (SET H X) r
  let r := round4.foldl (SET I X) r
  ⟨abcd.a + r.a, abcd.b + r.b, abcd.c + r.c, abcd.d + r.d⟩

/-! ### `md5_append` and `md5_finish` -/

/-- `md5_state_t`. -/
structure State where
  count0 : Word
  count1 : Word
  abcd : Regs
  buf : Str

/-- `md5_init`. It leaves `buf` as the memory has it. -/
def md5Init (memory : Str) : State :=
  ⟨0, 0, ⟨0x67452301, T_MASK ^^^ 0x10325476, T_MASK ^^^ 0x67452301, 0x10325476⟩, memory⟩

/-- The loop of `md5_append` over the full blocks, with `p` for the pointer. -/
def fullBlocks (data : Str) (p left : ℕ) (s : State) : Option (ℕ × ℕ × State) :=
  if 64 ≤ left then do
    let block ← peek data p 64
    fullBlocks data (p + 64) (left - 64) { s with abcd := md5Process s.abcd block }
  else some (p, left, s)
termination_by left

/-- The end of `md5_append`, from the full blocks on. -/
def appendBlocks (data : Str) (p left : ℕ) (s : State) : Option State := do
  let (p, left, s) ← fullBlocks data p left s
  if left ≠ 0 then
    let bytes ← peek data p left
    let buf ← poke s.buf 0 bytes
    some { s with buf := buf }
  else some s

/-- The length, at the beginning of `md5_append`. -/
def addCount (s : State) (nbytes : ℕ) : State :=
  let nbits : Word := BitVec.ofNat 32 (nbytes * 8 % 2 ^ 64)
  let count1 := s.count1 + BitVec.ofNat 32 (nbytes / 2 ^ 29)
  let count0 := s.count0 + nbits
  { s with count0 := count0, count1 := if count0 < nbits then count1 + 1 else count1 }

def md5Append (s : State) (data : Str) (nbytes : ℕ) : Option State :=
  let offset := (s.count0 >>> 3 &&& 63).toNat
  if nbytes = 0 then some s
  else
    let s := addCount s nbytes
    if offset ≠ 0 then do
      let copy := if (offset + nbytes) % 2 ^ 64 > 64 then 64 - offset else nbytes
      let bytes ← peek data 0 copy
      let buf ← poke s.buf offset bytes
      let s := { s with buf := buf }
      if offset + copy < 64 then some s
      else appendBlocks data copy (nbytes - copy) { s with abcd := md5Process s.abcd s.buf }
    else appendBlocks data 0 nbytes s

def pad : Str := 0x80 :: List.replicate 63 0

/-- A byte of a word: `(md5_byte_t)(w >> ((i & 3) << 3))`. -/
def byteOf (w : Word) (i : ℕ) : UInt8 := UInt8.ofBitVec ((w >>> (8 * i)).setWidth 8)

def bytesOf (w : Word) : Str := [byteOf w 0, byteOf w 1, byteOf w 2, byteOf w 3]

/-- `md5_finish`, with the digest. -/
def md5Finish (s : State) : Option (State × Str) := do
  let data := bytesOf s.count0 ++ bytesOf s.count1
  let s ← md5Append s pad ((55#32 - s.count0 >>> 3 &&& 63#32) + 1#32).toNat
  let s ← md5Append s data 8
  some (s, [s.abcd.a, s.abcd.b, s.abcd.c, s.abcd.d].flatMap bytesOf)

/-! ### `crypto_md5_op` -/

/-- `md5_hash_string`. The memory of the local state comes first. -/
def md5HashString (memory data : Str) (len : ℕ) : Option Str := do
  let s ← md5Append (md5Init memory) data len
  let (_, digest) ← md5Finish s
  some digest

def hexval : Str :=
  lit ['0', '1', '2', '3', '4', '5', '6', '7', '8', '9', 'a', 'b', 'c', 'd', 'e', 'f']

/-- What `md5_hash_hex` makes of a `char`, which is signed. -/
def hexPair (c : UInt8) : Str :=
  [hexval.getD ((promote c).sshiftRight 4 &&& 0xF).toNat 0,
    hexval.getD (promote c &&& 0x0F).toNat 0]

def md5HashHex (memory data : Str) (len : ℕ) : Option Str :=
  (md5HashString memory data len).map fun hash => hash.flatMap hexPair

/-- `sum` of some data. -/
def sum (memory data : Str) (len : ℕ) : Option Str := md5HashHex memory data len

/-- `sum` of a string. -/
def sumString (memory s : Str) : Option Str := sum memory s s.length

end Libchef.Md5Model
