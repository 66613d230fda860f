import Libchef.Base.Alloc
import Libchef.HexModel

/-!
The digest, as `chef_crypto_sha1_op.hpp` has it, on a machine with the least significant byte
first.

An operation is `none` where `memcpy` leaves the buffer or the data it is given, where a byte is
printed outside the memory, and where a loop does not end.
-/

namespace Libchef.Sha1Model

open Libchef.StringsModel Libchef.Alloc Libchef.HexModel

/-- `uint32_t`. -/
abbrev Word := BitVec 32

def rol (value : Word) (bits : ℕ) : Word := value <<< bits ||| value >>> (32 - bits)

/-! ### `SHA1Transform` -/

/-- The name of a local variable. -/
inductive Reg
  | a
  | b
  | c
  | d
  | e
deriving DecidableEq

/-- The local variables, and `state`. -/
structure Regs where
  a : Word
  b : Word
  c : Word
  d : Word
  e : Word

def Regs.get (r : Regs) : Reg → Word
  | .a => r.a
  | .b => r.b
  | .c => r.c
  | .d => r.d
  | .e => r.e

def Regs.set (r : Regs) (w : Word) : Reg → Regs
  | .a => { r with a := w }
  | .b => { r with b := w }
  | .c => { r with c := w }
  | .d => { r with d := w }
  | .e => { r with e := w }

/-- `block->l[i]`. -/
def item (l : List Word) (i : ℕ) : Word := l.getD i 0

/-- `blk0(i)`, which puts the bytes of a word in order. -/
def blk0 (l : List Word) (i : ℕ) : List Word :=
  l.set i ((rol (item l i) 24 &&& 0xFF00FF00) ||| (rol (item l i) 8 &&& 0x00FF00FF))

/-- `blk(i)`. -/
def blk (l : List Word) (i : ℕ) : List Word :=
  l.set (i % 16) (rol (item l ((i + 13) % 16) ^^^ item l ((i + 8) % 16) ^^^
    item l ((i + 2) % 16) ^^^ item l (i % 16)) 1)

/-- The arguments of a macro `R0` to `R4`. -/
structure Row where
  v : Reg
  w : Reg
  x : Reg
  y : Reg
  z : Reg
  i : ℕ
deriving DecidableEq

/-- What the macros have in common: the function of three words, the words of the block, the
constant. -/
def R (f : Word → Word → Word → Word) (next : List Word → ℕ → List Word) (k : Word)
    (st : Regs × List Word) (o : Row) : Regs × List Word :=
  let r := st.1
  let l := next st.2 o.i
  let z := r.get o.z +
    (f (r.get o.w) (r.get o.x) (r.get o.y) + item l (o.i % 16) + k + rol (r.get o.v) 5)
  let r := r.set z o.z
  (r.set (rol (r.get o.w) 30) o.w, l)

def R0 := R (fun w x y => (w &&& (x ^^^ y)) ^^^ y) blk0 0x5A827999

def R1 := R (fun w x y => (w &&& (x ^^^ y)) ^^^ y) blk 0x5A827999

def R2 := R (fun w x y => w ^^^ x ^^^ y) blk 0x6ED9EBA1

def R3 := R (fun w x y => ((w ||| x) &&& y) ||| (w &&& x)) blk 0x8F1BBCDC

def R4 := R (fun w x y => w ^^^ x ^^^ y) blk 0xCA62C1D6

def rows0 : List Row := [
  ⟨.a, .b, .c, .d, .e, 0⟩, ⟨.e, .a, .b, .c, .d, 1⟩, ⟨.d, .e, .a, .b, .c, 2⟩,
  ⟨.c, .d, .e, .a, .b, 3⟩, ⟨.b, .c, .d, .e, .a, 4⟩, ⟨.a, .b, .c, .d, .e, 5⟩,
  ⟨.e, .a, .b, .c, .d, 6⟩, ⟨.d, .e, .a, .b, .c, 7⟩, ⟨.c, .d, .e, .a, .b, 8⟩,
  ⟨.b, .c, .d, .e, .a, 9⟩, ⟨.a, .b, .c, .d, .e, 10⟩, ⟨.e, .a, .b, .c, .d, 11⟩,
  ⟨.d, .e, .a, .b, .c, 12⟩, ⟨.c, .d, .e, .a, .b, 13⟩, ⟨.b, .c, .d, .e, .a, 14⟩,
  ⟨.a, .b, .c, .d, .e, 15⟩]

def rows1 : List Row := [
  ⟨.e, .a, .b, .c, .d, 16⟩, ⟨.d, .e, .a, .b, .c, 17⟩, ⟨.c, .d, .e, .a, .b, 18⟩,
  ⟨.b, .c, .d, .e, .a, 19⟩]

def rows2 : List Row := [
  ⟨.a, .b, .c, .d, .e, 20⟩, ⟨.e, .a, .b, .c, .d, 21⟩, ⟨.d, .e, .a, .b, .c, 22⟩,
  ⟨.c, .d, .e, .a, .b, 23⟩, ⟨.b, .c, .d, .e, .a, 24⟩, ⟨.a, .b, .c, .d, .e, 25⟩,
  ⟨.e, .a, .b, .c, .d, 26⟩, ⟨.d, .e, .a, .b, .c, 27⟩, ⟨.c, .d, .e, .a, .b, 28⟩,
  ⟨.b, .c, .d, .e, .a, 29⟩, ⟨.a, .b, .c, .d, .e, 30⟩, ⟨.e, .a, .b, .c, .d, 31⟩,
  ⟨.d, .e, .a, .b, .c, 32⟩, ⟨.c, .d, .e, .a, .b, 33⟩, ⟨.b, .c, .d, .e, .a, 34⟩,
  ⟨.a, .b, .c, .d, .e, 35⟩, ⟨.e, .a, .b, .c, .d, 36⟩, ⟨.d, .e, .a, .b, .c, 37⟩,
  ⟨.c, .d, .e, .a, .b, 38⟩, ⟨.b, .c, .d, .e, .a, 39⟩]

def rows3 : List Row := [
  ⟨.a, .b, .c, .d, .e, 40⟩, ⟨.e, .a, .b, .c, .d, 41⟩, ⟨.d, .e, .a, .b, .c, 42⟩,
  ⟨.c, .d, .e, .a, .b, 43⟩, ⟨.b, .c, .d, .e, .a, 44⟩, ⟨.a, .b, .c, .d, .e, 45⟩,
  ⟨.e, .a, .b, .c, .d, 46⟩, ⟨.d, .e, .a, .b, .c, 47⟩, ⟨.c, .d, .e, .a, .b, 48⟩,
  ⟨.b, .c, .d, .e, .a, 49⟩, ⟨.a, .b, .c, .d, .e, 50⟩, ⟨.e, .a, .b, .c, .d, 51⟩,
  ⟨.d, .e, .a, .b, .c, 52⟩, ⟨.c, .d, .e, .a, .b, 53⟩, ⟨.b, .c, .d, .e, .a, 54⟩,
  ⟨.a, .b, .c, .d, .e, 55⟩, ⟨.e, .a, .b, .c, .d, 56⟩, ⟨.d, .e, .a, .b, .c, 57⟩,
  ⟨.c, .d, .e, .a, .b, 58⟩, ⟨.b, .c, .d, .e, .a, 59⟩]

def rows4 : List Row := [
  ⟨.a, .b, .c, .d, .e, 60⟩, ⟨.e, .a, .b, .c, .d, 61⟩, ⟨.d, .e, .a, .b, .c, 62⟩,
  ⟨.c, .d, .e, .a, .b, 63⟩, ⟨.b, .c, .d, .e, .a, 64⟩, ⟨.a, .b, .c, .d, .e, 65⟩,
  ⟨.e, .a, .b, .c, .d, 66⟩, ⟨.d, .e, .a, .b, .c, 67⟩, ⟨.c, .d, .e, .a, .b, 68⟩,
  ⟨.b, .c, .d, .e, .a, 69⟩, ⟨.a, .b, .c, .d, .e, 70⟩, ⟨.e, .a, .b, .c, .d, 71⟩,
  ⟨.d, .e, .a, .b, .c, 72⟩, ⟨.c, .d, .e, .a, .b, 73⟩, ⟨.b, .c, .d, .e, .a, 74⟩,
  ⟨.a, .b, .c, .d, .e, 75⟩, ⟨.e, .a, .b, .c, .d, 76⟩, ⟨.d, .e, .a, .b, .c, 77⟩,
  ⟨.c, .d, .e, .a, .b, 78⟩, ⟨.b, .c, .d, .e, .a, 79⟩]

/-- A word of the block as the machine reads it. -/
def load (buffer : Str) (i : ℕ) : Word :=
  let byte (j : ℕ) : Word := (buffer.getD (4 * i + j) 0).toBitVec.setWidth 32
  byte 0 + byte 1 <<< 8 + byte 2 <<< 16 + byte 3 <<< 24

def SHA1Transform (state : Regs) (buffer : Str) : Regs :=
  let st := (state, (List.range 16).map (load buffer))
  let st := rows0.foldl R0 st
  let st := rows1.foldl R1 st
  let st := rows2.foldl R2 st
  let st := rows3.foldl R3 st
  let st := rows4.foldl R4 st
  ⟨state.a + st.1.a, state.b + st.1.b, state.c + st.1.c, state.d + st.1.d, state.e + st.1.e⟩

/-! ### The context -/

/-- `SHA1_CTX`. -/
structure Context where
  state : Regs
  count0 : Word
  count1 : Word
  buffer : Str

/-- `SHA1Init`. It leaves `buffer` as the memory has it. -/
def SHA1Init (memory : Str) : Context :=
  ⟨⟨0x67452301, 0xEFCDAB89, 0x98BADCFE, 0x10325476, 0xC3D2E1F0⟩, 0, 0, memory⟩

/-- The loop of `SHA1Update` over the blocks in the data. -/
def transformLoop (data : Str) (len : ℕ) : (fuel i : ℕ) → Regs → Option (ℕ × Regs)
  | 0, _, _ => none
  | fuel + 1, i, state =>
    if (i + 63) % 2 ^ 32 < len then do
      let block ← peek data i 64
      transformLoop data len fuel ((i + 64) % 2 ^ 32) (SHA1Transform state block)
    else some (i, state)

/-- The length, at the beginning of `SHA1Update`. -/
def addCount (s : Context) (len : Word) : Context :=
  let count0 := s.count0 + len <<< 3
  let count1 := if count0 < s.count0 then s.count1 + 1 else s.count1
  { s with count0 := count0, count1 := count1 + len >>> 29 }

/-- `SHA1Update`. Its local variables are of 32 bits. -/
def SHA1Update (s : Context) (data : Str) (length : Word) : Option Context :=
  let j := (s.count0 >>> 3 &&& 63#32).toNat
  let len := length.toNat
  let s := addCount s length
  if (j + len) % 2 ^ 32 > 63 then do
    let bytes ← peek data 0 (64 - j)
    let buffer ← poke s.buffer j bytes
    let (i, state) ← transformLoop data len (len / 64 + 1) (64 - j) (SHA1Transform s.state buffer)
    let bytes ← peek data i (len - i)
    let buffer ← poke buffer 0 bytes
    some { s with state := state, buffer := buffer }
  else do
    let bytes ← peek data 0 len
    let buffer ← poke s.buffer j bytes
    some { s with buffer := buffer }

/-- The loop of `SHA1Final` that appends zeros. -/
def zeroLoop : (fuel : ℕ) → Context → Option Context
  | 0, _ => none
  | fuel + 1, s =>
    if s.count0 &&& 504#32 ≠ 448#32 then do zeroLoop fuel (← SHA1Update s [0] 1) else some s

/-- A byte of a word: `(w >> ((3 - (i & 3)) * 8)) & 255`. -/
def byteOf (w : Word) (i : ℕ) : UInt8 := UInt8.ofBitVec ((w >>> ((3 - i) * 8)).setWidth 8)

def bytesOf (w : Word) : Str := [byteOf w 0, byteOf w 1, byteOf w 2, byteOf w 3]

/-- `SHA1Final`, with the digest. The context is wiped. -/
def SHA1Final (s : Context) : Option Str := do
  let finalcount := bytesOf s.count1 ++ bytesOf s.count0
  let s ← SHA1Update s [0x80] 1
  let s ← zeroLoop 64 s
  let s ← SHA1Update s finalcount 8
  some ([s.state.a, s.state.b, s.state.c, s.state.d, s.state.e].flatMap bytesOf)

/-! ### `crypto_sha1_op` -/

/-- `sum` into a buffer of the caller. The memory of the local context comes first. -/
def sum (memory inData : Str) (inDataLen : ℕ) : Option Str := do
  let ctx ← SHA1Update (SHA1Init memory) inData (BitVec.ofNat 32 inDataLen)
  SHA1Final ctx

/-- The loop that prints the digest: `snprintf` writes two digits and a NUL. -/
def printLoop : (i : ℕ) → Str → Str → Option Str
  | _, [], stack => some stack
  | i, b :: digest, stack => do printLoop (i + 1) digest (← poke stack (i * 2) (hexField b ++ [0]))

/-- `sum` of some data. The memory from `hash_buf` on is `stack`, the array is the first 40 bytes
of it. -/
def sumData (memory stack data : Str) (len : ℕ) : Option (Str × Str) := do
  let digest ← sum memory data len
  let stack ← printLoop 0 digest stack
  let hash ← peek stack 0 40
  some (hash, stack)

/-- `sum` of a string. -/
def sumString (memory stack data : Str) : Option (Str × Str) :=
  sumData memory stack data data.length

end Libchef.Sha1Model
