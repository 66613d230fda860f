import Libchef.Base.Alloc
import Libchef.HexModel

/-!
The digest, as `chef_crypto_sha256_op.hpp` has it: the class `cryptlite__::sha256`, and the
functions around it.

An operation is `none` where it writes outside `message_block_` or the digest, or reads past the
input.
-/

namespace Libchef.Sha256Model

open Libchef.StringsModel Libchef.Alloc Libchef.HexModel

/-- `uint32_t`. -/
abbrev Word := BitVec 32

def BLOCK_SIZE : ℕ := 64

def HASH_SIZE : ℕ := 32

section Macros

variable (bits : ℕ) (word x y z : Word)

def SHR : Word := word >>> bits

def ROTR : Word := word >>> bits ||| word <<< (32 - bits)

def SIGMA0 : Word := ROTR 2 word ^^^ ROTR 13 word ^^^ ROTR 22 word

def SIGMA1 : Word := ROTR 6 word ^^^ ROTR 11 word ^^^ ROTR 25 word

def sigma0 : Word := ROTR 7 word ^^^ ROTR 18 word ^^^ SHR 3 word

def sigma1 : Word := ROTR 17 word ^^^ ROTR 19 word ^^^ SHR 10 word

def CH : Word := (x &&& (y ^^^ z)) ^^^ z

def MAJ : Word := (x &&& (y ||| z)) ||| (y &&& z)

end Macros

def K : List Word := [
  0x428a2f98, 0x71374491, 0xb5c0fbcf, 0xe9b5dba5, 0x3956c25b,
  0x59f111f1, 0x923f82a4, 0xab1c5ed5, 0xd807aa98, 0x12835b01,
  0x243185be, 0x550c7dc3, 0x72be5d74, 0x80deb1fe, 0x9bdc06a7,
  0xc19bf174, 0xe49b69c1, 0xefbe4786, 0x0fc19dc6, 0x240ca1cc,
  0x2de92c6f, 0x4a7484aa, 0x5cb0a9dc, 0x76f988da, 0x983e5152,
  0xa831c66d, 0xb00327c8, 0xbf597fc7, 0xc6e00bf3, 0xd5a79147,
  0x06ca6351, 0x14292967, 0x27b70a85, 0x2e1b2138, 0x4d2c6dfc,
  0x53380d13, 0x650a7354, 0x766a0abb, 0x81c2c92e, 0x92722c85,
  0xa2bfe8a1, 0xa81a664b, 0xc24b8b70, 0xc76c51a3, 0xd192e819,
  0xd6990624, 0xf40e3585, 0x106aa070, 0x19a4c116, 0x1e376c08,
  0x2748774c, 0x34b0bcb5, 0x391c0cb3, 0x4ed8aa4a, 0x5b9cca4f,
  0x682e6ff3, 0x748f82ee, 0x78a5636f, 0x84c87814, 0x8cc70208,
  0x90befffa, 0xa4506ceb, 0xbef9a3f7, 0xc67178f2]

/-! ### `process_message_block` -/

/-- `(uint32_t)message_block_[i]`. -/
def byteAt (block : Str) (i : ℕ) : Word := (block.getD i 0).toBitVec.setWidth 32

/-- One of the words `W[0]` to `W[15]`. -/
def firstWord (block : Str) (t : ℕ) : Word :=
  byteAt block (4 * t) <<< 24 ||| byteAt block (4 * t + 1) <<< 16 |||
    byteAt block (4 * t + 2) <<< 8 ||| byteAt block (4 * t + 3)

/-- One of the words `W[16]` to `W[63]`, which the source writes out one by one. -/
def nextWord (W : List Word) (t : ℕ) : List Word :=
  W ++ [sigma1 (W.getD (t - 2) 0) + W.getD (t - 7) 0 + sigma0 (W.getD (t - 15) 0) +
    W.getD (t - 16) 0]

def schedule (block : Str) : List Word :=
  (List.range' 16 48).foldl nextWord ((List.range 16).map (firstWord block))

/-- The local variables `A` to `H`. -/
structure Locals where
  A : Word
  B : Word
  C : Word
  D : Word
  E : Word
  F : Word
  G : Word
  H : Word

/-- One of the 64 steps, which the source writes out one by one. -/
def step (W : List Word) (r : Locals) (t : ℕ) : Locals :=
  let temp1 := r.H + SIGMA1 r.E + CH r.E r.F r.G + K.getD t 0 + W.getD t 0
  let temp2 := SIGMA0 r.A + MAJ r.A r.B r.C
  { H := r.G, G := r.F, F := r.E, E := r.D + temp1, D := r.C, C := r.B, B := r.A,
    A := temp1 + temp2 }

/-- `intermediate_hash_`. -/
structure Hash where
  h0 : Word
  h1 : Word
  h2 : Word
  h3 : Word
  h4 : Word
  h5 : Word
  h6 : Word
  h7 : Word

def Hash.toList (h : Hash) : List Word := [h.h0, h.h1, h.h2, h.h3, h.h4, h.h5, h.h6, h.h7]

/-- What `process_message_block` makes of the hash and of the block. -/
def compress (h : Hash) (block : Str) : Hash :=
  let r := (List.range 64).foldl (step (schedule block))
    ⟨h.h0, h.h1, h.h2, h.h3, h.h4, h.h5, h.h6, h.h7⟩
  ⟨h.h0 + r.A, h.h1 + r.B, h.h2 + r.C, h.h3 + r.D, h.h4 + r.E, h.h5 + r.F, h.h6 + r.G, h.h7 + r.H⟩

/-! ### The class -/

structure Sha256 where
  computed_ : Bool
  corrupted_ : Bool
  lengthLow_ : Word
  lengthHigh_ : Word
  messageBlockIndex_ : ℕ
  intermediateHash_ : Hash
  messageBlock_ : Str

def initialHash : Hash :=
  ⟨0x6A09E667, 0xBB67AE85, 0x3C6EF372, 0xA54FF53A, 0x510E527F, 0x9B05688C, 0x1F83D9AB, 0x5BE0CD19⟩

/-- The constructor. It leaves `message_block_` as the memory has it. -/
def new (memory : Str) : Sha256 := ⟨false, false, 0, 0, 0, initialHash, memory⟩

namespace Sha256

def reset (s : Sha256) : Sha256 := ⟨false, false, 0, 0, 0, initialHash, s.messageBlock_⟩

def processMessageBlock (s : Sha256) : Sha256 :=
  { s with
    intermediateHash_ := compress s.intermediateHash_ s.messageBlock_, messageBlockIndex_ := 0 }

/-- `SHA256_ADD_LENGTH`. -/
def addLength (s : Sha256) (length : Word) : Sha256 :=
  if s.lengthLow_ + length < s.lengthLow_ then
    { s with
      lengthLow_ := s.lengthLow_ + length, lengthHigh_ := s.lengthHigh_ + 1,
      corrupted_ := s.lengthHigh_ + 1 = 0 }
  else { s with lengthLow_ := s.lengthLow_ + length, corrupted_ := false }

/-- `message_block_[message_block_index_++] = c`. -/
def put (s : Sha256) (c : UInt8) : Option Sha256 := do
  let block ← poke s.messageBlock_ s.messageBlockIndex_ [c]
  some { s with messageBlock_ := block, messageBlockIndex_ := s.messageBlockIndex_ + 1 }

/-- The round of the loop in `input` for one byte. -/
def inputByte (s : Sha256) (c : UInt8) : Option Sha256 := do
  let s ← s.put c
  let s := s.addLength 8
  some (if !s.corrupted_ ∧ s.messageBlockIndex_ = BLOCK_SIZE then s.processMessageBlock else s)

/-- The loop of `input`, with `length` rounds to go. -/
def inputLoop : (length : ℕ) → Sha256 → Str → Option Sha256
  | 0, s, _ => some s
  | length + 1, s, messageArray =>
    if s.corrupted_ then some s
    else
      match messageArray with
      | [] => none
      | c :: messageArray => do inputLoop length (← s.inputByte c) messageArray

def input (s : Sha256) (messageArray : Str) (length : Word) : Option Sha256 :=
  if s.computed_ ∨ s.corrupted_ ∨ length = 0 then some s
  else inputLoop length.toNat s messageArray

/-- A loop that writes zeros to the block up to position `limit`. -/
def fillZeros (s : Sha256) (limit : ℕ) : Option Sha256 :=
  (List.replicate (limit - s.messageBlockIndex_) 0).foldlM put s

/-- The lowest byte of a word after a shift. -/
def lowByte (w : Word) (shift : ℕ) : UInt8 := UInt8.ofBitVec ((w >>> shift).setWidth 8)

/-- The end of `pad_message`, where the length is written. -/
def closeBlock (s : Sha256) : Option Sha256 := do
  let s ← s.fillZeros (BLOCK_SIZE - 8)
  let block ← poke s.messageBlock_ 56
    [lowByte s.lengthHigh_ 24, lowByte s.lengthHigh_ 16, lowByte s.lengthHigh_ 8,
      lowByte s.lengthHigh_ 0, lowByte s.lengthLow_ 24, lowByte s.lengthLow_ 16,
      lowByte s.lengthLow_ 8, lowByte s.lengthLow_ 0]
  some { s with messageBlock_ := block }.processMessageBlock

def padMessage (s : Sha256) (padByte : UInt8) : Option Sha256 :=
  if s.messageBlockIndex_ ≥ BLOCK_SIZE - 8 then do
    let s ← s.put padByte
    let s ← s.fillZeros BLOCK_SIZE
    s.processMessageBlock.closeBlock
  else do
    let s ← s.put padByte
    s.closeBlock

def finalize (s : Sha256) (padByte : UInt8) : Option Sha256 := do
  let s ← s.padMessage padByte
  let block ← poke s.messageBlock_ 0 (List.replicate BLOCK_SIZE 0)
  some { s with messageBlock_ := block, lengthLow_ := 0, lengthHigh_ := 0, computed_ := true }

def masks : List UInt8 := [0x00, 0x80, 0xC0, 0xE0, 0xF0, 0xF8, 0xFC, 0xFE]

def markbit : List UInt8 := [0x80, 0x40, 0x20, 0x10, 0x08, 0x04, 0x02, 0x01]

def finalBits (s : Sha256) (messageBits : UInt8) (length : Word) : Option Sha256 :=
  if length = 0 then some s
  else
    let s := if s.computed_ ∨ length ≥ 8 ∨ length = 0 then { s with corrupted_ := true } else s
    if s.corrupted_ then some s
    else
      (s.addLength length).finalize
        ((messageBits &&& masks.getD length.toNat 0) ||| markbit.getD length.toNat 0)

/-- `result`, with what is in `digest` before and after the call. -/
def result (s : Sha256) (digest : Str) : Option (Sha256 × Str) :=
  if s.corrupted_ then some (s, digest)
  else do
    let s ← if s.computed_ then some s else s.finalize 0x80
    let digest ← poke digest 0 (s.intermediateHash_.toList.flatMap fun w =>
      [lowByte w 24, lowByte w 16, lowByte w 8, lowByte w 0])
    some (s, digest)

end Sha256

/-! ### `crypto_sha256_op` -/

/-- `sum` into a buffer of the caller. The memory of the local object comes first. -/
def sum (memory inData : Str) (inDataLen : ℕ) (digest : Str) : Option Str := do
  let ctx ← (new memory).input inData (BitVec.ofNat 32 inDataLen)
  let (_, digest) ← ctx.result digest
  some digest

/-- The loop that prints a digest. -/
def printDigest (digest : Str) : Option Str := do
  some ((← peek digest 0 HASH_SIZE).flatMap hexField)

/-- `sum` of some data. What is in the local `digest` at first comes after the memory. -/
def sumData (memory digest data : Str) (len : ℕ) : Option Str := do
  let ctx ← (new memory).input data (BitVec.ofNat 32 len)
  let (_, digest) ← ctx.result digest
  printDigest digest

def hashHex (memory digest s : Str) : Option Str := do
  let ctx ← (new memory).input s (BitVec.ofNat 32 s.length)
  let (_, digest) ← ctx.result digest
  printDigest digest

/-- `sum` of a string. -/
def sumString (memory digest data : Str) : Option Str := hashHex memory digest data

end Libchef.Sha256Model
