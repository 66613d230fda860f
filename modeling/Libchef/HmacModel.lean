import Libchef.Sha256Model

/-!
The message authentication code, as `chef_crypto_hmac_sha256.hpp` has it: the class
`cryptlite__::hmac<cryptlite__::sha256>`, and the class around it.

An operation is `none` where it writes outside an array, or reads past the key or the data.
-/

namespace Libchef.HmacModel

open Libchef.StringsModel Libchef.Alloc Libchef.Sha256Model

structure Hmac where
  kOpad_ : Str
  hasher_ : Sha256

/-- The memory the local variables of `reset` are given: `k_ipad`, `tempkey`, and the block of
`sha`. -/
structure ResetLocals where
  kIpad : Str
  tempkey : Str
  sha : Str

/-- A round of a loop of `reset`, which writes to `k_ipad` and to `k_opad_`. -/
def padAt (pads : Str × Str) (i : ℕ) (inner outer : UInt8) : Option (Str × Str) := do
  let ipad ← poke pads.1 i [inner]
  let opad ← poke pads.2 i [outer]
  some (ipad, opad)

/-- The loop of `reset` over the key. -/
def keyLoop : (i : ℕ) → Str → Str × Str → Option (Str × Str)
  | _, [], pads => some pads
  | i, b :: key, pads => do keyLoop (i + 1) key (← padAt pads i (b ^^^ 0x36) (b ^^^ 0x5c))

/-- The loop of `reset` over the rest of the block. -/
def restLoop : (left i : ℕ) → Str × Str → Option (Str × Str)
  | 0, _, pads => some pads
  | left + 1, i, pads => do restLoop left (i + 1) (← padAt pads i 0x36 0x5c)

namespace Hmac

/-- `reset`. A long key is replaced by its digest; `key_len` is an `int`. -/
def reset (h : Hmac) (locals : ResetLocals) (key : Str) (keyLen : Word) : Option Hmac := do
  let (key, keyLen) ←
    if keyLen.toInt > BLOCK_SIZE then do
      let sha ← (Sha256Model.new locals.sha).input key keyLen
      let (_, tempkey) ← sha.result locals.tempkey
      some (tempkey, (HASH_SIZE : ℤ))
    else some (key, keyLen.toInt)
  let bytes ← peek key 0 keyLen.toNat
  let pads ← keyLoop 0 bytes (locals.kIpad, h.kOpad_)
  let pads ← restLoop (BLOCK_SIZE - keyLen.toNat) keyLen.toNat pads
  let hasher ← h.hasher_.reset.input pads.1 (BitVec.ofNat 32 BLOCK_SIZE)
  some ⟨pads.2, hasher⟩

/-- The constructor. The memory of the object is `kOpad` and `block`. -/
def new (kOpad block : Str) (locals : ResetLocals) (key : Str) (keyLen : Word) : Option Hmac :=
  reset ⟨kOpad, Sha256Model.new block⟩ locals key keyLen

def input (h : Hmac) (text : Str) (textLen : Word) : Option Hmac := do
  let hasher ← h.hasher_.input text textLen
  some { h with hasher_ := hasher }

def finalBits (h : Hmac) (bits : UInt8) (bitcount : Word) : Option Hmac := do
  let hasher ← h.hasher_.finalBits bits bitcount
  some { h with hasher_ := hasher }

/-- `result`, with what is in `digest` before and after the call. -/
def result (h : Hmac) (digest : Str) : Option (Hmac × Str) := do
  let (hasher, digest) ← h.hasher_.result digest
  let hasher ← hasher.reset.input h.kOpad_ (BitVec.ofNat 32 BLOCK_SIZE)
  let hasher ← hasher.input digest (BitVec.ofNat 32 HASH_SIZE)
  let (hasher, digest) ← hasher.result digest
  some ({ h with hasher_ := hasher }, digest)

/-- `calc`, with what is in `digest` before and after the call. -/
def calcDigest (kOpad block : Str) (locals : ResetLocals) (text : Str) (textLen : Word) (key : Str)
    (keyLen : Word) (digest : Str) : Option Str := do
  let ctx ← new kOpad block locals key keyLen
  let ctx ← ctx.input text textLen
  let (_, digest) ← ctx.result digest
  some digest

/-- `calc_hex`. What is in the local `digest` at first comes last. -/
def calcHex (kOpad block : Str) (locals : ResetLocals) (text : Str) (textLen : Word) (key : Str)
    (keyLen : Word) (digest : Str) : Option Str := do
  printDigest (← calcDigest kOpad block locals text textLen key keyLen digest)

end Hmac

/-! ### `crypto_hmac_sha256` -/

/-- The constructor, given a `size_t`. -/
def new (kOpad block : Str) (locals : ResetLocals) (key : Str) (keyLen : ℕ) : Option Hmac :=
  Hmac.new kOpad block locals key (BitVec.ofNat 32 keyLen)

def update (h : Hmac) (buf : Str) (len : ℕ) : Option Hmac := h.input buf (BitVec.ofNat 32 len)

/-- `final`, with what is in `dst` before and after the call. -/
def final (h : Hmac) (dst : Str) : Option (Hmac × Str) := h.result dst

end Libchef.HmacModel
