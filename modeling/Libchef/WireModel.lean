import Libchef.Base.Alloc
import Libchef.Base.Numeral
import Libchef.StringsModel

/-!
Numbers as bytes on the wire, as `chef_be_le_op.hpp` and `chunk_head_op.cc` have them.

Memory is a list of bytes, a pointer is a position in it. An operation is `none` where it leaves
the memory.
-/

namespace Libchef.WireModel

open Libchef.StringsModel Libchef.Alloc Libchef.Numeral

/-! ### `be_le_op` -/

/-- `uint32_t`. -/
abbrev Word := BitVec 32

/-- What the functions that read have in common: byte `j` is shifted by `shifts[j]` bits. -/
def readShifted (shifts : List ℕ) (m : Str) (p : ℕ) : Option Word := do
  let bytes ← peek m p shifts.length
  some ((bytes.zip shifts).foldl (fun val b => val ||| b.1.toBitVec.setWidth 32 <<< b.2) 0)

def readBeUi8 := readShifted [0]

def readBeUi16 := readShifted [8, 0]

def readBeUi24 := readShifted [16, 8, 0]

def readBeUi32 := readShifted [24, 16, 8, 0]

def readLeUi32 := readShifted [0, 8, 16, 24]

/-- What the functions that write have in common. They return a pointer to what comes next. -/
def writeShifted (shifts : List ℕ) (m : Str) (p : ℕ) (val : Word) : Option (Str × ℕ) := do
  let m ← poke m p (shifts.map fun s => UInt8.ofBitVec ((val >>> s).setWidth 8))
  some (m, p + shifts.length)

def writeBeUi8 := writeShifted [0]

def writeBeUi16 := writeShifted [8, 0]

def writeBeUi24 := writeShifted [16, 8, 0]

def writeBeUi32 := writeShifted [24, 16, 8, 0]

def writeLeUi32 := writeShifted [0, 8, 16, 24]

/-! ### `chunk_head_op` -/

/-- The order of the bytes of a number in the memory of a machine. -/
inductive Endian
  | little
  | big
deriving DecidableEq

/-- The bytes of a number in memory. -/
def Endian.bytes : Endian → (k n : ℕ) → Str
  | .little, k, n => toLE k n
  | .big, k, n => toBE k n

/-- The number that bytes in memory are. -/
def Endian.number : Endian → Str → ℕ
  | .little, s => ofLE s
  | .big, s => ofBE s

structure ChunkHead where
  id_ : BitVec 64
  type_ : Word
  reserved_ : Word
  bodyLen_ : Word
deriving DecidableEq

def CHUNK_HEAD_LEN : ℕ := 24

def MAGIC_NUM : Word := 0xB6581EB

/-- The loop of `swap_if_big_endian`, with `left` rounds to go. -/
def swapLoop (len : ℕ) : (left i : ℕ) → Str → Str
  | 0, _, data => data
  | left + 1, i, data =>
    let tmp := data.getD i 0
    let data := data.set i (data.getD (len - 1 - i) 0)
    swapLoop len left (i + 1) (data.set (len - 1 - i) tmp)

def swapIfBigEndian (e : Endian) (data : Str) : Str :=
  if e = .big then swapLoop data.length (data.length / 2) 0 data else data

/-- A member is copied, its bytes are put in order, and these are copied to `raw_head`. -/
def encodeMember (e : Endian) (k n : ℕ) (raw : Str) (at_ : ℕ) : Option Str :=
  poke raw at_ (swapIfBigEndian e (e.bytes k n))

/-- `encode`, with what is at `raw_head` before and after the call. -/
def encode (e : Endian) (ch : ChunkHead) (raw : Str) : Option Str := do
  let raw ← encodeMember e 8 ch.id_.toNat raw 0
  let raw ← encodeMember e 4 ch.type_.toNat raw 8
  let raw ← encodeMember e 4 MAGIC_NUM.toNat raw 12
  let raw ← encodeMember e 4 ch.reserved_.toNat raw 16
  encodeMember e 4 ch.bodyLen_.toNat raw 20

/-- A member read back. -/
def decodeMember (e : Endian) (k : ℕ) (raw : Str) (at_ : ℕ) : Option ℕ := do
  let bytes ← peek raw at_ k
  some (e.number (swapIfBigEndian e bytes))

/-- `decode`, with what is in `ch` before and after the call. -/
def decode (e : Endian) (raw : Str) (ch : ChunkHead) : Option (ℤ × ChunkHead) := do
  let magic ← decodeMember e 4 raw 12
  if BitVec.ofNat 32 magic ≠ MAGIC_NUM then some (-1, ch)
  else do
    let id ← decodeMember e 8 raw 0
    let type ← decodeMember e 4 raw 8
    let reserved ← decodeMember e 4 raw 16
    let bodyLen ← decodeMember e 4 raw 20
    some (0, ⟨BitVec.ofNat 64 id, BitVec.ofNat 32 type, BitVec.ofNat 32 reserved,
      BitVec.ofNat 32 bodyLen⟩)

end Libchef.WireModel
