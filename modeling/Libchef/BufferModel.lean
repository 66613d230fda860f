import Libchef.Base.Alloc
import Mathlib.Algebra.Order.Ring.Nat

/-!
The buffer, as `chef_buffer.hpp` has it, over bytes.

`LenType` is an unsigned type of `w` bits, and its arithmetic is modulo `2 ^ w`. Several
buffers share one memory. An operation is `none` where an assertion fails, where a copy
leaves its allocation, where a byte that was never written is read, and where a loop does
not end.
-/

namespace Libchef.BufferModel

open Libchef.Alloc

abbrev Memory := Heap UInt8

/-! ### Arithmetic of `LenType` -/

section Arith

variable (w a b : ℕ)

def add : ℕ := (a + b) % 2 ^ w
def sub : ℕ := (a + (2 ^ w - b)) % 2 ^ w
def shl : ℕ := a * 2 % 2 ^ w

variable {w a b}

lemma add_eq (h : a + b < 2 ^ w) : add w a b = a + b := Nat.mod_eq_of_lt h

lemma sub_eq (h : b ≤ a) (ha : a < 2 ^ w) : sub w a b = a - b := by
  rw [sub, show a + (2 ^ w - b) = a - b + 2 ^ w by omega, Nat.add_mod_right]
  exact Nat.mod_eq_of_lt (by omega)

lemma shl_eq (h : a * 2 < 2 ^ w) : shl w a = a * 2 := Nat.mod_eq_of_lt h

end Arith

/-- `std::isspace` of the "C" locale. -/
def isspace (c : UInt8) : Bool := c = 32 ∨ (9 ≤ c ∧ c ≤ 13)

structure Buffer where
  initCapacity_ : ℕ
  shrinkCapacity_ : ℕ
  capacity_ : ℕ
  readIndex_ : ℕ
  writeIndex_ : ℕ
  data_ : Ptr

/-- What `const DataType *data` points to: bytes of the caller, or an allocation from a cell
on. -/
inductive Source
  | bytes (data : List UInt8)
  | cells (p : Ptr) (i : ℕ)

/-- `memcpy` of `n` bytes to cell `i` of an allocation. -/
def Source.copyTo (H : Memory) (dst : Ptr) (i n : ℕ) : Source → Option Memory
  | .bytes data => if n ≤ data.length then H.write dst i ((data.take n).map some) else none
  | .cells p j => H.memcpy dst i p j n

section Ops

variable (w : ℕ)

def readableSize (b : Buffer) : ℕ := sub w b.writeIndex_ b.readIndex_

/-- The loop of `reserve` that doubles the capacity. After `w` rounds the capacity is zero
and stays so. -/
def grow (needLen : ℕ) : (fuel : ℕ) → (capacity : ℕ) → Option ℕ
  | 0, _ => none
  | fuel + 1, capacity =>
    if capacity < needLen then grow needLen fuel (shl w capacity) else some capacity

def reserve (H : Memory) (b : Buffer) (len : ℕ) : Option (Memory × Buffer) :=
  if sub w b.capacity_ b.writeIndex_ ≥ len then some (H, b)
  else if add w (sub w b.capacity_ b.writeIndex_) b.readIndex_ ≥ len then do
    let H ← H.memmove b.data_ 0 b.data_ b.readIndex_ (readableSize w b)
    some (H, { b with writeIndex_ := readableSize w b, readIndex_ := 0 })
  else do
    let capacity ← grow w (add w (readableSize w b) len) (w + 1) b.capacity_
    let (p, H) := H.new capacity
    let H ← H.memcpy p 0 b.data_ b.readIndex_ (readableSize w b)
    let H ← H.delete b.data_
    some (H, { b with
      capacity_ := capacity, writeIndex_ := readableSize w b, readIndex_ := 0, data_ := p })

def append (H : Memory) (b : Buffer) (data : Source) (len : ℕ) : Option (Memory × Buffer) := do
  let (H, b) ← reserve w H b len
  let H ← data.copyTo H b.data_ b.writeIndex_ len
  some (H, { b with writeIndex_ := add w b.writeIndex_ len })

def seekWritePos (b : Buffer) (len : ℕ) : Option Buffer :=
  if sub w b.capacity_ b.writeIndex_ ≥ len then
    some { b with writeIndex_ := add w b.writeIndex_ len }
  else none

def seekWritePosRollback (b : Buffer) (len : ℕ) : Option Buffer :=
  if sub w b.writeIndex_ b.readIndex_ ≥ len then
    some { b with writeIndex_ := sub w b.writeIndex_ len }
  else none

/-- The end of `erase`, which gives memory back. -/
def shrink (H : Memory) (b : Buffer) : Option (Memory × Buffer) :=
  if sub w b.writeIndex_ b.readIndex_ < b.initCapacity_ ∧ b.capacity_ > b.shrinkCapacity_ then do
    let (p, H) := H.new b.initCapacity_
    let H ← H.memcpy p 0 b.data_ b.readIndex_ (readableSize w b)
    let H ← H.delete b.data_
    some (H, { b with
      writeIndex_ := readableSize w b, readIndex_ := 0, data_ := p, capacity_ := b.initCapacity_ })
  else some (H, b)

def erase (H : Memory) (b : Buffer) (len : ℕ) : Option (Memory × Buffer) :=
  if sub w b.writeIndex_ b.readIndex_ ≥ len then
    shrink w H { b with readIndex_ := add w b.readIndex_ len }
  else none

def clear (H : Memory) (b : Buffer) : Option (Memory × Buffer) :=
  if b.capacity_ > b.shrinkCapacity_ then do
    let H ← H.delete b.data_
    let (p, H) := H.new b.initCapacity_
    some (H, { b with
      readIndex_ := 0, writeIndex_ := 0, capacity_ := b.initCapacity_, data_ := p })
  else some (H, { b with readIndex_ := 0, writeIndex_ := 0 })

/-- The loop of `trim_left`, `left` rounds before the indices meet. -/
def trimLeftLoop (H : Memory) (p : Ptr) : (left readIndex : ℕ) → Option ℕ
  | 0, readIndex => some readIndex
  | left + 1, readIndex => do
    let ch ← H.get p readIndex
    if isspace ch then trimLeftLoop H p left (add w readIndex 1) else some readIndex

def trimLeft (H : Memory) (b : Buffer) : Option Buffer := do
  let readIndex ← trimLeftLoop w H b.data_ (readableSize w b) b.readIndex_
  some { b with readIndex_ := readIndex }

/-- The loop of `trim_right`, `left` rounds before the indices meet. -/
def trimRightLoop (H : Memory) (p : Ptr) : (left writeIndex : ℕ) → Option ℕ
  | 0, writeIndex => some writeIndex
  | left + 1, writeIndex => do
    let ch ← H.get p (sub w writeIndex 1)
    if isspace ch then trimRightLoop H p left (sub w writeIndex 1) else some writeIndex

def trimRight (H : Memory) (b : Buffer) : Option Buffer := do
  let writeIndex ← trimRightLoop w H b.data_ (readableSize w b) b.writeIndex_
  some { b with writeIndex_ := writeIndex }

/-- `basic_buffer(init_capacity, shrink_capacity)`. -/
def make (H : Memory) (initCapacity shrinkCapacity : ℕ) : Memory × Buffer :=
  let (p, H) := H.new initCapacity
  (H, ⟨initCapacity, shrinkCapacity, initCapacity, 0, 0, p⟩)

/-- `basic_buffer(data, len)`. -/
def makeData (H : Memory) (data : List UInt8) : Option (Memory × Buffer) :=
  let (H, b) := make H data.length (shl w data.length)
  append w H b (.bytes data) data.length

/-- The copy constructor. -/
def copy (H : Memory) (b : Buffer) : Option (Memory × Buffer) :=
  let (p, H) := H.new b.capacity_
  append w H ⟨b.initCapacity_, b.shrinkCapacity_, b.capacity_, 0, 0, p⟩
    (.cells b.data_ b.readIndex_) (readableSize w b)

/-- The assignment of another buffer. -/
def assign (H : Memory) (b other : Buffer) : Option (Memory × Buffer) :=
  append w H { b with readIndex_ := 0, writeIndex_ := 0 }
    (.cells other.data_ other.readIndex_) (readableSize w other)

/-- `reserve(n)`, then the caller writes `data` from `write_pos()` on, then
`seek_write_pos(m)`. -/
def fill (H : Memory) (b : Buffer) (n : ℕ) (data : List UInt8) (m : ℕ) :
    Option (Memory × Buffer) := do
  let (H, b) ← reserve w H b n
  let H ← H.write b.data_ b.writeIndex_ (data.map some)
  let b ← seekWritePos w b m
  some (H, b)

end Ops

/-! ### Runs over several buffers -/

/-- The memory and the buffers that live in it. -/
structure Store where
  mem : Memory
  bufs : List Buffer

/-- The operations; a buffer is named by the order of its construction. -/
inductive Op
  | make (initCapacity shrinkCapacity : ℕ)
  | makeData (data : List UInt8)
  | copy (other : ℕ)
  | assign (i other : ℕ)
  | append (i : ℕ) (data : List UInt8)
  | reserve (i len : ℕ)
  | fill (i n : ℕ) (data : List UInt8) (m : ℕ)
  | rollback (i len : ℕ)
  | erase (i len : ℕ)
  | clear (i : ℕ)
  | trimLeft (i : ℕ)
  | trimRight (i : ℕ)

def Store.empty : Store := ⟨.empty, []⟩

/-- An operation that changes one buffer. -/
def Store.on (t : Store) (i : ℕ) (f : Memory → Buffer → Option (Memory × Buffer)) :
    Option Store := do
  let b ← t.bufs[i]?
  let (H, b) ← f t.mem b
  some ⟨H, t.bufs.set i b⟩

/-- A new buffer. -/
def Store.push (t : Store) (r : Memory × Buffer) : Store := ⟨r.1, t.bufs ++ [r.2]⟩

variable (w : ℕ)

def exec (t : Store) : Op → Option Store
  | .make initCapacity shrinkCapacity => some (t.push (make t.mem initCapacity shrinkCapacity))
  | .makeData data => do some (t.push (← makeData w t.mem data))
  | .copy j => do some (t.push (← copy w t.mem (← t.bufs[j]?)))
  | .assign i j => do
    let other ← t.bufs[j]?
    if i = j then some t else t.on i fun H b => assign w H b other
  | .append i data => t.on i fun H b => append w H b (.bytes data) data.length
  | .reserve i len => t.on i fun H b => reserve w H b len
  | .fill i n data m => t.on i fun H b => fill w H b n data m
  | .rollback i len => t.on i fun H b => do some (H, ← seekWritePosRollback w b len)
  | .erase i len => t.on i fun H b => erase w H b len
  | .clear i => t.on i fun H b => clear H b
  | .trimLeft i => t.on i fun H b => do some (H, ← trimLeft w H b)
  | .trimRight i => t.on i fun H b => do some (H, ← trimRight w H b)

/-- A sequence of operations, from no buffers at all. -/
def run (ops : List Op) : Option Store := ops.foldlM (exec w) .empty

end Libchef.BufferModel
