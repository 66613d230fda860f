import Libchef.Base.Ordered
import Libchef.StringsModel

/-!
Counts of tags, as `chef_count_dump.hpp` keeps them.

Counts are in one map or in the other: as atomics, which wrap around, or as plain integers, for
which an overflow is `none`. The calls are made one after another; a lock that is taken twice is
`none` too.
-/

namespace Libchef.TagCountModel

open Libchef.StringsModel Libchef.Ordered

inductive MultiTagCounterType
  | freeLock
  | atomic
  | mutex
  deriving DecidableEq

structure MultiTagCounter where
  type_ : MultiTagCounterType
  tag2count_ : OrderedMap Str Int64
  tag2atomicCount_ : OrderedMap Str Int64
  mutex_ : Bool

/-- An `int64_t`, if it is one. -/
def toInt64 (n : ℤ) : Option Int64 :=
  if -2 ^ 63 ≤ n ∧ n < 2 ^ 63 then some (Int64.ofInt n) else none

namespace MultiTagCounter

def init (type : MultiTagCounterType) : MultiTagCounter := ⟨type, .empty, .empty, false⟩

variable (c : MultiTagCounter)

def lockIfNeeded : Option MultiTagCounter :=
  if c.type_ = .mutex then
    if c.mutex_ then none else some { c with mutex_ := true }
  else some c

def unlockIfNeeded : MultiTagCounter :=
  if c.type_ = .mutex then { c with mutex_ := false } else c

def addTag (tag : Str) : Option MultiTagCounter :=
  if c.type_ = .atomic then some { c with tag2atomicCount_ := c.tag2atomicCount_.insert tag 0 }
  else do
    let c ← c.lockIfNeeded
    some { c with tag2count_ := c.tag2count_.insert tag 0 }.unlockIfNeeded

def addTags (tags : List Str) : Option MultiTagCounter := tags.foldlM addTag c

/-- What the functions that change a count have in common: what becomes of an atomic count, and of
a plain one. A tag without a plain count gets one. -/
def update (atomic : Int64 → Int64) (plain : Int64 → Option Int64) (tag : Str) :
    Option (Bool × MultiTagCounter) :=
  if c.type_ = .atomic then
    match c.tag2atomicCount_.get? tag with
    | none => some (false, c)
    | some n => some (true,
        { c with tag2atomicCount_ := c.tag2atomicCount_.insert tag (atomic n) })
  else do
    let c ← c.lockIfNeeded
    let n ← plain ((c.tag2count_.get? tag).getD 0)
    some (true, { c with tag2count_ := c.tag2count_.insert tag n }.unlockIfNeeded)

def increment (tag : Str) : Option (Bool × MultiTagCounter) :=
  c.update (· + 1) (fun n => toInt64 (n.toInt + 1)) tag

def decrement (tag : Str) : Option (Bool × MultiTagCounter) :=
  c.update (· - 1) (fun n => toInt64 (n.toInt - 1)) tag

def addCount (tag : Str) (num : Int64) : Option (Bool × MultiTagCounter) :=
  c.update (· + num) (fun n => toInt64 (n.toInt + num.toInt)) tag

def delCount (tag : Str) (num : Int64) : Option (Bool × MultiTagCounter) :=
  c.update (· - num) (fun n => toInt64 (n.toInt - num.toInt)) tag

def setCount (tag : Str) (num : Int64) : Option (Bool × MultiTagCounter) :=
  c.update (fun _ => num) (fun _ => some num) tag

/-- What `get_tag_count` returns, and what it writes to `num` if it does. -/
def getTagCount (tag : Str) : Option ((Bool × Option Int64) × MultiTagCounter) :=
  if c.type_ = .atomic then
    match c.tag2atomicCount_.get? tag with
    | none => some ((false, none), c)
    | some n => some ((true, some n), c)
  else do
    let c ← c.lockIfNeeded
    match c.tag2count_.get? tag with
    | none => some ((false, none), c.unlockIfNeeded)
    | some n => some ((true, some n), c.unlockIfNeeded)

def getTagsCount : Option (OrderedMap Str Int64 × MultiTagCounter) :=
  if c.type_ = .atomic then
    some (c.tag2atomicCount_.entries.foldl (fun ret e => ret.insert e.1 e.2) .empty, c)
  else do
    let c ← c.lockIfNeeded
    some (c.tag2count_, c.unlockIfNeeded)

end MultiTagCounter

/-- A call that adds tags. -/
inductive Add
  | addTag (tag : Str)
  | addTags (tags : List Str)

def Add.step (c : MultiTagCounter) : Add → Option MultiTagCounter
  | .addTag tag => c.addTag tag
  | .addTags tags => c.addTags tags

/-- A counter to which tags have been added. -/
def start (type : MultiTagCounterType) (adds : List Add) : Option MultiTagCounter :=
  adds.foldlM Add.step (.init type)

/-- A call that counts. -/
inductive Op
  | increment (tag : Str)
  | decrement (tag : Str)
  | addCount (tag : Str) (num : Int64)
  | delCount (tag : Str) (num : Int64)
  | setCount (tag : Str) (num : Int64)
  | getTagCount (tag : Str)
  | getTagsCount

/-- What a call returns. -/
inductive Res
  | done (ret : Bool)
  | count (ret : Bool) (num : Option Int64)
  | counts (m : OrderedMap Str Int64)

def Op.step (c : MultiTagCounter) : Op → Option (Res × MultiTagCounter)
  | .increment tag => (c.increment tag).map (Prod.map .done id)
  | .decrement tag => (c.decrement tag).map (Prod.map .done id)
  | .addCount tag num => (c.addCount tag num).map (Prod.map .done id)
  | .delCount tag num => (c.delCount tag num).map (Prod.map .done id)
  | .setCount tag num => (c.setCount tag num).map (Prod.map .done id)
  | .getTagCount tag => (c.getTagCount tag).map (Prod.map (fun r => .count r.1 r.2) id)
  | .getTagsCount => c.getTagsCount.map (Prod.map .counts id)

/-- The counter after some calls. -/
def run (c : MultiTagCounter) (ops : List Op) : Option MultiTagCounter :=
  ops.foldlM (fun c op => (op.step c).map Prod.snd) c

end Libchef.TagCountModel
