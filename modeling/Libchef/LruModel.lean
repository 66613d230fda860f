import Libchef.Base.Ordered
import Libchef.Base.Runs

/-!
The LRU cache, as `chef_lru.hpp` has it.

The list is a list of nodes, each with the address that iterators into it keep. `none` is a
step through an iterator that refers to no node of the list.
-/

namespace Libchef.LruModel

open Libchef.Ordered

/-- A `List::iterator`: the address of its node. -/
abbrev Iter := ℕ

structure Node (K V : Type) where
  iter : Iter
  kvp : K × V

/-- A `std::list`: its nodes, and an address from which on none has been used. -/
structure KvList (K V : Type) where
  nodes : List (Node K V)
  fresh : Iter

namespace KvList

variable {K V : Type} (l : KvList K V)

def empty : KvList K V := ⟨[], 0⟩

def size : ℕ := l.nodes.length

/-- The bindings in the list, from the front. -/
def kvps : List (K × V) := l.nodes.map Node.kvp

/-- `*iter`. -/
def deref (iter : Iter) : Option (K × V) := (l.nodes.find? fun n => n.iter = iter).map Node.kvp

def erase (iter : Iter) : Option (KvList K V) := do
  let _ ← l.deref iter
  some { l with nodes := l.nodes.filter fun n => n.iter ≠ iter }

def pushFront (kvp : K × V) : KvList K V := ⟨⟨l.fresh, kvp⟩ :: l.nodes, l.fresh + 1⟩

def begin_ : Option Iter := l.nodes.head?.map Node.iter

def back : Option (K × V) := l.nodes.getLast?.map Node.kvp

def popBack : KvList K V := { l with nodes := l.nodes.dropLast }

end KvList

structure Lru (K V : Type) [LinearOrder K] where
  capacity_ : ℕ
  list_ : KvList K V
  map_ : OrderedMap K Iter

variable {K V : Type} [LinearOrder K]

def make (cap : ℕ) : Lru K V := ⟨cap, .empty, .empty⟩

def size (c : Lru K V) : ℕ := c.list_.size

def getList (c : Lru K V) : List (K × V) := c.list_.kvps

/-- The front part of `put`: the list and the map without the key, and whether it was absent. -/
def forget (c : Lru K V) (k : K) : Option (KvList K V × OrderedMap K Iter × Bool) :=
  match c.map_.get? k with
  | none => some (c.list_, c.map_, true)
  | some iter => do
    let list ← c.list_.erase iter
    some (list, c.map_.erase k, false)

def put (c : Lru K V) (k : K) (v : V) : Option (Lru K V × Bool) := do
  let (list, map, notExist) ← forget c k
  let list := list.pushFront (k, v)
  let map := map.insert k (← list.begin_)
  if list.size > c.capacity_ then do
    let old := (← list.back).1
    some (⟨c.capacity_, list.popBack, map.erase old⟩, notExist)
  else some (⟨c.capacity_, list, map⟩, notExist)

/-- `get`, which returns whether the key is there, and then writes its value. -/
def get (c : Lru K V) (k : K) : Option (Lru K V × Option V) :=
  match c.map_.get? k with
  | none => some (c, none)
  | some iter => do
    let kvp ← c.list_.deref iter
    let list := (← c.list_.erase iter).pushFront kvp
    let map := c.map_.insert k (← list.begin_)
    some (⟨c.capacity_, list, map⟩, some kvp.2)

/-! ### Runs -/

/-- A call and what it returned. -/
inductive Call (K V : Type)
  | put (k : K) (v : V) (notExist : Bool)
  | get (k : K) (v : Option V)

inductive Op (K V : Type)
  | put (k : K) (v : V)
  | get (k : K)

/-- One operation on a cache and the calls made of it, the newest first. -/
def step (t : Lru K V × List (Call K V)) : Op K V → Option (Lru K V × List (Call K V))
  | .put k v => do
    let (c, notExist) ← put t.1 k v
    some (c, .put k v notExist :: t.2)
  | .get k => do
    let (c, v) ← get t.1 k
    some (c, .get k v :: t.2)

def run (cap : ℕ) (ops : List (Op K V)) : Option (Lru K V × List (Call K V)) :=
  Runs.exec step (make cap, []) ops

end Libchef.LruModel
