import Mathlib.Data.Finset.Basic
import Libchef.Base.Ordered
import Libchef.Base.Decimal
import Libchef.StringsModel

/-!
The consistent hash, as `chef_consistent_hash.hpp` has it.

What it takes from the standard library and from its type of nodes is a parameter: how a node
is printed, and the two hash functions.
-/

namespace Libchef.RingModel

open Libchef.Ordered Libchef.StringsModel

variable {T : Type} [DecidableEq T]

/-- `hash_result_t`. -/
abbrev HashResult := ℕ

/-- The template argument, `operator<<` of a node, `std::hash<std::string>` and `std::hash<T>`. -/
structure Params (T : Type) where
  virtualMultis : ℕ
  print : T → Str
  hashString : Str → HashResult
  hashKey : T → HashResult

/-- The text of a virtual node. -/
def Params.hks (P : Params T) (node : T) (i : ℕ) : Str :=
  P.print node ++ lit ['_', '_'] ++ Decimal.print i

/-- The position of a virtual node. -/
def Params.hv (P : Params T) (node : T) (i : ℕ) : HashResult := P.hashString (P.hks node i)

structure ConsistentHash (T : Type) where
  nodes_ : Finset T
  pos2node_ : OrderedMap HashResult T

variable (P : Params T) (c : ConsistentHash T)

def ConsistentHash.make : ConsistentHash T := ⟨∅, .empty⟩

def addNode (node : T) : ConsistentHash T :=
  if node ∈ c.nodes_ then c
  else ⟨insert node c.nodes_, (List.range P.virtualMultis).foldl
    (fun pos2node i => pos2node.insert (P.hv node i) node) c.pos2node_⟩

def delNode (node : T) : ConsistentHash T :=
  if c.nodes_ = ∅ then c
  else ⟨c.nodes_.erase node, (List.range P.virtualMultis).foldl
    (fun pos2node i => pos2node.erase (P.hv node i)) c.pos2node_⟩

/-- `choice_one_node`: the inner `none` is the return of `false`, the outer one a read through
the end of `pos2node_`. -/
def choiceOneNode (key : T) : Option (Option T) :=
  if c.nodes_ = ∅ then some none
  else
    let hv := P.hashKey key
    match c.pos2node_.entries.find? fun iter => hv < iter.1 with
    | some iter => some (some iter.2)
    | none => do
      let iter ← c.pos2node_.entries.head?
      some (some iter.2)

def clearAllNodes (_ : ConsistentHash T) : ConsistentHash T := ⟨∅, .empty⟩

inductive Op (T : Type)
  | addNode (node : T)
  | delNode (node : T)
  | clearAllNodes

def exec : Op T → ConsistentHash T
  | .addNode node => addNode P c node
  | .delNode node => delNode P c node
  | .clearAllNodes => clearAllNodes c

def run (ops : List (Op T)) : ConsistentHash T := ops.foldl (exec P) .make

end Libchef.RingModel
