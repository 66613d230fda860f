import Libchef.Base.Ordered
import Libchef.Base.Runs
import Mathlib.Algebra.Order.Ring.Nat

/-!
The weight selector, as `chef_weight_selector.hpp` has it.
-/

namespace Libchef.WeightModel

open Libchef.Ordered

/-- The value of an expression once it is stored in a `uint32_t`. -/
def uint32 (x : ℤ) : ℕ := (x % 2 ^ 32).toNat

/-- The value of a sum or difference computed as an `int64_t`. -/
def int64 (x : ℤ) : ℤ := x.bmod (2 ^ 64)

/-- The data members. An item is in both maps or in neither. -/
structure WeightSelector (T : Type) [LinearOrder T] where
  totalWeight_ : ℕ
  item2weightInitial_ : OrderedMap T ℤ
  item2weightCurrent_ : OrderedMap T ℤ
  sameItems : ∀ x, (item2weightInitial_.get? x).isSome = (item2weightCurrent_.get? x).isSome

variable {T : Type} [LinearOrder T]

def make : WeightSelector T := ⟨0, .empty, .empty, fun _ => rfl⟩

/-- `item2weight_initial_[x]`, for an item in the maps. -/
def WeightSelector.initial (ws : WeightSelector T) (x : T) : ℤ :=
  (ws.item2weightInitial_.get? x).getD 0

def add (ws : WeightSelector T) (item : T) (weight : UInt32) : WeightSelector T where
  totalWeight_ := match ws.item2weightInitial_.get? item with
    | none => uint32 (ws.totalWeight_ + weight.toNat)
    | some old => uint32 (ws.totalWeight_ - old + weight.toNat)
  item2weightInitial_ := ws.item2weightInitial_.insert item weight.toNat
  item2weightCurrent_ := ws.item2weightCurrent_.insert item weight.toNat
  sameItems x := by
    have := ws.sameItems x
    by_cases hx : x = item <;> simp [hx, this]

/-- The loop over `item2weight_current_` that looks for the greatest value. -/
def scanMax (initial : T → ℤ) : List (T × ℤ) → (currentMax : ℤ) →
    (iterCurrentMax : Option (T × ℤ)) → Option (T × ℤ)
  | [], _, iterCurrentMax => iterCurrentMax
  | iter :: l, currentMax, iterCurrentMax =>
    if iter.2 > currentMax ∧ initial iter.1 > 0 then scanMax initial l iter.2 (some iter)
    else scanMax initial l currentMax iterCurrentMax

/-- The rest of `choice_one`: the total is taken from the item found, and to every item its
initial weight is added. -/
def rotate (ws : WeightSelector T) (item : T) : WeightSelector T where
  totalWeight_ := ws.totalWeight_
  item2weightInitial_ := ws.item2weightInitial_
  item2weightCurrent_ :=
    (ws.item2weightCurrent_.mapVals fun x current =>
      if x = item then int64 (current - ws.totalWeight_) else current).mapVals
        fun x current => int64 (current + ws.initial x)
  sameItems x := by simp [ws.sameItems x]

/-- `choice_one`: the item, or that it returns false. It is undefined where the loop leaves
the iterator unset. -/
def choiceOne (ws : WeightSelector T) : Option (Option T × WeightSelector T) :=
  if ws.totalWeight_ = 0 then some (none, ws)
  else do
    let iter ← scanMax ws.initial ws.item2weightCurrent_.entries (-0xFFFFFFF) none
    some (some iter.1, rotate ws iter.1)

/-- `n` calls that all return true, and the items they return. -/
def choices : (n : ℕ) → WeightSelector T → Option (List T × WeightSelector T)
  | 0, ws => some ([], ws)
  | n + 1, ws => do
    let (item, ws) ← choiceOne ws
    let item ← item
    let (items, ws) ← choices n ws
    some (item :: items, ws)

/-! ### Runs -/

inductive Op (T : Type)
  | add (item : T) (weight : UInt32)
  | choiceOne

def step (ws : WeightSelector T) : Op T → Option (WeightSelector T)
  | .add item weight => some (add ws item weight)
  | .choiceOne => (choiceOne ws).map Prod.snd

def run (ops : List (Op T)) : Option (WeightSelector T) := Runs.exec step make ops

end Libchef.WeightModel
