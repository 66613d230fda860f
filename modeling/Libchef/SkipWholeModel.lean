import Libchef.SkipModel

/-!
The operations of `chef_skiplist.hpp` on whole lists: clearing, swapping, assignment and the
range insertion under it, both directions of iteration, and several lists in one memory.
-/

namespace Libchef.SkipWholeModel

open Libchef.SkipModel

section Lists

variable {K V : Type}

/-! ### Clearing and swapping -/

/-- The first loop of `clear`, from level `i` down to level `1`. -/
def clearLevels (H : Heap K V) (head : Ptr) : (i : ℕ) → Option (Heap K V)
  | 0 => some H
  | i + 1 => do
    let H ← H.setNext head (i + 1) none
    clearLevels H head i

/-- The second loop, which deletes the nodes from `p` on. -/
def deleteFrom : (fuel : ℕ) → Heap K V → (p : Option Ptr) → Option (Heap K V)
  | 0, _, _ => none
  | _ + 1, H, none => some H
  | fuel + 1, H, some p => do
    let it ← H.level p 0
    let H ← H.delete p
    deleteFrom fuel H it.next_

def clear (H : Heap K V) (s : Skiplist) : Option (Heap K V × Skiplist) := do
  let H ← clearLevels H s.head_ (maxHeight_ - 1)
  let it ← H.level s.head_ 0
  let H ← deleteFrom s.fuel H it.next_
  let H ← H.setNext s.head_ 0 none
  some (H, { s with currentHeight_ := 1, elementNum_ := 0 })

/-- The destructor. -/
def destroy (H : Heap K V) (s : Skiplist) : Option (Heap K V) := do
  let (H, s) ← clear H s
  H.delete s.head_

/-- `swap`: what becomes of the list itself and of the other. -/
def swap (s x : Skiplist) : Skiplist × Skiplist :=
  ({ s with head_ := x.head_, currentHeight_ := x.currentHeight_, elementNum_ := x.elementNum_ },
    { x with head_ := s.head_, currentHeight_ := s.currentHeight_, elementNum_ := s.elementNum_ })

/-! ### Both directions of iteration -/

def rbegin (s : Skiplist) : Option Ptr := s.tail_

/-- `operator++` of a reverse iterator: the node before, or the end if that is the head. -/
def rincr (H : Heap K V) (iter : Option Ptr) : Option (Option Ptr) := do
  let it ← H.level (← iter) 0
  let p ← it.prev_
  let it ← H.level p 0
  some (if it.prev_ = none then none else some p)

/-- An iteration from `iter` to the end visits these nodes. -/
def Visits (incr : Option Ptr → Option (Option Ptr)) : (iter : Option Ptr) → List Ptr → Prop
  | iter, [] => iter = none
  | iter, p :: l => iter = some p ∧ ∃ iter', incr iter = some iter' ∧ Visits incr iter' l

end Lists

/-! ### Copying -/

section Copies

variable {K V : Type} [LinearOrder K] (C : KeyCompare K)

/-- `insert_` with what it makes of the cache, which it takes by reference. -/
def insertCached_ (H : Heap K V) (s : Skiplist) (gen : ℕ → ℕ) (kv : K × V) (cache : Cache) :
    Option (Heap K V × Skiplist × Ptr × Cache) := do
  let (left, _) ← raise s (randomHeight_ gen) cache
  let (H, s, p) ← insert_ H s gen kv cache
  some (H, s, p, left)

/-- The loop of `insert_range_effective_` from `iter` to `last`. `gens n` is what the random
generator gives in round `n`. -/
def insertRange (last : Option Ptr) : (fuel : ℕ) → (gens : ℕ → ℕ → ℕ) → Heap K V → Skiplist →
    (iter pos : Option Ptr) → Cache → Option (Heap K V × Skiplist)
  | 0, _, _, _, _, _, _ => none
  | fuel + 1, gens, H, s, iter, pos, cache =>
    if iter = last then some (H, s)
    else do
      let kv ← H.kv (← iter)
      let (pos, cache) ← find_ C H s s.fuel kv.1 pos none (some cache)
      let cache ← cache
      match pos with
      | some p => insertRange last fuel (fun n => gens (n + 1)) H s (← incr H iter) (some p) cache
      | none => do
        let (H, s, p, cache) ← insertCached_ H s (gens 0) kv cache
        insertRange last fuel (fun n => gens (n + 1)) H s (← incr H iter) (some p) cache

/-- `insert_range_effective_`; the range has fewer than `fuel` nodes. -/
def insertRangeEffective_ (fuel : ℕ) (H : Heap K V) (s : Skiplist) (gens : ℕ → ℕ → ℕ)
    (first last : Option Ptr) : Option (Heap K V × Skiplist) :=
  insertRange C last fuel gens H s first none Cache.fresh

/-- The constructor from a range, which has fewer than `fuel` nodes. -/
def makeRange [Inhabited K] [Inhabited V] (fuel : ℕ) (H : Heap K V) (gens : ℕ → ℕ → ℕ)
    (first last : Option Ptr) : Option (Heap K V × Skiplist) :=
  let (H, s) := make H
  insertRangeEffective_ C fuel H s gens first last

/-- The copy constructor. -/
def copy [Inhabited K] [Inhabited V] (H : Heap K V) (x : Skiplist) (gens : ℕ → ℕ → ℕ) :
    Option (Heap K V × Skiplist) := do
  let (H, s) := make H
  insertRangeEffective_ C x.fuel H s gens (← begin_ H x) none

/-- `operator=`. The list `x` may be `s` itself: `begin()` of it is read after the clearing. -/
def assign (H : Heap K V) (s x : Skiplist) (gens : ℕ → ℕ → ℕ) :
    Option (Heap K V × Skiplist) := do
  let (H, s) ← clear H s
  insertRangeEffective_ C x.fuel H s gens (← begin_ H x) none

/-! ### Several lists -/

/-- The skip lists of a program and the memory their nodes are in. -/
structure Store (K V : Type) where
  heap : Heap K V
  lists : List Skiplist

def Store.empty {K V : Type} : Store K V := ⟨Heap.empty, []⟩

/-- The memory after the lists at these places are destroyed, in this order. -/
def Store.destroys {K V : Type} (t : Store K V) (H : Heap K V) (order : List ℕ) :
    Option (Heap K V) :=
  order.foldlM (fun H l => do destroy H (← t.lists[l]?)) H

/-- What a program does: a new list, an operation on the elements of the list `l` or an
operation on whole lists. Each list has a random generator of its own. -/
inductive Act (K V : Type)
  | construct
  | op (l : ℕ) (op : Op K V) (gen : ℕ → ℕ)
  | clear (l : ℕ)
  | swap (l x : ℕ)
  | assign (l x : ℕ) (gens : ℕ → ℕ → ℕ)

def step [Inhabited K] [Inhabited V] (t : Store K V) : Act K V → Option (Store K V)
  | .construct =>
    let (H, s) := make t.heap
    some ⟨H, t.lists ++ [s]⟩
  | .op l op gen => do
    let (H, s) ← exec C (t.heap, ← t.lists[l]?) (op, gen)
    some ⟨H, t.lists.set l s⟩
  | .clear l => do
    let (H, s) ← SkipWholeModel.clear t.heap (← t.lists[l]?)
    some ⟨H, t.lists.set l s⟩
  | .swap l x => do
    let (s, s') := SkipWholeModel.swap (← t.lists[l]?) (← t.lists[x]?)
    some ⟨t.heap, (t.lists.set l s).set x s'⟩
  | .assign l x gens => do
    let (H, s) ← SkipWholeModel.assign C t.heap (← t.lists[l]?) (← t.lists[x]?) gens
    some ⟨H, t.lists.set l s⟩

end Copies

end Libchef.SkipWholeModel
