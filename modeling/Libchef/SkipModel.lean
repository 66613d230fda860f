import Mathlib.Order.Lattice
import Mathlib.Logic.Function.Basic
import Mathlib.Data.Nat.Notation
import Mathlib.Data.Int.Notation

/-!
The skip list: its nodes in memory and its operations, as `chef_skiplist.hpp` has them.

Memory is a partial map from addresses to nodes. Everything that reads or writes through a
pointer is in `Option`: `none` is a null or dangling pointer, an index outside `levels_` or
outside the reserved part of the predecessor cache, a cache slot never written, or a walk
that has used up its fuel.
-/

namespace Libchef.SkipModel

abbrev Ptr := ℕ

def maxHeight_ : ℕ := 12
def branching_ : ℕ := 4

structure LevelItem where
  prev_ : Option Ptr
  next_ : Option Ptr
  deriving DecidableEq

/-- The links of a new node: all null. -/
def LevelItem.null : LevelItem := ⟨none, none⟩

structure Node (K V : Type) where
  kv_ : K × V
  height_ : ℕ
  levels_ : List LevelItem

/-- The constructor of a node: `levels_` has one null item a level. -/
def Node.make {K V : Type} (height : ℕ) (kv : K × V) : Node K V :=
  ⟨kv, height, List.replicate height LevelItem.null⟩

/-- A comparator: what it returns is negative, zero or positive as the first key lies before,
at or after the second in the order of the keys. -/
structure KeyCompare (K : Type) [LinearOrder K] where
  cmp : K → K → ℤ
  lt_iff : ∀ a b, cmp a b < 0 ↔ a < b
  eq_iff : ∀ a b, cmp a b = 0 ↔ a = b

/-- `skiplist_default_comparator`. -/
def defaultComparator (K : Type) [LinearOrder K] : KeyCompare K where
  cmp a b := if a > b then 1 else if a = b then 0 else -1
  lt_iff a b := by
    rcases lt_trichotomy a b with h | rfl | h
    · simp [h, not_lt_of_gt h, ne_of_lt h]
    · simp
    · simp [h, le_of_lt h]
  eq_iff a b := by
    rcases lt_trichotomy a b with h | rfl | h
    · simp [not_lt_of_gt h, ne_of_lt h]
    · simp
    · simp [h, (ne_of_lt h).symm]

/-! ### Memory -/

/-- The nodes in memory, and an address from which on memory has never been used. -/
structure Heap (K V : Type) where
  node : Ptr → Option (Node K V)
  brk : Ptr

namespace Heap

variable {K V : Type} (H : Heap K V)

def empty : Heap K V := ⟨fun _ => none, 0⟩

def new (n : Node K V) : Ptr × Heap K V :=
  (H.brk, ⟨Function.update H.node H.brk (some n), H.brk + 1⟩)

def delete (p : Ptr) : Option (Heap K V) := do
  let _ ← H.node p
  some { H with node := Function.update H.node p none }

/-- `p->kv_`. -/
def kv (p : Ptr) : Option (K × V) := (H.node p).map Node.kv_

/-- `p->height_`. -/
def height (p : Ptr) : Option ℕ := (H.node p).map Node.height_

/-- `p->levels_[i]`. -/
def level (p : Ptr) (i : ℕ) : Option LevelItem := (H.node p).bind fun n => n.levels_[i]?

def setLevel (p : Ptr) (i : ℕ) (f : LevelItem → LevelItem) : Option (Heap K V) := do
  let n ← H.node p
  let it ← n.levels_[i]?
  some { H with
    node := Function.update H.node p (some { n with levels_ := n.levels_.set i (f it) }) }

/-- `p->levels_[i].next_ = q`. -/
def setNext (p : Ptr) (i : ℕ) (q : Option Ptr) : Option (Heap K V) :=
  H.setLevel p i fun it => { it with next_ := q }

/-- `p->levels_[i].prev_ = q`. -/
def setPrev (p : Ptr) (i : ℕ) (q : Option Ptr) : Option (Heap K V) :=
  H.setLevel p i fun it => { it with prev_ := q }

/-- `if (p) { p->levels_[i].prev_ = q; }`. -/
def setPrevIf (p : Option Ptr) (i : ℕ) (q : Option Ptr) : Option (Heap K V) :=
  match p with
  | none => some H
  | some p => H.setPrev p i q

end Heap

/-- The data members of a skip list other than its random generator. -/
structure Skiplist where
  currentHeight_ : ℕ
  elementNum_ : ℕ
  tail_ : Option Ptr
  head_ : Ptr

/-- The predecessor cache: what its slots hold, nothing before they are written. -/
abbrev Cache := ℕ → Option Ptr

def Cache.fresh : Cache := fun _ => none

/-- `cache[i] = p`, inside the part `reserve` has made room for. -/
def Cache.put (c : Cache) (i : ℕ) (p : Ptr) : Option Cache :=
  if i < maxHeight_ then some (Function.update c i (some p)) else none

/-! ### The random height -/

/-- The loop of `random_height_`, `left` rounds before `max_height_`. The draws of the
generator are `gen 0`, `gen 1` and so on. -/
def randomHeightLoop (gen : ℕ → ℕ) : (left height : ℕ) → ℕ
  | 0, height => height
  | left + 1, height =>
    if gen (height - 1) % branching_ = 0 then randomHeightLoop gen left (height + 1) else height

def randomHeight_ (gen : ℕ → ℕ) : ℕ := randomHeightLoop gen (maxHeight_ - 1) 1

lemma randomHeightLoop_le (gen : ℕ → ℕ) (left height : ℕ) :
    height ≤ randomHeightLoop gen left height ∧
      randomHeightLoop gen left height ≤ height + left := by
  induction left generalizing height with
  | zero => simp [randomHeightLoop]
  | succ left ih =>
    have := ih (height + 1)
    simp only [randomHeightLoop]
    split_ifs <;> omega

lemma randomHeight_pos (gen : ℕ → ℕ) : 1 ≤ randomHeight_ gen :=
  (randomHeightLoop_le gen _ 1).1

lemma randomHeight_le (gen : ℕ → ℕ) : randomHeight_ gen ≤ maxHeight_ :=
  (randomHeightLoop_le gen (maxHeight_ - 1) 1).2

/-- **Every height** from one to the maximum is drawn for some outputs of the generator. -/
theorem randomHeight_surj {n : ℕ} (h1 : 1 ≤ n) (h2 : n ≤ maxHeight_) :
    ∃ gen, randomHeight_ gen = n := by
  have hloop : ∀ left height, height ≤ n → n ≤ height + left → 1 ≤ height →
      randomHeightLoop (fun i => if i + 1 < n then 0 else 1) left height = n := by
    intro left
    induction left with
    | zero => intro height ha hb _; simp only [randomHeightLoop]; omega
    | succ left ih =>
      intro height ha hb hp
      have hi : height - 1 + 1 = height := by omega
      by_cases hn : height < n
      · simp only [randomHeightLoop, hi, hn, if_true, branching_, Nat.zero_mod]
        exact ih (height + 1) (by omega) (by omega) (by omega)
      · have hg : ¬ (if height - 1 + 1 < n then 0 else 1) % branching_ = 0 := by
          simp [hi, hn, branching_]
        simp only [randomHeightLoop, hg, if_false]
        omega
  exact ⟨_, hloop (maxHeight_ - 1) 1 h1 (by unfold maxHeight_ at *; omega) (Nat.le_refl 1)⟩

/-! ### The search -/

section Ops

variable {K V : Type} [LinearOrder K] (C : KeyCompare K)

/-- How the inner loop of `find_` ends: at a node with the key, or at a break. -/
inductive Walk
  | found (p : Ptr)
  | stop (dummy : Ptr)
  deriving DecidableEq

/-- The inner loop of `find_` on level `i`. -/
def walk (H : Heap K V) (k : K) (epos : Option Ptr) (i : ℕ) : (fuel : ℕ) → Ptr → Option Walk
  | 0, _ => none
  | fuel + 1, dummy => do
    let it ← H.level dummy i
    match it.next_ with
    | none => some (.stop dummy)
    | some p =>
      if epos = some p then some (.stop dummy)
      else do
        let kv ← H.kv p
        let res := C.cmp k kv.1
        if res = 0 then some (.found p)
        else if res < 0 then some (.stop dummy)
        else walk H k epos i fuel p

/-- The outer loop of `find_`, from level `i - 1` down. The cache is there or not. -/
def descend (H : Heap K V) (k : K) (epos : Option Ptr) (fuel : ℕ) :
    (i : ℕ) → Ptr → Option Cache → Option (Option Ptr × Option Cache)
  | 0, _, cache => some (none, cache)
  | i + 1, dummy, cache => do
    match ← walk C H k epos i fuel dummy with
    | .found p => some (some p, cache)
    | .stop d =>
      match cache with
      | none => descend H k epos fuel i d none
      | some c => do
        let c ← c.put i d
        descend H k epos fuel i d (some c)

def find_ (H : Heap K V) (s : Skiplist) (fuel : ℕ) (k : K) (bpos epos : Option Ptr)
    (cache : Option Cache) : Option (Option Ptr × Option Cache) :=
  match bpos with
  | none => descend C H k epos fuel s.currentHeight_ s.head_ cache
  | some b => do
    let it ← H.level b 0
    let dummy ← it.prev_
    let h ← H.height dummy
    descend C H k epos fuel h dummy cache

/-! ### Linking and unlinking a node -/

/-- One round of the loop of `insert_`. -/
def linkAt (H : Heap K V) (nn cn : Ptr) (i : ℕ) : Option (Heap K V) := do
  let H ← H.setNext nn i (← H.level cn i).next_
  let H ← H.setPrev nn i (some cn)
  let H ← H.setPrevIf (← H.level cn i).next_ i (some nn)
  H.setNext cn i (some nn)

/-- The loop of `insert_`, from level `i - 1` down. -/
def link (H : Heap K V) (nn : Ptr) (cache : Cache) : (i : ℕ) → Option (Heap K V)
  | 0 => some H
  | i + 1 => do
    let H ← linkAt H nn (← cache i) i
    link H nn cache i

/-- The loop that points the cache at `head_` on the levels a new node adds. -/
def cacheHead (head : Ptr) (current : ℕ) (cache : Cache) : (i : ℕ) → Option Cache
  | 0 => some cache
  | i + 1 =>
    if current ≤ i then do cacheHead head current (← cache.put i head) i else some cache

/-- The cache and the current height with room for a node of the given height. -/
def raise (s : Skiplist) (height : ℕ) (cache : Cache) : Option (Cache × ℕ) :=
  if height > s.currentHeight_ then do
    let cache ← cacheHead s.head_ s.currentHeight_ cache height
    some (cache, height)
  else some (cache, s.currentHeight_)

def insert_ (H : Heap K V) (s : Skiplist) (gen : ℕ → ℕ) (kv : K × V) (cache : Cache) :
    Option (Heap K V × Skiplist × Ptr) := do
  let height := randomHeight_ gen
  let (cache, current) ← raise s height cache
  let (nn, H) := H.new (Node.make height kv)
  let H ← link H nn cache height
  let it ← H.level nn 0
  let tail := if it.next_ = none then some nn else s.tail_
  some (H, ⟨current, s.elementNum_ + 1, tail, s.head_⟩, nn)

/-- One round of the loop of `erase_`. -/
def unlinkAt (H : Heap K V) (n : Ptr) (i : ℕ) : Option (Heap K V) := do
  let it ← H.level n i
  let H ← H.setNext (← it.prev_) i it.next_
  let it ← H.level n i
  H.setPrevIf it.next_ i it.prev_

/-- The loop of `erase_`, from level `i - 1` down. -/
def unlink (H : Heap K V) (n : Ptr) : (i : ℕ) → Option (Heap K V)
  | 0 => some H
  | i + 1 => do
    let H ← unlinkAt H n i
    unlink H n i

/-- The loop that lowers `current_height_` to the highest level in use. -/
def shrink (H : Heap K V) (head : Ptr) : (current : ℕ) → Option ℕ
  | 0 => some 0
  | current + 1 =>
    if 1 < current + 1 then do
      let it ← H.level head current
      if it.next_ = none then shrink H head current else some (current + 1)
    else some (current + 1)

/-- `current_height_` once a node of the given height is off its levels. -/
def lower (H : Heap K V) (s : Skiplist) (height : ℕ) : Option ℕ :=
  if height ≠ 1 ∧ height = s.currentHeight_ then shrink H s.head_ s.currentHeight_
  else some s.currentHeight_

/-- `tail_` once the node `n` is off its levels. -/
def retail (H : Heap K V) (s : Skiplist) (n : Ptr) : Option (Option Ptr) :=
  if s.tail_ = some n then do
    let it ← H.level n 0
    some (if it.prev_ = some s.head_ then none else it.prev_)
  else some s.tail_

def erase_ (H : Heap K V) (s : Skiplist) (n : Ptr) : Option (Heap K V × Skiplist) := do
  let height ← H.height n
  let H ← unlink H n height
  let current ← lower H s height
  let tail ← retail H s n
  let H ← H.delete n
  some (H, ⟨current, s.elementNum_ - 1, tail, s.head_⟩)

/-! ### The interface -/

/-- The fuel of a search: a walk takes at most one step a node, and one to stop. -/
def Skiplist.fuel (s : Skiplist) : ℕ := s.elementNum_ + 1

/-- The default constructor. The binding in the head is the default one. -/
def make [Inhabited K] [Inhabited V] (H : Heap K V) : Heap K V × Skiplist :=
  let (head, H) := H.new (Node.make maxHeight_ default)
  (H, ⟨1, 0, none, head⟩)

def size (s : Skiplist) : ℕ := s.elementNum_

def begin_ (H : Heap K V) (s : Skiplist) : Option (Option Ptr) := do
  let it ← H.level s.head_ 0
  some it.next_

/-- `operator++` of an iterator. -/
def incr (H : Heap K V) (iter : Option Ptr) : Option (Option Ptr) := do
  let it ← H.level (← iter) 0
  some it.next_

def find (H : Heap K V) (s : Skiplist) (k : K) : Option (Option Ptr) := do
  let (iter, _) ← find_ C H s s.fuel k none none none
  some iter

def count (H : Heap K V) (s : Skiplist) (k : K) : Option ℕ := do
  let iter ← find C H s k
  some (if iter = none then 0 else 1)

/-- `at`; an exception is the inner `none`. -/
def at_ (H : Heap K V) (s : Skiplist) (k : K) : Option (Option V) := do
  match ← find C H s k with
  | none => some none
  | some p => do
    let kv ← H.kv p
    some (some kv.2)

/-- The search with a new cache that the modifiers and the bounds start with. -/
def findCached (H : Heap K V) (s : Skiplist) (k : K) : Option (Option Ptr × Cache) := do
  let (iter, cache) ← find_ C H s s.fuel k none none (some Cache.fresh)
  some (iter, ← cache)

def lowerBound (H : Heap K V) (s : Skiplist) (k : K) : Option (Option Ptr) := do
  match ← findCached C H s k with
  | (some p, _) => some (some p)
  | (none, cache) => do
    let it ← H.level (← cache 0) 0
    some it.next_

def upperBound (H : Heap K V) (s : Skiplist) (k : K) : Option (Option Ptr) := do
  match ← findCached C H s k with
  | (some p, _) => incr H (some p)
  | (none, cache) => do
    let it ← H.level (← cache 0) 0
    some it.next_

def equalRange (H : Heap K V) (s : Skiplist) (k : K) : Option (Option Ptr × Option Ptr) := do
  match ← findCached C H s k with
  | (some p, _) => do
    let it ← H.level p 0
    some (some p, it.next_)
  | (none, cache) => do
    let it ← H.level (← cache 0) 0
    some (it.next_, it.next_)

/-- `insert(value)`. -/
def insert (H : Heap K V) (s : Skiplist) (gen : ℕ → ℕ) (val : K × V) :
    Option (Heap K V × Skiplist × Option Ptr × Bool) := do
  match ← findCached C H s val.1 with
  | (some p, _) => some (H, s, some p, false)
  | (none, cache) => do
    let (H, s, p) ← insert_ H s gen val cache
    some (H, s, some p, true)

/-- `operator[]`: the node whose value the reference returned refers to. -/
def index [Inhabited V] (H : Heap K V) (s : Skiplist) (gen : ℕ → ℕ) (k : K) :
    Option (Heap K V × Skiplist × Ptr) := do
  match ← findCached C H s k with
  | (some p, _) => some (H, s, p)
  | (none, cache) => insert_ H s gen (k, default) cache

/-- `insert(position, value)`. -/
def insertHint (H : Heap K V) (s : Skiplist) (gen : ℕ → ℕ) (position : Option Ptr)
    (val : K × V) : Option (Heap K V × Skiplist × Option Ptr) := do
  let (iter, cache) ← find_ C H s s.fuel val.1 position none (some Cache.fresh)
  if iter ≠ none then some (H, s, iter)
  else do
    let (iter, cache) ← find_ C H s s.fuel val.1 none position cache
    if iter ≠ none then some (H, s, iter)
    else do
      let (H, s, p) ← insert_ H s gen val (← cache)
      some (H, s, some p)

def eraseKey (H : Heap K V) (s : Skiplist) (k : K) : Option (Heap K V × Skiplist × ℕ) := do
  match ← find C H s k with
  | none => some (H, s, 0)
  | some p => do
    let (H, s) ← erase_ H s p
    some (H, s, 1)

/-- `erase(position)`. -/
def eraseAt (H : Heap K V) (s : Skiplist) (position : Option Ptr) :
    Option (Heap K V × Skiplist) := do
  let kv ← H.kv (← position)
  let (H, s, _) ← eraseKey C H s kv.1
  some (H, s)

/-- `erase(first, last)`. -/
def eraseRange (last : Option Ptr) : (fuel : ℕ) → (H : Heap K V) → (s : Skiplist) →
    (iter : Option Ptr) → Option (Heap K V × Skiplist)
  | 0, _, _, _ => none
  | fuel + 1, H, s, iter =>
    if iter = last then some (H, s)
    else do
      let next ← incr H iter
      let (H, s) ← erase_ H s (← iter)
      eraseRange last fuel H s next

/-! ### Runs -/

/-- `begin()` moved forward `n` times. -/
def iterAt (H : Heap K V) (s : Skiplist) : ℕ → Option (Option Ptr)
  | 0 => begin_ H s
  | n + 1 => do incr H (← iterAt H s n)

/-- The bindings an iteration from `iter` to the end passes. -/
def iterate (H : Heap K V) : (fuel : ℕ) → (iter : Option Ptr) → Option (List (K × V))
  | 0, _ => none
  | fuel + 1, iter =>
    match iter with
    | none => some []
    | some p => do
      let kv ← H.kv p
      let rest ← iterate H fuel (← incr H (some p))
      some (kv :: rest)

/-- The forward iteration of the list. -/
def contents (H : Heap K V) (s : Skiplist) : Option (List (K × V)) := do
  iterate H s.fuel (← begin_ H s)

/-- The modifying operations; iterators are given by their distance from `begin()`. -/
inductive Op (K V : Type)
  | insert (val : K × V)
  | index (k : K)
  | eraseKey (k : K)
  | eraseAt (position : ℕ)
  | eraseRange (first last : ℕ)

/-- One operation; `gen` is what the random generator gives while it runs. -/
def exec [Inhabited V] (t : Heap K V × Skiplist) (op : Op K V × (ℕ → ℕ)) :
    Option (Heap K V × Skiplist) :=
  match op with
  | (.insert val, gen) => do
    let (H, s, _, _) ← insert C t.1 t.2 gen val
    some (H, s)
  | (.index k, gen) => do
    let (H, s, _) ← index C t.1 t.2 gen k
    some (H, s)
  | (.eraseKey k, _) => do
    let (H, s, _) ← eraseKey C t.1 t.2 k
    some (H, s)
  | (.eraseAt position, _) => do eraseAt C t.1 t.2 (← iterAt t.1 t.2 position)
  | (.eraseRange first last, _) => do
    eraseRange (← iterAt t.1 t.2 last) t.2.fuel t.1 t.2 (← iterAt t.1 t.2 first)

/-- A sequence of operations on a new skip list. -/
def run [Inhabited K] [Inhabited V] (ops : List (Op K V × (ℕ → ℕ))) :
    Option (Heap K V × Skiplist) :=
  ops.foldlM (exec C) (make Heap.empty)

end Ops

end Libchef.SkipModel
