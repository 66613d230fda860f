import Mathlib.Data.List.Basic
import Mathlib.Data.Nat.Notation

/-!
Memory as separate allocations.

An allocation is a list of cells, a cell is empty until it is written. Everything outside an
allocation that is alive is out of bounds, and what goes out of bounds is `none`.
-/

namespace Libchef.Alloc

variable {α β : Type*}

/-! ### Windows of a list -/

/-- The `n` elements from position `i` on. -/
def window (l : List α) (i n : ℕ) : List α := (l.drop i).take n

/-- `l` with `bs` written over it from position `i` on. -/
def splice (l : List α) (i : ℕ) (bs : List α) : List α :=
  l.take i ++ (bs ++ l.drop (i + bs.length))

section Windows

variable {l bs : List α} {i j n m : ℕ}

@[simp] lemma window_zero : window l i 0 = [] := rfl

lemma length_window (h : i + n ≤ l.length) : (window l i n).length = n := by
  rw [window, List.length_take, List.length_drop]
  omega

lemma length_splice (h : i + bs.length ≤ l.length) : (splice l i bs).length = l.length := by
  simp only [splice, List.length_append, List.length_take, List.length_drop]
  omega

lemma window_splice (h : i + bs.length ≤ l.length) : window (splice l i bs) i bs.length = bs := by
  have hi : (l.take i).length = i := List.length_take_of_le (by omega)
  rw [window, splice, List.drop_append_of_le_length (Nat.le_of_eq hi.symm),
    List.drop_eq_nil_of_le (Nat.le_of_eq hi),
    List.nil_append, List.take_left]

lemma window_splice_before (h : i + bs.length ≤ l.length) (hj : j + n ≤ i) :
    window (splice l i bs) j n = window l j n := by
  have hi : (l.take i).length = i := List.length_take_of_le (by omega)
  rw [window, splice, List.drop_append_of_le_length (by rw [hi]; omega),
    List.take_append_of_le_length (by rw [List.length_drop, hi]; omega), window, List.drop_take,
    List.take_take, Nat.min_eq_left (by omega)]

lemma window_add : window l i (n + m) = window l i n ++ window l (i + n) m := by
  rw [window, List.take_add, List.drop_drop]
  rfl

lemma window_drop : window l (i + m) (n - m) = (window l i n).drop m := by
  rw [window, window, List.drop_take, List.drop_drop]

lemma window_take (h : m ≤ n) : window l i m = (window l i n).take m := by
  rw [window, window, List.take_take, Nat.min_eq_left h]

lemma getElem?_window (h : m < n) : (window l i n)[m]? = l[i + m]? := by
  rw [window, List.getElem?_take_of_lt h, List.getElem?_drop]

lemma splice_all (h : bs.length = l.length) : splice l 0 bs = bs := by
  rw [splice, List.take_zero, List.nil_append, Nat.zero_add, h, List.drop_length, List.append_nil]

lemma take_splice (h : i + bs.length ≤ l.length) :
    (splice l i bs).take (i + bs.length) = l.take i ++ bs := by
  have hi : (l.take i).length = i := List.length_take_of_le (by omega)
  rw [splice, ← List.append_assoc, List.take_left' (by rw [List.length_append, hi])]

/-- Writing over the end of what was written, and further. -/
lemma splice_splice {u v w : List α} (hi : i + (u ++ v).length ≤ l.length)
    (hv : v.length ≤ w.length) :
    splice (splice l i (u ++ v)) (i + u.length) w = splice l i (u ++ w) := by
  rw [List.length_append] at hi
  have hlen : (l.take i ++ u).length = i + u.length := by
    rw [List.length_append, List.length_take]
    omega
  have hcut : splice l i (u ++ v) =
      l.take i ++ u ++ (v ++ l.drop (i + (u.length + v.length))) := by
    rw [splice, List.length_append]
    simp only [List.append_assoc]
  have hdrop : (v ++ l.drop (i + (u.length + v.length))).drop w.length =
      l.drop (i + (u ++ w).length) := by
    rw [List.drop_append, List.drop_eq_nil_of_le hv, List.nil_append, List.drop_drop]
    congr 1
    rw [List.length_append]
    omega
  rw [hcut, splice, List.take_left' hlen, ← hlen, List.drop_length_add_append, hdrop, splice]
  simp only [List.append_assoc]

end Windows

/-! ### A single array -/

/-- The `n` elements from position `i` on, which must be there. -/
def peek (l : List α) (i n : ℕ) : Option (List α) :=
  if i + n ≤ l.length then some (window l i n) else none

lemma peek_eq {l : List α} {i n : ℕ} (h : i + n ≤ l.length) : peek l i n = some (window l i n) :=
  if_pos h

lemma peek_all {l : List α} {n : ℕ} (h : l.length = n) : peek l 0 n = some l := by
  rw [peek_eq (by omega), window, List.drop_zero, List.take_of_length_le (Nat.le_of_eq h)]

/-- `l` with `bs` written over it, which must lie inside. -/
def poke (l : List α) (i : ℕ) (bs : List α) : Option (List α) :=
  if i + bs.length ≤ l.length then some (splice l i bs) else none

lemma poke_eq {l bs : List α} {i : ℕ} (h : i + bs.length ≤ l.length) :
    poke l i bs = some (splice l i bs) := if_pos h

lemma poke_all {l bs : List α} (h : bs.length = l.length) : poke l 0 bs = some bs := by
  rw [poke_eq (by omega), splice_all h]

lemma poke_poke (l : List α) (i : ℕ) (u : List α) {v w : List α} (hv : v.length ≤ w.length) :
    (poke l i (u ++ v)).bind (fun l => poke l (i + u.length) w) = poke l i (u ++ w) := by
  by_cases h : i + (u ++ w).length ≤ l.length
  · have hlen := h
    rw [List.length_append] at hlen
    have hfirst : i + (u ++ v).length ≤ l.length := by
      rw [List.length_append]
      omega
    rw [poke_eq hfirst, Option.bind_some, poke_eq (by rw [length_splice hfirst]; omega), poke_eq h,
      splice_splice hfirst hv]
  · have hnone : poke l i (u ++ w) = none := if_neg h
    rw [List.length_append] at h
    rw [hnone, Option.bind_eq_none_iff]
    intro l' hl'
    obtain ⟨hfirst, rfl⟩ : _ ∧ splice l i (u ++ v) = l' := by simpa [poke] using hl'
    refine if_neg ?_
    rw [length_splice (by simpa using hfirst)]
    omega

/-! ### The heap -/

abbrev Ptr := ℕ

/-- The allocations alive, and an address from which on memory has never been used. -/
structure Heap (β : Type*) where
  block : Ptr → Option (List (Option β))
  brk : Ptr
  fresh : ∀ p, brk ≤ p → block p = none

namespace Heap

variable (H : Heap β)

def empty : Heap β := ⟨fun _ => none, 0, fun _ _ => rfl⟩

/-- A new allocation of `n` empty cells. -/
def new (n : ℕ) : Ptr × Heap β :=
  (H.brk, ⟨fun p => if p = H.brk then some (List.replicate n none) else H.block p, H.brk + 1,
    fun p hp => by rw [if_neg (Nat.ne_of_gt hp), H.fresh p (Nat.le_of_succ_le hp)]⟩)

/-- The heap without the allocation at `p`. -/
def free (p : Ptr) : Heap β :=
  ⟨fun q => if q = p then none else H.block q, H.brk, fun q hq => by simp [H.fresh q hq]⟩

/-- The heap with its allocation at `p` changed. -/
def update (p : Ptr) (f : List (Option β) → List (Option β)) : Heap β :=
  ⟨fun q => if q = p then (H.block q).map f else H.block q, H.brk,
    fun q hq => by simp [H.fresh q hq]⟩

/-- The end of an allocation, which must be alive. -/
def delete (p : Ptr) : Option (Heap β) :=
  if (H.block p).isSome then some (H.free p) else none

/-- `n` cells from cell `i` of an allocation on. -/
def read (p : Ptr) (i n : ℕ) : Option (List (Option β)) := do
  let l ← H.block p
  if i + n ≤ l.length then some (window l i n) else none

/-- What was written to cell `i` of an allocation. -/
def get (p : Ptr) (i : ℕ) : Option β := do
  let l ← H.block p
  (l[i]?).join

/-- Cells put into an allocation from cell `i` on. -/
def write (p : Ptr) (i : ℕ) (bs : List (Option β)) : Option (Heap β) := do
  let l ← H.block p
  if i + bs.length ≤ l.length then some (H.update p fun l => splice l i bs) else none

/-- Copies `n` cells, as if through a buffer of its own. -/
def memmove (dst : Ptr) (i : ℕ) (src : Ptr) (j n : ℕ) : Option (Heap β) := do
  H.write dst i (← H.read src j n)

/-- Copies `n` cells between ranges that may not overlap. -/
def memcpy (dst : Ptr) (i : ℕ) (src : Ptr) (j n : ℕ) : Option (Heap β) :=
  if dst = src ∧ i < j + n ∧ j < i + n then none else H.memmove dst i src j n

variable {H}

@[simp] lemma block_new {n : ℕ} {p : Ptr} : (H.new n).2.block p =
    if p = (H.new n).1 then some (List.replicate n none) else H.block p := rfl

lemma block_new_fst {n : ℕ} : H.block (H.new n).1 = none := H.fresh H.brk (Nat.le_refl _)

lemma delete_spec {p : Ptr} {l : List (Option β)} (h : H.block p = some l) :
    ∃ H', H.delete p = some H' ∧ H'.block p = none ∧ ∀ q ≠ p, H'.block q = H.block q :=
  ⟨H.free p, by simp [delete, h], by simp [free], fun q hq => by simp [free, hq]⟩

lemma read_eq {p : Ptr} {l : List (Option β)} {i n : ℕ} (h : H.block p = some l)
    (hn : i + n ≤ l.length) : H.read p i n = some (window l i n) := by
  simp [read, h, hn]

lemma write_spec {p : Ptr} {l : List (Option β)} {i : ℕ} {bs : List (Option β)}
    (h : H.block p = some l) (hn : i + bs.length ≤ l.length) :
    ∃ H', H.write p i bs = some H' ∧ H'.block p = some (splice l i bs) ∧
      ∀ q ≠ p, H'.block q = H.block q :=
  ⟨H.update p fun l => splice l i bs, by simp [write, h, hn], by simp [update, h],
    fun q hq => by simp [update, hq]⟩

lemma memmove_spec {dst src : Ptr} {l l' : List (Option β)} {i j n : ℕ}
    (h : H.block dst = some l) (hn : i + n ≤ l.length) (h' : H.block src = some l')
    (hn' : j + n ≤ l'.length) :
    ∃ H', H.memmove dst i src j n = some H' ∧
      H'.block dst = some (splice l i (window l' j n)) ∧
      ∀ q ≠ dst, H'.block q = H.block q := by
  rw [memmove, read_eq h' hn']
  exact write_spec h (by rw [length_window hn']; exact hn)

lemma memcpy_spec {dst src : Ptr} {l l' : List (Option β)} {i j n : ℕ}
    (h : H.block dst = some l) (hn : i + n ≤ l.length) (h' : H.block src = some l')
    (hn' : j + n ≤ l'.length) (hne : dst ≠ src) :
    ∃ H', H.memcpy dst i src j n = some H' ∧
      H'.block dst = some (splice l i (window l' j n)) ∧
      ∀ q ≠ dst, H'.block q = H.block q := by
  rw [memcpy, if_neg fun hc => hne hc.1]
  exact memmove_spec h hn h' hn'

/-! ### How many cells an allocation has -/

/-- The number of cells of an allocation, which it keeps as long as it is alive. -/
def size (H : Heap β) (p : Ptr) : Option ℕ := (H.block p).map List.length

lemma size_new {n : ℕ} {p : Ptr} :
    (H.new n).2.size p = if p = (H.new n).1 then some n else H.size p := by
  rw [size, block_new]
  split_ifs
  · simp
  · rfl

lemma size_new_fst {n : ℕ} : H.size (H.new n).1 = none := by rw [size, block_new_fst]; rfl

lemma size_delete {H' : Heap β} {p : Ptr} (h : H.delete p = some H') :
    ∀ q, H'.size q = if q = p then none else H.size q := by
  intro q
  rw [delete] at h
  split_ifs at h
  cases h
  simp only [size, free]
  split_ifs <;> rfl

lemma delete_eq_some {p : Ptr} {n : ℕ} (h : H.size p = some n) : ∃ H', H.delete p = some H' := by
  obtain ⟨l, hl, -⟩ := Option.map_eq_some_iff.mp h
  exact ⟨H.free p, by simp [delete, hl]⟩

lemma size_write {H' : Heap β} {p : Ptr} {i : ℕ} {bs : List (Option β)}
    (h : H.write p i bs = some H') :
    H'.size = H.size ∧ ∃ n, H.size p = some n ∧ i + bs.length ≤ n := by
  obtain ⟨l, hl, h⟩ := Option.bind_eq_some_iff.mp h
  split_ifs at h with hn
  cases h
  refine ⟨funext fun q => ?_, l.length, by simp [size, hl], hn⟩
  by_cases hq : q = p
  · subst hq
    simp [size, update, hl, length_splice hn]
  · simp [size, update, hq]

lemma write_eq_some {p : Ptr} {n i : ℕ} {bs : List (Option β)} (h : H.size p = some n)
    (hn : i + bs.length ≤ n) : ∃ H', H.write p i bs = some H' := by
  obtain ⟨l, hl, rfl⟩ := Option.map_eq_some_iff.mp h
  obtain ⟨H', e, -⟩ := write_spec hl hn
  exact ⟨H', e⟩

lemma size_memmove {H' : Heap β} {dst src : Ptr} {i j n : ℕ}
    (h : H.memmove dst i src j n = some H') :
    H'.size = H.size ∧ ∃ m, H.size dst = some m ∧ i + n ≤ m := by
  obtain ⟨bs, hbs, h⟩ := Option.bind_eq_some_iff.mp h
  obtain ⟨l, -, hbs⟩ := Option.bind_eq_some_iff.mp hbs
  split_ifs at hbs with hn
  cases hbs
  simpa [length_window hn] using size_write h

lemma memmove_eq_some {dst src : Ptr} {m m' i j n : ℕ} (h : H.size dst = some m)
    (hn : i + n ≤ m) (h' : H.size src = some m') (hn' : j + n ≤ m') :
    ∃ H', H.memmove dst i src j n = some H' := by
  obtain ⟨l, hl, rfl⟩ := Option.map_eq_some_iff.mp h
  obtain ⟨l', hl', rfl⟩ := Option.map_eq_some_iff.mp h'
  obtain ⟨H', e, -⟩ := memmove_spec hl hn hl' hn'
  exact ⟨H', e⟩

lemma size_memcpy {H' : Heap β} {dst src : Ptr} {i j n : ℕ}
    (h : H.memcpy dst i src j n = some H') :
    H'.size = H.size ∧ ∃ m, H.size dst = some m ∧ i + n ≤ m := by
  rw [memcpy] at h
  split_ifs at h
  exact size_memmove h

lemma memcpy_eq_some {dst src : Ptr} {m m' i j n : ℕ} (h : H.size dst = some m)
    (hn : i + n ≤ m) (h' : H.size src = some m') (hn' : j + n ≤ m') (hne : dst ≠ src) :
    ∃ H', H.memcpy dst i src j n = some H' := by
  rw [memcpy, if_neg fun hc => hne hc.1]
  exact memmove_eq_some h hn h' hn'

end Heap

end Libchef.Alloc
