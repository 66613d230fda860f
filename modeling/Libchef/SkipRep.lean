import Libchef.Base.Chain
import Libchef.Base.Ordered
import Libchef.SkipModel

/-!
What the memory of a skip list looks like between operations.

The invariant speaks about a ghost list of entries, the nodes in the order of level `0` with
their addresses, heights and bindings. Level `i` is a doubly linked chain from the head through
the entries taller than `i`; the pointer fields of one level are independent of those of
the others, so the loops of `insert_` and `erase_` are one surgery a level. It comes in two
forms: `Rep`, with all levels in key order, and `Loose`, which leaves the order open.
-/

namespace Libchef.SkipRep

open Libchef.SkipModel Libchef.Chain Libchef.Ordered

variable {K V : Type}

/-! ### Reading and writing the fields of one level -/

/-- The `next_` field of level `i`; null also where there is no such level. -/
def next (H : Heap K V) (i : ℕ) (p : Ptr) : Option Ptr := (H.level p i).bind LevelItem.next_

def prev (H : Heap K V) (i : ℕ) (p : Ptr) : Option Ptr := (H.level p i).bind LevelItem.prev_

/-- What no write to a level changes: the binding, the height and the size of `levels_`. -/
def hdr (H : Heap K V) (p : Ptr) : Option ((K × V) × ℕ × ℕ) :=
  (H.node p).map fun n => (n.kv_, n.height_, n.levels_.length)

/-- `p` is a node with a level `i`. -/
def HasLevel (H : Heap K V) (p : Ptr) (i : ℕ) : Prop :=
  ∃ kv h n, hdr H p = some (kv, h, n) ∧ i < n

/-- Two memories with the same nodes up to their links. -/
structure Same (H H' : Heap K V) : Prop where
  hdr : hdr H' = hdr H
  brk : H'.brk = H.brk

lemma Same.refl (H : Heap K V) : Same H H := ⟨rfl, rfl⟩

lemma Same.trans {H H' H'' : Heap K V} (h : Same H H') (h' : Same H' H'') : Same H H'' :=
  ⟨h'.hdr.trans h.hdr, h'.brk.trans h.brk⟩

lemma Same.hasLevel {H H' : Heap K V} (h : Same H H') {p : Ptr} {i : ℕ} :
    HasLevel H' p i ↔ HasLevel H p i := by
  unfold HasLevel; rw [h.hdr]

lemma hasLevel_iff {H : Heap K V} {p : Ptr} {i : ℕ} :
    HasLevel H p i ↔ ∃ n, H.node p = some n ∧ i < n.levels_.length := by
  simp only [HasLevel, hdr, Option.map_eq_some_iff, Prod.mk.injEq]
  constructor
  · rintro ⟨kv, h, m, ⟨n, hn, rfl, rfl, rfl⟩, hi⟩
    exact ⟨n, hn, hi⟩
  · rintro ⟨n, hn, hi⟩
    exact ⟨_, _, _, ⟨n, hn, rfl, rfl, rfl⟩, hi⟩

lemma level_eq {H : Heap K V} {p : Ptr} {i : ℕ} (h : HasLevel H p i) :
    H.level p i = some ⟨prev H i p, next H i p⟩ := by
  obtain ⟨n, hn, hi⟩ := hasLevel_iff.mp h
  have : H.level p i = some n.levels_[i] := by simp [Heap.level, hn, hi]
  simp [prev, next, this]

lemma kv_of_hdr {H : Heap K V} {p : Ptr} {kv : K × V} {h n : ℕ}
    (hp : hdr H p = some (kv, h, n)) : H.kv p = some kv := by
  simp only [hdr, Option.map_eq_some_iff, Prod.mk.injEq] at hp
  obtain ⟨m, hm, rfl, -, -⟩ := hp
  simp [Heap.kv, hm]

lemma height_of_hdr {H : Heap K V} {p : Ptr} {kv : K × V} {h n : ℕ}
    (hp : hdr H p = some (kv, h, n)) : H.height p = some h := by
  simp only [hdr, Option.map_eq_some_iff, Prod.mk.injEq] at hp
  obtain ⟨m, hm, -, rfl, -⟩ := hp
  simp [Heap.height, hm]

lemma setLevel_spec {H : Heap K V} {p : Ptr} {i : ℕ} (f : LevelItem → LevelItem)
    (h : HasLevel H p i) :
    ∃ H', H.setLevel p i f = some H' ∧ Same H H' ∧
      ∀ q j, H'.level q j = if q = p ∧ j = i then (H.level p i).map f else H.level q j := by
  obtain ⟨n, hn, hi⟩ := hasLevel_iff.mp h
  refine ⟨⟨Function.update H.node p
    (some { n with levels_ := n.levels_.set i (f n.levels_[i]) }), H.brk⟩,
    by simp [Heap.setLevel, hn, hi], ⟨?_, rfl⟩, fun q j => ?_⟩
  · funext q
    by_cases hq : q = p
    · subst hq; simp [hdr, hn]
    · simp [hdr, hq]
  · by_cases hq : q = p
    · subst hq
      by_cases hj : j = i
      · subst hj; simp [Heap.level, hn, hi]
      · simp [Heap.level, hn, hj, Ne.symm hj]
    · simp [Heap.level, hq]

lemma setNext_spec {H : Heap K V} {p : Ptr} {i : ℕ} (q : Option Ptr) (h : HasLevel H p i) :
    ∃ H', H.setNext p i q = some H' ∧ Same H H' ∧ prev H' = prev H ∧
      (∀ j ≠ i, next H' j = next H j) ∧ next H' i = Function.update (next H i) p q := by
  obtain ⟨H', h1, h2, h3⟩ := setLevel_spec (fun it => { it with next_ := q }) h
  refine ⟨H', h1, h2, ?_, fun j hj => ?_, ?_⟩
  · funext j x
    by_cases hx : x = p ∧ j = i
    · obtain ⟨rfl, rfl⟩ := hx
      rw [prev, h3, if_pos ⟨rfl, rfl⟩, level_eq h]; rfl
    · simp [prev, h3, hx]
  · funext x
    simp [next, h3, hj]
  · funext x
    by_cases hx : x = p
    · subst hx
      rw [next, h3, if_pos ⟨rfl, rfl⟩, level_eq h, Function.update_self]; rfl
    · simp [next, h3, hx]

lemma setPrev_spec {H : Heap K V} {p : Ptr} {i : ℕ} (q : Option Ptr) (h : HasLevel H p i) :
    ∃ H', H.setPrev p i q = some H' ∧ Same H H' ∧ next H' = next H ∧
      (∀ j ≠ i, prev H' j = prev H j) ∧ prev H' i = Function.update (prev H i) p q := by
  obtain ⟨H', h1, h2, h3⟩ := setLevel_spec (fun it => { it with prev_ := q }) h
  refine ⟨H', h1, h2, ?_, fun j hj => ?_, ?_⟩
  · funext j x
    by_cases hx : x = p ∧ j = i
    · obtain ⟨rfl, rfl⟩ := hx
      rw [next, h3, if_pos ⟨rfl, rfl⟩, level_eq h]; rfl
    · simp [next, h3, hx]
  · funext x
    simp [prev, h3, hj]
  · funext x
    by_cases hx : x = p
    · subst hx
      rw [prev, h3, if_pos ⟨rfl, rfl⟩, level_eq h, Function.update_self]; rfl
    · simp [prev, h3, hx]

lemma setPrevIf_spec {H : Heap K V} {p : Option Ptr} {i : ℕ} (q : Option Ptr)
    (h : ∀ x, p = some x → HasLevel H x i) :
    ∃ H', H.setPrevIf p i q = some H' ∧ Same H H' ∧ next H' = next H ∧
      (∀ j ≠ i, prev H' j = prev H j) ∧ prev H' i = setAt (prev H i) p q := by
  cases p with
  | none => exact ⟨H, rfl, Same.refl _, rfl, fun _ _ => rfl, rfl⟩
  | some p => exact setPrev_spec q (h p rfl)

/-! ### The invariant -/

/-- A node of the list, with what the search reads of it. -/
structure Entry (K V : Type) where
  ptr : Ptr
  ht : ℕ
  kv : K × V

def Entry.key (e : Entry K V) : K := e.kv.1

@[simp] lemma Entry.fst_kv (e : Entry K V) : e.kv.1 = e.key := rfl

/-- The addresses on level `i`. -/
def lane (i : ℕ) (es : List (Entry K V)) : List Ptr := (es.filter fun e => i < e.ht).map Entry.ptr

lemma lane_append (i : ℕ) (es es' : List (Entry K V)) :
    lane i (es ++ es') = lane i es ++ lane i es' := by
  simp [lane]

lemma lane_cons_of_lt {i : ℕ} {e : Entry K V} (es : List (Entry K V)) (h : i < e.ht) :
    lane i (e :: es) = e.ptr :: lane i es := by
  simp [lane, h]

lemma lane_cons_of_le {i : ℕ} {e : Entry K V} (es : List (Entry K V)) (h : e.ht ≤ i) :
    lane i (e :: es) = lane i es := by
  simp [lane, Nat.not_lt.mpr h]

lemma mem_lane {i : ℕ} {es : List (Entry K V)} {p : Ptr} :
    p ∈ lane i es ↔ ∃ e ∈ es, i < e.ht ∧ e.ptr = p := by
  simp [lane, and_assoc]

lemma lane_zero {es : List (Entry K V)} (h : ∀ e ∈ es, 0 < e.ht) :
    lane 0 es = es.map Entry.ptr := by
  unfold lane
  rw [List.filter_eq_self.mpr fun e he => by simpa using h e he]

lemma lane_sublist (i : ℕ) (es : List (Entry K V)) :
    List.Sublist (lane i es) (es.map Entry.ptr) :=
  List.filter_sublist.map _

/-- An iteration passes the nodes of level `0`, in whatever order of keys. -/
lemma iterate_linked {H : Heap K V} {a : Ptr} {l : List (Entry K V)}
    (hl : Linked (next H 0) (prev H 0) a (l.map Entry.ptr) none)
    (hn : ∀ e ∈ l, ∃ h n, hdr H e.ptr = some (e.kv, h, n) ∧ 0 < n) {fuel : ℕ}
    (hf : l.length < fuel) :
    iterate H fuel ((l.head?).map Entry.ptr) = some (l.map Entry.kv) := by
  induction l generalizing a fuel with
  | nil =>
    obtain ⟨fuel, rfl⟩ : ∃ f, fuel = f + 1 := ⟨fuel - 1, by omega⟩
    rfl
  | cons e l ih =>
    obtain ⟨fuel, rfl⟩ : ∃ f, fuel = f + 1 := ⟨fuel - 1, by omega⟩
    obtain ⟨-, -, h3⟩ := hl
    obtain ⟨h, n, hh, hpos⟩ := hn e (by simp)
    have hrest := ih h3 (fun e' he' => hn e' (by simp [he']))
      (show l.length < fuel by simpa using hf)
    have hnext : next H 0 e.ptr = (l.head?).map Entry.ptr := by
      have := h3.next (l := [])
      simpa using this
    have hincr : incr H (some e.ptr) = some ((l.head?).map Entry.ptr) := by
      simp [incr, level_eq ⟨_, _, _, hh, hpos⟩, hnext]
    simp [iterate, kv_of_hdr hh, hincr, hrest]

/-- The addresses of a list: its head and its nodes. -/
def foot (s : Skiplist) (es : List (Entry K V)) : List Ptr := s.head_ :: es.map Entry.ptr

/-- The entries `es` in the memory `H`, with the members `s` up to the tail. Every level has
the nodes taller than it; above level `0` they may be in any order, the one that `L` gives. -/
structure Loose (H : Heap K V) (s : Skiplist) (es : List (Entry K V)) (L : ℕ → List Ptr) :
    Prop where
  unused : ∀ p, H.brk ≤ p → H.node p = none
  head : ∃ kv, hdr H s.head_ = some (kv, maxHeight_, maxHeight_)
  headPrev : ∀ i, prev H i s.head_ = none
  node : ∀ e ∈ es, hdr H e.ptr = some (e.kv, e.ht, e.ht)
  pos : ∀ e ∈ es, 0 < e.ht
  nodup : (foot s es).Nodup
  lanes : ∀ i, (L i).Perm (lane i es)
  zero : L 0 = es.map Entry.ptr
  linked : ∀ i < maxHeight_, Linked (next H i) (prev H i) s.head_ (L i) none
  le_current : ∀ e ∈ es, e.ht ≤ s.currentHeight_
  current_pos : 1 ≤ s.currentHeight_
  current_le : s.currentHeight_ ≤ maxHeight_
  current : s.currentHeight_ = 1 ∨ ∃ e ∈ es, e.ht = s.currentHeight_
  num : s.elementNum_ = es.length

namespace Loose

variable {H : Heap K V} {s : Skiplist} {es : List (Entry K V)} {L : ℕ → List Ptr}

lemma ht_le (h : Loose H s es L) {e : Entry K V} (he : e ∈ es) : e.ht ≤ maxHeight_ :=
  (h.le_current e he).trans h.current_le

lemma hasLevel_head (h : Loose H s es L) {i : ℕ} (hi : i < maxHeight_) : HasLevel H s.head_ i := by
  obtain ⟨kv, hk⟩ := h.head
  exact ⟨_, _, _, hk, hi⟩

lemma hasLevel (h : Loose H s es L) {e : Entry K V} (he : e ∈ es) {i : ℕ} (hi : i < e.ht) :
    HasLevel H e.ptr i :=
  ⟨_, _, _, h.node e he, hi⟩

lemma mem_level (h : Loose H s es L) {i : ℕ} {p : Ptr} :
    p ∈ L i ↔ ∃ e ∈ es, i < e.ht ∧ e.ptr = p :=
  (h.lanes i).mem_iff.trans mem_lane

lemma hasLevel_mem (h : Loose H s es L) {i : ℕ} {p : Ptr} (hp : p ∈ L i) : HasLevel H p i := by
  obtain ⟨e, he, hi, rfl⟩ := h.mem_level.mp hp
  exact h.hasLevel he hi

lemma mem_foot (h : Loose H s es L) {i : ℕ} {p : Ptr} (hp : p ∈ L i) : p ∈ foot s es := by
  obtain ⟨e, he, -, rfl⟩ := h.mem_level.mp hp
  exact List.mem_cons_of_mem _ (List.mem_map_of_mem he)

lemma cell (h : Loose H s es L) {i : ℕ} (hi : i < maxHeight_) {p : Ptr}
    (hp : p ∈ s.head_ :: L i) : HasLevel H p i ∧ p ∈ foot s es := by
  rcases List.mem_cons.mp hp with rfl | hp
  · exact ⟨h.hasLevel_head hi, List.mem_cons_self ..⟩
  · exact ⟨h.hasLevel_mem hp, h.mem_foot hp⟩

lemma nodup_level (h : Loose H s es L) (i : ℕ) : (s.head_ :: L i).Nodup :=
  (((h.lanes i).cons s.head_).nodup_iff).mpr (h.nodup.sublist ((lane_sublist i es).cons_cons _))

lemma length_level_lt (h : Loose H s es L) {i : ℕ} {l : List (Entry K V)}
    (hl : List.Sublist (l.map Entry.ptr) (L i)) : l.length < s.fuel := by
  have h1 := hl.length_le
  have h2 := (h.lanes i).length_eq
  have h3 := (lane_sublist i es).length_le
  simp only [List.length_map] at h1 h3
  unfold Skiplist.fuel
  rw [h.num]
  omega

lemma eq_of_ptr (h : Loose H s es L) {e e' : Entry K V} (he : e ∈ es) (he' : e' ∈ es)
    (hp : e.ptr = e'.ptr) : e = e' :=
  List.inj_on_of_nodup_map (List.nodup_cons.mp h.nodup).2 he he' hp

lemma ne_head (h : Loose H s es L) {e : Entry K V} (he : e ∈ es) : e.ptr ≠ s.head_ := by
  rintro hp
  exact (List.nodup_cons.mp h.nodup).1 (hp ▸ List.mem_map_of_mem he)

lemma linked_zero (h : Loose H s es L) :
    Linked (next H 0) (prev H 0) s.head_ (es.map Entry.ptr) none :=
  h.zero ▸ h.linked 0 (by decide)

lemma lt_brk (h : Loose H s es L) {p : Ptr} (hp : hdr H p ≠ none) : p < H.brk := by
  by_contra hc
  exact hp (by simp [hdr, h.unused p (Nat.not_lt.mp hc)])

lemma foot_lt (h : Loose H s es L) {p : Ptr} (hp : p ∈ foot s es) : p < H.brk := by
  rcases List.mem_cons.mp hp with rfl | hp
  · obtain ⟨kv, hk⟩ := h.head
    exact h.lt_brk (by simp [hk])
  · obtain ⟨e, he, rfl⟩ := List.mem_map.mp hp
    exact h.lt_brk (by simp [h.node e he])

/-- The tail does not matter. -/
lemma withTail (h : Loose H s es L) (t : Option Ptr) : Loose H { s with tail_ := t } es L :=
  ⟨h.unused, h.head, h.headPrev, h.node, h.pos, h.nodup, h.lanes, h.zero, h.linked, h.le_current,
    h.current_pos, h.current_le, h.current, h.num⟩

end Loose

/-! ### Positions -/

namespace Loose

variable {H : Heap K V} {s : Skiplist} {es A B : List (Entry K V)} {e : Entry K V}
  {L : ℕ → List Ptr}

lemma next_head (h : Loose H s es L) : next H 0 s.head_ = (es.head?).map Entry.ptr := by
  have := (h.linked_zero).next (l := [])
  simpa using this

lemma next_last (h : Loose H s (A ++ B) L) :
    next H 0 (last s.head_ (A.map Entry.ptr)) = (B.head?).map Entry.ptr := by
  have hl := h.linked_zero
  rw [List.map_append] at hl
  simpa using hl.next

lemma next_entry (h : Loose H s (A ++ e :: B) L) :
    next H 0 e.ptr = (B.head?).map Entry.ptr := by
  rw [List.append_cons] at h
  have := h.next_last
  simpa using this

lemma begin_eq (h : Loose H s es L) : begin_ H s = some ((es.head?).map Entry.ptr) := by
  simp [begin_, level_eq (h.hasLevel_head (i := 0) (by decide)), h.next_head]

lemma incr_eq (h : Loose H s (A ++ e :: B) L) :
    incr H (some e.ptr) = some ((B.head?).map Entry.ptr) := by
  have hl : HasLevel H e.ptr 0 := h.hasLevel (by simp) (h.pos e (by simp))
  simp [incr, level_eq hl, h.next_entry]

lemma iterAt_eq (h : Loose H s es L) {n : ℕ} (hn : n ≤ es.length) :
    iterAt H s n = some ((es[n]?).map Entry.ptr) := by
  induction n with
  | zero => rw [iterAt, h.begin_eq, ← List.head?_eq_getElem?]
  | succ n ih =>
    have hlt : n < es.length := hn
    have hsplit : es = es.take n ++ es[n] :: es.drop (n + 1) := by
      rw [← List.drop_eq_getElem_cons hlt, List.take_append_drop]
    have hstep := incr_eq (hsplit ▸ h : Loose H s (es.take n ++ es[n] :: es.drop (n + 1)) L)
    simp only [iterAt, ih hlt.le, List.getElem?_eq_getElem hlt, Option.map_some,
      Option.bind_eq_bind, Option.bind_some]
    rw [hstep, List.head?_drop]

lemma iterAt_none (h : Loose H s es L) {n : ℕ} (hn : es.length < n) : iterAt H s n = none := by
  induction n with
  | zero => omega
  | succ n ih =>
    rcases Nat.lt_succ_iff_lt_or_eq.mp hn with hlt | rfl
    · simp [iterAt, ih hlt]
    · simp [iterAt, h.iterAt_eq le_rfl, incr]

lemma iterAt_some (h : Loose H s es L) {n : ℕ} {p : Ptr} (hn : iterAt H s n = some (some p)) :
    ∃ e ∈ es, e.ptr = p := by
  rcases Nat.lt_or_ge es.length n with hlt | hge
  · rw [h.iterAt_none hlt] at hn
    cases hn
  · rw [h.iterAt_eq hge, Option.some.injEq, Option.map_eq_some_iff] at hn
    obtain ⟨e, he, hp⟩ := hn
    exact ⟨e, List.mem_of_getElem? he, hp⟩

lemma iterAt_mem (h : Loose H s es L) (he : e ∈ es) : ∃ n, iterAt H s n = some (some e.ptr) := by
  obtain ⟨n, hn, rfl⟩ := List.mem_iff_getElem.mp he
  exact ⟨n, by simp [h.iterAt_eq hn.le, hn]⟩

/-- The forward iteration passes the bindings in the order of level `0`. -/
theorem contents_eq (h : Loose H s es L) : contents H s = some (es.map Entry.kv) := by
  have := iterate_linked h.linked_zero (fun e he => ⟨_, _, h.node e he, h.pos e he⟩)
    (show es.length < s.fuel by simp [Skiplist.fuel, h.num])
  simp [contents, h.begin_eq, this]

/-- Different positions are different iterators. -/
theorem iterAt_inj (h : Loose H s es L) {n m : ℕ} (hn : n ≤ es.length) (hm : m ≤ es.length)
    (he : iterAt H s n = iterAt H s m) : n = m := by
  rw [h.iterAt_eq hn, h.iterAt_eq hm, Option.some.injEq, ← List.getElem?_map,
    ← List.getElem?_map] at he
  have hnd := (List.nodup_cons.mp h.nodup).2
  rcases Nat.lt_or_ge n es.length with hlt | hge
  · exact (List.getElem?_inj (by simpa using hlt) hnd).mp he
  · rcases Nat.lt_or_ge m es.length with hlt' | hge'
    · exact ((List.getElem?_inj (by simpa using hlt') hnd).mp he.symm).symm
    · omega

end Loose

/-! ### What an operation leaves alone -/

/-- The addresses in use that are not in `F` are as they were. -/
structure Frame (F : List Ptr) (H H' : Heap K V) : Prop where
  brk : H.brk ≤ H'.brk
  hdr : ∀ p < H.brk, p ∉ F → hdr H' p = hdr H p
  next : ∀ p < H.brk, p ∉ F → ∀ i, next H' i p = next H i p
  prev : ∀ p < H.brk, p ∉ F → ∀ i, prev H' i p = prev H i p

lemma Frame.refl (F : List Ptr) (H : Heap K V) : Frame F H H :=
  ⟨Nat.le_refl _, fun _ _ _ => rfl, fun _ _ _ _ => rfl, fun _ _ _ _ => rfl⟩

lemma Frame.trans {F F' : List Ptr} {H H' H'' : Heap K V} (h : Frame F H H') (h' : Frame F' H' H'')
    (hF : ∀ p ∈ F', p ∈ F ∨ H.brk ≤ p) : Frame F H H'' := by
  have hout {p : Ptr} (hp : p < H.brk) (hpF : p ∉ F) : p ∉ F' := fun hm =>
    (hF p hm).elim hpF (Nat.not_le.mpr hp)
  have hlt {p : Ptr} (hp : p < H.brk) : p < H'.brk := Nat.lt_of_lt_of_le hp h.brk
  refine ⟨Nat.le_trans h.brk h'.brk, fun p hp hpF => ?_, fun p hp hpF i => ?_,
    fun p hp hpF i => ?_⟩
  · rw [h'.hdr p (hlt hp) (hout hp hpF), h.hdr p hp hpF]
  · rw [h'.next p (hlt hp) (hout hp hpF), h.next p hp hpF]
  · rw [h'.prev p (hlt hp) (hout hp hpF), h.prev p hp hpF]

/-- **The other lists stay.** -/
theorem Loose.frame {F : List Ptr} {H H' : Heap K V} {s : Skiplist} {es : List (Entry K V)}
    {L : ℕ → List Ptr} (h : Loose H s es L) (hf : Frame F H H')
    (hu : ∀ p, H'.brk ≤ p → H'.node p = none) (hd : ∀ p ∈ foot s es, p ∉ F) :
    Loose H' s es L := by
  have hhead : s.head_ ∈ foot s es := List.mem_cons_self ..
  refine ⟨hu, ?_, fun i => ?_, fun e he => ?_, h.pos, h.nodup, h.lanes, h.zero, fun i hi => ?_,
    h.le_current, h.current_pos, h.current_le, h.current, h.num⟩
  · rw [hf.hdr _ (h.foot_lt hhead) (hd _ hhead)]
    exact h.head
  · rw [hf.prev _ (h.foot_lt hhead) (hd _ hhead), h.headPrev]
  · have hmem : e.ptr ∈ foot s es := List.mem_cons_of_mem _ (List.mem_map_of_mem he)
    rw [hf.hdr _ (h.foot_lt hmem) (hd _ hmem), h.node e he]
  · refine (h.linked i hi).congr (fun p hp => ?_) fun p hp => ?_
    · have hp' := (h.cell hi hp).2
      exact hf.next p (h.foot_lt hp') (hd p hp') i
    · have hp' := h.mem_foot hp
      exact hf.prev p (h.foot_lt hp') (hd p hp') i

variable [LinearOrder K]

/-- The representation of the entries `es` by the memory `H` and the data members `s`. -/
structure Rep (H : Heap K V) (s : Skiplist) (es : List (Entry K V)) : Prop where
  unused : ∀ p, H.brk ≤ p → H.node p = none
  head : ∃ kv, hdr H s.head_ = some (kv, maxHeight_, maxHeight_)
  headPrev : ∀ i, prev H i s.head_ = none
  node : ∀ e ∈ es, hdr H e.ptr = some (e.kv, e.ht, e.ht)
  pos : ∀ e ∈ es, 0 < e.ht
  nodup : (s.head_ :: es.map Entry.ptr).Nodup
  linked : ∀ i < maxHeight_, Linked (next H i) (prev H i) s.head_ (lane i es) none
  asc : Asc Entry.key es
  le_current : ∀ e ∈ es, e.ht ≤ s.currentHeight_
  current_pos : 1 ≤ s.currentHeight_
  current_le : s.currentHeight_ ≤ maxHeight_
  current : s.currentHeight_ = 1 ∨ ∃ e ∈ es, e.ht = s.currentHeight_
  num : s.elementNum_ = es.length
  tail : s.tail_ = (es.getLast?).map Entry.ptr

namespace Rep

variable {H : Heap K V} {s : Skiplist} {es : List (Entry K V)}

lemma loose (h : Rep H s es) : Loose H s es fun i => lane i es :=
  ⟨h.unused, h.head, h.headPrev, h.node, h.pos, h.nodup, fun _ => .refl _, lane_zero h.pos,
    h.linked, h.le_current, h.current_pos, h.current_le, h.current, h.num⟩

lemma ht_le (h : Rep H s es) {e : Entry K V} (he : e ∈ es) : e.ht ≤ maxHeight_ :=
  h.loose.ht_le he

lemma hasLevel_head (h : Rep H s es) {i : ℕ} (hi : i < maxHeight_) : HasLevel H s.head_ i :=
  h.loose.hasLevel_head hi

lemma hasLevel (h : Rep H s es) {e : Entry K V} (he : e ∈ es) {i : ℕ} (hi : i < e.ht) :
    HasLevel H e.ptr i :=
  h.loose.hasLevel he hi

lemma linked_zero (h : Rep H s es) :
    Linked (next H 0) (prev H 0) s.head_ (es.map Entry.ptr) none :=
  h.loose.linked_zero

lemma lt_brk (h : Rep H s es) {p : Ptr} (hp : hdr H p ≠ none) : p < H.brk := h.loose.lt_brk hp

lemma eq_of_ptr (h : Rep H s es) {e e' : Entry K V} (he : e ∈ es) (he' : e' ∈ es)
    (hp : e.ptr = e'.ptr) : e = e' :=
  h.loose.eq_of_ptr he he' hp

lemma ne_head (h : Rep H s es) {e : Entry K V} (he : e ∈ es) : e.ptr ≠ s.head_ :=
  h.loose.ne_head he

end Rep

lemma Loose.rep {H : Heap K V} {s : Skiplist} {es : List (Entry K V)}
    (h : Loose H s es fun i => lane i es) (ha : Asc Entry.key es)
    (ht : s.tail_ = (es.getLast?).map Entry.ptr) : Rep H s es :=
  ⟨h.unused, h.head, h.headPrev, h.node, h.pos, h.nodup, h.linked, ha, h.le_current,
    h.current_pos, h.current_le, h.current, h.num, ht⟩

end Libchef.SkipRep
