import Libchef.SkipRefine
import Libchef.SkipReverse

/-!
Lists on which single elements have been worked only, and the assignment of one to another.

As long as lists are constructed and elements put in and taken out, every level of every list
is in key order. An assignment clears the list on the left before it looks at the one on the
right, so a list assigned to itself is empty afterwards.
-/

namespace Libchef.SkipPlain

open Libchef.SkipModel Libchef.SkipWholeModel Libchef.SkipRep Libchef.SkipInsert
open Libchef.SkipLoose Libchef.SkipAssign Libchef.SkipReverse Libchef.Chain Libchef.Ordered
open Libchef.Runs Libchef.Slots

variable {K V : Type}

/-! ### The entries of a list -/

section Entries

variable {H : Heap K V} {s : Skiplist} {es es' : List (Entry K V)} {L L' : ℕ → List Ptr}

lemma Loose.unique (h : Loose H s es L) (h' : Loose H s es' L') : es = es' := by
  have hptr : es.map Entry.ptr = es'.map Entry.ptr := h.linked_zero.unique h'.linked_zero
  have hnode : ∀ e ∈ es, ∀ e' ∈ es', e.ptr = e'.ptr → e = e' := by
    rintro ⟨p, n, kv⟩ he ⟨p', n', kv'⟩ he' hp
    obtain rfl : p = p' := hp
    have hn : some (kv, n, n) = some (kv', n', n') := (h.node _ he).symm.trans (h'.node _ he')
    obtain ⟨hkv, hht, -⟩ : kv = kv' ∧ n = n' ∧ n = n' := by
      simpa only [Option.some.injEq, Prod.mk.injEq] using hn
    rw [hkv, hht]
  have hlen : es.length = es'.length := by simpa using congrArg List.length hptr
  refine List.ext_getElem hlen fun i hi hi' => ?_
  refine hnode _ (List.getElem_mem hi) _ (List.getElem_mem hi') ?_
  have := congrArg (fun l => l[i]?) hptr
  simpa [hi, hi'] using this

/-- What `Frame` says of an address, as one equation. -/
lemma node_eq {H' : Heap K V} {p : Ptr} (hh : hdr H' p = hdr H p)
    (hn : ∀ i, next H' i p = next H i p) (hp : ∀ i, prev H' i p = prev H i p) :
    H'.node p = H.node p := by
  cases hm : H.node p with
  | none =>
    have hnone : hdr H' p = none := by rw [hh, hdr, hm]; rfl
    simpa [hdr] using hnone
  | some n =>
    obtain ⟨n', hn', he⟩ : ∃ n', H'.node p = some n' ∧
        (n'.kv_, n'.height_, n'.levels_.length) = (n.kv_, n.height_, n.levels_.length) := by
      rw [hdr, hdr, hm] at hh
      exact Option.map_eq_some_iff.mp hh
    simp only [Prod.mk.injEq] at he
    obtain ⟨hkv, hht, hlen⟩ := he
    have hlev : n'.levels_ = n.levels_ := by
      refine List.ext_getElem hlen fun i hi hi' => ?_
      have h1 := hn i
      have h2 := hp i
      simp only [next, prev, Heap.level, hn', hm, Option.bind_some, List.getElem?_eq_getElem hi,
        List.getElem?_eq_getElem hi'] at h1 h2
      cases hx : n'.levels_[i]
      cases hy : n.levels_[i]
      rw [hx, hy] at h1 h2
      simp_all
    rw [hn']
    cases n
    cases n'
    simp_all

end Entries

/-! ### Runs of operations on elements -/

variable [LinearOrder K] (C : KeyCompare K)

/-- A new list, or an operation on the elements of a list, with positions of that list. -/
def PlainStep (t : Store K V) : Act K V → Prop
  | .construct => True
  | .op l op _ => ∃ s ∈ t.lists[l]?, OpValid s op
  | .clear _ | .swap _ _ | .assign _ _ _ => False

instance (t : Store K V) : DecidablePred (PlainStep t)
  | .construct => .isTrue trivial
  | .op l op _ => inferInstanceAs (Decidable (∃ s ∈ t.lists[l]?, OpValid s op))
  | .clear _ | .swap _ _ | .assign _ _ _ => .isFalse id

/-- The lists of the store with their entries, all levels in key order, no two of them
sharing a node. -/
structure Plain (t : Store K V) (es : ℕ → List (Entry K V)) : Prop where
  inv : Inv t es
  rep : ∀ l s, t.lists[l]? = some s → Rep t.heap s (es l)

section Steps

variable {t t' : Store K V} {es : ℕ → List (Entry K V)} {l : ℕ} {s : Skiplist}

lemma Plain.tails (h : Plain t es) : Tails t es := fun l s hl => (h.rep l s hl).tail

lemma Plain.set (h : Plain t es) (hl : t.lists[l]? = some s) {H : Heap K V} {s' : Skiplist}
    {e : List (Entry K V)} (hm : Moves t.heap s (es l) H s' e) (hr : Rep H s' e) :
    Plain ⟨H, t.lists.set l s'⟩ (Function.update es l e) := by
  refine ⟨h.inv.set hl hm, fun j s₁ hj => ?_⟩
  rcases getElem?_set_some hj with ⟨rfl, rfl⟩ | ⟨hne, hj⟩
  · rwa [Function.update_self]
  · rw [Function.update_of_ne hne]
    have hj' := h.rep j s₁ hj
    exact (hm.other hj'.loose (h.inv.apart l j s s₁ hne.symm hl hj)).1.rep hj'.asc hj'.tail

lemma Plain.construct [Inhabited K] [Inhabited V] (h : Plain t es) :
    Plain ⟨(make t.heap).1, t.lists ++ [(make t.heap).2]⟩
      (Function.update es t.lists.length []) := by
  obtain ⟨hnew, hframe⟩ := make_loose h.inv.unused
  refine ⟨(h.inv.construct h.tails).1, fun j s₁ hj => ?_⟩
  rcases getElem?_snoc_some hj with ⟨rfl, rfl⟩ | ⟨hne, hj⟩
  · rw [Function.update_self]
    exact hnew.rep asc_nil rfl
  · rw [Function.update_of_ne hne]
    have hj' := h.rep j s₁ hj
    exact (hj'.loose.frame hframe hnew.unused (by simp)).rep hj'.asc hj'.tail

lemma rep_of_refines {H : Heap K V} {e : List (Entry K V)} {m : OrderedMap K V} (h : Good H s e)
    (hr : SkipRefine.Refines (H, s) m) : Rep H s e ∧ e.map Entry.kv = m.entries := by
  obtain ⟨e', hr, hm⟩ := hr
  obtain ⟨L, hl⟩ := h.loose
  obtain rfl : e' = e := Loose.unique hr.loose hl
  exact ⟨hr, hm⟩

lemma exec_plain [Inhabited V] {H : Heap K V} {e : List (Entry K V)} (h : Rep H s e) (op : Op K V)
    (gen : ℕ → ℕ) (hv : OpValid s op) :
    ∃ H' s' e', exec C (H, s) (op, gen) = some (H', s') ∧ Moves H s e H' s' e' ∧ Rep H' s' e' := by
  obtain ⟨H', s', e', he, hm, -⟩ := exec_done C ⟨⟨_, h.loose⟩, h.asc⟩ h.tail op gen hv
  have hasc : Asc Prod.fst (e.map Entry.kv) := List.pairwise_map.mpr h.asc
  have hvalid : SkipRefine.Valid ⟨e.map Entry.kv, hasc⟩ op := by
    have hsize : size s = OrderedMap.size ⟨e.map Entry.kv, hasc⟩ := by
      rw [size, h.num, OrderedMap.size, List.length_map]
    cases op with
    | eraseAt position => exact Nat.lt_of_lt_of_eq hv hsize
    | eraseRange first last => exact ⟨hv.1, hv.2.trans_eq hsize⟩
    | insert | index | eraseKey => trivial
  obtain ⟨⟨H₁, s₁⟩, he₁, href⟩ :=
    SkipRefine.exec_refines C (t := (H, s)) ⟨e, h, rfl⟩ op gen hvalid
  cases he.symm.trans he₁
  exact ⟨H', s', e', he, hm, (rep_of_refines hm.good href).1⟩

/-- **One step.** -/
theorem step_plain [Inhabited K] [Inhabited V] (h : Plain t es) {a : Act K V}
    (hp : PlainStep t a) (e : step C t a = some t') : ∃ es', Plain t' es' := by
  cases a with
  | construct =>
    cases e
    exact ⟨_, h.construct⟩
  | op l op gen =>
    obtain ⟨s, hl, hv⟩ := hp
    obtain ⟨H', s', e', he, hm, hr⟩ := exec_plain C (h.rep l s hl) op gen hv
    simp only [step, Option.mem_def.mp hl, he, Option.bind_eq_bind, Option.bind_some,
      Option.some.injEq] at e
    cases e
    exact ⟨_, h.set hl hm hr⟩
  | clear | swap | assign => exact absurd hp id

/-- **A run.** -/
theorem run_plain [Inhabited K] [Inhabited V] {acts : List (Act K V)}
    (hp : Along (step C) PlainStep Store.empty acts)
    (e : Runs.exec (step C) Store.empty acts = some t) : ∃ es, Plain t es := by
  have hstart : ∃ es, Plain (Store.empty : Store K V) es :=
    ⟨fun _ => [], empty_inv.1, fun l s h => by simp [Store.empty] at h⟩
  have hstep : ∀ t a t', (∃ es, Plain t es) → PlainStep t a → step C t a = some t' →
      ∃ es, Plain (K := K) (V := V) t' es := by
    rintro t a t' ⟨es, h⟩ hp e
    exact step_plain C h hp e
  exact exec_invariant hstep hstart hp e

end Steps

/-! ### Assignment -/

/-- The second list has the forward iteration and the size that the first has. -/
def Copies (H : Heap K V) (x : Skiplist) (H' : Heap K V) (s : Skiplist) : Prop :=
  size s = size x ∧ ∃ kvs, contents H x = some kvs ∧ contents H' s = some kvs

/-- The head of the list and the nodes that an iteration visits are as they were. -/
def Untouched (H H' : Heap K V) (x : Skiplist) : Prop :=
  ∃ first nodes, begin_ H x = some first ∧ Visits (incr H) first nodes ∧
    ∀ p ∈ x.head_ :: nodes, H'.node p = H.node p

/-- List `l` has what list `x` had before, and list `x`, if it is another one, is unchanged. -/
def Assigns [Inhabited K] [Inhabited V] (t : Store K V) (l x : ℕ) (gens : ℕ → ℕ → ℕ) : Prop :=
  ∃ t' s y, step C t (.assign l x gens) = some t' ∧ t.lists[x]? = some y ∧
    t'.lists[l]? = some s ∧ Copies t.heap y t'.heap s ∧
    (l ≠ x → t'.lists[x]? = some y ∧ Untouched t.heap t'.heap y)

section Assignment

variable {t : Store K V} {es : ℕ → List (Entry K V)} {l x : ℕ} {s y : Skiplist}
  {H H' : Heap K V} {e ex : List (Entry K V)}

omit [LinearOrder K] in
lemma copies_of_entries {L L' : ℕ → List Ptr} (hx : Loose H y ex L) (hs : Loose H' s e L')
    (hkv : e.map Entry.kv = ex.map Entry.kv) : Copies H y H' s := by
  refine ⟨?_, _, hx.contents_eq, by rw [hs.contents_eq, hkv]⟩
  have := congrArg List.length hkv
  rw [List.length_map, List.length_map] at this
  rw [size, size, hs.num, hx.num, this]

lemma untouched_of_moves (hm : Moves H s e H' y ex) {x : Skiplist} {exs : List (Entry K V)}
    {L : ℕ → List Ptr} (hx : Loose H x exs L) (hd : ∀ p ∈ foot x exs, p ∉ foot s e) :
    Untouched H H' x := by
  refine ⟨_, _, hx.begin_eq, visits_forward (A := []) (B := exs) hx, fun p hp => ?_⟩
  have hlt := hx.foot_lt hp
  have hout := hd p hp
  exact node_eq (hm.frame.hdr p hlt hout) (hm.frame.next p hlt hout) (hm.frame.prev p hlt hout)

lemma assign_self (h : Good H s e) (gens : ℕ → ℕ → ℕ) :
    ∃ H', assign C H s s gens = some (H', cleared s) ∧ Moves H s e H' (cleared s) [] := by
  obtain ⟨H', e', hm⟩ := clear_moves h
  obtain ⟨L, hl⟩ := hm.good.loose
  have hbegin : begin_ H' s = some none := hl.begin_eq
  refine ⟨H', ?_, hm⟩
  simp [assign, e', hbegin, insertRangeEffective_, Skiplist.fuel, insertRange]

lemma assigns_self_iff [Inhabited K] [Inhabited V] (h : Plain t es) (hl : t.lists[l]? = some s)
    (gens : ℕ → ℕ → ℕ) : Assigns C t l l gens ↔ size s = 0 := by
  have hlt : l < t.lists.length := (List.getElem?_eq_some_iff.mp hl).1
  obtain ⟨H', e', hm⟩ := assign_self C (h.inv.good l s hl) gens
  obtain ⟨L', hl'⟩ := hm.good.loose
  have hstep : step C t (.assign l l gens) = some ⟨H', t.lists.set l (cleared s)⟩ := by
    simp [step, hl, e']
  constructor
  · rintro ⟨t', s', y, he, hy', hs', hc, -⟩
    cases hstep.symm.trans he
    cases hl.symm.trans hy'
    rw [List.getElem?_set_self hlt] at hs'
    cases hs'
    exact hc.1.symm
  · intro h0
    have hnil : es l = [] := (h.inv.good l s hl).size_eq_zero.mp h0
    exact ⟨_, cleared s, s, hstep, hl, List.getElem?_set_self hlt,
      copies_of_entries (h.rep l s hl).loose hl' (by rw [hnil]), fun hne => absurd rfl hne⟩

lemma assigns_other [Inhabited K] [Inhabited V] (h : Plain t es) (hl : t.lists[l]? = some s)
    (hx : t.lists[x]? = some y) (hlx : l ≠ x) (gens : ℕ → ℕ → ℕ) : Assigns C t l x gens := by
  have hlt : l < t.lists.length := (List.getElem?_eq_some_iff.mp hl).1
  have hy := (h.rep x y hx).loose
  have hd := h.inv.apart l x s y hlx hl hx
  obtain ⟨H', s', e', he, hm, hkv, -⟩ :=
    assign_moves C (h.inv.good l s hl) (h.inv.good x y hx) hd gens
  obtain ⟨L', hl'⟩ := hm.good.loose
  refine ⟨⟨H', t.lists.set l s'⟩, s', y, by simp [step, hl, hx, he], hx,
    List.getElem?_set_self hlt, copies_of_entries hy hl' hkv, fun _ => ⟨?_, ?_⟩⟩
  · rwa [List.getElem?_set_ne hlx]
  · exact untouched_of_moves hm hy hd

/-- **When an assignment copies.** On any two lists reached by operations on elements, and
whatever heights are drawn, `operator=` copies the right side, and leaves it alone, if and only
if the two are different lists or the list is empty. -/
theorem assigns_iff [Inhabited K] [Inhabited V] {acts : List (Act K V)}
    (hp : Along (step C) PlainStep Store.empty acts)
    (e : Runs.exec (step C) Store.empty acts = some t) (hl : t.lists[l]? = some s)
    (hx : t.lists[x]? = some y) (gens : ℕ → ℕ → ℕ) :
    Assigns C t l x gens ↔ l ≠ x ∨ size y = 0 := by
  obtain ⟨es, h⟩ := run_plain C hp e
  by_cases hlx : l = x
  · subst hlx
    obtain rfl : s = y := Option.some.inj (hl.symm.trans hx)
    rw [or_iff_right (not_not.mpr rfl)]
    exact assigns_self_iff C h hl gens
  · exact iff_of_true (assigns_other C h hl hx hlx gens) (Or.inl hlx)

end Assignment

/-- Two lists, one of them with two elements, and the other assigned to it. -/
def twoLists : List (Act ℕ ℕ) :=
  [.construct, .construct, .op 0 (.insert (2, 20)) fun _ => 1, .op 0 (.index 1) fun _ => 1]

theorem assigns_iff_two : ∃ t s y, Runs.exec (step (defaultComparator ℕ)) Store.empty twoLists =
    some t ∧ t.lists[1]? = some s ∧ t.lists[0]? = some y ∧
    (Assigns (defaultComparator ℕ) t 1 0 (fun _ _ => 1) ↔ 1 ≠ 0 ∨ size y = 0) :=
  ⟨_, _, _, rfl, rfl, rfl, assigns_iff (l := 1) (x := 0) (defaultComparator ℕ)
    (show Along _ PlainStep Store.empty twoLists by decide) rfl rfl rfl _⟩

/-- A list of one element assigned to itself loses it. -/
theorem not_assigns :
    let acts : List (Act ℕ ℕ) := [.construct, .op 0 (.insert (1, 10)) fun _ => 1]
    ∃ t, Along (step (defaultComparator ℕ)) PlainStep Store.empty acts ∧
      Runs.exec (step (defaultComparator ℕ)) Store.empty acts = some t ∧
      (t.lists.map fun s => contents t.heap s) = [some [(1, 10)]] ∧
      ∃ t', step (defaultComparator ℕ) t (.assign 0 0 fun _ _ => 1) = some t' ∧
        (t'.lists.map fun s => contents t'.heap s) = [some []] ∧
        ¬ Assigns (defaultComparator ℕ) t 0 0 fun _ _ => 1 := by
  refine ⟨_, by decide, rfl, rfl, _, rfl, rfl, ?_⟩
  rintro ⟨t', s, y, he, hy, hs, ⟨-, kvs, h1, h2⟩, -⟩
  cases he
  cases hy
  cases hs
  cases h1
  cases h2

end Libchef.SkipPlain
