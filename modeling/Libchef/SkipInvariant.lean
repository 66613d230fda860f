import Mathlib.Order.Bounds.Defs
import Libchef.SkipRefine

/-!
The representation of a skip list, told by what its pointers lead through.

The entries of the representation are a ghost. Here the levels are walked as the code walks
them, and what holds of them, of the cached members and of a failed search is read off the
memory alone. Memory holds the head and the nodes of the list and no others: every insert
adds one, every erase frees one, and the list has as many as it counts.
-/

namespace Libchef.SkipInvariant

open Libchef.SkipModel Libchef.SkipRep Libchef.SkipFind Libchef.SkipInsert Libchef.SkipErase
open Libchef.SkipRefine Libchef.Chain Libchef.Ordered

variable {K V : Type}

/-! ### Walking a level -/

/-- What the `next_` pointers of level `i` lead through from `p` to the null pointer. -/
def chainFrom (H : Heap K V) (i : ℕ) : (fuel : ℕ) → Ptr → Option (List Ptr)
  | 0, _ => none
  | fuel + 1, p => do
    let it ← H.level p i
    match it.next_ with
    | none => some []
    | some q => do
      let l ← chainFrom H i fuel q
      some (q :: l)

/-- Level `i`, from the head on. -/
def chain (H : Heap K V) (s : Skiplist) (i : ℕ) : Option (List Ptr) :=
  chainFrom H i s.fuel s.head_

lemma chainFrom_eq {H : Heap K V} {i : ℕ} {d : Ptr} {l : List Ptr}
    (hl : Linked (next H i) (prev H i) d l none) (hlev : ∀ p ∈ d :: l, HasLevel H p i) {fuel : ℕ}
    (hf : l.length < fuel) : chainFrom H i fuel d = some l := by
  induction l generalizing d fuel with
  | nil =>
    obtain ⟨fuel, rfl⟩ : ∃ f, fuel = f + 1 := ⟨fuel - 1, by omega⟩
    have hz : next H i d = none := hl
    simp [chainFrom, level_eq (hlev d (by simp)), hz]
  | cons b l ih =>
    obtain ⟨fuel, rfl⟩ : ∃ f, fuel = f + 1 := ⟨fuel - 1, by omega⟩
    obtain ⟨h1, -, h3⟩ := hl
    have hrest := ih h3 (fun p hp => hlev p (List.mem_cons_of_mem _ hp))
      (show l.length < fuel by simpa using hf)
    simp [chainFrom, level_eq (hlev d (by simp)), h1, hrest]

lemma lane_succ_sublist (i : ℕ) (es : List (Entry K V)) :
    List.Sublist (lane (i + 1) es) (lane i es) := by
  refine List.Sublist.map _ (List.monotone_filter_right es fun e he => ?_)
  have : i + 1 < e.ht := by simpa using he
  exact decide_eq_true (by omega)

/-- A node in memory that is taller than `i`, other than the head. -/
def Taller (H : Heap K V) (s : Skiplist) (i : ℕ) (p : Ptr) : Prop :=
  p ≠ s.head_ ∧ ∃ h, H.height p = some h ∧ i < h

/-! ### What memory holds -/

/-- Memory has no more nodes than the list counts, and the head. -/
def Tight (H : Heap K V) (s : Skiplist) : Prop :=
  ∃ l : List Ptr, (∀ p, H.node p ≠ none → p ∈ l) ∧ l.length ≤ s.elementNum_ + 1

section Memory

variable {H H' : Heap K V} {s s' : Skiplist}

lemma setLevel_same {p : Ptr} {i : ℕ} {f : LevelItem → LevelItem}
    (h : H.setLevel p i f = some H') : Same H H' := by
  have hp : HasLevel H p i := by
    simp only [Heap.setLevel, Option.bind_eq_bind, Option.bind_eq_some_iff] at h
    obtain ⟨n, hn, it, hit, -⟩ := h
    exact hasLevel_iff.mpr ⟨n, hn, (List.getElem?_eq_some_iff.mp hit).1⟩
  obtain ⟨H₁, e, hs, -⟩ := setLevel_spec f hp
  obtain rfl : H₁ = H' := Option.some.inj (e.symm.trans h)
  exact hs

lemma setPrevIf_same {p q : Option Ptr} {i : ℕ} (h : H.setPrevIf p i q = some H') :
    Same H H' := by
  cases p with
  | none =>
    obtain rfl : H = H' := Option.some.inj h
    exact .refl H
  | some p => exact setLevel_same h

lemma link_same {nn : Ptr} {cache : Cache} {i : ℕ} (h : link H nn cache i = some H') :
    Same H H' := by
  induction i generalizing H with
  | zero =>
    obtain rfl : H = H' := Option.some.inj h
    exact .refl H
  | succ i ih =>
    simp only [link, linkAt, Option.bind_eq_bind, Option.bind_eq_some_iff] at h
    obtain ⟨_, -, _, ⟨_, -, _, e1, _, e2, _, -, _, e3, e4⟩, e5⟩ := h
    exact ((setLevel_same e1).trans (setLevel_same e2)).trans
      (((setPrevIf_same e3).trans (setLevel_same e4)).trans (ih e5))

lemma unlink_same {n : Ptr} {i : ℕ} (h : unlink H n i = some H') : Same H H' := by
  induction i generalizing H with
  | zero =>
    obtain rfl : H = H' := Option.some.inj h
    exact .refl H
  | succ i ih =>
    simp only [unlink, unlinkAt, Option.bind_eq_bind, Option.bind_eq_some_iff] at h
    obtain ⟨_, ⟨_, -, _, -, _, e1, _, -, e2⟩, e3⟩ := h
    exact ((setLevel_same e1).trans (setPrevIf_same e2)).trans (ih e3)

lemma node_ne_none (h : Same H H') {p : Ptr} : H'.node p ≠ none ↔ H.node p ≠ none := by
  have := congrFun h.hdr p
  simp only [hdr] at this
  rw [not_iff_not, ← Option.map_eq_none_iff, this, Option.map_eq_none_iff]

lemma insert_tight (ht : Tight H s) {gen : ℕ → ℕ} {kv : K × V} {cache : Cache} {p : Ptr}
    (h : insert_ H s gen kv cache = some (H', s', p)) : Tight H' s' := by
  obtain ⟨l, hl, hlen⟩ := ht
  simp only [insert_, Option.bind_eq_bind, Option.bind_eq_some_iff, Option.some.injEq,
    Prod.mk.injEq] at h
  obtain ⟨_, -, H₁, e1, _, -, rfl, rfl, -⟩ := h
  refine ⟨H.brk :: l, fun q hq => ?_, by simpa using hlen⟩
  have hq' := (node_ne_none (link_same e1)).mp hq
  by_cases hb : q = H.brk
  · exact hb ▸ List.mem_cons_self
  · refine List.mem_cons_of_mem _ (hl q ?_)
    simpa [Heap.new, hb] using hq'

/-- An erase gives the address of its node back. -/
lemma erase_tight (ht : Tight H s) {n : Ptr} (h : erase_ H s n = some (H', s')) :
    Tight H' s' := by
  obtain ⟨l, hl, hlen⟩ := ht
  simp only [erase_, Option.bind_eq_bind, Option.bind_eq_some_iff, Option.some.injEq,
    Prod.mk.injEq] at h
  obtain ⟨_, e0, H₁, e1, _, -, _, -, _, e2, rfl, rfl⟩ := h
  have hn : n ∈ l := hl n fun h0 => by simp [Heap.height, h0] at e0
  simp only [Heap.delete, Option.bind_eq_bind, Option.bind_eq_some_iff, Option.some.injEq] at e2
  obtain ⟨_, -, rfl⟩ := e2
  refine ⟨l.erase n, fun q hq => ?_, ?_⟩
  · have hqn : q ≠ n := by
      rintro rfl
      simp at hq
    have hq' : H₁.node q ≠ none := by simpa [hqn] using hq
    exact (List.mem_erase_of_ne hqn).mpr (hl q ((node_ne_none (unlink_same e1)).mp hq'))
  · rw [List.length_erase_of_mem hn]
    show l.length - 1 ≤ s.elementNum_ - 1 + 1
    omega

lemma eraseRange_tight {last : Option Ptr} {fuel : ℕ} {iter : Option Ptr} (ht : Tight H s)
    (h : eraseRange last fuel H s iter = some (H', s')) : Tight H' s' := by
  induction fuel generalizing H s iter with
  | zero => cases h
  | succ fuel ih =>
    simp only [eraseRange] at h
    split_ifs at h with hi
    · obtain ⟨rfl, rfl⟩ := Prod.mk.inj (Option.some.inj h)
      exact ht
    · simp only [Option.bind_eq_bind, Option.bind_eq_some_iff] at h
      obtain ⟨_, -, n, -, ⟨H₁, s₁⟩, e1, e2⟩ := h
      exact ih (erase_tight ht e1) e2

section Order

variable [LinearOrder K] (C : KeyCompare K)

lemma eraseKey_tight (ht : Tight H s) {k : K} {n : ℕ}
    (h : eraseKey C H s k = some (H', s', n)) : Tight H' s' := by
  simp only [eraseKey, Option.bind_eq_bind, Option.bind_eq_some_iff] at h
  obtain ⟨iter, -, h⟩ := h
  cases iter with
  | none =>
    obtain ⟨rfl, rfl, -⟩ : H = H' ∧ s = s' ∧ 0 = n := by simpa using h
    exact ht
  | some p =>
    simp only [Option.bind_eq_some_iff, Option.some.injEq, Prod.mk.injEq] at h
    obtain ⟨⟨H₁, s₁⟩, e1, rfl, rfl, -⟩ := h
    exact erase_tight ht e1

lemma exec_tight [Inhabited V] {t t' : Heap K V × Skiplist} (ht : Tight t.1 t.2)
    {op : Op K V × (ℕ → ℕ)} (h : exec C t op = some t') : Tight t'.1 t'.2 := by
  obtain ⟨H, s⟩ := t
  obtain ⟨op, gen⟩ := op
  cases op with
  | insert val =>
    simp only [exec, SkipModel.insert, Option.bind_eq_bind, Option.bind_eq_some_iff] at h
    obtain ⟨⟨H₁, s₁, p, b⟩, ⟨⟨iter, cache⟩, -, h1⟩, h2⟩ := h
    obtain rfl : (H₁, s₁) = t' := Option.some.inj h2
    cases iter with
    | none =>
      simp only [Option.bind_eq_some_iff, Option.some.injEq, Prod.mk.injEq] at h1
      obtain ⟨⟨H₂, s₂, q⟩, e1, rfl, rfl, -⟩ := h1
      exact insert_tight ht e1
    | some q =>
      simp only [Option.some.injEq, Prod.mk.injEq] at h1
      obtain ⟨rfl, rfl, -⟩ := h1
      exact ht
  | index k =>
    simp only [exec, index, Option.bind_eq_bind, Option.bind_eq_some_iff] at h
    obtain ⟨⟨H₁, s₁, p⟩, ⟨⟨iter, cache⟩, -, h1⟩, h2⟩ := h
    obtain rfl : (H₁, s₁) = t' := Option.some.inj h2
    cases iter with
    | none => exact insert_tight ht h1
    | some q =>
      simp only [Option.some.injEq, Prod.mk.injEq] at h1
      obtain ⟨rfl, rfl, -⟩ := h1
      exact ht
  | eraseKey k =>
    simp only [exec, Option.bind_eq_bind, Option.bind_eq_some_iff] at h
    obtain ⟨⟨H₁, s₁, n⟩, e1, h2⟩ := h
    obtain rfl : (H₁, s₁) = t' := Option.some.inj h2
    exact eraseKey_tight C ht e1
  | eraseAt position =>
    simp only [exec, eraseAt, Option.bind_eq_bind, Option.bind_eq_some_iff] at h
    obtain ⟨_, -, _, -, _, -, ⟨H₁, s₁, n⟩, e1, h2⟩ := h
    obtain rfl : (H₁, s₁) = t' := Option.some.inj h2
    exact eraseKey_tight C ht e1
  | eraseRange first last =>
    simp only [exec, Option.bind_eq_bind, Option.bind_eq_some_iff] at h
    obtain ⟨_, -, _, -, e1⟩ := h
    exact eraseRange_tight ht e1

lemma foldlM_tight [Inhabited V] {ops : List (Op K V × (ℕ → ℕ))} {t t' : Heap K V × Skiplist}
    (ht : Tight t.1 t.2) (h : ops.foldlM (exec C) t = some t') : Tight t'.1 t'.2 := by
  induction ops generalizing t with
  | nil =>
    obtain rfl : t = t' := Option.some.inj h
    exact ht
  | cons op ops ih =>
    simp only [List.foldlM_cons, Option.bind_eq_bind, Option.bind_eq_some_iff] at h
    obtain ⟨t₁, e1, h⟩ := h
    exact ih (exec_tight C ht e1) h

end Order

lemma make_tight [Inhabited K] [Inhabited V] :
    Tight (make (Heap.empty : Heap K V)).1 (make (Heap.empty : Heap K V)).2 := by
  refine ⟨[0], fun p hp => ?_, le_rfl⟩
  by_contra hc
  refine hp ?_
  have hp0 : p ≠ 0 := by simpa using hc
  simp [make, Heap.new, Heap.empty, hp0]

variable {es : List (Entry K V)}

lemma Tight.mem_foot [LinearOrder K] (ht : Tight H s) (h : Rep H s es) {p : Ptr}
    (hp : H.node p ≠ none) : p ∈ foot s es := by
  obtain ⟨l, hl, hlen⟩ := ht
  have hnode : ∀ q ∈ foot s es, q ∈ l := by
    intro q hq
    refine hl q fun h0 => ?_
    have hnone : hdr H q = none := by simp [hdr, h0]
    rcases List.mem_cons.mp hq with rfl | hq
    · obtain ⟨kv, hk⟩ := h.head
      simp [hk] at hnone
    · obtain ⟨e, he, rfl⟩ := List.mem_map.mp hq
      simp [h.node e he] at hnone
  have hsub : List.Subperm (foot s es) l := List.Nodup.subperm h.nodup hnode
  have hfoot : (foot s es).length = s.elementNum_ + 1 := by simp [foot, h.num]
  exact (hsub.perm_of_length_le (hfoot ▸ hlen)).mem_iff.mpr (hl p hp)

end Memory

/-! ### The invariant -/

section Invariant

variable [LinearOrder K]

/-- The last of the nodes `l` with a key smaller than `k`, or the head. -/
def lastBelow (H : Heap K V) (s : Skiplist) (k : K) (l : List Ptr) : Ptr :=
  (l.filter fun p => (H.kv p).any fun kv => kv.1 < k).getLast?.getD s.head_

/-- What a failed search leaves in the cache, whatever was in it. -/
def FindFills (C : KeyCompare K) (H : Heap K V) (s : Skiplist) (k : K) (cache : Cache) : Prop :=
  ∃ iter cache', find_ C H s s.fuel k none none (some cache) = some (iter, some cache') ∧
    (iter = none → ∀ i < s.currentHeight_, ∀ l, chain H s i = some l →
      cache' i = some (lastBelow H s k l))

/-- The representation invariant. -/
structure Invariant (C : KeyCompare K) (H : Heap K V) (s : Skiplist) : Prop where
  chains : ∀ i < s.currentHeight_, ∃ l, chain H s i = some l ∧ (∀ p, p ∈ l ↔ Taller H s i p) ∧
    l.Pairwise fun p q => ∃ a b, H.kv p = some a ∧ H.kv q = some b ∧ a.1 < b.1
  sublist : ∀ i, i + 1 < s.currentHeight_ → ∀ l l', chain H s i = some l →
    chain H s (i + 1) = some l' → List.Sublist l' l
  inverse : ∀ i p q, (H.level p i).bind LevelItem.next_ = some q ↔
    (H.level q i).bind LevelItem.prev_ = some p
  headPrev : ∀ i < maxHeight_, ∃ it, H.level s.head_ i = some it ∧ it.prev_ = none
  unused : ∀ i, s.currentHeight_ ≤ i → i < maxHeight_ → chain H s i = some []
  current : IsGreatest (insert 1 {h | ∃ p ≠ s.head_, H.height p = some h}) s.currentHeight_
  num : ∀ l, chain H s 0 = some l → s.elementNum_ = l.length
  tail : ∀ l, chain H s 0 = some l → s.tail_ = l.getLast?
  cache : ∀ k cache, FindFills C H s k cache

variable {H : Heap K V} {s : Skiplist} {es : List (Entry K V)}

lemma chain_eq (h : Rep H s es) {i : ℕ} (hi : i < maxHeight_) :
    chain H s i = some (lane i es) := by
  refine chainFrom_eq (h.linked i hi) (fun p hp => (h.loose.cell hi hp).1) ?_
  have := (lane_sublist i es).length_le
  rw [List.length_map] at this
  rw [Skiplist.fuel, h.num]
  omega

lemma mem_chain (h : Rep H s es) (ht : Tight H s) {i : ℕ} {p : Ptr} :
    p ∈ lane i es ↔ Taller H s i p := by
  rw [mem_lane]
  constructor
  · rintro ⟨e, he, hi, rfl⟩
    exact ⟨h.ne_head he, e.ht, height_of_hdr (h.node e he), hi⟩
  · rintro ⟨hp, ht', hh, hi⟩
    have hnode : H.node p ≠ none := fun h0 => by simp [Heap.height, h0] at hh
    rcases List.mem_cons.mp (ht.mem_foot h hnode) with rfl | hm
    · exact absurd rfl hp
    · obtain ⟨e, he, rfl⟩ := List.mem_map.mp hm
      obtain rfl := Option.some.inj ((height_of_hdr (h.node e he)).symm.trans hh)
      exact ⟨e, he, hi, rfl⟩

lemma chain_ascending (h : Rep H s es) (i : ℕ) : (lane i es).Pairwise fun p q =>
    ∃ a b, H.kv p = some a ∧ H.kv q = some b ∧ a.1 < b.1 := by
  refine List.pairwise_map.mpr ((h.asc.filter _).imp_of_mem fun {e e'} he he' hlt => ?_)
  exact ⟨e.kv, e'.kv, kv_of_hdr (h.node e (List.mem_of_mem_filter he)),
    kv_of_hdr (h.node e' (List.mem_of_mem_filter he')), hlt⟩

lemma mem_cells (h : Rep H s es) (ht : Tight H s) {i : ℕ} {p : Ptr} {it : LevelItem}
    (hp : H.level p i = some it) : i < maxHeight_ ∧ p ∈ s.head_ :: lane i es := by
  obtain ⟨n, hn, hi⟩ : ∃ n, H.node p = some n ∧ i < n.levels_.length := by
    obtain ⟨n, hn, hit⟩ := Option.bind_eq_some_iff.mp hp
    exact ⟨n, hn, (List.getElem?_eq_some_iff.mp hit).1⟩
  have hh : hdr H p = some (n.kv_, n.height_, n.levels_.length) := by simp [hdr, hn]
  rcases List.mem_cons.mp (ht.mem_foot h (p := p) (by simp [hn])) with rfl | hm
  · obtain ⟨kv, hk⟩ := h.head
    obtain ⟨-, -, hlen⟩ : kv = n.kv_ ∧ maxHeight_ = n.height_ ∧ maxHeight_ = n.levels_.length := by
      simpa using hk.symm.trans hh
    exact ⟨hlen ▸ hi, List.mem_cons_self⟩
  · obtain ⟨e, he, rfl⟩ := List.mem_map.mp hm
    obtain ⟨-, -, hlen⟩ : e.kv = n.kv_ ∧ e.ht = n.height_ ∧ e.ht = n.levels_.length := by
      simpa using (h.node e he).symm.trans hh
    have hi' : i < e.ht := hlen ▸ hi
    exact ⟨hi'.trans_le (h.ht_le he), List.mem_cons_of_mem _ (mem_lane.mpr ⟨e, he, hi', rfl⟩)⟩

lemma links_inverse (h : Rep H s es) (ht : Tight H s) (i : ℕ) (p q : Ptr) :
    next H i p = some q ↔ prev H i q = some p := by
  constructor
  · intro hn
    obtain ⟨it, hit, -⟩ := Option.bind_eq_some_iff.mp hn
    obtain ⟨hi, hp⟩ := mem_cells h ht hit
    exact ((h.linked i hi).prev_of_next hp hn).2
  · intro hpv
    obtain ⟨it, hit, -⟩ := Option.bind_eq_some_iff.mp hpv
    obtain ⟨hi, hq⟩ := mem_cells h ht hit
    rcases List.mem_cons.mp hq with rfl | hq
    · simp [h.headPrev i] at hpv
    · exact ((h.linked i hi).next_of_prev hq hpv).2

lemma current_greatest (h : Rep H s es) (ht : Tight H s) :
    IsGreatest (insert 1 {n | ∃ p ≠ s.head_, H.height p = some n}) s.currentHeight_ := by
  constructor
  · rcases h.current with h1 | ⟨e, he, hc⟩
    · exact Or.inl h1
    · exact Or.inr ⟨e.ptr, h.ne_head he, hc ▸ height_of_hdr (h.node e he)⟩
  · rintro n (rfl | ⟨p, hp, hn⟩)
    · exact h.current_pos
    · rcases Nat.eq_zero_or_pos n with rfl | hpos
      · exact Nat.zero_le _
      · -- a node with a height is on level zero
        obtain ⟨e, he, -, rfl⟩ := mem_lane.mp ((mem_chain h ht).mpr ⟨hp, n, hn, hpos⟩)
        obtain rfl := Option.some.inj ((height_of_hdr (h.node e he)).symm.trans hn)
        exact h.le_current e he

lemma lastBelow_lane (h : Rep H s es) (k : K) (i : ℕ) :
    lastBelow H s k (lane i es) = pred s es k i := by
  have hfilter : (lane i es).filter (fun p => (H.kv p).any fun kv => kv.1 < k) =
      lane i (below Entry.key k es) := by
    simp only [lane, below, List.filter_map, List.filter_filter]
    refine congrArg _ (List.filter_congr fun e he => ?_)
    have hany : (H.kv e.ptr).any (fun kv => kv.1 < k) = decide (e.key < k) := by
      rw [kv_of_hdr (h.node e he)]
      rfl
    rw [Function.comp_apply, hany, Bool.and_comm]
  rw [lastBelow, hfilter, pred, last_eq_getLast?]

lemma find_fills (C : KeyCompare K) (h : Rep H s es) (k : K) (cache : Cache) :
    FindFills C H s k cache := by
  by_cases hk : ∃ e ∈ es, e.key = k
  · obtain ⟨e, he, rfl⟩ := hk
    obtain ⟨c, hc, hs⟩ := descend_present C h h.current_le (start_head _)
      (Nat.pos_iff_ne_zero.mp h.current_pos) he rfl (some cache)
    obtain ⟨c, rfl⟩ := Option.isSome_iff_exists.mp hs
    exact ⟨some e.ptr, c, by simp [find_, hc], by simp⟩
  · simp only [not_exists, not_and] at hk
    have hd := descend_absent C h h.current_le (fun _ => start_head _) hk (some cache)
    refine ⟨none, fill (pred s es k) s.currentHeight_ cache, by simp [find_, hd], ?_⟩
    intro _ i hi l hl
    rw [chain_eq h (hi.trans_le h.current_le), Option.some.injEq] at hl
    rw [fill_slot _ i hi, ← hl, lastBelow_lane h]

/-- The representation of the entries, without the entries. -/
theorem invariant_of_rep (C : KeyCompare K) (h : Rep H s es) (ht : Tight H s) :
    Invariant C H s := by
  have hzero : chain H s 0 = some (es.map Entry.ptr) := by
    rw [chain_eq h (by decide), lane_zero h.pos]
  have hchain {i : ℕ} (hi : i < s.currentHeight_) : chain H s i = some (lane i es) :=
    chain_eq h (hi.trans_le h.current_le)
  constructor
  case chains =>
    exact fun i hi => ⟨lane i es, hchain hi, fun p => mem_chain h ht, chain_ascending h i⟩
  case sublist =>
    intro i hi l l' hl hl'
    rw [hchain (Nat.lt_of_succ_lt hi), Option.some.injEq] at hl
    rw [hchain hi, Option.some.injEq] at hl'
    exact hl ▸ hl' ▸ lane_succ_sublist i es
  case inverse => exact links_inverse h ht
  case headPrev => exact fun i hi => ⟨_, level_eq (h.hasLevel_head hi), h.headPrev i⟩
  case unused =>
    intro i hc hi
    rw [chain_eq h hi, level_nil h.loose hc]
  case current => exact current_greatest h ht
  case num =>
    intro l hl
    rw [hzero, Option.some.injEq] at hl
    rw [← hl, List.length_map, h.num]
  case tail =>
    intro l hl
    rw [hzero, Option.some.injEq] at hl
    rw [← hl, List.getLast?_map, h.tail]
  case cache => exact find_fills C h

end Invariant

/-- **The invariant holds after every run** of the operations on a new skip list, whatever
its random generator gives. -/
theorem run_invariant [LinearOrder K] (C : KeyCompare K) [Inhabited K] [Inhabited V]
    (ops : List (Op K V × (ℕ → ℕ))) (hv : ValidFrom .empty (ops.map Prod.fst)) :
    ∃ H s, run C ops = some (H, s) ∧ Invariant C H s := by
  obtain ⟨⟨H, s⟩, e, es, h, -⟩ := foldlM_refines C ops make_refines hv
  exact ⟨H, s, e, invariant_of_rep C h (foldlM_tight C make_tight e)⟩

/-- The tallest node goes first, then one through an iterator and one by a range. -/
theorem run_invariant_erases :
    ValidFrom (K := ℕ) (V := ℕ) .empty
        [.insert (2, 20), .index 1, .insert (3, 30), .eraseKey 2, .eraseAt 1, .eraseRange 0 1] ∧
      ∃ H s, run (defaultComparator ℕ) [(.insert (2, 20), fun _ => 0), (.index 1, fun _ => 1),
          (.insert (3, 30), fun i => i), (.eraseKey 2, fun _ => 1), (.eraseAt 1, fun _ => 1),
          (.eraseRange 0 1, fun _ => 1)] = some (H, s) ∧
        Invariant (defaultComparator ℕ) H s := by
  have hv : ValidFrom (K := ℕ) (V := ℕ) .empty
      [.insert (2, 20), .index 1, .insert (3, 30), .eraseKey 2, .eraseAt 1, .eraseRange 0 1] := by
    simp [ValidFrom, Valid, refStep, OrderedMap.insertNew, OrderedMap.alter, OrderedMap.empty,
      OrderedMap.size, OrderedMap.erase, OrderedMap.filter, OrderedMap.eraseRange, upsert]
  exact ⟨hv, run_invariant _ _ hv⟩

end Libchef.SkipInvariant
