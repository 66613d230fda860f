import Libchef.SkipQuery

/-!
The hinted insert.

`insert(position, value)` searches twice, first after the hint and then before it, with one
cache for both. The second search stops at the hint on every level the hint is on, also when
the key lies behind it; unless a taller node has carried the search past the hint by then,
the cache is left pointing before the hint, and that is where the new node goes.
-/

namespace Libchef.SkipHint

open Libchef.SkipModel Libchef.SkipRep Libchef.SkipFind Libchef.SkipInsert Libchef.SkipRefine
open Libchef.SkipQuery Libchef.Chain Libchef.Ordered

variable {K V : Type} [LinearOrder K] (C : KeyCompare K)

/-- `q` is a node of the list, with this key and this height. -/
def IsNode (H : Heap K V) (s : Skiplist) (q : Ptr) (k : K) (h : ℕ) : Prop :=
  (∃ n, iterAt H s n = some (some q)) ∧ (∃ v, H.kv q = some (k, v)) ∧ H.height q = some h

/-- When the hint does no harm: it is the end, or the key is there, or the key lies before
the hint, or a node strictly between the hint and the key is taller than the hint. -/
def HintFits (H : Heap K V) (s : Skiplist) (position : Option Ptr) (k : K) : Prop :=
  position = none ∨ (∃ q h, IsNode H s q k h) ∨
    ∃ p x h, position = some p ∧ IsNode H s p x h ∧
      (k < x ∨ ∃ q y h', IsNode H s q y h' ∧ x < y ∧ y < k ∧ h < h')

/-- The hinted and the plain insert give the same ascending iteration and the same size, and
the hinted one returns the element with the key. -/
def HintAgrees (H : Heap K V) (s : Skiplist) (gen gen' : ℕ → ℕ) (position : Option Ptr)
    (val : K × V) : Prop :=
  ∃ H₁ s₁ p H₂ s₂ q b l, insertHint C H s gen position val = some (H₁, s₁, some p) ∧
    insert C H s gen' val = some (H₂, s₂, q, b) ∧
    contents H₁ s₁ = some l ∧ contents H₂ s₂ = some l ∧ Asc Prod.fst l ∧
    size s₁ = size s₂ ∧ (∃ n, iterAt H₁ s₁ n = some (some p)) ∧ ∃ v, H₁.kv p = some (val.1, v)

section Hint

variable {H : Heap K V} {s : Skiplist} {es : List (Entry K V)} {k : K}

lemma isNode_iff (h : Rep H s es) {q : Ptr} {x : K} {n : ℕ} :
    IsNode H s q x n ↔ ∃ e ∈ es, e.ptr = q ∧ e.key = x ∧ e.ht = n := by
  constructor
  · rintro ⟨⟨i, hi⟩, ⟨v, hv⟩, hh⟩
    obtain ⟨e, he, rfl⟩ := h.loose.iterAt_some hi
    rw [kv_of_hdr (h.node e he), Option.some.injEq] at hv
    rw [height_of_hdr (h.node e he), Option.some.injEq] at hh
    exact ⟨e, he, rfl, congrArg Prod.fst hv, hh⟩
  · rintro ⟨e, he, rfl, rfl, rfl⟩
    exact ⟨h.loose.iterAt_mem he, ⟨_, kv_of_hdr (h.node _ he)⟩, height_of_hdr (h.node _ he)⟩

/-! ### The first search -/

/-- A place a search may stand on level `i`: the head or any node there. -/
def OnLevel (s : Skiplist) (es : List (Entry K V)) (i : ℕ) (d : Ptr) : Prop :=
  d = s.head_ ∨ ∃ e ∈ es, e.ptr = d ∧ i < e.ht

omit [LinearOrder K] in
lemma OnLevel.mono {i j : ℕ} {d : Ptr} (h : OnLevel s es i d) (hj : j ≤ i) :
    OnLevel s es j d := by
  rcases h with rfl | ⟨e, he, hp, hi⟩
  · exact Or.inl rfl
  · exact Or.inr ⟨e, he, hp, hj.trans_lt hi⟩

lemma OnLevel.rest (h : Rep H s es) {i : ℕ} (hi : i < maxHeight_) {d : Ptr}
    (hd : OnLevel s es i d) :
    ∃ l₁ l₂, level i es = l₁ ++ l₂ ∧ Linked (next H i) (prev H i) d (l₂.map Entry.ptr) none := by
  have hlink := h.linked i hi
  rcases hd with rfl | ⟨e, he, rfl, hei⟩
  · exact ⟨[], level i es, rfl, hlink⟩
  · have hm : e ∈ level i es := by simp [he, hei]
    obtain ⟨l₁, l₂, hs⟩ := List.append_of_mem hm
    have hl : lane i es = l₁.map Entry.ptr ++ e.ptr :: l₂.map Entry.ptr := by
      simp [lane, hs]
    rw [hl] at hlink
    exact ⟨l₁ ++ [e], l₂, by simp [hs], (linked_append.mp hlink).2.2⟩

lemma OnLevel.hasLevel (h : Rep H s es) {i : ℕ} (hi : i < maxHeight_) {d : Ptr}
    (hd : OnLevel s es i d) : HasLevel H d i := by
  rcases hd with rfl | ⟨e, he, rfl, hei⟩
  · exact h.hasLevel_head hi
  · exact h.hasLevel he hei

lemma walk_cases (h : Rep H s es) (k : K) (epos : Option Ptr) {i : ℕ} (hi : i < maxHeight_)
    {d : Ptr} (hd : OnLevel s es i d) :
    (∃ e ∈ es, e.key = k ∧ walk C H k epos i s.fuel d = some (.found e.ptr)) ∨
      ∃ d', walk C H k epos i s.fuel d = some (.stop d') ∧ OnLevel s es i d' := by
  obtain ⟨l₁, l₂, hs, hlink⟩ := hd.rest h hi
  have hmem : ∀ e ∈ l₂, e ∈ level i es := fun e he => hs ▸ List.mem_append_right _ he
  rw [walk_eq_scan C hlink (hd.hasLevel h hi)
    (fun e he => level_node h (hmem e he)) (length_level_lt h hs)]
  rcases scan_cases k epos d l₂ with ⟨e, he, hk, hsc⟩ | ⟨d', hsc, hd'⟩
  · exact Or.inl ⟨e, List.mem_of_mem_filter (hmem e he), hk, by rw [hsc]⟩
  · refine Or.inr ⟨d', by rw [hsc], ?_⟩
    rcases hd' with rfl | ⟨e, he, rfl⟩
    · exact hd
    · exact Or.inr ⟨e, List.mem_of_mem_filter (hmem e he), rfl, (level_node h (hmem e he)).2⟩

lemma descend_cases (h : Rep H s es) (k : K) (epos : Option Ptr) {i : ℕ} (hi : i ≤ maxHeight_)
    {d : Ptr} (hd : i ≠ 0 → OnLevel s es (i - 1) d) (c : Cache) :
    (∃ e ∈ es, e.key = k ∧
      ∃ c', descend C H k epos s.fuel i d (some c) = some (some e.ptr, some c')) ∨
    ∃ c', descend C H k epos s.fuel i d (some c) = some (none, some c') := by
  induction i generalizing d c with
  | zero => exact Or.inr ⟨c, rfl⟩
  | succ i ih =>
    rcases walk_cases C h k epos (show i < maxHeight_ by omega) (hd (by omega)) with
      ⟨e, he, hk, hw⟩ | ⟨d', hw, hon⟩
    · exact Or.inl ⟨e, he, hk, c, by simp [descend, hw]⟩
    · have hrec := ih (by omega) (fun _ => hon.mono (by omega)) (Function.update c i (some d'))
      simpa [descend, hw, Cache.put, show i < maxHeight_ by omega] using hrec

variable {A B : List (Entry K V)} {e : Entry K V}

lemma hint_start (h : Rep H s (A ++ e :: B)) :
    ∃ d n, prev H 0 e.ptr = some d ∧ H.height d = some n ∧ n ≤ maxHeight_ ∧ n ≠ 0 ∧
      OnLevel s (A ++ e :: B) (n - 1) d ∧
      ∀ k, e.key ≤ k → Start s (A ++ e :: B) k (n - 1) d := by
  have hl := h.linked_zero
  rw [List.map_append, List.map_cons] at hl
  have hp := hl.prev_mem
  rcases List.eq_nil_or_concat A with rfl | ⟨A', a, rfl⟩
  · obtain ⟨kv, hk⟩ := h.head
    exact ⟨s.head_, maxHeight_, by simpa using hp, height_of_hdr hk, le_rfl, by decide,
      Or.inl rfl, fun k _ => start_head _⟩
  · have ha : a ∈ A'.concat a ++ e :: B := by simp
    have hpos := h.pos a ha
    have hlt : a.key < e.key := (asc_append.mp h.asc).2.2 a (by simp) e (by simp)
    refine ⟨a.ptr, a.ht, by simpa using hp, height_of_hdr (h.node a ha), h.ht_le ha, by omega,
      Or.inr ⟨a, ha, rfl, by omega⟩, fun k hk => Or.inr ⟨a, ha, rfl, by omega, hlt.trans_le hk⟩⟩

lemma find_hint (h : Rep H s (A ++ e :: B)) {d : Ptr} {n : ℕ} (hp : prev H 0 e.ptr = some d)
    (hn : H.height d = some n) (k : K) (c : Option Cache) :
    find_ C H s s.fuel k (some e.ptr) none c = descend C H k none s.fuel n d c := by
  have hl : HasLevel H e.ptr 0 := h.hasLevel (by simp) (h.pos e (by simp))
  simp [find_, level_eq hl, hp, hn]

lemma first_cases (h : Rep H s (A ++ e :: B)) (k : K) :
    (∃ x ∈ A ++ e :: B, x.key = k ∧ ∃ c,
      find_ C H s s.fuel k (some e.ptr) none (some Cache.fresh) = some (some x.ptr, some c)) ∨
    ∃ c, find_ C H s s.fuel k (some e.ptr) none (some Cache.fresh) = some (none, some c) := by
  obtain ⟨d, n, hp, hn, hle, -, hon, -⟩ := hint_start h
  rw [find_hint C h hp hn]
  exact descend_cases C h k none hle (fun _ => hon) _

lemma first_found (h : Rep H s (A ++ e :: B)) {x : Entry K V} (hx : x ∈ A ++ e :: B)
    (hk : e.key ≤ x.key) :
    ∃ c, find_ C H s s.fuel x.key (some e.ptr) none (some Cache.fresh) =
      some (some x.ptr, some c) := by
  obtain ⟨d, n, hp, hn, hle, h0, -, hst⟩ := hint_start h
  obtain ⟨c, hc, hs⟩ := descend_present C h hle (hst _ hk) h0 hx rfl (some Cache.fresh)
  obtain ⟨c, rfl⟩ := Option.isSome_iff_exists.mp hs
  exact ⟨c, by rw [find_hint C h hp hn, hc]⟩

/-! ### The second search -/

/-- A search that never meets the end position before it would stop goes as if there were
none. `R i d` says that the search may stand at `d` on level `i`. -/
lemma descend_epos (h : Rep H s es) {p : Ptr} {k : K} {R : ℕ → Ptr → Prop} {i : ℕ}
    (hi : i ≤ maxHeight_) {d : Ptr} (hd : i ≠ 0 → R (i - 1) d)
    (hR : ∀ i d, R i d → i < maxHeight_ → ∃ l₁ l₂, level i es = l₁ ++ l₂ ∧
      Linked (next H i) (prev H i) d (l₂.map Entry.ptr) none ∧ HasLevel H d i ∧
      ∀ e ∈ l₂, e.ptr = p → k < e.key)
    (hstep : ∀ i d d', R i d → i < maxHeight_ →
      walk C H k none i s.fuel d = some (.stop d') → i ≠ 0 → R (i - 1) d')
    (c : Option Cache) :
    descend C H k (some p) s.fuel i d c = descend C H k none s.fuel i d c := by
  induction i generalizing d c with
  | zero => rfl
  | succ i ih =>
    have hdi : R i d := hd (by omega)
    obtain ⟨l₁, l₂, hs, hlink, hlev, hp⟩ := hR i d hdi (by omega)
    have hmem : ∀ e ∈ l₂, hdr H e.ptr = some (e.kv, e.ht, e.ht) ∧ i < e.ht :=
      fun e he => level_node h (hs ▸ List.mem_append_right _ he)
    have hw : walk C H k (some p) i s.fuel d = walk C H k none i s.fuel d := by
      rw [walk_eq_scan C hlink hlev hmem (length_level_lt h hs),
        walk_eq_scan C hlink hlev hmem (length_level_lt h hs), scan_epos d hp]
    simp only [descend, hw]
    cases hres : walk C H k none i s.fuel d with
    | none => rfl
    | some w =>
      cases w with
      | found q => rfl
      | stop d' =>
        have hnext := fun h0 => hstep i d d' hdi (by omega) hres h0
        cases c with
        | none => simp [ih (by omega) hnext]
        | some c => simp [Cache.put, show i < maxHeight_ by omega, ih (by omega) hnext]

/-- A key before the hint: the hint stops no walk that the key would not stop. -/
lemma second_before (h : Rep H s (A ++ e :: B)) (hk : k < e.key) (c : Option Cache) :
    find_ C H s s.fuel k none (some e.ptr) c = find_ C H s s.fuel k none none c := by
  refine descend_epos C h (R := OnLevel s (A ++ e :: B)) h.current_le (fun _ => Or.inl rfl)
    (fun i d hd hi => ?_) (fun i d d' hd hi hw _ => ?_) c
  · obtain ⟨l₁, l₂, hs, hlink⟩ := hd.rest h hi
    refine ⟨l₁, l₂, hs, hlink, hd.hasLevel h hi, fun x hx hp => ?_⟩
    have hm := List.mem_of_mem_filter (hs ▸ List.mem_append_right l₁ hx)
    rw [h.eq_of_ptr hm (by simp) hp]
    exact hk
  · rcases walk_cases C h k none hi hd with ⟨x, -, -, hx⟩ | ⟨d'', hx, hon⟩
    · rw [hx] at hw; cases hw
    · rw [hx] at hw; cases hw
      exact hon.mono (by omega)

/-- The last node of a level below the key does not lie before another one below the key. -/
lemma le_pred (h : Rep H s es) {i : ℕ} {y : Entry K V} (hy : y ∈ es) (hi : i < y.ht)
    (hk : y.key < k) : ∃ x ∈ es, x.ptr = pred s es k i ∧ y.key ≤ x.key := by
  have hm : y ∈ level i (below Entry.key k es) := by simp [hy, hi, hk]
  obtain ⟨l, x, hl⟩ : ∃ l x, level i (below Entry.key k es) = l ++ [x] := by
    rcases List.eq_nil_or_concat (level i (below Entry.key k es)) with h0 | ⟨l, x, hl⟩
    · rw [h0] at hm; simp at hm
    · exact ⟨l, x, by rw [hl, List.concat_eq_append]⟩
  have hx : x ∈ level i (below Entry.key k es) := by rw [hl]; simp
  refine ⟨x, (mem_below.mp (List.mem_of_mem_filter hx)).1, ?_, ?_⟩
  · show x.ptr = last s.head_ ((level i (below Entry.key k es)).map Entry.ptr)
    rw [hl]; simp
  · have hasc : Asc Entry.key (l ++ [x]) := hl ▸ (h.asc.filter _).filter _
    rw [hl] at hm
    rcases List.mem_append.mp hm with hm | hm
    · exact ((asc_append.mp hasc).2.2 y hm x (by simp)).le
    · rw [List.mem_singleton.mp hm]

/-- A taller node between the hint and the key: the search is past the hint before it comes
to the levels the hint is on. -/
lemma second_past (h : Rep H s (A ++ e :: B)) (hk : ∀ x ∈ A ++ e :: B, x.key ≠ k)
    {y : Entry K V} (hy : y ∈ A ++ e :: B) (hey : e.key < y.key) (hyk : y.key < k)
    (ht : e.ht < y.ht) (c : Option Cache) :
    find_ C H s s.fuel k none (some e.ptr) c = find_ C H s s.fuel k none none c := by
  have hcur := h.le_current y hy
  refine descend_epos C h h.current_le
    (R := fun i d => Start s (A ++ e :: B) k i d ∧
      (i < e.ht → ∃ x ∈ A ++ e :: B, x.ptr = d ∧ e.key < x.key))
    (fun _ => ⟨start_head _, fun hlt => by omega⟩) (fun i d hd hi => ?_)
    (fun i d d' hd hi hw h0 => ?_) c
  · obtain ⟨l₁, l₂, hs, hlast, hlow, hlink⟩ := hd.1.rest h hi
    refine ⟨l₁, l₂, hs, hlink, hd.1.hasLevel h.loose hi, fun z hz hp => ?_⟩
    have hzl : z ∈ level i (A ++ e :: B) := hs ▸ List.mem_append_right l₁ hz
    have hze := h.eq_of_ptr (List.mem_of_mem_filter hzl) (by simp : e ∈ A ++ e :: B) hp
    subst hze
    -- the hint would be on this level, after a node that lies behind it
    obtain ⟨x, hx, hxd, hzx⟩ := hd.2 (level_node h hzl).2
    have hxm : x ∈ l₁ := by
      rw [← hlast] at hxd
      have hm := last_mem s.head_ (l₁.map Entry.ptr)
      rw [← hxd] at hm
      rcases List.mem_cons.mp hm with hm | hm
      · exact absurd hm (h.ne_head hx)
      · obtain ⟨x', hx', hp'⟩ := List.mem_map.mp hm
        have hxs := List.mem_of_mem_filter (hs ▸ List.mem_append_left l₂ hx')
        rwa [h.eq_of_ptr hx hxs hp'.symm]
    have hasc : Asc Entry.key (l₁ ++ l₂) := hs ▸ h.asc.filter _
    exact absurd ((asc_append.mp hasc).2.2 x hxm z hz) hzx.not_gt
  · rw [walk_stop C h hi hd.1 fun x hx => hk x (List.mem_of_mem_filter hx)] at hw
    cases hw
    refine ⟨(start_pred i).mono (by omega), fun hlt => ?_⟩
    obtain ⟨x, hx, hp, hle⟩ := le_pred h hy (i := i) (by omega) hyk
    exact ⟨x, hx, hp, hey.trans_le hle⟩

/-- **No taller node in between**: the search stops before the hint on every level. -/
lemma descend_stuck (h : Rep H s (A ++ e :: B)) (hk : ∀ x ∈ A ++ e :: B, x.key ≠ k)
    (hek : e.key < k)
    (hshort : ∀ x ∈ A ++ e :: B, e.key < x.key → x.key < k → x.ht ≤ e.ht) {i : ℕ}
    (hi : i ≤ maxHeight_) {d : Ptr} (hd : i ≠ 0 → Start s (A ++ e :: B) e.key (i - 1) d)
    (c : Cache) :
    descend C H k (some e.ptr) s.fuel i d (some c) =
      some (none, some (fill (pred s (A ++ e :: B) e.key) i c)) := by
  induction i generalizing d c with
  | zero =>
    have hid : fill (pred s (A ++ e :: B) e.key) 0 c = c := by funext j; simp [fill]
    simp [descend, hid]
  | succ i ih =>
    have hdi : Start s (A ++ e :: B) e.key i d := hd (by omega)
    obtain ⟨l₁, l₂, hs, hlast, hlow, hlink⟩ := hdi.rest h (by omega)
    have hmem : ∀ x ∈ l₂, x ∈ level i (A ++ e :: B) := fun x hx => hs ▸ List.mem_append_right _ hx
    have hlev : Asc Entry.key (level i (A ++ e :: B)) := h.asc.filter _
    rw [hs] at hlev
    have hasc : Asc Entry.key l₂ := (asc_append.mp hlev).2.1
    have hw : walk C H k (some e.ptr) i s.fuel d =
        some (.stop (pred s (A ++ e :: B) e.key i)) := by
      rw [walk_eq_scan C hlink (hdi.hasLevel h.loose (by omega))
        (fun x hx => level_node h (hmem x hx)) (length_level_lt h hs), pred_eq hs hlast hlow]
      conv_lhs => rw [← hasc.split e.key]
      rw [scan_break d (fun x hx => ?_) fun x hx => ?_]
      · have hlt := (mem_below.mp hx).2
        refine ⟨hlt.trans hek, fun hp => ?_⟩
        have := h.eq_of_ptr (List.mem_of_mem_filter (hmem x (mem_below.mp hx).1))
          (by simp : e ∈ A ++ e :: B) (Option.some.inj hp).symm
        exact absurd (this ▸ hlt) (lt_irrefl _)
      · obtain ⟨hx2, hle⟩ := mem_atLeast.mp (List.mem_of_mem_head? hx)
        have hxs := List.mem_of_mem_filter (hmem x hx2)
        by_cases hxe : x = e
        · exact Or.inl (by rw [hxe])
        · have hex : e.key < x.key := lt_of_le_of_ne hle fun heq =>
            hxe (h.asc.eq_of_key hxs (by simp) heq.symm)
          refine Or.inr (lt_of_not_ge fun hxk => ?_)
          have hxlt : x.key < k := lt_of_le_of_ne hxk (hk x hxs)
          -- then the hint is on this level too, and comes first
          have hei : i < e.ht := (level_node h (hmem x hx2)).2.trans_le (hshort x hxs hex hxlt)
          have hel : e ∈ atLeast Entry.key e.key l₂ := by
            have : e ∈ l₁ ++ l₂ := by rw [← hs]; simp [hei]
            rcases List.mem_append.mp this with hm | hm
            · exact absurd (hlow e hm) (lt_irrefl _)
            · exact mem_atLeast.mpr ⟨hm, le_rfl⟩
          obtain ⟨r, hr⟩ := List.head?_eq_some_iff.mp hx
          rw [hr] at hel
          rcases List.mem_cons.mp hel with hm | hm
          · exact hxe hm.symm
          · exact absurd ((asc_cons.mp (hr ▸ hasc.filter _ : Asc Entry.key (x :: r))).1 e hm)
              hex.not_gt
    simp [descend, hw, Cache.put, show i < maxHeight_ by omega,
      ih (by omega) (fun _ => (start_pred i).mono (by omega)), fill_put]

/-! ### The hinted insert -/

lemma agrees_of_refines (h : Rep H s es) {m : OrderedMap K V} (hm : es.map Entry.kv = m.entries)
    {gen gen' : ℕ → ℕ} {position : Option Ptr} {val : K × V} {H₁ : Heap K V} {s₁ : Skiplist}
    {p : Ptr} (he : insertHint C H s gen position val = some (H₁, s₁, some p))
    (hr : Refines (H₁, s₁) (m.insertNew val.1 val.2)) (hp : ∃ n, iterAt H₁ s₁ n = some (some p))
    (hv : ∃ v, H₁.kv p = some (val.1, v)) :
    HintAgrees C H s gen gen' position val := by
  obtain ⟨H₂, s₂, q, b, he₂, hr₂⟩ := insert_step C h hm gen' val
  have a₁ := answers_of_refines C hr
  have a₂ := answers_of_refines C hr₂
  exact ⟨H₁, s₁, p, H₂, s₂, q, b, _, he, he₂, a₁.contents, a₂.contents,
    (m.insertNew val.1 val.2).asc, a₁.size.trans a₂.size.symm, hp, hv⟩

lemma insertHint_present (h : Rep H s (A ++ e :: B)) (gen : ℕ → ℕ) {val : K × V}
    {x : Entry K V} (hx : x ∈ A ++ e :: B) (hk : x.key = val.1) :
    insertHint C H s gen (some e.ptr) val = some (H, s, some x.ptr) := by
  rcases first_cases C h val.1 with ⟨z, hz, hzk, c, hc⟩ | ⟨c, hc⟩
  · rw [h.asc.eq_of_key hx hz (hk.trans hzk.symm)]
    simp [insertHint, hc]
  · have hlt : val.1 < e.key := by
      by_contra hle
      obtain ⟨c', hc'⟩ := first_found C h hx (hk ▸ not_lt.mp hle)
      rw [← hk, hc'] at hc
      cases hc
    obtain ⟨c', hc', -⟩ := descend_present C h h.current_le (start_head _)
      (Nat.pos_iff_ne_zero.mp h.current_pos) hx hk (some c)
    have hsecond : find_ C H s s.fuel val.1 none (some e.ptr) (some c) = some (some x.ptr, c') := by
      rw [second_before C h hlt, find_, hc']
    simp [insertHint, hc, hsecond]

/-- The key is not there: the node goes in where the second search points the cache. -/
lemma insertHint_absent (h : Rep H s (A ++ e :: B)) (gen : ℕ → ℕ) {val : K × V}
    (hk : ∀ x ∈ A ++ e :: B, x.key ≠ val.1) {f : ℕ → Ptr}
    (hsecond : ∀ c, find_ C H s s.fuel val.1 none (some e.ptr) (some c) =
      some (none, some (fill f s.currentHeight_ c))) :
    ∃ c, insertHint C H s gen (some e.ptr) val =
      (insert_ H s gen val (fill f s.currentHeight_ c)).map fun r => (r.1, r.2.1, some r.2.2) := by
  rcases first_cases C h val.1 with ⟨z, hz, hzk, -⟩ | ⟨c, hc⟩
  · exact absurd hzk (hk z hz)
  · refine ⟨c, ?_⟩
    simp only [insertHint, hc, hsecond, Option.bind_eq_bind, Option.bind_some, ne_eq,
      not_true_eq_false, if_false]
    cases insert_ H s gen val (fill f s.currentHeight_ c) <;> rfl

/-- A hint that fits does no harm. -/
lemma agrees_of_fits (h : Rep H s es) {n : ℕ} {position : Option Ptr}
    (hpos : iterAt H s n = some position) (gen gen' : ℕ → ℕ) (val : K × V)
    (hf : HintFits H s position val.1) : HintAgrees C H s gen gen' position val := by
  set m : OrderedMap K V := ⟨es.map Entry.kv, List.pairwise_map.mpr h.asc⟩ with hmdef
  have hm : es.map Entry.kv = m.entries := rfl
  cases position with
  | none =>
    by_cases hk : ∃ e ∈ es, e.key = val.1
    · obtain ⟨e, he, hek⟩ := hk
      obtain ⟨c, hc, -⟩ := descend_present C h h.current_le (start_head _)
        (Nat.pos_iff_ne_zero.mp h.current_pos) he hek (some Cache.fresh)
      have hi : insertHint C H s gen none val = some (H, s, some e.ptr) := by
        simp [insertHint, find_, hc]
      refine agrees_of_refines C h hm hi ⟨es, h, ?_⟩ (h.loose.iterAt_mem he) ⟨e.kv.2, ?_⟩
      · rw [← hek]; exact insertNew_present h.asc he val.2 hm
      · rw [kv_of_hdr (h.node e he), ← hek]; rfl
    · simp only [not_exists, not_and] at hk
      have hd := descend_absent C h h.current_le (fun _ => start_head _) hk
      obtain ⟨H₁, s₁, p, e₁, hr, hp, hv⟩ := insert_absent h gen val hk
        (fill_slot (fill (pred s es val.1) s.currentHeight_ Cache.fresh)) hm
      exact agrees_of_refines C h hm (by simp [insertHint, find_, hd, e₁]) hr hp ⟨val.2, hv⟩
  | some p =>
    obtain ⟨e, he, rfl⟩ := h.loose.iterAt_some hpos
    obtain ⟨A, B, rfl⟩ := List.append_of_mem he
    by_cases hk : ∃ x ∈ A ++ e :: B, x.key = val.1
    · obtain ⟨x, hx, hxk⟩ := hk
      refine agrees_of_refines C h hm (insertHint_present C h gen hx hxk) ⟨_, h, ?_⟩
        (h.loose.iterAt_mem hx) ⟨x.kv.2, ?_⟩
      · rw [← hxk]; exact insertNew_present h.asc hx val.2 hm
      · rw [kv_of_hdr (h.node x hx), ← hxk]; rfl
    · simp only [not_exists, not_and] at hk
      have hsecond : ∀ c, find_ C H s s.fuel val.1 none (some e.ptr) (some c) =
          some (none, some (fill (pred s (A ++ e :: B) val.1) s.currentHeight_ c)) := by
        intro c
        have hplain : find_ C H s s.fuel val.1 none none (some c) =
            some (none, some (fill (pred s (A ++ e :: B) val.1) s.currentHeight_ c)) := by
          simp [find_, descend_absent C h h.current_le (fun _ => start_head _) hk]
        rcases hf with h0 | ⟨q, n', hq⟩ | ⟨p, x, t, hp, hpn, hcase⟩
        · cases h0
        · obtain ⟨x, hx, -, hxk, -⟩ := (isNode_iff h).mp hq
          exact absurd hxk (hk x hx)
        · obtain ⟨e', he', hpe, rfl, rfl⟩ := (isNode_iff h).mp hpn
          have := h.eq_of_ptr he' he (hpe.trans (Option.some.inj hp).symm)
          subst this
          rcases hcase with hlt | ⟨q, y, t', hq, hey, hyk, ht⟩
          · rw [second_before C h hlt, hplain]
          · obtain ⟨z, hz, -, rfl, rfl⟩ := (isNode_iff h).mp hq
            rw [second_past C h hk hz hey hyk ht, hplain]
      obtain ⟨c, hc⟩ := insertHint_absent C h gen hk hsecond
      obtain ⟨H₁, s₁, p, e₁, hr, hp, hv⟩ := insert_absent h gen val hk (fill_slot c) hm
      exact agrees_of_refines C h hm (by rw [hc, e₁]; rfl) hr hp ⟨val.2, hv⟩

/-- A new node put before the first of some entries, whatever its key, is passed there by the
iteration. -/
lemma insert_before (h : Rep H s (A ++ e :: B)) (gen : ℕ → ℕ) (val : K × V) {cache : Cache}
    (hc : ∀ j < s.currentHeight_, cache j = some (last s.head_ (lane j A))) :
    ∃ H₁ s₁, insert_ H s gen val cache = some (H₁, s₁, H.brk) ∧
      contents H₁ s₁ = some ((A ++ ⟨H.brk, randomHeight_ gen, val⟩ :: e :: B).map Entry.kv) := by
  obtain ⟨H₁, e₁, hhdr, -, -, hin, -⟩ :=
    insert_links h.loose gen val (fun j => lane_append j A _) fun j hj _ => hc j hj
  have hpos := randomHeight_pos gen
  have hl : Linked (next H₁ 0) (prev H₁ 0) s.head_
      ((A ++ ⟨H.brk, randomHeight_ gen, val⟩ :: e :: B).map Entry.ptr) none := by
    have h0 := (hin 0 hpos).2
    rw [lane_zero fun x hx => h.pos x (by simp [hx]),
      lane_zero fun x hx => h.pos x (List.mem_append_right A hx)] at h0
    simpa using h0
  have hnode : ∀ x ∈ A ++ ⟨H.brk, randomHeight_ gen, val⟩ :: e :: B,
      ∃ t n, hdr H₁ x.ptr = some (x.kv, t, n) ∧ 0 < n := by
    intro x hx
    have hmem : x = ⟨H.brk, randomHeight_ gen, val⟩ ∨ x ∈ A ++ e :: B := by
      simp only [List.mem_append, List.mem_cons] at hx ⊢
      tauto
    rcases hmem with rfl | hx
    · exact ⟨_, _, by rw [hhdr, Function.update_self], hpos⟩
    · have hne : x.ptr ≠ H.brk := (h.lt_brk (by simp [h.node x hx])).ne
      exact ⟨_, _, by rw [hhdr, Function.update_of_ne hne, h.node x hx], h.pos x hx⟩
  have hhead : HasLevel H₁ s.head_ 0 := by
    obtain ⟨kv, hkv⟩ := h.head
    have hne : s.head_ ≠ H.brk := (h.lt_brk (by simp [hkv])).ne
    exact ⟨_, _, _, by rw [hhdr, Function.update_of_ne hne, hkv], by decide⟩
  have hlen : (A ++ ⟨H.brk, randomHeight_ gen, val⟩ :: e :: B).length < s.elementNum_ + 1 + 1 := by
    simp [h.num]
    omega
  have hnext := hl.next (l := [])
  refine ⟨H₁, _, e₁, ?_⟩
  simp only [contents, begin_, level_eq hhead, Option.bind_eq_bind, Option.bind_some,
    Skiplist.fuel]
  rw [show next H₁ 0 s.head_ = _ from hnext, ← iterate_linked hl hnode hlen, List.head?_map]

/-- A hint that does not fit puts the node before the hint, where it does not belong. -/
lemma fits_of_agrees (h : Rep H s es) {n : ℕ} {position : Option Ptr}
    (hpos : iterAt H s n = some position) {gen gen' : ℕ → ℕ} {val : K × V}
    (ha : HintAgrees C H s gen gen' position val) : HintFits H s position val.1 := by
  cases position with
  | none => exact Or.inl rfl
  | some p =>
    obtain ⟨e, he, rfl⟩ := h.loose.iterAt_some hpos
    by_contra hf
    simp only [HintFits, reduceCtorEq, false_or, not_or, not_exists, not_and, Option.some.injEq]
      at hf
    obtain ⟨hf1, hf2⟩ := hf
    have hk : ∀ x ∈ es, x.key ≠ val.1 := fun x hx hxk =>
      hf1 x.ptr x.ht ((isNode_iff h).mpr ⟨x, hx, rfl, hxk, rfl⟩)
    obtain ⟨hle, hno⟩ := hf2 e.ptr e.key e.ht rfl ((isNode_iff h).mpr ⟨e, he, rfl, rfl, rfl⟩)
    have hek : e.key < val.1 := lt_of_le_of_ne (not_lt.mp hle) (hk e he)
    have hshort : ∀ x ∈ es, e.key < x.key → x.key < val.1 → x.ht ≤ e.ht := fun x hx h1 h2 =>
      not_lt.mp (hno x.ptr x.key x.ht ((isNode_iff h).mpr ⟨x, hx, rfl, rfl, rfl⟩) h1 h2)
    obtain ⟨A, B, rfl⟩ := List.append_of_mem he
    obtain ⟨c, hc⟩ := insertHint_absent C h gen hk fun c => by
      rw [find_, descend_stuck C h hk hek hshort h.current_le (fun _ => start_head _)]
    -- the node goes in just before the hint
    have hA : below Entry.key e.key (A ++ e :: B) = A := by
      obtain ⟨-, h2, h3⟩ := asc_append.mp h.asc
      refine below_eq_left (fun a ha => h3 a ha e (by simp)) fun b hb => ?_
      rcases List.mem_cons.mp hb with rfl | hb
      · exact le_rfl
      · exact ((asc_cons.mp h2).1 b hb).le
    have hfill : ∀ j < s.currentHeight_, fill (pred s (A ++ e :: B) e.key) s.currentHeight_ c j =
        some (last s.head_ (lane j A)) := fun j hj => by rw [fill_slot c j hj, pred, hA]
    obtain ⟨H₁, s₁, e₁, hcont⟩ := insert_before h gen val hfill
    obtain ⟨H₁', s₁', p, H₂, s₂, q, b, l, hi, -, hc₁, -, hasc, -⟩ := ha
    rw [hc, e₁] at hi
    cases hi
    rw [hcont, Option.some.injEq] at hc₁
    rw [← hc₁, List.map_append, List.map_cons, List.map_cons] at hasc
    -- but then the iteration is not ascending
    have hlt := (asc_cons.mp (asc_append.mp hasc).2.1).1 e.kv (by simp)
    exact absurd hlt hek.not_gt

end Hint

/-- **When a hint may be given.** In every skip list that operations reach, the hinted insert
does what the plain one does if and only if the hint fits. -/
theorem insertHint_agrees_iff [Inhabited K] [Inhabited V] {ops : List (Op K V × (ℕ → ℕ))}
    (hv : ValidFrom .empty (ops.map Prod.fst)) {H : Heap K V} {s : Skiplist}
    (hrun : run C ops = some (H, s)) {n : ℕ} {position : Option Ptr}
    (hpos : iterAt H s n = some position) (gen gen' : ℕ → ℕ) (val : K × V) :
    HintAgrees C H s gen gen' position val ↔ HintFits H s position val.1 := by
  obtain ⟨t, ht, es, h, -⟩ := foldlM_refines C ops make_refines hv
  rw [show ops.foldlM (exec C) (make Heap.empty) = _ from hrun] at ht
  cases ht
  exact ⟨fits_of_agrees C h hpos, agrees_of_fits C h hpos gen gen' val⟩

/-- A hint that fits: the key 2 before the element 3 of the list 1, 3. -/
theorem insertHint_agrees_iff_before :
    ∃ H s position, run (defaultComparator ℕ) [(.insert (1, 10), fun _ => 1),
        (.insert (3, 30), fun _ => 1)] = some (H, s) ∧ iterAt H s 1 = some position ∧
      (HintAgrees (defaultComparator ℕ) H s (fun _ => 1) (fun _ => 0) position (2, 20) ↔
        HintFits H s position 2) :=
  ⟨_, _, _, rfl, rfl, insertHint_agrees_iff (defaultComparator ℕ)
    (show ValidFrom .empty (List.map Prod.fst [(.insert (1, 10), fun _ => 1),
      (.insert (3, 30), fun _ => 1)]) by simp [ValidFrom, Valid]) rfl (n := 1) rfl _ _ _⟩

/-- A hint that does not: the key 5 with `begin()` of the list 1, 3 comes before both. -/
theorem insertHint_begin_unsorted :
    ∃ H s position H₁ s₁ p, run (defaultComparator ℕ) [(.insert (1, 10), fun _ => 1),
        (.insert (3, 30), fun _ => 1)] = some (H, s) ∧ begin_ H s = some position ∧
      insertHint (defaultComparator ℕ) H s (fun _ => 1) position (5, 50) = some (H₁, s₁, p) ∧
      contents H₁ s₁ = some [(5, 50), (1, 10), (3, 30)] ∧
      ¬ HintAgrees (defaultComparator ℕ) H s (fun _ => 1) (fun _ => 1) position (5, 50) := by
  refine ⟨_, _, _, _, _, _, rfl, rfl, rfl, rfl, ?_⟩
  rintro ⟨_, _, _, _, _, _, _, l, hi, -, hc, -, hasc, -⟩
  have he := hi.symm.trans (show _ = some (_, _, _) from rfl)
  cases he
  have hl : l = [(5, 50), (1, 10), (3, 30)] := Option.some.inj (hc.symm.trans rfl)
  subst hl
  simp [Asc] at hasc

end Libchef.SkipHint
