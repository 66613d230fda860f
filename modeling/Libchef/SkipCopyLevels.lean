import Libchef.SkipCopy

/-!
The order of the levels of a copy.

The search for the next element resumes from the node before the last one put in, on the
levels of that node. On those it goes past the last node, so they get the new node at their
end; the slots of the levels above are left over, and name the place the last node was put at.
If that node and the new one share such a level, the new one goes in before it there.
-/

namespace Libchef.SkipCopyLevels

open Libchef.SkipModel Libchef.SkipWholeModel Libchef.SkipRep Libchef.SkipFind Libchef.SkipInsert
open Libchef.SkipLoose Libchef.SkipResume Libchef.SkipAssign Libchef.SkipPlain Libchef.SkipCopy
open Libchef.Chain Libchef.Ordered Libchef.Runs Libchef.Slots

variable {K V : Type} [LinearOrder K]

/-! ### Levels in key order -/

/-- The keys of two nodes are in ascending order. -/
def Before (H : Heap K V) (p q : Ptr) : Prop := ∃ a b, H.kv p = some a ∧ H.kv q = some b ∧ a.1 < b.1

/-- Along the chain of the level the keys are strictly ascending. -/
def LevelAscending (H : Heap K V) (s : Skiplist) (i : ℕ) : Prop :=
  ∃ ps, Linked (next H i) (prev H i) s.head_ ps none ∧ ps.Pairwise (Before H)

/-- All levels in use are in key order. -/
def LevelsAscending (H : Heap K V) (s : Skiplist) : Prop :=
  ∀ i < s.currentHeight_, LevelAscending H s i

variable {H H' : Heap K V} {s s' x : Skiplist} {es : List (Entry K V)} {L : ℕ → List Ptr}
  {j : ℕ}

lemma levelAscending_of_rep (h : Rep H s es) {i : ℕ} (hi : i < maxHeight_) :
    LevelAscending H s i := by
  refine ⟨lane i es, h.linked i hi, List.pairwise_map.mpr ?_⟩
  refine List.Pairwise.imp_of_mem (fun {e e'} he he' hlt => ?_) (h.asc.filter _)
  have hkv := kv_of_hdr (h.node e (List.mem_of_mem_filter he))
  have hkv' := kv_of_hdr (h.node e' (List.mem_of_mem_filter he'))
  exact ⟨_, _, hkv, hkv', hlt⟩

lemma levelsAscending_of_rep (h : Rep H s es) : LevelsAscending H s := fun _ hi =>
  levelAscending_of_rep h (hi.trans_le h.current_le)

lemma not_levelAscending (h : Loose H s es L) {i : ℕ} (hi : i < maxHeight_) {e e' : Entry K V}
    (he : e ∈ es) (he' : e' ∈ es) (hsub : List.Sublist [e'.ptr, e.ptr] (L i))
    (hlt : e.key < e'.key) : ¬ LevelAscending H s i := by
  rintro ⟨ps, hps, hasc⟩
  rw [hps.unique (h.linked i hi)] at hasc
  obtain ⟨hbefore, -⟩ := List.pairwise_cons.mp (hasc.sublist hsub)
  obtain ⟨a, b, ha, hb, hab⟩ := hbefore e.ptr (by simp)
  rw [kv_of_hdr (h.node e' he')] at ha
  rw [kv_of_hdr (h.node e he)] at hb
  cases ha
  cases hb
  exact hab.not_gt hlt

/-! ### One round -/

/-- The part of level `j` that the slot is behind when the next element comes. -/
def passed (es : List (Entry K V)) (j : ℕ) : List Ptr :=
  if j < reach es.dropLast then lane j es else lane j es.dropLast

/-- The rest of the level: the last node, where the slot has not moved past it. -/
def missed (es : List (Entry K V)) (j : ℕ) : List Ptr :=
  if j < reach es.dropLast then [] else lane j es.getLast?.toList

omit [LinearOrder K] in
lemma passed_missed (es : List (Entry K V)) (j : ℕ) : lane j es = passed es j ++ missed es j := by
  have hes : es.dropLast ++ es.getLast?.toList = es := by
    rcases List.eq_nil_or_concat es with rfl | ⟨A, e, rfl⟩ <;> simp
  rw [passed, missed]
  split_ifs
  · rw [List.append_nil]
  · rw [← lane_append, hes]

omit [LinearOrder K] in
lemma missed_concat (A : List (Entry K V)) (e : Entry K V) (j : ℕ) :
    missed (A ++ [e]) j = if j < reach A ∨ e.ht ≤ j then [] else [e.ptr] := by
  rw [missed, List.dropLast_concat, List.getLast?_concat, Option.toList_some]
  by_cases h1 : j < reach A
  · rw [if_pos h1, if_pos (Or.inl h1)]
  by_cases h2 : e.ht ≤ j
  · rw [if_neg h1, if_pos (Or.inr h2), lane_cons_of_le [] h2]
    rfl
  · rw [if_neg h1, if_neg (not_or.mpr ⟨h1, h2⟩), lane_cons_of_lt [] (not_le.mp h2)]
    rfl

omit [LinearOrder K] in
lemma missed_ne_nil (h : missed es j ≠ []) : ∃ e ∈ es, j < e.ht ∧ missed es j = [e.ptr] := by
  rcases List.eq_nil_or_concat es with rfl | ⟨A, e, rfl⟩
  · simp [missed, lane] at h
  · rw [List.concat_eq_append, missed_concat] at h ⊢
    split_ifs at h ⊢ with hj
    · exact absurd rfl h
    · exact ⟨e, by simp, by omega, rfl⟩

/-- Behind the levels the search resumes on, the cache names the places the last node was put
at. -/
def Kept (s : Skiplist) (es : List (Entry K V)) (c : Cache) : Prop :=
  es ≠ [] → ∀ j < s.currentHeight_, reach es.dropLast ≤ j →
    c j = some (last s.head_ (lane j es.dropLast))

omit [LinearOrder K] in
lemma passed_of_le (h : ∀ e ∈ es.getLast?, e.ht ≤ j) : passed es j = lane j es := by
  rcases List.eq_nil_or_concat es with rfl | ⟨A, e, rfl⟩
  · simp [passed]
  · have he : e.ht ≤ j := h e (by simp)
    have hlane : lane j (A ++ [e]) = lane j A := by
      rw [lane_append, lane_cons_of_le [] he]
      simp [lane]
    simp [passed, hlane]

variable (C : KeyCompare K)

/-- What the search puts in the cache, and what it leaves in it. -/
lemma find_kept (h : Rep H s es) {k : K} (hk : ∀ e ∈ es, e.key < k) {c : Cache}
    (hc : Kept s es c) :
    ∃ c', find_ C H s s.fuel k ((es.getLast?).map Entry.ptr) none (some c) =
      some (none, some c') ∧
      ∀ j < s.currentHeight_, c' j = some (last s.head_ (passed es j)) := by
  obtain ⟨d, n, hn, h0, hst, hstart, hfind⟩ := last_start C ⟨⟨_, h.loose⟩, h.asc⟩ hk c
  have hd := descend_absent C h hn (fun _ => hst) (fun e he => (hk e he).ne) (some c)
  refine ⟨fill (pred s es k) n c, by rw [hfind, hd]; rfl, fun j hj => ?_⟩
  have hpred : pred s es k j = last s.head_ (lane j es) := by rw [pred, below_of_lt hk]
  by_cases hes : es = []
  · rw [if_pos hes] at hstart
    rw [fill_slot c j (hstart ▸ hj), hpred]
    simp [hes, passed, lane]
  · rw [if_neg hes] at hstart
    subst hstart
    rcases Nat.lt_or_ge j (reach es.dropLast) with hlt | hge
    · rw [fill_slot c j hlt, hpred, passed, if_pos hlt]
    · rw [passed, if_neg (Nat.not_lt.mpr hge), ← hc hes j hj hge]
      simp [fill, Nat.not_lt.mpr hge]

lemma slots_passed (h : Rep H s es) {k : K} (hk : ∀ e ∈ es, e.key < k) {c : Cache}
    (hc : ∀ j < s.currentHeight_, c j = some (last s.head_ (passed es j))) : Slots s es k c := by
  refine ⟨fun j hj => ⟨_, hc j hj, ?_⟩, ?_⟩
  · rcases List.mem_cons.mp (last_mem s.head_ (passed es j)) with hp | hp
    · exact Or.inl hp
    · obtain ⟨e, he, hje, hp⟩ := mem_lane.mp
        (passed_missed es j ▸ List.mem_append_left (missed es j) hp)
      exact Or.inr ⟨e, he, hp, hje, hk e he⟩
  · have hpos := reach_pos h.loose (A := es.dropLast) fun _ he =>
      (List.dropLast_sublist es).subset he
    rw [hc 0 h.current_pos, passed, if_pos hpos, lane_zero h.pos, below_of_lt hk]

/-- The levels once the entry `e` is in: behind what the slots have moved past. -/
abbrev withNew (es : List (Entry K V)) (e : Entry K V) (j : ℕ) : List Ptr :=
  if j < e.ht then passed es j ++ e.ptr :: missed es j else lane j es

/-- **A round of the insertion** puts the new node behind the part of each level the slot has
moved past. -/
lemma insertCached_passed (h : Rep H s es) (gen : ℕ → ℕ) {kv : K × V}
    (hk : ∀ e ∈ es, e.key < kv.1) {c : Cache}
    (hc : ∀ j < s.currentHeight_, c j = some (last s.head_ (passed es j))) :
    let e : Entry K V := ⟨H.brk, randomHeight_ gen, kv⟩
    ∃ H' s' c', insertCached_ H s gen kv c = some (H', s', H.brk, c') ∧
      Moves H s es H' s' (es ++ [e]) ∧ Tail s' (es ++ [e]) ∧ Ready s' (es ++ [e]) c' ∧
      Kept s' (es ++ [e]) c' ∧ Loose H' s' (es ++ [e]) (withNew es e) := by
  intro e
  obtain ⟨H', s', c', e', hm, -, ht, hready⟩ :=
    insertCached_last ⟨⟨_, h.loose⟩, h.asc⟩ gen hk (slots_passed h hk hc)
  obtain ⟨c₁, hraise, hlow, hhigh⟩ := raise_spec s (randomHeight_le gen) c
  have hpos := reach_pos h.loose (A := es.dropLast) fun _ he => (List.dropLast_sublist es).subset he
  have hl : Loose H s (es ++ []) fun j => lane j es := by
    rw [List.append_nil]
    exact h.loose
  obtain ⟨H₁, s₁, e₁, hhead, hcur, -, hloose, -⟩ := insert_loose hl gen kv
    (passed_missed es) (by rw [passed, if_pos hpos, lane_zero h.pos]) fun j hj _ => hc j hj
  have hsame : insertCached_ H s gen kv c = some (H₁, s₁, H.brk, c₁) := by
    simp [insertCached_, hraise, e₁]
  cases e'.symm.trans hsame
  refine ⟨H', s', c', e', hm, ht, hready, fun _ j hj hje => ?_, hloose⟩
  rw [List.dropLast_concat] at hje ⊢
  rw [hhead]
  rcases Nat.lt_or_ge j s.currentHeight_ with hlt | hge
  · -- the slot is as the search left it
    rw [hlow j hlt, hc j hlt, passed_of_le fun a ha => ?_]
    rwa [reach, Option.mem_def.mp ha, Option.map_some, Option.getD_some] at hje
  · rw [hcur, lt_max_iff, or_iff_right (Nat.not_lt.mpr hge)] at hj
    rw [hhigh j hge hj, level_nil h.loose hge]
    rfl

/-! ### All rounds -/

/-- Among the first `len` heights, none is below both of the next two. -/
def Steady (n : ℕ → ℕ) (len : ℕ) : Prop := ∀ i, i + 2 < len → min (n (i + 1)) (n (i + 2)) ≤ n i

lemma steady_succ {n : ℕ → ℕ} {len : ℕ} :
    Steady n (len + 1) ↔
      Steady n len ∧ ∀ i, i + 2 = len → min (n (i + 1)) (n (i + 2)) ≤ n i := by
  constructor
  · exact fun h => ⟨fun i hi => h i (by omega), fun i hi => h i (by omega)⟩
  · rintro ⟨h, hlast⟩ i hi
    rcases Nat.lt_succ_iff_lt_or_eq.mp hi with hlt | heq
    · exact h i hlt
    · exact hlast i heq

omit [LinearOrder K] in
/-- A node as high as the next height drawn goes in at the end of all its levels if and only if
the heights are steady up to it. -/
lemma missed_nil_iff {n : ℕ → ℕ} (hn : ∀ i e, es[i]? = some e → e.ht = n i)
    (hle : n es.length ≤ maxHeight_) :
    (∀ j < n es.length, missed es j = []) ↔
      ∀ i, i + 2 = es.length → min (n (i + 1)) (n (i + 2)) ≤ n i := by
  rcases List.eq_nil_or_concat es with rfl | ⟨A, e, rfl⟩
  · exact iff_of_true (fun j _ => by simp [missed, lane]) fun i hi => absurd hi (by simp)
  rcases List.eq_nil_or_concat A with rfl | ⟨A, a, rfl⟩
  · refine iff_of_true (fun j hj => ?_) fun i hi => absurd hi (by simp)
    rw [List.concat_eq_append, missed_concat, reach_nil, if_pos (Or.inl (hj.trans_le hle))]
  · have ha : a.ht = n A.length := hn _ _ (by simp)
    have he : e.ht = n (A.length + 1) := hn _ _ (by simp)
    simp only [List.concat_eq_append, List.length_append, List.length_singleton, missed_concat,
      reach_concat, ha, he, Nat.add_assoc, Nat.reduceAdd, Nat.add_right_cancel_iff, forall_eq,
      ite_eq_left_iff, min_le_iff, reduceCtorEq, imp_false, not_not]
    constructor
    · intro h
      by_contra hlt
      have := h (n A.length) (by omega)
      omega
    · intro h j hj
      omega

lemma rep_of_missed_nil {e : Entry K V} (h : Loose H s (es ++ [e]) (withNew es e))
    (ha : Asc Entry.key (es ++ [e])) (ht : Tail s (es ++ [e]))
    (hmiss : ∀ j < e.ht, missed es j = []) : Rep H s (es ++ [e]) := by
  have hL : withNew es e = fun j => lane j (es ++ [e]) := by
    funext j
    rw [withNew]
    split_ifs with hj
    · have hsplit := passed_missed es j
      rw [hmiss j hj, List.append_nil] at hsplit
      rw [hmiss j hj, lane_append, lane_cons_of_lt [] hj, ← hsplit]
      rfl
    · rw [lane_append, lane_cons_of_le [] (not_lt.mp hj)]
      simp [lane]
  rw [hL] at h
  exact h.rep ha ht

/-- Where a node is missed the new one is before it, and later insertions leave them so. -/
lemma not_levelsAscending_of_missed {e : Entry K V} (h : Loose H s (es ++ [e]) (withNew es e))
    (hk : ∀ a ∈ es, a.key < e.key) {j : ℕ} (hj : j < e.ht) (hmiss : missed es j ≠ [])
    {es' : List (Entry K V)} (h' : Good H' s' es') (hg : Grows H s H' s')
    (hsub : ∀ a ∈ es ++ [e], a ∈ es') : ¬ LevelsAscending H' s' := by
  intro hasc
  obtain ⟨L', hl'⟩ := h'.loose
  obtain ⟨a, ha, hja, hmiss⟩ := missed_ne_nil hmiss
  have hmem : e ∈ es' := hsub e (by simp)
  have hj12 : j < maxHeight_ := hj.trans_le (hl'.ht_le hmem)
  obtain ⟨ps, hps, hgrow⟩ := hg j hj12 _ (h.linked j hj12)
  rw [withNew, if_pos hj, hmiss, hps.unique (hl'.linked j hj12)] at hgrow
  have hpair : List.Sublist [e.ptr, a.ptr] (L' j) := (List.sublist_append_right ..).trans hgrow
  exact not_levelAscending hl' hj12 (hsub a (by simp [ha])) hmem hpair (hk a ha)
    (hasc j (hj.trans_le (hl'.le_current e hmem)))

/-- **The order of the levels.** As long as the heights are steady all levels are in key order;
a node that breaks them goes in on the wrong side of its predecessor on some level, and no later
insertion takes nodes off a level or changes their order. -/
theorem insertRange_levels {Q R : List (Entry K V)} (hx : Loose H x (Q ++ R) L)
    (ha : Asc Entry.key (Q ++ R)) (h : Rep H s es) (hes : es.map Entry.kv = Q.map Entry.kv)
    (hd : ∀ p ∈ foot x (Q ++ R), p ∉ foot s es) {c : Cache} (hc : Kept s es c) {fuel : ℕ}
    (hf : R.length < fuel) {n : ℕ → ℕ} (hn : ∀ i e, es[i]? = some e → e.ht = n i)
    {gens : ℕ → ℕ → ℕ} (hg : ∀ i, randomHeight_ (gens i) = n (es.length + i))
    (hst : Steady n es.length) :
    ∃ H' s', insertRange C none fuel gens H s ((R.head?).map Entry.ptr)
        ((es.getLast?).map Entry.ptr) c = some (H', s') ∧
      (LevelsAscending H' s' ↔ Steady n (es.length + R.length)) := by
  induction R generalizing H s es Q c fuel gens with
  | nil =>
    obtain ⟨fuel, rfl⟩ : ∃ f, fuel = f + 1 := ⟨fuel - 1, by omega⟩
    exact ⟨H, s, by simp [insertRange], iff_of_true (levelsAscending_of_rep h) hst⟩
  | cons r R ih =>
    obtain ⟨fuel, rfl⟩ : ∃ f, fuel = f + 1 := ⟨fuel - 1, by omega⟩
    have hk := key_lt_next ha hes
    obtain ⟨c₁, hfind, hslots⟩ := find_kept C h hk hc
    obtain ⟨H₁, s₁, c₂, e₁, hm₁, ht₁, hready, hkept, hl₁⟩ :=
      insertCached_passed h (gens 0) hk hslots
    obtain ⟨hx₁, hd₁⟩ := hm₁.other hx hd
    have hincr := hx₁.incr_eq
    have hkv := kv_of_hdr (hx.node r (by simp))
    rw [List.head?_cons, Option.map_some, insertRange_new C (by simp) hkv hfind e₁ hincr fuel]
    set e : Entry K V := ⟨H.brk, randomHeight_ (gens 0), r.kv⟩ with he
    have hht : e.ht = n es.length := hg 0
    have hlast : ((es ++ [e]).getLast?).map Entry.ptr = some H.brk := by simp [he]
    have hfuel : R.length < fuel := by simpa using hf
    rw [List.append_cons] at hx₁ ha hd₁
    have hes₁ : (es ++ [e]).map Entry.kv = (Q ++ [r]).map Entry.kv := by simp [hes, he]
    by_cases hmiss : ∀ j < n es.length, missed es j = []
    · have hr₁ : Rep H₁ s₁ (es ++ [e]) :=
        rep_of_missed_nil hl₁ hm₁.good.asc ht₁ fun j hj => hmiss j (hht ▸ hj)
      have hst₁ : Steady n (es ++ [e]).length := by
        rw [List.length_append]
        exact steady_succ.mpr ⟨hst, (missed_nil_iff hn (hht ▸ randomHeight_le _)).mp hmiss⟩
      have hn₁ : ∀ i a, (es ++ [e])[i]? = some a → a.ht = n i := by
        intro i a hi
        rcases getElem?_snoc_some hi with ⟨rfl, rfl⟩ | ⟨-, hi⟩
        · exact hht
        · exact hn i a hi
      have hg₁ : ∀ i, randomHeight_ (gens (i + 1)) = n ((es ++ [e]).length + i) := fun i => by
        rw [hg, List.length_append, List.length_singleton]
        congr 1
        omega
      obtain ⟨H₂, s₂, e₂, hiff⟩ := ih hx₁ ha hr₁ hes₁ hd₁ hkept hfuel hn₁ hg₁ hst₁
      rw [hlast] at e₂
      refine ⟨H₂, s₂, e₂, hiff.trans ?_⟩
      rw [List.length_append, List.length_singleton, List.length_cons, Nat.add_assoc,
        Nat.add_comm 1]
    · obtain ⟨H₂, s₂, es₂, e₂, hm₂, hg₂, hsub, -⟩ := insertRange_copies C hx₁ ha hm₁.good hes₁ hd₁
        (fun _ => hready) hfuel fun n => gens (n + 1)
      rw [hlast] at e₂
      refine ⟨H₂, s₂, e₂, iff_of_false ?_ fun hst₂ => hmiss ?_⟩
      · simp only [not_forall] at hmiss
        obtain ⟨j, hj, hmiss⟩ := hmiss
        exact not_levelsAscending_of_missed hl₁ hk (hht ▸ hj) hmiss hm₂.good hg₂ hsub
      · exact (missed_nil_iff hn (hht ▸ randomHeight_le _)).mpr fun i hi =>
          hst₂ i (by rw [List.length_cons]; omega)

/-- **When a copy has all its levels in key order.** Of any list reached by operations on
elements, the copy constructor makes one whose levels are ascending if and only if no height
drawn is below both of the next two. -/
theorem levelsAscending_iff [Inhabited K] [Inhabited V] {acts : List (Act K V)} {t : Store K V}
    {l : ℕ} (hp : Along (step C) PlainStep Store.empty acts)
    (e : Runs.exec (step C) Store.empty acts = some t) (hx : t.lists[l]? = some x)
    (gens : ℕ → ℕ → ℕ) :
    ∃ H' s', copy C t.heap x gens = some (H', s') ∧
      (LevelsAscending H' s' ↔ Steady (fun i => randomHeight_ (gens i)) (size x)) := by
  obtain ⟨es, h⟩ := run_plain C hp e
  have hr := h.rep l x hx
  obtain ⟨hnew, hframe⟩ := make_loose hr.unused
  have hl₁ : Loose (make t.heap).1 x ([] ++ es l) fun i => lane i (es l) :=
    hr.loose.frame hframe hnew.unused (by simp)
  have hg : ∀ i, randomHeight_ (gens i) =
      randomHeight_ (gens (([] : List (Entry K V)).length + i)) :=
    fun i => by rw [List.length_nil, Nat.zero_add]
  obtain ⟨H', s', e', hiff⟩ := insertRange_levels C hl₁ hr.asc (hnew.rep asc_nil rfl) rfl
    (make_apart hr.loose) (c := Cache.fresh) (fun hne => absurd rfl hne)
    (show (es l).length < x.fuel by simp [Skiplist.fuel, hr.num])
    (n := fun i => randomHeight_ (gens i)) (by simp) hg fun i hi => by simp at hi
  refine ⟨H', s', ?_, ?_⟩
  · simpa [copy, hl₁.begin_eq, insertRangeEffective_] using e'
  · simpa [size, hr.num] using hiff

/-- The copy with the heights one, two and two. -/
theorem levelsAscending_iff_three :
    let C := defaultComparator ℕ
    let gens : ℕ → ℕ → ℕ := fun n i => if n = 0 then 1 else i
    ∃ t x, Runs.exec (step C) Store.empty threeElements = some t ∧ t.lists[0]? = some x ∧
      ∃ H' s', copy C t.heap x gens = some (H', s') ∧
        (LevelsAscending H' s' ↔ Steady (fun i => randomHeight_ (gens i)) (size x)) :=
  ⟨_, _, rfl, rfl, levelsAscending_iff (l := 0) (defaultComparator ℕ)
    (show Along _ PlainStep Store.empty threeElements by decide) rfl rfl _⟩

/-- In that copy the third element comes before the second on level `1`. -/
theorem not_levelsAscending :
    let C := defaultComparator ℕ
    let gens : ℕ → ℕ → ℕ := fun n i => if n = 0 then 1 else i
    ∃ t x, Along (step C) PlainStep Store.empty threeElements ∧
      Runs.exec (step C) Store.empty threeElements = some t ∧ t.lists[0]? = some x ∧
      ∃ H' s', copy C t.heap x gens = some (H', s') ∧ ¬ LevelsAscending H' s' := by
  refine ⟨_, _, by decide, rfl, rfl, _, _, rfl, fun hall => ?_⟩
  obtain ⟨ps, hps, hasc⟩ := hall 1 (by decide)
  obtain rfl : ps = [7, 6] := by
    refine hps.unique ?_
    exact ⟨rfl, rfl, rfl, rfl, rfl⟩
  obtain ⟨a, b, ha, hb, hlt⟩ := (List.pairwise_cons.mp hasc).1 6 (by simp)
  cases ha
  cases hb
  exact absurd hlt (by decide)

end Libchef.SkipCopyLevels
