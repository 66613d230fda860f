import Libchef.SkipLoose

/-!
A search that resumes behind a node.

The range insertion hands the node it has come to to the next search, which starts at the node
before that one, on the levels of that node only. On a list whose levels have the nodes below
the key first, in whatever order, it can be said exactly where the search goes: on each level
to the end of that first part. So it is known what it puts in the cache and what it leaves.
-/

namespace Libchef.SkipResume

open Libchef.SkipModel Libchef.SkipRep Libchef.SkipFind Libchef.SkipLoose
open Libchef.Chain Libchef.Ordered

variable {K V : Type}

/-! ### Where the search starts -/

/-- The levels of the node that a search resumes from, given the entries before the one it
is handed: the last of them, or the head. -/
def reach (A : List (Entry K V)) : ℕ := ((A.getLast?).map Entry.ht).getD maxHeight_

@[simp] lemma reach_nil : reach ([] : List (Entry K V)) = maxHeight_ := rfl

@[simp] lemma reach_concat (A : List (Entry K V)) (e : Entry K V) : reach (A ++ [e]) = e.ht := by
  simp [reach]

variable {H : Heap K V} {s : Skiplist} {es A B : List (Entry K V)} {e : Entry K V}
  {L : ℕ → List Ptr}

lemma reach_le (h : Loose H s es L) (hA : ∀ e ∈ A, e ∈ es) : reach A ≤ maxHeight_ := by
  rcases List.eq_nil_or_concat A with rfl | ⟨A, a, rfl⟩
  · simp
  · simpa using h.ht_le (hA a (by simp))

lemma reach_pos (h : Loose H s es L) (hA : ∀ e ∈ A, e ∈ es) : 0 < reach A := by
  rcases List.eq_nil_or_concat A with rfl | ⟨A, a, rfl⟩
  · simp [maxHeight_]
  · simpa using h.pos a (hA a (by simp))

variable [LinearOrder K] (C : KeyCompare K)

/-- The search that is handed the node of `e` starts at the node before it. -/
lemma find_behind (h : Loose H s (A ++ e :: B) L) {k : K} (hk : ∀ a ∈ A, a.key < k)
    (c : Option Cache) :
    ∃ d, Start s (A ++ e :: B) k (reach A - 1) d ∧
      find_ C H s s.fuel k (some e.ptr) none c = descend C H k none s.fuel (reach A) d c := by
  have hlev : HasLevel H e.ptr 0 := h.hasLevel (by simp) (h.pos e (by simp))
  have hlink := h.linked_zero
  rw [List.map_append, List.map_cons] at hlink
  have hprev := hlink.prev_mem
  rcases List.eq_nil_or_concat A with rfl | ⟨A, a, rfl⟩
  · obtain ⟨kv, hkv⟩ := h.head
    refine ⟨s.head_, start_head _, ?_⟩
    simp [find_, level_eq hlev, hprev, height_of_hdr hkv]
  · have ha : a ∈ A.concat a ++ e :: B := by simp
    have hpos := h.pos a ha
    rw [List.concat_eq_append] at hk hprev ha h ⊢
    refine ⟨a.ptr, Or.inr ⟨a, ha, rfl, by rw [reach_concat]; omega, hk a (by simp)⟩, ?_⟩
    simp [find_, level_eq hlev, hprev, height_of_hdr (h.node a ha)]

/-! ### Levels in order from a key on -/

/-- Every level has the nodes below the key first, in the order that `P` gives, and then the
others in key order. -/
def Tidy (es : List (Entry K V)) (L P : ℕ → List Ptr) (k : K) : Prop :=
  ∀ j, L j = P j ++ lane j (atLeast Entry.key k es)

namespace Tidy

variable {P : ℕ → List Ptr} {k k' : K} {i j : ℕ} {d : Ptr}

lemma of_asc (ha : Asc Entry.key es) (k : K) :
    Tidy es (fun j => lane j es) (fun j => lane j (below Entry.key k es)) k := by
  intro j
  rw [← lane_append, ha.split]

lemma mem (h : Loose H s es L) (ht : Tidy es L P k) {p : Ptr} (hp : p ∈ P j) :
    ∃ e ∈ es, j < e.ht ∧ e.key < k ∧ e.ptr = p := by
  have hnd := (List.nodup_cons.mp (h.nodup_level j)).2
  obtain ⟨e, he, hje, rfl⟩ := h.mem_level.mp (ht j ▸ List.mem_append_left _ hp)
  refine ⟨e, he, hje, lt_of_not_ge fun hge => ?_, rfl⟩
  rw [ht j] at hnd
  exact List.disjoint_of_nodup_append hnd hp
    (mem_lane.mpr ⟨e, mem_atLeast.mpr ⟨he, hge⟩, hje, rfl⟩)

lemma zero (h : Loose H s es L) (ha : Asc Entry.key es) (ht : Tidy es L P k) :
    P 0 = (below Entry.key k es).map Entry.ptr := by
  have hlane : lane 0 (atLeast Entry.key k es) = (atLeast Entry.key k es).map Entry.ptr :=
    lane_zero fun e he => h.pos e (mem_atLeast.mp he).1
  have hsplit : P 0 ++ lane 0 (atLeast Entry.key k es) =
      (below Entry.key k es).map Entry.ptr ++ lane 0 (atLeast Entry.key k es) := by
    rw [← ht 0, h.zero, hlane, ← List.map_append, ha.split]
  exact List.append_cancel_right hsplit

lemma cut (h : Loose H s es L) (ht : Tidy es L P k) (hd : Start s es k j d) :
    ∃ p₁ p₂, P j = p₁ ++ p₂ ∧ last s.head_ p₁ = d := by
  rcases hd with rfl | ⟨e, he, rfl, hje, hek⟩
  · exact ⟨[], P j, rfl, rfl⟩
  · have hmem : e.ptr ∈ L j := h.mem_level.mpr ⟨e, he, hje, rfl⟩
    rw [ht j] at hmem
    rcases List.mem_append.mp hmem with hp | hp
    · obtain ⟨p₁, p₂, hP⟩ := List.append_of_mem hp
      exact ⟨p₁ ++ [e.ptr], p₂, by simp [hP], by simp⟩
    · obtain ⟨x, hx, -, hxe⟩ := mem_lane.mp hp
      obtain ⟨hx, hkx⟩ := mem_atLeast.mp hx
      rw [h.eq_of_ptr hx he hxe] at hkx
      exact absurd hek (not_lt.mpr hkx)

lemma start (h : Loose H s es L) (ht : Tidy es L P k) (j : ℕ) :
    Start s es k j (last s.head_ (P j)) := by
  rcases List.mem_cons.mp (last_mem s.head_ (P j)) with hp | hp
  · exact Or.inl hp
  · obtain ⟨e, he, hje, hek, hp⟩ := ht.mem h hp
    exact Or.inr ⟨e, he, hp, hje, hek⟩

/-- With a new node put in somewhere among the nodes below its key. -/
lemma insert (ht : Tidy es L P k) (ha : Asc Entry.key es) (he : e.key = k) (hk : k < k')
    (p₁ p₂ : ℕ → List Ptr) :
    Tidy (below Entry.key k es ++ e :: atLeast Entry.key k es)
      (fun j => if j < e.ht then p₁ j ++ e.ptr :: (p₂ j ++ lane j (atLeast Entry.key k es))
        else L j)
      (fun j => (if j < e.ht then p₁ j ++ e.ptr :: p₂ j else P j) ++
        lane j (below Entry.key k' (atLeast Entry.key k es))) k' := by
  intro j
  have hasc : Asc Entry.key (atLeast Entry.key k es) := ha.filter _
  have hup : atLeast Entry.key k' (below Entry.key k es ++ e :: atLeast Entry.key k es) =
      atLeast Entry.key k' (atLeast Entry.key k es) := by
    have hlow : ∀ x ∈ below Entry.key k es ++ [e], x.key < k' := by
      intro x hx
      rcases List.mem_append.mp hx with hx | hx
      · exact (mem_below.mp hx).2.trans hk
      · rw [List.mem_singleton.mp hx, he]
        exact hk
    rw [List.append_cons, atLeast_append, atLeast_of_lt hlow, List.nil_append]
  have hlane : lane j (atLeast Entry.key k es) =
      lane j (below Entry.key k' (atLeast Entry.key k es)) ++
        lane j (atLeast Entry.key k' (atLeast Entry.key k es)) := by
    rw [← lane_append, hasc.split]
  beta_reduce
  rw [hup]
  split_ifs
  · rw [hlane]
    simp
  · rw [ht j, hlane, List.append_assoc]

end Tidy

section Search

variable {P : ℕ → List Ptr} {k : K} {i : ℕ} {d : Ptr}

/-- A walk from a place of its level goes through the first part of the level to the others. -/
lemma Tidy.walk_eq (ht : Tidy es L P k) (h : Loose H s es L) (hi : i < maxHeight_)
    (hd : Start s es k i d) :
    ∃ l : List (Entry K V), (∀ e ∈ l, e.key < k) ∧ last d (l.map Entry.ptr) = last s.head_ (P i) ∧
      walk C H k none i s.fuel d =
        some (scan k none d (l ++ level i (atLeast Entry.key k es))) := by
  obtain ⟨p₁, p₂, hp, hlast⟩ := ht.cut h hd
  obtain ⟨l, rfl, hm⟩ := exists_entries (P := fun e => e ∈ es ∧ i < e.ht ∧ e.key < k)
    fun p (hp₂ : p ∈ p₂) => by
      obtain ⟨e, he, hie, hek, hep⟩ := ht.mem h (hp ▸ List.mem_append_right p₁ hp₂)
      exact ⟨e, ⟨he, hie, hek⟩, hep⟩
  have hL : L i = p₁ ++ (l ++ level i (atLeast Entry.key k es)).map Entry.ptr := by
    rw [ht i, hp, List.map_append, List.append_assoc]
    rfl
  have hlink := h.linked i hi
  rw [hL] at hlink
  have hdrop := hlink.drop
  rw [hlast] at hdrop
  refine ⟨l, fun e he => (hm e he).2.2, by rw [← hlast, hp, last_append], ?_⟩
  refine walk_eq_scan C hdrop (hd.hasLevel h hi) (fun e he => ?_) ?_
  · rcases List.mem_append.mp he with he | he
    · exact ⟨h.node e (hm e he).1, (hm e he).2.1⟩
    · obtain ⟨he, hie⟩ := List.mem_filter.mp he
      exact ⟨h.node e (mem_atLeast.mp he).1, by simpa using hie⟩
  · refine h.length_level_lt (i := i) ?_
    rw [hL]
    exact List.sublist_append_right ..

lemma Tidy.walk_stop (ht : Tidy es L P k) (h : Loose H s es L) (hi : i < maxHeight_)
    (hd : Start s es k i d) (hk : ∀ e ∈ es, e.key = k → e.ht ≤ i) :
    walk C H k none i s.fuel d = some (.stop (last s.head_ (P i))) := by
  obtain ⟨l, hl, hlast, hw⟩ := ht.walk_eq C h hi hd
  rw [hw, scan_break d (fun e he => ⟨hl e he, by simp⟩) fun e he => Or.inr ?_, hlast]
  obtain ⟨hmem, hie⟩ := List.mem_filter.mp (List.mem_of_mem_head? he)
  obtain ⟨hmem, hke⟩ := mem_atLeast.mp hmem
  exact lt_of_le_of_ne hke fun heq => absurd (hk e hmem heq.symm) (by simpa using hie)

lemma Tidy.walk_found (ht : Tidy es L P k) (h : Loose H s es L) (ha : Asc Entry.key es)
    (hi : i < maxHeight_) (hd : Start s es k i d) (he : e ∈ es) (hk : e.key = k)
    (hie : i < e.ht) : walk C H k none i s.fuel d = some (.found e.ptr) := by
  obtain ⟨l, hl, -, hw⟩ := ht.walk_eq C h hi hd
  subst hk
  obtain ⟨r, hr, -⟩ := ha.atLeast_eq_cons he
  have hlev : level i (atLeast Entry.key e.key es) = e :: level i r := by
    rw [hr]
    simp [hie]
  rw [hw, hlev, scan_hit d hl]

/-- **The search for an absent key** stores the end of every first part. -/
lemma Tidy.descend_absent (ht : Tidy es L P k) (h : Loose H s es L) (hi : i ≤ maxHeight_)
    (hd : i ≠ 0 → Start s es k (i - 1) d) (hk : ∀ e ∈ es, e.key ≠ k) (c : Cache) :
    descend C H k none s.fuel i d (some c) =
      some (none, some (fill (fun j => last s.head_ (P j)) i c)) := by
  induction i generalizing d c with
  | zero =>
    have hid : fill (fun j => last s.head_ (P j)) 0 c = c := by funext j; simp [fill]
    rw [hid]
    rfl
  | succ i ih =>
    have hw := ht.walk_stop C h (show i < maxHeight_ by omega) (hd (by omega))
      fun e he hek => absurd hek (hk e he)
    have hnext : i ≠ 0 → Start s es k (i - 1) (last s.head_ (P i)) :=
      fun _ => (ht.start h i).mono (by omega)
    simp [descend, hw, Cache.put, show i < maxHeight_ by omega, ih (by omega) hnext,
      fill_put fun j => last s.head_ (P j)]

/-- **The search for a key that is there** stores it on the levels above its node. -/
lemma Tidy.descend_present (ht : Tidy es L P k) (h : Loose H s es L) (ha : Asc Entry.key es)
    (hi : i ≤ maxHeight_) (h0 : i ≠ 0) (hd : Start s es k (i - 1) d) (he : e ∈ es)
    (hk : e.key = k) (c : Cache) :
    ∃ c', descend C H k none s.fuel i d (some c) = some (some e.ptr, some c') ∧
      ∀ j, c' j = if e.ht ≤ j ∧ j < i then some (last s.head_ (P j)) else c j := by
  induction i generalizing d c with
  | zero => exact absurd rfl h0
  | succ i ih =>
    by_cases hie : i < e.ht
    · have hw := ht.walk_found C h ha (show i < maxHeight_ by omega) hd he hk hie
      refine ⟨c, by simp [descend, hw], fun j => ?_⟩
      rw [if_neg (by omega)]
    · have hw := ht.walk_stop C h (show i < maxHeight_ by omega) hd fun x hx hxk => by
        rw [ha.eq_of_key hx he (hxk.trans hk.symm)]
        exact Nat.not_lt.mp hie
      have hpos := h.pos e he
      obtain ⟨c', hc', hslot⟩ := ih (by omega) (by omega) ((ht.start h i).mono (by omega))
        (Function.update c i (some (last s.head_ (P i))))
      refine ⟨c', by simp [descend, hw, Cache.put, show i < maxHeight_ by omega, hc'], fun j => ?_⟩
      rw [hslot]
      rcases eq_or_ne j i with rfl | hne
      · rw [if_neg (by omega), Function.update_self, if_pos (by omega)]
      · have hiff : j < i + 1 ↔ j < i := by omega
        rw [Function.update_of_ne hne]
        simp only [hiff]

end Search

end Libchef.SkipResume
