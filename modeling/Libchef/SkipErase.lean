import Libchef.SkipRep

/-!
Taking a node out of a skip list.

The loop of `erase_` takes the node out of every level it is on. The height is lowered to the
tallest node left, and the tail steps back when the last node goes.
-/

namespace Libchef.SkipErase

open Libchef.SkipModel Libchef.SkipRep Libchef.Chain Libchef.Ordered

variable {K V : Type}

lemma unlinkAt_spec {H : Heap K V} {n c : Ptr} {i : ℕ} (hn : HasLevel H n i)
    (hp : prev H i n = some c) (hc : HasLevel H c i) (hne : c ≠ n)
    (hq : ∀ q, next H i n = some q → HasLevel H q i) :
    ∃ H', unlinkAt H n i = some H' ∧ Same H H' ∧
      (∀ j ≠ i, next H' j = next H j ∧ prev H' j = prev H j) ∧
      next H' i = Function.update (next H i) c (next H i n) ∧
      prev H' i = setAt (prev H i) (next H i n) (some c) := by
  obtain ⟨H1, e1, s1, p1, n1, n1i⟩ := setNext_spec (next H i n) hc
  have hn1 : HasLevel H1 n i := s1.hasLevel.mpr hn
  have hread : next H1 i n = next H i n := by rw [n1i, Function.update_of_ne hne.symm]
  obtain ⟨H2, e2, s2, n2, p2, p2i⟩ := setPrevIf_spec (p := next H i n) (some c)
    fun q hx => s1.hasLevel.mpr (hq q hx)
  refine ⟨H2, ?_, s1.trans s2, fun j hj => ⟨?_, ?_⟩, ?_, ?_⟩
  · simp only [unlinkAt, level_eq hn, hp, e1, level_eq hn1, hread, p1, e2, Option.bind_eq_bind,
      Option.bind_some]
  · rw [n2, n1 j hj]
  · rw [p2 j hj, p1]
  · rw [n2, n1i]
  · rw [p2i, p1]

lemma unlink_spec {H : Heap K V} {n : Ptr} {c : ℕ → Ptr} {i : ℕ}
    (hn : ∀ j < i, HasLevel H n j) (hp : ∀ j < i, prev H j n = some (c j))
    (hc : ∀ j < i, HasLevel H (c j) j) (hne : ∀ j < i, c j ≠ n)
    (hq : ∀ j < i, ∀ q, next H j n = some q → HasLevel H q j) :
    ∃ H', unlink H n i = some H' ∧ Same H H' ∧
      (∀ j, i ≤ j → next H' j = next H j ∧ prev H' j = prev H j) ∧
      ∀ j < i, next H' j = Function.update (next H j) (c j) (next H j n) ∧
        prev H' j = setAt (prev H j) (next H j n) (some (c j)) := by
  induction i generalizing H with
  | zero => exact ⟨H, rfl, Same.refl _, fun _ _ => ⟨rfl, rfl⟩, fun j hj => absurd hj (by omega)⟩
  | succ i ih =>
    obtain ⟨H1, e1, s1, o1, n1, p1⟩ := unlinkAt_spec (hn i (by omega)) (hp i (by omega))
      (hc i (by omega)) (hne i (by omega)) (hq i (by omega))
    obtain ⟨H2, e2, s2, o2, l2⟩ := ih (H := H1)
      (fun j hj => s1.hasLevel.mpr (hn j (by omega)))
      (fun j hj => by rw [(o1 j (by omega)).2]; exact hp j (by omega))
      (fun j hj => s1.hasLevel.mpr (hc j (by omega))) (fun j hj => hne j (by omega))
      (fun j hj q hx => s1.hasLevel.mpr (hq j (by omega) q (by rwa [(o1 j (by omega)).1] at hx)))
    refine ⟨H2, by simp [unlink, e1, e2], s1.trans s2, fun j hj => ?_, fun j hj => ?_⟩
    · rw [(o2 j (by omega)).1, (o2 j (by omega)).2]
      exact o1 j (by omega)
    · rcases Nat.lt_succ_iff_lt_or_eq.mp hj with hj' | rfl
      · have := l2 j hj'
        rwa [(o1 j (by omega)).1, (o1 j (by omega)).2] at this
      · rw [(o2 j le_rfl).1, (o2 j le_rfl).2]
        exact ⟨n1, p1⟩

/-- The loop that lowers the height stops at the tallest entry left, or at one. -/
lemma shrink_spec {H : Heap K V} {head : Ptr} {es : List (Entry K V)} {current : ℕ}
    (h1 : 1 ≤ current) (hle : ∀ e ∈ es, e.ht ≤ current)
    (hlev : ∀ j < current, HasLevel H head j ∧ (next H j head = none ↔ lane j es = [])) :
    ∃ c, shrink H head current = some c ∧ 1 ≤ c ∧ c ≤ current ∧ (∀ e ∈ es, e.ht ≤ c) ∧
      (c = 1 ∨ ∃ e ∈ es, e.ht = c) := by
  induction current with
  | zero => exact absurd h1 (by omega)
  | succ c ih =>
    by_cases hc : 1 < c + 1
    · obtain ⟨hl, hn⟩ := hlev c (by omega)
      rcases hlane : lane c es with _ | ⟨p, ps⟩
      · have hle' : ∀ e ∈ es, e.ht ≤ c := by
          intro e he
          by_contra hgt
          have := mem_lane.mpr ⟨e, he, not_le.mp hgt, rfl⟩
          rw [hlane] at this
          simp at this
        obtain ⟨c', e', h1', h2', h3'⟩ := ih (by omega) hle' fun j hj => hlev j (by omega)
        exact ⟨c', by simp [shrink, level_eq hl, hn.mpr hlane, e']; omega, h1', by omega, h3'⟩
      · obtain ⟨e, he, hlt, -⟩ := mem_lane.mp (hlane ▸ List.mem_cons_self : p ∈ lane c es)
        have hsome : next H c head ≠ none := fun h0 => by simp [hlane] at hn; exact hn h0
        have := hle e he
        exact ⟨c + 1, by simp [shrink, level_eq hl, hsome], h1, le_rfl, hle,
          Or.inr ⟨e, he, by omega⟩⟩
    · exact ⟨c + 1, by simp [shrink, hc], h1, le_rfl, hle, Or.inl (by omega)⟩

lemma delete_spec {H : Heap K V} {p : Ptr} {i : ℕ} (hp : HasLevel H p i) :
    ∃ H', H.delete p = some H' ∧ H'.brk = H.brk ∧ hdr H' = Function.update (hdr H) p none ∧
      ∀ q ≠ p, (∀ j, next H' j q = next H j q) ∧ ∀ j, prev H' j q = prev H j q := by
  obtain ⟨n, hn, -⟩ := hasLevel_iff.mp hp
  refine ⟨{ H with node := Function.update H.node p none }, by simp [Heap.delete, hn], rfl, ?_,
    fun q hq => ⟨fun j => ?_, fun j => ?_⟩⟩
  · funext q
    by_cases hq : q = p
    · subst hq; simp [hdr]
    · simp [hdr, hq]
  · simp [next, Heap.level, hq]
  · simp [prev, Heap.level, hq]

lemma lane_erase {A B : List (Entry K V)} {e : Entry K V} (hne : ∀ x ∈ A ++ B, x.ptr ≠ e.ptr)
    (i : ℕ) : (lane i (A ++ e :: B)).erase e.ptr = lane i (A ++ B) := by
  have hout {X : List (Entry K V)} (hX : ∀ x ∈ X, x ∈ A ++ B) : e.ptr ∉ lane i X := by
    intro hm
    obtain ⟨x, hx, -, hp⟩ := mem_lane.mp hm
    exact hne x (hX x hx) hp
  by_cases hi : i < e.ht
  · rw [lane_append, lane_cons_of_lt B hi,
      List.erase_append_right _ (hout fun x hx => List.mem_append_left B hx),
      List.erase_cons_head, lane_append]
  · rw [lane_append, lane_cons_of_le B (not_lt.mp hi), ← lane_append,
      List.erase_of_not_mem (hout fun x hx => hx)]

variable {H : Heap K V} {s : Skiplist} {A B : List (Entry K V)} {e : Entry K V} {L : ℕ → List Ptr}

lemma ne_ptr (h : Loose H s (A ++ e :: B) L) : ∀ x ∈ A ++ B, x.ptr ≠ e.ptr := by
  have hnd := (List.nodup_cons.mp h.nodup).2
  rw [List.map_append, List.map_cons, List.nodup_middle, List.nodup_cons, ← List.map_append] at hnd
  exact fun x hx hp => hnd.1 (hp ▸ List.mem_map_of_mem hx)

/-- One level of the node: the cell before it and what its level is without it. -/
lemma level_unlink (h : Loose H s (A ++ e :: B) L) {j : ℕ} (hj : j < e.ht) :
    ∃ c, prev H j e.ptr = some c ∧ c ∈ s.head_ :: L j ∧ c ≠ e.ptr ∧
      (∀ q, next H j e.ptr = some q → q ∈ L j ∧ q ≠ e.ptr) ∧
      Linked (Function.update (next H j) c (next H j e.ptr))
        (setAt (prev H j) (next H j e.ptr) (some c)) s.head_ ((L j).erase e.ptr) none := by
  have he : e ∈ A ++ e :: B := by simp
  have hle := h.ht_le he
  have hlink := h.linked j (by omega)
  have hnd := h.nodup_level j
  obtain ⟨l₁, l₂, hl⟩ := List.append_of_mem (h.mem_level.mpr ⟨e, he, hj, rfl⟩)
  rw [hl] at hlink hnd ⊢
  have hnd' := hnd
  rw [List.nodup_cons, List.nodup_middle, List.nodup_cons] at hnd'
  obtain ⟨hhead, hnot, -⟩ := hnd'
  have hlast := last_mem s.head_ l₁
  refine ⟨last s.head_ l₁, hlink.prev_mem, ?_, fun heq => ?_, fun q hq => ?_, ?_⟩
  · simp only [List.mem_cons, List.mem_append] at hlast ⊢
    tauto
  · rw [heq] at hlast
    simp only [List.mem_cons, List.mem_append] at hlast hhead hnot
    rcases hlast with heq | hm
    · exact hhead (Or.inr (Or.inl heq.symm))
    · exact hnot (Or.inl hm)
  · rw [hlink.next_mem] at hq
    have hm := List.mem_append_right l₁ (List.mem_of_mem_head? hq)
    refine ⟨by simp [List.mem_of_mem_head? hq], ?_⟩
    rintro rfl
    exact hnot hm
  · rw [hlink.next_mem, List.erase_append_right _ fun hm => hnot (List.mem_append_left _ hm),
      List.erase_cons_head]
    exact hlink.erase hnd

lemma notMem_level (h : Loose H s (A ++ e :: B) L) {j : ℕ} (hj : e.ht ≤ j) : e.ptr ∉ L j := by
  intro hm
  obtain ⟨x, hx, hxj, hp⟩ := h.mem_level.mp hm
  rw [h.eq_of_ptr hx (by simp) hp] at hxj
  omega

/-- Off its levels, the node is in no chain; its own links stay as they were. -/
lemma unlink_links (h : Loose H s (A ++ e :: B) L) :
    ∃ H', unlink H e.ptr e.ht = some H' ∧ Same H H' ∧ (∀ i, prev H' i s.head_ = none) ∧
      prev H' 0 e.ptr = some (last s.head_ (A.map Entry.ptr)) ∧
      (∀ i < maxHeight_, Linked (next H' i) (prev H' i) s.head_ ((L i).erase e.ptr) none) ∧
      Frame (foot s (A ++ e :: B)) H H' := by
  have he : e ∈ A ++ e :: B := by simp
  have hpos := h.pos e he
  have hle := h.ht_le he
  choose! c hprev hc hne hq hlink using fun j (hj : j < e.ht) => level_unlink h hj
  obtain ⟨H', e', s', o', l'⟩ := unlink_spec (H := H) (n := e.ptr) (fun j hj => h.hasLevel he hj)
    hprev (fun j hj => (h.cell (by omega) (hc j hj)).1) hne
    fun j hj q hjq => h.hasLevel_mem (hq j hj q hjq).1
  have hback : ∀ j < e.ht, ∀ p, next H j e.ptr ≠ some p → prev H' j p = prev H j p := by
    intro j hj p hp
    rw [(l' j hj).2, setAt_of_ne hp]
  refine ⟨H', e', s', fun i => ?_, ?_, fun i hi => ?_, ⟨s'.brk.ge, fun p _ _ => by rw [s'.hdr],
    fun p _ hpF i => ?_, fun p _ hpF i => ?_⟩⟩
  · rcases Nat.lt_or_ge i e.ht with hlt | hge
    · rw [hback i hlt _ fun hx => (List.nodup_cons.mp (h.nodup_level i)).1 (hq i hlt _ hx).1,
        h.headPrev]
    · rw [(o' i hge).2, h.headPrev]
  · have hl := h.linked_zero
    rw [List.map_append, List.map_cons] at hl
    rw [hback 0 hpos _ fun hx => (hq 0 hpos _ hx).2 rfl, hl.prev_mem]
  · rcases Nat.lt_or_ge i e.ht with hlt | hge
    · rw [(l' i hlt).1, (l' i hlt).2]
      exact hlink i hlt
    · rw [(o' i hge).1, (o' i hge).2, List.erase_of_not_mem (notMem_level h hge)]
      exact h.linked i hi
  · rcases Nat.lt_or_ge i e.ht with hlt | hge
    · have hpc : p ≠ c i := by
        rintro rfl
        exact hpF (h.cell (by omega) (hc i hlt)).2
      rw [(l' i hlt).1, Function.update_of_ne hpc]
    · rw [(o' i hge).1]
  · rcases Nat.lt_or_ge i e.ht with hlt | hge
    · exact hback i hlt p fun hx => hpF (h.mem_foot (hq i hlt p hx).1)
    · rw [(o' i hge).2]

/-- The height after an erase is that of the tallest node left. -/
lemma lower_spec (h : Loose H s (A ++ e :: B) L) {H' : Heap K V} (hs : Same H H')
    (hl : ∀ i < maxHeight_, Linked (next H' i) (prev H' i) s.head_ ((L i).erase e.ptr) none) :
    ∃ c, lower H' s e.ht = some c ∧ 1 ≤ c ∧ c ≤ s.currentHeight_ ∧
      (∀ x ∈ A ++ B, x.ht ≤ c) ∧ (c = 1 ∨ ∃ x ∈ A ++ B, x.ht = c) := by
  have hsub : ∀ x ∈ A ++ B, x ∈ A ++ e :: B := by
    intro x hx
    simp only [List.mem_append, List.mem_cons] at hx ⊢
    tauto
  have hle : ∀ x ∈ A ++ B, x.ht ≤ s.currentHeight_ := fun x hx => h.le_current x (hsub x hx)
  by_cases hc : e.ht ≠ 1 ∧ e.ht = s.currentHeight_
  · rw [lower, if_pos hc]
    refine shrink_spec h.current_pos hle fun j hj => ?_
    have hj' : j < maxHeight_ := lt_of_lt_of_le hj h.current_le
    have hperm : ((L j).erase e.ptr).Perm (lane j (A ++ B)) :=
      lane_erase (ne_ptr h) j ▸ (h.lanes j).erase e.ptr
    refine ⟨hs.hasLevel.mpr (h.hasLevel_head hj'), ?_⟩
    rw [show next H' j s.head_ = _ from (hl j hj').next (l := []), List.head?_eq_none_iff]
    exact ⟨fun h0 => List.nil_perm.mp (h0 ▸ hperm), fun h0 => List.perm_nil.mp (h0 ▸ hperm)⟩
  · refine ⟨_, by rw [lower, if_neg hc], h.current_pos, le_rfl, hle, ?_⟩
    rcases h.current with h1 | ⟨x, hx, hxc⟩
    · exact Or.inl h1
    · by_cases hxe : x = e
      · subst hxe
        exact Or.inl (by omega)
      · refine Or.inr ⟨x, ?_, hxc⟩
        simp only [List.mem_append, List.mem_cons] at hx ⊢
        tauto

/-- The tail after an erase is the last node left. -/
lemma retail_spec (h : Loose H s (A ++ e :: B) L)
    (htail : s.tail_ = ((A ++ e :: B).getLast?).map Entry.ptr) {H' : Heap K V} (hs : Same H H')
    (hp : prev H' 0 e.ptr = some (last s.head_ (A.map Entry.ptr))) :
    retail H' s e.ptr = some (((A ++ B).getLast?).map Entry.ptr) := by
  rcases List.eq_nil_or_concat B with rfl | ⟨B', b, rfl⟩
  · have hlev : HasLevel H' e.ptr 0 := hs.hasLevel.mpr (h.hasLevel (by simp) (h.pos e (by simp)))
    have ht : s.tail_ = some e.ptr := by rw [htail]; simp
    rw [retail, if_pos ht, level_eq hlev, hp, List.append_nil]
    rcases List.eq_nil_or_concat A with rfl | ⟨A', a, rfl⟩
    · simp
    · have hne : a.ptr ≠ s.head_ := h.ne_head (by simp)
      simp [hne]
  · have ht : s.tail_ = some b.ptr := by
      rw [htail, List.concat_eq_append, ← List.cons_append, ← List.append_assoc,
        List.getLast?_concat]
      rfl
    have hne : b.ptr ≠ e.ptr := ne_ptr h b (by simp)
    rw [retail, if_neg (by rw [ht]; simpa using hne), ht]
    simp

/-- **`erase_`** takes its node off every level and sets the tail. -/
theorem erase_loose (h : Loose H s (A ++ e :: B) L)
    (htail : s.tail_ = ((A ++ e :: B).getLast?).map Entry.ptr) :
    ∃ H' s', erase_ H s e.ptr = some (H', s') ∧ s'.head_ = s.head_ ∧
      s'.tail_ = ((A ++ B).getLast?).map Entry.ptr ∧
      Loose H' s' (A ++ B) (fun i => (L i).erase e.ptr) ∧ Frame (foot s (A ++ e :: B)) H H' := by
  have he : e ∈ A ++ e :: B := by simp
  have hsub : ∀ x ∈ A ++ B, x ∈ A ++ e :: B := by
    intro x hx
    simp only [List.mem_append, List.mem_cons] at hx ⊢
    tauto
  obtain ⟨H1, e1, s1, hp1, hb1, hl1, f1⟩ := unlink_links h
  obtain ⟨c, ec, hc1, hc2, hc3, hc4⟩ := lower_spec h s1 hl1
  have et := retail_spec h htail s1 hb1
  obtain ⟨H2, e2, k2, d2, l2⟩ := delete_spec (s1.hasLevel.mpr (h.hasLevel he (h.pos e he)))
  have hfoot : ∀ p ∉ foot s (A ++ e :: B), p ≠ e.ptr := by
    rintro p hp rfl
    exact hp (List.mem_cons_of_mem _ (List.mem_map_of_mem he))
  refine ⟨H2, ⟨c, s.elementNum_ - 1, ((A ++ B).getLast?).map Entry.ptr, s.head_⟩, ?_, rfl, rfl, ?_,
    ⟨f1.brk.trans k2.ge, fun p hp hpF => ?_, fun p hp hpF i => ?_, fun p hp hpF i => ?_⟩⟩
  · simp [erase_, height_of_hdr (h.node e he), e1, ec, et, e2]
  · have hne := ne_ptr h
    have hhead : s.head_ ≠ e.ptr := (h.ne_head he).symm
    constructor
    case unused =>
      intro p hp
      rw [k2, s1.brk] at hp
      have hnone : hdr H2 p = none := by
        rw [d2, s1.hdr]
        by_cases hpe : p = e.ptr
        · simp [hpe]
        · simp [hpe, hdr, h.unused p hp]
      simpa [hdr] using hnone
    case head =>
      obtain ⟨kv, hk⟩ := h.head
      exact ⟨kv, by rw [d2, s1.hdr, Function.update_of_ne hhead, hk]⟩
    case headPrev =>
      intro i
      rw [(l2 _ hhead).2, hp1]
    case node =>
      intro x hx
      rw [d2, s1.hdr, Function.update_of_ne (hne x hx), h.node x (hsub x hx)]
    case pos => exact fun x hx => h.pos x (hsub x hx)
    case nodup =>
      refine h.nodup.sublist ?_
      exact ((List.sublist_append_right [e] B).append_left A |>.map Entry.ptr).cons_cons _
    case lanes => exact fun i => lane_erase hne i ▸ (h.lanes i).erase e.ptr
    case zero =>
      have hzero : lane 0 (A ++ e :: B) = (A ++ e :: B).map Entry.ptr := lane_zero h.pos
      rw [h.zero, ← hzero, lane_erase hne, lane_zero fun x hx => h.pos x (hsub x hx)]
    case linked =>
      intro i hi
      have hoff : ∀ p ∈ s.head_ :: (L i).erase e.ptr, p ≠ e.ptr := by
        intro p hp
        rcases List.mem_cons.mp hp with rfl | hp
        · exact hhead
        · rintro rfl
          exact (List.Nodup.mem_erase_iff (List.nodup_cons.mp (h.nodup_level i)).2).mp hp |>.1 rfl
      exact (hl1 i hi).congr (fun p hp => (l2 p (hoff p hp)).1 i)
        (fun p hp => (l2 p (hoff p (List.mem_cons_of_mem _ hp))).2 i)
    case le_current => exact hc3
    case current_pos => exact hc1
    case current_le => exact hc2.trans h.current_le
    case current => exact hc4
    case num =>
      simp only [h.num, List.length_append, List.length_cons]
      omega
  · rw [d2, Function.update_of_ne (hfoot p hpF), f1.hdr p hp hpF]
  · rw [(l2 p (hfoot p hpF)).1, f1.next p hp hpF]
  · rw [(l2 p (hfoot p hpF)).2, f1.prev p hp hpF]

/-! ### The range version -/

section Range

variable {P : Heap K V → Skiplist → List (Entry K V) → Prop} {es : List (Entry K V)}

/-- **The loop** takes out one entry a round: what holds of the list and is kept when a node is
taken out holds after it. -/
theorem eraseRange_rule (hP : ∀ {H s es}, P H s es → ∃ L, Loose H s es L)
    (hstep : ∀ {H s A e B}, P H s (A ++ e :: B) →
      ∃ H' s', erase_ H s e.ptr = some (H', s') ∧ P H' s' (A ++ B))
    {M : List (Entry K V)} (h : P H s (A ++ M ++ B)) {fuel : ℕ} (hf : M.length < fuel) :
    ∃ H' s', eraseRange ((B.head?).map Entry.ptr) fuel H s (((M ++ B).head?).map Entry.ptr) =
      some (H', s') ∧ P H' s' (A ++ B) := by
  induction M generalizing H s fuel with
  | nil =>
    obtain ⟨fuel, rfl⟩ : ∃ f, fuel = f + 1 := ⟨fuel - 1, by omega⟩
    exact ⟨H, s, by simp [eraseRange], by simpa using h⟩
  | cons e M ih =>
    obtain ⟨fuel, rfl⟩ : ∃ f, fuel = f + 1 := ⟨fuel - 1, by omega⟩
    rw [List.append_assoc, List.cons_append] at h
    obtain ⟨L, hl⟩ := hP h
    obtain ⟨H1, s1, e1, h1⟩ := hstep h
    obtain ⟨H2, s2, e2, h2⟩ := ih (by simpa using h1) (show M.length < fuel by simpa using hf)
    have hne : some e.ptr ≠ (B.head?).map Entry.ptr := by
      intro heq
      obtain ⟨b, hb, hp⟩ := Option.map_eq_some_iff.mp heq.symm
      exact ne_ptr hl b (by simp [List.mem_of_mem_head? hb]) hp
    refine ⟨H2, s2, ?_, h2⟩
    simp only [List.cons_append, List.head?_cons, Option.map_some, eraseRange, hne, if_false,
      hl.incr_eq, e1, e2, Option.bind_eq_bind, Option.bind_some]

/-- From the position `i` up to the position `j`. -/
theorem eraseRange_at (hP : ∀ {H s es}, P H s es → ∃ L, Loose H s es L)
    (hstep : ∀ {H s A e B}, P H s (A ++ e :: B) →
      ∃ H' s', erase_ H s e.ptr = some (H', s') ∧ P H' s' (A ++ B))
    (h : P H s es) {i j : ℕ} (hij : i ≤ j) (hj : j ≤ es.length) :
    ∃ H' s', (do eraseRange (← iterAt H s j) s.fuel H s (← iterAt H s i)) = some (H', s') ∧
      P H' s' (es.take i ++ es.drop j) := by
  obtain ⟨L, hl⟩ := hP h
  have hmid : (es.drop i).take (j - i) ++ es.drop j = es.drop i := by
    conv_rhs => rw [← List.take_append_drop (j - i) (es.drop i)]
    rw [List.drop_drop, Nat.add_sub_cancel' hij]
  have hsplit : es.take i ++ (es.drop i).take (j - i) ++ es.drop j = es := by
    rw [List.append_assoc, hmid, List.take_append_drop]
  have hfuel : ((es.drop i).take (j - i)).length < s.fuel := by
    simp only [List.length_take, List.length_drop, Skiplist.fuel, hl.num]
    omega
  rw [← hsplit] at h
  obtain ⟨H', s', e', h'⟩ := eraseRange_rule hP hstep h hfuel
  rw [hmid, List.head?_drop, List.head?_drop] at e'
  exact ⟨H', s', by simp [hl.iterAt_eq hj, hl.iterAt_eq (hij.trans hj), e'], h'⟩

end Range

variable [LinearOrder K]

/-- **`erase_`** removes its node and keeps the invariant. -/
theorem erase_rep (h : Rep H s (A ++ e :: B)) :
    ∃ H' s', erase_ H s e.ptr = some (H', s') ∧ s'.head_ = s.head_ ∧ Rep H' s' (A ++ B) := by
  obtain ⟨H', s', e', hhead, htail, hl, -⟩ := erase_loose h.loose h.tail
  rw [show (fun i => (lane i (A ++ e :: B)).erase e.ptr) = fun i => lane i (A ++ B) from
    funext (lane_erase (ne_ptr h.loose))] at hl
  exact ⟨H', s', e', hhead,
    hl.rep (h.asc.sublist ((List.sublist_append_right [e] B).append_left A)) htail⟩

end Libchef.SkipErase
