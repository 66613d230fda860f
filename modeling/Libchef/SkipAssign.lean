import Libchef.SkipResume
import Libchef.SkipWholeModel

/-!
Clearing a list, and filling it with the elements of another.

The range insertion gives every search the last node inserted to start from, and one cache is
kept from round to round. A search goes through the levels of the node before that one only,
so the slots above keep what they have: they name nodes of their levels, but not the last
ones. The copy has its elements in order on level `0` and may have them in another order on
the levels above.
-/

namespace Libchef.SkipAssign

open Libchef.SkipModel Libchef.SkipWholeModel Libchef.SkipRep Libchef.SkipFind Libchef.SkipInsert
open Libchef.SkipErase Libchef.SkipLoose Libchef.SkipResume Libchef.Chain Libchef.Ordered

variable {K V : Type}

/-! ### Clearing -/

lemma clearLevels_spec {H : Heap K V} {head : Ptr} {i : ℕ} (hl : ∀ j ≤ i, HasLevel H head j) :
    ∃ H', clearLevels H head i = some H' ∧ Same H H' ∧ prev H' = prev H ∧
      ∀ j p, next H' j p = if p = head ∧ 0 < j ∧ j ≤ i then none else next H j p := by
  induction i generalizing H with
  | zero =>
    refine ⟨H, rfl, Same.refl H, rfl, fun j p => ?_⟩
    rw [if_neg fun hc => absurd hc.2.2 (Nat.not_le.mpr hc.2.1)]
  | succ i ih =>
    obtain ⟨H₁, e₁, s₁, p₁, o₁, n₁⟩ := setNext_spec none (hl (i + 1) le_rfl)
    obtain ⟨H₂, e₂, s₂, p₂, n₂⟩ := ih fun j hj => s₁.hasLevel.mpr (hl j (by omega))
    refine ⟨H₂, by simp [clearLevels, e₁, e₂], s₁.trans s₂, p₂.trans p₁, fun j p => ?_⟩
    rw [n₂]
    by_cases hj : j = i + 1
    · rw [if_neg (by omega), hj, n₁]
      by_cases hp : p = head
      · rw [hp, Function.update_self, if_pos ⟨rfl, by omega, le_rfl⟩]
      · rw [Function.update_of_ne hp, if_neg fun hc => hp hc.1]
    · rw [o₁ j hj]
      have hle : j ≤ i + 1 ↔ j ≤ i := by omega
      simp only [hle]

/-- The nodes are deleted one after the other, and nothing else changes. -/
lemma deleteFrom_spec {H : Heap K V} {l : List Ptr}
    (hn : ∀ l₁ p l₂, l = l₁ ++ p :: l₂ → next H 0 p = l₂.head?) (hlev : ∀ p ∈ l, HasLevel H p 0)
    (hnd : l.Nodup) {fuel : ℕ} (hf : l.length < fuel) :
    ∃ H', deleteFrom fuel H l.head? = some H' ∧ H'.brk = H.brk ∧ (∀ p ∈ l, hdr H' p = none) ∧
      ∀ p ∉ l, hdr H' p = hdr H p ∧
        (∀ j, next H' j p = next H j p) ∧ ∀ j, prev H' j p = prev H j p := by
  obtain ⟨fuel, rfl⟩ : ∃ f, fuel = f + 1 := ⟨fuel - 1, by omega⟩
  induction l generalizing H fuel with
  | nil => exact ⟨H, rfl, rfl, by simp, fun p _ => ⟨rfl, fun _ => rfl, fun _ => rfl⟩⟩
  | cons q l ih =>
    obtain ⟨fuel, rfl⟩ : ∃ f, fuel = f + 1 := ⟨fuel - 1, by simp at hf; omega⟩
    obtain ⟨hq, hnd⟩ := List.nodup_cons.mp hnd
    have hne : ∀ p ∈ l, p ≠ q := fun p hp hpq => hq (hpq ▸ hp)
    obtain ⟨H₁, e₁, b₁, h₁, f₁⟩ := delete_spec (hlev q (by simp))
    have hlev₁ : ∀ p ∈ l, HasLevel H₁ p 0 := by
      intro p hp
      obtain ⟨kv, m, n, hk, hpos⟩ := hlev p (by simp [hp])
      exact ⟨kv, m, n, by rw [h₁, Function.update_of_ne (hne p hp), hk], hpos⟩
    have hn₁ : ∀ l₁ p l₂, l = l₁ ++ p :: l₂ → next H₁ 0 p = l₂.head? := by
      intro l₁ p l₂ hl
      rw [(f₁ p (hne p (by simp [hl]))).1]
      exact hn (q :: l₁) p l₂ (by rw [hl, List.cons_append])
    obtain ⟨H₂, e₂, b₂, h₂, f₂⟩ := ih hn₁ hlev₁ hnd fuel (by simpa using hf)
    refine ⟨H₂, ?_, b₂.trans b₁, fun p hp => ?_, fun p hp => ?_⟩
    · simp [deleteFrom, level_eq (hlev q (by simp)), hn [] q l rfl, e₁, e₂]
    · by_cases hpl : p ∈ l
      · exact h₂ p hpl
      · have hpq : p = q := (List.mem_cons.mp hp).resolve_right hpl
        rw [(f₂ p hpl).1, h₁, hpq, Function.update_self]
    · obtain ⟨hpq, hpl⟩ := not_or.mp (List.mem_cons.not.mp hp)
      refine ⟨?_, fun j => ?_, fun j => ?_⟩
      · rw [(f₂ p hpl).1, h₁, Function.update_of_ne hpq]
      · rw [(f₂ p hpl).2.1, (f₁ p hpq).1]
      · rw [(f₂ p hpl).2.2, (f₁ p hpq).2]

section Clear

variable {H : Heap K V} {s : Skiplist} {es : List (Entry K V)}

/-- The data members of a list after `clear`: the tail stays. -/
def cleared (s : Skiplist) : Skiplist := { s with currentHeight_ := 1, elementNum_ := 0 }

/-- `clear` deletes the nodes and takes every level off the head; the other nodes stay as they
were. -/
lemma clear_links {L : ℕ → List Ptr} (h : Loose H s es L) :
    ∃ H', clear H s = some (H', cleared s) ∧ H'.brk = H.brk ∧
      (∀ p ∈ es.map Entry.ptr, hdr H' p = none) ∧
      (∀ i < maxHeight_, next H' i s.head_ = none) ∧
      ∀ p ∉ es.map Entry.ptr, hdr H' p = hdr H p ∧ (∀ i, prev H' i p = prev H i p) ∧
        ∀ i, p ≠ s.head_ → next H' i p = next H i p := by
  have hhead : ∀ j < maxHeight_, HasLevel H s.head_ j := fun j hj => h.hasLevel_head hj
  have hlink := h.linked_zero
  have hfirst : next H 0 s.head_ = (es.map Entry.ptr).head? := hlink.next (l := [])
  obtain ⟨hnot, hnd⟩ := List.nodup_cons.mp h.nodup
  obtain ⟨H₁, e₁, s₁, p₁, n₁⟩ := clearLevels_spec (i := maxHeight_ - 1)
    fun j hj => hhead j (by unfold maxHeight_ at *; omega)
  have hnext₁ : next H₁ 0 = next H 0 := by
    funext p
    rw [n₁, if_neg (by omega)]
  obtain ⟨H₂, e₂, b₂, d₂, f₂⟩ := deleteFrom_spec (H := H₁) (l := es.map Entry.ptr)
    (fun l₁ p l₂ hp => by
      rw [hnext₁]
      rw [hp] at hlink
      exact hlink.next_mem)
    (fun p hp => by
      obtain ⟨e, he, rfl⟩ := List.mem_map.mp hp
      exact s₁.hasLevel.mpr (h.hasLevel he (h.pos e he)))
    hnd (show _ < s.fuel by simp [Skiplist.fuel, h.num])
  have hlev₂ : HasLevel H₂ s.head_ 0 := by
    obtain ⟨kv, m, n, hk, hn⟩ := s₁.hasLevel.mpr (hhead 0 (by decide))
    exact ⟨kv, m, n, by rw [(f₂ _ hnot).1, hk], hn⟩
  obtain ⟨H₃, e₃, s₃, p₃, o₃, n₃⟩ := setNext_spec none hlev₂
  refine ⟨H₃, ?_, by rw [s₃.brk, b₂, s₁.brk], fun p hp => by rw [s₃.hdr, d₂ p hp],
    fun i hi => ?_, fun p hp => ⟨?_, fun i => ?_, fun i hne => ?_⟩⟩
  · simp only [clear, e₁, level_eq (s₁.hasLevel.mpr (hhead 0 (by decide))), hnext₁, hfirst, e₂, e₃,
      Option.bind_eq_bind, Option.bind_some]
    rfl
  · rcases Nat.eq_zero_or_pos i with rfl | hpos
    · rw [n₃, Function.update_self]
    · rw [o₃ i hpos.ne', (f₂ _ hnot).2.1, n₁, if_pos ⟨rfl, hpos, by omega⟩]
  · rw [s₃.hdr, (f₂ p hp).1, s₁.hdr]
  · rw [p₃, (f₂ p hp).2.2, p₁]
  · have hstep : next H₃ i p = next H₂ i p := by
      by_cases h0 : i = 0
      · rw [h0, n₃, Function.update_of_ne hne]
      · rw [o₃ i h0]
    rw [hstep, (f₂ p hp).2.1, n₁, if_neg fun hc => hne hc.1]

variable [LinearOrder K]

/-- **`clear`** leaves an empty list, with the tail it had. -/
theorem clear_moves (h : Good H s es) :
    ∃ H', clear H s = some (H', cleared s) ∧ Moves H s es H' (cleared s) [] := by
  obtain ⟨L, hl⟩ := h.loose
  obtain ⟨H', e', hbrk, hdead, hnull, hrest⟩ := clear_links hl
  have hnot : s.head_ ∉ es.map Entry.ptr := (List.nodup_cons.mp hl.nodup).1
  refine ⟨H', e', ⟨⟨fun _ => [], ?_⟩, asc_nil⟩, rfl, ?_, fun p hp => Or.inl ?_⟩
  · constructor
    case unused =>
      intro p hp
      rw [hbrk] at hp
      have hnone : hdr H' p = none := by
        by_cases hpl : p ∈ es.map Entry.ptr
        · exact hdead p hpl
        · rw [(hrest p hpl).1]
          simp [hdr, hl.unused p hp]
      simpa [hdr] using hnone
    case head =>
      obtain ⟨kv, hk⟩ := hl.head
      exact ⟨kv, (hrest _ hnot).1.trans hk⟩
    case headPrev =>
      intro i
      exact ((hrest _ hnot).2.1 i).trans (hl.headPrev i)
    case node => simp
    case pos => simp
    case nodup => simp [foot]
    case lanes => exact fun _ => .refl _
    case zero => rfl
    case linked => exact hnull
    case le_current => simp
    case current_pos => exact le_rfl
    case current_le => exact Nat.le_of_ble_eq_true rfl
    case current => exact Or.inl rfl
    case num => rfl
  · have hout : ∀ p ∉ foot s es, p ≠ s.head_ ∧ p ∉ es.map Entry.ptr := fun p hp =>
      not_or.mp (List.mem_cons.not.mp hp)
    refine ⟨hbrk.ge, fun p _ hp => ?_, fun p _ hp i => ?_, fun p _ hp i => ?_⟩
    · exact (hrest p (hout p hp).2).1
    · exact (hrest p (hout p hp).2).2.2 i (hout p hp).1
    · exact (hrest p (hout p hp).2).2.1 i
  · rw [List.mem_singleton.mp hp]
    exact List.mem_cons_self ..

end Clear

variable [LinearOrder K] (C : KeyCompare K)

/-! ### Filling an empty list -/

section Fill

variable {H : Heap K V} {s x : Skiplist} {es : List (Entry K V)}

/-- The slots in use name places for every key above the entries. -/
def Ready (s : Skiplist) (es : List (Entry K V)) (cache : Cache) : Prop :=
  ∀ k, (∀ e ∈ es, e.key < k) → ∀ j < s.currentHeight_, ∃ d, cache j = some d ∧ Start s es k j d

/-- Where the search for a key above all entries starts that is given the last one: at the
node before it, on the levels of that node. -/
lemma last_start (h : Good H s es) {k : K} (hk : ∀ e ∈ es, e.key < k) (c : Cache) :
    ∃ d n, n ≤ maxHeight_ ∧ n ≠ 0 ∧ Start s es k (n - 1) d ∧
      (n = if es = [] then s.currentHeight_ else reach es.dropLast) ∧
      find_ C H s s.fuel k ((es.getLast?).map Entry.ptr) none (some c) =
        descend C H k none s.fuel n d (some c) := by
  obtain ⟨L, hl⟩ := h.loose
  rcases List.eq_nil_or_concat es with rfl | ⟨A, e, rfl⟩
  · exact ⟨s.head_, s.currentHeight_, hl.current_le, Nat.pos_iff_ne_zero.mp hl.current_pos,
      start_head _, rfl, rfl⟩
  · rw [List.concat_eq_append] at hl hk ⊢
    have hA : ∀ a ∈ A, a ∈ A ++ [e] := fun a ha => List.mem_append_left _ ha
    obtain ⟨d, hst, hfind⟩ := find_behind C (B := []) hl (fun a ha => hk a (hA a ha)) (some c)
    refine ⟨d, reach A, reach_le hl hA, (reach_pos hl hA).ne', hst, by simp, ?_⟩
    rw [List.getLast?_concat]
    exact hfind

/-- A search above all keys fails, and what it puts in the cache fits the key. -/
lemma find_last (h : Good H s es) {k : K} (hk : ∀ e ∈ es, e.key < k) {c : Cache}
    (hc : es ≠ [] → Ready s es c) :
    ∃ c', find_ C H s s.fuel k ((es.getLast?).map Entry.ptr) none (some c) =
      some (none, some c') ∧ Slots s es k c' := by
  obtain ⟨L, hl⟩ := h.loose
  obtain ⟨d, n, hn, h0, hst, hstart, hfind⟩ := last_start C h hk c
  rcases descend_loose C hl h.asc hn (fun _ => hst) (some c) with
    ⟨e, he, hek, -⟩ | ⟨f, hd, hplace, hf⟩
  · exact absurd hek (hk e he).ne
  · refine ⟨fill f n c, by rw [hfind, hd]; rfl, fun j hj => ?_, ?_⟩
    · rcases Nat.lt_or_ge j n with hlt | hge
      · exact ⟨f j, fill_slot c j hlt, hplace j hlt⟩
      · have hne : es ≠ [] := by
          intro hnil
          rw [if_pos hnil] at hstart
          omega
        have hslot : fill f n c j = c j := by simp [fill, Nat.not_lt.mpr hge]
        rw [hslot]
        exact hc hne k hk j hj
    · rw [fill_slot c 0 (Nat.pos_of_ne_zero h0), (hf h0).2]

/-- A round of the insertion puts its element behind the others. -/
lemma insertCached_last (h : Good H s es) (gen : ℕ → ℕ) {kv : K × V}
    (hk : ∀ e ∈ es, e.key < kv.1) {c : Cache} (hc : Slots s es kv.1 c) :
    ∃ H' s' c', insertCached_ H s gen kv c = some (H', s', H.brk, c') ∧
      Moves H s es H' s' (es ++ [⟨H.brk, randomHeight_ gen, kv⟩]) ∧ Grows H s H' s' ∧
      Tail s' (es ++ [⟨H.brk, randomHeight_ gen, kv⟩]) ∧
      Ready s' (es ++ [⟨H.brk, randomHeight_ gen, kv⟩]) c' := by
  obtain ⟨H', s', e', hcur, htail, hg, hm⟩ :=
    insert_moves h gen kv (fun e he => (hk e he).ne) hc
  rw [below_of_lt hk, atLeast_of_lt hk] at hm
  rw [atLeast_of_lt hk, if_pos rfl] at htail
  obtain ⟨c', hr, hlow, hhigh⟩ := raise_spec s (randomHeight_le gen) c
  refine ⟨H', s', c', by simp [insertCached_, hr, e'], hm, hg, by simp [Tail, htail],
    fun k hk' j hj => ?_⟩
  rw [hcur] at hj
  rcases Nat.lt_or_ge j s.currentHeight_ with hlt | hge
  · obtain ⟨d, hd, hst⟩ := hc.place j hlt
    refine ⟨d, (hlow j hlt).trans hd, ?_⟩
    rcases hst with rfl | ⟨e, he, hp, hej, -⟩
    · exact Or.inl hm.head.symm
    · have he' := List.mem_append_left [(⟨H.brk, randomHeight_ gen, kv⟩ : Entry K V)] he
      exact Or.inr ⟨e, he', hp, hej, hk' e he'⟩
  · have hj' : j < randomHeight_ gen := by
      rcases lt_max_iff.mp hj with hj | hj
      · exact absurd hj (Nat.not_lt.mpr hge)
      · exact hj
    exact ⟨s.head_, hhigh j hge hj', Or.inl hm.head.symm⟩

lemma key_lt_next {Q R : List (Entry K V)} {r : Entry K V}
    (ha : Asc Entry.key (Q ++ r :: R)) (hes : es.map Entry.kv = Q.map Entry.kv) :
    ∀ e ∈ es, e.key < r.key := by
  intro e he
  have hm : e.kv ∈ Q.map Entry.kv := hes ▸ List.mem_map_of_mem he
  obtain ⟨q, hq, hqe⟩ := List.mem_map.mp hm
  have hlt := (asc_append.mp ha).2.2 q hq r (by simp)
  rwa [Entry.key, hqe] at hlt

section Rounds

variable {H₁ : Heap K V} {s₁ : Skiplist} {p q : Ptr} {pos iter last : Option Ptr} {kv : K × V}
  {c c₁ c₂ : Cache} {gens : ℕ → ℕ → ℕ}

lemma insertRange_new (hne : some p ≠ last) (hkv : H.kv p = some kv)
    (hfind : find_ C H s s.fuel kv.1 pos none (some c) = some (none, some c₁))
    (hins : insertCached_ H s (gens 0) kv c₁ = some (H₁, s₁, q, c₂))
    (hincr : incr H₁ (some p) = some iter) (fuel : ℕ) :
    insertRange C last (fuel + 1) gens H s (some p) pos c =
      insertRange C last fuel (fun n => gens (n + 1)) H₁ s₁ iter (some q) c₂ := by
  simp [insertRange, hne, hkv, hfind, hins, hincr]

lemma insertRange_present (gens : ℕ → ℕ → ℕ) (hne : some p ≠ last) (hkv : H.kv p = some kv)
    (hfind : find_ C H s s.fuel kv.1 pos none (some c) = some (some q, some c₁))
    (hincr : incr H (some p) = some iter) (fuel : ℕ) :
    insertRange C last (fuel + 1) gens H s (some p) pos c =
      insertRange C last fuel (fun n => gens (n + 1)) H s iter (some q) c₁ := by
  simp [insertRange, hne, hkv, hfind, hincr]

lemma insertRange_stuck (hne : some p ≠ last) (hkv : H.kv p = some kv)
    (hfind : find_ C H s s.fuel kv.1 pos none (some c) = some (none, some c₁))
    (hins : insertCached_ H s (gens 0) kv c₁ = none) (fuel : ℕ) :
    insertRange C last (fuel + 1) gens H s (some p) pos c = none := by
  simp [insertRange, hne, hkv, hfind, hins]

end Rounds

/-- **The range insertion** into an empty list copies the elements. -/
theorem insertRange_copies {Q R : List (Entry K V)} {L : ℕ → List Ptr}
    (hx : Loose H x (Q ++ R) L) (ha : Asc Entry.key (Q ++ R)) (h : Good H s es)
    (hes : es.map Entry.kv = Q.map Entry.kv) (hd : ∀ p ∈ foot x (Q ++ R), p ∉ foot s es)
    {c : Cache} (hc : es ≠ [] → Ready s es c) {fuel : ℕ} (hf : R.length < fuel)
    (gens : ℕ → ℕ → ℕ) :
    ∃ H' s' es', insertRange C none fuel gens H s ((R.head?).map Entry.ptr)
        ((es.getLast?).map Entry.ptr) c = some (H', s') ∧ Moves H s es H' s' es' ∧
      Grows H s H' s' ∧ (∀ e ∈ es, e ∈ es') ∧ es'.map Entry.kv = (Q ++ R).map Entry.kv ∧
      (R = [] → s' = s ∧ es' = es) ∧
      (R ≠ [] → Tail s' es') := by
  induction R generalizing H s es Q c fuel gens with
  | nil =>
    obtain ⟨fuel, rfl⟩ : ∃ f, fuel = f + 1 := ⟨fuel - 1, by omega⟩
    exact ⟨H, s, es, by simp [insertRange], Moves.refl h, Grows.refl H s, fun _ => id,
      by simpa using hes, fun _ => ⟨rfl, rfl⟩, fun hne => absurd rfl hne⟩
  | cons r R ih =>
    obtain ⟨fuel, rfl⟩ : ∃ f, fuel = f + 1 := ⟨fuel - 1, by omega⟩
    have hk := key_lt_next ha hes
    obtain ⟨c₁, hfind, hslots⟩ := find_last C h hk hc
    obtain ⟨H₁, s₁, c₂, e₁, hm₁, hg₁, ht₁, hready⟩ := insertCached_last h (gens 0) hk hslots
    obtain ⟨hx₁, hd₁⟩ := hm₁.other hx hd
    have hincr := hx₁.incr_eq
    rw [List.append_cons] at hx₁ ha hd₁
    obtain ⟨H₂, s₂, es₂, e₂, hm₂, hg₂, hsub, hes₂, hnil, htail⟩ := ih hx₁ ha hm₁.good
      (by simp [hes]) hd₁ (fun _ => hready) (show R.length < fuel by simpa using hf)
      fun n => gens (n + 1)
    refine ⟨H₂, s₂, es₂, ?_, hm₁.trans hm₂, hg₁.trans hg₂,
      fun e he => hsub e (List.mem_append_left _ he), by simpa using hes₂, by simp, fun _ => ?_⟩
    · have hkv := kv_of_hdr (hx.node r (by simp))
      rw [List.getLast?_concat] at e₂
      exact (insertRange_new C (by simp) hkv hfind e₁ hincr fuel).trans e₂
    · by_cases hR : R = []
      · subst hR
        obtain ⟨rfl, rfl⟩ := hnil rfl
        exact ht₁
      · exact htail hR

/-- **`operator=`** between two lists copies the elements. The tail is set by the insertions
only. -/
theorem assign_moves {ex : List (Entry K V)} (h : Good H s es) (hx : Good H x ex)
    (hd : ∀ p ∈ foot x ex, p ∉ foot s es) (gens : ℕ → ℕ → ℕ) :
    ∃ H' s' es', assign C H s x gens = some (H', s') ∧ Moves H s es H' s' es' ∧
      es'.map Entry.kv = ex.map Entry.kv ∧ (ex = [] → s'.tail_ = s.tail_) ∧
      (ex ≠ [] → Tail s' es') := by
  obtain ⟨L, hl⟩ := hx.loose
  obtain ⟨H₁, e₁, hm₁⟩ := clear_moves h
  obtain ⟨hl₁, hd₁⟩ := hm₁.other hl hd
  obtain ⟨H₂, s₂, es₂, e₂, hm₂, -, -, hes, hnil, htail⟩ := insertRange_copies C (Q := []) hl₁ hx.asc
    hm₁.good rfl hd₁ (c := Cache.fresh) (fun hne => absurd rfl hne)
    (show _ < x.fuel by simp [Skiplist.fuel, hl.num]) gens
  refine ⟨H₂, s₂, es₂, ?_, hm₁.trans hm₂, hes, fun h0 => ?_, htail⟩
  · simp only [assign, e₁, hl₁.begin_eq, Option.bind_eq_bind, Option.bind_some,
      insertRangeEffective_]
    exact e₂
  · rw [(hnil h0).1]
    rfl

end Fill

end Libchef.SkipAssign
