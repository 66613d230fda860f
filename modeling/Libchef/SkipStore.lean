import Libchef.SkipInvariant
import Libchef.SkipPlain
import Libchef.SkipQuery

/-!
Any number of skip lists in one memory.

Whatever is constructed, changed, cleared, swapped and assigned, every list answers as the ordered
map that the same actions make, though a tail can be wrong and higher levels out of order. Every
node in memory is one of exactly one list, so destroying the lists frees it all.
-/

namespace Libchef.SkipStore

open Libchef.SkipModel Libchef.SkipWholeModel Libchef.SkipRep Libchef.SkipInsert Libchef.SkipErase
open Libchef.SkipInvariant Libchef.SkipLoose Libchef.SkipAssign Libchef.SkipReverse
open Libchef.SkipPlain Libchef.SkipRefine Libchef.SkipQuery Libchef.Chain Libchef.Ordered
open Libchef.Runs Libchef.Slots

variable {K V : Type}

/-! ### What is in memory -/

section Memory

variable {H H' H'' : Heap K V} {s s' s'' : Skiplist} {es es' es'' A B : List (Entry K V)}
  {e : Entry K V} {L : ℕ → List Ptr}

/-- What is in memory afterwards is of the list, or was there before and not of the list. -/
def Sweeps (H : Heap K V) (s : Skiplist) (es : List (Entry K V)) (H' : Heap K V) (s' : Skiplist)
    (es' : List (Entry K V)) : Prop :=
  ∀ p, H'.node p ≠ none → p ∈ foot s' es' ∨ H.node p ≠ none ∧ p ∉ foot s es

lemma Sweeps.trans (h : Sweeps H s es H' s' es') (h' : Sweeps H' s' es' H'' s'' es'') :
    Sweeps H s es H'' s'' es'' := by
  intro p hp
  rcases h' p hp with hp' | ⟨hp', hout⟩
  · exact Or.inl hp'
  · exact Or.inr ((h p hp').resolve_left hout)

lemma sweeps_refl : Sweeps H s es H s es := fun p hp =>
  (Classical.em (p ∈ foot s es)).imp id fun hout => ⟨hp, hout⟩

lemma insert_alive {gen : ℕ → ℕ} {kv : K × V} {cache : Cache} {q : Ptr}
    (h : insert_ H s gen kv cache = some (H', s', q)) :
    s'.elementNum_ = s.elementNum_ + 1 ∧ ∀ p, H'.node p ≠ none → p = H.brk ∨ H.node p ≠ none := by
  simp only [insert_, Option.bind_eq_bind, Option.bind_eq_some_iff, Option.some.injEq,
    Prod.mk.injEq] at h
  obtain ⟨_, -, H₁, e₁, _, -, rfl, rfl, -⟩ := h
  refine ⟨rfl, fun p hp => ?_⟩
  have hp' := (node_ne_none (link_same e₁)).mp hp
  by_cases hb : p = H.brk
  · exact Or.inl hb
  · exact Or.inr (by simpa [Heap.new, hb] using hp')

lemma delete_alive {n p : Ptr} (h : H.delete n = some H') (hp : H'.node p ≠ none) :
    p ≠ n ∧ H.node p ≠ none := by
  simp only [Heap.delete, Option.bind_eq_bind, Option.bind_eq_some_iff, Option.some.injEq] at h
  obtain ⟨_, -, rfl⟩ := h
  have hne : p ≠ n := by
    rintro rfl
    simp at hp
  exact ⟨hne, by simpa [hne] using hp⟩

lemma erase_alive {n p : Ptr} (h : erase_ H s n = some (H', s')) (hp : H'.node p ≠ none) :
    p ≠ n ∧ H.node p ≠ none := by
  simp only [erase_, Option.bind_eq_bind, Option.bind_eq_some_iff, Option.some.injEq,
    Prod.mk.injEq] at h
  obtain ⟨_, -, H₁, e₁, _, -, _, -, _, e₂, rfl, rfl⟩ := h
  obtain ⟨hne, halive⟩ := delete_alive e₂ hp
  exact ⟨hne, (node_ne_none (unlink_same e₁)).mp halive⟩

lemma erase_withTail {n : Ptr} (hn : HasLevel H n 0) {t : Option Ptr}
    (h : erase_ H { s with tail_ := t } n = some (H', s')) :
    ∃ t', erase_ H s n = some (H', { s' with tail_ := t' }) := by
  simp only [erase_, Option.bind_eq_bind, Option.bind_eq_some_iff, Option.some.injEq,
    Prod.mk.injEq] at h
  obtain ⟨height, e₀, H₁, e₁, current, e₂, _, -, H₂, e₃, rfl, rfl⟩ := h
  have hlower : lower H₁ s height = some current := e₂
  obtain ⟨t', ht⟩ : ∃ t', retail H₁ s n = some t' := by
    have hlev := level_eq ((unlink_same e₁).hasLevel.mpr hn)
    unfold retail
    split_ifs
    · exact ⟨_, by rw [hlev]; rfl⟩
    · exact ⟨_, rfl⟩
  exact ⟨t', by simp [erase_, e₀, e₁, hlower, ht, e₃]⟩

end Memory

/-! ### One list -/

variable [LinearOrder K] (C : KeyCompare K)

/-- What an operation makes of a list, and of the memory. -/
structure Works (H : Heap K V) (s : Skiplist) (es : List (Entry K V)) (H' : Heap K V)
    (s' : Skiplist) (es' : List (Entry K V)) : Prop where
  moves : Moves H s es H' s' es'
  sweeps : Sweeps H s es H' s' es'

section One

variable {H H' H'' : Heap K V} {s s' s'' : Skiplist} {es es' es'' A B : List (Entry K V)}
  {e : Entry K V} {k : K} {m : OrderedMap K V}

lemma Works.refl (h : Good H s es) : Works H s es H s es := ⟨Moves.refl h, sweeps_refl⟩

lemma Works.trans (h : Works H s es H' s' es') (h' : Works H' s' es' H'' s'' es'') :
    Works H s es H'' s'' es'' :=
  ⟨h.moves.trans h'.moves, h.sweeps.trans h'.sweeps⟩

lemma good_withTail (h : Good H s es) (t : Option Ptr) : Good H { s with tail_ := t } es := by
  obtain ⟨L, hl⟩ := h.loose
  exact ⟨⟨L, hl.withTail t⟩, h.asc⟩

lemma erase_works (h : Good H s (A ++ e :: B)) :
    ∃ H' s', erase_ H s e.ptr = some (H', s') ∧ Works H s (A ++ e :: B) H' s' (A ++ B) := by
  obtain ⟨L, hl⟩ := h.loose
  obtain ⟨H', s', e', hm, -⟩ :=
    erase_moves (good_withTail h (((A ++ e :: B).getLast?).map Entry.ptr)) rfl
  obtain ⟨t', e₁⟩ := erase_withTail (hl.hasLevel (e := e) (by simp) (hl.pos e (by simp))) e'
  have hfoot : foot { s' with tail_ := t' } (A ++ B) = foot s (A ++ B) := by
    rw [foot, foot, show ({ s' with tail_ := t' } : Skiplist).head_ = s.head_ from hm.head]
  refine ⟨H', _, e₁, ⟨good_withTail hm.good t', hm.head, hm.frame, hm.foot⟩, fun p hp => ?_⟩
  obtain ⟨hne, halive⟩ := erase_alive e₁ hp
  rw [hfoot]
  by_cases hin : p ∈ foot s (A ++ e :: B)
  · left
    simp only [foot, List.map_append, List.map_cons, List.mem_cons, List.mem_append] at hin ⊢
    tauto
  · exact Or.inr ⟨halive, hin⟩

lemma insert_works (h : Good H s es) (gen : ℕ → ℕ) (kv : K × V) (hk : ∀ e ∈ es, e.key ≠ kv.1)
    {cache : Cache} (hc : Slots s es kv.1 cache) (hm : es.map Entry.kv = m.entries) :
    ∃ H' s' es', insert_ H s gen kv cache = some (H', s', H.brk) ∧ Works H s es H' s' es' ∧
      es'.map Entry.kv = (m.insertNew kv.1 kv.2).entries := by
  obtain ⟨H', s', e', -, -, -, hmoves⟩ := insert_moves h gen kv hk hc
  refine ⟨H', s', _, e', ⟨hmoves, fun p hp => ?_⟩,
    insertNew_absent h.asc hk (e := ⟨H.brk, randomHeight_ gen, kv⟩) rfl hm⟩
  have hin : ∀ q ∈ foot s es, q ∈ foot s' (below Entry.key kv.1 es ++
      ⟨H.brk, randomHeight_ gen, kv⟩ :: atLeast Entry.key kv.1 es) := by
    intro q hq
    rw [foot, ← h.asc.split kv.1] at hq
    simp only [foot, hmoves.head, List.map_append, List.map_cons, List.mem_cons,
      List.mem_append] at hq ⊢
    tauto
  rcases (insert_alive e').2 p hp with rfl | halive
  · exact Or.inl (by simp [foot])
  · by_cases hq : p ∈ foot s es
    · exact Or.inl (hin p hq)
    · exact Or.inr ⟨halive, hq⟩

lemma erase_entries (h : Asc Entry.key (A ++ e :: B))
    (hm : (A ++ e :: B).map Entry.kv = m.entries) :
    (A ++ B).map Entry.kv = (m.erase e.key).entries := by
  obtain ⟨-, hB, hA⟩ := asc_append.mp h
  have hkeep {l : List (Entry K V)} (hl : ∀ x ∈ l, x.key ≠ e.key) :
      (l.map Entry.kv).filter (fun x => x.1 ≠ e.key) = l.map Entry.kv := by
    refine List.filter_eq_self.mpr fun x hx => ?_
    obtain ⟨y, hy, rfl⟩ := List.mem_map.mp hx
    exact decide_eq_true (hl y hy)
  show _ = m.entries.filter _
  rw [← hm, List.map_append, List.map_append, List.map_cons, List.filter_append, List.filter_cons,
    hkeep fun x hx => (hA x hx e List.mem_cons_self).ne,
    hkeep fun x hx => ((asc_cons.mp hB).1 x hx).ne']
  simp

/-- **One operation on elements.** -/
theorem exec_works [Inhabited V] (h : Good H s es) (hm : es.map Entry.kv = m.entries)
    (op : Op K V) (gen : ℕ → ℕ) (hv : OpValid s op) :
    ∃ H' s' es', SkipModel.exec C (H, s) (op, gen) = some (H', s') ∧ Works H s es H' s' es' ∧
      es'.map Entry.kv = (refStep m op).entries := by
  obtain ⟨L, hl⟩ := h.loose
  cases op with
  | insert val =>
    rcases findCached_good C h val.1 with ⟨e, he, hk, c, hc⟩ | ⟨hk, c, hc, hs⟩
    · refine ⟨H, s, es, by simp [SkipModel.exec, SkipModel.insert, hc], Works.refl h, ?_⟩
      rw [refStep, ← hk]
      exact insertNew_present h.asc he val.2 hm
    · obtain ⟨H', s', es', e', hw, hm'⟩ := insert_works h gen val hk hs hm
      exact ⟨H', s', es', by simp [SkipModel.exec, SkipModel.insert, hc, e'], hw, hm'⟩
  | index k =>
    rcases findCached_good C h k with ⟨e, he, hk, c, hc⟩ | ⟨hk, c, hc, hs⟩
    · refine ⟨H, s, es, by simp [SkipModel.exec, index, hc], Works.refl h, ?_⟩
      rw [refStep, ← hk]
      exact insertNew_present h.asc he default hm
    · obtain ⟨H', s', es', e', hw, hm'⟩ := insert_works h gen (k, default) hk hs hm
      exact ⟨H', s', es', by simp [SkipModel.exec, index, hc, e'], hw, hm'⟩
  | eraseKey k =>
    rcases find_good C h k with ⟨e, he, rfl, hf⟩ | ⟨hk, hf⟩
    · obtain ⟨A, B, rfl⟩ := List.append_of_mem he
      obtain ⟨H', s', e', hw⟩ := erase_works h
      exact ⟨H', s', _, by simp [SkipModel.exec, eraseKey, hf, e'], hw, erase_entries h.asc hm⟩
    · refine ⟨H, s, es, by simp [SkipModel.exec, eraseKey, hf], Works.refl h, ?_⟩
      show _ = m.entries.filter _
      rw [← hm, List.filter_eq_self.mpr fun x hx => ?_]
      obtain ⟨e, he, rfl⟩ := List.mem_map.mp hx
      exact decide_eq_true (hk e he)
  | eraseAt position =>
    have hlt : position < es.length := hl.num ▸ hv
    have hsplit : es = es.take position ++ es[position] :: es.drop (position + 1) := by
      rw [← List.drop_eq_getElem_cons hlt, List.take_append_drop]
    have hfind : find C H s es[position].key = some (some es[position].ptr) :=
      find_present C h (List.getElem_mem hlt)
    have hkv := kv_of_hdr (hl.node es[position] (List.getElem_mem hlt))
    obtain ⟨H', s', e', hw⟩ := erase_works (hsplit ▸ h : Good H s
      (es.take position ++ es[position] :: es.drop (position + 1)))
    rw [← hsplit] at hw
    refine ⟨H', s', _, ?_, hw, ?_⟩
    · simp only [SkipModel.exec, hl.iterAt_eq hlt.le, List.getElem?_eq_getElem hlt,
        Option.map_some, eraseAt, hkv, Option.bind_eq_bind, Option.bind_some, eraseKey,
        show find C H s es[position].kv.1 = _ from hfind, e']
    · simp [refStep, OrderedMap.eraseRange, ← hm, List.map_take, List.map_drop]
  | eraseRange first last =>
    obtain ⟨H', s', e', hw⟩ := eraseRange_at (P := fun H' s' es' => Works H s es H' s' es')
      (fun hw => hw.moves.good.loose)
      (fun hw => by
        obtain ⟨H₁, s₁, e₁, hw₁⟩ := erase_works hw.moves.good
        exact ⟨H₁, s₁, e₁, hw.trans hw₁⟩) (Works.refl h) hv.1 (hl.num ▸ hv.2)
    refine ⟨H', s', _, e', hw, ?_⟩
    simp [refStep, OrderedMap.eraseRange, ← hm, max_eq_right hv.1, List.map_take, List.map_drop]

lemma clear_works (h : Good H s es) :
    ∃ H', clear H s = some (H', cleared s) ∧ Works H s es H' (cleared s) [] := by
  obtain ⟨L, hl⟩ := h.loose
  obtain ⟨H', e', -, hdead, -, hrest⟩ := clear_links hl
  obtain ⟨H₁, e₁, hm⟩ := clear_moves h
  rw [e'] at e₁
  cases e₁
  refine ⟨H', e', hm, fun p hp => ?_⟩
  have halive : p ∉ es.map Entry.ptr := fun hin => hp (by simpa [hdr] using hdead p hin)
  have hbefore : H.node p ≠ none := by
    intro hnone
    have heq := (hrest p halive).1
    simp only [hdr, hnone, Option.map_none, Option.map_eq_none_iff] at heq
    exact hp heq
  by_cases hhead : p = s.head_
  · exact Or.inl (by simp [foot, cleared, hhead])
  · exact Or.inr ⟨hbefore, by simpa [foot, hhead] using halive⟩

lemma assign_self_works (h : Good H s es) (gens : ℕ → ℕ → ℕ) :
    ∃ H', assign C H s s gens = some (H', cleared s) ∧ Works H s es H' (cleared s) [] := by
  obtain ⟨H', e', hw⟩ := clear_works h
  obtain ⟨L, hl⟩ := hw.moves.good.loose
  have hbegin : begin_ H' s = some none := hl.begin_eq
  refine ⟨H', ?_, hw⟩
  simp [assign, e', hbegin, insertRangeEffective_, Skiplist.fuel, insertRange]

/-- The destructor frees what the list has, and nothing else. -/
lemma destroy_works (h : Good H s es) :
    ∃ H', destroy H s = some H' ∧
      (∀ p, H'.node p ≠ none → H.node p ≠ none ∧ p ∉ foot s es) ∧
      ∀ x ex, Good H x ex → (∀ p ∈ foot x ex, p ∉ foot s es) → Good H' x ex := by
  obtain ⟨H₁, e₁, hw⟩ := clear_works h
  obtain ⟨L, hl⟩ := hw.moves.good.loose
  obtain ⟨H', e', hbrk, hhdr, hlinks⟩ := delete_spec (hl.hasLevel_head (i := 0) (by decide))
  have hunused : ∀ p, H'.brk ≤ p → H'.node p = none := fun p hp => by
    by_contra halive
    exact (delete_alive e' halive).2 (hl.unused p (hbrk ▸ hp))
  have hframe : Frame [s.head_] H₁ H' := by
    refine ⟨hbrk.ge, fun p _ hp => ?_, fun p _ hp => ?_, fun p _ hp => ?_⟩
    · rw [hhdr]
      exact Function.update_of_ne (List.mem_singleton.not.mp hp) _ _
    · exact (hlinks p (List.mem_singleton.not.mp hp)).1
    · exact (hlinks p (List.mem_singleton.not.mp hp)).2
  refine ⟨H', by simpa [destroy, e₁] using e', fun p hp => ?_, fun x ex hx hd => ?_⟩
  · obtain ⟨hne, halive⟩ := delete_alive e' hp
    exact (hw.sweeps p halive).resolve_left fun hin => hne (List.mem_singleton.mp hin)
  · obtain ⟨L', hlx⟩ := hx.loose
    obtain ⟨hl₁, hd₁⟩ := hw.moves.other hlx hd
    exact ⟨⟨L', hl₁.frame hframe hunused fun p hp hp' => hd₁ p hp hp'⟩, hx.asc⟩

/-- The nodes that a range insertion makes are as many as the list then has more. -/
lemma insertRange_news {last : Option Ptr} {fuel : ℕ} {gens : ℕ → ℕ → ℕ} {iter pos : Option Ptr}
    {cache : Cache} (h : insertRange C last fuel gens H s iter pos cache = some (H', s')) :
    ∃ news : List Ptr, news.length + s.elementNum_ = s'.elementNum_ ∧
      ∀ p, H'.node p ≠ none → H.node p ≠ none ∨ p ∈ news := by
  induction fuel generalizing H s gens iter pos cache with
  | zero => cases h
  | succ fuel ih =>
    rw [insertRange] at h
    split_ifs at h with hlast
    · cases h
      exact ⟨[], by simp, fun p hp => Or.inl hp⟩
    · simp only [Option.bind_eq_bind, Option.bind_eq_some_iff] at h
      obtain ⟨_, -, kv, -, ⟨pos', cache'⟩, -, c, -, h⟩ := h
      cases pos' with
      | some p =>
        obtain ⟨iter', -, h⟩ := Option.bind_eq_some_iff.mp h
        exact ih h
      | none =>
        obtain ⟨⟨H₁, s₁, q, c₁⟩, hins, h⟩ := Option.bind_eq_some_iff.mp h
        obtain ⟨iter', -, h⟩ := Option.bind_eq_some_iff.mp h
        obtain ⟨news, hnum, hnews⟩ := ih h
        simp only [insertCached_, Option.bind_eq_bind, Option.bind_eq_some_iff, Option.some.injEq,
          Prod.mk.injEq] at hins
        obtain ⟨-, -, ⟨H₂, s₂, q₂⟩, hins, rfl, rfl, -⟩ := hins
        obtain ⟨hone, halive⟩ := insert_alive hins
        have hsum : news.length + s₂.elementNum_ = s'.elementNum_ := hnum
        refine ⟨H.brk :: news, by rw [List.length_cons]; omega, fun p hp => ?_⟩
        rcases hnews p hp with hp | hp
        · rcases halive p hp with rfl | hp
          · exact Or.inr List.mem_cons_self
          · exact Or.inl hp
        · exact Or.inr (List.mem_cons_of_mem _ hp)

omit [LinearOrder K] in
lemma alive_foot {L : ℕ → List Ptr} (h : Loose H s es L) {p : Ptr} (hp : p ∈ foot s es) :
    H.node p ≠ none := by
  intro hnone
  rcases List.mem_cons.mp hp with rfl | hp
  · obtain ⟨kv, hk⟩ := h.head
    simp [hdr, hnone] at hk
  · obtain ⟨e, he, rfl⟩ := List.mem_map.mp hp
    have hk := h.node e he
    simp [hdr, hnone] at hk

/-- **An assignment** from another list. -/
theorem assign_works {x : Skiplist} {ex : List (Entry K V)} (h : Good H s es) (hx : Good H x ex)
    (hd : ∀ p ∈ foot x ex, p ∉ foot s es) (gens : ℕ → ℕ → ℕ) :
    ∃ H' s' es', assign C H s x gens = some (H', s') ∧ Works H s es H' s' es' ∧
      es'.map Entry.kv = ex.map Entry.kv := by
  obtain ⟨L, hl⟩ := hx.loose
  obtain ⟨H₁, e₁, hw₁⟩ := clear_works h
  obtain ⟨hl₁, hd₁⟩ := hw₁.moves.other hl hd
  obtain ⟨H₂, s₂, es₂, e₂, hm₂, -, -, hes, -⟩ := insertRange_copies C (Q := []) hl₁ hx.asc
    hw₁.moves.good rfl hd₁ (c := Cache.fresh) (fun hne => absurd rfl hne)
    (show _ < x.fuel by simp [Skiplist.fuel, hl.num]) gens
  refine ⟨H₂, s₂, es₂, ?_, hw₁.trans ⟨hm₂, fun p hp => ?_⟩, hes⟩
  · simp only [assign, e₁, hl₁.begin_eq, Option.bind_eq_bind, Option.bind_some,
      insertRangeEffective_]
    exact e₂
  · -- the nodes of the list are as many as were made, so they are the ones that were made
    obtain ⟨news, hnum, hnews⟩ := insertRange_news C e₂
    obtain ⟨L₁, hempty⟩ := hw₁.moves.good.loose
    obtain ⟨L₂, hl₂⟩ := hm₂.good.loose
    obtain ⟨hnot, hnd⟩ := List.nodup_cons.mp hl₂.nodup
    have hsub : es₂.map Entry.ptr ⊆ news := by
      intro q hq
      have hmem : q ∈ foot s₂ es₂ := List.mem_cons_of_mem _ hq
      refine (hnews q (alive_foot hl₂ hmem)).resolve_left fun halive => ?_
      rcases hm₂.foot q hmem with hin | hge
      · have hhead : q = s₂.head_ := by
          rw [hm₂.head]
          exact List.mem_singleton.mp hin
        exact hnot (hhead ▸ hq)
      · exact halive (hempty.unused q hge)
    have hlen : news.length = (es₂.map Entry.ptr).length := by
      rw [List.length_map, ← hl₂.num, ← hnum]
      rfl
    have hperm : (es₂.map Entry.ptr).Perm news :=
      (hnd.subperm hsub).perm_of_length_le hlen.le
    rcases hnews p hp with halive | hin
    · by_cases hhead : p = s₂.head_
      · exact Or.inl (by simp [foot, hhead])
      · refine Or.inr ⟨halive, ?_⟩
        rw [hm₂.head] at hhead
        simpa [foot] using hhead
    · exact Or.inl (List.mem_cons_of_mem _ (hperm.mem_iff.mpr hin))

end One

/-! ### Several lists -/

/-- What an action makes of maps. A list that is assigned to itself is only cleared. -/
def refAct [Inhabited V] (ms : List (OrderedMap K V)) : Act K V → List (OrderedMap K V)
  | .construct => ms ++ [.empty]
  | .op l op _ => ms.modify l fun m => refStep m op
  | .clear l => ms.set l .empty
  | .swap l x => (ms.set l (ms.getD x .empty)).set x (ms.getD l .empty)
  | .assign l x _ => ms.set l (if l = x then .empty else ms.getD x .empty)

/-- The lists an action names are there, and the positions it names are positions of its list. -/
def Named (t : Store K V) : Act K V → Prop
  | .construct => True
  | .op l op _ => ∃ s ∈ t.lists[l]?, OpValid s op
  | .clear l => l < t.lists.length
  | .swap l x | .assign l x _ => l < t.lists.length ∧ x < t.lists.length

instance (t : Store K V) : DecidablePred (Named t)
  | .construct => .isTrue trivial
  | .op l op _ => inferInstanceAs (Decidable (∃ s ∈ t.lists[l]?, OpValid s op))
  | .clear l => inferInstanceAs (Decidable (l < t.lists.length))
  | .swap l x | .assign l x _ =>
    inferInstanceAs (Decidable (l < t.lists.length ∧ x < t.lists.length))

/-- The lists have the bindings of the maps, share no node, and have all nodes. -/
structure Owned (t : Store K V) (es : ℕ → List (Entry K V)) (ms : List (OrderedMap K V)) :
    Prop where
  inv : Inv t es
  covered : ∀ p, t.heap.node p ≠ none → ∃ l s, t.lists[l]? = some s ∧ p ∈ foot s (es l)
  length : ms.length = t.lists.length
  maps : ∀ l m, ms[l]? = some m → (es l).map Entry.kv = m.entries

section Stores

variable {t t' : Store K V} {es : ℕ → List (Entry K V)} {ms : List (OrderedMap K V)} {l x : ℕ}
  {s s' : Skiplist} {H : Heap K V} {e : List (Entry K V)} {m : OrderedMap K V}

lemma Owned.set (h : Owned t es ms) (hl : t.lists[l]? = some s)
    (hw : Works t.heap s (es l) H s' e) (hm : e.map Entry.kv = m.entries) :
    Owned ⟨H, t.lists.set l s'⟩ (Function.update es l e) (ms.set l m) := by
  have hlt : l < t.lists.length := (List.getElem?_eq_some_iff.mp hl).1
  refine ⟨h.inv.set hl hw.moves, fun p hp => ?_, by simp [h.length], fun j m' hj => ?_⟩
  · rcases hw.sweeps p hp with hin | ⟨halive, hout⟩
    · exact ⟨l, s', List.getElem?_set_self hlt, by rwa [Function.update_self]⟩
    · obtain ⟨j, s₁, hj, hin⟩ := h.covered p halive
      have hne : l ≠ j := by
        rintro rfl
        rw [hl] at hj
        cases hj
        exact hout hin
      exact ⟨j, s₁, by rwa [List.getElem?_set_ne hne], by rwa [Function.update_of_ne hne.symm]⟩
  · rcases getElem?_set_some hj with ⟨rfl, rfl⟩ | ⟨hne, hj⟩
    · rwa [Function.update_self]
    · rw [Function.update_of_ne hne]
      exact h.maps j m' hj

lemma Owned.construct [Inhabited K] [Inhabited V] (h : Owned t es ms) :
    Owned ⟨(make t.heap).1, t.lists ++ [(make t.heap).2]⟩
      (Function.update es t.lists.length []) (ms ++ [.empty]) := by
  obtain ⟨hnew, hframe⟩ := make_loose h.inv.unused
  refine ⟨?_, fun p hp => ?_, by simp [h.length], fun j m hj => ?_⟩
  · refine h.inv.put (fun j s₁ => getElem?_snoc_some) ⟨⟨_, hnew⟩, asc_nil⟩ fun x s₁ _ hx => ?_
    obtain ⟨L, hloose⟩ := (h.inv.good x s₁ hx).loose
    refine ⟨⟨⟨L, hloose.frame hframe hnew.unused (by simp)⟩, (h.inv.good x s₁ hx).asc⟩, ?_⟩
    intro p hp hp'
    have hbrk : p = t.heap.brk := List.mem_singleton.mp hp'
    exact absurd (hloose.foot_lt hp) (hbrk ▸ Nat.lt_irrefl _)
  · by_cases hb : p = t.heap.brk
    · refine ⟨t.lists.length, (make t.heap).2, List.getElem?_concat_length, ?_⟩
      rw [Function.update_self]
      exact List.mem_singleton.mpr hb
    · have halive : t.heap.node p ≠ none := by simpa [make, Heap.new, hb] using hp
      obtain ⟨j, s₁, hj, hin⟩ := h.covered p halive
      have hlt := (List.getElem?_eq_some_iff.mp hj).1
      exact ⟨j, s₁, by rwa [List.getElem?_append_left hlt], by rwa [Function.update_of_ne hlt.ne]⟩
  · rcases getElem?_snoc_some hj with ⟨rfl, rfl⟩ | ⟨hne, hj⟩
    · rw [h.length, Function.update_self]
      rfl
    · rw [h.length] at hne
      rw [Function.update_of_ne hne]
      exact h.maps j m hj

lemma Owned.swap (h : Owned t es ms) (hl : t.lists[l]? = some s) (hx : t.lists[x]? = some s') :
    Owned ⟨t.heap, (t.lists.set l (swap s s').1).set x (swap s s').2⟩ (es ∘ Equiv.swap l x)
      ((ms.set l (ms.getD x .empty)).set x (ms.getD l .empty)) := by
  have hltl : l < t.lists.length := (List.getElem?_eq_some_iff.mp hl).1
  have hltx : x < t.lists.length := (List.getElem?_eq_some_iff.mp hx).1
  have hget {j : ℕ} (hj : j < t.lists.length) : ms[j]? = some (ms.getD j .empty) := by
    rw [← h.length] at hj
    simp [List.getD, List.getElem?_eq_getElem hj]
  refine ⟨h.inv.swap hl hx, fun p hp => ?_, by simp [h.length], fun j m hj => ?_⟩
  · obtain ⟨j, s₁, hj, hin⟩ := h.covered p hp
    have hlt := (List.getElem?_eq_some_iff.mp hj).1
    obtain ⟨s₂, hs₂⟩ : ∃ s₂, ((t.lists.set l (SkipWholeModel.swap s s').1).set x
        (SkipWholeModel.swap s s').2)[Equiv.swap l x j]? = some s₂ := by
      refine ⟨_, List.getElem?_eq_getElem ?_⟩
      rw [List.length_set, List.length_set, Equiv.swap_apply_def]
      split_ifs <;> assumption
    obtain ⟨s₀, tail, hs₀, rfl⟩ := swap_lists hl hx hs₂
    rw [Equiv.swap_apply_self, hj] at hs₀
    cases hs₀
    exact ⟨_, _, hs₂, by rwa [Function.comp_apply, Equiv.swap_apply_self]⟩
  · rw [Function.comp_apply]
    rcases getElem?_set_some hj with ⟨rfl, rfl⟩ | ⟨hjx, hj⟩
    · rw [Equiv.swap_apply_right]
      exact h.maps l _ (hget hltl)
    · rcases getElem?_set_some hj with ⟨rfl, rfl⟩ | ⟨hjl, hj⟩
      · rw [Equiv.swap_apply_left]
        exact h.maps x _ (hget hltx)
      · rw [Equiv.swap_apply_of_ne_of_ne hjl hjx]
        exact h.maps j m hj

lemma Owned.clear (h : Owned t es ms) (hl : t.lists[l]? = some s) :
    ∃ H', clear t.heap s = some (H', cleared s) ∧
      Owned ⟨H', t.lists.set l (cleared s)⟩ (Function.update es l []) (ms.set l .empty) := by
  obtain ⟨H', e', hw⟩ := clear_works (h.inv.good l s hl)
  exact ⟨H', e', h.set hl hw rfl⟩

/-- **One action.** -/
theorem step_owned [Inhabited K] [Inhabited V] (h : Owned t es ms) {a : Act K V}
    (ha : Named t a) :
    ∃ t', step C t a = some t' ∧ ∃ es', Owned t' es' (refAct ms a) := by
  cases a with
  | construct => exact ⟨_, rfl, _, h.construct⟩
  | op l op gen =>
    obtain ⟨s, hl, hv⟩ := ha
    have hlt : l < ms.length := h.length ▸ (List.getElem?_eq_some_iff.mp hl).1
    have hm := h.maps l _ (List.getElem?_eq_getElem hlt)
    obtain ⟨H', s', e', he, hw, hm'⟩ := exec_works C (h.inv.good l s hl) hm op gen hv
    refine ⟨⟨H', t.lists.set l s'⟩, by simp [step, Option.mem_def.mp hl, he],
      Function.update es l e', ?_⟩
    have hmod : refAct ms (.op l op gen) = ms.set l (refStep ms[l] op) := by
      rw [refAct, List.modify_eq_set_getElem?, List.getElem?_eq_getElem hlt]
      rfl
    exact hmod ▸ h.set hl hw hm'
  | clear l =>
    have hl : t.lists[l]? = some t.lists[l] := List.getElem?_eq_getElem ha
    obtain ⟨H', e', ho⟩ := h.clear hl
    exact ⟨_, by simp [step, hl, e'], _, ho⟩
  | swap l x =>
    obtain ⟨hltl, hltx⟩ := ha
    have hl : t.lists[l]? = some t.lists[l] := List.getElem?_eq_getElem hltl
    have hx : t.lists[x]? = some t.lists[x] := List.getElem?_eq_getElem hltx
    exact ⟨_, by simp [step, hl, hx], _, h.swap hl hx⟩
  | assign l x gens =>
    obtain ⟨hltl, hltx⟩ := ha
    have hl : t.lists[l]? = some t.lists[l] := List.getElem?_eq_getElem hltl
    have hx : t.lists[x]? = some t.lists[x] := List.getElem?_eq_getElem hltx
    by_cases hlx : l = x
    · subst hlx
      obtain ⟨H', e', hw⟩ := assign_self_works C (h.inv.good l _ hl) gens
      refine ⟨⟨H', t.lists.set l (cleared t.lists[l])⟩, by simp [step, hl, e'],
        Function.update es l [], ?_⟩
      rw [refAct, if_pos rfl]
      exact h.set hl hw rfl
    · obtain ⟨H', s', e', he, hw, hm⟩ := assign_works C (h.inv.good l _ hl) (h.inv.good x _ hx)
        (h.inv.apart l x _ _ hlx hl hx) gens
      have hlt : x < ms.length := h.length ▸ hltx
      refine ⟨⟨H', t.lists.set l s'⟩, by simp [step, hl, hx, he], Function.update es l e', ?_⟩
      have hget : ms.getD x .empty = ms[x] := by simp [List.getD, List.getElem?_eq_getElem hlt]
      rw [refAct, if_neg hlx, hget]
      exact h.set hl hw (hm.trans (h.maps x _ (List.getElem?_eq_getElem hlt)))

/-- The lists of the store that are not `gone` are still there, and nothing else is. -/
structure Left (t : Store K V) (es : ℕ → List (Entry K V)) (gone : List ℕ) (H : Heap K V) :
    Prop where
  good : ∀ l s, l ∉ gone → t.lists[l]? = some s → Good H s (es l)
  covered : ∀ p, H.node p ≠ none → ∃ l s, l ∉ gone ∧ t.lists[l]? = some s ∧ p ∈ foot s (es l)

lemma left_destroy (hi : Inv t es) {gone : List ℕ} (h : Left t es gone H) (hl : l ∉ gone)
    (hs : t.lists[l]? = some s) : ∃ H', destroy H s = some H' ∧ Left t es (l :: gone) H' := by
  obtain ⟨H', e', hfree, hother⟩ := destroy_works (h.good l s hl hs)
  refine ⟨H', e', fun x s' hx hs' => ?_, fun p hp => ?_⟩
  · obtain ⟨hne, hx⟩ := not_or.mp (List.mem_cons.not.mp hx)
    exact hother s' (es x) (h.good x s' hx hs') (hi.apart l x s s' (Ne.symm hne) hs hs')
  · obtain ⟨halive, hout⟩ := hfree p hp
    obtain ⟨x, s', hx, hs', hin⟩ := h.covered p halive
    refine ⟨x, s', List.mem_cons.not.mpr (not_or.mpr ⟨?_, hx⟩), hs', hin⟩
    rintro rfl
    rw [hs] at hs'
    cases hs'
    exact hout hin

lemma left_destroys (hi : Inv t es) {gone order : List ℕ} (h : Left t es gone H)
    (hn : (order.reverse ++ gone).Nodup) (hr : ∀ l ∈ order, l < t.lists.length) :
    ∃ H', t.destroys H order = some H' ∧ Left t es (order.reverse ++ gone) H' := by
  induction order generalizing gone H with
  | nil => exact ⟨H, rfl, h⟩
  | cons l order ih =>
    rw [List.reverse_cons, List.append_assoc] at hn ⊢
    have hl : l ∉ gone := (List.nodup_cons.mp (List.nodup_append.mp hn).2.1).1
    obtain ⟨s, hs⟩ : ∃ s, t.lists[l]? = some s :=
      ⟨_, List.getElem?_eq_getElem (hr l List.mem_cons_self)⟩
    obtain ⟨H₁, e₁, h₁⟩ := left_destroy hi h hl hs
    obtain ⟨H', e', h'⟩ := ih h₁ hn fun x hx => hr x (List.mem_cons_of_mem _ hx)
    exact ⟨H', by simpa [Store.destroys, hs, e₁] using e', h'⟩

lemma owned_empty : Owned (Store.empty : Store K V) (fun _ => []) [] where
  inv := ⟨fun _ _ => rfl, fun _ _ h => (nomatch h), fun _ _ _ _ _ h => (nomatch h)⟩
  covered := fun _ h => absurd rfl h
  length := rfl
  maps := fun _ _ h => nomatch h

lemma Owned.answers (h : Owned t es ms) (hl : t.lists[l]? = some s)
    (hg : Good H s (es l)) : ∃ m, ms[l]? = some m ∧ Answers C (H, s) m := by
  have hlt : l < ms.length := h.length ▸ (List.getElem?_eq_some_iff.mp hl).1
  have hm := List.getElem?_eq_getElem hlt
  exact ⟨ms[l], hm, answers_of_good C hg (h.maps l _ hm)⟩

end Stores

/-! ### Every run -/

variable [Inhabited K] [Inhabited V]

lemma run_owned {acts : List (Act K V)} (h : Along (step C) Named Store.empty acts) :
    ∃ t es, Runs.exec (step C) Store.empty acts = some t ∧ Owned t es (acts.foldl refAct []) := by
  obtain ⟨t, e, es, ho⟩ := exec_refines (R := fun t ms => ∃ es, Owned t es ms)
    (fun t ms a hr ha => by
      obtain ⟨es, ho⟩ := hr
      exact step_owned C ho ha) ⟨_, owned_empty⟩ h
  exact ⟨t, es, e, ho⟩

/-- Some of the lists get a tail that is not their last node, and one is assigned to itself. -/
abbrev shared : List (Act ℕ ℕ) :=
  [.construct, .construct, .op 0 (.insert (2, 20)) fun _ => 0, .op 0 (.insert (1, 10)) fun _ => 1,
    .swap 0 1, .assign 0 1 fun _ _ => 0, .op 1 (.eraseKey 1) fun _ => 1, .clear 0,
    .op 0 (.index 7) fun _ => 0, .construct, .assign 2 2 fun _ _ => 1]

/-- **Nothing leaks and nothing is freed twice.** The lists can be destroyed in any order; those
that are left still answer, and after the last one the memory is empty. -/
theorem store_destroys {acts : List (Act K V)} (h : Along (step C) Named Store.empty acts) :
    ∃ t, Runs.exec (step C) Store.empty acts = some t ∧
      ∀ order : List ℕ, order.Nodup → (∀ l ∈ order, l < t.lists.length) →
        ∃ H', t.destroys t.heap order = some H' ∧
          (∀ l s, l ∉ order → t.lists[l]? = some s →
            ∃ m, (acts.foldl refAct [])[l]? = some m ∧ Answers C (H', s) m) ∧
          (order.length = t.lists.length → ∀ p, H'.node p = none) := by
  obtain ⟨t, es, e, ho⟩ := run_owned C h
  refine ⟨t, e, fun order hn hr => ?_⟩
  have hleft : Left t es [] t.heap :=
    ⟨fun l s _ hs => ho.inv.good l s hs, fun p hp => by
      obtain ⟨l, s, hs, hin⟩ := ho.covered p hp
      exact ⟨l, s, List.not_mem_nil, hs, hin⟩⟩
  obtain ⟨H', e', h'⟩ := left_destroys ho.inv hleft (by simpa using hn) hr
  rw [List.append_nil] at h'
  refine ⟨H', e', fun l s hl hs => ?_, fun hall p => ?_⟩
  · exact ho.answers C hs (h'.good l s (List.mem_reverse.not.mpr hl) hs)
  · by_contra halive
    obtain ⟨l, s, hl, hs, -⟩ := h'.covered p halive
    -- the order has every place, so there is no list left to have the node
    have hsub : order ⊆ List.range t.lists.length := fun x hx => List.mem_range.mpr (hr x hx)
    have hperm : order.Perm (List.range t.lists.length) :=
      (hn.subperm hsub).perm_of_length_le (by simp [hall])
    exact hl (List.mem_reverse.mpr (hperm.mem_iff.mpr
      (List.mem_range.mpr (List.getElem?_eq_some_iff.mp hs).1)))

theorem store_destroys_shared : Along (step (defaultComparator ℕ)) Named Store.empty shared ∧
    ∃ t, Runs.exec (step (defaultComparator ℕ)) Store.empty shared = some t ∧
      ∀ order : List ℕ, order.Nodup → (∀ l ∈ order, l < t.lists.length) →
        ∃ H', t.destroys t.heap order = some H' ∧
          (∀ l s, l ∉ order → t.lists[l]? = some s →
            ∃ m, (shared.foldl refAct [])[l]? = some m ∧ Answers (defaultComparator ℕ) (H', s) m) ∧
          (order.length = t.lists.length → ∀ p, H'.node p = none) := by
  have h : Along (step (defaultComparator ℕ)) Named Store.empty shared := by decide
  exact ⟨h, store_destroys _ h⟩

end Libchef.SkipStore
