import Libchef.SkipFind
import Libchef.SkipInsert
import Libchef.SkipErase

/-!
A skip list is an ordered map.

The reference is an ordered map that processes the same operations; it knows nothing of
nodes, levels or heights. Every operation takes a skip list that represents some entries to
one that represents the entries the reference then has, whatever height is drawn, and every
question is answered with the position the reference gives.
-/

namespace Libchef.SkipRefine

open Libchef.SkipModel Libchef.SkipRep Libchef.SkipFind Libchef.SkipInsert Libchef.SkipErase
open Libchef.Chain Libchef.Ordered

variable {K V : Type} [LinearOrder K] (C : KeyCompare K)

/-! ### The reference -/

/-- What the reference makes of an operation. -/
def refStep [Inhabited V] (m : OrderedMap K V) : Op K V → OrderedMap K V
  | .insert val => m.insertNew val.1 val.2
  | .index k => m.insertNew k default
  | .eraseKey k => m.erase k
  | .eraseAt position => m.eraseRange position (position + 1)
  | .eraseRange first last => m.eraseRange first last

def refRun [Inhabited V] (ops : List (Op K V)) : OrderedMap K V := ops.foldl refStep .empty

/-- The positions an operation names are positions of the map: `erase` wants one it can
dereference, the range version a range. -/
def Valid (m : OrderedMap K V) : Op K V → Prop
  | .eraseAt position => position < m.size
  | .eraseRange first last => first ≤ last ∧ last ≤ m.size
  | _ => True

/-- Every operation is valid where it is made. -/
def ValidFrom [Inhabited V] (m : OrderedMap K V) : List (Op K V) → Prop
  | [] => True
  | op :: ops => Valid m op ∧ ValidFrom (refStep m op) ops

/-- The memory and the data members represent the bindings of the map. -/
def Refines (t : Heap K V × Skiplist) (m : OrderedMap K V) : Prop :=
  ∃ es, Rep t.1 t.2 es ∧ es.map Entry.kv = m.entries

section Steps

variable {H : Heap K V} {s : Skiplist} {es : List (Entry K V)} {k : K}

lemma insertNew_absent (h : Asc Entry.key es) (hk : ∀ e ∈ es, e.key ≠ k) {e : Entry K V}
    (he : e.key = k) {m : OrderedMap K V} (hm : es.map Entry.kv = m.entries) :
    (below Entry.key k es ++ e :: atLeast Entry.key k es).map Entry.kv =
      (m.insertNew k e.kv.2).entries := by
  have h₁ : ∀ x ∈ (below Entry.key k es).map Entry.kv, x.1 < k := by
    intro x hx
    obtain ⟨e, he, rfl⟩ := List.mem_map.mp hx
    exact (mem_below.mp he).2
  have h₂ : ∀ x ∈ (atLeast Entry.key k es).map Entry.kv, k < x.1 := by
    intro x hx
    obtain ⟨e, he, rfl⟩ := List.mem_map.mp hx
    exact lt_of_le_of_ne (mem_atLeast.mp he).2 (hk e (mem_atLeast.mp he).1).symm
  have hmap : es.map Entry.kv = (below Entry.key k es).map Entry.kv ++
      (atLeast Entry.key k es).map Entry.kv := by rw [← List.map_append, h.split]
  show _ = upsert _ k m.entries
  rw [← hm, hmap, upsert_between h₁ h₂, List.map_append, List.map_cons, ← he]
  rfl

lemma insert_absent (h : Rep H s es) (gen : ℕ → ℕ) (kv : K × V) (hk : ∀ e ∈ es, e.key ≠ kv.1)
    {cache : Cache} (hc : ∀ j < s.currentHeight_, cache j = some (pred s es kv.1 j))
    {m : OrderedMap K V} (hm : es.map Entry.kv = m.entries) :
    ∃ H' s' p, insert_ H s gen kv cache = some (H', s', p) ∧
      Refines (H', s') (m.insertNew kv.1 kv.2) ∧
      (∃ n, iterAt H' s' n = some (some p)) ∧ H'.kv p = some kv := by
  obtain ⟨H', s', e', hr⟩ := insert_rep h gen kv hk hc
  refine ⟨H', s', _, e', ⟨_, hr, ?_⟩,
    hr.loose.iterAt_mem (e := ⟨H.brk, randomHeight_ gen, kv⟩) (by simp),
    kv_of_hdr (hr.node ⟨H.brk, randomHeight_ gen, kv⟩ (by simp))⟩
  exact insertNew_absent h.asc hk (e := ⟨H.brk, randomHeight_ gen, kv⟩) rfl hm

lemma insertNew_present {e : Entry K V} (h : Asc Entry.key es) (he : e ∈ es) (v : V)
    {m : OrderedMap K V} (hm : es.map Entry.kv = m.entries) :
    es.map Entry.kv = (m.insertNew e.key v).entries := by
  obtain ⟨r, hr, -⟩ := h.atLeast_eq_cons he
  have hsplit := h.split e.key
  rw [hr] at hsplit
  have h₁ : ∀ x ∈ (below Entry.key e.key es).map Entry.kv, x.1 < e.key := by
    intro x hx
    obtain ⟨e', he', rfl⟩ := List.mem_map.mp hx
    exact (mem_below.mp he').2
  show _ = upsert _ e.key m.entries
  rw [← hm]
  conv_lhs => rw [← hsplit]
  conv_rhs => rw [← hsplit]
  rw [List.map_append, List.map_cons, show e.kv = (e.key, e.kv.2) from rfl, upsert_hit h₁]
  rfl

lemma insert_step (h : Rep H s es) {m : OrderedMap K V}
    (hm : es.map Entry.kv = m.entries) (gen : ℕ → ℕ) (val : K × V) :
    ∃ H' s' p b, insert C H s gen val = some (H', s', p, b) ∧
      Refines (H', s') (m.insertNew val.1 val.2) := by
  by_cases hk : ∃ e ∈ es, e.key = val.1
  · obtain ⟨e, he, hek⟩ := hk
    obtain ⟨c, hc⟩ := findCached_present C h he hek
    refine ⟨H, s, some e.ptr, false, by simp [SkipModel.insert, hc], es, h, ?_⟩
    rw [← hek]
    exact insertNew_present h.asc he val.2 hm
  · simp only [not_exists, not_and] at hk
    obtain ⟨H', s', p, e', hr, -⟩ := insert_absent h gen val hk (fill_slot Cache.fresh) hm
    exact ⟨H', s', some p, true, by simp [SkipModel.insert, findCached_absent C h hk, e'], hr⟩

lemma index_step [Inhabited V] (h : Rep H s es) {m : OrderedMap K V}
    (hm : es.map Entry.kv = m.entries) (gen : ℕ → ℕ) (k : K) :
    ∃ H' s' p, index C H s gen k = some (H', s', p) ∧
      Refines (H', s') (m.insertNew k default) := by
  by_cases hk : ∃ e ∈ es, e.key = k
  · obtain ⟨e, he, rfl⟩ := hk
    obtain ⟨c, hc⟩ := findCached_present C h he rfl
    exact ⟨H, s, e.ptr, by simp [index, hc], es, h, insertNew_present h.asc he default hm⟩
  · simp only [not_exists, not_and] at hk
    obtain ⟨H', s', p, e', hr, -⟩ := insert_absent h gen (k, default) hk (fill_slot Cache.fresh) hm
    exact ⟨H', s', p, by simpa [index, findCached_absent C h hk] using e', hr⟩

lemma find_entry (h : Rep H s es) {e : Entry K V} (he : e ∈ es) :
    find C H s e.key = some (some e.ptr) := by
  rw [find_eq C h]
  cases hf : es.find? fun e' => e'.key = e.key with
  | none => simpa using List.find?_eq_none.mp hf e he
  | some e' =>
    have hk : e'.key = e.key := by simpa using List.find?_some hf
    rw [h.asc.eq_of_key (List.mem_of_find?_eq_some hf) he hk]
    rfl

lemma eraseKey_entry {A B : List (Entry K V)} {e : Entry K V} (h : Rep H s (A ++ e :: B)) :
    ∃ H' s', eraseKey C H s e.key = some (H', s', 1) ∧ Rep H' s' (A ++ B) := by
  obtain ⟨H', s', e', -, hr⟩ := erase_rep h
  have hf := find_entry C h (e := e) (by simp)
  exact ⟨H', s', by simp [eraseKey, hf, e'], hr⟩

lemma eraseKey_step (h : Rep H s es) {m : OrderedMap K V} (hm : es.map Entry.kv = m.entries)
    (k : K) : ∃ H' s' n, eraseKey C H s k = some (H', s', n) ∧ Refines (H', s') (m.erase k) := by
  by_cases hk : ∃ e ∈ es, e.key = k
  · obtain ⟨e, he, rfl⟩ := hk
    obtain ⟨r, hr, hgt⟩ := h.asc.atLeast_eq_cons he
    have hsplit := h.asc.split e.key
    rw [hr] at hsplit
    obtain ⟨H', s', e', hrep⟩ := eraseKey_entry C (hsplit ▸ h)
    refine ⟨H', s', 1, e', _, hrep, ?_⟩
    -- the reference drops the one binding with that key
    have h₁ : ((below Entry.key e.key es).map Entry.kv).filter (fun x => x.1 ≠ e.key) =
        (below Entry.key e.key es).map Entry.kv := by
      refine List.filter_eq_self.mpr fun x hx => ?_
      obtain ⟨e', he', rfl⟩ := List.mem_map.mp hx
      exact decide_eq_true (mem_below.mp he').2.ne
    have h₂ : (r.map Entry.kv).filter (fun x => x.1 ≠ e.key) = r.map Entry.kv := by
      refine List.filter_eq_self.mpr fun x hx => ?_
      obtain ⟨e', he', rfl⟩ := List.mem_map.mp hx
      exact decide_eq_true (hgt e' he').ne'
    show _ = m.entries.filter _
    have hmap : es.map Entry.kv =
        (below Entry.key e.key es).map Entry.kv ++ e.kv :: r.map Entry.kv := by
      rw [← List.map_cons, ← List.map_append, hsplit]
    rw [← hm, hmap, List.filter_append, h₁, List.filter_cons, h₂]
    simp
  · simp only [not_exists, not_and] at hk
    have hf : es.find? (fun e => e.key = k) = none := List.find?_eq_none.mpr (by simpa using hk)
    refine ⟨H, s, 0, by simp [eraseKey, find_eq C h, hf], es, h, ?_⟩
    show _ = m.entries.filter _
    rw [← hm, List.filter_eq_self.mpr fun x hx => ?_]
    obtain ⟨e, he, rfl⟩ := List.mem_map.mp hx
    exact decide_eq_true (hk e he)

lemma eraseRange_step (h : Rep H s es) {m : OrderedMap K V} (hm : es.map Entry.kv = m.entries)
    {i j : ℕ} (hij : i ≤ j) (hj : j ≤ m.size) :
    ∃ H' s', (do eraseRange (← iterAt H s j) s.fuel H s (← iterAt H s i)) = some (H', s') ∧
      Refines (H', s') (m.eraseRange i j) := by
  have hlen : m.size = es.length := by rw [OrderedMap.size, ← hm, List.length_map]
  obtain ⟨H', s', e', hr⟩ := eraseRange_at (P := Rep) (fun h => ⟨_, h.loose⟩)
    (fun h => by
      obtain ⟨H', s', e', -, hr⟩ := erase_rep h
      exact ⟨H', s', e', hr⟩) h hij (hlen ▸ hj)
  refine ⟨H', s', e', _, hr, ?_⟩
  simp [OrderedMap.eraseRange, ← hm, max_eq_right hij, List.map_take, List.map_drop]

lemma eraseAt_step (h : Rep H s es) {m : OrderedMap K V} (hm : es.map Entry.kv = m.entries)
    {i : ℕ} (hi : i < m.size) :
    ∃ H' s', (do eraseAt C H s (← iterAt H s i)) = some (H', s') ∧
      Refines (H', s') (m.eraseRange i (i + 1)) := by
  have hlt : i < es.length := by rwa [OrderedMap.size, ← hm, List.length_map] at hi
  have hsplit : es = es.take i ++ es[i] :: es.drop (i + 1) := by
    rw [← List.drop_eq_getElem_cons hlt, List.take_append_drop]
  obtain ⟨H', s', e', hr⟩ := eraseKey_entry C (hsplit ▸ h)
  refine ⟨H', s', ?_, _, hr, ?_⟩
  · have hkv := kv_of_hdr (h.node es[i] (List.getElem_mem hlt))
    simp only [h.loose.iterAt_eq hlt.le, List.getElem?_eq_getElem hlt, Option.map_some, eraseAt,
      hkv, Option.bind_eq_bind, Option.bind_some]
    rw [show es[i].kv.1 = es[i].key from rfl, e']
    rfl
  · simp [OrderedMap.eraseRange, ← hm, List.map_take, List.map_drop]

/-- **One operation.** -/
theorem exec_refines [Inhabited V] {t : Heap K V × Skiplist} {m : OrderedMap K V}
    (h : Refines t m) (op : Op K V) (gen : ℕ → ℕ) (hv : Valid m op) :
    ∃ t', exec C t (op, gen) = some t' ∧ Refines t' (refStep m op) := by
  obtain ⟨H, s⟩ := t
  obtain ⟨es, hr, hm⟩ := h
  cases op with
  | insert val =>
    obtain ⟨H', s', p, b, e', h'⟩ := insert_step C hr hm gen val
    exact ⟨(H', s'), by simp [exec, e'], h'⟩
  | index k =>
    obtain ⟨H', s', p, e', h'⟩ := index_step C hr hm gen k
    exact ⟨(H', s'), by simp [exec, e'], h'⟩
  | eraseKey k =>
    obtain ⟨H', s', n, e', h'⟩ := eraseKey_step C hr hm k
    exact ⟨(H', s'), by simp [exec, e'], h'⟩
  | eraseAt position =>
    obtain ⟨H', s', e', h'⟩ := eraseAt_step C hr hm hv
    exact ⟨(H', s'), e', h'⟩
  | eraseRange first last =>
    obtain ⟨H', s', e', h'⟩ := eraseRange_step hr hm hv.1 hv.2
    exact ⟨(H', s'), e', h'⟩

end Steps

/-! ### Runs -/

lemma make_refines [Inhabited K] [Inhabited V] :
    Refines (make (Heap.empty : Heap K V)) .empty :=
  ⟨[], (make_loose fun _ _ => rfl).1.rep asc_nil rfl, rfl⟩

/-- A valid sequence of operations runs, and the reference keeps pace. -/
theorem foldlM_refines [Inhabited V] (ops : List (Op K V × (ℕ → ℕ))) {t : Heap K V × Skiplist}
    {m : OrderedMap K V} (h : Refines t m) (hv : ValidFrom m (ops.map Prod.fst)) :
    ∃ t', ops.foldlM (exec C) t = some t' ∧ Refines t' ((ops.map Prod.fst).foldl refStep m) := by
  induction ops generalizing t m with
  | nil => exact ⟨t, rfl, h⟩
  | cons op ops ih =>
    obtain ⟨op, gen⟩ := op
    obtain ⟨t1, e1, h1⟩ := exec_refines C h op gen hv.1
    obtain ⟨t2, e2, h2⟩ := ih h1 hv.2
    exact ⟨t2, by simp [List.foldlM_cons, e1, e2], h2⟩

end Libchef.SkipRefine
