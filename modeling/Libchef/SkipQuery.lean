import Libchef.SkipRefine
import Libchef.SkipLoose

/-!
What a skip list answers.

Every search of the interface comes down to the entries below a key, the entry with that key
if there is one, and the entries above. The reference counts the same three parts, so an
iterator returned by the skip list is the one at the position the reference names.
-/

namespace Libchef.SkipQuery

open Libchef.SkipModel Libchef.SkipRep Libchef.SkipFind Libchef.SkipLoose Libchef.SkipRefine
open Libchef.Chain Libchef.Ordered

variable {K V : Type} [LinearOrder K] (C : KeyCompare K)

section Searches

variable {H : Heap K V} {s : Skiplist} {es : List (Entry K V)} {k : K} {m : OrderedMap K V}

lemma lowerRank_eq (hm : es.map Entry.kv = m.entries) (k : K) :
    m.lowerRank k = (below Entry.key k es).length := by
  rw [OrderedMap.lowerRank, ← hm, List.countP_map, List.countP_eq_length_filter]
  rfl

lemma get?_eq (hm : es.map Entry.kv = m.entries) (k : K) :
    m.get? k = (es.find? fun e => e.key = k).map fun e => e.kv.2 := by
  rw [OrderedMap.get?, lookup, ← hm, List.find?_map, Option.map_map]
  rfl

/-- The three parts of the entries where the key is there. -/
lemma parts_present (h : Asc Entry.key es) (hm : es.map Entry.kv = m.entries) {e : Entry K V}
    (he : e ∈ es) :
    ∃ r, es = below Entry.key e.key es ++ e :: r ∧ m.get? e.key = some e.kv.2 ∧
      m.lowerRank e.key = (below Entry.key e.key es).length ∧
      m.upperRank e.key = (below Entry.key e.key es).length + 1 := by
  obtain ⟨r, hr, hgt⟩ := h.atLeast_eq_cons he
  have hsplit := h.split e.key
  rw [hr] at hsplit
  refine ⟨r, hsplit.symm, ?_, lowerRank_eq hm _, ?_⟩
  · rw [get?_eq hm]
    cases hf : es.find? fun e' => e'.key = e.key with
    | none => simpa using List.find?_eq_none.mp hf e he
    | some e' =>
      have hk : e'.key = e.key := by simpa using List.find?_some hf
      rw [h.eq_of_key (List.mem_of_find?_eq_some hf) he hk]
      rfl
  · have hlow : (below Entry.key e.key es).countP (fun x => x.key ≤ e.key) =
        (below Entry.key e.key es).length :=
      List.countP_eq_length.mpr fun x hx => by simpa using (mem_below.mp hx).2.le
    have hhigh : r.countP (fun x => x.key ≤ e.key) = 0 :=
      List.countP_eq_zero.mpr fun x hx => by simpa using hgt x hx
    rw [OrderedMap.upperRank, ← hm, List.countP_map]
    show es.countP (fun x => x.key ≤ e.key) = _
    conv_lhs => rw [← hsplit]
    rw [List.countP_append, List.countP_cons, hlow, hhigh]
    simp

lemma parts_absent (h : Asc Entry.key es) (hm : es.map Entry.kv = m.entries)
    (hk : ∀ e ∈ es, e.key ≠ k) :
    es = below Entry.key k es ++ atLeast Entry.key k es ∧ m.get? k = none ∧
      m.lowerRank k = (below Entry.key k es).length ∧
      m.upperRank k = (below Entry.key k es).length := by
  refine ⟨(h.split k).symm, ?_, lowerRank_eq hm _, ?_⟩
  · rw [get?_eq hm, List.find?_eq_none.mpr (by simpa using hk)]
    rfl
  · rw [OrderedMap.upperRank, ← hm, List.countP_map, List.countP_eq_length_filter]
    show (es.filter fun x => decide (x.key ≤ k)).length = (es.filter _).length
    congr 1
    refine List.filter_congr fun x hx => ?_
    rw [decide_eq_decide]
    exact ⟨fun hle => lt_of_le_of_ne hle (hk x hx), le_of_lt⟩

lemma iterAt_split {A B : List (Entry K V)} (h : Good H s es) (hs : es = A ++ B) :
    iterAt H s A.length = some ((B.head?).map Entry.ptr) := by
  obtain ⟨L, hl⟩ := h.loose
  subst hs
  rw [hl.iterAt_eq (by simp), List.getElem?_append_right le_rfl, Nat.sub_self,
    List.head?_eq_getElem?]

lemma find_present (h : Good H s es) {e : Entry K V} (he : e ∈ es) :
    find C H s e.key = some (some e.ptr) := by
  rcases find_good C h e.key with ⟨x, hx, hk, hf⟩ | ⟨habs, -⟩
  · rw [hf, h.asc.eq_of_key hx he hk]
  · exact absurd rfl (habs e he)

lemma find_absent (h : Good H s es) (hk : ∀ e ∈ es, e.key ≠ k) : find C H s k = some none := by
  rcases find_good C h k with ⟨e, he, hek, -⟩ | ⟨-, hf⟩
  · exact absurd hek (hk e he)
  · exact hf

lemma bounds_absent (h : Good H s es) (hk : ∀ e ∈ es, e.key ≠ k) :
    let p := ((atLeast Entry.key k es).head?).map Entry.ptr
    lowerBound C H s k = some p ∧ upperBound C H s k = some p ∧
      equalRange C H s k = some (p, p) := by
  intro p
  obtain ⟨L, hl⟩ := h.loose
  rcases findCached_good C h k with ⟨e, he, hek, -⟩ | ⟨-, c, hc, hslots⟩
  · exact absurd hek (hk e he)
  -- slot `0` names the last node below the key, and its successor is the bound
  obtain ⟨d, hd, hst⟩ := hslots.place 0 hl.current_pos
  have hlev := level_eq (hst.hasLevel hl (show 0 < maxHeight_ by decide))
  have hsplit : Loose H s (below Entry.key k es ++ atLeast Entry.key k es) L := by
    rw [h.asc.split]
    exact hl
  have hnext : next H 0 d = p := by
    rw [Option.some.inj (hd.symm.trans hslots.zero)]
    exact hsplit.next_last
  simp [lowerBound, upperBound, equalRange, hc, hd, hlev, hnext]

lemma bounds_present {A B : List (Entry K V)} {e : Entry K V} (h : Good H s es)
    (hs : es = A ++ e :: B) :
    let p := (B.head?).map Entry.ptr
    lowerBound C H s e.key = some (some e.ptr) ∧ upperBound C H s e.key = some p ∧
      equalRange C H s e.key = some (some e.ptr, p) := by
  intro p
  obtain ⟨L, hl⟩ := h.loose
  subst hs
  rcases findCached_good C h e.key with ⟨x, hx, hk, c, hc⟩ | ⟨habs, -⟩
  · rw [h.asc.eq_of_key hx (by simp) hk] at hc
    have hlev : HasLevel H e.ptr 0 := hl.hasLevel (by simp) (hl.pos e (by simp))
    simp [lowerBound, upperBound, equalRange, hc, hl.incr_eq, level_eq hlev, hl.next_entry, p]
  · exact absurd rfl (habs e (by simp))

end Searches

/-! ### The answers -/

/-- What is asked about a key has the answer of the map: an iterator is the one at the
position the map gives. -/
structure AnswersAt (t : Heap K V × Skiplist) (m : OrderedMap K V) (k : K) : Prop where
  find : ∃ it, find C t.1 t.2 k = some it ∧ iterAt t.1 t.2 (m.findRank k) = some it
  count : count C t.1 t.2 k = some (if (m.get? k).isSome then 1 else 0)
  at_ : at_ C t.1 t.2 k = some (m.get? k)
  lowerBound : ∃ it, lowerBound C t.1 t.2 k = some it ∧
    iterAt t.1 t.2 (m.lowerRank k) = some it
  upperBound : ∃ it, upperBound C t.1 t.2 k = some it ∧
    iterAt t.1 t.2 (m.upperRank k) = some it
  equalRange : ∃ it it', equalRange C t.1 t.2 k = some (it, it') ∧
    iterAt t.1 t.2 (m.lowerRank k) = some it ∧ iterAt t.1 t.2 (m.upperRank k) = some it'

/-- Everything that can be asked of a skip list has the answer of the map. Positions up to
the end are told apart. -/
structure Answers (t : Heap K V × Skiplist) (m : OrderedMap K V) : Prop where
  contents : contents t.1 t.2 = some m.entries
  size : size t.2 = m.size
  distinct : ∀ n ≤ m.size, ∀ n' ≤ m.size, iterAt t.1 t.2 n = iterAt t.1 t.2 n' → n = n'
  last : iterAt t.1 t.2 m.size = some none
  key : ∀ k, AnswersAt C t m k

section Answer

variable {H : Heap K V} {s : Skiplist} {es : List (Entry K V)} {k : K} {m : OrderedMap K V}

lemma answersAt_present (h : Good H s es) (hm : es.map Entry.kv = m.entries) {e : Entry K V}
    (he : e ∈ es) : AnswersAt C (H, s) m e.key := by
  obtain ⟨L, hloose⟩ := h.loose
  obtain ⟨r, hs, hget, hlow, hup⟩ := parts_present h.asc hm he
  have hfind := find_present C h he
  obtain ⟨h1, h2, h3⟩ := bounds_present C h hs
  have hl : iterAt H s (m.lowerRank e.key) = some (some e.ptr) := by
    rw [hlow, iterAt_split h hs]; rfl
  have hu : iterAt H s (m.upperRank e.key) = some ((r.head?).map Entry.ptr) := by
    rw [hup, ← iterAt_split (A := below Entry.key e.key es ++ [e]) h (by simpa using hs)]
    simp
  refine ⟨⟨_, hfind, ?_⟩, ?_, ?_, ⟨_, h1, hl⟩, ⟨_, h2, hu⟩, ⟨_, _, h3, hl, hu⟩⟩
  · simpa [OrderedMap.findRank, hget] using hl
  · simp [count, hfind, hget]
  · simp [at_, hfind, hget, kv_of_hdr (hloose.node e he)]

lemma answersAt_absent (h : Good H s es) (hm : es.map Entry.kv = m.entries)
    (hk : ∀ e ∈ es, e.key ≠ k) (hlast : iterAt H s m.size = some none) :
    AnswersAt C (H, s) m k := by
  obtain ⟨hs, hget, hlow, hup⟩ := parts_absent h.asc hm hk
  have hfind := find_absent C h hk
  obtain ⟨h1, h2, h3⟩ := bounds_absent C h hk
  have hl := iterAt_split h hs
  refine ⟨⟨_, hfind, ?_⟩, ?_, ?_, ⟨_, h1, ?_⟩, ⟨_, h2, ?_⟩, ⟨_, _, h3, ?_, ?_⟩⟩
  · simpa [OrderedMap.findRank, hget] using hlast
  · simp [count, hfind, hget]
  · simp [at_, hfind, hget]
  all_goals simpa [hlow, hup] using hl

/-- **A list answers for its bindings**, whatever the order of its higher levels. -/
theorem answers_of_good (h : Good H s es) (hm : es.map Entry.kv = m.entries) :
    Answers C (H, s) m := by
  obtain ⟨L, hl⟩ := h.loose
  have hlen : m.size = es.length := by rw [OrderedMap.size, ← hm, List.length_map]
  have hlast : iterAt H s m.size = some none := by
    rw [hl.iterAt_eq (by omega), hlen, List.getElem?_eq_none le_rfl]; rfl
  refine ⟨by rw [hl.contents_eq, hm], by rw [SkipModel.size, hl.num, hlen],
    fun n hn n' hn' he => hl.iterAt_inj (by omega) (by omega) he, hlast, fun k => ?_⟩
  by_cases hk : ∃ e ∈ es, e.key = k
  · obtain ⟨e, he, rfl⟩ := hk
    exact answersAt_present C h hm he
  · simp only [not_exists, not_and] at hk
    exact answersAt_absent C h hm hk hlast

/-- **A represented map is answered for.** -/
theorem answers_of_refines {t : Heap K V × Skiplist} (h : Refines t m) : Answers C t m := by
  obtain ⟨es, hr, hm⟩ := h
  exact answers_of_good C ⟨⟨_, hr.loose⟩, hr.asc⟩ hm

end Answer

/-- **A skip list is an ordered map.** Whatever operations are made on a new skip list and
whatever its random generator gives, it answers as the ordered map that processed the same
operations; the generator does not occur in what that map is. -/
theorem skiplist_refines_map [Inhabited K] [Inhabited V] (ops : List (Op K V × (ℕ → ℕ)))
    (hv : ValidFrom .empty (ops.map Prod.fst)) :
    ∃ t, run C ops = some t ∧ Answers C t (refRun (ops.map Prod.fst)) := by
  obtain ⟨t, e, h⟩ := foldlM_refines C ops make_refines hv
  exact ⟨t, e, answers_of_refines C h⟩

/-- Three keys, one of them twice, and an erase through an iterator. -/
theorem skiplist_refines_map_run :
    ValidFrom (K := ℕ) (V := ℕ) .empty
        [.insert (2, 20), .index 1, .insert (2, 21), .insert (3, 30), .eraseAt 0] ∧
      ∃ t, run (defaultComparator ℕ) [(.insert (2, 20), fun _ => 0), (.index 1, fun _ => 1),
          (.insert (2, 21), fun _ => 1), (.insert (3, 30), fun i => i), (.eraseAt 0, fun _ => 1)]
            = some t ∧
        Answers (defaultComparator ℕ) t (refRun
          [.insert (2, 20), .index 1, .insert (2, 21), .insert (3, 30), .eraseAt 0]) := by
  have hv : ValidFrom (K := ℕ) (V := ℕ) .empty
      [.insert (2, 20), .index 1, .insert (2, 21), .insert (3, 30), .eraseAt 0] := by
    simp [ValidFrom, Valid, refStep, OrderedMap.insertNew, OrderedMap.alter, OrderedMap.empty,
      OrderedMap.size, upsert]
  exact ⟨hv, skiplist_refines_map _ _ hv⟩

end Libchef.SkipQuery
