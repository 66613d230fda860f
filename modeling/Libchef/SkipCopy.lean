import Libchef.SkipPlain
import Libchef.SkipQuery

/-!
Copies of a skip list.

A copy is a new list filled by the range insertion. Each search of it resumes at the node put
in before, with a cache that is in part left over from earlier rounds, so the levels above
level `0` can come out of key order. Level `0` does not, and every level has all the nodes
that belong on it; the answers of a list depend on nothing else.
-/

namespace Libchef.SkipCopy

open Libchef.SkipModel Libchef.SkipWholeModel Libchef.SkipRep Libchef.SkipInsert
open Libchef.SkipLoose Libchef.SkipAssign Libchef.SkipReverse Libchef.SkipPlain
open Libchef.SkipRefine Libchef.SkipQuery Libchef.Chain Libchef.Ordered Libchef.Runs

variable {K V : Type}

/-! ### The levels -/

/-- Every level is a chain, linked in both directions and ended by a null pointer, of the
nodes that the forward iteration visits and that are taller than the level. -/
def Chained (H : Heap K V) (s : Skiplist) : Prop :=
  ∃ first nodes, begin_ H s = some first ∧ Visits (incr H) first nodes ∧
    ∀ i < maxHeight_, ∃ ps, Linked (next H i) (prev H i) s.head_ ps none ∧ ps.Nodup ∧
      (∀ p ∈ s.head_ :: ps, HasLevel H p i) ∧
      ∀ p, p ∈ ps ↔ p ∈ nodes ∧ ∃ n, H.height p = some n ∧ i < n

variable {H H' : Heap K V} {s x : Skiplist} {es ex : List (Entry K V)} {L : ℕ → List Ptr}

lemma chained_of_loose (h : Loose H s es L) : Chained H s := by
  refine ⟨_, _, h.begin_eq, visits_forward (A := []) (B := es) h, fun i hi => ?_⟩
  refine ⟨L i, h.linked i hi, (List.nodup_cons.mp (h.nodup_level i)).2,
    fun p hp => (h.cell hi hp).1, fun p => ?_⟩
  rw [h.mem_level]
  constructor
  · rintro ⟨e, he, hie, rfl⟩
    exact ⟨List.mem_map_of_mem he, e.ht, height_of_hdr (h.node e he), hie⟩
  · rintro ⟨hp, n, hn, hin⟩
    obtain ⟨e, he, rfl⟩ := List.mem_map.mp hp
    rw [height_of_hdr (h.node e he)] at hn
    cases hn
    exact ⟨e, he, hin, rfl⟩

/-! ### The copy -/

lemma make_apart [Inhabited K] [Inhabited V] (h : Loose H x ex L) :
    ∀ p ∈ foot x ex, p ∉ foot (make H).2 ([] : List (Entry K V)) := by
  intro p hp hp'
  obtain rfl : p = H.brk := List.mem_singleton.mp hp'
  exact Nat.lt_irrefl _ (h.foot_lt hp)

variable [LinearOrder K] (C : KeyCompare K)

/-- The list `s` in the memory `H'` is a copy of the list `x` in the memory `H`: it has the
iteration, the size and every answer of `x`, and its levels are chains. The list `x` has kept
its answers. -/
structure Copied (H : Heap K V) (x : Skiplist) (H' : Heap K V) (s : Skiplist) : Prop where
  copies : Copies H x H' s
  chained : Chained H' s
  answers : ∃ m, Answers C (H, x) m ∧ Answers C (H', x) m ∧ Answers C (H', s) m

lemma copied_of_good (hx : Good H x ex) (hx' : Good H' x ex) (hs : Good H' s es)
    (hkv : es.map Entry.kv = ex.map Entry.kv) : Copied C H x H' s := by
  obtain ⟨L, hl⟩ := hx.loose
  obtain ⟨L', hl'⟩ := hs.loose
  let m : OrderedMap K V := ⟨ex.map Entry.kv, List.pairwise_map.mpr hx.asc⟩
  exact ⟨copies_of_entries hl hl' hkv, chained_of_loose hl', m, answers_of_good C hx rfl,
    answers_of_good C hx' rfl, answers_of_good C hs hkv⟩

/-- **A new list filled from another one.** -/
lemma filled [Inhabited K] [Inhabited V] (hx : Good H x ex) {fuel : ℕ} (hf : ex.length < fuel)
    (gens : ℕ → ℕ → ℕ) :
    ∃ H' s es, insertRangeEffective_ C fuel (make H).1 (make H).2 gens
        ((ex.head?).map Entry.ptr) none = some (H', s) ∧
      Good H' s es ∧ Good H' x ex ∧ es.map Entry.kv = ex.map Entry.kv := by
  obtain ⟨L, hl⟩ := hx.loose
  obtain ⟨hnew, hframe⟩ := make_loose hl.unused
  have hl₁ : Loose (make H).1 x ex L := hl.frame hframe hnew.unused (by simp)
  have hapart := make_apart hl
  obtain ⟨H', s, es, e', hm, -, -, hkv, -⟩ := insertRange_copies C (Q := []) hl₁ hx.asc
    ⟨⟨_, hnew⟩, asc_nil⟩ rfl hapart (c := Cache.fresh) (fun hne => absurd rfl hne) hf gens
  exact ⟨H', s, es, e', hm.good, ⟨⟨L, (hm.other hl₁ hapart).1⟩, hx.asc⟩, hkv⟩

/-- **Copies are as good as the source.** Of any list reached by operations on elements, and
whatever heights are drawn, the copy constructor, and the constructor from the range between
`begin()` and `end()`, make a list with the iteration, the size and the answers of the source;
all its levels are chains of the nodes that belong on them. -/
theorem copies_answer [Inhabited K] [Inhabited V] {acts : List (Act K V)} {t : Store K V} {l : ℕ}
    (hp : Along (step C) PlainStep Store.empty acts)
    (e : Runs.exec (step C) Store.empty acts = some t) (hx : t.lists[l]? = some x)
    (gens : ℕ → ℕ → ℕ) :
    (∃ H' s, copy C t.heap x gens = some (H', s) ∧ Copied C t.heap x H' s) ∧
      ∀ fuel > size x, ∃ first H' s, begin_ t.heap x = some first ∧
        makeRange C fuel t.heap gens first none = some (H', s) ∧ Copied C t.heap x H' s := by
  obtain ⟨es, h⟩ := run_plain C hp e
  have hg := h.inv.good l x hx
  obtain ⟨L, hl⟩ := hg.loose
  obtain ⟨hnew, hframe⟩ := make_loose hl.unused
  have hl₁ : Loose (make t.heap).1 x (es l) L := hl.frame hframe hnew.unused (by simp)
  constructor
  · obtain ⟨H', s, e', he, hs, hx', hkv⟩ := filled C hg
      (show (es l).length < x.fuel by simp [Skiplist.fuel, hl.num]) gens
    exact ⟨H', s, by simpa [copy, hl₁.begin_eq] using he, copied_of_good C hg hx' hs hkv⟩
  · intro fuel hf
    obtain ⟨H', s, e', he, hs, hx', hkv⟩ := filled C hg (by rwa [size, hl.num] at hf) gens
    exact ⟨_, H', s, hl.begin_eq, he, copied_of_good C hg hx' hs hkv⟩

/-- A list of three elements. -/
def threeElements : List (Act ℕ ℕ) :=
  [.construct, .op 0 (.insert (2, 20)) fun _ => 1, .op 0 (.index 1) fun _ => 0,
    .op 0 (.insert (3, 30)) fun i => i]

/-- It is copied with the heights one, two and two. -/
theorem copies_answer_three :
    let C := defaultComparator ℕ
    let gens : ℕ → ℕ → ℕ := fun n i => if n = 0 then 1 else i
    ∃ t x, Runs.exec (step C) Store.empty threeElements = some t ∧ t.lists[0]? = some x ∧
      (∃ H' s, copy C t.heap x gens = some (H', s) ∧ Copied C t.heap x H' s) ∧
      ∀ fuel > size x, ∃ first H' s, begin_ t.heap x = some first ∧
        makeRange C fuel t.heap gens first none = some (H', s) ∧ Copied C t.heap x H' s :=
  ⟨_, _, rfl, rfl, copies_answer (l := 0) (defaultComparator ℕ)
    (show Along _ PlainStep Store.empty threeElements by decide) rfl rfl _⟩

end Libchef.SkipCopy
