import Libchef.Base.Ordered

/-!
Ordered maps read as circles.

The successor of a key is the binding with the smallest key above it; past the largest key the
circle begins again. It stays the successor when other bindings go, so that two circles answer
alike wherever the successor in the larger one belongs to the smaller.
-/

namespace Libchef.Ordered.OrderedMap

variable {K V : Type*} [LinearOrder K] {m m' : OrderedMap K V} {k : K} {e e' : K × V}

/-- The binding that comes after `k` on the circle. -/
def successor (m : OrderedMap K V) (k : K) : Option (K × V) :=
  (m.entries.find? fun e => k < e.1).or m.entries.head?

/-- Of the bindings above `k` the first, and where there are none the first of all. -/
structure IsSuccessor (m : OrderedMap K V) (k : K) (e : K × V) : Prop where
  mem : e ∈ m.entries
  first : (k < e.1 ∧ ∀ x ∈ m.entries, k < x.1 → e.1 ≤ x.1) ∨
    (∀ x ∈ m.entries, x.1 ≤ k) ∧ ∀ x ∈ m.entries, e.1 ≤ x.1

lemma IsSuccessor.unique (h : IsSuccessor m k e) (h' : IsSuccessor m k e') : e = e' := by
  refine m.asc.eq_of_key h.mem h'.mem ?_
  rcases h.first with ⟨h1, h2⟩ | ⟨h1, h2⟩ <;> rcases h'.first with ⟨g1, g2⟩ | ⟨g1, g2⟩
  · exact le_antisymm (h2 e' h'.mem g1) (g2 e h.mem h1)
  · exact absurd h1 (g1 e h.mem).not_gt
  · exact absurd g1 (h1 e' h'.mem).not_gt
  · exact le_antisymm (h2 e' h'.mem) (g2 e h.mem)

/-- **Other bindings may go.** -/
theorem IsSuccessor.of_subset (h : IsSuccessor m' k e) (hsub : m.entries ⊆ m'.entries)
    (he : e ∈ m.entries) : IsSuccessor m k e := by
  refine ⟨he, ?_⟩
  rcases h.first with ⟨h1, h2⟩ | ⟨h1, h2⟩
  · exact Or.inl ⟨h1, fun x hx => h2 x (hsub hx)⟩
  · exact Or.inr ⟨fun x hx => h1 x (hsub hx), fun x hx => h2 x (hsub hx)⟩

lemma head_le {l : List (K × V)} (hl : Asc Prod.fst l) (h : l.head? = some e) :
    ∀ x ∈ l, e.1 ≤ x.1 := by
  obtain ⟨l, rfl⟩ := List.head?_eq_some_iff.mp h
  intro x hx
  rcases List.mem_cons.mp hx with rfl | hx
  · exact le_rfl
  · exact ((asc_cons.mp hl).1 x hx).le

theorem isSuccessor_successor (h : m.successor k = some e) : IsSuccessor m k e := by
  unfold successor at h
  cases hf : m.entries.find? fun e => k < e.1 with
  | none =>
    rw [hf, Option.none_or] at h
    refine ⟨List.mem_of_head? h, Or.inr ⟨fun x hx => ?_, head_le m.asc h⟩⟩
    simpa using List.find?_eq_none.mp hf x hx
  | some x =>
    rw [hf, Option.some_or, Option.some.injEq] at h
    subst h
    obtain ⟨hk, l₁, l₂, hl, hno⟩ := List.find?_eq_some_iff_append.mp hf
    refine ⟨hl ▸ by simp, Or.inl ⟨by simpa using hk, fun y hy hky => ?_⟩⟩
    rw [hl] at hy
    rcases List.mem_append.mp hy with hy | hy
    · have := hno y hy
      simp [hky] at this
    · have hasc := m.asc
      rw [hl] at hasc
      exact head_le (asc_append.mp hasc).2.1 rfl y hy

lemma successor_isSome (h : m.entries ≠ []) : ∃ e, m.successor k = some e := by
  obtain ⟨e, l, hl⟩ := List.exists_cons_of_ne_nil h
  cases hf : m.entries.find? fun e => k < e.1 with
  | none => exact ⟨e, by rw [successor, hf, hl]; rfl⟩
  | some x => exact ⟨x, by rw [successor, hf]; rfl⟩

/-- The successor is the one binding that is a successor. -/
theorem successor_eq_some : m.successor k = some e ↔ IsSuccessor m k e := by
  refine ⟨isSuccessor_successor, fun h => ?_⟩
  obtain ⟨e', he'⟩ := successor_isSome (k := k) (List.ne_nil_of_mem h.mem)
  rw [he', (isSuccessor_successor he').unique h]

end Libchef.Ordered.OrderedMap
