import Mathlib.Data.List.Perm.Basic

/-!
Objects that a program names by their place in a list.

A step changes one of them, or makes a new one at the end. What is then found at a place is
the new object or what was there.
-/

namespace Libchef.Slots

variable {α β : Type*} {l : List α} {a c : α} {i j : ℕ}

lemma getElem?_set_some (h : (l.set i a)[j]? = some c) :
    j = i ∧ c = a ∨ j ≠ i ∧ l[j]? = some c := by
  rw [List.getElem?_set] at h
  split_ifs at h with h₁ h₂
  · exact Or.inl ⟨h₁.symm, (Option.some.inj h).symm⟩
  · exact Or.inr ⟨Ne.symm h₁, h⟩

lemma getElem?_snoc_some (h : (l ++ [a])[j]? = some c) :
    j = l.length ∧ c = a ∨ j ≠ l.length ∧ l[j]? = some c := by
  rcases Nat.lt_trichotomy j l.length with hlt | rfl | hgt
  · rw [List.getElem?_append_left hlt] at h
    exact Or.inr ⟨Nat.ne_of_lt hlt, h⟩
  · rw [List.getElem?_concat_length] at h
    exact Or.inl ⟨rfl, (Option.some.inj h).symm⟩
  · rw [List.getElem?_eq_none (by rw [List.length_append]; exact hgt)] at h
    cases h

/-- The objects at different places have different values of a field. -/
def Apart (f : α → β) (l : List α) : Prop :=
  ∀ (i j : ℕ) (a b : α), l[i]? = some a → l[j]? = some b → f a = f b → i = j

lemma apart_nil (f : α → β) : Apart f ([] : List α) := fun i j a b h => by simp at h

lemma Apart.set {f : α → β} (h : Apart f l)
    (hne : ∀ (j : ℕ) c, j ≠ i → l[j]? = some c → f c ≠ f a) : Apart f (l.set i a) := by
  intro j k c c' hc hc' he
  rcases getElem?_set_some hc with ⟨rfl, rfl⟩ | ⟨hj, hl⟩ <;>
    rcases getElem?_set_some hc' with ⟨rfl, rfl⟩ | ⟨hk, hl'⟩
  · rfl
  · exact absurd he.symm (hne k c' hk hl')
  · exact absurd he (hne j c hj hl)
  · exact h j k c c' hl hl' he

lemma Apart.snoc {f : α → β} (h : Apart f l)
    (hne : ∀ (j : ℕ) c, l[j]? = some c → f c ≠ f a) : Apart f (l ++ [a]) := by
  intro j k c c' hc hc' he
  rcases getElem?_snoc_some hc with ⟨rfl, rfl⟩ | ⟨-, hl⟩ <;>
    rcases getElem?_snoc_some hc' with ⟨rfl, rfl⟩ | ⟨-, hl'⟩
  · rfl
  · exact absurd he.symm (hne k c' hl')
  · exact absurd he (hne j c hl)
  · exact h j k c c' hl hl' he

/-! ### What all objects have -/

section Perm

variable {f : α → Option β} {x y : α}

lemma filterMap_perm (hi : l[i]? = some x) :
    (l.filterMap f).Perm ((f x).toList ++ (l.eraseIdx i).filterMap f) := by
  obtain ⟨hlt, rfl⟩ := List.getElem?_eq_some_iff.mp hi
  have hp := (List.getElem_cons_eraseIdx_perm hlt).symm.filterMap f
  rw [List.filterMap_cons] at hp
  cases h : f l[i] <;> simpa [h] using hp

lemma filterMap_set_perm (hi : l[i]? = some x) :
    ((l.set i y).filterMap f).Perm ((f y).toList ++ (l.eraseIdx i).filterMap f) := by
  obtain ⟨hlt, -⟩ := List.getElem?_eq_some_iff.mp hi
  have hp := (List.set_perm_cons_eraseIdx hlt y).filterMap f
  rw [List.filterMap_cons] at hp
  cases h : f y <;> simpa [h] using hp

lemma flatten_modify_perm {ls : List (List α)} (hi : i < ls.length) :
    (ls.modify i (· ++ [x])).flatten.Perm (x :: ls.flatten) := by
  induction ls generalizing i with
  | nil => cases hi
  | cons l ls ih =>
    cases i with
    | zero =>
      rw [List.modify_zero_cons, List.flatten_cons, List.flatten_cons, List.append_assoc]
      exact List.perm_middle
    | succ i =>
      rw [List.modify_succ_cons, List.flatten_cons, List.flatten_cons]
      exact ((ih (Nat.lt_of_succ_lt_succ hi)).append_left l).trans List.perm_middle

end Perm

end Libchef.Slots
