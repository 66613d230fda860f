import Mathlib.Algebra.BigOperators.Group.Finset.Basic
import Mathlib.Algebra.Order.BigOperators.Group.Finset
import Mathlib.NumberTheory.Harmonic.Bounds
import Mathlib.Analysis.SpecialFunctions.Log.Basic
import Mathlib.Tactic.FieldSimp
import Mathlib.Tactic.Linarith
import Mathlib.Tactic.Positivity
import Mathlib.Tactic.Ring

/-!
Cups that are filled at any rates and emptied where they are fullest.

A round pours into every cup and takes as much as was poured in all out of a fullest cup.
Between rounds cups may be set to a low level, come in or go out. However many cups there
are and however long this goes on, `k` cups together never hold much more than their share:
the bound for each of them is a sum of harmonic terms.
-/

namespace Libchef.Cups

open Finset

variable {ι : Type*} [DecidableEq ι] {s s' : Finset ι} {c c' w : ι → ℤ} {x : ι} {B N k : ℕ}

/-- What `k` cups hold at most, of `N` cups into which a round pours `B` at most. -/
def share (B N k : ℕ) : ℚ := k * (B * (2 + (harmonic N - harmonic (k - 1))))

/-- The cups in `s` are `N` at most, and no part of them holds more than its share. -/
structure Leveled (B N : ℕ) (s : Finset ι) (c : ι → ℤ) : Prop where
  card_le : s.card ≤ N
  sum_le : ∀ A ⊆ s, ((∑ x ∈ A, c x : ℤ) : ℚ) ≤ share B N A.card

lemma harmonic_mono {m n : ℕ} (h : m ≤ n) : harmonic m ≤ harmonic n :=
  sum_le_sum_of_subset_of_nonneg (range_subset_range.mpr h) fun i _ _ => by positivity

/-- One cup more is worth at least what a round pours. -/
lemma share_succ (h : k + 1 ≤ N) : share B N k + B ≤ share B N (k + 1) := by
  have hB : (0 : ℚ) ≤ B := Nat.cast_nonneg B
  have hH : harmonic k ≤ harmonic N := harmonic_mono (by omega)
  cases k with
  | zero =>
    have h0 : (0 : ℚ) ≤ harmonic N := by simpa using hH
    simp only [share, Nat.cast_zero, zero_mul, zero_add, Nat.cast_one, one_mul, Nat.sub_self,
      harmonic_zero, sub_zero]
    nlinarith
  | succ k =>
    have hk : (k + 1 : ℚ) * (↑(k + 1))⁻¹ = 1 := by
      push_cast
      field_simp
    have hstep : share B N (k + 1 + 1) - share B N (k + 1) =
        B * (2 + (harmonic N - harmonic (k + 1))) - B * ((k + 1) * (↑(k + 1))⁻¹) := by
      simp only [share, Nat.add_sub_cancel, harmonic_succ]
      push_cast
      ring
    rw [hk] at hstep
    nlinarith

lemma share_drop :
    (k : ℚ) * share B N (k + 1) = (k + 1) * (share B N k - if k = 0 then 0 else B) := by
  cases k with
  | zero => simp [share]
  | succ k =>
    have hk : (k + 1 : ℚ) * (↑(k + 1))⁻¹ = 1 := by
      push_cast
      field_simp
    have h : share B N (k + 1) - share B N (k + 1 + 1) * ((k + 1) / (k + 1 + 1)) = B := by
      simp only [share, Nat.add_sub_cancel, harmonic_succ]
      push_cast at hk ⊢
      field_simp at hk ⊢
      ring
    rw [if_neg (Nat.succ_ne_zero k), ← h]
    push_cast
    field_simp
    ring

omit [DecidableEq ι] in
lemma leveled_empty : Leveled B N ∅ c := by
  refine ⟨by simp, fun A hA => ?_⟩
  rw [subset_empty.mp hA]
  simp [share]

namespace Leveled

/-- One cup is set to a low level or comes in, and others may go out. -/
theorem set (h : Leveled B N s c) (hs : s' ⊆ insert x s) (hN : s'.card ≤ N) (hx : c' x ≤ B)
    (hc : ∀ y ≠ x, c' y = c y) : Leveled B N s' c' := by
  have hrest (A : Finset ι) (hA : A ⊆ s') (hxA : x ∉ A) :
      ((∑ y ∈ A, c' y : ℤ) : ℚ) ≤ share B N A.card := by
    have hsub : A ⊆ s := (subset_insert_iff_of_notMem hxA).mp (hA.trans hs)
    have heq : ∑ y ∈ A, c' y = ∑ y ∈ A, c y :=
      sum_congr rfl fun y hy => hc y fun he => hxA (he ▸ hy)
    rw [heq]
    exact h.sum_le A hsub
  refine ⟨hN, fun A hA => ?_⟩
  by_cases hxA : x ∈ A
  · have herase := hrest (A.erase x) ((erase_subset x A).trans hA) (notMem_erase x A)
    have hcard : (A.erase x).card + 1 = A.card := card_erase_add_one hxA
    have hsucc : share B N (A.erase x).card + B ≤ share B N A.card := by
      rw [← hcard]
      exact share_succ (hcard ▸ (card_le_card hA).trans hN)
    have hxq : (c' x : ℚ) ≤ B := by exact_mod_cast hx
    rw [← add_sum_erase A _ hxA, Int.cast_add]
    linarith
  · exact hrest A hA hxA

/-- A part of the cups without a fullest one holds less than its share by what a round pours. -/
lemma add_le (h : Leveled B N s c) (hx : x ∈ s) (hmax : ∀ y ∈ s, c y ≤ c x) {A : Finset ι}
    (hA : A ⊆ s) (hxA : x ∉ A) (hne : A.card ≠ 0) :
    ((∑ y ∈ A, c y : ℤ) : ℚ) + B ≤ share B N A.card := by
  have hle : ((∑ y ∈ A, c y : ℤ) : ℚ) ≤ A.card * c x := by
    have := sum_le_card_nsmul A c (c x) fun y hy => hmax y (hA hy)
    rw [nsmul_eq_mul] at this
    exact_mod_cast this
  have hall := h.sum_le (insert x A) (insert_subset hx hA)
  rw [sum_insert hxA, card_insert_of_notMem hxA, Int.cast_add] at hall
  have hdrop := share_drop (B := B) (N := N) (k := A.card)
  rw [if_neg hne] at hdrop
  have hn : (0 : ℚ) ≤ A.card := Nat.cast_nonneg _
  have hk := mul_le_mul_of_nonneg_left hall hn
  have hmul : ((A.card : ℚ) + 1) * (∑ y ∈ A, c y : ℤ) ≤
      (A.card + 1) * (share B N A.card - B) := by linarith
  have := le_of_mul_le_mul_left hmul (by linarith)
  linarith

/-- **A round.** The fullest cup pays for what the others get. -/
theorem round (h : Leveled B N s c) (hx : x ∈ s) (hmax : ∀ y ∈ s, c y ≤ c x)
    (hw : ∀ y ∈ s, 0 ≤ w y) (hB : ∑ y ∈ s, w y ≤ B)
    (hc : ∀ y ∈ s, c' y = c y + w y - if y = x then ∑ z ∈ s, w z else 0) :
    Leveled B N s c' := by
  refine ⟨h.card_le, fun A hA => ?_⟩
  have hpour : ∑ y ∈ A, w y ≤ ∑ y ∈ s, w y :=
    sum_le_sum_of_subset_of_nonneg hA fun y hy _ => hw y hy
  have hsum : ∑ y ∈ A, c' y =
      ∑ y ∈ A, c y + ∑ y ∈ A, w y - if x ∈ A then ∑ z ∈ s, w z else 0 := by
    rw [← sum_add_distrib, ← sum_ite_eq' A x fun _ => ∑ z ∈ s, w z, ← sum_sub_distrib]
    exact sum_congr rfl fun y hy => hc y (hA hy)
  rw [hsum]
  by_cases hxA : x ∈ A
  · have hle : ∑ y ∈ A, c y + ∑ y ∈ A, w y - (if x ∈ A then ∑ z ∈ s, w z else 0) ≤
        ∑ y ∈ A, c y := by
      rw [if_pos hxA]
      linarith
    exact le_trans (by exact_mod_cast hle) (h.sum_le A hA)
  · rw [if_neg hxA, sub_zero]
    by_cases h0 : A.card = 0
    · simp [card_eq_zero.mp h0, share]
    · have hle : ∑ y ∈ A, c y + ∑ y ∈ A, w y ≤ ∑ y ∈ A, c y + B := by linarith
      exact le_trans (by exact_mod_cast hle) (h.add_le hx hmax hA hxA h0)

omit [DecidableEq ι] in
/-- **No cup ever holds more** than a few rounds pour. -/
theorem le (h : Leveled B N s c) (hx : x ∈ s) {n : ℕ} (hN : N ≤ 2 ^ n) : c x ≤ B * (n + 3) := by
  have hone := h.sum_le {x} (singleton_subset_iff.mpr hx)
  simp only [sum_singleton, card_singleton, share, Nat.cast_one, one_mul, Nat.sub_self,
    harmonic_zero, sub_zero] at hone
  have hlog : (harmonic N : ℝ) ≤ n + 1 := by
    have hbound := harmonic_le_one_add_log N
    have hmono : Real.log N ≤ n := by
      rcases Nat.eq_zero_or_pos N with rfl | hpos
      · simp
      · calc Real.log N ≤ Real.log (2 ^ n) :=
              Real.log_le_log (by exact_mod_cast hpos) (by exact_mod_cast hN)
          _ = n * Real.log 2 := Real.log_pow 2 n
          _ ≤ n * 1 := by
              have h2 : Real.log 2 ≤ 1 := by linarith [Real.log_le_sub_one_of_pos (x := 2) two_pos]
              exact mul_le_mul_of_nonneg_left h2 (Nat.cast_nonneg n)
          _ = n := mul_one _
    linarith
  have hq : harmonic N ≤ (n + 1 : ℚ) := by exact_mod_cast hlog
  have hB : (0 : ℚ) ≤ B := Nat.cast_nonneg B
  have hcx : (c x : ℚ) ≤ B * (n + 3) := by nlinarith
  exact_mod_cast hcx

end Leveled

end Libchef.Cups
