import Mathlib.Algebra.BigOperators.Group.Finset.Basic
import Mathlib.Algebra.BigOperators.Ring.Finset
import Mathlib.Algebra.Order.BigOperators.Group.Finset
import Mathlib.Data.Multiset.Count
import Mathlib.Tactic.Linarith
import Mathlib.Tactic.Ring

/-!
Smooth weighted round robin, on its own.

Every item has a weight and a credit, at first its weight. A round chooses an item of
greatest credit among those of positive weight, takes the total weight from its credit and
adds to every credit the weight of the item. Ties are broken in any way.
-/

namespace Libchef.SmoothRobin

open Finset

variable {ι : Type*} [DecidableEq ι] {s : Finset ι} {w : ι → ℕ}

/-- The credits after a round that chooses `x`. -/
def charge (w : ι → ℕ) (total : ℕ) (c : ι → ℤ) (x : ι) : ι → ℤ :=
  fun y => c y + w y - if y = x then (total : ℤ) else 0

/-- `x` is an item a round may choose. -/
structure Greatest (s : Finset ι) (w : ι → ℕ) (c : ι → ℤ) (x : ι) : Prop where
  mem : x ∈ s
  pos : 0 < w x
  le : ∀ y ∈ s, 0 < w y → c y ≤ c x

/-- The items chosen so far, the last one first, and the credits they leave. -/
inductive Schedule (s : Finset ι) (w : ι → ℕ) : List ι → (ι → ℤ) → Prop
  | start : Schedule s w [] fun y => w y
  | choose {l : List ι} {c : ι → ℤ} {x : ι} : Schedule s w l c → Greatest s w c x →
      Schedule s w (x :: l) (charge w (∑ y ∈ s, w y) c x)

namespace Schedule

variable {l : List ι} {c : ι → ℤ} {x y : ι}

/-- What the credit of an item says about how often it was chosen. -/
lemma credit (h : Schedule s w l c) (y : ι) :
    c y = (l.length + 1) * w y - (∑ z ∈ s, w z : ℕ) * l.count y := by
  induction h with
  | start => simp
  | choose _ _ ih =>
    rename_i l c x _ _
    simp only [charge, ih, List.length_cons]
    by_cases hy : y = x
    · subst hy
      simp only [if_true, List.count_cons_self]
      push_cast
      ring
    · simp only [hy, if_false, List.count_cons_of_ne (Ne.symm hy)]
      push_cast
      ring

lemma mem (h : Schedule s w l c) (hx : x ∈ l) : x ∈ s ∧ 0 < w x := by
  induction h with
  | start => simp at hx
  | choose _ hg ih =>
    rcases List.mem_cons.mp hx with rfl | hx
    · exact ⟨hg.mem, hg.pos⟩
    · exact ih hx

/-- The credits of all items together never change. -/
theorem sum_credit (h : Schedule s w l c) : ∑ y ∈ s, c y = (∑ y ∈ s, w y : ℕ) := by
  induction h with
  | start => simp
  | choose _ hg ih =>
    simp only [charge, sum_sub_distrib, sum_add_distrib, ih, sum_ite_eq', hg.mem]
    push_cast
    ring

lemma credit_zero (h : Schedule s w l c) (hy : w y = 0) : c y = 0 := by
  have hc : l.count y = 0 := List.count_eq_zero.mpr fun hm => by
    have := (h.mem hm).2
    omega
  rw [h.credit y, hy, hc]
  simp

lemma credit_pos (h : Schedule s w l c) (hg : Greatest s w c x) : 0 < c x := by
  by_contra hle
  have hall : ∀ y ∈ s, c y ≤ 0 := fun y hy => by
    rcases Nat.eq_zero_or_pos (w y) with h0 | h0
    · exact (h.credit_zero h0).le
    · exact (hg.le y hy h0).trans (not_lt.mp hle)
  have hsum := sum_nonpos hall
  rw [h.sum_credit] at hsum
  have hw : w x ≤ ∑ y ∈ s, w y := single_le_sum (fun _ _ => Nat.zero_le _) hg.mem
  have := hg.pos
  omega

/-- No credit falls a whole round below its weight. -/
theorem credit_gt (h : Schedule s w l c) (hy : y ∈ s) (hpos : 0 < w y) :
    (w y : ℤ) - (∑ z ∈ s, w z : ℕ) < c y := by
  have hw : w y ≤ ∑ z ∈ s, w z := single_le_sum (fun _ _ => Nat.zero_le _) hy
  induction h with
  | start => show (w y : ℤ) - _ < w y; omega
  | choose hs hg ih =>
    rename_i l c x
    simp only [charge]
    split_ifs with hyx
    · subst hyx
      have := hs.credit_pos hg
      omega
    · omega

/-- **No item is ahead of its share by a whole choice.** -/
theorem count_lt (h : Schedule s w l c) (hy : y ∈ s) (hW : 0 < ∑ z ∈ s, w z) :
    (∑ z ∈ s, w z) * l.count y < l.length * w y + ∑ z ∈ s, w z := by
  have hc := h.credit y
  rcases Nat.eq_zero_or_pos (w y) with h0 | h0
  · have hcount : l.count y = 0 := List.count_eq_zero.mpr fun hm => by
      have := (h.mem hm).2
      omega
    rw [hcount, Nat.mul_zero]
    omega
  · have hgt := h.credit_gt hy h0
    rw [hc] at hgt
    have : ((∑ z ∈ s, w z : ℕ) : ℤ) * l.count y < l.length * w y + (∑ z ∈ s, w z : ℕ) := by
      linarith
    exact_mod_cast this

lemma sum_count (h : Schedule s w l c) : ∑ y ∈ s, l.count y = l.length := by
  simpa using Multiset.sum_count_eq_card (m := (l : Multiset ι)) fun _ hx => (h.mem hx).1

/-- **After whole periods every item has been chosen as often as it weighs.** -/
theorem count_eq (h : Schedule s w l c) (hW : 0 < ∑ z ∈ s, w z) {k : ℕ}
    (hl : l.length = k * ∑ z ∈ s, w z) (hy : y ∈ s) : l.count y = k * w y := by
  have hle : ∀ y ∈ s, l.count y ≤ k * w y := fun y hy => by
    have hlt := h.count_lt hy hW
    rw [hl, show k * (∑ z ∈ s, w z) * w y + ∑ z ∈ s, w z = (∑ z ∈ s, w z) * (k * w y + 1) by
      ring] at hlt
    exact Nat.le_of_lt_succ (Nat.lt_of_mul_lt_mul_left hlt)
  have hsum : ∑ y ∈ s, l.count y = ∑ y ∈ s, k * w y := by
    rw [h.sum_count, hl, mul_sum]
  exact (sum_eq_sum_iff_of_le hle).mp hsum y hy

/-- **After whole periods the credits are what they were at first.** -/
theorem credit_eq (h : Schedule s w l c) (hW : 0 < ∑ z ∈ s, w z) {k : ℕ}
    (hl : l.length = k * ∑ z ∈ s, w z) (hy : y ∈ s) : c y = w y := by
  rw [h.credit y, h.count_eq hW hl hy, hl]
  push_cast
  ring

/-! ### How large a credit gets -/

lemma credit_le_drop (h : Schedule s w l c) {r : ℕ} (hr : r ≤ l.length) :
    ∃ c₀, Schedule s w (l.drop r) c₀ ∧ ∀ y, c y ≤ c₀ y + r * w y := by
  induction r generalizing l c with
  | zero => exact ⟨c, by simpa using h, fun y => by simp⟩
  | succ r ih =>
    cases h with
    | start => simp at hr
    | choose hs hg =>
      obtain ⟨c₀, h₀, hle⟩ := ih hs (by simpa using hr)
      refine ⟨c₀, by simpa using h₀, fun y => ?_⟩
      have hn : (0 : ℤ) ≤ (∑ z ∈ s, w z : ℕ) := Int.natCast_nonneg _
      have hr : ((r + 1 : ℕ) : ℤ) * w y = r * w y + w y := by push_cast; ring
      have := hle y
      simp only [charge]
      split_ifs <;> linarith

/-- Within its period a credit has been raised fewer times than the total weight. -/
lemma credit_le_period (h : Schedule s w l c) (hW : 0 < ∑ z ∈ s, w z) (hy : y ∈ s) :
    c y ≤ (∑ z ∈ s, w z : ℕ) * w y := by
  set W := ∑ z ∈ s, w z with hWdef
  have hmod := Nat.mod_lt l.length hW
  obtain ⟨c₀, h₀, hle⟩ := h.credit_le_drop (Nat.mod_le l.length W)
  have hlen : (l.drop (l.length % W)).length = l.length / W * W := by
    have := Nat.div_add_mod' l.length W
    rw [List.length_drop]
    omega
  have hc₀ := h₀.credit_eq hW hlen hy
  calc c y ≤ w y + (l.length % W : ℕ) * w y := hc₀ ▸ hle y
    _ = ((l.length % W : ℕ) + 1) * w y := by ring
    _ ≤ W * w y := by
      have : ((l.length % W + 1 : ℕ) : ℤ) ≤ W := by exact_mod_cast hmod
      push_cast at this
      exact mul_le_mul_of_nonneg_right this (by positivity)

/-- What the others owe bounds a credit. -/
lemma credit_le_others (h : Schedule s w l c) (hy : y ∈ s) :
    c y ≤ w y + ((∑ z ∈ s, w z : ℕ) - w y) * ((∑ z ∈ s, w z : ℕ) - 1) := by
  set W := ∑ z ∈ s, w z with hWdef
  have hother : ∀ z ∈ s.erase y, (w z : ℤ) - w z * (W - 1) ≤ c z := fun z hz => by
    have hzs := mem_of_mem_erase hz
    have hzW : w z ≤ W := single_le_sum (f := w) (fun _ _ => Nat.zero_le _) hzs
    rcases Nat.eq_zero_or_pos (w z) with h0 | h0
    · rw [h.credit_zero h0, h0]; simp
    · have hgt := h.credit_gt hzs h0
      have h1 : (1 : ℤ) ≤ w z := by exact_mod_cast h0
      have hW1 : (0 : ℤ) ≤ (W : ℤ) - 1 := by omega
      nlinarith [mul_le_mul_of_nonneg_right h1 hW1]
  have hsum := sum_le_sum hother
  have hsplit : (∑ z ∈ s.erase y, (w z : ℤ)) = W - w y := by
    have := sum_erase_add s (fun z => (w z : ℤ)) hy
    have hcast : (W : ℤ) = ∑ z ∈ s, (w z : ℤ) := by rw [hWdef]; push_cast; rfl
    linarith
  rw [sum_sub_distrib, ← sum_mul, hsplit] at hsum
  have hc := sum_erase_add s c hy
  rw [h.sum_credit] at hc
  linarith

/-- **A credit stays below half the square of the total weight.** -/
theorem credit_le (h : Schedule s w l c) (hy : y ∈ s) :
    2 * c y ≤ (∑ z ∈ s, w z : ℕ) ^ 2 + 1 := by
  set W := ∑ z ∈ s, w z with hWdef
  have hyW : w y ≤ W := single_le_sum (f := w) (fun _ _ => Nat.zero_le _) hy
  rcases Nat.eq_zero_or_pos (w y) with h0 | h0
  · rw [h.credit_zero h0]; positivity
  · have h1 := h.credit_le_period (by omega) hy
    have h2 := h.credit_le_others hy
    rw [← hWdef] at h1 h2
    have hW1 : (0 : ℤ) ≤ (W : ℤ) - 1 := by omega
    -- one bound is good for the light items, the other for the heavy ones
    rcases le_or_gt (2 * w y) W with hlight | hheavy
    · have hl : (2 : ℤ) * w y ≤ W := by exact_mod_cast hlight
      nlinarith
    · have hl : (W : ℤ) + 1 ≤ 2 * w y := by exact_mod_cast hheavy
      nlinarith

end Schedule

end Libchef.SmoothRobin
