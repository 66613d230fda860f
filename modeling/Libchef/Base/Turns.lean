import Mathlib.Data.Int.CardIntervalMod
import Mathlib.Data.List.Count

/-!
Taking turns.

Of `n` parties one after the other has its turn, and after the last one the first again. A
counter that is reduced modulo `n` says whose turn it is, also a counter that wraps around,
if `n` divides the value at which it does.
-/

namespace Libchef.Turns

variable {n w m i j : ℕ}

/-- The turns are taken one after the other. -/
def Cyclic (n : ℕ) (l : List ℕ) : Prop :=
  ∀ k i j, l[k]? = some i → l[k + 1]? = some j → j = (i + 1) % n

/-- No one has had two turns more than another. -/
def Balanced (n : ℕ) (l : List ℕ) : Prop := ∀ i < n, ∀ j < n, l.count i ≤ l.count j + 1

/-- The first `m` turns. -/
def turns (n m : ℕ) : List ℕ := (List.range m).map (· % n)

/-- The first `m` turns as a counter has them that starts again at `w`. -/
def wrapped (n w m : ℕ) : List ℕ := (List.range m).map fun k => k % w % n

lemma count_turns (hi : i < n) :
    (turns n m).count i = m / n + if i < m % n then 1 else 0 := by
  have hcount := Nat.count_modEq_card m (Nat.zero_lt_of_lt hi) i
  rw [Nat.mod_eq_of_lt hi, Nat.count] at hcount
  rw [← hcount, turns, List.count, List.countP_map]
  refine List.countP_congr fun k _ => ?_
  simp [Nat.ModEq, Nat.mod_eq_of_lt hi]

lemma balanced_turns : Balanced n (turns n m) := by
  intro i hi j hj
  rw [count_turns hi, count_turns hj]
  split_ifs <;> omega

lemma cyclic_turns : Cyclic n (turns n m) := by
  have hat {k i : ℕ} (hi : (turns n m)[k]? = some i) : i = k % n := by
    obtain ⟨hlt, rfl⟩ := List.getElem?_eq_some_iff.mp hi
    simp [turns]
  intro k i j hi hj
  rw [hat hi, hat hj, Nat.mod_add_mod]

lemma wrapped_eq_turns (h : n ∣ w ∨ m ≤ w) : wrapped n w m = turns n m := by
  refine List.map_congr_left fun k hk => ?_
  rcases h with h | h
  · exact Nat.mod_mod_of_dvd k h
  · rw [Nat.mod_eq_of_lt ((List.mem_range.mp hk).trans_le h)]

lemma not_cyclic_wrapped (h : ¬ n ∣ w) (hw : 0 < w) (hm : w < m) : ¬ Cyclic n (wrapped n w m) := by
  have hat {k : ℕ} (hk : k < m) : (wrapped n w m)[k]? = some (k % w % n) := by
    rw [wrapped, List.getElem?_map, List.getElem?_range hk, Option.map_some]
  intro hc
  have hlast := hat (k := w - 1) (by omega)
  have hnext := hat hm
  have := hc (w - 1) _ _ hlast (by rw [Nat.sub_add_cancel hw, hnext])
  rw [Nat.mod_self, Nat.zero_mod, Nat.mod_eq_of_lt (Nat.sub_lt hw Nat.one_pos), Nat.mod_add_mod,
    Nat.sub_add_cancel hw] at this
  exact h (Nat.dvd_of_mod_eq_zero this.symm)

lemma not_balanced_wrapped (hn : 0 < n) (h : ¬ n ∣ w) : ¬ Balanced n (wrapped n w (w + 1)) := by
  have hsplit : wrapped n w (w + 1) = turns n w ++ [0] := by
    rw [← wrapped_eq_turns (Or.inr le_rfl), wrapped, wrapped, List.range_succ, List.map_append,
      List.map_singleton, Nat.mod_self, Nat.zero_mod]
  have hmod : 0 < w % n := Nat.pos_of_ne_zero fun h0 => h (Nat.dvd_of_mod_eq_zero h0)
  have hlt : w % n < n := Nat.mod_lt w hn
  intro hb
  have := hb 0 hn (n - 1) (by omega)
  rw [hsplit, List.count_append, List.count_append, count_turns hn, count_turns (by omega),
    if_pos hmod, if_neg (by omega), List.count_singleton_self, List.count_singleton,
    if_neg (by simp; omega)] at this
  omega

end Libchef.Turns
