import Mathlib.Data.List.Basic
import Mathlib.Data.List.Nodup
import Mathlib.Data.Finset.Card
import Mathlib.Algebra.Order.Ring.Nat

/-!
Histories of uses, the newest first.

The keys of a history, each at its last use, are in the order in which a cache keeps them that
evicts the least recently used one. Keeping no more than the first `n` of them loses nothing
for the future: the first `n` after the next use depend on the first `n` before it only.
-/

namespace Libchef.Recency

variable {K : Type*} [DecidableEq K]

/-- The distinct keys of a history, the most recently used first. -/
def recent : List K → List K
  | [] => []
  | k :: h => k :: (recent h).erase k

/-- The uses since the last use of `k`. -/
def since (k : K) (h : List K) : List K := h.takeWhile fun x => x ≠ k

@[simp] lemma recent_nil : recent ([] : List K) = [] := rfl
@[simp] lemma recent_cons (k : K) (h : List K) : recent (k :: h) = k :: (recent h).erase k := rfl

lemma nodup_recent (h : List K) : (recent h).Nodup := by
  induction h with
  | nil => exact List.nodup_nil
  | cons k h ih => exact List.nodup_cons.mpr ⟨fun hk => (ih.mem_erase_iff.mp hk).1 rfl, ih.erase k⟩

@[simp] lemma mem_recent {k : K} {h : List K} : k ∈ recent h ↔ k ∈ h := by
  induction h with
  | nil => simp
  | cons a h ih =>
    rw [recent_cons, List.mem_cons, List.mem_cons, (nodup_recent h).mem_erase_iff, ih]
    tauto

lemma length_recent (h : List K) : (recent h).length = h.toFinset.card := by
  rw [← List.toFinset_card_of_nodup (nodup_recent h)]
  congr 1
  ext k
  simp

lemma pairwise_recent (h : List K) :
    (recent h).Pairwise fun a b => h.idxOf a < h.idxOf b := by
  induction h with
  | nil => exact List.Pairwise.nil
  | cons k h ih =>
    have hne : ∀ a ∈ (recent h).erase k, k ≠ a := by
      rintro a ha rfl
      exact ((nodup_recent h).mem_erase_iff.mp ha).1 rfl
    refine List.pairwise_cons.mpr ⟨fun a ha => ?_, ?_⟩
    · rw [List.idxOf_cons_self, List.idxOf_cons_ne _ (hne a ha)]
      omega
    · refine (ih.sublist List.erase_sublist).imp_of_mem fun {a b} ha hb hlt => ?_
      rw [List.idxOf_cons_ne _ (hne a ha), List.idxOf_cons_ne _ (hne b hb)]
      omega

lemma takeWhile_erase {p : K → Bool} {a : K} (ha : p a = true) (l : List K) :
    (l.erase a).takeWhile p = (l.takeWhile p).erase a := by
  induction l with
  | nil => rfl
  | cons b l ih =>
    by_cases hb : b = a
    · subst hb
      simp [ha]
    · rw [List.erase_cons_tail (by simpa using hb), List.takeWhile_cons, List.takeWhile_cons]
      split_ifs
      · rw [List.erase_cons_tail (by simpa using hb), ih]
      · rfl

lemma takeWhile_recent (k : K) (h : List K) :
    (recent h).takeWhile (fun x => x ≠ k) = recent (since k h) := by
  induction h with
  | nil => rfl
  | cons a h ih =>
    by_cases hak : a = k
    · simp [since, hak]
    · have hp : decide (a ≠ k) = true := by simpa using hak
      have hout : since k (a :: h) = a :: since k h := by simp [since, hak]
      have hin := takeWhile_erase (p := fun x => decide (x ≠ k)) hp (recent h)
      rw [hout, recent_cons, recent_cons, ← ih, ← hin, List.takeWhile_cons, if_pos hp]

lemma mem_take_iff {k : K} {l : List K} {n : ℕ} :
    k ∈ l.take n ↔ k ∈ l ∧ (l.takeWhile fun x => x ≠ k).length < n := by
  induction l generalizing n with
  | nil => simp
  | cons a l ih =>
    cases n with
    | zero => simp
    | succ n =>
      by_cases hak : a = k
      · simp [hak]
      · simp [hak, Ne.symm hak, ih]

/-- **Who is among the first `n`**: the keys since whose last use fewer than `n` others have
been used. -/
theorem mem_take_recent {k : K} {h : List K} {n : ℕ} :
    k ∈ (recent h).take n ↔ k ∈ h ∧ (since k h).toFinset.card < n := by
  rw [mem_take_iff, mem_recent, takeWhile_recent, length_recent]

lemma take_erase_take (l : List K) (k : K) (n : ℕ) :
    ((l.take (n + 1)).erase k).take n = (l.erase k).take n := by
  induction l generalizing n with
  | nil => rfl
  | cons a l ih =>
    by_cases hak : a = k
    · simp [hak, List.take_take]
    · rw [List.take_succ_cons, List.erase_cons_tail (by simpa using hak),
        List.erase_cons_tail (by simpa using hak)]
      cases n with
      | zero => rfl
      | succ n => rw [List.take_succ_cons, List.take_succ_cons, ih]

/-- **One use** of a key that is put in front of the first `n`. -/
theorem take_recent_cons (k : K) (h : List K) (n : ℕ) :
    (k :: ((recent h).take n).erase k).take n = (recent (k :: h)).take n := by
  cases n with
  | zero => rfl
  | succ n => rw [recent_cons, List.take_succ_cons, List.take_succ_cons, take_erase_take]

end Libchef.Recency
