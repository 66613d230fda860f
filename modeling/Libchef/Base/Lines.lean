import Mathlib.Data.List.Basic
import Mathlib.Data.List.TakeWhile
import Mathlib.Algebra.Order.Ring.Nat

/-!
Lines of a stream, and a reader that takes them in pieces of a bounded length.

A line goes up to an end and has it; the last line may lack one. The reader never goes past an
end, and gives a line in several pieces if it is too long.
-/

namespace Libchef.Lines

variable {α : Type*} [DecidableEq α] {e : α} {n : ℕ} {s w : List α} {ws : List (List α)}

/-- One more character in front of the first line. -/
def consLine (c : α) : List (List α) → List (List α)
  | [] => [[c]]
  | w :: ws => (c :: w) :: ws

/-- The lines of a stream, each with its end `e`. -/
def lines (e : α) : List α → List (List α)
  | [] => []
  | c :: s => if c = e then [c] :: lines e s else consLine c (lines e s)

/-- A line without its end. -/
def body (e : α) (w : List α) : List α := if w.getLast? = some e then w.dropLast else w

/-- What a reader takes that stops after an end, and after `n` characters. -/
def takeLine (e : α) : (n : ℕ) → List α → List α
  | 0, _ => []
  | _ + 1, [] => []
  | n + 1, c :: s => if c = e then [c] else c :: takeLine e n s

@[simp] lemma takeLine_nil : takeLine e n [] = [] := by cases n <;> rfl

lemma takeLine_isPrefix (e : α) (n : ℕ) (s : List α) : takeLine e n s <+: s := by
  induction s generalizing n with
  | nil => simp
  | cons c s ih =>
    cases n with
    | zero => exact List.nil_prefix
    | succ n =>
      unfold takeLine
      split_ifs with h
      · exact ⟨s, rfl⟩
      · exact (List.prefix_cons_inj c).mpr (ih n)

lemma takeLine_length_le (e : α) (n : ℕ) (s : List α) : (takeLine e n s).length ≤ n := by
  induction s generalizing n with
  | nil => simp
  | cons c s ih =>
    cases n with
    | zero => exact le_rfl
    | succ n =>
      unfold takeLine
      split_ifs with h
      · simp
      · exact Nat.succ_le_succ (ih n)

lemma takeLine_ne_nil (e : α) (n : ℕ) (hs : s ≠ []) : takeLine e (n + 1) s ≠ [] := by
  obtain ⟨c, s, rfl⟩ := List.exists_cons_of_ne_nil hs
  unfold takeLine
  split_ifs <;> exact List.cons_ne_nil _ _

/-- The pieces in which a stream is read, each of at most `n + 1` characters. -/
def chunks (e : α) (n : ℕ) (s : List α) : List (List α) :=
  if h : s = [] then []
  else takeLine e (n + 1) s :: chunks e n (s.drop (takeLine e (n + 1) s).length)
termination_by s.length
decreasing_by
  have := List.length_pos_iff.mpr h
  have := List.length_pos_iff.mpr (takeLine_ne_nil e n h)
  rw [List.length_drop]
  omega

/-! ### The first line -/

lemma lines_ne_nil (hs : s ≠ []) : lines e s ≠ [] := by
  obtain ⟨c, s, rfl⟩ := List.exists_cons_of_ne_nil hs
  unfold lines
  split_ifs
  · exact List.cons_ne_nil _ _
  · cases lines e s <;> exact List.cons_ne_nil _ _

lemma lines_eq_nil : lines e s = [] ↔ s = [] :=
  ⟨fun h => by_contra fun hs => lines_ne_nil hs h, fun h => h ▸ rfl⟩

/-- The reader takes the first line, or as much of it as it may; the other lines are left. -/
lemma takeLine_of_lines (h : lines e s = w :: ws) (n : ℕ) :
    takeLine e n s = w.take n ∧ (w.length ≤ n → lines e (s.drop w.length) = ws) ∧
      (n < w.length → lines e (s.drop n) = w.drop n :: ws) := by
  induction s generalizing n w ws with
  | nil => cases h
  | cons c s ih =>
    unfold lines at h
    split_ifs at h with hc
    · obtain ⟨rfl, rfl⟩ := List.cons.inj h
      cases n with
      | zero => exact ⟨rfl, by simp, fun _ => by rw [List.drop_zero, lines, if_pos hc]; rfl⟩
      | succ n =>
        refine ⟨?_, fun _ => rfl, by simp⟩
        rw [takeLine, if_pos hc]
        simp
    · cases n with
      | zero =>
        refine ⟨rfl, fun hw => ?_, fun _ => by rw [List.drop_zero, lines, if_neg hc, h]; rfl⟩
        cases hl : lines e s with
        | nil => rw [hl] at h; cases h; cases hw
        | cons v vs => rw [hl] at h; cases h; cases hw
      | succ n =>
        rw [takeLine, if_neg hc]
        cases hl : lines e s with
        | nil =>
          rw [hl] at h
          obtain ⟨rfl, rfl⟩ := List.cons.inj h
          obtain rfl := lines_eq_nil.mp hl
          exact ⟨by simp, fun _ => rfl, by simp⟩
        | cons v vs =>
          rw [hl] at h
          obtain ⟨rfl, rfl⟩ := List.cons.inj h
          obtain ⟨htake, hshort, hlong⟩ := ih hl n
          refine ⟨by rw [htake, List.take_succ_cons], fun hw => ?_, fun hw => ?_⟩
          · exact hshort (Nat.le_of_succ_le_succ hw)
          · exact hlong (Nat.lt_of_succ_lt_succ hw)

/-! ### Pieces and lines -/

lemma chunks_eq_lines (h : ∀ w ∈ lines e s, w.length ≤ n + 1) : chunks e n s = lines e s := by
  induction hlen : s.length using Nat.strong_induction_on generalizing s with
  | h m ih =>
    unfold chunks
    split_ifs with hs
    · rw [hs]; rfl
    · obtain ⟨w, ws, hw⟩ := List.exists_cons_of_ne_nil (lines_ne_nil (e := e) hs)
      rw [hw] at h ⊢
      obtain ⟨hfirst, hrest⟩ := List.forall_mem_cons.mp h
      obtain ⟨htake, hshort, -⟩ := takeLine_of_lines hw (n + 1)
      rw [List.take_of_length_le hfirst] at htake
      have hpos := List.length_pos_iff.mpr (takeLine_ne_nil e n hs)
      rw [htake] at hpos ⊢
      have hdrop := hshort hfirst
      rw [ih _ _ (by rwa [hdrop]) rfl, hdrop]
      have := List.length_pos_iff.mpr hs
      rw [List.length_drop]
      omega

/-- There is a piece for each line, and one more where a line is too long. -/
lemma length_lines_le (e : α) (n : ℕ) (s : List α) :
    (lines e s).length ≤ (chunks e n s).length ∧
      ((chunks e n s).length = (lines e s).length → ∀ w ∈ lines e s, w.length ≤ n + 1) := by
  induction hlen : s.length using Nat.strong_induction_on generalizing s with
  | h m ih =>
    unfold chunks
    split_ifs with hs
    · rw [hs]
      exact ⟨le_rfl, by simp [lines]⟩
    · obtain ⟨w, ws, hw⟩ := List.exists_cons_of_ne_nil (lines_ne_nil (e := e) hs)
      obtain ⟨htake, hshort, hlong⟩ := takeLine_of_lines hw (n + 1)
      have hpos := List.length_pos_iff.mpr (takeLine_ne_nil e n hs)
      have hless : (s.drop (takeLine e (n + 1) s).length).length < m := by
        have := List.length_pos_iff.mpr hs
        rw [List.length_drop]
        omega
      obtain ⟨hle, heq⟩ := ih _ hless _ rfl
      rw [htake] at hle heq ⊢
      rw [hw]
      rcases Nat.lt_or_ge (n + 1) w.length with hlt | hge
      · -- the rest of the line is a line again
        rw [List.length_take_of_le hlt.le] at hle ⊢
        rw [hlong hlt] at hle
        simp only [List.length_cons] at hle ⊢
        exact ⟨by omega, fun h => by omega⟩
      · rw [List.take_of_length_le hge] at hle heq ⊢
        rw [hshort hge] at hle heq
        simp only [List.length_cons]
        refine ⟨by omega, fun h => List.forall_mem_cons.mpr ⟨hge, heq (by omega)⟩⟩

lemma lines_append_cons {r : List α} (hr : e ∉ r) (s : List α) :
    lines e (r ++ e :: s) = (r ++ [e]) :: lines e s := by
  induction r with
  | nil => exact if_pos rfl
  | cons c r ih =>
    obtain ⟨hc, hr⟩ := not_or.mp (List.mem_cons.not.mp hr)
    rw [List.cons_append, lines, if_neg (Ne.symm hc), ih hr]
    rfl

lemma lines_flatMap {rs : List (List α)} (h : ∀ r ∈ rs, e ∉ r) :
    lines e (rs.flatMap (· ++ [e])) = rs.map (· ++ [e]) := by
  induction rs with
  | nil => rfl
  | cons r rs ih =>
    obtain ⟨hr, hrest⟩ := List.forall_mem_cons.mp h
    rw [List.flatMap_cons, List.append_assoc, List.singleton_append, lines_append_cons hr, ih hrest]
    rfl

lemma body_append_end (r : List α) : body e (r ++ [e]) = r := by
  rw [body, List.getLast?_concat, if_pos rfl, List.dropLast_concat]

lemma flatten_lines (e : α) (s : List α) : (lines e s).flatten = s := by
  induction s with
  | nil => rfl
  | cons c s ih =>
    unfold lines
    split_ifs with hc
    · rw [List.flatten_cons, ih]
      rfl
    · have hcons (ws : List (List α)) : (consLine c ws).flatten = c :: ws.flatten := by
        cases ws <;> rfl
      rw [hcons, ih]

lemma mem_body_of_ne {c : α} (hc : c ≠ e) (h : c ∈ w) : c ∈ body e w := by
  unfold body
  split_ifs with he
  · obtain ⟨v, rfl⟩ := List.getLast?_eq_some_iff.mp he
    rw [List.dropLast_concat]
    rcases List.mem_append.mp h with h | h
    · exact h
    · exact absurd (List.mem_singleton.mp h) hc
  · exact h

lemma exists_mem_body {c : α} (hc : c ≠ e) (h : c ∈ s) : ∃ w ∈ lines e s, c ∈ body e w := by
  rw [← flatten_lines e s] at h
  obtain ⟨w, hw, hcw⟩ := List.mem_flatten.mp h
  exact ⟨w, hw, mem_body_of_ne hc hcw⟩

end Libchef.Lines
