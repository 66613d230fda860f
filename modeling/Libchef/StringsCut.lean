import Libchef.StringsModel

/-!
Cutting a string at the first or the last place where another stands in it.
-/

namespace Libchef.StringsCut

open Libchef.Text Libchef.StringsModel

variable {s sep : Str}

/-- What `cut` makes of a string: the separator is not in `before`, and it is put between the
two to have the string again, unless it was not there. -/
lemma cut_spec (hsep : sep ≠ []) :
    ¬ sep <:+: (cut s sep).2.1 ∧
      ((cut s sep).1 = true ∧ s = (cut s sep).2.1 ++ sep ++ (cut s sep).2.2 ∨
        (cut s sep).1 = false ∧ (cut s sep).2.1 = s ∧ (cut s sep).2.2 = []) := by
  unfold cut
  cases h : find s sep 0 with
  | none => exact ⟨by simpa using not_infix_of_find_none h (Nat.zero_le _), Or.inr ⟨rfl, rfl, rfl⟩⟩
  | some r =>
    exact ⟨by simpa using not_infix_before h hsep,
      Or.inl ⟨rfl, by simpa using find_cut h⟩⟩

lemma cut_found (hsep : sep ≠ []) (h : sep <:+: s) :
    s = (cut s sep).2.1 ++ sep ++ (cut s sep).2.2 := by
  obtain ⟨hnot, ⟨-, hcut⟩ | ⟨-, hs, -⟩⟩ := cut_spec (s := s) hsep
  · exact hcut
  · rw [hs] at hnot
    exact absurd h hnot

lemma cut_not_found (hsep : sep ≠ []) (h : ¬ sep <:+: s) :
    (cut s sep).2.1 = s ∧ (cut s sep).2.2 = [] := by
  obtain ⟨-, ⟨-, hcut⟩ | ⟨-, hs⟩⟩ := cut_spec (s := s) hsep
  · exact absurd ⟨_, _, hcut.symm⟩ h
  · exact hs

lemma cut_append {a b : Str} (h : find (a ++ sep ++ b) sep 0 = some a.length) :
    cut (a ++ sep ++ b) sep = (true, a, b) := by
  rw [cut, h]
  simp [List.drop_append]

variable {c : UInt8} {a b : Str}

lemma cut_char (s : Str) (c : UInt8) :
    c ∉ (cut s [c]).2.1 ∧ (c ∈ s → s = (cut s [c]).2.1 ++ c :: (cut s [c]).2.2) ∧
      (c ∉ s → (cut s [c]).2.1 = s ∧ (cut s [c]).2.2 = []) := by
  have hne : [c] ≠ [] := List.cons_ne_nil _ _
  refine ⟨?_, fun h => ?_, fun h => ?_⟩
  · rw [← List.singleton_infix_iff]
    exact (cut_spec hne).1
  · have := cut_found hne ((List.singleton_infix_iff _ _).mpr h)
    rwa [List.append_assoc, List.singleton_append] at this
  · exact cut_not_found hne (mt (List.singleton_infix_iff _ _).mp h)

lemma cut_char_append (h : c ∉ a) (b : Str) : cut (a ++ c :: b) [c] = (true, a, b) := by
  have hfind : find (a ++ [c] ++ b) [c] 0 = some a.length := by simpa using find_singleton h
  simpa using cut_append hfind

lemma cut_char_before (h : c ∉ a) (hb : b = [] ∨ b.head? = some c) :
    (cut (a ++ b) [c]).2.1 = a := by
  rcases hb with rfl | hb
  · rw [List.append_nil]
    exact ((cut_char a c).2.2 h).1
  · obtain ⟨b, rfl⟩ := List.head?_eq_some_iff.mp hb
    rw [cut_char_append h]

lemma exists_cut_char (s : Str) (c : UInt8) :
    ∃ b, (b = [] ∨ b.head? = some c) ∧ s = (cut s [c]).2.1 ++ b := by
  obtain ⟨-, hin, hout⟩ := cut_char s c
  by_cases h : c ∈ s
  · exact ⟨_, Or.inr rfl, hin h⟩
  · exact ⟨[], Or.inl rfl, by rw [List.append_nil, (hout h).1]⟩

lemma cutLast_char (h : c ∈ s) :
    s = (cutLast s [c]).2.1 ++ c :: (cutLast s [c]).2.2 ∧ c ∉ (cutLast s [c]).2.2 := by
  unfold cutLast
  cases hr : rfind s [c] with
  | none =>
    obtain ⟨i, hi⟩ := infix_iff_at.mp ((List.singleton_infix_iff _ _).mpr h)
    exact absurd hi (rfind_eq_none.mp hr i)
  | some r =>
    obtain ⟨hat, hl⟩ := rfind_eq_some.mp hr
    refine ⟨by simpa using hat.cut, fun hc => ?_⟩
    obtain ⟨i, hi⟩ := infix_iff_at.mp ((List.singleton_infix_iff _ _).mpr hc)
    exact hl _ (by simp; omega) (hi.of_drop hat.add_le)

lemma cutLast_char_append (h : c ∉ b) (a : Str) : (cutLast (a ++ c :: b) [c]).2 = (a, b) := by
  obtain ⟨hcut, hnot⟩ := cutLast_char (s := a ++ c :: b) (c := c) (by simp)
  obtain ⟨h₁, h₂⟩ := append_cons_inj h hnot hcut
  exact Prod.ext h₁.symm h₂.symm

lemma trimPrefix_spec (s pre : Str) : s = trimPrefix s pre ∨ s = pre ++ trimPrefix s pre := by
  unfold trimPrefix
  split_ifs with h
  · right
    unfold hasPrefix substr at h
    split_ifs at h with he
    simp only [decide_eq_true_eq, List.drop_zero] at h
    conv_lhs => rw [← List.take_append_drop pre.length s, h.2]
  · exact Or.inl rfl

lemma trimPrefix_cons (c : UInt8) (s : Str) : trimPrefix (c :: s) [c] = s := by
  have h : hasPrefix (c :: s) [c] = true := by simp [hasPrefix, substr]
  rw [trimPrefix, if_pos h]
  rfl

end Libchef.StringsCut
