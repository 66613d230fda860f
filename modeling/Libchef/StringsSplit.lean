import Libchef.StringsModel

/-!
Splitting a string and joining it again.

Joining is putting the separator between the pieces. What the loop of `split` returns joins to
the part of the string that was still to be read, and with a separator of one character it is
that part split at every such character.
-/

namespace Libchef.StringsSplit

open Libchef.Text Libchef.StringsModel

variable {s sep : Str}

/-! ### Joining -/

lemma joinLoop_eq (ss : List Str) (ret : Str) :
    joinLoop sep ss ret = ret ++ sep.intercalate ss := by
  induction ss, ret using joinLoop.induct with
  | case1 ret => simp [joinLoop]
  | case2 x ret => simp [joinLoop]
  | sep => exact sep
  | case3 x y ss ret ih =>
    rw [joinLoop, ih, List.intercalate_cons_cons]
    simp

lemma join_eq (ss : List Str) : join ss sep = sep.intercalate ss := by
  unfold join
  split
  · rfl
  · rw [List.intercalate_singleton]
  · rw [joinLoop_eq, List.nil_append]

lemma join_cons {x : Str} {ss : List Str} (h : ss ≠ []) :
    join (x :: ss) sep = x ++ sep ++ join ss sep := by
  rw [join_eq, join_eq, List.intercalate_cons_of_ne_nil h]

lemma join_append {ss₁ ss₂ : List Str} (h₁ : ss₁ ≠ []) (h₂ : ss₂ ≠ []) :
    join (ss₁ ++ ss₂) sep = join ss₁ sep ++ sep ++ join ss₂ sep := by
  induction ss₁ with
  | nil => exact absurd rfl h₁
  | cons x ss₁ ih =>
    rcases eq_or_ne ss₁ [] with rfl | hss
    · exact join_cons h₂
    · rw [List.cons_append, join_cons (by simp [hss]), join_cons hss, ih hss]
      simp only [List.append_assoc]

lemma join_map_join {css : List (List Str)} (h : ∀ cs ∈ css, cs ≠ []) :
    join (css.map (join · sep)) sep = join css.flatten sep := by
  induction css with
  | nil => rfl
  | cons cs css ih =>
    have ih := ih fun x hx => h x (by simp [hx])
    rcases eq_or_ne css [] with rfl | hcss
    · simp [join]
    · have hne : css.flatten ≠ [] := by
        obtain ⟨x, css, rfl⟩ := List.exists_cons_of_ne_nil hcss
        simp [h x]
      rw [List.map_cons, join_cons (by simpa using hcss), ih, List.flatten_cons,
        join_append (h cs (by simp)) hne]

lemma flatten_sublist_join (ss : List Str) (sep : Str) : ss.flatten.Sublist (join ss sep) := by
  induction ss with
  | nil => exact List.Sublist.refl _
  | cons x ss ih =>
    rcases eq_or_ne ss [] with rfl | hss
    · simp [join]
    · rw [List.flatten_cons, join_cons hss]
      exact (List.sublist_append_left x sep).append ih

lemma join_sublist_join (sep : Str) {ss : List Str} {f : Str → Str}
    (h : ∀ x ∈ ss, x.Sublist (f x)) : (join ss sep).Sublist (join (ss.map f) sep) := by
  induction ss with
  | nil => exact List.Sublist.refl _
  | cons x ss ih =>
    have ih := ih fun y hy => h y (by simp [hy])
    rcases eq_or_ne ss [] with rfl | hss
    · exact h x (by simp)
    · rw [List.map_cons, join_cons hss, join_cons (by simpa using hss)]
      exact ((h x (by simp)).append (List.Sublist.refl _)).append ih

lemma filter_join (ss : List Str) (c : UInt8) :
    (join ss [c]).filter (· ≠ c) = ss.flatten.filter (· ≠ c) := by
  induction ss with
  | nil => rfl
  | cons x ss ih =>
    rcases eq_or_ne ss [] with rfl | hss
    · simp [join]
    · rw [join_cons hss, List.flatten_cons, List.filter_append, List.filter_append, ih]
      simp

lemma length_join (ss : List Str) (sep : Str) :
    (join ss sep).length = (ss.map List.length).sum + (ss.length - 1) * sep.length := by
  induction ss with
  | nil => simp [join]
  | cons x ss ih =>
    rcases eq_or_ne ss [] with rfl | hss
    · simp [join]
    · have hpos := List.length_pos_iff.mpr hss
      obtain ⟨k, hk⟩ : ∃ k, ss.length = k + 1 := ⟨ss.length - 1, by omega⟩
      rw [join_cons hss, List.length_append, List.length_append, ih]
      simp only [List.map_cons, List.sum_cons, List.length_cons, hk, Nat.add_sub_cancel,
        Nat.succ_mul]
      omega

/-! ### The loop of `split` -/

variable (hsep : sep ≠ [])

lemma splitLoop_found {keep : Bool} {l r : ℕ} (h : find s sep l = some r) :
    splitLoop s sep hsep keep l = (if l ≠ r ∨ keep then [substr s l (r - l)] else []) ++
      splitLoop s sep hsep keep (r + sep.length) := by
  rw [splitLoop]
  split
  · next r' h' =>
    obtain rfl : r = r' := Option.some.inj (h.symm.trans h')
    rfl
  · next h' => rw [h] at h'; cases h'

lemma splitLoop_last {keep : Bool} {l : ℕ} (h : find s sep l = none) :
    splitLoop s sep hsep keep l = if l < s.length ∨ keep then [s.drop l] else [] := by
  rw [splitLoop]
  split
  · next h' => rw [h] at h'; cases h'
  · rfl

lemma splitLoop_some {l r : ℕ} (h : find s sep l = some r) :
    splitLoop s sep hsep true l =
      substr s l (r - l) :: splitLoop s sep hsep true (r + sep.length) := by
  rw [splitLoop_found hsep h, if_pos (Or.inr rfl)]
  rfl

lemma splitLoop_none {l : ℕ} (h : find s sep l = none) :
    splitLoop s sep hsep true l = [s.drop l] := by
  rw [splitLoop_last hsep h, if_pos (Or.inr rfl)]

lemma splitLoop_ne_nil (l : ℕ) : splitLoop s sep hsep true l ≠ [] := by
  cases h : find s sep l with
  | none => rw [splitLoop_none hsep h]; simp
  | some r => rw [splitLoop_some hsep h]; simp

lemma join_splitLoop {l : ℕ} (hl : l ≤ s.length) :
    join (splitLoop s sep hsep true l) sep = s.drop l := by
  induction l using splitLoop.induct s sep hsep true with
  | case1 l r h ih =>
    rw [splitLoop_some hsep h, join_cons (splitLoop_ne_nil hsep _),
      ih (find_eq_some.mp h).2.1.add_le, substr, ← find_cut h]
  | case2 l h =>
    rw [splitLoop_none hsep h]
    rfl
  | case3 l h hno => exact absurd (Or.inr rfl) hno

lemma not_infix_splitLoop {l : ℕ} (hl : l ≤ s.length) :
    ∀ x ∈ splitLoop s sep hsep true l, ¬ sep <:+: x := by
  induction l using splitLoop.induct s sep hsep true with
  | case1 l r h ih =>
    intro x hx
    rw [splitLoop_some hsep h] at hx
    rcases List.mem_cons.mp hx with rfl | hx
    · exact not_infix_before h hsep
    · exact ih (find_eq_some.mp h).2.1.add_le x hx
  | case2 l h =>
    intro x hx
    rw [splitLoop_none hsep h, List.mem_singleton] at hx
    rw [hx]
    exact not_infix_of_find_none h hl
  | case3 l h hno => exact absurd (Or.inr rfl) hno

lemma splitLoop_singleton {c : UInt8} (hc : [c] ≠ []) {l : ℕ} (hl : l ≤ s.length) :
    splitLoop s [c] hc true l = (s.drop l).splitOn c := by
  induction l using splitLoop.induct s [c] hc true with
  | case1 l r h ih =>
    have hnot : c ∉ substr s l (r - l) := by
      have := not_infix_before h hc
      rwa [List.singleton_infix_iff] at this
    rw [splitLoop_some hc h, ih (find_eq_some.mp h).2.1.add_le, find_cut h, ← substr,
      List.append_assoc, List.singleton_append, List.splitOn_append_cons_self_of_not_mem hnot]
  | case2 l h =>
    have hnot : c ∉ s.drop l := by
      have := not_infix_of_find_none h hl
      rwa [List.singleton_infix_iff] at this
    rw [splitLoop_none hc h, List.splitOn_eq_singleton hnot]
  | case3 l h hno => exact absurd (Or.inr rfl) hno

/-! ### Splitting and joining -/

lemma join_split (s sep : Str) : join (split s sep true) sep = s := by
  unfold split
  split_ifs with hs hsep
  · exact hs.symm
  · rfl
  · exact join_splitLoop hsep (Nat.zero_le _)

lemma not_infix_split (hsep : sep ≠ []) : ∀ x ∈ split s sep true, ¬ sep <:+: x := by
  unfold split
  split_ifs
  · simp
  · exact not_infix_splitLoop hsep (Nat.zero_le _)

lemma split_join {c : UInt8} {ss : List Str} (hc : ∀ x ∈ ss, c ∉ x) (h : ss ≠ [])
    (h' : ss ≠ [[]]) : split (join ss [c]) [c] true = ss := by
  have hne : join ss [c] ≠ [] := by
    obtain ⟨x, ss, rfl⟩ := List.exists_cons_of_ne_nil h
    rcases eq_or_ne ss [] with rfl | hss
    · simpa [join] using h'
    · rw [join_cons hss]
      simp
  rw [split, if_neg hne, dif_neg (List.cons_ne_nil _ _),
    splitLoop_singleton _ (Nat.zero_le _), List.drop_zero, join_eq, List.splitOn_intercalate c hc h]

/-- **`split` and `join` are inverse** to each other: always in the one direction, and in the
other for the lists that a split at one character can give. -/
theorem split_join_inverse :
    (∀ s sep : Str, join (split s sep true) sep = s) ∧
    (∀ s sep : Str, sep ≠ [] → ∀ x ∈ split s sep true, ¬ sep <:+: x) ∧
    ∀ (c : UInt8) (ss : List Str), (∀ x ∈ ss, c ∉ x) → ss ≠ [] → ss ≠ [[]] →
      split (join ss [c]) [c] true = ss :=
  ⟨join_split, fun _ _ hsep => not_infix_split hsep, fun _ _ hc h h' => split_join hc h h'⟩

/-- Three pieces, one of them empty. -/
theorem split_join_inverse_dashes :
    split (join [lit ['a'], [], lit ['b']] [chr '-']) [chr '-'] true = [lit ['a'], [], lit ['b']] :=
  split_join_inverse.2.2 (chr '-') [lit ['a'], [], lit ['b']] (by decide) (by decide) (by decide)

end Libchef.StringsSplit
