import Libchef.StringsAgree

/-!
Splitting without the empty strings.

Every splitter drops the empty strings just where it would have kept them, except for the one
that splits once: a string that is the separator alone is cut before it, and what comes after is
kept without a look at it.
-/

namespace Libchef.StringsFilter

open Libchef.Text Libchef.StringsModel Libchef.StringsSplit Libchef.StringsAgree

variable {s charlist : Str} {c : UInt8} {l : ℕ}

/-- Dropping the empty strings is taking them out of what a splitter gives otherwise. -/
structure Filters (splitter : Bool → List Str) : Prop where
  filters : splitter false = nonempties (splitter true)
  nonempty : [] ∉ splitter false

lemma filters_of_eq {splitter : Bool → List Str}
    (h : splitter false = nonempties (splitter true)) : Filters splitter := by
  refine ⟨h, ?_⟩
  rw [h]
  simp [nonempties]

/-! ### The loops -/

lemma splitAnyLoop_false (s charlist : Str) (l : ℕ) :
    splitAnyLoop s charlist false l = nonempties (splitAnyLoop s charlist true l) := by
  induction l using splitAnyLoop.induct s charlist true with
  | case1 l r h ih =>
    obtain ⟨hle, ⟨c, -, hc⟩, -⟩ := findFirstOf_eq_some.mp h
    have hr := (List.getElem?_eq_some_iff.mp hc).1
    rw [splitAnyLoop_found h, splitAnyLoop_found h, nonempties_append, piece_true,
      piece_false (substr_ne_nil hle hr.le), ih]
  | case2 l h =>
    rw [splitAnyLoop_last h, splitAnyLoop_last h, piece_true, piece_false drop_ne_nil]
  | case3 l h hno => exact absurd (Or.inr rfl) hno

/-! ### The splitters -/

lemma filters_byChar (s : Str) (c : UInt8) : Filters (splitByChar s c · false) :=
  filters_of_eq (splitByChar_false s c)

lemma filters_split (s sep : Str) : Filters (split s sep ·) := by
  refine filters_of_eq ?_
  rcases eq_or_ne sep [] with rfl | hsep
  · rcases eq_or_ne s [] with rfl | hs
    · rfl
    · simp [split, nonempties_singleton, hs]
  · exact split_false hsep

lemma filters_splitAny (s charlist : Str) : Filters (splitAny s charlist ·) := by
  refine filters_of_eq ?_
  unfold splitAny
  split_ifs with hs hc
  · rfl
  · rw [nonempties_singleton, if_neg hs]
  · exact splitAnyLoop_false s charlist 0

/-! ### Splitting once -/

lemma once_alone (c : UInt8) (keep : Bool) :
    splitByChar [c] c keep true = (if keep then [[]] else []) ++ [[]] := by
  have hfind : find [c] [c] 0 = some 0 := find_singleton (a := []) (b := []) List.not_mem_nil
  rw [splitByChar, if_neg (List.cons_ne_nil _ _), if_pos rfl, hfind]
  rfl

/-- Any other string gives what is there before and after the first separator. -/
lemma once_false (h : s ≠ [c]) :
    splitByChar s c false true = nonempties (splitByChar s c true true) := by
  rcases eq_or_ne s [] with rfl | hs
  · rfl
  simp only [splitByChar, if_neg hs, if_true, Bool.false_eq_true, if_false]
  cases hfind : find s [c] 0 with
  | none => simp [nonempties_singleton, hs]
  | some pos =>
    obtain ⟨hlt, hget⟩ := List.getElem?_eq_some_iff.mp (at_singleton.mp (find_eq_some.mp hfind).2.1)
    have hpiece {x : Str} (hx : 0 < x.length) : nonempties [x] = [x] := by
      rw [nonempties_singleton, if_neg (List.length_pos_iff.mp hx)]
    have hempty : nonempties [[]] = [] := rfl
    dsimp only
    split_ifs with hfirst hlast
    · -- there is more to it than the separator
      have hone : s.length ≠ 1 := fun hlen => by
        obtain ⟨x, rfl⟩ := List.length_eq_one_iff.mp hlen
        simp only [hfirst, List.getElem_cons_zero] at hget
        exact h (by rw [hget])
      have hrest : 0 < (s.drop 1).length := by
        rw [List.length_drop]
        omega
      rw [nonempties_append, hempty, hpiece hrest]
    · have hfront : 0 < (substr s 0 (s.length - 1)).length := by
        simp only [substr, List.drop_zero, List.length_take]
        omega
      rw [nonempties_append, hempty, hpiece hfront]
    · have hfront : 0 < (substr s 0 pos).length := by
        simp only [substr, List.drop_zero, List.length_take]
        omega
      have hrest : 0 < (s.drop (pos + 1)).length := by
        rw [List.length_drop]
        omega
      have hcut : [substr s 0 pos, s.drop (pos + 1)] = [substr s 0 pos] ++ [s.drop (pos + 1)] := rfl
      rw [hcut, nonempties_append, hpiece hfront, hpiece hrest]

/-- Dropping the empty strings, for all the splitters. -/
structure DropsEmpties (s : Str) (c : UInt8) (sep charlist : Str) : Prop where
  byChar : Filters (splitByChar s c · false)
  once : Filters (splitByChar s c · true)
  byString : Filters (split s sep ·)
  any : Filters (splitAny s charlist ·)

/-- **When dropping the empty strings is filtering**: always, except where a string is split once
that is the separator alone. -/
theorem dropsEmpties_iff (s : Str) (c : UInt8) (sep charlist : Str) :
    (DropsEmpties s c sep charlist ↔ s ≠ [c]) ∧ Filters (splitByChar s c · false) ∧
      Filters (split s sep ·) ∧ Filters (splitAny s charlist ·) := by
  have h1 := filters_byChar s c
  have h2 := filters_split s sep
  have h3 := filters_splitAny s charlist
  refine ⟨⟨fun h => ?_, fun h => ⟨h1, filters_of_eq (once_false h), h2, h3⟩⟩, h1, h2, h3⟩
  rintro rfl
  have hno := h.once.nonempty
  rw [once_alone] at hno
  exact hno (by simp)

/-- The empty string behind the separator is not dropped. -/
theorem once_keeps_empty : splitByChar (lit ['-']) (chr '-') false true = [[]] ∧
    ¬ DropsEmpties (lit ['-']) (chr '-') (lit ['-']) (lit ['-']) := by
  refine ⟨once_alone (chr '-') false, fun h => ?_⟩
  have hno := h.once.nonempty
  rw [show lit ['-'] = [chr '-'] from rfl, once_alone] at hno
  exact hno (by simp)

end Libchef.StringsFilter
