import Libchef.FilepathModel

/-!
Joining paths is a monoid.

Of each side at most one slash goes away, and one is put in between. A middle that is a single
slash gives it to the one side or to the other, and what comes out is the same.
-/

namespace Libchef.FilepathJoin

open Libchef.Files Libchef.FilepathModel
open Libchef.StringsModel (Str chr lit substr)

variable {a b c : Str}

/-- A path without one slash at its end. -/
def chopEnd (a : Str) : Str := if [slash] <:+ a then a.dropLast else a

/-- A path without one slash at its front. -/
def chopFront (b : Str) : Str := if [slash] <+: b then b.tail else b

@[simp] lemma chopFront_cons (x : UInt8) (b : Str) :
    chopFront (x :: b) = if x = slash then b else x :: b := by
  simp [chopFront, eq_comm]

@[simp] lemma chopEnd_concat (a : Str) (x : UInt8) :
    chopEnd (a ++ [x]) = if x = slash then a else a ++ [x] := by
  simp [chopEnd, eq_comm]

/-- Of two paths that are not empty the one loses a slash at its end and the other one at its
front. -/
lemma join_eq (ha : a ≠ []) (hb : b ≠ []) : join a b = chopEnd a ++ slash :: chopFront b := by
  obtain ⟨a, x, rfl⟩ := (List.eq_nil_or_concat' a).resolve_left ha
  obtain ⟨y, b, rfl⟩ := List.exists_cons_of_ne_nil hb
  have hslash : chr '/' = slash := rfl
  have hlit : lit ['/'] = [slash] := rfl
  unfold join
  rw [if_neg (by simp), if_neg (by simp)]
  simp only [List.getLast?_concat, List.head?_cons, Option.some.injEq, hslash, hlit, substr,
    chopEnd_concat, chopFront_cons]
  split_ifs <;> simp

lemma join_nil_left (b : Str) : join [] b = b := rfl

lemma join_nil_right (a : Str) : join a [] = a := by
  by_cases ha : a.length = 0
  · rw [List.length_eq_zero_iff.mp ha]
    rfl
  · rw [join, if_neg ha, if_pos List.length_nil]

lemma join_ne_nil (ha : a ≠ []) (hb : b ≠ []) : join a b ≠ [] := by
  rw [join_eq ha hb]
  simp

lemma chopEnd_append (a : Str) (hb : b ≠ []) : chopEnd (a ++ b) = a ++ chopEnd b := by
  obtain ⟨b, x, rfl⟩ := (List.eq_nil_or_concat' b).resolve_left hb
  rw [← List.append_assoc, chopEnd_concat, chopEnd_concat]
  split_ifs <;> simp

lemma chopFront_append (ha : a ≠ []) (b : Str) : chopFront (a ++ b) = chopFront a ++ b := by
  obtain ⟨x, a, rfl⟩ := List.exists_cons_of_ne_nil ha
  rw [List.cons_append, chopFront_cons, chopFront_cons]
  split_ifs <;> simp

/-- The middle path between two slashes, of which it takes one away on either side. -/
lemma chop_middle (hb : b ≠ []) :
    chopEnd (slash :: chopFront b) ++ [slash] = slash :: chopFront (chopEnd b ++ [slash]) := by
  obtain ⟨x, b, rfl⟩ := List.exists_cons_of_ne_nil hb
  rcases List.eq_nil_or_concat' b with rfl | ⟨b, y, rfl⟩
  · have hone : chopEnd [x] = if x = slash then [] else [x] := chopEnd_concat [] x
    rw [hone, chopFront_cons]
    split_ifs with hx
    · rfl
    · rw [← List.singleton_append, chopEnd_append [slash] (by simp), hone, if_neg hx]
      simp [hx]
  · have hcut : chopEnd (x :: (b ++ [y])) = x :: chopEnd (b ++ [y]) :=
      chopEnd_append [x] (by simp)
    rw [hcut, List.cons_append, chopFront_cons, chopFront_cons]
    split_ifs
    · rw [← List.singleton_append, chopEnd_append [slash] (by simp), List.append_assoc]
      rfl
    · rw [← List.singleton_append, chopEnd_append [slash] (by simp), hcut]
      rfl

/-- **Joining is associative.** -/
theorem join_assoc (a b c : Str) : join (join a b) c = join a (join b c) := by
  rcases eq_or_ne a [] with rfl | ha
  · rfl
  rcases eq_or_ne b [] with rfl | hb
  · rw [join_nil_right, join_nil_left]
  rcases eq_or_ne c [] with rfl | hc
  · rw [join_nil_right, join_nil_right]
  calc join (join a b) c
      = chopEnd (chopEnd a ++ slash :: chopFront b) ++ slash :: chopFront c := by
        rw [join_eq (join_ne_nil ha hb) hc, join_eq ha hb]
    _ = chopEnd a ++ (chopEnd (slash :: chopFront b) ++ [slash]) ++ chopFront c := by
        rw [chopEnd_append _ (List.cons_ne_nil _ _)]
        simp
    _ = chopEnd a ++ slash :: chopFront (chopEnd b ++ [slash] ++ chopFront c) := by
        rw [chop_middle hb, chopFront_append (a := chopEnd b ++ [slash]) (by simp),
          List.append_assoc, List.cons_append]
    _ = join a (join b c) := by
        rw [join_eq ha (join_ne_nil hb hc), join_eq hb hc]
        simp

/-- **`join` is a monoid** on all strings, and between strings that are not empty there is one
slash for those that they lose on the two sides of it. -/
theorem join_monoid :
    (∀ a b c, join (join a b) c = join a (join b c)) ∧ (∀ a, join [] a = a) ∧
      (∀ a, join a [] = a) ∧
      ∀ a b, a ≠ [] → b ≠ [] → join a b = chopEnd a ++ slash :: chopFront b :=
  ⟨join_assoc, join_nil_left, join_nil_right, fun _ _ ha hb => join_eq ha hb⟩

/-- A single slash in the middle, and one at the front. -/
theorem join_monoid_slash :
    let a := lit ['a']
    let b := lit ['b']
    join (join a [slash]) b = join a (join [slash] b) ∧ join a (slash :: b) = a ++ slash :: b :=
  ⟨join_monoid.1 _ _ _, join_monoid.2.2.2 _ _ (by decide) (by decide)⟩

end Libchef.FilepathJoin
