import Libchef.StringsSplit
import Mathlib.Data.List.TakeWhile

/-!
The three splitters where the separator is one character.

Each of them comes to splitting the string at every such character, and to dropping the empty
pieces where they are not kept. `std::getline` gives no last piece to a string that ends with
the separator; the one that is put behind the others is that piece.
-/

namespace Libchef.StringsAgree

open Libchef.Text Libchef.StringsModel Libchef.StringsSplit

variable {s sep charlist ss item rest : Str} {c : UInt8} {l r : ℕ}

/-- The pieces that are not empty. -/
def nonempties (ss : List Str) : List Str := ss.filter (· ≠ [])

@[simp] lemma nonempties_append (ss ss' : List Str) :
    nonempties (ss ++ ss') = nonempties ss ++ nonempties ss' := List.filter_append ..

lemma nonempties_singleton (x : Str) : nonempties [x] = if x = [] then [] else [x] := by
  unfold nonempties
  split_ifs with h <;> simp [h]

lemma piece_true (x : Str) (p : Prop) [Decidable p] :
    (if p ∨ (true : Bool) then [x] else []) = [x] := if_pos (Or.inr rfl)

lemma piece_false {x : Str} {p : Prop} [Decidable p] (h : p ↔ x ≠ []) :
    (if p ∨ (false : Bool) then [x] else []) = nonempties [x] := by
  rw [nonempties_singleton]
  by_cases hx : x = [] <;> simp [h, hx]

/-! ### Splitting by a string -/

lemma substr_ne_nil (hl : l ≤ r) (hr : r ≤ s.length) : l ≠ r ↔ substr s l (r - l) ≠ [] := by
  rw [substr, ← List.length_pos_iff, List.length_take, List.length_drop]
  omega

lemma drop_ne_nil : l < s.length ↔ s.drop l ≠ [] := by
  rw [← List.length_pos_iff, List.length_drop]
  omega

lemma splitLoop_false (hsep : sep ≠ []) (hl : l ≤ s.length) :
    splitLoop s sep hsep false l = nonempties (splitLoop s sep hsep true l) := by
  induction l using splitLoop.induct s sep hsep true with
  | case1 l r h ih =>
    obtain ⟨hle, hat, -⟩ := find_eq_some.mp h
    have hr := hat.add_le
    rw [splitLoop_found hsep h, splitLoop_found hsep h, nonempties_append, piece_true,
      piece_false (substr_ne_nil hle hat.1), ih hr]
  | case2 l h =>
    rw [splitLoop_last hsep h, splitLoop_last hsep h, piece_true, piece_false drop_ne_nil]
  | case3 l h hno => exact absurd (Or.inr rfl) hno

/-! ### Splitting at any of some characters -/

lemma splitAnyLoop_found {keep : Bool} (h : findFirstOf s charlist l = some r) :
    splitAnyLoop s charlist keep l = (if l ≠ r ∨ keep then [substr s l (r - l)] else []) ++
      splitAnyLoop s charlist keep (r + 1) := by
  rw [splitAnyLoop]
  split
  · next r' h' =>
    obtain rfl : r = r' := Option.some.inj (h.symm.trans h')
    rfl
  · next h' => rw [h] at h'; cases h'

lemma splitAnyLoop_last {keep : Bool} (h : findFirstOf s charlist l = none) :
    splitAnyLoop s charlist keep l = if l < s.length ∨ keep then [s.drop l] else [] := by
  rw [splitAnyLoop]
  split
  · next h' => rw [h] at h'; cases h'
  · rfl

lemma splitAnyLoop_singleton (keep : Bool) (hc : [c] ≠ []) (l : ℕ) :
    splitAnyLoop s [c] keep l = splitLoop s [c] hc keep l := by
  induction l using splitAnyLoop.induct s [c] true with
  | case1 l r h ih =>
    rw [splitAnyLoop_found h, ih]
    rw [findFirstOf_singleton] at h
    exact (splitLoop_found hc h).symm
  | case2 l h =>
    rw [splitAnyLoop_last h]
    rw [findFirstOf_singleton] at h
    exact (splitLoop_last hc h).symm
  | case3 l h hno => exact absurd (Or.inr rfl) hno

/-! ### Splitting by `getline` -/

/-- `getline` reads up to the separator, or to the end of the stream. -/
lemma getline_cases (h : getline ss c = some (item, rest)) :
    c ∉ item ∧ (ss = item ++ c :: rest ∨ ss = item ∧ rest = []) := by
  unfold getline at h
  split_ifs at h with hs
  obtain ⟨hi, hr⟩ := Prod.mk.inj (Option.some.inj h)
  have hnot : c ∉ item := by
    intro hm
    rw [← hi] at hm
    simpa using List.mem_takeWhile_imp hm
  have hcut := ss.takeWhile_append_dropWhile (p := (· ≠ c))
  refine ⟨hnot, ?_⟩
  rw [hi] at hcut
  cases hd : ss.dropWhile (· ≠ c) with
  | nil =>
    rw [hd] at hcut hr
    exact Or.inr ⟨by rw [← hcut, List.append_nil], hr.symm⟩
  | cons x l =>
    have hx : x = c := by
      have := List.head?_dropWhile_not (· ≠ c) ss
      rw [hd] at this
      simpa using this
    rw [hd] at hcut hr
    exact Or.inl (by rw [← hcut, hx, ← hr, List.tail_cons])

lemma getlineLoop_some {keep : Bool} (h : getline ss c = some (item, rest)) :
    getlineLoop c keep ss =
      (if !keep && item.isEmpty then [] else [item]) ++ getlineLoop c keep rest := by
  rw [getlineLoop]
  split
  · next item' rest' h' =>
    obtain ⟨rfl, rfl⟩ := Prod.mk.inj (Option.some.inj (h.symm.trans h'))
    rfl
  · next h' => rw [h] at h'; cases h'

lemma getlineLoop_nil {keep : Bool} : getlineLoop c keep [] = [] := by
  rw [getlineLoop]
  rfl

lemma getlineLoop_false (ss : Str) :
    getlineLoop c false ss = nonempties (getlineLoop c true ss) := by
  induction ss using getlineLoop.induct c with
  | case1 ss item rest h ih =>
    rw [getlineLoop_some h, getlineLoop_some h, ih, nonempties_append]
    congr 1
    rw [Bool.not_true, Bool.false_and, if_neg Bool.false_ne_true, nonempties_singleton]
    simp [List.isEmpty_iff]
  | case2 ss h =>
    have hs : ss = [] := by
      by_contra hne
      simp [getline, hne] at h
    rw [hs, getlineLoop_nil, getlineLoop_nil]
    rfl

lemma getlineLoop_true (hs : ss ≠ []) :
    getlineLoop c true ss ++ (if ss.getLast? = some c then [[]] else []) = ss.splitOn c := by
  induction ss using getlineLoop.induct c with
  | case1 ss item rest h ih =>
    obtain ⟨hnot, rfl | ⟨rfl, rfl⟩⟩ := getline_cases h
    · rw [getlineLoop_some h, List.splitOn_append_cons_self_of_not_mem hnot]
      rcases eq_or_ne rest [] with rfl | hrest
      · simp [getlineLoop_nil]
      · rw [← ih hrest, List.getLast?_append, List.getLast?_cons_of_ne_nil hrest]
        simp [hrest]
    · have hlast : ss.getLast? ≠ some c := fun hl => hnot (List.mem_of_getLast? hl)
      rw [getlineLoop_some h, getlineLoop_nil, if_neg hlast, List.splitOn_eq_singleton hnot]
      rfl
  | case2 ss h => simp [getline, hs] at h

/-! ### The three splitters -/

lemma split_false (hsep : sep ≠ []) : split s sep false = nonempties (split s sep true) := by
  unfold split
  split_ifs with hs
  · rfl
  · exact splitLoop_false hsep (Nat.zero_le _)

lemma splitByChar_all {keep : Bool} (hs : s ≠ []) : splitByChar s c keep false =
    getlineLoop c keep s ++ if keep && s.getLast? = some c then [[]] else [] := by
  rw [splitByChar, if_neg hs, if_neg Bool.false_ne_true]

lemma splitByChar_true (s : Str) (c : UInt8) :
    splitByChar s c true false = split s [c] true := by
  rcases eq_or_ne s [] with rfl | hs
  · rfl
  rw [splitByChar_all hs, split, if_neg hs, dif_neg (List.cons_ne_nil _ _),
    splitLoop_singleton _ (Nat.zero_le _), List.drop_zero, ← getlineLoop_true hs]
  simp

lemma splitByChar_false (s : Str) (c : UInt8) :
    splitByChar s c false false = nonempties (splitByChar s c true false) := by
  rcases eq_or_ne s [] with rfl | hs
  · rfl
  rw [splitByChar_all hs, splitByChar_all hs, nonempties_append, getlineLoop_false]
  congr 1
  rw [Bool.false_and, if_neg Bool.false_ne_true]
  split_ifs <;> rfl

/-- **The splitters agree** on separators of one character. -/
theorem splitters_agree (s : Str) (c : UInt8) (keepEmptyStrings : Bool) :
    splitByChar s c keepEmptyStrings false = split s [c] keepEmptyStrings ∧
      split s [c] keepEmptyStrings = splitAny s [c] keepEmptyStrings := by
  constructor
  · cases keepEmptyStrings with
    | true => exact splitByChar_true s c
    | false =>
      rw [splitByChar_false, splitByChar_true, split_false (List.cons_ne_nil _ _)]
  · rw [split, splitAny, dif_neg (List.cons_ne_nil _ _), if_neg (List.cons_ne_nil _ _),
      splitAnyLoop_singleton _ (List.cons_ne_nil _ _)]

end Libchef.StringsAgree
