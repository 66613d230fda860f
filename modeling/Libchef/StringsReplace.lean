import Libchef.StringsCut
import Libchef.StringsSplit

/-!
Replacing and counting what is found in a string.

The loops of `replace` and `count` find what the loop of `split` finds, so the one puts the
replacement between the pieces and the other counts the places between them. `replace_first` and
`replace_last` replace at one place, by the replacement as a C string.
-/

namespace Libchef.StringsReplace

open Libchef.Text Libchef.StringsModel Libchef.StringsSplit Libchef.StringsCut

variable {s t : Str} {l r n : ℕ}

/-! ### The loop of `replace` -/

section Loops

variable (ht : t ≠ [])

lemma replaceLoop_found (replacement ret : Str) (h : find s t l = some r) :
    replaceLoop s t replacement ht ret l =
      replaceLoop s t replacement ht (ret ++ substr s l (r - l) ++ replacement) (r + t.length) := by
  rw [replaceLoop]
  split
  · next r' h' =>
    obtain rfl : r = r' := Option.some.inj (h.symm.trans h')
    rfl
  · next h' => rw [h] at h'; cases h'

lemma replaceLoop_last (replacement ret : Str) (h : find s t l = none) :
    replaceLoop s t replacement ht ret l = ret ++ s.drop l := by
  rw [replaceLoop]
  split
  · next h' => rw [h] at h'; cases h'
  · split_ifs with hl
    · rfl
    · rw [List.drop_of_length_le (not_lt.mp hl), List.append_nil]

lemma replaceLoop_eq (replacement ret : Str) (l : ℕ) :
    replaceLoop s t replacement ht ret l =
      ret ++ join (splitLoop s t ht true l) replacement := by
  induction l using splitLoop.induct s t ht true generalizing ret with
  | case1 l r h ih =>
    rw [replaceLoop_found ht replacement ret h, ih, splitLoop_some ht h,
      join_cons (splitLoop_ne_nil ht _)]
    simp only [List.append_assoc]
  | case2 l h =>
    rw [replaceLoop_last ht replacement ret h, splitLoop_none ht h]
    rfl
  | case3 l h hno => exact absurd (Or.inr rfl) hno

/-! ### The loop of `count` -/

lemma countLoop_found (h : find s t l = some r) : countLoop s t ht n l =
    if n + 1 < 2 ^ 31 then
      if r + t.length ≥ s.length then some (n + 1) else countLoop s t ht (n + 1) (r + t.length)
    else none := by
  rw [countLoop]
  split
  · next h' => rw [h] at h'; cases h'
  · next r' h' =>
    obtain rfl : r = r' := Option.some.inj (h.symm.trans h')
    rfl

lemma countLoop_last (h : find s t l = none) : countLoop s t ht n l = some n := by
  rw [countLoop]
  split
  · rfl
  · next h' => rw [h] at h'; cases h'

lemma find_end (ht : t ≠ []) (hl : s.length ≤ l) : find s t l = none := by
  refine find_eq_none.mpr fun i hi hat => ?_
  have := hat.add_le
  have := List.length_pos_iff.mpr ht
  omega

lemma countLoop_eq (l : ℕ) (hn : n + (splitLoop s t ht true l).length ≤ 2 ^ 31) :
    countLoop s t ht n l = some (n + ((splitLoop s t ht true l).length - 1)) := by
  induction l using splitLoop.induct s t ht true generalizing n with
  | case1 l r h ih =>
    rw [splitLoop_some ht h, List.length_cons] at hn ⊢
    have hpos := List.length_pos_iff.mpr (splitLoop_ne_nil ht (s := s) (r + t.length))
    rw [countLoop_found ht h, if_pos (by omega)]
    split_ifs with hend
    · -- the last piece comes after the last place
      rw [splitLoop_none ht (find_end ht hend), List.length_singleton]
    · rw [ih (by omega)]
      congr 1
      omega
  | case2 l h =>
    rw [countLoop_last ht h, splitLoop_none ht h]
    rfl
  | case3 l h hno => exact absurd (Or.inr rfl) hno

end Loops

/-! ### One story -/

lemma split_eq (hs : s ≠ []) (ht : t ≠ []) : split s t true = splitLoop s t ht true 0 := by
  rw [split, if_neg hs, dif_neg ht]

lemma replace_eq (hs : s ≠ []) (ht : t ≠ []) (r : Str) :
    replace s t r = join (split s t true) r := by
  rw [split_eq hs ht, replace, if_neg hs, dif_neg ht, replaceLoop_eq, List.nil_append]

lemma count_eq (hs : s ≠ []) (ht : t ≠ []) (hn : (split s t true).length - 1 < 2 ^ 31) :
    count s t = some ((split s t true).length - 1) := by
  have hloop : countLoop s t ht 0 0 = some ((split s t true).length - 1) := by
    rw [split_eq hs ht] at hn ⊢
    rw [countLoop_eq ht 0 (by omega), Nat.zero_add]
  rcases eq_or_ne s t with rfl | hne
  · -- the string itself is found once
    have hfind : find s s 0 = some 0 :=
      find_eq_some.mpr ⟨le_rfl, ⟨Nat.zero_le _, List.prefix_rfl⟩, fun i _ hi => by omega⟩
    rw [split_eq hs ht, splitLoop_some ht hfind,
      splitLoop_none ht (find_end ht (Nat.zero_add _).ge), count, if_pos rfl]
    rfl
  · rw [count, if_neg hne, if_neg hs, dif_neg ht, hloop]

/-- **One story**: `replace` puts the replacement between the pieces of `split`, `count` counts the
places between them, and the lengths are in accordance. -/
theorem same_story (hs : s ≠ []) (ht : t ≠ []) (r : Str) :
    replace s t r = join (split s t true) r ∧
      ((split s t true).length - 1 < 2 ^ 31 →
        ∃ n, count s t = some n ∧ n = (split s t true).length - 1 ∧
          (replace s t r).length + n * t.length = s.length + n * r.length) := by
  refine ⟨replace_eq hs ht r, fun hn => ⟨_, count_eq hs ht hn, rfl, ?_⟩⟩
  have hwhole : (join (split s t true) t).length = s.length := by rw [join_split]
  rw [length_join] at hwhole
  rw [replace_eq hs ht, length_join]
  omega

/-- A text that overlaps itself is found twice in five characters. -/
theorem same_story_overlap :
    let s := lit ['a', 'a', 'a', 'a', 'a']
    let t := lit ['a', 'a']
    let r := lit ['c']
    replace s t r = join (split s t true) r ∧
      ∃ n, count s t = some n ∧ n = (split s t true).length - 1 ∧
        (replace s t r).length + n * t.length = s.length + n * r.length := by
  intro s t r
  have h := same_story (s := s) (t := t) (by decide) (by decide) r
  exact ⟨h.1, h.2 (by decide +kernel)⟩

/-! ### Replacing at one place -/

/-- Replacing the first, the last and every occurrence of `t`, put in terms of `cut`. -/
structure Agree (s t r : Str) : Prop where
  first : (cut s t).1 = true → replaceFirst s t r = (cut s t).2.1 ++ r ++ (cut s t).2.2
  last : (cut s t).1 = true → replaceLast s t r = (cutLast s t).2.1 ++ r ++ (cutLast s t).2.2
  absent : (cut s t).1 = false → replaceFirst s t r = s ∧ replaceLast s t r = s
  once : find s t 0 = rfind s t →
    replaceFirst s t r = replaceLast s t r ∧ replaceLast s t r = replace s t r

lemma find_eq_none_iff : find s t 0 = none ↔ rfind s t = none := by
  rw [find_eq_none, rfind_eq_none]
  exact ⟨fun h i => h i (Nat.zero_le i), fun h i _ => h i⟩

lemma replaceFirst_found (hs : s ≠ []) (ht : t ≠ []) {pos : ℕ} (h : find s t 0 = some pos)
    (r : Str) : replaceFirst s t r = s.take pos ++ cStr r ++ s.drop (pos + t.length) := by
  rw [replaceFirst, if_neg (not_or.mpr ⟨hs, ht⟩), h]
  rfl

lemma replaceLast_found (hs : s ≠ []) (ht : t ≠ []) {pos : ℕ} (h : rfind s t = some pos)
    (r : Str) : replaceLast s t r = s.take pos ++ cStr r ++ s.drop (pos + t.length) := by
  rw [replaceLast, if_neg (not_or.mpr ⟨hs, ht⟩), h]
  rfl

lemma replaceFirst_absent (h : find s t 0 = none) (r : Str) : replaceFirst s t r = s := by
  rw [replaceFirst, h]
  exact ite_self _

lemma replaceLast_absent (h : rfind s t = none) (r : Str) : replaceLast s t r = s := by
  rw [replaceLast, h]
  exact ite_self _

lemma replace_absent (hs : s ≠ []) (ht : t ≠ []) (h : find s t 0 = none) (r : Str) :
    replace s t r = s := by
  rw [replace, if_neg hs, dif_neg ht, replaceLoop_last ht r [] h]
  rfl

lemma replace_once (hs : s ≠ []) (ht : t ≠ []) {pos : ℕ} (h : find s t 0 = some pos)
    (hlast : rfind s t = some pos) (r : Str) :
    replace s t r = s.take pos ++ r ++ s.drop (pos + t.length) := by
  have hpos := List.length_pos_iff.mpr ht
  have hno : find s t (pos + t.length) = none :=
    find_eq_none.mpr fun i hi => (rfind_eq_some.mp hlast).2 i (by omega)
  rw [replace, if_neg hs, dif_neg ht, replaceLoop_found ht r [] h, replaceLoop_last ht r _ hno]
  rfl

/-- **When they agree**: where `t` is in the string, if and only if there is no NUL in the
replacement. -/
theorem agree_iff (hs : s ≠ []) (ht : t ≠ []) (r : Str) : Agree s t r ↔ (t <:+: s → 0 ∉ r) := by
  cases hf : find s t 0 with
  | none =>
    have hl := find_eq_none_iff.mp hf
    have hno : ¬ t <:+: s := by simpa using not_infix_of_find_none hf (Nat.zero_le _)
    have hcut : (cut s t).1 = false := by rw [cut, hf]
    have h1 := replaceFirst_absent hf r
    have h2 := replaceLast_absent hl r
    refine iff_of_true ⟨fun h => ?_, fun h => ?_, fun _ => ⟨h1, h2⟩, fun _ => ⟨by rw [h1, h2], ?_⟩⟩
      fun h => absurd h hno
    · rw [hcut] at h
      cases h
    · rw [hcut] at h
      cases h
    · rw [h2, replace_absent hs ht hf r]
  | some pos =>
    obtain ⟨pos', hl⟩ : ∃ pos', rfind s t = some pos' := by
      refine Option.ne_none_iff_exists'.mp fun hl => ?_
      rw [find_eq_none_iff.mpr hl] at hf
      cases hf
    have hin : t <:+: s := infix_iff_at.mpr ⟨pos, (find_eq_some.mp hf).2.1⟩
    have hcut : cut s t = (true, s.take pos, s.drop (pos + t.length)) := by rw [cut, hf]
    have hcutLast : cutLast s t = (true, s.take pos', s.drop (pos' + t.length)) := by
      rw [cutLast, hl]
    have h1 := replaceFirst_found hs ht hf r
    have h2 := replaceLast_found hs ht hl r
    rw [forall_prop_of_true hin, ← cStr_eq_self]
    constructor
    · intro h
      have hfirst := h.first (by rw [hcut])
      rw [h1, hcut] at hfirst
      exact List.append_cancel_left (List.append_cancel_right hfirst)
    · intro hr
      rw [hr] at h1 h2
      refine ⟨fun _ => by rw [hcut, h1], fun _ => by rw [hcutLast, h2], fun h => ?_, fun h => ?_⟩
      · rw [hcut] at h
        cases h
      · obtain rfl : pos = pos' := Option.some.inj (hf.symm.trans (h.trans hl))
        exact ⟨by rw [h1, h2], by rw [h2, replace_once hs ht hf hl r]⟩

/-- One letter in a word. -/
theorem agree_iff_letter : Agree (lit ['a', 'b']) (lit ['b']) (lit ['c']) ↔
    (lit ['b'] <:+: lit ['a', 'b'] → 0 ∉ lit ['c']) :=
  agree_iff (by decide) (by decide) _

/-- Of a replacement with a NUL in it only the part before goes into the string. -/
theorem not_agree : replaceFirst (lit ['a', 'b']) (lit ['b']) [chr 'x', 0, chr 'y'] =
      lit ['a', 'x'] ∧
    replace (lit ['a', 'b']) (lit ['b']) [chr 'x', 0, chr 'y'] = [chr 'a', chr 'x', 0, chr 'y'] ∧
    ¬ Agree (lit ['a', 'b']) (lit ['b']) [chr 'x', 0, chr 'y'] := by
  refine ⟨by decide, by decide +kernel, fun h => ?_⟩
  have hfirst := h.first (by decide)
  revert hfirst
  decide

end Libchef.StringsReplace
