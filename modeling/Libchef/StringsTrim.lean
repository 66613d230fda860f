import Libchef.StringsModel

/-!
Trimming takes off the longest end made of the characters given, and the two ends do not
disturb each other.

Both loops are followed on the list. The one that runs down leaves at the front with the
position `-1`, which is the greatest `size_t`: one more is zero, and what is left is empty.
-/

namespace Libchef.StringsTrim

open Libchef.Text Libchef.StringsModel

variable {s charlist : Str}

/-- `l` is `s` without the longest first part made of characters of `charlist`. -/
def WithoutPrefix (charlist s l : Str) : Prop :=
  ∃ a, s = a ++ l ∧ a ⊆ charlist ∧ ∀ a' l', s = a' ++ l' → a' ⊆ charlist → a'.length ≤ a.length

/-- `r` is `s` without the longest last part made of characters of `charlist`. -/
def WithoutSuffix (charlist s r : Str) : Prop :=
  ∃ b, s = r ++ b ∧ b ⊆ charlist ∧ ∀ r' b', s = r' ++ b' → b' ⊆ charlist → b'.length ≤ b.length

/-- Empty, or with a character outside `charlist` at either end. -/
def Tidy (charlist t : Str) : Prop :=
  t = [] ∨ (∃ c ∉ charlist, t.head? = some c) ∧ ∃ c ∉ charlist, t.getLast? = some c

/-- Trimming `s`: what is left after one end has come off, either end again, and both. A read
outside `s` is no result. -/
structure Exact (s charlist l r t : Str) : Prop where
  left : trimLeft s charlist = some l
  right : trimRight s charlist = some r
  withoutPrefix : WithoutPrefix charlist s l
  withoutSuffix : WithoutSuffix charlist s r
  whole : s ⊆ charlist → l = [] ∧ r = []
  leftAgain : trimLeft l charlist = some l
  rightAgain : trimRight r charlist = some r
  leftAfterRight : trimLeft r charlist = some t
  rightAfterLeft : trimRight l charlist = some t
  tidy : Tidy charlist t

/-- A character that comes off. -/
def isIn (charlist : Str) (c : UInt8) : Bool := c ∈ charlist

@[simp] lemma isIn_iff {c : UInt8} : isIn charlist c = true ↔ c ∈ charlist := by simp [isIn]

lemma isIn_nil (c : UInt8) : isIn [] c = false := by simp [isIn]

/-! ### The loops -/

lemma trimLeftLoop_spec (charlist : Str) {pos : ℕ} (hp : pos ≤ s.length) :
    ∃ q, trimLeftLoop s charlist pos = some q ∧ q ≤ s.length ∧
      s.drop q = (s.drop pos).dropWhile (isIn charlist) := by
  induction pos using trimLeftLoop.induct (s := s) with
  | case1 pos hlt ih =>
    obtain ⟨q, hq, hle, hdrop⟩ := ih hlt
    have hcons : s.drop pos = s[pos] :: s.drop (pos + 1) := List.drop_eq_getElem_cons hlt
    rw [trimLeftLoop, if_pos hlt, List.getElem?_eq_getElem hlt]
    by_cases hc : s[pos] ∈ charlist
    · refine ⟨q, by simpa [hc] using hq, hle, ?_⟩
      rw [hdrop, hcons, List.dropWhile_cons_of_pos (isIn_iff.mpr hc)]
    · refine ⟨pos, by simp [hc], hp, ?_⟩
      rw [hcons, List.dropWhile_cons_of_neg fun h => hc (isIn_iff.mp h)]
  | case2 pos hge =>
    refine ⟨pos, by rw [trimLeftLoop, if_neg hge], hp, ?_⟩
    rw [List.drop_of_length_le (not_lt.mp hge)]
    rfl

lemma take_rdropWhile {pos : ℕ} (hp : pos < s.length) :
    (s.take (pos + 1)).rdropWhile (isIn charlist) =
      if s[pos] ∈ charlist then (s.take pos).rdropWhile (isIn charlist) else s.take (pos + 1) := by
  rw [← List.take_append_getElem hp, List.rdropWhile_concat]
  simp only [isIn_iff]

lemma trimRightLoop_spec (hs : s.length < 2 ^ 64) (charlist : Str) {pos : ℕ} (hp : pos < s.length) :
    ∃ q, trimRightLoop s charlist pos = some q ∧
      s.take ((q + 1) % 2 ^ 64) = (s.take (pos + 1)).rdropWhile (isIn charlist) := by
  induction pos with
  | zero =>
    by_cases hc : s[0] ∈ charlist
    · -- the position wraps, and one more is zero
      refine ⟨2 ^ 64 - 1, by simp [trimRightLoop, hp, hc], ?_⟩
      rw [take_rdropWhile hp, if_pos hc]
      simp
    · refine ⟨0, by simp [trimRightLoop, hp, hc], ?_⟩
      rw [take_rdropWhile hp, if_neg hc]
      rfl
  | succ pos ih =>
    obtain ⟨q, hq, htake⟩ := ih (Nat.lt_of_succ_lt hp)
    by_cases hc : s[pos + 1] ∈ charlist
    · refine ⟨q, by simpa [trimRightLoop, hp, hc] using hq, ?_⟩
      rw [take_rdropWhile hp, if_pos hc, htake]
    · refine ⟨pos + 1, by simp [trimRightLoop, hp, hc], ?_⟩
      rw [take_rdropWhile hp, if_neg hc, Nat.mod_eq_of_lt (by omega)]

/-! ### What is left -/

lemma trimLeft_eq (s charlist : Str) :
    trimLeft s charlist = some (s.dropWhile (isIn charlist)) := by
  unfold trimLeft
  split_ifs with h
  · rcases h with rfl | rfl
    · rfl
    · rw [List.dropWhile_eq_self_iff.mpr fun hl => by simp [isIn_nil]]
  · obtain ⟨q, hq, hle, hdrop⟩ := trimLeftLoop_spec charlist (Nat.zero_le s.length)
    simp [hq, hle, hdrop]

lemma trimRight_eq (hs : s.length < 2 ^ 64) (charlist : Str) :
    trimRight s charlist = some (s.rdropWhile (isIn charlist)) := by
  unfold trimRight
  split_ifs with h
  · rcases h with rfl | rfl
    · rfl
    · rw [List.rdropWhile_eq_self_iff.mpr fun hl => by simp [isIn_nil]]
  · have hpos : 0 < s.length := List.length_pos_iff.mpr fun h0 => h (Or.inl h0)
    obtain ⟨q, hq, htake⟩ := trimRightLoop_spec hs charlist (Nat.sub_one_lt_of_lt hpos)
    rw [Nat.sub_add_cancel hpos, List.take_length] at htake
    simp [hq, substr, ← htake]

lemma withoutPrefix_dropWhile (s charlist : Str) :
    WithoutPrefix charlist s (s.dropWhile (isIn charlist)) :=
  ⟨s.takeWhile (isIn charlist), List.takeWhile_append_dropWhile.symm,
    fun _ hc => isIn_iff.mp (List.mem_takeWhile_imp hc),
    fun _ _ h ha => length_le_takeWhile _ h fun _ hc => isIn_iff.mpr (ha hc)⟩

lemma withoutSuffix_rdropWhile (s charlist : Str) :
    WithoutSuffix charlist s (s.rdropWhile (isIn charlist)) :=
  ⟨s.rtakeWhile (isIn charlist), List.rdropWhile_append_rtakeWhile.symm,
    fun _ hc => isIn_iff.mp (List.mem_rtakeWhile_imp hc),
    fun _ _ h hb => length_le_rtakeWhile _ h fun _ hc => isIn_iff.mpr (hb hc)⟩

lemma tidy_trimmed (s charlist : Str) :
    Tidy charlist ((s.rdropWhile (isIn charlist)).dropWhile (isIn charlist)) := by
  set t := (s.rdropWhile (isIn charlist)).dropWhile (isIn charlist) with ht
  by_cases hne : t = []
  · exact Or.inl hne
  · have hfront : t.head hne ∉ charlist := fun h =>
      Bool.eq_false_iff.mp (List.head_dropWhile_not (isIn charlist) hne) (isIn_iff.mpr h)
    have hback : t.getLast hne ∉ charlist := fun h => by
      rw [dropWhile_rdropWhile] at ht
      have hlast := List.rdropWhile_eq_self_iff.mp
        (ht ▸ List.rdropWhile_idempotent (isIn charlist) (s.dropWhile (isIn charlist)))
      exact hlast hne (isIn_iff.mpr h)
    exact Or.inr ⟨⟨_, hfront, List.head?_eq_some_head hne⟩,
      _, hback, List.getLast?_eq_some_getLast hne⟩

/-- **Trimming is exact and the ends commute.** -/
theorem trim_exact (hs : s.length < 2 ^ 64) (charlist : Str) :
    ∃ l r t, Exact s charlist l r t := by
  set l := s.dropWhile (isIn charlist) with hl
  set r := s.rdropWhile (isIn charlist) with hr
  have hlen : l.length < 2 ^ 64 :=
    (List.dropWhile_suffix (isIn charlist)).length_le.trans_lt hs
  have hren : r.length < 2 ^ 64 :=
    (List.rdropWhile_prefix (isIn charlist) s).length_le.trans_lt hs
  refine ⟨l, r, r.dropWhile (isIn charlist), ?_⟩
  constructor
  case left => exact trimLeft_eq s charlist
  case right => exact trimRight_eq hs charlist
  case withoutPrefix => exact withoutPrefix_dropWhile s charlist
  case withoutSuffix => exact withoutSuffix_rdropWhile s charlist
  case whole =>
    intro h
    exact ⟨List.dropWhile_eq_nil_iff.mpr fun c hc => isIn_iff.mpr (h hc),
      List.rdropWhile_eq_nil_iff.mpr fun c hc => isIn_iff.mpr (h hc)⟩
  case leftAgain => rw [trimLeft_eq, hl, List.dropWhile_idempotent]
  case rightAgain => rw [trimRight_eq hren, hr, List.rdropWhile_idempotent]
  case leftAfterRight => exact trimLeft_eq r charlist
  case rightAfterLeft => rw [trimRight_eq hlen, hr, dropWhile_rdropWhile]
  case tidy => exact tidy_trimmed s charlist

/-- `cbbbccacd` with `bcd` off either end. -/
theorem trim_exact_bcd :
    ∃ l r t, Exact (lit ['c', 'b', 'b', 'b', 'c', 'c', 'a', 'c', 'd']) (lit ['b', 'c', 'd'])
      l r t :=
  trim_exact (by decide) _

end Libchef.StringsTrim
