import Libchef.StringsUrl

/-!
What `url_decode` accepts.

The grammar of encoded texts is one of a scan from left to right: an escape is three characters,
anything else is one. A text that the scan cannot read to its end gives the empty string, and
every other text what it stands for. The loop over indices never reads past the end.
-/

namespace Libchef.StringsDecode

open Libchef.StringsModel Libchef.StringsUrl

variable {s d d' : Str} {c hi lo : UInt8} {i j n : ℕ}

/-- The value of a hex digit of either case, `none` where it is none. -/
def hexValue (c : UInt8) : Option ℕ :=
  (hexdigitsUpper.idxOf? c).or ((hexdigits.take 16).idxOf? c)

/-- A text, what it stands for, and the number of escapes in it. -/
inductive Decodes : Str → Str → ℕ → Prop
  | nil : Decodes [] [] 0
  | escape {hi lo : UInt8} {i j n : ℕ} {s d : Str} (hhi : hexValue hi = some i)
    (hlo : hexValue lo = some j) (h : Decodes s d n) :
    Decodes (chr '%' :: hi :: lo :: s) (UInt8.ofNat (16 * i + j) :: d) (n + 1)
  | plus {n : ℕ} {s d : Str} (h : Decodes s d n) : Decodes (chr '+' :: s) (chr ' ' :: d) n
  | char {c : UInt8} {n : ℕ} {s d : Str} (h1 : c ≠ chr '%') (h2 : c ≠ chr '+')
    (h : Decodes s d n) : Decodes (c :: s) (c :: d) n

/-- The scan comes to a `%` that two hex digits do not follow. -/
inductive Broken : Str → Prop
  | here {s : Str} (h : ∀ hi lo rest, s = hi :: lo :: rest →
    hexValue hi = none ∨ hexValue lo = none) : Broken (chr '%' :: s)
  | escape {hi lo : UInt8} {i j : ℕ} {s : Str} (hhi : hexValue hi = some i)
    (hlo : hexValue lo = some j) (h : Broken s) : Broken (chr '%' :: hi :: lo :: s)
  | char {c : UInt8} {s : Str} (h1 : c ≠ chr '%') (h : Broken s) : Broken (c :: s)

/-! ### Hex digits -/

lemma hexValue_isSome (c : UInt8) : (hexValue c).isSome = true ↔ c ∈ hexdigits := by
  have hall : ∀ c ∈ hexdigits, c ∈ hexdigitsUpper ∨ c ∈ hexdigits.take 16 := by decide +kernel
  rw [hexValue, Option.isSome_or, Bool.or_eq_true, List.isSome_idxOf?, List.isSome_idxOf?]
  constructor
  · rintro (h | h)
    · exact mem_hexdigits_of_upper c h
    · exact List.mem_of_mem_take h
  · exact hall c

lemma hexValue_none : hexValue c = none ↔ c ∉ hexdigits := by
  rw [← hexValue_isSome, Bool.not_eq_true, Option.isSome_eq_false_iff, Option.isNone_iff_eq_none]

lemma unhex_eq (h : hexValue c = some i) : i < 16 ∧ unhex c = UInt8.ofNat i := by
  have hdigit : ∀ c ∈ hexdigits,
      (hexValue c).getD 0 < 16 ∧ unhex c = UInt8.ofNat ((hexValue c).getD 0) := by
    decide +kernel
  have hc := hdigit c ((hexValue_isSome c).mp (by rw [h]; rfl))
  rwa [h] at hc

lemma unhexPair_eq (hhi : hexValue hi = some i) (hlo : hexValue lo = some j) :
    unhexPair hi lo = UInt8.ofNat (16 * i + j) := by
  have hbits : ∀ i < 16, ∀ j < 16, UInt8.ofBitVec (((promote (UInt8.ofNat i) <<< 4) |||
      promote (UInt8.ofNat j)).truncate 8) = UInt8.ofNat (16 * i + j) := by
    decide
  obtain ⟨hi16, ehi⟩ := unhex_eq hhi
  obtain ⟨hj16, elo⟩ := unhex_eq hlo
  rw [unhexPair, ehi, elo]
  exact hbits i hi16 j hj16

/-! ### The grammar -/

lemma Decodes.length (h : Decodes s d n) : d.length + 2 * n = s.length := by
  induction h with
  | nil => rfl
  | escape _ _ _ ih => simp only [List.length_cons]; omega
  | plus _ ih => simp only [List.length_cons]; omega
  | char _ _ _ ih => simp only [List.length_cons]; omega

/-- A text that stands for something is not broken. -/
lemma Decodes.not_broken (h : Decodes s d n) : ¬ Broken s := by
  induction h with
  | nil => rintro ⟨⟩
  | escape hhi hlo _ ih =>
    intro hb
    cases hb with
    | here hno =>
      rcases hno _ _ _ rfl with hn | hn
      · rw [hhi] at hn
        cases hn
      · rw [hlo] at hn
        cases hn
    | escape _ _ hb => exact ih hb
    | char hc _ => exact hc rfl
  | plus _ ih =>
    intro hb
    cases hb with
    | char _ hb => exact ih hb
  | char hc _ _ ih =>
    intro hb
    cases hb with
    | here => exact hc rfl
    | escape => exact hc rfl
    | char _ hb => exact ih hb

lemma decodeLoop_short (h : s.length < 2) : decodeLoop (chr '%' :: s) = none := by
  match s, h with
  | [], _ | [_], _ => rfl

lemma decodeLoop_bad (h : ¬ (hi ∈ hexdigits ∧ lo ∈ hexdigits)) (s : Str) :
    decodeLoop (chr '%' :: hi :: lo :: s) = none := by
  rw [decodeLoop.eq_def]
  simp only [if_true, if_neg h]

/-- **The scan** reads a text to its end, or it is broken. -/
theorem decodeLoop_spec (s : Str) :
    decodeLoop s = none ∧ Broken s ∨ ∃ d n, decodeLoop s = some d ∧ Decodes s d n := by
  induction s using decodeLoop.induct with
  | case1 => exact Or.inr ⟨[], 0, rfl, .nil⟩
  | case2 hi lo s h ih =>
    obtain ⟨i, hhi⟩ := Option.isSome_iff_exists.mp ((hexValue_isSome hi).mpr h.1)
    obtain ⟨j, hlo⟩ := Option.isSome_iff_exists.mp ((hexValue_isSome lo).mpr h.2)
    rw [decodeLoop_escape h.1 h.2]
    rcases ih with ⟨hn, hb⟩ | ⟨d, n, hd, hs⟩
    · exact Or.inl ⟨by rw [hn]; rfl, .escape hhi hlo hb⟩
    · refine Or.inr ⟨_, n + 1, by rw [hd]; rfl, ?_⟩
      rw [unhexPair_eq hhi hlo]
      exact .escape hhi hlo hs
  | case3 hi lo s h =>
    refine Or.inl ⟨decodeLoop_bad h s, .here fun hi' lo' rest e => ?_⟩
    cases e
    rw [hexValue_none, hexValue_none]
    exact not_and_or.mp h
  | case4 s h =>
    refine Or.inl ⟨decodeLoop_short ?_, .here fun hi lo rest e => (h hi lo rest e).elim⟩
    match s with
    | [] | [_] => simp
    | hi :: lo :: rest => exact (h hi lo rest rfl).elim
  | case5 s _ ih =>
    rw [decodeLoop_plus]
    rcases ih with ⟨hn, hb⟩ | ⟨d, n, hd, hs⟩
    · exact Or.inl ⟨by rw [hn]; rfl, .char (by decide) hb⟩
    · exact Or.inr ⟨_, n, by rw [hd]; rfl, .plus hs⟩
  | case6 c s h1 h2 ih =>
    rw [decodeLoop_char h1 h2]
    rcases ih with ⟨hn, hb⟩ | ⟨d, n, hd, hs⟩
    · exact Or.inl ⟨by rw [hn]; rfl, .char h1 hb⟩
    · exact Or.inr ⟨_, n, by rw [hd]; rfl, .char h1 h2 hs⟩

lemma Decodes.decodeLoop_eq (h : Decodes s d n) : decodeLoop s = some d := by
  induction h with
  | nil => rfl
  | escape hhi hlo _ ih =>
    rw [decodeLoop_escape ((hexValue_isSome _).mp (by rw [hhi]; rfl))
      ((hexValue_isSome _).mp (by rw [hlo]; rfl)), ih, ← unhexPair_eq hhi hlo]
    rfl
  | plus _ ih => rw [decodeLoop_plus, ih]; rfl
  | char h1 h2 _ ih => rw [decodeLoop_char h1 h2, ih]; rfl

/-! ### The loop over indices -/

lemma elim_append (result : Str) (x : UInt8) (rest : Option Str) :
    some (rest.elim [] (result ++ [x] ++ ·)) =
      some ((rest.map (x :: ·)).elim [] (result ++ ·)) := by
  cases rest <;> simp

/-- From every index on the loop decodes what is left, and reads nothing outside the string. -/
lemma decodeLoopAt_eq (s : Str) (i : ℕ) (result : Str) :
    decodeLoopAt s i result = some ((decodeLoop (s.drop i)).elim [] (result ++ ·)) := by
  induction i, result using decodeLoopAt.induct s with
  | case1 i result hi h =>
    rw [List.getElem?_eq_getElem hi] at h
    cases h
  | case2 i result hi hend h =>
    obtain ⟨_, hget⟩ := List.getElem?_eq_some_iff.mp h
    rw [List.drop_eq_getElem_cons hi, hget,
      decodeLoop_short (by rw [List.length_drop]; omega), decodeLoopAt, dif_pos hi, h]
    simp only [if_true, if_pos hend]
    rfl
  | case3 i result hi hend h ih =>
    obtain ⟨_, hget⟩ := List.getElem?_eq_some_iff.mp h
    have h1 : i + 1 < s.length := by omega
    have h2 : i + 2 < s.length := by omega
    rw [List.drop_eq_getElem_cons hi, hget, List.drop_eq_getElem_cons h1,
      List.drop_eq_getElem_cons h2, decodeLoopAt, dif_pos hi, h]
    simp only [if_true, if_neg hend, List.getElem?_eq_getElem h1, List.getElem?_eq_getElem h2,
      Option.bind_eq_bind, Option.bind_some]
    by_cases hhi : s[i + 1] ∈ hexdigits
    · by_cases hlo : s[i + 2] ∈ hexdigits
      · rw [if_neg (not_not.mpr hhi), if_neg (not_not.mpr hlo), ih, decodeLoop_escape hhi hlo]
        exact elim_append ..
      · rw [if_neg (not_not.mpr hhi), if_pos hlo, decodeLoop_bad fun h => hlo h.2]
        rfl
    · rw [if_pos hhi, decodeLoop_bad fun h => hhi h.1]
      rfl
  | case4 i result hi h _ ih =>
    obtain ⟨_, hget⟩ := List.getElem?_eq_some_iff.mp h
    rw [List.drop_eq_getElem_cons hi, hget, decodeLoop_plus, decodeLoopAt, dif_pos hi, h]
    simp only [if_true, if_neg (show chr '+' ≠ chr '%' by decide)]
    rw [ih]
    exact elim_append ..
  | case5 i result hi c h h1 h2 ih =>
    obtain ⟨_, hget⟩ := List.getElem?_eq_some_iff.mp h
    rw [List.drop_eq_getElem_cons hi, hget, decodeLoop_char h1 h2, decodeLoopAt, dif_pos hi, h]
    simp only [if_neg h1, if_neg h2]
    rw [ih]
    exact elim_append ..
  | case6 i result hi =>
    rw [decodeLoopAt, dif_neg hi, List.drop_of_length_le (not_lt.mp hi)]
    simp [decodeLoop]

lemma urlDecode_eq (s : Str) : urlDecode s = (decodeLoop s).getD [] := by
  unfold urlDecode
  split_ifs with hs
  · rw [hs]
    rfl
  · rfl

lemma urlDecodeAt_eq (s : Str) : urlDecodeAt s = some (urlDecode s) := by
  unfold urlDecodeAt
  split_ifs with hs
  · rw [hs]
    rfl
  · rw [decodeLoopAt_eq, List.drop_zero, urlDecode_eq]
    cases decodeLoop s <;> rfl

/-- **What `url_decode` accepts.** It reads nothing outside the string. It gives the empty string
if and only if that is what it is given, or a `%` in it is not followed by two hex digits; and
otherwise what the string stands for, which is shorter by two for every escape. -/
theorem decode_grammar (s : Str) :
    urlDecodeAt s = some (urlDecode s) ∧
    (urlDecode s = [] ↔ s = [] ∨ Broken s) ∧
    (¬ Broken s → ∃ n, Decodes s (urlDecode s) n ∧ (urlDecode s).length + 2 * n = s.length) ∧
    ∀ d n, Decodes s d n → urlDecode s = d := by
  refine ⟨urlDecodeAt_eq s, ?_, ?_, fun d n h => ?_⟩
  · rw [urlDecode_eq]
    rcases decodeLoop_spec s with ⟨hn, hb⟩ | ⟨d, n, hd, h⟩
    · exact iff_of_true (by rw [hn]; rfl) (Or.inr hb)
    · rw [hd, or_iff_left h.not_broken]
      cases h <;> simp
  · intro hb
    rcases decodeLoop_spec s with ⟨-, hb'⟩ | ⟨d, n, hd, h⟩
    · exact absurd hb' hb
    · have hdec : urlDecode s = d := by
        rw [urlDecode_eq, hd]
        rfl
      rw [hdec]
      exact ⟨n, h, h.length⟩
  · rw [urlDecode_eq, h.decodeLoop_eq]
    rfl

end Libchef.StringsDecode
