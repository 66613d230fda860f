import Libchef.UrlParse

/-!
The shape of the pieces of a path.

The path without its last item comes of a cut at the last slash, and one slash is taken off its
front. With two slashes there, or before the last item, one of them is left.
-/

namespace Libchef.UrlShape

open Libchef.Text Libchef.StringsModel Libchef.StringsCut Libchef.UrlModel Libchef.UrlParse

variable {url a b : Str}

/-- The pieces of the path are without slashes before and after them. -/
structure Shaped (c : UrlContext) : Prop where
  front : c.pathWithoutLastItem_.head? ≠ some (chr '/')
  back : c.pathWithoutLastItem_.getLast? ≠ some (chr '/')
  item : c.lastItemOfPath_.head? ≠ some (chr '/')

/-- The path has a slash at its front besides the one that begins it and the one before the last
item, or two slashes before the last item. -/
def Crowded (url : Str) : Prop :=
  ∃ scheme host a b tail,
    url = scheme ++ schemeEnd ++ host ++ chr '/' :: (a ++ chr '/' :: b) ++ tail ∧
    ¬ schemeEnd <:+: scheme ∧ chr '/' ∉ host ∧ chr '?' ∉ a ++ chr '/' :: b ∧ chr '/' ∉ b ∧
    (tail = [] ∨ tail.head? = some (chr '?')) ∧
    (a.head? = some (chr '/') ∨ a.getLast? = some (chr '/'))

/-! ### The path behind its first slash -/

lemma itemCut_item (h : chr '/' ∉ pathTail url) : (itemCut url).2 = ([], pathTail url) := by
  rw [itemCut, path_eq]
  exact cutLast_char_append h []

lemma itemCut_append (h : pathTail url = a ++ chr '/' :: b) (hb : chr '/' ∉ b) :
    (itemCut url).2 = (chr '/' :: a, b) := by
  rw [itemCut, path_eq, h]
  exact cutLast_char_append hb (chr '/' :: a)

/-! ### The shape -/

/-- Two slashes meet at one of the ends of what is left of the path. -/
def Meets (p : Str) : Prop :=
  ∃ a b, p = a ++ chr '/' :: b ∧ chr '/' ∉ b ∧
    (a.head? = some (chr '/') ∨ a.getLast? = some (chr '/'))

lemma meets_append (hb : chr '/' ∉ b) : Meets (a ++ chr '/' :: b) ↔
    a.head? = some (chr '/') ∨ a.getLast? = some (chr '/') := by
  constructor
  · rintro ⟨a', b', hab, hb', h⟩
    obtain ⟨rfl, -⟩ := append_cons_inj hb hb' hab
    exact h
  · exact fun h => ⟨a, b, rfl, hb, h⟩

lemma shaped_iff_tail (url : Str) (ctx : UrlContext) :
    Shaped (parse url ctx).1 ↔ ¬ Meets (pathTail url) := by
  have hhead {b : Str} (hb : chr '/' ∉ b) : b.head? ≠ some (chr '/') :=
    fun h => hb (List.mem_of_head? h)
  rw [parse_eq]
  by_cases h : chr '/' ∈ pathTail url
  · obtain ⟨hcut, hb⟩ := cutLast_char h
    rw [hcut, meets_append hb, not_or]
    have hitem := itemCut_append hcut hb
    have hwithout := trimPrefix_cons (chr '/') (cutLast (pathTail url) [chr '/']).2.1
    constructor
    · rintro ⟨hf, hl, -⟩
      simp only [hitem] at hf hl
      rw [← hwithout]
      exact ⟨hf, hl⟩
    · rintro ⟨hf, hl⟩
      rw [← hwithout] at hf hl
      constructor
      all_goals simp only [hitem]
      · exact hf
      · exact hl
      · exact hhead hb
  · have hitem := itemCut_item h
    refine iff_of_true ?_ ?_
    · constructor
      all_goals simp only [hitem]
      · decide
      · decide
      · exact hhead h
    · rintro ⟨a, b, hab, -⟩
      exact h (by rw [hab]; simp)

/-- What the tail of the path is, in terms of the URL. -/
lemma crowded_iff (url : Str) : Crowded url ↔ Meets (pathTail url) := by
  constructor
  · rintro ⟨scheme, host, a, b, tail, rfl, hs, hh, hq, hb, ht, h⟩
    have hrest : scheme ++ schemeEnd ++ host ++ chr '/' :: (a ++ chr '/' :: b) ++ tail =
        scheme ++ schemeEnd ++ (host ++ chr '/' :: ((a ++ chr '/' :: b) ++ tail)) := by simp
    have htail : pathTail (scheme ++ schemeEnd ++ host ++ chr '/' :: (a ++ chr '/' :: b) ++ tail) =
        a ++ chr '/' :: b := by
      rw [hrest, pathTail, hostCut, cut_schemeEnd hs]
      show (cut (cut (host ++ chr '/' :: _) [chr '/']).2.2 [chr '?']).2.1 = _
      rw [cut_char_append hh]
      exact cut_char_before hq ht
    exact ⟨a, b, htail, hb, h⟩
  · rintro ⟨a, b, hp, hb, h⟩
    obtain ⟨hs, hsin, hsout⟩ := cut_char (cut url schemeEnd).2.2 (chr '/')
    obtain ⟨tail, ht, hpath⟩ := exists_cut_char (hostCut url).2.2 (chr '?')
    replace hpath : (hostCut url).2.2 = a ++ chr '/' :: b ++ tail :=
      hpath.trans (congrArg (· ++ tail) hp)
    have hslash : chr '/' ∈ (cut url schemeEnd).2.2 := by
      by_contra hno
      have hnil : (hostCut url).2.2 = [] := (hsout hno).2
      rw [hnil] at hpath
      simp at hpath
    have hscheme : schemeEnd <:+: url := by
      by_contra hno
      rw [hostCut_no_scheme hno] at hpath
      simp at hpath
    have hquery : chr '?' ∉ a ++ chr '/' :: b := by
      rw [← hp]
      exact (cut_char (hostCut url).2.2 (chr '?')).1
    refine ⟨(cut url schemeEnd).2.1, (hostCut url).2.1, a, b, tail, ?_, (cut_spec (by decide)).1,
      hs, hquery, hb, ht, h⟩
    calc url = (cut url schemeEnd).2.1 ++ schemeEnd ++ (cut url schemeEnd).2.2 :=
          cut_found (by decide) hscheme
      _ = (cut url schemeEnd).2.1 ++ schemeEnd ++
          ((hostCut url).2.1 ++ chr '/' :: (hostCut url).2.2) := congrArg _ (hsin hslash)
      _ = _ := by rw [hpath]; simp

/-- **When the pieces of the path have their shape**: unless the path is crowded. -/
theorem shaped_iff (url : Str) (ctx : UrlContext) :
    Shaped (parse url ctx).1 ↔ ¬ Crowded url := by
  rw [shaped_iff_tail, crowded_iff]

/-- A path with three slashes at its front. -/
theorem slashes_left : ∃ ctx, ctx = ⟨[], [], [], [], 0, [], [], [], [], []⟩ ∧
    ¬ Shaped (parse (lit ['h', ':', '/', '/', 'a', '/', '/', '/', 'b']) ctx).1 := by
  refine ⟨_, rfl, fun h => h.front ?_⟩
  decide

end Libchef.UrlShape
