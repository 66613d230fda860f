import Libchef.StringsReplace
import Mathlib.Algebra.Order.BigOperators.Group.List

/-!
Wrapping a text to a width.

Every line of the text is cut in chunks, and there are ends of lines between the chunks and
between the lines. With a width of zero the loop over a line takes nothing off it.
-/

namespace Libchef.StringsWrap

open Libchef.Text Libchef.StringsModel Libchef.StringsSplit Libchef.StringsReplace

variable {src line eol : Str} {width fuel start len : ℕ} {lines : List Str}

lemma drop_substr (s : Str) (start width : ℕ) :
    s.drop start = substr s start width ++ s.drop (start + width) := by
  rw [substr, ← List.drop_drop, List.take_append_drop]

/-! ### One line -/

/-- The loop over a line, with the piece that is left after it, appends the chunks of the line. -/
lemma wrapLoop_spec (eol : Str) (hw : 1 ≤ width) (hlen : start + len = line.length)
    (hpos : 0 < len) : ∃ cs, Chunks width (line.drop start) cs ∧
    ∀ fuel, len < fuel → ∀ first ret, ∃ start' len' first' ret',
      wrapLoop line width eol fuel start len first ret = some (start', len', first', ret') ∧
      len' ≠ 0 ∧ wrapEol eol first' ret' ++ substr line start' width =
        wrapEol eol first ret ++ join cs eol := by
  induction len using Nat.strong_induction_on generalizing start with
  | h len ih =>
    by_cases hlong : len > width
    · obtain ⟨cs, hc, hcs⟩ := ih (len - width) (by omega) (show start + width + _ = _ by omega)
        (by omega)
      have hpiece : (substr line start width).length = width := by
        rw [substr, List.length_take, List.length_drop]
        omega
      have hrest : line.drop (start + width) ≠ [] := by
        rw [← List.length_pos_iff, List.length_drop]
        omega
      refine ⟨substr line start width :: cs, ?_, fun fuel hf first ret => ?_⟩
      · rw [drop_substr line start width]
        exact hc.cons hpiece hrest
      · obtain ⟨fuel, rfl⟩ : ∃ k, fuel = k + 1 := ⟨fuel - 1, by omega⟩
        obtain ⟨start', len', first', ret', e, hne, hr⟩ :=
          hcs fuel (by omega) false (wrapEol eol first ret ++ substr line start width)
        rw [wrapLoop, if_pos hlong]
        refine ⟨start', len', first', ret', e, hne, ?_⟩
        rw [hr, join_cons hc.ne_nil]
        simp [wrapEol]
    · have hdrop : (line.drop start).length ≤ width := by
        rw [List.length_drop]
        omega
      refine ⟨[line.drop start], Chunks.single hdrop, fun fuel hf first ret => ?_⟩
      obtain ⟨fuel, rfl⟩ : ∃ k, fuel = k + 1 := ⟨fuel - 1, by omega⟩
      rw [wrapLoop, if_neg hlong]
      refine ⟨start, len, first, ret, rfl, hpos.ne', ?_⟩
      rw [substr, List.take_of_length_le hdrop]
      rfl

/-- **One line**: its chunks are appended, with ends of lines between them. -/
lemma wrapLine_spec (eol line : Str) (hw : 1 ≤ width) : ∃ cs, Chunks width line cs ∧
    ∀ fuel, line.length < fuel → ∀ first ret,
      wrapLine width eol fuel (first, ret) line =
        some (false, wrapEol eol first ret ++ join cs eol) := by
  unfold wrapLine
  split_ifs with hlong
  · obtain ⟨cs, hc, hcs⟩ :=
      wrapLoop_spec eol hw (Nat.zero_add _) (show 0 < line.length by omega)
    refine ⟨cs, hc, fun fuel hf first ret => ?_⟩
    obtain ⟨start', len', first', ret', e, hne, hr⟩ := hcs fuel hf first ret
    simp only [e, Option.bind_eq_bind, Option.bind_some, if_pos hne, hr]
  · exact ⟨[line], Chunks.single (not_lt.mp hlong), fun _ _ _ _ => rfl⟩

lemma wrapLine_short (h : line.length ≤ width) (fuel : ℕ) (first : Bool) (ret : Str) :
    wrapLine width eol fuel (first, ret) line = some (false, wrapEol eol first ret ++ line) :=
  if_neg (not_lt.mpr h)

lemma wrapLoop_zero (hpos : 0 < len) (fuel start : ℕ) (first : Bool) (ret : Str) :
    wrapLoop line 0 eol fuel start len first ret = none := by
  induction fuel generalizing start first ret with
  | zero => rfl
  | succ fuel ih =>
    rw [wrapLoop, if_pos hpos]
    exact ih ..

lemma wrapLine_zero (h : line ≠ []) (fuel : ℕ) (st : Bool × Str) :
    wrapLine 0 eol fuel st line = none := by
  have hpos := List.length_pos_iff.mpr h
  rw [wrapLine, if_pos hpos, wrapLoop_zero hpos]
  rfl

/-! ### All lines -/

lemma foldlM_wrapLine {f : Str → Str} (hf : ∀ line ∈ lines, ∀ first ret,
      wrapLine width eol fuel (first, ret) line = some (false, wrapEol eol first ret ++ f line))
    (first : Bool) (ret : Str) : ∃ first', lines.foldlM (wrapLine width eol fuel) (first, ret) =
    some (first', if lines = [] then ret else wrapEol eol first ret ++ join (lines.map f) eol) := by
  induction lines generalizing first ret with
  | nil => exact ⟨first, rfl⟩
  | cons line lines ih =>
    obtain ⟨first', es⟩ := ih (fun x hx => hf x (by simp [hx])) false
      (wrapEol eol first ret ++ f line)
    refine ⟨first', ?_⟩
    rw [List.foldlM_cons, hf line (by simp), Option.bind_eq_bind, Option.bind_some, es,
      if_neg (List.cons_ne_nil _ _)]
    split_ifs with hl
    · rw [hl]
      rfl
    · rw [List.map_cons, join_cons (by simpa using hl)]
      simp [wrapEol]

lemma textFlowWrap_eq {f : Str → Str} (hf : ∀ line ∈ split src eol true, ∀ first ret,
      wrapLine width eol fuel (first, ret) line = some (false, wrapEol eol first ret ++ f line)) :
    textFlowWrap fuel src width eol = some (join ((split src eol true).map f) eol) := by
  obtain ⟨first', e⟩ := foldlM_wrapLine hf true []
  rw [textFlowWrap, e, Option.map_some]
  split_ifs with hl
  · rw [hl]
    rfl
  · rfl

lemma textFlowWrap_short (h : ∀ line ∈ split src eol true, line.length ≤ width) (fuel : ℕ) :
    textFlowWrap fuel src width eol = some src := by
  rw [textFlowWrap_eq (f := id) fun line hl => wrapLine_short (h line hl) fuel, List.map_id,
    join_split]

lemma length_le_of_mem_split (h : line ∈ split src eol true) : line.length ≤ src.length := by
  have hsum : line.length ≤ ((split src eol true).map List.length).sum :=
    List.le_sum_of_mem (List.mem_map_of_mem h)
  have hwhole : (join (split src eol true) eol).length = src.length := by rw [join_split]
  rw [length_join] at hwhole
  omega

lemma textFlowWrap_some (src eol : Str) (hw : 1 ≤ width) : ∃ f : Str → List Str,
    (∀ line, Chunks width line (f line)) ∧ ∀ fuel, src.length < fuel →
      textFlowWrap fuel src width eol =
        some (join ((split src eol true).map fun line => join (f line) eol) eol) := by
  choose f hc hf using fun line => wrapLine_spec eol line hw
  refine ⟨f, hc, fun fuel hfuel => textFlowWrap_eq fun line hl => hf line fuel ?_⟩
  exact (length_le_of_mem_split hl).trans_lt hfuel

/-! ### When it ends -/

lemma wrapLine_of_foldlM {r st : Bool × Str}
    (e : lines.foldlM (wrapLine width eol fuel) st = some r) :
    ∀ line ∈ lines, ∃ st', wrapLine width eol fuel st' line ≠ none := by
  induction lines generalizing st with
  | nil => simp
  | cons x lines ih =>
    rw [List.foldlM_cons] at e
    obtain ⟨st', e₁, e₂⟩ := Option.bind_eq_some_iff.mp e
    intro line hl
    rcases List.mem_cons.mp hl with rfl | hl
    · exact ⟨st, by rw [e₁]; simp⟩
    · exact ih e₂ line hl

/-- All pieces are empty where there is nothing but separators. -/
lemma splitLoop_seps (heol : eol ≠ []) {l m : ℕ} (h : src.drop l = (List.replicate m eol).flatten) :
    ∀ x ∈ splitLoop src eol heol true l, x = [] := by
  -- a separator that comes next is found where it is
  have hat {l m : ℕ} (h : src.drop l = (List.replicate (m + 1) eol).flatten) : At src eol l := by
    rw [List.replicate_succ, List.flatten_cons] at h
    have hlen := congrArg List.length h
    have hpos := List.length_pos_iff.mpr heol
    rw [List.length_drop, List.length_append] at hlen
    exact ⟨by omega, _, h.symm⟩
  induction l using splitLoop.induct src eol heol true generalizing m with
  | case1 l r hr ih =>
    obtain ⟨hle, hat', hno⟩ := find_eq_some.mp hr
    cases m with
    | zero =>
      have hcut := find_cut hr
      rw [h] at hcut
      simp [heol] at hcut
    | succ m =>
      obtain rfl : l = r := by
        by_contra hne
        exact hno l le_rfl (by omega) (hat h)
      rw [List.replicate_succ, List.flatten_cons] at h
      rw [splitLoop_some heol hr, Nat.sub_self]
      intro x hx
      rcases List.mem_cons.mp hx with rfl | hx
      · exact List.take_zero
      · refine ih (m := m) ?_ x hx
        rw [← List.drop_drop, h, List.drop_left]
  | case2 l hr =>
    cases m with
    | zero => simpa [splitLoop_none heol hr] using h
    | succ m => exact absurd (hat h) (find_eq_none.mp hr l le_rfl)
  | case3 l hr hno => exact absurd (Or.inr rfl) hno

/-- The text has no lines but empty ones just where it is ends of lines only. -/
lemma lines_empty_iff (src eol : Str) : (∀ line ∈ split src eol true, line = []) ↔
    ∃ n, src = (List.replicate n eol).flatten := by
  constructor
  · intro h
    have hjoin (n : ℕ) : join (List.replicate (n + 1) []) eol = (List.replicate n eol).flatten := by
      induction n with
      | zero => rfl
      | succ n ih =>
        rw [List.replicate_succ, join_cons (by simp), ih, List.replicate_succ, List.flatten_cons,
          List.nil_append]
    rw [← join_split src eol, List.eq_replicate_iff.mpr ⟨rfl, h⟩]
    cases (split src eol true).length with
    | zero => exact ⟨0, rfl⟩
    | succ n => exact ⟨n, hjoin n⟩
  · rintro ⟨n, h⟩
    rcases eq_or_ne src [] with rfl | hs
    · simp [split]
    · have heol : eol ≠ [] := by
        rintro rfl
        exact hs (by simpa using h)
      rw [split_eq hs heol]
      exact splitLoop_seps heol h

/-- **When it ends**: with any width but zero, and with zero for a text that is ends of lines
only. -/
theorem ends_iff (src : Str) (width : ℕ) (eol : Str) :
    (∃ fuel, (textFlowWrap fuel src width eol).isSome) ↔
      width ≠ 0 ∨ ∃ n, src = (List.replicate n eol).flatten := by
  rw [← lines_empty_iff]
  constructor
  · rintro ⟨fuel, h⟩
    rw [or_iff_not_imp_left, not_not]
    rintro rfl line hl
    rw [textFlowWrap, Option.isSome_map] at h
    obtain ⟨r, hr⟩ := Option.isSome_iff_exists.mp h
    obtain ⟨st, hst⟩ := wrapLine_of_foldlM hr line hl
    by_contra hne
    exact hst (wrapLine_zero hne fuel st)
  · rintro (hw | h)
    · obtain ⟨f, -, hf⟩ := textFlowWrap_some src eol (Nat.one_le_iff_ne_zero.mpr hw)
      exact ⟨src.length + 1, by rw [hf _ (Nat.lt_succ_self _)]; rfl⟩
    · refine ⟨0, ?_⟩
      rw [textFlowWrap_short fun line hl => by simp [h line hl]]
      rfl

/-- A letter is never wrapped to a width of zero. -/
theorem letter_never_ends : ¬ ∃ fuel, (textFlowWrap fuel (lit ['a']) 0 []).isSome := by
  rintro ⟨fuel, h⟩
  have hline : (split (lit ['a']) [] true).foldlM (wrapLine 0 [] fuel) (true, []) = none := by
    rw [show split (lit ['a']) [] true = [lit ['a']] from rfl, List.foldlM_cons,
      wrapLine_zero (by decide)]
    rfl
  rw [textFlowWrap, hline] at h
  cases h

/-! ### Only ends of lines are put in -/

variable {c : UInt8} {f : Str → List Str}

lemma sublist_wrapped (hf : ∀ line, Chunks width line (f line)) (src eol : Str) :
    src.Sublist (join ((split src eol true).map fun line => join (f line) eol) eol) := by
  have hline : ∀ line ∈ split src eol true, line.Sublist (join (f line) eol) := fun line _ => by
    have h := flatten_sublist_join (f line) eol
    rwa [(hf line).flatten] at h
  have h := join_sublist_join eol hline
  rwa [join_split] at h

lemma join_wrapped (hf : ∀ line, Chunks width line (f line)) (src eol : Str) :
    join ((split src eol true).map fun line => join (f line) eol) eol =
      join ((split src eol true).map f).flatten eol := by
  rw [← join_map_join, List.map_map]
  · rfl
  · intro cs hcs
    obtain ⟨line, -, rfl⟩ := List.mem_map.mp hcs
    exact (hf line).ne_nil

lemma flatten_wrapped (hf : ∀ line, Chunks width line (f line)) (src eol : Str) :
    ((split src eol true).map f).flatten.flatten = (split src eol true).flatten := by
  have hline : List.flatten ∘ f = id := funext fun line => (hf line).flatten
  calc ((split src eol true).map f).flatten.flatten
      = ((split src eol true).map (List.flatten ∘ f)).flatten := by
        rw [List.flatten_flatten, List.map_map]
    _ = (split src eol true).flatten := by rw [hline, List.map_id]

/-- The wrapped text splits in the chunks of the lines. -/
lemma split_wrapped (hf : ∀ line, Chunks width line (f line)) (src : Str) (c : UInt8) :
    split (join ((split src [c] true).map f).flatten [c]) [c] true =
      ((split src [c] true).map f).flatten := by
  rcases eq_or_ne src [] with rfl | hs
  · rfl
  · refine split_join (fun x hx hc => ?_) (fun h => ?_) fun h => ?_
    · -- what is in a chunk is in a line
      have hm : c ∈ (split src [c] true).flatten := by
        rw [← flatten_wrapped hf]
        exact List.mem_flatten.mpr ⟨x, hx, hc⟩
      obtain ⟨line, hl, hm⟩ := List.mem_flatten.mp hm
      refine not_infix_split (List.cons_ne_nil _ _) line hl ?_
      rwa [List.singleton_infix_iff]
    all_goals
      have hsub := sublist_wrapped hf src [c]
      rw [join_wrapped hf, h] at hsub
      exact hs (List.sublist_nil.mp hsub)

/-- What it means that `ret` is `src` wrapped to `width` with ends of lines `c`. -/
structure Wrapped (src : Str) (width : ℕ) (c : UInt8) (ret : Str) : Prop where
  fits : ∀ line ∈ split ret [c] true, line.length ≤ width
  same : ret.filter (· ≠ c) = src.filter (· ≠ c)
  kept : src.Sublist ret
  chunks : ∃ css, List.Forall₂ (Chunks width) (split src [c] true) css ∧
    ret = join (css.map (join · [c])) [c] ∧ split ret [c] true = css.flatten
  again : ∀ fuel, textFlowWrap fuel ret width [c] = some ret

/-- **Wrapping only puts in ends of lines**, between the chunks of a line, which come to the
width but for the last one. -/
theorem wrap_inserts (src : Str) (c : UInt8) (hw : 1 ≤ width) : ∃ ret,
    (∀ fuel, src.length < fuel → textFlowWrap fuel src width [c] = some ret) ∧
      Wrapped src width c ret := by
  obtain ⟨f, hf, hwrap⟩ := textFlowWrap_some src [c] hw
  set css := (split src [c] true).map f with hcss
  have hret := join_wrapped hf src [c]
  have hsplit := split_wrapped hf src c
  have hfits : ∀ line ∈ css.flatten, line.length ≤ width := by
    intro x hx
    obtain ⟨cs, hcs, hx⟩ := List.mem_flatten.mp hx
    obtain ⟨line, -, rfl⟩ := List.mem_map.mp hcs
    exact (hf line).length_le x hx
  refine ⟨_, hwrap, ?_⟩
  rw [hret]
  constructor
  · rwa [hsplit]
  · calc (join css.flatten [c]).filter (· ≠ c)
        = css.flatten.flatten.filter (· ≠ c) := filter_join _ c
      _ = (split src [c] true).flatten.filter (· ≠ c) := by rw [hcss, flatten_wrapped hf]
      _ = (join (split src [c] true) [c]).filter (· ≠ c) := (filter_join _ c).symm
      _ = src.filter (· ≠ c) := by rw [join_split]
  · rw [← hret]
    exact sublist_wrapped hf src [c]
  · refine ⟨css, ?_, ?_, hsplit⟩
    · rw [hcss, List.forall₂_map_right_iff]
      exact List.forall₂_same.mpr fun line _ => hf line
    · rw [← hret, hcss, List.map_map]
      rfl
  · exact textFlowWrap_short (by rwa [hsplit])

/-- A line that comes to the width twice, an empty one and a short one. -/
theorem wrap_inserts_lines : Wrapped (lit ['a', 'b', 'c', 'd', '\n', '\n', 'e']) 2 lf
    (lit ['a', 'b', '\n', 'c', 'd', '\n', '\n', 'e']) := by
  obtain ⟨ret, hwrap, h⟩ := wrap_inserts (lit ['a', 'b', 'c', 'd', '\n', '\n', 'e']) lf
    (show 1 ≤ 2 by decide)
  have hret : textFlowWrap 8 (lit ['a', 'b', 'c', 'd', '\n', '\n', 'e']) 2 [lf] =
      some (lit ['a', 'b', '\n', 'c', 'd', '\n', '\n', 'e']) := by decide +kernel
  rwa [Option.some.inj ((hwrap 8 (by decide)).symm.trans hret)] at h

end Libchef.StringsWrap
