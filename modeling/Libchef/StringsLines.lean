import Libchef.StringsModel

/-!
Splitting a string in lines.

A line is a body without ends of lines and how it ends. The loop of `splitlines` reads a body
one character at a time, and an end of line all at once.
-/

namespace Libchef.StringsLines

open Libchef.Text Libchef.StringsModel

/-- How a line ends: not at all, or with one of the three terminators. -/
inductive Ending where
  | unended
  | byCr
  | byLf
  | byCrLf

/-- The characters of an end of line. -/
def Ending.text : Ending → Str
  | .unended => []
  | .byCr => [cr]
  | .byLf => [lf]
  | .byCrLf => [cr, lf]

/-- There is no end of line in it. -/
def Plain (body : Str) : Prop := cr ∉ body ∧ lf ∉ body

structure Line where
  body : Str
  ending : Ending
  plain : Plain body

/-- What `splitlines` gives for a line. -/
def Line.text (keepEnds : Bool) (x : Line) : Str :=
  x.body ++ if keepEnds then x.ending.text else []

/-- The line with its end. -/
def Line.whole (x : Line) : Str := x.body ++ x.ending.text

/-- The lines of a text: all but the last one end, and the last one is not empty. A `CR` ends a
line by itself only where no `LF` follows. -/
inductive Lines : Str → List Line → Prop
  | nil : Lines [] []
  | last (x : Line) (hend : x.ending = .unended) (hne : x.body ≠ []) : Lines x.body [x]
  | cons (x : Line) {s : Str} {ls : List Line} (hend : x.ending ≠ .unended)
      (hcr : x.ending = .byCr → s.head? ≠ some lf) (h : Lines s ls) : Lines (x.whole ++ s) (x :: ls)

variable {s : Str} {l r : ℕ} {ls : List Line}

/-! ### The lines of a text -/

lemma Line.whole_ne_nil {x : Line} (h : x.ending ≠ .unended) : x.whole ≠ [] := by
  obtain ⟨body, ending, hp⟩ := x
  cases ending with
  | unended => exact absurd rfl h
  | _ => simp [Line.whole, Ending.text]

lemma Line.whole_of_unended {x : Line} (h : x.ending = .unended) : x.whole = x.body := by
  rw [Line.whole, h, Ending.text, List.append_nil]

namespace Lines

lemma flatten (h : Lines s ls) : (ls.map Line.whole).flatten = s := by
  induction h with
  | nil => rfl
  | last x hend hne => simp [Line.whole_of_unended hend]
  | cons x hend hcr h ih => rw [List.map_cons, List.flatten_cons, ih]

lemma whole_ne_nil (h : Lines s ls) : ∀ x ∈ ls, x.whole ≠ [] := by
  induction h with
  | nil => simp
  | last x hend hne => simpa [Line.whole_of_unended hend] using hne
  | cons x hend hcr h ih => exact List.forall_mem_cons.mpr ⟨Line.whole_ne_nil hend, ih⟩

lemma ended (h : Lines s ls) : ∀ x ∈ ls.dropLast, x.ending ≠ .unended := by
  induction h with
  | nil => simp
  | last x hend hne => simp
  | @cons x s ls hend hcr h ih =>
    rcases eq_or_ne ls [] with rfl | hls
    · simp
    · rw [List.dropLast_cons_of_ne_nil hls]
      exact List.forall_mem_cons.mpr ⟨hend, ih⟩

lemma head?_eq {x : Line} (h : Lines s (x :: ls)) : x.whole.head? = s.head? := by
  have hflat := h.flatten
  have hne := h.whole_ne_nil x (List.mem_cons_self)
  obtain ⟨c, w, hw⟩ := List.exists_cons_of_ne_nil hne
  rw [← hflat, List.map_cons, List.flatten_cons, hw]
  rfl

/-- A `CR` and a `LF` that follows it are not cut apart. -/
lemma isChain (h : Lines s ls) :
    ls.IsChain fun x y => x.ending = .byCr → y.whole.head? ≠ some lf := by
  induction h with
  | nil => exact List.IsChain.nil
  | last x hend hne => exact List.IsChain.singleton x
  | @cons x s ls hend hcr h ih =>
    cases ls with
    | nil => exact List.IsChain.singleton x
    | cons y ls =>
      refine List.isChain_cons_cons.mpr ⟨fun he => ?_, ih⟩
      rw [h.head?_eq]
      exact hcr he

end Lines

/-! ### The loop of `splitlines` -/

lemma loop_end (keepEnds : Bool) (ret : List Str) (l : ℕ) :
    splitlinesLoop s keepEnds ret l s.length =
      some (ret ++ if l < s.length then [substr s l (s.length - l)] else []) := by
  rw [splitlinesLoop, if_pos rfl]

section Round

variable (hr : r < s.length) (keepEnds : Bool) (ret : List Str) (l : ℕ)

/-- One round, at a character that is read. -/
lemma loop_round : splitlinesLoop s keepEnds ret l r =
    if s[r] = cr then
      if s[r + 1]? = some lf then
        splitlinesLoop s keepEnds
          (ret ++ [substr s l (r - l) ++ if keepEnds then [cr, lf] else []]) (r + 2) (r + 2)
      else
        splitlinesLoop s keepEnds
          (ret ++ [substr s l (r - l) ++ if keepEnds then [cr] else []]) (r + 1) (r + 1)
    else if s[r] = lf then
      splitlinesLoop s keepEnds
        (ret ++ [substr s l (r - l) ++ if keepEnds then [lf] else []]) (r + 1) (r + 1)
    else splitlinesLoop s keepEnds ret l (r + 1) := by
  rw [splitlinesLoop, if_neg hr.ne]
  split
  · next h => rw [List.getElem?_eq_getElem hr] at h; cases h
  · next ch h =>
    rw [List.getElem?_eq_getElem hr] at h
    obtain rfl := Option.some.inj h
    by_cases hcr : s[r] = cr
    · rw [if_pos hcr, if_pos hcr]
      by_cases hlast : r + 1 = s.length
      · -- the string ends with the `CR`
        rw [if_pos hlast, hlast, List.getElem?_eq_none le_rfl]
        rfl
      · have hr' : r + 1 < s.length := by omega
        rw [if_neg hlast, List.getElem?_eq_getElem hr']
        by_cases hnext : s[r + 1] = lf
        · rw [if_pos (congrArg some hnext)]
          cases keepEnds <;> simp [hnext]
        · rw [if_neg fun h => hnext (Option.some.inj h)]
          simp [hnext]
    · rw [if_neg hcr, if_neg hcr]

end Round

lemma drop_body (hlr : l ≤ r) (n : ℕ) :
    s.drop l = substr s l (r - l) ++ ((s.drop r).take n ++ s.drop (r + n)) := by
  rw [substr, ← List.drop_drop, List.take_append_drop]
  conv_lhs => rw [← List.take_append_drop (r - l) (s.drop l), List.drop_drop,
    Nat.add_sub_cancel' hlr]

/-- One character of the body is read, or the line ends. -/
lemma loop_step (hr : r < s.length) (hlr : l ≤ r) (hp : Plain (substr s l (r - l))) :
    (Plain (substr s l (r + 1 - l)) ∧ ∀ keepEnds ret,
      splitlinesLoop s keepEnds ret l r = splitlinesLoop s keepEnds ret l (r + 1)) ∨
    ∃ (x : Line) (n : ℕ), 0 < n ∧ r + n ≤ s.length ∧ x.ending ≠ .unended ∧
      (x.ending = .byCr → (s.drop (r + n)).head? ≠ some lf) ∧
      s.drop l = x.whole ++ s.drop (r + n) ∧ ∀ keepEnds ret,
        splitlinesLoop s keepEnds ret l r =
          splitlinesLoop s keepEnds (ret ++ [x.text keepEnds]) (r + n) (r + n) := by
  have hone : (s.drop r).take 1 = [s[r]] := by
    rw [List.drop_eq_getElem_cons hr, List.take_succ_cons, List.take_zero]
  by_cases hcr : s[r] = cr
  · by_cases hlf : s[r + 1]? = some lf
    · have hr' := (List.getElem?_eq_some_iff.mp hlf).1
      refine Or.inr ⟨⟨_, .byCrLf, hp⟩, 2, by omega, by omega, by simp, by simp, ?_,
        fun keepEnds ret => ?_⟩
      · have htwo : (s.drop r).take 2 = [cr, lf] := by
          rw [List.drop_eq_getElem_cons hr, List.drop_eq_getElem_cons hr', hcr,
            (List.getElem?_eq_some_iff.mp hlf).2]
          rfl
        rw [drop_body hlr 2, htwo, Line.whole, List.append_assoc]
        rfl
      · rw [loop_round hr, if_pos hcr, if_pos hlf]
        rfl
    · refine Or.inr ⟨⟨_, .byCr, hp⟩, 1, by omega, by omega, by simp, fun _ => ?_, ?_,
        fun keepEnds ret => ?_⟩
      · rwa [List.head?_drop]
      · rw [drop_body hlr 1, hone, hcr, Line.whole, List.append_assoc]
        rfl
      · rw [loop_round hr, if_pos hcr, if_neg hlf]
        rfl
  · by_cases hlf : s[r] = lf
    · refine Or.inr ⟨⟨_, .byLf, hp⟩, 1, by omega, by omega, by simp, by simp, ?_,
        fun keepEnds ret => ?_⟩
      · rw [drop_body hlr 1, hone, hlf, Line.whole, List.append_assoc]
        rfl
      · rw [loop_round hr, if_neg hcr, if_pos hlf]
        rfl
    · refine Or.inl ⟨?_, fun keepEnds ret => by rw [loop_round hr, if_neg hcr, if_neg hlf]⟩
      have hsucc : substr s l (r + 1 - l) = substr s l (r - l) ++ [s[r]] := by
        rw [substr, Nat.sub_add_comm hlr, List.take_add_one, List.getElem?_drop,
          Nat.add_sub_cancel' hlr, List.getElem?_eq_getElem hr]
        rfl
      rw [hsucc]
      exact ⟨by simpa using ⟨hp.1, Ne.symm hcr⟩, by simpa using ⟨hp.2, Ne.symm hlf⟩⟩

/-- **The loop** appends the lines of what it has still to read, from a line of which it has read
some of the body. -/
lemma loop_spec (hr : r ≤ s.length) (hlr : l ≤ r) (hp : Plain (substr s l (r - l))) :
    ∃ ls, Lines (s.drop l) ls ∧ ∀ keepEnds ret,
      splitlinesLoop s keepEnds ret l r = some (ret ++ ls.map (Line.text keepEnds)) := by
  induction hn : s.length - r using Nat.strong_induction_on generalizing l r with
  | h n ih =>
    rcases hr.eq_or_lt with rfl | hlt
    · have hbody : substr s l (s.length - l) = s.drop l := by
        rw [substr, List.take_of_length_le (List.length_drop ..).le]
      rw [hbody] at hp
      by_cases hl : l < s.length
      · refine ⟨[⟨s.drop l, .unended, hp⟩], ?_, fun keepEnds ret => ?_⟩
        · exact Lines.last ⟨s.drop l, .unended, hp⟩ rfl (by simpa using hl)
        · rw [loop_end, if_pos hl, hbody]
          cases keepEnds <;> simp [Line.text, Ending.text]
      · refine ⟨[], ?_, fun keepEnds ret => ?_⟩
        · rw [List.drop_of_length_le (not_lt.mp hl)]
          exact Lines.nil
        · rw [loop_end, if_neg hl]
          rfl
    · rcases loop_step hlt hlr hp with ⟨hp, hstep⟩ | ⟨x, k, hk, hle, hend, hcr, hdrop, hstep⟩
      · obtain ⟨ls, hls, h⟩ := ih (s.length - (r + 1)) (by omega) hlt (by omega) hp rfl
        exact ⟨ls, hls, fun keepEnds ret => (hstep keepEnds ret).trans (h keepEnds ret)⟩
      · have hempty : Plain (substr s (r + k) (r + k - (r + k))) := by simp [substr, Plain]
        obtain ⟨ls, hls, h⟩ := ih (s.length - (r + k)) (by omega) hle le_rfl hempty rfl
        refine ⟨x :: ls, ?_, fun keepEnds ret => ?_⟩
        · rw [hdrop]
          exact hls.cons x hend hcr
        · rw [hstep, h]
          simp

lemma splitlines_lines (s : Str) : ∃ ls, Lines s ls ∧
    ∀ keepEnds, splitlines s keepEnds = some (ls.map (Line.text keepEnds)) := by
  by_cases hs : s = []
  · refine ⟨[], by rw [hs]; exact Lines.nil, fun keepEnds => ?_⟩
    rw [splitlines, if_pos hs]
    rfl
  · obtain ⟨ls, hls, h⟩ := loop_spec (Nat.zero_le s.length) le_rfl (by simp [substr, Plain])
    refine ⟨ls, hls, fun keepEnds => ?_⟩
    rw [splitlines, if_neg hs, h]
    rfl

/-- **Splitting in lines loses nothing**: the lines with their ends are the string, all but the
last one end, and the last one is not empty. Without the ends, they are the bodies. -/
theorem splitlines_lossless (s : Str) : ∃ ls : List Line,
    splitlines s true = some (ls.map Line.whole) ∧
    splitlines s false = some (ls.map Line.body) ∧
    (ls.map Line.whole).flatten = s ∧
    (∀ x ∈ ls.dropLast, x.ending ≠ .unended) ∧
    (∀ x ∈ ls.getLast?, x.whole ≠ []) ∧
    ls.IsChain fun x y => x.ending = .byCr → y.whole.head? ≠ some lf := by
  obtain ⟨ls, hls, h⟩ := splitlines_lines s
  refine ⟨ls, h true, ?_, hls.flatten, hls.ended, fun x hx => ?_, hls.isChain⟩
  · rw [h false]
    simp [Line.text]
  · exact hls.whole_ne_nil x (List.mem_of_getLast? hx)

end Libchef.StringsLines
