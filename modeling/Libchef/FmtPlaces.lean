import Libchef.FmtModel

/-!
Filling the placeholders of a format.

The segments of the format stand between its placeholders, and the arguments are to be put there
one after another. Each argument is put where a placeholder is found first in what has been put
together so far, which is the place it belongs to unless a placeholder has come up before it.
-/

namespace Libchef.FmtPlaces

open Libchef.Text Libchef.StringsModel Libchef.FmtModel

variable {fmt a : Str} {gs gs₁ gs₂ args args₁ : List Str}

/-- The segments with the arguments between them, and with placeholders where there are no more
arguments. -/
def fill : (gs args : List Str) → Str
  | [], _ => []
  | [g], _ => g
  | g :: gs, args => g ++ args.headD placeholder ++ fill gs args.tail

/-! ### Segments and arguments -/

lemma fill_cons (g : Str) (h : gs ≠ []) (args : List Str) :
    fill (g :: gs) args = g ++ args.headD placeholder ++ fill gs args.tail := by
  cases gs with
  | nil => exact absurd rfl h
  | cons g' gs => rfl

lemma fill_nil (h : Pieces placeholder fmt gs) : fill gs [] = fmt := by
  induction h with
  | last h => rfl
  | cons ha h ih =>
    rw [fill_cons _ h.ne_nil, List.tail_nil, ih]
    rfl

lemma fill_append (hlen : gs₁.length = args₁.length + 1) (h : gs₂ ≠ []) (args₂ : List Str) :
    fill (gs₁ ++ gs₂) (args₁ ++ args₂) =
      fill gs₁ args₁ ++ args₂.headD placeholder ++ fill gs₂ args₂.tail := by
  induction args₁ generalizing gs₁ with
  | nil =>
    obtain ⟨g, rfl⟩ := List.length_eq_one_iff.mp hlen
    exact fill_cons g h args₂
  | cons x args₁ ih =>
    obtain ⟨g, gs₁, rfl⟩ := List.exists_cons_of_length_eq_add_one hlen
    have hlen : gs₁.length = args₁.length + 1 := by simpa using hlen
    have hne : gs₁ ≠ [] := by
      rintro rfl
      cases hlen
    rw [List.cons_append, List.cons_append, fill_cons g (by simp [h]), fill_cons g hne]
    simp only [List.headD_cons, List.tail_cons, ih hlen, List.append_assoc]

lemma fill_surplus (h : gs.length ≤ args₁.length + 1) (args₂ : List Str) :
    fill gs (args₁ ++ args₂) = fill gs args₁ := by
  induction gs generalizing args₁ with
  | nil => rfl
  | cons g gs ih =>
    rcases eq_or_ne gs [] with rfl | hne
    · rfl
    · have hpos := List.length_pos_iff.mpr hne
      cases args₁ with
      | nil => exact absurd h (by simp [hne])
      | cons x args₁ =>
        rw [List.cons_append, fill_cons g hne, fill_cons g hne, List.tail_cons, List.tail_cons,
          ih (by simpa using h)]
        rfl

/-! ### The place of an argument -/

/-- What stands in front of the place of an argument, with the arguments before it put in. -/
def front (gs args : List Str) (k : ℕ) : Str := fill (gs.take (k + 1)) (args.take k)

lemma fill_take {k : ℕ} (hk : k ≤ args.length) (hg : k + 1 < gs.length) (args₂ : List Str) :
    fill gs (args.take k ++ args₂) =
      front gs args k ++ args₂.headD placeholder ++ fill (gs.drop (k + 1)) args₂.tail := by
  have hlen : (gs.take (k + 1)).length = (args.take k).length + 1 := by
    rw [List.length_take_of_le hg.le, List.length_take_of_le hk]
  have hne : gs.drop (k + 1) ≠ [] := by
    rw [← List.length_pos_iff, List.length_drop]
    omega
  rw [front, ← fill_append hlen hne, List.take_append_drop]

lemma front_all {k : ℕ} (hg : gs.length ≤ k + 1) : front gs args k = fill gs (args.take k) := by
  rw [front, List.take_of_length_le hg]

lemma not_infix_open (h : ¬ placeholder <:+: a) : ¬ placeholder <:+: a ++ placeholder.dropLast := by
  rintro ⟨x, y, hxy⟩
  rcases List.eq_nil_or_concat y with rfl | ⟨y, z, rfl⟩
  · have hlast := congrArg List.getLast? hxy
    simp [placeholder, lit] at hlast
    exact absurd hlast (by decide)
  · have hcut : (x ++ placeholder ++ y) ++ [z] = a ++ placeholder.dropLast := by
      rw [← hxy, List.append_assoc]
      simp
    exact h ⟨x, y, (List.append_inj' hcut rfl).1⟩

/-- The place of an argument is found just where no placeholder has come up in front of it. -/
lemma find_fill_iff {k : ℕ} (hk : k ≤ args.length) :
    find (fill gs (args.take k)) placeholder 0 =
        (if k + 1 < gs.length then some (front gs args k).length else none) ↔
      ¬ placeholder <:+: front gs args k := by
  split_ifs with hg
  · have hfill := fill_take hk hg []
    rw [List.append_nil] at hfill
    rw [hfill, List.headD_nil]
    constructor
    · intro h hin
      obtain ⟨-, -, hf⟩ := find_eq_some.mp h
      obtain ⟨i, hi⟩ := infix_iff_at.mp hin
      have hle := hi.add_le
      have hlt : 0 < placeholder.length := by decide
      refine hf i (Nat.zero_le _) (by omega) ?_
      rw [List.append_assoc]
      exact hi.left _
    · intro h
      exact find_append (not_infix_open h)
  · rw [front_all (not_lt.mp hg)]
    constructor
    · intro h
      exact not_infix_of_find_none h (Nat.zero_le _)
    · intro h
      refine find_eq_none.mpr fun i _ hi => h (infix_iff_at.mpr ⟨i, hi⟩)

/-- **One argument** is put in its place. -/
lemma formatOne_fill {k : ℕ} (hk : k < args.length)
    (h : ¬ placeholder <:+: front gs args k) :
    formatOne (fill gs (args.take k)) args[k] = fill gs (args.take (k + 1)) := by
  have hfind := (find_fill_iff hk.le).mpr h
  rw [List.take_succ_eq_append_getElem hk, formatOne, hfind]
  split_ifs with hg
  · have hfill := fill_take hk.le hg []
    rw [List.append_nil] at hfill
    rw [hfill, fill_take hk.le hg [args[k]]]
    simp [replaceAt, placeholder, lit]
  · rw [fill_surplus]
    rw [List.length_take_of_le hk.le]
    omega

/-! ### All arguments -/

lemma formatAll_concat (fmt : Str) (args : List Str) (val : Str) :
    formatAll fmt (args ++ [val]) = formatOne (formatAll fmt args) val := by
  induction args generalizing fmt with
  | nil => rfl
  | cons x args ih => exact ih (formatOne fmt x)

lemma format_eq (h : 0 ∉ fmt) (args : List Str) : format fmt args = formatAll fmt args := by
  rw [format, cStr_eq_self.mpr h]
  cases args <;> rfl

/-- No placeholder comes up in front of the place of an argument. -/
def Clean (gs args : List Str) : Prop :=
  ∀ k < args.length, ¬ placeholder <:+: front gs args k

/-- Every argument is put in its place: the result is the segments filled with the arguments, and
what each argument replaces is its own placeholder, or nothing where there is none. -/
structure Positional (fmt : Str) (gs args : List Str) : Prop where
  result : format fmt args = fill gs args
  places : ∀ k < args.length, find (format fmt (args.take k)) placeholder 0 =
    if k + 1 < gs.length then some (front gs args k).length else none

lemma format_take (h0 : 0 ∉ fmt) (hgs : Pieces placeholder fmt gs) {k : ℕ} (hk : k ≤ args.length)
    (h : ∀ j < k, ¬ placeholder <:+: front gs args j) :
    format fmt (args.take k) = fill gs (args.take k) := by
  rw [format_eq h0]
  induction k with
  | zero => exact (fill_nil hgs).symm
  | succ k ih =>
    have ih := ih (Nat.le_of_succ_le hk) fun j hj => h j (Nat.lt_succ_of_lt hj)
    calc formatAll fmt (args.take (k + 1))
        = formatOne (formatAll fmt (args.take k)) args[k] := by
          rw [List.take_succ_eq_append_getElem hk, formatAll_concat]
      _ = formatOne (fill gs (args.take k)) args[k] := by rw [ih]
      _ = fill gs (args.take (k + 1)) := formatOne_fill hk (h k (Nat.lt_succ_self k))

lemma clean_of_places (h0 : 0 ∉ fmt) (hgs : Pieces placeholder fmt gs)
    (h : Positional fmt gs args) : Clean gs args := by
  intro k hk
  induction k using Nat.strong_induction_on with
  | h k ih =>
    have hfind := h.places k hk
    rw [format_take h0 hgs hk.le fun j hj => ih j hj (hj.trans hk)] at hfind
    exact (find_fill_iff hk.le).mp hfind

lemma positional_of_clean (h0 : 0 ∉ fmt) (hgs : Pieces placeholder fmt gs) (h : Clean gs args) :
    Positional fmt gs args := by
  constructor
  · have hall := format_take h0 hgs le_rfl h
    rwa [List.take_length] at hall
  · intro k hk
    rw [format_take h0 hgs hk.le fun j hj => h j (hj.trans hk)]
    exact (find_fill_iff hk.le).mpr (h k hk)

/-- **When the arguments are put in their places**: as long as no placeholder comes up in front
of the place of an argument. -/
theorem positional_iff (h0 : 0 ∉ fmt) : ∃ gs, Pieces placeholder fmt gs ∧
    (∀ gs', Pieces placeholder fmt gs' → gs' = gs) ∧
    ∀ args, Positional fmt gs args ↔ Clean gs args := by
  obtain ⟨gs, hgs⟩ := exists_pieces (t := placeholder) (by decide) fmt
  exact ⟨gs, hgs, fun _ h' => h'.unique hgs, fun _ =>
    ⟨clean_of_places h0 hgs, positional_of_clean h0 hgs⟩⟩

lemma pieces_pair : Pieces placeholder (lit ['{', '}', ' ', '{', '}']) [[], lit [' '], []] :=
  .cons (a := []) (s := lit [' ', '{', '}']) (by decide)
    (.cons (a := lit [' ']) (s := []) (by decide) (.last (by decide)))

/-- The last argument may well be a placeholder. -/
theorem positional_iff_last : Positional (lit ['{', '}', ' ', '{', '}']) [[], lit [' '], []]
    [lit ['x'], lit ['{', '}']] := by
  obtain ⟨gs, -, huniq, h⟩ := positional_iff (show 0 ∉ lit ['{', '}', ' ', '{', '}'] by decide)
  rw [huniq _ pieces_pair]
  refine (h _).mpr fun k hk => ?_
  rw [← huniq _ pieces_pair]
  revert k
  decide

/-- An argument before the last one may not: the next one is put into it. -/
theorem placeholder_filled :
    Pieces placeholder (lit ['{', '}', ' ', '{', '}']) [[], lit [' '], []] ∧
    format (lit ['{', '}', ' ', '{', '}']) [lit ['{', '}'], lit ['x']] ≠
      fill [[], lit [' '], []] [lit ['{', '}'], lit ['x']] :=
  ⟨pieces_pair, by decide⟩

end Libchef.FmtPlaces
