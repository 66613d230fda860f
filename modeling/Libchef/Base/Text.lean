import Mathlib.Data.List.Basic
import Mathlib.Data.List.DropRight
import Mathlib.Data.List.Infix
import Mathlib.Algebra.Order.Ring.Nat

/-!
Texts as lists: where one text stands in another.

`find` and `rfind` give the first and the last position at which a text stands; a text is cut
there into what stands before and after.
-/

namespace Libchef.Text

variable {α : Type*} {s t a b : List α} {r i pos : ℕ}

/-- `t` stands in `s` at position `r`. -/
def At (s t : List α) (r : ℕ) : Prop := r ≤ s.length ∧ t <+: s.drop r

lemma at_iff : At s t r ↔ ∃ a b, s = a ++ t ++ b ∧ a.length = r := by
  constructor
  · rintro ⟨hr, b, hb⟩
    refine ⟨s.take r, b, ?_, List.length_take_of_le hr⟩
    rw [List.append_assoc, hb, List.take_append_drop]
  · rintro ⟨a, b, rfl, rfl⟩
    refine ⟨by simp, b, ?_⟩
    rw [List.append_assoc, List.drop_left]

lemma At.append (a t b : List α) : At (a ++ t ++ b) t a.length := at_iff.mpr ⟨a, b, rfl, rfl⟩

lemma At.add_le (h : At s t r) : r + t.length ≤ s.length := by
  obtain ⟨a, b, rfl, rfl⟩ := at_iff.mp h
  simp

lemma At.cut (h : At s t r) : s = s.take r ++ t ++ s.drop (r + t.length) := by
  obtain ⟨a, b, rfl, rfl⟩ := at_iff.mp h
  rw [List.append_assoc, List.take_left, ← List.append_assoc, ← List.length_append, List.drop_left]

lemma infix_iff_at : t <:+: s ↔ ∃ r, At s t r := by
  simp only [at_iff]
  constructor
  · rintro ⟨a, b, rfl⟩
    exact ⟨a.length, a, b, rfl, rfl⟩
  · rintro ⟨r, a, b, rfl, -⟩
    exact ⟨a, b, rfl⟩

lemma At.left (h : At a t r) (b : List α) : At (a ++ b) t r := by
  obtain ⟨c, d, rfl, rfl⟩ := at_iff.mp h
  exact at_iff.mpr ⟨c, d ++ b, by simp, rfl⟩

lemma At.of_append (h : At (a ++ b) t r) (hr : r + t.length ≤ a.length) : At a t r := by
  refine ⟨by omega, ?_⟩
  have hp := h.2
  rw [List.drop_append_of_le_length (by omega)] at hp
  exact List.prefix_of_prefix_length_le hp (List.prefix_append _ _)
    (by rw [List.length_drop]; omega)

lemma At.drop (h : At s t r) (hi : i ≤ r) : At (s.drop i) t (r - i) := by
  refine ⟨by rw [List.length_drop]; have := h.1; omega, ?_⟩
  rw [List.drop_drop, Nat.add_sub_cancel' hi]
  exact h.2

lemma At.of_drop (h : At (s.drop i) t r) (hi : i ≤ s.length) : At s t (i + r) := by
  obtain ⟨hr, hp⟩ := h
  rw [List.length_drop] at hr
  exact ⟨by omega, by rwa [List.drop_drop] at hp⟩

lemma at_singleton {c : α} : At s [c] r ↔ s[r]? = some c := by
  constructor
  · intro h
    obtain ⟨a, b, rfl, rfl⟩ := at_iff.mp h
    simp
  · intro h
    obtain ⟨hlt, rfl⟩ := List.getElem?_eq_some_iff.mp h
    exact ⟨hlt.le, s.drop (r + 1), by simp⟩

lemma append_cons_inj {c d : List α} {y : α} (hc : y ∉ c) (hd : y ∉ d)
    (h : a ++ y :: c = b ++ y :: d) : a = b ∧ c = d := by
  have hnil {e p q : List α} (hq : y ∉ q) (h : y :: q = e ++ y :: p) : e = [] ∧ q = p := by
    cases e with
    | nil => exact ⟨rfl, (List.cons.inj h).2⟩
    | cons z e => exact absurd (by rw [(List.cons.inj h).2]; simp) hq
  rcases List.append_eq_append_iff.mp h with ⟨e, rfl, he⟩ | ⟨e, rfl, he⟩
  · obtain ⟨rfl, rfl⟩ := hnil hc he
    exact ⟨(List.append_nil a).symm, rfl⟩
  · obtain ⟨rfl, rfl⟩ := hnil hd he
    exact ⟨List.append_nil b, rfl⟩

lemma append_dropLast (a t b : List α) :
    a ++ t ++ b = (a ++ t.dropLast) ++ (t.drop (t.length - 1) ++ b) := by
  rw [List.dropLast_eq_take, List.append_assoc a (t.take _), ← List.append_assoc (t.take _),
    List.take_append_drop, List.append_assoc]

/-! ### Pieces and chunks -/

/-- The pieces of a text between the places where `t` stands in it, the first of these places
first. -/
inductive Pieces (t : List α) : List α → List (List α) → Prop
  | last {s : List α} (h : ¬ t <:+: s) : Pieces t s [s]
  | cons {a s : List α} {gs : List (List α)} (ha : ¬ t <:+: a ++ t.dropLast)
      (h : Pieces t s gs) : Pieces t (a ++ t ++ s) (a :: gs)

lemma Pieces.ne_nil {gs : List (List α)} (h : Pieces t s gs) : gs ≠ [] := by
  cases h <;> exact List.cons_ne_nil _ _


/-- A text in pieces of one length, but for the last one, which may be shorter, and which is empty
only where the text is. -/
structure Chunks (width : ℕ) (s : List α) (cs : List (List α)) : Prop where
  flatten : cs.flatten = s
  ne_nil : cs ≠ []
  full : ∀ c ∈ cs.dropLast, c.length = width
  last_le : ∀ c ∈ cs.getLast?, c.length ≤ width
  last_ne : s ≠ [] → ∀ c ∈ cs.getLast?, c ≠ []

namespace Chunks

variable {width : ℕ} {cs : List (List α)}

lemma single (h : s.length ≤ width) : Chunks width s [s] where
  flatten := by simp
  ne_nil := List.cons_ne_nil _ _
  full := by simp
  last_le := by simpa using h
  last_ne hs := by simpa using hs

lemma cons (ha : a.length = width) (hs : s ≠ []) (h : Chunks width s cs) :
    Chunks width (a ++ s) (a :: cs) where
  flatten := by rw [List.flatten_cons, h.flatten]
  ne_nil := List.cons_ne_nil _ _
  full c hc := by
    rw [List.dropLast_cons_of_ne_nil h.ne_nil] at hc
    rcases List.mem_cons.mp hc with rfl | hc
    · exact ha
    · exact h.full c hc
  last_le c hc := by
    rw [List.getLast?_cons_of_ne_nil h.ne_nil] at hc
    exact h.last_le c hc
  last_ne _ c hc := by
    rw [List.getLast?_cons_of_ne_nil h.ne_nil] at hc
    exact h.last_ne hs c hc

lemma length_le (h : Chunks width s cs) : ∀ c ∈ cs, c.length ≤ width := by
  intro c hc
  rw [← List.dropLast_concat_getLast h.ne_nil] at hc
  rcases List.mem_append.mp hc with hc | hc
  · exact (h.full c hc).le
  · refine h.last_le c ?_
    rw [List.mem_singleton.mp hc, List.getLast?_eq_some_getLast h.ne_nil]
    rfl

end Chunks

section Find

variable [DecidableEq α]

instance (s t : List α) (r : ℕ) : Decidable (At s t r) :=
  inferInstanceAs (Decidable (_ ∧ _))

/-- The first position from `pos` on at which `t` stands in `s`. -/
def find (s t : List α) (pos : ℕ) : Option ℕ :=
  (List.range' pos (s.length + 1 - pos)).find? fun r => At s t r

/-- The last position up to `pos` at which `t` stands in `s`. -/
def rfindUpTo (s t : List α) : (pos : ℕ) → Option ℕ
  | 0 => if At s t 0 then some 0 else none
  | pos + 1 => if At s t (pos + 1) then some (pos + 1) else rfindUpTo s t pos

/-- The last position at which `t` stands in `s`. -/
def rfind (s t : List α) : Option ℕ := rfindUpTo s t s.length

/-- The first position from `pos` on at which one of `cs` stands in `s`. -/
def findFirstOf (s cs : List α) (pos : ℕ) : Option ℕ :=
  (List.range' pos (s.length - pos)).find? fun r => (s[r]?).any fun c => c ∈ cs

lemma find_eq_some :
    find s t pos = some r ↔ pos ≤ r ∧ At s t r ∧ ∀ i, pos ≤ i → i < r → ¬ At s t i := by
  unfold find
  rw [List.find?_range'_eq_some]
  simp only [decide_eq_true_eq, List.mem_range'_1, Bool.not_eq_true', decide_eq_false_iff_not]
  constructor
  · rintro ⟨h, hm, hf⟩
    exact ⟨hm.1, h, fun i => hf i⟩
  · rintro ⟨hp, h, hf⟩
    have := h.1
    exact ⟨h, ⟨hp, by omega⟩, hf⟩

lemma find_eq_none : find s t pos = none ↔ ∀ i, pos ≤ i → ¬ At s t i := by
  unfold find
  rw [List.find?_range'_eq_none]
  simp only [Bool.not_eq_true', decide_eq_false_iff_not]
  constructor
  · intro h i hp hi
    have := hi.1
    exact h i hp (by omega) hi
  · exact fun h i hp _ => h i hp

lemma rfindUpTo_eq_some :
    rfindUpTo s t pos = some r ↔ r ≤ pos ∧ At s t r ∧ ∀ i, r < i → i ≤ pos → ¬ At s t i := by
  induction pos with
  | zero =>
    simp only [rfindUpTo, Option.ite_none_right_eq_some, Option.some.injEq]
    constructor
    · rintro ⟨h, rfl⟩
      exact ⟨le_rfl, h, fun i h1 h2 => by omega⟩
    · rintro ⟨hr, h, -⟩
      obtain rfl : r = 0 := by omega
      exact ⟨h, rfl⟩
  | succ pos ih =>
    rw [rfindUpTo]
    split_ifs with h
    · rw [Option.some.injEq]
      constructor
      · rintro rfl
        exact ⟨le_rfl, h, fun i h1 h2 => by omega⟩
      · rintro ⟨hr, -, hl⟩
        by_contra hne
        exact hl (pos + 1) (by omega) le_rfl h
    · rw [ih]
      constructor
      · rintro ⟨hr, hat, hl⟩
        refine ⟨by omega, hat, fun i h1 h2 => ?_⟩
        rcases Nat.le_succ_iff.mp h2 with h2 | rfl
        · exact hl i h1 h2
        · exact h
      · rintro ⟨hr, hat, hl⟩
        have hne : r ≠ pos + 1 := by
          rintro rfl
          exact h hat
        exact ⟨by omega, hat, fun i h1 h2 => hl i h1 (by omega)⟩

lemma rfindUpTo_eq_none : rfindUpTo s t pos = none ↔ ∀ i ≤ pos, ¬ At s t i := by
  induction pos with
  | zero => simp [rfindUpTo]
  | succ pos ih =>
    rw [rfindUpTo]
    split_ifs with h
    · simpa using ⟨pos + 1, le_rfl, h⟩
    · rw [ih]
      refine ⟨fun hl i hi => ?_, fun hl i hi => hl i (Nat.le_succ_of_le hi)⟩
      rcases Nat.le_succ_iff.mp hi with hi | rfl
      · exact hl i hi
      · exact h

lemma rfind_eq_none : rfind s t = none ↔ ∀ i, ¬ At s t i := by
  rw [rfind, rfindUpTo_eq_none]
  exact ⟨fun hl i hi => hl i hi.1 hi, fun hl i _ => hl i⟩

lemma rfind_eq_some : rfind s t = some r ↔ At s t r ∧ ∀ i, r < i → ¬ At s t i := by
  rw [rfind, rfindUpTo_eq_some]
  constructor
  · rintro ⟨-, h, hl⟩
    exact ⟨h, fun i hi hat => hl i hi hat.1 hat⟩
  · rintro ⟨h, hl⟩
    exact ⟨h.1, h, fun i hi _ => hl i hi⟩

lemma find_cut (h : find s t pos = some r) :
    s.drop pos = (s.drop pos).take (r - pos) ++ t ++ s.drop (r + t.length) := by
  obtain ⟨hp, hat, -⟩ := find_eq_some.mp h
  have hcut := (hat.drop hp).cut
  rw [List.drop_drop, ← Nat.add_assoc, Nat.add_sub_cancel' hp] at hcut
  exact hcut

lemma not_infix_of_find_none (h : find s t pos = none) (hp : pos ≤ s.length) :
    ¬ t <:+: s.drop pos := by
  intro hin
  obtain ⟨i, hi⟩ := infix_iff_at.mp hin
  exact find_eq_none.mp h _ (Nat.le_add_right pos i) (hi.of_drop hp)

lemma not_infix_before (h : find s t pos = some r) (ht : t ≠ []) :
    ¬ t <:+: (s.drop pos).take (r - pos) := by
  obtain ⟨hp, hat, hf⟩ := find_eq_some.mp h
  intro hin
  obtain ⟨i, hi⟩ := infix_iff_at.mp hin
  have hlt := hi.add_le
  have hpos := List.length_pos_iff.mpr ht
  rw [List.length_take] at hlt
  have hi' := (hi.left ((s.drop pos).drop (r - pos)))
  rw [List.take_append_drop] at hi'
  have hle := hat.1
  exact hf _ (Nat.le_add_right pos i) (by omega) (hi'.of_drop (by omega))

lemma find_append (h : ¬ t <:+: a ++ t.dropLast) : find (a ++ t ++ b) t 0 = some a.length := by
  refine find_eq_some.mpr ⟨Nat.zero_le _, At.append a t b, fun i _ hi hat => ?_⟩
  refine h (infix_iff_at.mpr ⟨i, ?_⟩)
  rw [append_dropLast] at hat
  refine hat.of_append ?_
  rw [List.length_append, List.length_dropLast]
  omega

/-- A found text does not even begin in what comes before it. -/
lemma not_infix_first (h : find s t 0 = some r) (ht : t ≠ []) :
    ¬ t <:+: s.take r ++ t.dropLast := by
  obtain ⟨-, hat, hf⟩ := find_eq_some.mp h
  intro hin
  obtain ⟨i, hi⟩ := infix_iff_at.mp hin
  have hlt := hi.add_le
  have hpos := List.length_pos_iff.mpr ht
  have hle := hat.1
  rw [List.length_append, List.length_take, List.length_dropLast] at hlt
  have hcut := hat.cut
  rw [append_dropLast] at hcut
  exact hf i (Nat.zero_le _) (by omega) (hcut ▸ hi.left _)

lemma exists_pieces (ht : t ≠ []) (s : List α) : ∃ gs, Pieces t s gs := by
  induction hn : s.length using Nat.strong_induction_on generalizing s with
  | h n ih =>
    cases h : find s t 0 with
    | none => exact ⟨[s], .last (not_infix_of_find_none h (Nat.zero_le _))⟩
    | some r =>
      obtain ⟨-, hat, -⟩ := find_eq_some.mp h
      have hle := hat.add_le
      have hpos := List.length_pos_iff.mpr ht
      have hlen := List.length_drop (i := r + t.length) (l := s)
      obtain ⟨gs, hgs⟩ := ih _ (by omega) (s.drop (r + t.length)) rfl
      have hcons := Pieces.cons (not_infix_first h ht) hgs
      rw [← hat.cut] at hcons
      exact ⟨_, hcons⟩

lemma Pieces.unique {gs gs' : List (List α)} (h : Pieces t s gs) (h' : Pieces t s gs') :
    gs = gs' := by
  induction h generalizing gs' with
  | last hno =>
    cases h' with
    | last => rfl
    | @cons a s => exact absurd ⟨a, s, rfl⟩ hno
  | @cons a s gs ha h ih =>
    generalize hu : a ++ t ++ s = u at h'
    cases h' with
    | last hno => exact absurd ⟨a, s, hu⟩ hno
    | @cons a' s' gs' ha' h' =>
      have hlen := (find_append ha (b := s)).symm.trans (hu ▸ find_append ha' (b := s'))
      rw [List.append_assoc, List.append_assoc] at hu
      obtain ⟨rfl, hts⟩ := List.append_inj hu (Option.some.inj hlen)
      obtain rfl := List.append_cancel_left hts
      rw [ih h']

lemma find_singleton {c : α} (h : c ∉ a) : find (a ++ c :: b) [c] 0 = some a.length := by
  have := find_append (a := a) (b := b) (t := [c]) (by simpa [List.singleton_infix_iff] using h)
  simpa using this

lemma findFirstOf_eq_some {cs : List α} : findFirstOf s cs pos = some r ↔
    pos ≤ r ∧ (∃ c ∈ cs, s[r]? = some c) ∧ ∀ i, pos ≤ i → i < r → ∀ c ∈ cs, s[i]? ≠ some c := by
  have hany (i : ℕ) : ((s[i]?).any fun c => c ∈ cs) = true ↔ ∃ c ∈ cs, s[i]? = some c := by
    cases s[i]? <;> simp
  unfold findFirstOf
  rw [List.find?_range'_eq_some]
  simp only [Bool.not_eq_true', ← Bool.not_eq_true, hany, List.mem_range'_1]
  constructor
  · rintro ⟨h, hm, hf⟩
    exact ⟨hm.1, h, fun i hp hi c hc he => hf i hp hi ⟨c, hc, he⟩⟩
  · rintro ⟨hp, h, hf⟩
    have hlt : r < s.length := by
      obtain ⟨c, -, he⟩ := h
      exact (List.getElem?_eq_some_iff.mp he).1
    refine ⟨h, ⟨hp, by omega⟩, fun i hp hi => ?_⟩
    rintro ⟨c, hc, he⟩
    exact hf i hp hi c hc he

lemma findFirstOf_singleton (c : α) : findFirstOf s [c] pos = find s [c] pos := by
  ext r
  simp only [findFirstOf_eq_some, find_eq_some, List.mem_singleton, exists_eq_left, forall_eq,
    at_singleton, ne_eq]

/-! ### Texts that end with a mark -/

variable {u : List α}

omit [DecidableEq α] in
lemma at_append_right : At (a ++ b) t (a.length + r) ↔ At b t r := by
  simp [At]

omit [DecidableEq α] in
lemma at_append : At s (t ++ u) r ↔ t <:+ s.take (r + t.length) ∧ At s u (r + t.length) := by
  constructor
  · intro h
    obtain ⟨a, b, rfl, rfl⟩ := at_iff.mp h
    refine ⟨⟨a, ?_⟩, at_iff.mpr ⟨a ++ t, b, by simp, List.length_append⟩⟩
    rw [← List.append_assoc, List.append_assoc, ← List.length_append, List.take_left]
  · rintro ⟨⟨a, ha⟩, hle, b, hb⟩
    have hlen := congrArg List.length ha
    rw [List.length_append, List.length_take_of_le hle] at hlen
    refine at_iff.mpr ⟨a, b, ?_, by omega⟩
    rw [← List.append_assoc, ha, List.append_assoc, hb, List.take_append_drop]

omit [DecidableEq α] in
lemma at_take {n : ℕ} (hu : u ≠ []) : At (s.take n) u r ↔ At s u r ∧ r + u.length ≤ n := by
  constructor
  · intro h
    have hle := h.add_le
    rw [List.length_take] at hle
    exact ⟨by simpa using h.left (s.drop n), by omega⟩
  · rintro ⟨h, hle⟩
    rw [← List.take_append_drop n s] at h
    have hpos := List.length_pos_iff.mpr hu
    refine h.of_append ?_
    have := h.add_le
    rw [List.take_append_drop] at this
    rw [List.length_take]
    omega

/-- A text with a mark after it is found at the first mark that the text stands before. What is
before each mark is given by `f`. -/
lemma find_marked {β : Type*} {ms : List β} {f : β → List α}
    (hasc : ms.Pairwise fun b c => (f b).length < (f c).length) (hpre : ∀ b ∈ ms, f b <+: s)
    (hat : ∀ q, At s u q ↔ ∃ b ∈ ms, (f b).length = q) :
    find s (t ++ u) 0 = (ms.find? fun b => t <:+ f b).map fun b => (f b).length - t.length := by
  have hmark {i : ℕ} (h : At s (t ++ u) i) : ∃ b ∈ ms, t <:+ f b ∧ (f b).length = i + t.length := by
    obtain ⟨hsuf, hu⟩ := at_append.mp h
    obtain ⟨b, hb, hlen⟩ := (hat _).mp hu
    refine ⟨b, hb, ?_, hlen⟩
    rwa [← hlen, ← List.prefix_iff_eq_take.mp (hpre b hb)] at hsuf
  cases hf : ms.find? fun b => t <:+ f b with
  | none =>
    refine find_eq_none.mpr fun i _ h => ?_
    obtain ⟨b, hb, hsuf, -⟩ := hmark h
    exact absurd hsuf (by simpa using List.find?_eq_none.mp hf b hb)
  | some b =>
    obtain ⟨hsuf, as, bs, rfl, hno⟩ := List.find?_eq_some_iff_append.mp hf
    have hsuf : t <:+ f b := of_decide_eq_true hsuf
    have hb : b ∈ as ++ b :: bs := List.mem_append_right as List.mem_cons_self
    have hle := hsuf.length_le
    refine find_eq_some.mpr ⟨Nat.zero_le _, at_append.mpr ?_, fun j _ hj h => ?_⟩
    · rw [Nat.sub_add_cancel hle, ← List.prefix_iff_eq_take.mp (hpre b hb)]
      exact ⟨hsuf, (hat _).mpr ⟨b, hb, rfl⟩⟩
    · have hj : j < (f b).length - t.length := hj
      obtain ⟨c, hc, hsufc, hlen⟩ := hmark h
      obtain ⟨-, hafter, -⟩ := List.pairwise_append.mp hasc
      rcases List.mem_append.mp hc with hc | hc
      · exact absurd hsufc (by simpa using hno c hc)
      · rcases List.mem_cons.mp hc with rfl | hc
        · omega
        · have := (List.pairwise_cons.mp hafter).1 c hc
          omega

end Find

/-! ### Ends taken off a text -/

section Ends

variable (p : α → Bool)

lemma rdropWhile_cons (x : α) (l : List α) : (x :: l).rdropWhile p =
    if l.rdropWhile p = [] ∧ p x = true then [] else x :: l.rdropWhile p := by
  induction l using List.reverseRecOn with
  | nil => simp [List.rdropWhile_singleton]
  | append_singleton l y ih =>
    rw [← List.cons_append]
    by_cases hy : p y = true
    · rw [List.rdropWhile_concat_pos p l y hy, List.rdropWhile_concat_pos p (x :: l) y hy, ih]
    · rw [List.rdropWhile_concat_neg p l y hy, List.rdropWhile_concat_neg p (x :: l) y hy]
      simp

/-- It does not matter which end comes off first. -/
theorem dropWhile_rdropWhile (l : List α) :
    (l.rdropWhile p).dropWhile p = (l.dropWhile p).rdropWhile p := by
  induction l with
  | nil => rfl
  | cons x l ih =>
    rw [rdropWhile_cons]
    by_cases hx : p x = true
    · rw [List.dropWhile_cons_of_pos hx, ← ih]
      by_cases hl : l.rdropWhile p = []
      · simp [hl, hx]
      · rw [if_neg fun h => hl h.1, List.dropWhile_cons_of_pos hx]
    · rw [if_neg fun h => hx h.2, List.dropWhile_cons_of_neg hx, List.dropWhile_cons_of_neg hx,
        rdropWhile_cons, if_neg fun h => hx h.2]

lemma length_le_takeWhile {l a b : List α} (h : l = a ++ b) (ha : ∀ x ∈ a, p x = true) :
    a.length ≤ (l.takeWhile p).length := by
  rw [h, List.takeWhile_append_of_pos ha, List.length_append]
  exact Nat.le_add_right _ _

lemma length_le_rtakeWhile {l a b : List α} (h : l = a ++ b) (hb : ∀ x ∈ b, p x = true) :
    b.length ≤ (l.rtakeWhile p).length := by
  have hr : l.reverse = b.reverse ++ a.reverse := by rw [h, List.reverse_append]
  have := length_le_takeWhile p hr fun x hx => hb x (List.mem_reverse.mp hx)
  simpa [List.rtakeWhile] using this

end Ends

end Libchef.Text
