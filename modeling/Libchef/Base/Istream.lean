import Libchef.Base.Decimal
import Mathlib.Data.List.Induction
import Mathlib.Logic.Function.Iterate

/-!
Formatted extraction from a stream of bytes, as `std::istream` does it in the classic locale.

An extraction skips blanks and reads as much as belongs to a value. Once one has failed, those
after it read nothing and leave their variables as they are.
-/

namespace Libchef.Istream

open Libchef.Decimal

/-- What is left of the stream, and its `failbit`. -/
structure Input where
  rest : List UInt8
  fail : Bool
  deriving DecidableEq

variable {T : Type*} {f : List UInt8 → T × Input} {lo hi i : ℤ} {blanks s r : List UInt8}
  {c b : UInt8} {m n max : ℕ}

/-- `stream >> v`, for a variable and a stream. `read` gets what is left after the blanks; at the
end of the stream the extraction fails. -/
def extract (read : List UInt8 → T × Input) (p : T × Input) : T × Input :=
  if p.2.fail then p
  else if p.2.rest.dropWhile isSpace = [] then (p.1, ⟨[], true⟩)
  else read (p.2.rest.dropWhile isSpace)

/-- A number may have a sign. -/
def unsign (s : List UInt8) : List UInt8 :=
  if s.head? = some (byte '-') ∨ s.head? = some (byte '+') then s.tail else s

/-- An integer from `lo` to `hi`. Without digits it is 0, and out of range it is the nearest one;
either fails. -/
def readInt (lo hi : ℤ) (s : List UInt8) : ℤ × Input :=
  let digits := (unsign s).takeWhile isDigit
  let rest := (unsign s).dropWhile isDigit
  let n : ℤ := if s.head? = some (byte '-') then -number digits else number digits
  if digits = [] then (0, ⟨rest, true⟩)
  else if n < lo then (lo, ⟨rest, true⟩)
  else if hi < n then (hi, ⟨rest, true⟩)
  else (n, ⟨rest, false⟩)

/-- An unsigned integer up to `max`. With a minus it is taken modulo the next one. -/
def readUnsigned (max : ℕ) (s : List UInt8) : ℕ × Input :=
  let digits := (unsign s).takeWhile isDigit
  let rest := (unsign s).dropWhile isDigit
  if digits = [] then (0, ⟨rest, true⟩)
  else if max < number digits then (max, ⟨rest, true⟩)
  else if s.head? = some (byte '-') then ((max + 1 - number digits) % (max + 1), ⟨rest, false⟩)
  else (number digits, ⟨rest, false⟩)

/-- A word goes up to a blank. -/
def readWord (s : List UInt8) : List UInt8 × Input :=
  (s.takeWhile fun c => !isSpace c, ⟨s.dropWhile fun c => !isSpace c, false⟩)

def readChar (s : List UInt8) : UInt8 × Input := (s.headD 0, ⟨s.tail, false⟩)

def readInt32 : List UInt8 → ℤ × Input := readInt (-2 ^ 31) (2 ^ 31 - 1)

def readInt64 : List UInt8 → ℤ × Input := readInt (-2 ^ 63) (2 ^ 63 - 1)

def readUInt64 : List UInt8 → ℕ × Input := readUnsigned (2 ^ 64 - 1)

/-! ### Extractions that succeed -/

lemma extract_fail {p : T × Input} (h : p.2.fail = true) : extract f p = p := if_pos h

lemma extract_blanks (hb : ∀ c ∈ blanks, isSpace c = true) (hc : isSpace c = false) (v : T) :
    extract f (v, ⟨blanks ++ c :: s, false⟩) = f (c :: s) := by
  have hdrop : (blanks ++ c :: s).dropWhile isSpace = c :: s := by
    rw [List.dropWhile_append_of_pos hb, List.dropWhile_cons_of_neg (by simp [hc])]
  simp only [extract, hdrop]
  rfl

lemma takeWhile_digits {l : List UInt8} (hl : ∀ c ∈ l, isDigit c = true)
    (hr : ∀ c ∈ r.head?, isDigit c = false) :
    (l ++ r).takeWhile isDigit = l ∧ (l ++ r).dropWhile isDigit = r := by
  rw [List.takeWhile_append_of_pos hl, List.dropWhile_append_of_pos hl]
  cases r with
  | nil => simp
  | cons c r => simp [hr c rfl]

lemma printInt_cons (i : ℤ) : ∃ c s, printInt i = c :: s ∧ isSpace c = false := by
  cases i with
  | ofNat n =>
    obtain ⟨hd, -, hne⟩ := print_spec n
    obtain ⟨c, s, hs⟩ := List.exists_cons_of_ne_nil hne
    exact ⟨c, s, hs, (hd c (by rw [hs]; exact List.mem_cons_self)).2⟩
  | negSucc n => exact ⟨_, _, rfl, by decide⟩

lemma unsign_digits {l : List UInt8} (hl : ∀ c ∈ l, isDigit c = true) (hne : l ≠ [])
    (r : List UInt8) : unsign (l ++ r) = l ++ r ∧ (l ++ r).head? ≠ some (byte '-') := by
  obtain ⟨c, s, rfl⟩ := List.exists_cons_of_ne_nil hne
  have hc := ne_sign (hl c List.mem_cons_self)
  simp [unsign, hc.1, hc.2]

lemma readInt_digits {l : List UInt8} (hl : ∀ c ∈ l, isDigit c = true) (hne : l ≠ [])
    (hlo : lo ≤ number l) (hhi : number l ≤ hi) (hr : ∀ c ∈ r.head?, isDigit c = false) :
    readInt lo hi (l ++ r) = ((number l : ℤ), ⟨r, false⟩) := by
  obtain ⟨hsign, hminus⟩ := unsign_digits hl hne r
  obtain ⟨htake, hdrop⟩ := takeWhile_digits hl hr
  simp only [readInt, hsign, htake, hdrop, if_neg hminus, if_neg hne, if_neg (not_lt.mpr hlo),
    if_neg (not_lt.mpr hhi)]

lemma readInt_above {l : List UInt8} (hl : ∀ c ∈ l, isDigit c = true) (hne : l ≠ [])
    (hlo : lo ≤ number l) (hhi : hi < number l) (hr : ∀ c ∈ r.head?, isDigit c = false) :
    readInt lo hi (l ++ r) = (hi, ⟨r, true⟩) := by
  obtain ⟨hsign, hminus⟩ := unsign_digits hl hne r
  obtain ⟨htake, hdrop⟩ := takeWhile_digits hl hr
  simp only [readInt, hsign, htake, hdrop, if_neg hminus, if_neg hne, if_neg (not_lt.mpr hlo),
    if_pos hhi]

lemma readUnsigned_digits {l : List UInt8} (hl : ∀ c ∈ l, isDigit c = true) (hne : l ≠ [])
    (hmax : number l ≤ max) (hr : ∀ c ∈ r.head?, isDigit c = false) :
    readUnsigned max (l ++ r) = (number l, ⟨r, false⟩) := by
  obtain ⟨hsign, hminus⟩ := unsign_digits hl hne r
  obtain ⟨htake, hdrop⟩ := takeWhile_digits hl hr
  simp only [readUnsigned, hsign, htake, hdrop, if_neg hminus, if_neg hne,
    if_neg (not_lt.mpr hmax)]

/-- **A printed integer is read back.** -/
theorem readInt_print (hlo : lo ≤ i) (hhi : i ≤ hi) (hr : ∀ c ∈ r.head?, isDigit c = false) :
    readInt lo hi (printInt i ++ r) = (i, ⟨r, false⟩) := by
  cases i with
  | ofNat n =>
    obtain ⟨hd, hnum, hne⟩ := print_spec n
    have hval : ((number (print n) : ℕ) : ℤ) = Int.ofNat n := by rw [hnum]; rfl
    rw [printInt, readInt_digits (fun c hc => (hd c hc).1) hne (hval ▸ hlo) (hval ▸ hhi) hr, hval]
  | negSucc n =>
    obtain ⟨hd, hnum, hne⟩ := print_spec (n + 1)
    obtain ⟨htake, hdrop⟩ := takeWhile_digits (fun c hc => (hd c hc).1) hr
    have hsign : unsign (byte '-' :: (print (n + 1) ++ r)) = print (n + 1) ++ r := by
      simp [unsign]
    have hneg : -((n + 1 : ℕ) : ℤ) = Int.negSucc n := rfl
    simp only [readInt, printInt, List.cons_append, hsign, htake, hdrop, hnum, if_neg hne,
      List.head?_cons, if_true, hneg]
    rw [if_neg (not_lt.mpr hlo), if_neg (not_lt.mpr hhi)]

lemma extract_int (hb : ∀ c ∈ blanks, isSpace c = true) (hlo : lo ≤ i) (hhi : i ≤ hi)
    (hr : ∀ c ∈ r.head?, isDigit c = false) (v : ℤ) :
    extract (readInt lo hi) (v, ⟨blanks ++ printInt i ++ r, false⟩) = (i, ⟨r, false⟩) := by
  obtain ⟨c, s, hs, hc⟩ := printInt_cons i
  rw [List.append_assoc, ← readInt_print hlo hhi hr, hs, List.cons_append,
    extract_blanks hb hc]

/-- Integers with a blank before each. -/
def columns (l : List ℤ) : List UInt8 := l.flatMap fun i => byte ' ' :: printInt i

lemma columns_cons (i : ℤ) (l : List ℤ) :
    columns (i :: l) = [byte ' '] ++ printInt i ++ columns l := rfl

lemma columns_append (l l' : List ℤ) : columns (l ++ l') = columns l ++ columns l' :=
  List.flatMap_append

lemma head?_columns (l : List ℤ) (hr : ∀ c ∈ r.head?, isDigit c = false) :
    ∀ c ∈ (columns l ++ r).head?, isDigit c = false := by
  cases l with
  | nil => exact hr
  | cons i l =>
    rintro c hc
    obtain rfl := Option.some.inj hc
    decide

lemma extract_columns {l : List ℤ} (hl : ∀ i ∈ l, lo ≤ i ∧ i ≤ hi)
    (hr : ∀ c ∈ r.head?, isDigit c = false) (v : ℤ) :
    ((extract (readInt lo hi))^[l.length] (v, ⟨columns l ++ r, false⟩)).2 = ⟨r, false⟩ := by
  induction l generalizing v with
  | nil => rfl
  | cons i l ih =>
    obtain ⟨hi, hrest⟩ := List.forall_mem_cons.mp hl
    rw [List.length_cons, Function.iterate_succ_apply, columns_cons, List.append_assoc,
      extract_int (by simpa using by decide) hi.1 hi.2 (head?_columns l hr)]
    exact ih hrest i

/-! ### Extractions that fail -/

/-- A byte that an extraction of an integer does not go past. -/
structure Stop (b : UInt8) : Prop where
  space : isSpace b = false
  digit : isDigit b = false
  minus : b ≠ byte '-'
  plus : b ≠ byte '+'

/-- The stream has failed, or there are fewer than `m` digits before a byte that stops it. -/
def Few (b : UInt8) (m : ℕ) (st : Input) : Prop :=
  st.fail = true ∨ ∃ u v, st.rest = u ++ b :: v ∧ u.countP isDigit < m

lemma few_zero {st : Input} : Few b 0 st ↔ st.fail = true := by simp [Few]

lemma readInt_cases (lo hi : ℤ) (s : List UInt8) :
    (readInt lo hi s).2.fail = true ∨ (unsign s).takeWhile isDigit ≠ [] ∧
      (readInt lo hi s).2.rest = (unsign s).dropWhile isDigit := by
  unfold readInt
  dsimp only
  by_cases hnil : (unsign s).takeWhile isDigit = []
  · rw [if_pos hnil]
    exact Or.inl rfl
  · rw [if_neg hnil]
    refine Or.inr ⟨hnil, ?_⟩
    split_ifs <;> rfl

/-- What an integer takes from before a stop, if it has digits. -/
lemma readInt_stop (hb : Stop b) (u v : List UInt8) :
    (readInt lo hi (u ++ b :: v)).2.fail = true ∨
      ∃ u', (readInt lo hi (u ++ b :: v)).2.rest = u' ++ b :: v ∧
        u'.countP isDigit < u.countP isDigit := by
  obtain ⟨w, hw, hcount⟩ : ∃ w, unsign (u ++ b :: v) = w ++ b :: v ∧
      w.countP isDigit ≤ u.countP isDigit := by
    unfold unsign
    split_ifs with hsign
    · cases u with
      | nil => simp [hb.minus, hb.plus] at hsign
      | cons c u => exact ⟨u, rfl, (List.sublist_cons_self c u).countP_le⟩
    · exact ⟨u, rfl, le_rfl⟩
  have hcut : w.takeWhile isDigit ++ w.dropWhile isDigit = w := List.takeWhile_append_dropWhile
  have hstop : ∀ c ∈ (w.dropWhile isDigit ++ b :: v).head?, isDigit c = false := by
    cases hd : w.dropWhile isDigit with
    | nil => simpa using hb.digit
    | cons c l =>
      have := List.head?_dropWhile_not isDigit w
      rw [hd] at this
      simpa using this
  obtain ⟨htake, hdrop⟩ := takeWhile_digits
    (fun c hc => List.mem_takeWhile_imp hc : ∀ c ∈ w.takeWhile isDigit, isDigit c = true) hstop
  rw [← List.append_assoc, hcut] at htake hdrop
  rcases readInt_cases lo hi (u ++ b :: v) with h | ⟨hnil, hrest⟩
  · exact Or.inl h
  · rw [hw, htake] at hnil
    rw [hw, hdrop] at hrest
    refine Or.inr ⟨_, hrest, lt_of_lt_of_le ?_ hcount⟩
    have hpos : 0 < (w.takeWhile isDigit).countP isDigit := by
      rw [List.countP_eq_length.mpr fun c hc => List.mem_takeWhile_imp hc]
      exact List.length_pos_iff.mpr hnil
    calc (w.dropWhile isDigit).countP isDigit
        < (w.takeWhile isDigit).countP isDigit + (w.dropWhile isDigit).countP isDigit := by omega
      _ = w.countP isDigit := by rw [← List.countP_append, hcut]

lemma Few.extract (hb : Stop b) {p : ℤ × Input} (h : Few b (m + 1) p.2) :
    Few b m (extract (readInt lo hi) p).2 := by
  rcases h with h | ⟨u, v, hrest, hcount⟩
  · exact Or.inl (by rw [extract_fail h]; exact h)
  · cases hfail : p.2.fail with
    | true => exact Or.inl (by rw [extract_fail hfail]; exact hfail)
    | false =>
      have hsplit := u.takeWhile_append_dropWhile (p := isSpace)
      have hdrop : p.2.rest.dropWhile isSpace = u.dropWhile isSpace ++ b :: v := by
        rw [hrest, ← hsplit, List.append_assoc,
          List.dropWhile_append_of_pos fun c hc => List.mem_takeWhile_imp hc, hsplit]
        cases hd : u.dropWhile isSpace with
        | nil => simp [hb.space]
        | cons c l =>
          have := List.head?_dropWhile_not isSpace u
          rw [hd] at this
          simpa using this
      have hle : (u.dropWhile isSpace).countP isDigit ≤ u.countP isDigit :=
        (List.dropWhile_sublist _).countP_le
      have hread : Istream.extract (readInt lo hi) p =
          readInt lo hi (u.dropWhile isSpace ++ b :: v) := by
        rw [Istream.extract, if_neg (by rw [hfail]; exact Bool.false_ne_true), hdrop,
          if_neg (List.append_ne_nil_of_right_ne_nil _ (List.cons_ne_nil _ _))]
      rw [hread]
      rcases readInt_stop hb (u.dropWhile isSpace) v with h | ⟨u', hu', hlt⟩
      · exact Or.inl h
      · exact Or.inr ⟨u', v, hu', by omega⟩

lemma Few.iterate (hb : Stop b) {p : ℤ × Input} (h : Few b (m + n) p.2) :
    Few b m ((Istream.extract (readInt lo hi))^[n] p).2 := by
  induction n generalizing p with
  | zero => exact h
  | succ n ih => exact ih (Few.extract hb h)

/-! ### Extractions from a text that is cut off -/

/-- Nothing is read from the stream any more. -/
def Spent (st : Input) : Prop := st.fail = true ∨ st.rest = []

lemma Spent.extract {p : T × Input} (h : Spent p.2) :
    (Istream.extract f p).1 = p.1 ∧ Spent (Istream.extract f p).2 := by
  rcases h with h | h
  · rw [extract_fail h]
    exact ⟨rfl, Or.inl h⟩
  · unfold Istream.extract
    split_ifs with hf hd
    · exact ⟨rfl, Or.inl hf⟩
    · exact ⟨rfl, Or.inl rfl⟩
    · rw [h] at hd
      exact absurd rfl hd

lemma Spent.iterate {p : T × Input} (h : Spent p.2) (n : ℕ) :
    Spent ((Istream.extract f)^[n] p).2 := by
  induction n generalizing p with
  | zero => exact h
  | succ n ih => exact ih h.extract.2

/-- The stream has the first `k` bytes of `s`, and is spent if these are none. -/
def Leaves (s : List UInt8) (k : ℕ) (st : Input) : Prop :=
  if k = 0 then Spent st else st = ⟨s.take k, false⟩

lemma number_take_le (l : List UInt8) (m : ℕ) : number (l.take m) ≤ number l := by
  have hle (r : List UInt8) : number (l.take m) ≤ number (l.take m ++ r) := by
    induction r using List.reverseRecOn with
    | nil => rw [List.append_nil]
    | append_singleton r c ih =>
      rw [← List.append_assoc, number_append_singleton]
      omega
  calc number (l.take m) ≤ number (l.take m ++ l.drop m) := hle _
    _ = number l := by rw [List.take_append_drop]

section Cut

variable {digits : List UInt8} {k : ℕ} (hb : ∀ c ∈ blanks, isSpace c = true)
  (hd : ∀ c ∈ digits, isDigit c = true) (hne : digits ≠ [])
  (hs : ∀ c ∈ s.head?, isDigit c = false)

include hb in
lemma extract_cut_blanks (hk : k ≤ blanks.length) (v : T) :
    extract f (v, ⟨(blanks ++ (digits ++ s)).take k, false⟩) = (v, ⟨[], true⟩) := by
  have hdrop : (blanks.take k).dropWhile isSpace = [] :=
    List.dropWhile_eq_nil_iff.mpr fun c hc => hb c (List.mem_of_mem_take hc)
  rw [List.take_append_of_le_length hk, extract, if_neg Bool.false_ne_true, if_pos hdrop]

include hb hd hne in
lemma extract_cut_digits (hk : blanks.length < k) (v : T) :
    extract f (v, ⟨(blanks ++ (digits ++ s)).take k, false⟩) =
        f (digits.take (k - blanks.length) ++ s.take (k - blanks.length - digits.length)) ∧
      digits.take (k - blanks.length) ≠ [] := by
  have hfirst : digits.take (k - blanks.length) ≠ [] := by
    rw [← List.length_pos_iff, List.length_take]
    have := List.length_pos_iff.mpr hne
    omega
  refine ⟨?_, hfirst⟩
  obtain ⟨c, l, hcl⟩ := List.exists_cons_of_ne_nil hfirst
  have hc : isSpace c = false :=
    isSpace_of_isDigit (hd c (List.mem_of_mem_take (hcl ▸ List.mem_cons_self)))
  rw [List.take_append, List.take_append, List.take_of_length_le hk.le, hcl, List.cons_append,
    extract_blanks hb hc]

include hs in
lemma head?_take (m : ℕ) : ∀ c ∈ (s.take m).head?, isDigit c = false := by
  intro c hc
  cases s with
  | nil => simp at hc
  | cons a s =>
    cases m with
    | zero => simp at hc
    | succ m => exact hs c hc

include hb hd hne hs in
/-- A number that may be cut off, for a way to read digits. -/
lemma Leaves.extract {p : T × Input} (h : Leaves (blanks ++ (digits ++ s)) k p.2)
    {g : List UInt8 → T} (hf : ∀ m r, digits.take m ≠ [] → (∀ c ∈ r.head?, isDigit c = false) →
      f (digits.take m ++ r) = (g (digits.take m), ⟨r, false⟩)) :
    Leaves s (k - blanks.length - digits.length) (Istream.extract f p).2 ∧
      (g [] = p.1 → (Istream.extract f p).1 = g (digits.take (k - blanks.length))) := by
  obtain ⟨v, st⟩ := p
  unfold Leaves at h
  split_ifs at h with hk
  · obtain ⟨hv, hspent⟩ := Spent.extract (f := f) h
    rw [hv, hk, Nat.zero_sub, Nat.zero_sub, List.take_zero]
    exact ⟨hspent, Eq.symm⟩
  · obtain rfl : st = _ := h
    rcases Nat.lt_or_ge blanks.length k with hlt | hle
    · obtain ⟨hread, hfirst⟩ := extract_cut_digits (f := f) (s := s) hb hd hne hlt v
      rw [hread, hf _ _ hfirst (head?_take hs _)]
      refine ⟨?_, fun _ => rfl⟩
      unfold Leaves
      split_ifs with hend
      · exact Or.inr (by rw [hend]; rfl)
      · rfl
    · rw [extract_cut_blanks hb hle, Nat.sub_eq_zero_of_le hle, Nat.zero_sub, List.take_zero]
      exact ⟨Or.inl rfl, Eq.symm⟩

include hb hd hne hs in
lemma Leaves.extract_int {p : ℤ × Input} (h : Leaves (blanks ++ (digits ++ s)) k p.2)
    (hlo : lo ≤ 0) (hhi : number digits ≤ hi) :
    Leaves s (k - blanks.length - digits.length) (Istream.extract (readInt lo hi) p).2 :=
  (Leaves.extract hb hd hne hs h (g := fun l => (number l : ℤ)) fun m r hm hr =>
    readInt_digits (fun c hc => hd c (List.mem_of_mem_take hc)) hm (by omega)
      (le_trans (by exact_mod_cast number_take_le digits m) hhi) hr).1

include hb hd hne hs in
/-- A number above the range ends the extractions, whether it is cut off or not. -/
lemma Leaves.extract_above {p : ℤ × Input} (h : Leaves (blanks ++ (digits ++ s)) k p.2)
    (hlo : lo ≤ 0) (hhi : hi < number digits) :
    Spent (Istream.extract (readInt lo hi) p).2 := by
  obtain ⟨v, st⟩ := p
  unfold Leaves at h
  split_ifs at h with hk
  · exact (Spent.extract h).2
  · obtain rfl : st = _ := h
    rcases Nat.lt_or_ge blanks.length k with hlt | hle
    · obtain ⟨hread, hfirst⟩ := extract_cut_digits (f := readInt lo hi) (s := s) hb hd hne hlt v
      have hdigits : ∀ c ∈ digits.take (k - blanks.length), isDigit c = true :=
        fun c hc => hd c (List.mem_of_mem_take hc)
      have hhead := head?_take hs (k - blanks.length - digits.length)
      rw [hread]
      rcases lt_or_ge hi (number (digits.take (k - blanks.length)) : ℤ) with habove | hin
      · rw [readInt_above hdigits hfirst (by omega) habove hhead]
        exact Or.inl rfl
      · -- a number that is not above the range is cut off, and nothing follows
        have hcut : k - blanks.length < digits.length := by
          by_contra hall
          rw [List.take_of_length_le (by omega)] at hin
          omega
        rw [readInt_digits hdigits hfirst (by omega) hin hhead, Nat.sub_eq_zero_of_le hcut.le]
        exact Or.inr rfl
    · rw [extract_cut_blanks hb hle]
      exact Or.inl rfl

end Cut

end Libchef.Istream
