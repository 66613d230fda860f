import Mathlib.Data.List.Basic
import Mathlib.Data.List.TakeWhile
import Mathlib.Algebra.Order.Ring.Nat
import Mathlib.Algebra.Order.Ring.Int

/-!
Decimal numbers as bytes: how they are printed, and how `atoi` reads them.
-/

namespace Libchef.Decimal

/-- The byte of a character. -/
def byte (c : Char) : UInt8 := UInt8.ofNat c.toNat

/-- The digits of a number. -/
def print (n : ℕ) : List UInt8 := (Nat.toDigits 10 n).map byte

def isDigit (c : UInt8) : Bool := byte '0' ≤ c ∧ c ≤ byte '9'

def isSpace (c : UInt8) : Bool := c = byte ' ' ∨ (9 ≤ c ∧ c ≤ 13)

/-- The value of a digit. -/
def digitValue (c : UInt8) : ℕ := c.toNat - 48

/-- The number that digits stand for. -/
def number (l : List UInt8) : ℕ := l.foldl (fun v c => 10 * v + digitValue c) 0

/-- The number a text starts with. -/
def scan (s : List UInt8) : ℕ := number (s.takeWhile isDigit)

/-- `strtol` with a base of ten: blanks, a sign, digits; the nearest `long` if it is too large. -/
def strtol (s : List UInt8) : ℤ :=
  let s := s.dropWhile isSpace
  if s.head? = some (byte '-') then max (-(2 ^ 63 : ℤ)) (-(scan s.tail : ℤ))
  else if s.head? = some (byte '+') then min (2 ^ 63 - 1 : ℤ) (scan s.tail)
  else min (2 ^ 63 - 1 : ℤ) (scan s)

/-- `atoi`: the `long` converted to an `int`. -/
def atoi (s : List UInt8) : ℤ := (BitVec.ofInt 32 (strtol s)).toInt

lemma isSpace_of_isDigit {c : UInt8} (h : isDigit c = true) : isSpace c = false := by
  have h48 : byte '0' ≤ c := (of_decide_eq_true h).1
  by_contra hs
  rcases of_decide_eq_true (Bool.eq_true_of_not_eq_false hs) with rfl | ⟨-, h13⟩
  · exact absurd h48 (by decide)
  · exact absurd (UInt8.le_trans h48 h13) (by decide)

lemma number_append_singleton (l : List UInt8) (c : UInt8) :
    number (l ++ [c]) = 10 * number l + digitValue c := by
  simp [number, List.foldl_append]

lemma digit_spec : ∀ d < 10, isDigit (byte d.digitChar) = true ∧ digitValue (byte d.digitChar) = d ∧
    isSpace (byte d.digitChar) = false := by
  decide

lemma print_eq (n : ℕ) :
    print n = (if n < 10 then [] else print (n / 10)) ++ [byte (n % 10).digitChar] := by
  unfold print
  rw [Nat.toDigits_eq_if (by omega)]
  split_ifs with h
  · simp [Nat.mod_eq_of_lt h]
  · simp

/-- Printing gives digits, and they stand for the number. -/
lemma print_spec (n : ℕ) :
    (∀ c ∈ print n, isDigit c = true ∧ isSpace c = false) ∧ number (print n) = n ∧
      print n ≠ [] := by
  induction n using Nat.strong_induction_on with
  | _ n ih =>
    obtain ⟨h1, h2, h3⟩ := digit_spec (n % 10) (Nat.mod_lt _ (by omega))
    rw [print_eq]
    split_ifs with h
    · refine ⟨fun c hc => ?_, ?_, by simp⟩
      · rw [List.nil_append, List.mem_singleton] at hc
        exact hc ▸ ⟨h1, h3⟩
      · rw [number_append_singleton, h2]
        simp [number, Nat.mod_eq_of_lt h]
    · obtain ⟨g1, g2, -⟩ := ih (n / 10) (by omega)
      refine ⟨fun c hc => ?_, ?_, by simp⟩
      · rcases List.mem_append.mp hc with hc | hc
        · exact g1 c hc
        · rw [List.mem_singleton] at hc
          exact hc ▸ ⟨h1, h3⟩
      · rw [number_append_singleton, g2, h2]
        omega

/-- What is left of a number of which digits are cut off. -/
lemma number_take_le {n i : ℕ} (h : i < (print n).length) :
    number ((print n).take i) ≤ n / 10 := by
  induction n using Nat.strongRecOn generalizing i with
  | ind n ih =>
    rw [print_eq] at h ⊢
    split_ifs at h ⊢ with hn
    · obtain rfl : i = 0 := by simpa using h
      simp [number]
    · rw [List.length_append, List.length_singleton] at h
      rw [List.take_append_of_le_length (by omega)]
      by_cases hi : i < (print (n / 10)).length
      · exact (ih (n / 10) (by omega) hi).trans (Nat.div_le_self _ _)
      · rw [List.take_of_length_le (by omega), (print_spec (n / 10)).2.1]

lemma print_inj {m n : ℕ} (h : print m = print n) : m = n := by
  rw [← (print_spec m).2.1, h, (print_spec n).2.1]

lemma ne_of_mem_print {n : ℕ} {c d : UInt8} (hc : c ∈ print n) (hd : isDigit d = false) :
    c ≠ d := by
  rintro rfl
  rw [((print_spec n).1 c hc).1] at hd
  cases hd

/-- An `int` as it is printed. -/
def printInt : ℤ → List UInt8
  | .ofNat n => print n
  | .negSucc n => byte '-' :: print (n + 1)

lemma printInt_inj {i j : ℤ} (h : printInt i = printInt j) : i = j := by
  have hsign {m n : ℕ} : print m ≠ byte '-' :: print n := fun h =>
    ne_of_mem_print (by rw [h]; exact List.mem_cons_self) (by decide) rfl
  cases i with
  | ofNat m =>
    cases j with
    | ofNat n => exact congrArg Int.ofNat (print_inj h)
    | negSucc n => exact absurd h hsign
  | negSucc m =>
    cases j with
    | ofNat n => exact absurd h.symm hsign
    | negSucc n => exact congrArg Int.negSucc (Nat.succ.inj (print_inj (List.cons.inj h).2))

lemma notMem_printInt {d : UInt8} (hd : isDigit d = false) (hs : d ≠ byte '-') (i : ℤ) :
    d ∉ printInt i := by
  cases i with
  | ofNat n => exact fun h => ne_of_mem_print h hd rfl
  | negSucc n =>
    intro h
    rcases List.mem_cons.mp h with h | h
    · exact hs h
    · exact ne_of_mem_print h hd rfl

lemma scan_append {l r : List UInt8} (hl : ∀ c ∈ l, isDigit c = true)
    (hr : ∀ c ∈ r.head?, isDigit c = false) : scan (l ++ r) = number l := by
  rw [scan, List.takeWhile_append_of_pos hl]
  cases r with
  | nil => simp
  | cons c r => rw [List.takeWhile_cons, hr c rfl]; simp

lemma ne_sign {c : UInt8} (h : isDigit c = true) : c ≠ byte '-' ∧ c ≠ byte '+' := by
  constructor <;> (rintro rfl; revert h; decide)

/-- **What is printed is read back.** -/
theorem atoi_print {n : ℕ} (hn : n < 2 ^ 31) {r : List UInt8}
    (hr : ∀ c ∈ r.head?, isDigit c = false) : atoi (print n ++ r) = n := by
  obtain ⟨hd, hnum, hne⟩ := print_spec n
  obtain ⟨c, l, hl⟩ := List.exists_cons_of_ne_nil hne
  have hc := hd c (by rw [hl]; simp)
  have hscan : scan (print n ++ r) = n := by
    rw [scan_append (fun c hc => (hd c hc).1) hr, hnum]
  have hdrop : (print n ++ r).dropWhile isSpace = print n ++ r := by
    rw [hl, List.cons_append, List.dropWhile_cons, if_neg (by simp [hc.2])]
  have hhead : (print n ++ r).head? = some c := by rw [hl]; rfl
  have hlong : strtol (print n ++ r) = n := by
    simp only [strtol, hdrop, hhead, Option.some.injEq, (ne_sign hc.1).1, (ne_sign hc.1).2,
      if_false, hscan]
    omega
  rw [atoi, hlong, BitVec.toInt_ofInt]
  exact Int.bmod_eq_of_le (by omega) (by omega)

end Libchef.Decimal
