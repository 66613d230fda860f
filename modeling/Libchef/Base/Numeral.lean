import Mathlib.Algebra.Order.Ring.Nat
import Mathlib.Data.List.Induction
import Mathlib.Tactic.Ring

/-!
Numbers as bytes, with the most significant one first or with the least significant one first,
and as bits.
-/

namespace Libchef.Numeral

/-- The lowest `k` bytes of a number, the least significant one first. -/
def toLE : (k : ℕ) → ℕ → List UInt8
  | 0, _ => []
  | k + 1, n => UInt8.ofNat n :: toLE k (n / 256)

/-- The number that bytes stand for, the least significant one first. -/
def ofLE (l : List UInt8) : ℕ := l.foldr (fun b n => b.toNat + 256 * n) 0

def toBE (k n : ℕ) : List UInt8 := (toLE k n).reverse

def ofBE (l : List UInt8) : ℕ := ofLE l.reverse

@[simp] lemma ofLE_nil : ofLE [] = 0 := rfl

@[simp] lemma ofLE_cons (b : UInt8) (l : List UInt8) : ofLE (b :: l) = b.toNat + 256 * ofLE l := rfl

@[simp] lemma length_toLE (k n : ℕ) : (toLE k n).length = k := by
  induction k generalizing n with
  | zero => rfl
  | succ k ih => rw [toLE, List.length_cons, ih]

@[simp] lemma length_toBE (k n : ℕ) : (toBE k n).length = k := by
  rw [toBE, List.length_reverse, length_toLE]

lemma ofLE_lt (l : List UInt8) : ofLE l < 256 ^ l.length := by
  induction l with
  | nil => simp
  | cons b l ih =>
    have hb := b.toNat_lt
    rw [ofLE_cons, List.length_cons, pow_succ]
    omega

lemma ofBE_lt (l : List UInt8) : ofBE l < 256 ^ l.length := by
  simpa [ofBE] using ofLE_lt l.reverse

/-- **Reading back** what was written gives the lowest bytes of the number. -/
theorem ofLE_toLE (k n : ℕ) : ofLE (toLE k n) = n % 256 ^ k := by
  induction k generalizing n with
  | zero => simp [toLE, Nat.mod_one]
  | succ k ih =>
    rw [toLE, ofLE_cons, ih, pow_succ', Nat.mod_mul, UInt8.toNat_ofNat']

/-- Writing what was read gives the bytes. -/
theorem toLE_ofLE (l : List UInt8) : toLE l.length (ofLE l) = l := by
  induction l with
  | nil => rfl
  | cons b l ih =>
    have hb := b.toNat_lt
    have h0 : (b.toNat + 256 * ofLE l) / 256 = ofLE l := by omega
    have h1 : UInt8.ofNat (b.toNat + 256 * ofLE l) = b := by
      refine UInt8.toNat_inj.mp ?_
      rw [UInt8.toNat_ofNat']
      omega
    rw [List.length_cons, toLE, ofLE_cons, h0, h1, ih]

theorem ofBE_toBE (k n : ℕ) : ofBE (toBE k n) = n % 256 ^ k := by
  rw [ofBE, toBE, List.reverse_reverse, ofLE_toLE]

lemma toLE_mod (k n : ℕ) : toLE k (n % 256 ^ k) = toLE k n := by
  rw [← ofLE_toLE]
  have h := toLE_ofLE (toLE k n)
  rwa [length_toLE] at h

lemma toBE_mod (k n : ℕ) : toBE k (n % 256 ^ k) = toBE k n := by rw [toBE, toLE_mod, ← toBE]

lemma toBE_inj {k n m : ℕ} (h : toBE k n = toBE k m) : n % 256 ^ k = m % 256 ^ k := by
  rw [← ofBE_toBE, h, ofBE_toBE]

lemma toLE_add (j k n : ℕ) : toLE (j + k) n = toLE j n ++ toLE k (n / 256 ^ j) := by
  induction j generalizing n with
  | zero => simp [toLE]
  | succ j ih =>
    rw [Nat.succ_add, toLE, ih, toLE, List.cons_append, Nat.div_div_eq_div_mul, ← pow_succ']

lemma toBE_add (j k n : ℕ) : toBE (j + k) n = toBE j (n / 256 ^ k) ++ toBE k n := by
  rw [toBE, Nat.add_comm, toLE_add, List.reverse_append, toBE, toBE]

lemma ofBE_append (u v : List UInt8) : ofBE (u ++ v) = ofBE u * 256 ^ v.length + ofBE v := by
  have hv : v.length = v.reverse.length := List.length_reverse.symm
  rw [ofBE, List.reverse_append, ofBE, ofBE, hv]
  generalize v.reverse = v
  induction v with
  | nil => simp
  | cons b v ih => rw [List.cons_append, ofLE_cons, ih, ofLE_cons, List.length_cons]; ring

/-! ### Bits -/

/-- The lowest `k` bits of a number, the most significant one first. -/
def toBits (k n : ℕ) : List Bool := (List.range k).map fun i => n.testBit (k - 1 - i)

/-- The number that bits stand for, the most significant one first. -/
def ofBits (l : List Bool) : ℕ := l.foldl (fun n b => 2 * n + b.toNat) 0

/-- The bits of bytes. -/
def bytesToBits (l : List UInt8) : List Bool := l.flatMap fun b => toBits 8 b.toNat

@[simp] lemma length_toBits (k n : ℕ) : (toBits k n).length = k := by simp [toBits]

lemma toBits_succ (k n : ℕ) : toBits (k + 1) n = n.testBit k :: toBits k n := by
  rw [toBits, List.range_succ_eq_map, List.map_cons, List.map_map, toBits]
  congr 1
  refine List.map_congr_left fun i _ => ?_
  rw [Function.comp, show k + 1 - 1 - (i + 1) = k - 1 - i by omega]

lemma ofBits_append (u v : List Bool) : ofBits (u ++ v) = ofBits u * 2 ^ v.length + ofBits v := by
  induction v using List.reverseRecOn with
  | nil => simp [ofBits]
  | append_singleton v b ih =>
    have hsnoc (w : List Bool) : ofBits (w ++ [b]) = 2 * ofBits w + b.toNat := by
      simp [ofBits, List.foldl_append]
    rw [← List.append_assoc, hsnoc, ih, hsnoc, List.length_append, List.length_singleton, pow_succ]
    ring

lemma ofBits_toBits (k n : ℕ) : ofBits (toBits k n) = n % 2 ^ k := by
  induction k with
  | zero => simp [toBits, ofBits, Nat.mod_one]
  | succ k ih =>
    rw [toBits_succ, ← List.singleton_append, ofBits_append, ih, length_toBits, Nat.mod_pow_succ]
    have hb : ofBits [n.testBit k] = n / 2 ^ k % 2 := by
      rw [← Nat.toNat_testBit]
      simp [ofBits]
    rw [hb]
    ring

lemma ofBits_lt (l : List Bool) : ofBits l < 2 ^ l.length := by
  induction l using List.reverseRecOn with
  | nil => exact Nat.one_pos
  | append_singleton l b ih =>
    have hb := b.toNat_lt
    rw [ofBits_append, List.length_append, List.length_singleton, pow_succ]
    change ofBits l * 2 ^ 1 + (2 * 0 + b.toNat) < _
    omega

lemma toBits_mod (k n : ℕ) : toBits k (n % 2 ^ k) = toBits k n := by
  refine List.map_congr_left fun i hi => ?_
  rw [Nat.testBit_mod_two_pow, decide_eq_true (by have := List.mem_range.mp hi; omega),
    Bool.true_and]

lemma toBits_add (j k n : ℕ) : toBits (j + k) n = toBits j (n / 2 ^ k) ++ toBits k n := by
  induction j with
  | zero => simp [toBits]
  | succ j ih =>
    rw [Nat.succ_add, toBits_succ, ih, toBits_succ, List.cons_append, Nat.testBit_div_two_pow,
      Nat.add_comm]

lemma toBits_concat (j : ℕ) {k b : ℕ} (hb : b < 2 ^ k) (a : ℕ) :
    toBits (j + k) (a * 2 ^ k + b) = toBits j a ++ toBits k b := by
  have hdiv : (a * 2 ^ k + b) / 2 ^ k = a := by
    rw [Nat.mul_comm, Nat.mul_add_div (Nat.two_pow_pos k), Nat.div_eq_of_lt hb, Nat.add_zero]
  rw [toBits_add, hdiv, ← toBits_mod k (a * 2 ^ k + b), Nat.mul_add_mod', Nat.mod_eq_of_lt hb]

lemma toBits_zero (k : ℕ) : toBits k 0 = List.replicate k false := by
  induction k with
  | zero => rfl
  | succ k ih => rw [toBits_succ, ih, Nat.zero_testBit, List.replicate_succ]

lemma toBits_ofBits (l : List Bool) : toBits l.length (ofBits l) = l := by
  induction l using List.reverseRecOn with
  | nil => rfl
  | append_singleton l b ih =>
    have hb : ofBits [b] = b.toNat := Nat.zero_add _
    have hlt := b.toNat_lt
    have hdiv : (ofBits l * 2 ^ 1 + b.toNat) / 2 ^ 1 = ofBits l := by omega
    have hlow : toBits 1 (ofBits l * 2 ^ 1 + b.toNat) = [b] := by
      cases b <;> simp [toBits, Nat.testBit_zero]
    rw [List.length_append, List.length_singleton, ofBits_append, List.length_singleton, hb,
      toBits_add, hdiv, ih, hlow]

lemma bytesToBits_append (u v : List UInt8) :
    bytesToBits (u ++ v) = bytesToBits u ++ bytesToBits v := List.flatMap_append

lemma length_bytesToBits (l : List UInt8) : (bytesToBits l).length = 8 * l.length := by
  induction l with
  | nil => rfl
  | cons b l ih =>
    rw [bytesToBits, List.flatMap_cons, List.length_append, length_toBits, List.length_cons]
    rw [bytesToBits] at ih
    omega

lemma bytesToBits_concat (l : List UInt8) (b : UInt8) :
    bytesToBits (l ++ [b]) = bytesToBits l ++ toBits 8 b.toNat := by
  simp [bytesToBits]

/-- Bytes and their bits stand for one number. -/
theorem ofBits_bytesToBits (l : List UInt8) : ofBits (bytesToBits l) = ofBE l := by
  induction l using List.reverseRecOn with
  | nil => rfl
  | append_singleton l b ih =>
    have hb := b.toNat_lt
    rw [bytesToBits_concat, ofBits_append, ih, length_toBits, ofBits_toBits, ofBE_append]
    simp [ofBE, Nat.mod_eq_of_lt hb]

/-- The bits of a number, by way of its bytes. -/
theorem bytesToBits_toBE (k n : ℕ) : bytesToBits (toBE k n) = toBits (8 * k) n := by
  induction k generalizing n with
  | zero => rfl
  | succ k ih =>
    have hb : toBE 1 n = [UInt8.ofNat n] := rfl
    have h8 : toBits 8 (UInt8.ofNat n).toNat = toBits 8 n := by
      rw [UInt8.toNat_ofNat']
      exact toBits_mod 8 n
    rw [toBE_add, hb, bytesToBits_concat, ih, h8, Nat.mul_succ, toBits_add, pow_one]
    rfl

lemma or_eq_add {i b : ℕ} (hb : b < 2 ^ i) (a : ℕ) : a * 2 ^ i ||| b = a * 2 ^ i + b := by
  rw [← Nat.shiftLeft_eq, Nat.shiftLeft_add_eq_or_of_lt hb]

end Libchef.Numeral
