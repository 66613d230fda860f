import Libchef.Base.Numeral
import Mathlib.Algebra.Group.Fin.Basic
import Mathlib.Logic.Function.Basic

/-!
Words of 32 bits, as programs use them that take digests.

They are put together from bytes and taken apart into bytes, two of them hold a count, and a loop
over them that is written out gives the places of the words to its variables in turn.
-/

namespace Libchef.Words

open Libchef.Numeral

/-! ### Bytes -/

section Bytes

variable (w : BitVec 32)

/-- The byte of a word from bit `k` on. -/
def byteAt (k : ℕ) : UInt8 := UInt8.ofBitVec ((w >>> k).setWidth 8)

lemma byteAt_eq (k : ℕ) : byteAt w k = UInt8.ofNat (w.toNat / 2 ^ k) := by
  refine UInt8.toNat_inj.mp ?_
  simp only [byteAt, UInt8.toNat_ofBitVec, BitVec.toNat_setWidth, BitVec.toNat_ushiftRight,
    Nat.shiftRight_eq_div_pow, UInt8.toNat_ofNat']

lemma bytes_toLE : [byteAt w 0, byteAt w 8, byteAt w 16, byteAt w 24] = toLE 4 w.toNat := by
  simp only [byteAt_eq, toLE, Nat.div_div_eq_div_mul, pow_zero, Nat.div_one]
  rfl

lemma bytes_toBE : [byteAt w 24, byteAt w 16, byteAt w 8, byteAt w 0] = toBE 4 w.toNat :=
  congrArg List.reverse (bytes_toLE w)

lemma add_bytes (a b c d : UInt8) :
    (a.toBitVec.setWidth 32 + b.toBitVec.setWidth 32 <<< 8 + c.toBitVec.setWidth 32 <<< 16 +
      d.toBitVec.setWidth 32 <<< 24 : BitVec 32) = BitVec.ofNat 32 (ofLE [a, b, c, d]) := by
  refine BitVec.eq_of_toNat_eq ?_
  have ha := a.toNat_lt
  have hb := b.toNat_lt
  have hc := c.toNat_lt
  have hd := d.toNat_lt
  simp only [BitVec.toNat_add, BitVec.toNat_shiftLeft, BitVec.toNat_setWidth, UInt8.toNat_toBitVec,
    BitVec.toNat_ofNat, Nat.shiftLeft_eq, ofLE_cons, ofLE_nil]
  omega

lemma rotateLeft_eq {n : ℕ} (h : n < 32) : w <<< n ||| w >>> (32 - n) = w.rotateLeft n := by
  rw [BitVec.rotateLeft_def, Nat.mod_eq_of_lt h]

end Bytes

/-! ### A count in two words -/

section Double

variable (hi lo b a : BitVec 32)

/-- The number that two words stand for. -/
def double : ℕ := hi.toNat * 2 ^ 32 + lo.toNat

lemma toBE_double : toBE 4 hi.toNat ++ toBE 4 lo.toNat = toBE 8 (double hi lo) := by
  have hl := lo.isLt
  have hdiv : double hi lo / 256 ^ 4 = hi.toNat := by
    unfold double
    omega
  have hmod : double hi lo % 256 ^ 4 = lo.toNat := by
    unfold double
    omega
  rw [show (8 : ℕ) = 4 + 4 from rfl, toBE_add, hdiv, ← toBE_mod 4 (double hi lo), hmod]

lemma toLE_double : toLE 4 lo.toNat ++ toLE 4 hi.toNat = toLE 8 (double hi lo) := by
  refine List.reverse_inj.mp ?_
  rw [List.reverse_append]
  exact toBE_double hi lo

lemma add_lt_iff : lo + a < lo ↔ 2 ^ 32 ≤ lo.toNat + a.toNat := by
  have hl := lo.isLt
  have ha := a.isLt
  rw [BitVec.lt_def, BitVec.toNat_add]
  omega

lemma add_lt_right_iff : lo + a < a ↔ lo + a < lo := by
  rw [add_lt_iff, BitVec.add_comm, add_lt_iff, Nat.add_comm]

def carry : BitVec 32 := if lo + a < lo then 1 else 0

lemma double_add :
    double (hi + b + carry lo a) (lo + a) = (double hi lo + double b a) % 2 ^ 64 := by
  have hl := lo.isLt
  have hh := hi.isLt
  have ha := a.isLt
  have hb := b.isLt
  have hone : (1 : BitVec 32).toNat = 1 := rfl
  have hzero : (0 : BitVec 32).toNat = 0 := rfl
  simp only [double, carry, add_lt_iff]
  split_ifs with h <;> simp only [BitVec.toNat_add, hone, hzero] <;> omega

/-- Where they count the bits that have gone through blocks of 64 bytes, the low word tells how
many bytes are in the block that is not full. -/
lemma bytes_in_block {hi lo : BitVec 32} {n : ℕ} (h : double hi lo = 8 * n % 2 ^ 64) :
    (lo >>> 3 &&& 63#32).toNat = n % 64 := by
  have hl := lo.isLt
  unfold double at h
  rw [BitVec.toNat_and, BitVec.toNat_ushiftRight, Nat.shiftRight_eq_div_pow,
    show (63#32).toNat = 2 ^ 6 - 1 from rfl, Nat.and_two_pow_sub_one_eq_mod]
  omega

end Double

/-! ### Names in turn -/

section Turn

variable {N W : Type*} {n : ℕ} [NeZero n] (name : Fin n → N)

/-- The name of place `j` at step `i`. The names move on by one place with each step. -/
def turn (i : ℕ) (j : Fin n) : N := name (j - Fin.ofNat n i)

lemma turn_succ (i : ℕ) (j : Fin n) : turn name (i + 1) j = turn name i (j - 1) := by
  have hsucc : Fin.ofNat n (i + 1) = Fin.ofNat n i + 1 := Fin.ext (by simp [Fin.val_add])
  rw [turn, turn, hsucc, sub_add_eq_sub_sub_swap]

variable {name}

lemma update_turn [DecidableEq N] (h : Function.Injective name) (f : N → W) (w : W) (i : ℕ)
    (j k : Fin n) :
    Function.update f (turn name i k) w (turn name i j) =
      if j = k then w else f (turn name i j) := by
  split_ifs with hjk
  · rw [hjk, Function.update_self]
  · exact Function.update_of_ne (fun he => hjk (sub_left_injective (h he))) ..

end Turn

end Libchef.Words
