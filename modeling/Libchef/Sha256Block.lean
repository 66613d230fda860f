import Libchef.Sha256Model
import Libchef.Sha256Standard

/-!
One block of a digest: `process_message_block` is the compression function of the standard.
-/

namespace Libchef.Sha256Block

open Libchef.StringsModel Libchef.Sha256Model Libchef.Numeral Libchef.Blocks

/-! ### The constants -/

/-- Below the square of 18 the primes below 18 tell the others. -/
lemma prime_iff {p : ℕ} (h : p < 324) :
    p.Prime ↔ 2 ≤ p ∧ ∀ d ∈ [2, 3, 5, 7, 11, 13, 17], p = d ∨ ¬ d ∣ p := by
  refine ⟨fun hp => ⟨hp.two_le, fun d hd => ?_⟩, fun ⟨hp, hd⟩ => ?_⟩
  · have hne : d ≠ 1 := by
      rintro rfl
      revert hd
      decide
    by_cases hdvd : d ∣ p
    · exact Or.inl (((Nat.dvd_prime hp).mp hdvd).resolve_left hne).symm
    · exact Or.inr hdvd
  · have hsqrt : Nat.sqrt p < 18 := Nat.sqrt_lt.mpr (by omega)
    have hprime : ∀ m < 18, 2 ≤ m → ∃ d ∈ [2, 3, 5, 7, 11, 13, 17], d ∣ m := by decide
    refine Nat.prime_def_le_sqrt.mpr ⟨hp, fun m hm hle hdvd => ?_⟩
    obtain ⟨d, hmem, hdm⟩ := hprime m (by omega) hm
    rcases hd d hmem with rfl | hno
    · have := Nat.le_of_dvd (by omega) hdm
      have := Nat.sqrt_lt_self (n := p) (by omega)
      omega
    · exact hno (hdm.trans hdvd)

lemma primes_eq (n : ℕ) : Sha256Standard.primes n =
    ((List.range 312).filter fun p =>
      2 ≤ p ∧ ∀ d ∈ [2, 3, 5, 7, 11, 13, 17], p = d ∨ ¬ d ∣ p).take n := by
  refine congrArg (List.take n) (List.filter_congr fun p hp => ?_)
  have hlt := List.mem_range.mp hp
  exact decide_eq_decide.mpr (prime_iff (by omega))

lemma K_eq : K = Sha256Standard.K := by
  rw [Sha256Standard.K, primes_eq]
  decide +kernel

lemma initialHash_eq : initialHash.toList = Sha256Standard.initial := by
  rw [Sha256Standard.initial, primes_eq]
  decide +kernel

/-! ### The functions of words -/

section Words

variable (x y z : Word)

lemma ROTR_eq {n : ℕ} (h : n < 32) : ROTR n x = x.rotateRight n := by
  rw [BitVec.rotateRight_def, Nat.mod_eq_of_lt h, ROTR]

lemma SIGMA0_eq : SIGMA0 x = Sha256Standard.Sigma0 x := by
  rw [SIGMA0, ROTR_eq x (by omega), ROTR_eq x (by omega), ROTR_eq x (by omega),
    Sha256Standard.Sigma0]

lemma SIGMA1_eq : SIGMA1 x = Sha256Standard.Sigma1 x := by
  rw [SIGMA1, ROTR_eq x (by omega), ROTR_eq x (by omega), ROTR_eq x (by omega),
    Sha256Standard.Sigma1]

lemma sigma0_eq : sigma0 x = Sha256Standard.sigma0 x := by
  rw [sigma0, ROTR_eq x (by omega), ROTR_eq x (by omega), SHR, Sha256Standard.sigma0]

lemma sigma1_eq : sigma1 x = Sha256Standard.sigma1 x := by
  rw [sigma1, ROTR_eq x (by omega), ROTR_eq x (by omega), SHR, Sha256Standard.sigma1]

lemma CH_eq : CH x y z = Sha256Standard.Ch x y z := by
  ext i
  simp only [CH, Sha256Standard.Ch, BitVec.getElem_xor, BitVec.getElem_and, BitVec.getElem_not]
  cases x[i] <;> cases y[i] <;> cases z[i] <;> rfl

lemma MAJ_eq : MAJ x y z = Sha256Standard.Maj x y z := by
  ext i
  simp only [MAJ, Sha256Standard.Maj, BitVec.getElem_or, BitVec.getElem_xor, BitVec.getElem_and]
  cases x[i] <;> cases y[i] <;> cases z[i] <;> rfl

end Words

/-! ### The words of a block -/

/-- Four bytes put together by shifts. -/
lemma shifts_eq (a b c d : UInt8) :
    (a.toBitVec.setWidth 32 <<< 24 ||| b.toBitVec.setWidth 32 <<< 16 |||
      c.toBitVec.setWidth 32 <<< 8 ||| d.toBitVec.setWidth 32 : Word) =
    BitVec.ofNat 32 (ofBE [a, b, c, d]) := by
  refine BitVec.eq_of_toNat_eq ?_
  have ha := a.toNat_lt
  have hb := b.toNat_lt
  have hc := c.toNat_lt
  have hd := d.toNat_lt
  have hmod {n : ℕ} (h : n < 2 ^ 32) : n % 2 ^ 32 = n := Nat.mod_eq_of_lt h
  simp only [BitVec.toNat_or, BitVec.toNat_shiftLeft, BitVec.toNat_setWidth, UInt8.toNat_toBitVec,
    BitVec.toNat_ofNat, Nat.shiftLeft_eq]
  rw [hmod (n := a.toNat) (by omega), hmod (n := b.toNat) (by omega),
    hmod (n := c.toNat) (by omega), hmod (n := d.toNat) (by omega),
    hmod (by omega), hmod (by omega), hmod (by omega)]
  have h1 : a.toNat * 2 ^ 24 ||| b.toNat * 2 ^ 16 = (a.toNat * 2 ^ 8 + b.toNat) * 2 ^ 16 := by
    rw [or_eq_add (by omega)]
    omega
  have h2 : (a.toNat * 2 ^ 8 + b.toNat) * 2 ^ 16 ||| c.toNat * 2 ^ 8 =
      ((a.toNat * 2 ^ 8 + b.toNat) * 2 ^ 8 + c.toNat) * 2 ^ 8 := by
    rw [or_eq_add (by omega)]
    omega
  rw [h1, h2, or_eq_add (by omega)]
  simp only [ofBE, List.reverse_cons, List.reverse_nil, List.nil_append, List.cons_append,
    ofLE_cons, ofLE_nil]
  omega

lemma words_eq {block : Str} (hb : block.length = 64) :
    Sha256Standard.words (bytesToBits block) = (List.range 16).map (firstWord block) := by
  have hlen (b : UInt8) : (toBits 8 b.toNat).length = 8 := length_toBits 8 b.toNat
  have hcut := blocks_flatMap (B := 4) (by omega) (by omega) hlen block
  rw [Sha256Standard.words, bytesToBits, hcut, List.map_map, blocks, hb, List.map_map]
  refine List.map_congr_left fun t ht => ?_
  have h4 : 4 * t + 4 ≤ block.length := by
    have := List.mem_range.mp ht
    omega
  rw [Function.comp, Function.comp, ← bytesToBits, ofBits_bytesToBits, take_four 0 h4, ← shifts_eq]
  rfl

/-! ### The message schedule -/

lemma fill_schedule {M W : List Word} (hW : W = (List.range 16).map (Sha256Standard.W M)) (n : ℕ) :
    (List.range' 16 n).foldl nextWord W = (List.range (16 + n)).map (Sha256Standard.W M) := by
  induction n with
  | zero => exact hW
  | succ n ih =>
    have hget {t : ℕ} (h : t < 16 + n) :
        ((List.range (16 + n)).map (Sha256Standard.W M)).getD t 0 = Sha256Standard.W M t := by
      simp [h]
    rw [List.range'_concat, List.foldl_append, ih, List.foldl_cons, List.foldl_nil, nextWord,
      Nat.one_mul, hget (by omega), hget (by omega), hget (by omega), hget (by omega), sigma0_eq,
      sigma1_eq, ← Nat.add_assoc, List.range_succ, List.map_append]
    have hnext := Sha256Standard.W.eq_1 M (16 + n)
    rw [if_neg (by omega)] at hnext
    rw [List.map_singleton, hnext]

lemma schedule_eq {block : Str} (hb : block.length = 64) {t : ℕ} (ht : t < 64) :
    (schedule block).getD t 0 = Sha256Standard.W (Sha256Standard.words (bytesToBits block)) t := by
  have h16 : (List.range 16).map (firstWord block) =
      (List.range 16).map (Sha256Standard.W (Sha256Standard.words (bytesToBits block))) := by
    refine List.map_congr_left fun t ht => ?_
    have ht' := List.mem_range.mp ht
    rw [words_eq hb, Sha256Standard.W, if_pos ht']
    simp [ht']
  rw [schedule, fill_schedule h16]
  simp [ht]

/-! ### The rounds -/

/-- The local variables under the names of the standard. -/
def working (r : Locals) : Sha256Standard.Working := ⟨r.A, r.B, r.C, r.D, r.E, r.F, r.G, r.H⟩

lemma step_eq {block : Str} (hb : block.length = 64) (r : Locals) {t : ℕ} (ht : t < 64) :
    working (step (schedule block) r t) =
      Sha256Standard.round (Sha256Standard.words (bytesToBits block)) (working r) t := by
  simp only [working, step, Sha256Standard.round, schedule_eq hb ht, SIGMA0_eq, SIGMA1_eq, CH_eq,
    MAJ_eq, K_eq]

lemma steps_eq {block : Str} (hb : block.length = 64) (r : Locals) {n : ℕ} (hn : n ≤ 64) :
    working ((List.range n).foldl (step (schedule block)) r) =
      (List.range n).foldl (Sha256Standard.round (Sha256Standard.words (bytesToBits block)))
        (working r) := by
  induction n with
  | zero => rfl
  | succ n ih =>
    rw [List.range_succ, List.foldl_append, List.foldl_append, ← ih (by omega), List.foldl_cons,
      List.foldl_cons, List.foldl_nil, List.foldl_nil, step_eq hb _ (by omega)]

/-- **One block**: the code's compression function is that of the standard. -/
theorem compress_eq {block : Str} (hb : block.length = 64) (h : Hash) :
    (compress h block).toList = Sha256Standard.compress h.toList (bytesToBits block) := by
  rw [compress, Sha256Standard.compress]
  have hs := steps_eq hb ⟨h.h0, h.h1, h.h2, h.h3, h.h4, h.h5, h.h6, h.h7⟩ (Nat.le_refl 64)
  have hw : Sha256Standard.Working.ofHash h.toList =
      working ⟨h.h0, h.h1, h.h2, h.h3, h.h4, h.h5, h.h6, h.h7⟩ := rfl
  rw [hw, ← hs]
  rfl

end Libchef.Sha256Block
