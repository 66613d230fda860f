import Libchef.Base.Words
import Libchef.Sha1Model
import Libchef.Sha1Standard

/-!
One block of a digest: `SHA1Transform`, which keeps sixteen words and writes over them, is the
loop of the standard over eighty words.
-/

namespace Libchef.Sha1Block

open Libchef.StringsModel Libchef.Sha1Model Libchef.Numeral Libchef.Blocks Libchef.Words

/-! ### The order of the bytes -/

section Swap

variable (a b c d : BitVec 8)

lemma toNat_bytes : (a ++ b ++ c ++ d : Word).toNat =
    a.toNat * 2 ^ 24 + b.toNat * 2 ^ 16 + c.toNat * 2 ^ 8 + d.toNat := by
  have hb := b.isLt
  have hc := c.isLt
  have hd := d.isLt
  simp only [BitVec.toNat_append, Nat.shiftLeft_eq]
  rw [or_eq_add hb, or_eq_add hc, or_eq_add hd]
  omega

lemma rol_24 : rol (d ++ c ++ b ++ a) 24 = (a ++ d ++ c ++ b : Word) := by
  have ha := a.isLt
  have hb := b.isLt
  have hc := c.isLt
  have hd := d.isLt
  refine BitVec.eq_of_toNat_eq ?_
  rw [rol, BitVec.toNat_or, BitVec.toNat_shiftLeft, BitVec.toNat_ushiftRight, Nat.shiftLeft_eq,
    Nat.shiftRight_eq_div_pow, toNat_bytes, toNat_bytes]
  rw [show (d.toNat * 2 ^ 24 + c.toNat * 2 ^ 16 + b.toNat * 2 ^ 8 + a.toNat) * 2 ^ 24 % 2 ^ 32 =
    a.toNat * 2 ^ 24 by omega, or_eq_add (by omega)]
  omega

lemma rol_8 : rol (d ++ c ++ b ++ a) 8 = (c ++ b ++ a ++ d : Word) := by
  have ha := a.isLt
  have hb := b.isLt
  have hc := c.isLt
  have hd := d.isLt
  refine BitVec.eq_of_toNat_eq ?_
  rw [rol, BitVec.toNat_or, BitVec.toNat_shiftLeft, BitVec.toNat_ushiftRight, Nat.shiftLeft_eq,
    Nat.shiftRight_eq_div_pow, toNat_bytes, toNat_bytes]
  rw [show (d.toNat * 2 ^ 24 + c.toNat * 2 ^ 16 + b.toNat * 2 ^ 8 + a.toNat) * 2 ^ 8 % 2 ^ 32 =
    (c.toNat * 2 ^ 16 + b.toNat * 2 ^ 8 + a.toNat) * 2 ^ 8 by omega, or_eq_add (by omega)]
  omega

lemma swap_eq : (rol (d ++ c ++ b ++ a) 24 &&& 0xFF00FF00 |||
    rol (d ++ c ++ b ++ a) 8 &&& 0x00FF00FF : Word) = a ++ b ++ c ++ d := by
  have h1 : (0xFF00FF00 : Word) = 0xFF#8 ++ 0x00#8 ++ 0xFF#8 ++ 0x00#8 := by decide
  have h2 : (0x00FF00FF : Word) = 0x00#8 ++ 0xFF#8 ++ 0x00#8 ++ 0xFF#8 := by decide
  have hff (x : BitVec 8) : x &&& 0xFF#8 = x := BitVec.and_allOnes
  have hodd : (a ++ d ++ c ++ b : Word) &&& 0xFF00FF00 = a ++ 0#8 ++ c ++ 0#8 := by
    rw [h1, BitVec.and_append, BitVec.and_append, BitVec.and_append, hff, hff, BitVec.and_zero,
      BitVec.and_zero]
  have heven : (c ++ b ++ a ++ d : Word) &&& 0x00FF00FF = 0#8 ++ b ++ 0#8 ++ d := by
    rw [h2, BitVec.and_append, BitVec.and_append, BitVec.and_append, hff, hff, BitVec.and_zero,
      BitVec.and_zero]
  rw [rol_24, rol_8, hodd, heven, BitVec.or_append, BitVec.or_append, BitVec.or_append,
    BitVec.or_zero, BitVec.or_zero, BitVec.zero_or, BitVec.zero_or]

end Swap

lemma ofBE_four (a b c d : UInt8) :
    (a.toBitVec ++ b.toBitVec ++ c.toBitVec ++ d.toBitVec : Word) =
      BitVec.ofNat 32 (ofBE [a, b, c, d]) := by
  have hlt : ofBE [a, b, c, d] < 2 ^ 32 := by simpa using ofBE_lt [a, b, c, d]
  refine BitVec.eq_of_toNat_eq ?_
  rw [toNat_bytes, BitVec.toNat_ofNat, Nat.mod_eq_of_lt hlt]
  simp only [ofBE, List.reverse_cons, List.reverse_nil, List.nil_append, List.cons_append,
    ofLE_cons, ofLE_nil, UInt8.toNat_toBitVec]
  omega

lemma swap_load {block : Str} {t : ℕ} (ht : 4 * t + 4 ≤ block.length) :
    (rol (load block t) 24 &&& 0xFF00FF00 ||| rol (load block t) 8 &&& 0x00FF00FF : Word) =
      BitVec.ofNat 32 (ofBE ((block.drop (t * 4)).take 4)) := by
  have hload : load block t = ((block.getD (4 * t + 3) 0).toBitVec ++
      (block.getD (4 * t + 2) 0).toBitVec ++ (block.getD (4 * t + 1) 0).toBitVec ++
      (block.getD (4 * t) 0).toBitVec : Word) :=
    (add_bytes _ _ _ _).trans (ofBE_four _ _ _ _).symm
  rw [hload, swap_eq, take_four 0 ht, ofBE_four]

/-! ### The table of steps -/

/-- The names in their order at the first step. -/
def names : Fin 5 → Reg
  | 0 => .a
  | 1 => .b
  | 2 => .c
  | 3 => .d
  | 4 => .e

lemma names_injective : Function.Injective names := by
  have h : ∀ i j, names i = names j → i = j := by decide
  exact fun i j => h i j

/-- The step `i`. -/
def row (i : ℕ) : Row :=
  ⟨turn names i 0, turn names i 1, turn names i 2, turn names i 3, turn names i 4, i⟩

lemma rows_eq : rows0 = (List.range' 0 16).map row ∧ rows1 = (List.range' 16 4).map row ∧
    rows2 = (List.range' 20 20).map row ∧ rows3 = (List.range' 40 20).map row ∧
    rows4 = (List.range' 60 20).map row := by
  decide

/-- The words of the standard after `i` steps. -/
def view (i : ℕ) (r : Regs) : Sha1Standard.State :=
  ⟨r.get (turn names i 0), r.get (turn names i 1), r.get (turn names i 2), r.get (turn names i 3),
    r.get (turn names i 4)⟩

lemma get_set (r : Regs) (w : Word) (n : Reg) : (r.set w n).get = Function.update r.get n w := by
  funext n'
  cases n <;> cases n' <;> rfl

lemma view_R {f : Word → Word → Word → Word} {next : List Word → ℕ → List Word} {k : Word}
    {M : List Word} {i : ℕ} (hf : f = Sha1Standard.f i) (hk : k = Sha1Standard.K i) (r : Regs)
    {l : List Word} (hl : item (next l i) (i % 16) = Sha1Standard.W M i) :
    view (i + 1) (R f next k (r, l) (row i)).1 = Sha1Standard.step M (view i r) i := by
  simp only [view, turn_succ, R, row, Sha1Standard.step, get_set, update_turn names_injective, rol,
    rotateLeft_eq _ (show 5 < 32 by omega), rotateLeft_eq _ (show 30 < 32 by omega), hl, hf, hk,
    Fin.reduceSub, Fin.reduceEq, if_true, if_false]
  congr 1
  ac_rfl

/-! ### The sixteen words -/

/-- Before step `i` the last sixteen words are in place, and those that are still to be read. -/
structure Sched (M : List Word) (block : Str) (i : ℕ) (l : List Word) : Prop where
  length : l.length = 16
  done : ∀ t < i, i ≤ t + 16 → item l (t % 16) = Sha1Standard.W M t
  todo : ∀ t, i ≤ t → t < 16 → item l t = load block t

lemma item_set_self {l : List Word} {i : ℕ} (h : i < l.length) (w : Word) :
    item (l.set i w) i = w := by
  simp [item, h]

lemma item_set_of_ne (l : List Word) {i j : ℕ} (h : i ≠ j) (w : Word) :
    item (l.set i w) j = item l j := by
  simp [item, List.getD_eq_getElem?_getD, List.getElem?_set_ne h]

lemma Sched.set {M : List Word} {block : Str} {i : ℕ} {l : List Word} (h : Sched M block i l) :
    Sched M block (i + 1) (l.set (i % 16) (Sha1Standard.W M i)) where
  length := by rw [List.length_set, h.length]
  done t ht hi := by
    rcases Nat.lt_succ_iff_lt_or_eq.mp ht with hlt | rfl
    · rw [item_set_of_ne _ (by omega), h.done t hlt (by omega)]
    · exact item_set_self (by rw [h.length]; omega) _
  todo t hi ht := by rw [item_set_of_ne _ (by omega), h.todo t (by omega) ht]

lemma words_getD {block : Str} (hb : block.length = 64) {t : ℕ} (ht : t < 16) :
    (Sha1Standard.words block).getD t 0 =
      BitVec.ofNat 32 (ofBE ((block.drop (t * 4)).take 4)) := by
  rw [Sha1Standard.words, blocks, hb, List.map_map]
  simp [ht]

lemma blk0_eq {block : Str} (hb : block.length = 64) {i : ℕ} (hi : i < 16) {l : List Word}
    (h : Sched (Sha1Standard.words block) block i l) :
    blk0 l i = l.set (i % 16) (Sha1Standard.W (Sha1Standard.words block) i) := by
  rw [blk0, h.todo i (Nat.le_refl i) hi, swap_load (by omega), ← words_getD hb hi,
    Nat.mod_eq_of_lt hi, Sha1Standard.W, if_pos hi]

lemma blk_eq {M : List Word} {block : Str} {i : ℕ} (hi : 16 ≤ i) {l : List Word}
    (h : Sched M block i l) : blk l i = l.set (i % 16) (Sha1Standard.W M i) := by
  have h3 := h.done (i - 3) (by omega) (by omega)
  have h8 := h.done (i - 8) (by omega) (by omega)
  have h14 := h.done (i - 14) (by omega) (by omega)
  have h16 := h.done (i - 16) (by omega) (by omega)
  have hW := Sha1Standard.W.eq_1 M i
  rw [if_neg (by omega)] at hW
  rw [blk, show (i + 13) % 16 = (i - 3) % 16 by omega, show (i + 8) % 16 = (i - 8) % 16 by omega,
    show (i + 2) % 16 = (i - 14) % 16 by omega, h3, h8, h14, hW]
  rw [show i % 16 = (i - 16) % 16 by omega, h16, rol, rotateLeft_eq _ (by omega)]

/-! ### The block -/

section Steps

variable {block : Str}

/-- The two programs after `i` steps. -/
def Agree (block : Str) (i : ℕ) (st : Regs × List Word) (v : Sha1Standard.State) : Prop :=
  view i st.1 = v ∧ Sched (Sha1Standard.words block) block i st.2

lemma agree_step {f : Word → Word → Word → Word} {next : List Word → ℕ → List Word} {k : Word}
    {i : ℕ} (hf : f = Sha1Standard.f i) (hk : k = Sha1Standard.K i)
    (hnext : ∀ l, Sched (Sha1Standard.words block) block i l →
      next l i = l.set (i % 16) (Sha1Standard.W (Sha1Standard.words block) i))
    {st : Regs × List Word} {v : Sha1Standard.State} (h : Agree block i st v) :
    Agree block (i + 1) (R f next k st (row i))
      (Sha1Standard.step (Sha1Standard.words block) v i) := by
  obtain ⟨r, l⟩ := st
  obtain ⟨rfl, hs⟩ := h
  have hl := hnext l hs
  refine ⟨view_R hf hk r ?_, ?_⟩
  · rw [hl]
    exact item_set_self (by rw [hs.length]; omega) _
  · change Sched _ block (i + 1) (next l i)
    rw [hl]
    exact hs.set

lemma agree_steps {F : Regs × List Word → Row → Regs × List Word} {i n : ℕ}
    (hstep : ∀ j, i ≤ j → j < i + n → ∀ st v, Agree block j st v →
      Agree block (j + 1) (F st (row j)) (Sha1Standard.step (Sha1Standard.words block) v j))
    {st : Regs × List Word} {v : Sha1Standard.State} (h : Agree block i st v) :
    Agree block (i + n) (((List.range' i n).map row).foldl F st)
      ((List.range' i n).foldl (Sha1Standard.step (Sha1Standard.words block)) v) := by
  induction n with
  | zero => exact h
  | succ n ih =>
    rw [List.range'_concat, List.map_append, List.foldl_append, List.foldl_append, Nat.one_mul,
      ← Nat.add_assoc]
    exact hstep (i + n) (by omega) (by omega) _ _ (ih fun j hj hlt => hstep j hj (by omega))

/-! #### The kinds of steps -/

lemma choice_eq : (fun w x y : Word => (w &&& (x ^^^ y)) ^^^ y) = Sha1Standard.Ch := by
  funext w x y
  ext i
  simp only [Sha1Standard.Ch, BitVec.getElem_xor, BitVec.getElem_and, BitVec.getElem_or,
    BitVec.getElem_not]
  cases w[i] <;> cases x[i] <;> cases y[i] <;> rfl

lemma majority_eq : (fun w x y : Word => ((w ||| x) &&& y) ||| (w &&& x)) = Sha1Standard.Maj := by
  funext w x y
  ext i
  simp only [Sha1Standard.Maj, BitVec.getElem_and, BitVec.getElem_or]
  cases w[i] <;> cases x[i] <;> cases y[i] <;> rfl

lemma K_eq : Sha1Standard.K 0 = 0x5A827999 ∧ Sha1Standard.K 20 = 0x6ED9EBA1 ∧
    Sha1Standard.K 40 = 0x8F1BBCDC ∧ Sha1Standard.K 60 = 0xCA62C1D6 := by
  decide +kernel

lemma K_const {t t' : ℕ} (h20 : t < 20 ↔ t' < 20) (h40 : t < 40 ↔ t' < 40)
    (h60 : t < 60 ↔ t' < 60) : Sha1Standard.K t = Sha1Standard.K t' := by
  simp only [Sha1Standard.K, h20, h40, h60]

variable {st : Regs × List Word} {v : Sha1Standard.State} {i : ℕ}

lemma agree_R0 (hb : block.length = 64) (hi : i < 16) (h : Agree block i st v) :
    Agree block (i + 1) (R0 st (row i)) (Sha1Standard.step (Sha1Standard.words block) v i) :=
  agree_step (choice_eq.trans (if_pos (by omega)).symm)
    (K_eq.1.symm.trans (K_const (by omega) (by omega) (by omega))) (fun _ hs => blk0_eq hb hi hs) h

lemma agree_R1 (hi : 16 ≤ i) (hlt : i < 20) (h : Agree block i st v) :
    Agree block (i + 1) (R1 st (row i)) (Sha1Standard.step (Sha1Standard.words block) v i) :=
  agree_step (choice_eq.trans (if_pos hlt).symm)
    (K_eq.1.symm.trans (K_const (by omega) (by omega) (by omega))) (fun _ hs => blk_eq hi hs) h

lemma agree_R2 (hi : 20 ≤ i) (hlt : i < 40) (h : Agree block i st v) :
    Agree block (i + 1) (R2 st (row i)) (Sha1Standard.step (Sha1Standard.words block) v i) := by
  refine agree_step ?_ (K_eq.2.1.symm.trans (K_const (by omega) (by omega) (by omega)))
    (fun _ hs => blk_eq (by omega) hs) h
  rw [Sha1Standard.f, if_neg (by omega), if_pos hlt]
  rfl

lemma agree_R3 (hi : 40 ≤ i) (hlt : i < 60) (h : Agree block i st v) :
    Agree block (i + 1) (R3 st (row i)) (Sha1Standard.step (Sha1Standard.words block) v i) := by
  refine agree_step ?_ (K_eq.2.2.1.symm.trans (K_const (by omega) (by omega) (by omega)))
    (fun _ hs => blk_eq (by omega) hs) h
  rw [Sha1Standard.f, if_neg (by omega), if_neg (by omega), if_pos hlt, majority_eq]

lemma agree_R4 (hi : 60 ≤ i) (h : Agree block i st v) :
    Agree block (i + 1) (R4 st (row i)) (Sha1Standard.step (Sha1Standard.words block) v i) := by
  refine agree_step ?_ (K_eq.2.2.2.symm.trans (K_const (by omega) (by omega) (by omega)))
    (fun _ hs => blk_eq (by omega) hs) h
  rw [Sha1Standard.f, if_neg (by omega), if_neg (by omega), if_neg (by omega)]
  rfl

end Steps

/-- `state` under the names of the standard. -/
def stateOf (r : Regs) : Sha1Standard.State := ⟨r.a, r.b, r.c, r.d, r.e⟩

lemma sched_zero (block : Str) :
    Sched (Sha1Standard.words block) block 0 ((List.range 16).map (load block)) where
  length := by simp
  done t ht := absurd ht (Nat.not_lt_zero t)
  todo t _ ht := by simp [item, ht]

/-- **One block**: the code's compression function is that of the standard. -/
theorem SHA1Transform_eq {block : Str} (hb : block.length = 64) (state : Regs) :
    stateOf (SHA1Transform state block) = Sha1Standard.compress (stateOf state) block := by
  obtain ⟨h0, h1, h2, h3, h4⟩ := rows_eq
  have hstart : Agree block 0 (state, (List.range 16).map (load block)) (stateOf state) :=
    ⟨rfl, sched_zero block⟩
  have a0 := agree_steps (n := 16) (fun j _ hj _ _ h => agree_R0 hb (by omega) h) hstart
  have a1 := agree_steps (n := 4) (fun j hi hj _ _ h => agree_R1 (by omega) (by omega) h) a0
  have a2 := agree_steps (n := 20) (fun j hi hj _ _ h => agree_R2 (by omega) (by omega) h) a1
  have a3 := agree_steps (n := 20) (fun j hi hj _ _ h => agree_R3 (by omega) (by omega) h) a2
  have a4 := agree_steps (n := 20) (fun j hi hj _ _ h => agree_R4 (by omega) h) a3
  simp only [Nat.zero_add, Nat.reduceAdd, ← h0, ← h1, ← h2, ← h3, ← h4] at a4
  have hcut : List.range 80 = List.range' 0 16 ++ (List.range' 16 4 ++ (List.range' 20 20 ++
      (List.range' 40 20 ++ List.range' 60 20))) := rfl
  have hview (r : Regs) : view 80 r = stateOf r := rfl
  generalize hst : rows4.foldl R4 (rows3.foldl R3 (rows2.foldl R2 (rows1.foldl R1 (rows0.foldl R0
    (state, (List.range 16).map (load block)))))) = st at a4
  rw [Sha1Standard.compress, hcut, List.foldl_append, List.foldl_append, List.foldl_append,
    List.foldl_append, ← a4.1, hview, SHA1Transform]
  simp only [hst, stateOf]

end Libchef.Sha1Block
