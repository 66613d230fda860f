import Libchef.Base.Runs
import Libchef.Base.Words
import Libchef.Sha256Block

/-!
Calls on one `sha256` object, in any order.

The object takes in a message, has finished with one, or is corrupted. Whatever the calls are,
nothing is written outside the block, and a digest is that of the bits given since the last
reset.
-/

namespace Libchef.Sha256Run

open Libchef.StringsModel Libchef.Alloc Libchef.Numeral Libchef.Blocks Libchef.Runs
open Libchef.Words Libchef.Sha256Model Libchef.Sha256Block

/-! ### The block -/

/-- The bytes `m` went through the object. -/
structure Holds (s : Sha256) (m : Str) : Prop where
  size : s.messageBlock_.length = 64
  index : s.messageBlockIndex_ = m.length % 64
  chain : absorb compress 64 (initialHash, []) m =
    (s.intermediateHash_, s.messageBlock_.take s.messageBlockIndex_)

lemma Holds.index_lt {s : Sha256} {m : Str} (h : Holds s m) : s.messageBlockIndex_ < 64 := by
  rw [h.index]
  omega

/-- Bytes that fit go to the block one after the other. -/
lemma puts_spec {s : Sha256} (hs : s.messageBlock_.length = 64) {l : Str}
    (hl : s.messageBlockIndex_ + l.length ≤ 64) :
    ∃ block, l.foldlM Sha256.put s = some { s with
        messageBlock_ := block, messageBlockIndex_ := s.messageBlockIndex_ + l.length } ∧
      block.length = 64 ∧ block.take (s.messageBlockIndex_ + l.length) =
        s.messageBlock_.take s.messageBlockIndex_ ++ l := by
  induction l generalizing s with
  | nil => exact ⟨s.messageBlock_, rfl, hs, by simp⟩
  | cons c l ih =>
    rw [List.length_cons] at hl
    have hfit : s.messageBlockIndex_ + [c].length ≤ s.messageBlock_.length := by
      rw [hs, List.length_singleton]
      omega
    have hput : s.put c = some { s with
        messageBlock_ := splice s.messageBlock_ s.messageBlockIndex_ [c],
        messageBlockIndex_ := s.messageBlockIndex_ + 1 } := by
      rw [Sha256.put, poke_eq hfit]
      rfl
    have hlen := length_splice hfit
    have htake := take_splice hfit
    obtain ⟨block, h, hb, ht⟩ := ih (s := { s with
      messageBlock_ := splice s.messageBlock_ s.messageBlockIndex_ [c],
      messageBlockIndex_ := s.messageBlockIndex_ + 1 }) (hlen.trans hs) (by simp only; omega)
    have hadd : s.messageBlockIndex_ + 1 + l.length = s.messageBlockIndex_ + (l.length + 1) := by
      omega
    rw [List.foldlM_cons, hput]
    refine ⟨block, ?_, hb, ?_⟩
    · rw [Option.bind_eq_bind, Option.bind_some, h, List.length_cons, hadd]
    · rw [List.length_singleton] at htake
      rw [List.length_cons, ← hadd, ht, htake, List.append_assoc, List.singleton_append]

lemma put_spec {s : Sha256} {m : Str} (h : Holds s m) (c : UInt8) :
    ∃ block, s.put c = some { s with
        messageBlock_ := block, messageBlockIndex_ := s.messageBlockIndex_ + 1 } ∧
      block.length = 64 ∧ block.take (s.messageBlockIndex_ + 1) =
        s.messageBlock_.take s.messageBlockIndex_ ++ [c] := by
  have hlt := h.index_lt
  obtain ⟨block, hp, hb⟩ := puts_spec h.size (l := [c]) (by rw [List.length_singleton]; omega)
  exact ⟨block, by simpa [List.foldlM_cons] using hp, hb⟩

/-! ### The length -/

/-- The two words of the length. -/
def bitCount (s : Sha256) : ℕ := double s.lengthHigh_ s.lengthLow_

section AddLength

variable (s : Sha256) (k : Word)

@[simp] lemma addLength_computed : (s.addLength k).computed_ = s.computed_ := by
  rw [Sha256.addLength]; split_ifs <;> rfl

@[simp] lemma addLength_index : (s.addLength k).messageBlockIndex_ = s.messageBlockIndex_ := by
  rw [Sha256.addLength]; split_ifs <;> rfl

@[simp] lemma addLength_hash : (s.addLength k).intermediateHash_ = s.intermediateHash_ := by
  rw [Sha256.addLength]; split_ifs <;> rfl

@[simp] lemma addLength_block : (s.addLength k).messageBlock_ = s.messageBlock_ := by
  rw [Sha256.addLength]; split_ifs <;> rfl

/-- The bits are counted modulo `2 ^ 64`, and a count that wraps around corrupts the object. -/
lemma addLength_spec : bitCount (s.addLength k) = (bitCount s + k.toNat) % 2 ^ 64 ∧
    (s.addLength k).corrupted_ = decide (2 ^ 64 ≤ bitCount s + k.toNat) := by
  have hlo := s.lengthLow_.isLt
  have hhi := s.lengthHigh_.isLt
  have hk := k.isLt
  have hadd := BitVec.toNat_add s.lengthLow_ k
  have hsum := add_lt_iff s.lengthLow_ k
  have hsucc : (s.lengthHigh_ + 1).toNat = (s.lengthHigh_.toNat + 1) % 2 ^ 32 :=
    BitVec.toNat_add s.lengthHigh_ 1
  unfold bitCount double
  by_cases hc : s.lengthLow_ + k < s.lengthLow_
  · -- the low word wraps around, and perhaps the high word too
    have hc' := hsum.mp hc
    have hz : s.lengthHigh_ + 1 = 0 ↔ (s.lengthHigh_ + 1).toNat = 0 :=
      ⟨fun h => by rw [h]; rfl, fun h => BitVec.eq_of_toNat_eq h⟩
    rw [Sha256.addLength, if_pos hc]
    refine ⟨?_, decide_eq_decide.mpr ?_⟩
    · simp only
      omega
    · rw [hz, hsucc]
      omega
  · have hc' := mt hsum.mpr hc
    rw [Sha256.addLength, if_neg hc]
    refine ⟨?_, (decide_eq_false ?_).symm⟩
    · simp only
      omega
    · omega

end AddLength

/-! ### Taking in a message -/

structure Absorbing (s : Sha256) (m : Str) : Prop extends Holds s m where
  computed : s.computed_ = false
  corrupted : s.corrupted_ = false
  length_lt : m.length < 2 ^ 61
  bits : bitCount s = 8 * m.length

lemma absorbing_new {memory : Str} (h : memory.length = 64) : Absorbing (new memory) [] where
  size := h
  index := rfl
  chain := rfl
  computed := rfl
  corrupted := rfl
  length_lt := Nat.two_pow_pos 61
  bits := by simp [bitCount, double, new]

lemma absorbing_reset {s : Sha256} (h : s.messageBlock_.length = 64) : Absorbing s.reset [] :=
  absorbing_new h

/-- No message can be taken in any more. -/
structure Corrupted (s : Sha256) : Prop where
  size : s.messageBlock_.length = 64
  corrupted : s.corrupted_ = true

/-- What the byte makes of the block, with the block sent on when it is full. -/
lemma holds_push {s : Sha256} {m : Str} (h : Holds s m) {c : UInt8} {block : Str}
    (hb : block.length = 64) (ht : block.take (s.messageBlockIndex_ + 1) =
      s.messageBlock_.take s.messageBlockIndex_ ++ [c]) {t : Sha256}
    (hh : t.intermediateHash_ = s.intermediateHash_) (hi : t.messageBlockIndex_ =
      s.messageBlockIndex_ + 1) (hm : t.messageBlock_ = block) :
    Holds (if t.messageBlockIndex_ = 64 then t.processMessageBlock else t) (m ++ [c]) := by
  have hlt := h.index_lt
  have hindex := h.index
  have hlen : (s.messageBlock_.take s.messageBlockIndex_).length = s.messageBlockIndex_ := by
    rw [List.length_take, h.size]
    omega
  split_ifs with hfull
  · have h63 : s.messageBlockIndex_ + 1 = 64 := hi ▸ hfull
    refine ⟨hm ▸ hb, ?_, ?_⟩
    · rw [List.length_append, List.length_singleton]
      change 0 = _
      omega
    · have hp : push compress 64
          (s.intermediateHash_, s.messageBlock_.take s.messageBlockIndex_) c =
          (compress s.intermediateHash_ (s.messageBlock_.take s.messageBlockIndex_ ++ [c]), []) :=
        if_pos (by rw [hlen, h63])
      rw [h63, List.take_of_length_le (Nat.le_of_eq hb)] at ht
      rw [absorb_append, h.chain, absorb_cons, absorb_nil, hp, ← ht]
      simp only [Sha256.processMessageBlock, hh, hm, List.take_zero]
  · have h63 : s.messageBlockIndex_ + 1 ≠ 64 := hi ▸ hfull
    refine ⟨hm ▸ hb, ?_, ?_⟩
    · rw [hi, List.length_append, List.length_singleton]
      omega
    · have hp : push compress 64
          (s.intermediateHash_, s.messageBlock_.take s.messageBlockIndex_) c =
          (s.intermediateHash_, s.messageBlock_.take s.messageBlockIndex_ ++ [c]) :=
        if_neg (by rw [hlen]; exact h63)
      rw [absorb_append, h.chain, absorb_cons, absorb_nil, hp, hh, hi, hm, ht]

/-- One byte. -/
lemma inputByte_spec {s : Sha256} {m : Str} (h : Absorbing s m) (c : UInt8) :
    ∃ t, s.inputByte c = some t ∧
      (m.length + 1 < 2 ^ 61 → Absorbing t (m ++ [c])) ∧
      (2 ^ 61 ≤ m.length + 1 → Corrupted t) := by
  obtain ⟨block, hput, hb, ht⟩ := put_spec h.toHolds c
  generalize hu :
    ({ s with messageBlock_ := block,
              messageBlockIndex_ := s.messageBlockIndex_ + 1 } : Sha256) = u at hput
  have hbits : bitCount u = 8 * m.length := by
    rw [← hu]
    exact h.bits
  obtain ⟨hcount, hcorr⟩ := addLength_spec u 8
  rw [hbits, show (8 : Word).toNat = 8 from rfl] at hcount hcorr
  have hlen : (m ++ [c]).length = m.length + 1 := by simp
  rw [Sha256.inputByte, hput]
  refine ⟨_, rfl, fun hlt => ?_, fun hge => ?_⟩
  · have hnc : (u.addLength 8).corrupted_ = false := hcorr.trans (decide_eq_false (by omega))
    have hholds := holds_push h.toHolds hb ht (t := u.addLength 8) (by rw [addLength_hash, ← hu])
      (by rw [addLength_index, ← hu]) (by rw [addLength_block, ← hu])
    have hcomp : (u.addLength 8).computed_ = false := by
      rw [addLength_computed, ← hu]
      exact h.computed
    rw [Nat.mod_eq_of_lt (by omega), ← Nat.mul_succ, Nat.succ_eq_add_one, ← hlen] at hcount
    simp only [hnc, Bool.not_false, true_and, BLOCK_SIZE]
    by_cases hfull : (u.addLength 8).messageBlockIndex_ = 64
    · rw [if_pos hfull] at hholds ⊢
      exact ⟨hholds, hcomp, hnc, by rw [hlen]; exact hlt, hcount⟩
    · rw [if_neg hfull] at hholds ⊢
      exact ⟨hholds, hcomp, hnc, by rw [hlen]; exact hlt, hcount⟩
  · have hc : (u.addLength 8).corrupted_ = true := hcorr.trans (decide_eq_true (by omega))
    simp only [hc, Bool.not_true, Bool.false_eq_true, false_and, if_false]
    exact ⟨by rw [addLength_block, ← hu]; exact hb, hc⟩

/-- The state after a message, or after too long a message. -/
def Took (s : Sha256) (m : Str) : Prop :=
  (m.length < 2 ^ 61 → Absorbing s m) ∧ (2 ^ 61 ≤ m.length → Corrupted s)

lemma inputLoop_spec {s : Sha256} {m data : Str} (h : Took s m) {length : ℕ}
    (hl : length ≤ data.length) :
    ∃ t, Sha256.inputLoop length s data = some t ∧ Took t (m ++ data.take length) := by
  induction length generalizing s m data with
  | zero => exact ⟨s, rfl, by simpa using h⟩
  | succ length ih =>
    by_cases hm : m.length < 2 ^ 61
    · obtain ⟨c, data, rfl⟩ := List.exists_cons_of_length_pos (l := data) (by omega)
      have habs := h.1 hm
      obtain ⟨t, ht, hlow, hhigh⟩ := inputByte_spec habs c
      have hlen : (m ++ [c]).length = m.length + 1 := by simp
      obtain ⟨u, hu, htook⟩ := ih (s := t) (m := m ++ [c])
        ⟨by rwa [hlen], by rwa [hlen]⟩ (show length ≤ data.length by simpa using hl)
      refine ⟨u, ?_, by simpa using htook⟩
      rw [Sha256.inputLoop, if_neg (by rw [habs.corrupted]; exact Bool.false_ne_true)]
      simp only [ht, Option.bind_eq_bind, Option.bind_some, hu]
    · have hcor := h.2 (by omega)
      refine ⟨s, ?_, fun hlt => ?_, fun _ => hcor⟩
      · unfold Sha256.inputLoop
        exact if_pos hcor.corrupted
      · rw [List.length_append] at hlt
        omega

lemma input_spec {s : Sha256} {m data : Str} (h : Absorbing s m) {length : Word}
    (hl : length.toNat ≤ data.length) :
    ∃ t, s.input data length = some t ∧ Took t (m ++ data.take length.toNat) := by
  have hs : Took s m := ⟨fun _ => h, fun hge => absurd h.length_lt (by omega)⟩
  by_cases h0 : length = 0
  · refine ⟨s, if_pos (Or.inr (Or.inr h0)), ?_⟩
    rw [h0]
    simpa using hs
  · have hgo : ¬ (s.computed_ = true ∨ s.corrupted_ = true ∨ length = 0) := by
      rw [h.computed, h.corrupted]
      simpa using h0
    rw [Sha256.input, if_neg hgo]
    exact inputLoop_spec hs hl

/-! ### Finishing -/

lemma fillZeros_spec {s : Sha256} (hs : s.messageBlock_.length = 64) {limit : ℕ}
    (hi : s.messageBlockIndex_ ≤ limit) (hl : limit ≤ 64) :
    ∃ block,
      s.fillZeros limit = some { s with messageBlock_ := block, messageBlockIndex_ := limit } ∧
      block.length = 64 ∧ block.take limit = s.messageBlock_.take s.messageBlockIndex_ ++
        List.replicate (limit - s.messageBlockIndex_) 0 := by
  have hadd : s.messageBlockIndex_ + (limit - s.messageBlockIndex_) = limit := by omega
  have h := puts_spec hs (l := List.replicate (limit - s.messageBlockIndex_) 0)
    (by rw [List.length_replicate]; omega)
  rwa [List.length_replicate, hadd] at h

/-- What the last block is made of. -/
lemma closeBlock_spec {s : Sha256} (hs : s.messageBlock_.length = 64)
    (hi : s.messageBlockIndex_ ≤ 56) :
    ∃ t, s.closeBlock = some t ∧ t.messageBlock_.length = 64 ∧ t.messageBlockIndex_ = 0 ∧
      t.corrupted_ = s.corrupted_ ∧ t.intermediateHash_ = compress s.intermediateHash_
        (s.messageBlock_.take s.messageBlockIndex_ ++
          (List.replicate (56 - s.messageBlockIndex_) 0 ++ toBE 8 (bitCount s))) := by
  obtain ⟨block, hf, hb, ht⟩ := fillZeros_spec hs hi (by omega)
  have hfit : 56 + (toBE 8 (bitCount s)).length ≤ block.length := by rw [length_toBE, hb]
  have hlast : splice block 56 (toBE 8 (bitCount s)) = s.messageBlock_.take s.messageBlockIndex_ ++
      (List.replicate (56 - s.messageBlockIndex_) 0 ++ toBE 8 (bitCount s)) := by
    have htake := take_splice hfit
    rwa [length_toBE, ht, List.append_assoc,
      List.take_of_length_le (by rw [length_splice hfit, hb])] at htake
  have hpoke : poke block 56
      [Sha256.lowByte s.lengthHigh_ 24, Sha256.lowByte s.lengthHigh_ 16,
        Sha256.lowByte s.lengthHigh_ 8, Sha256.lowByte s.lengthHigh_ 0,
        Sha256.lowByte s.lengthLow_ 24, Sha256.lowByte s.lengthLow_ 16,
        Sha256.lowByte s.lengthLow_ 8, Sha256.lowByte s.lengthLow_ 0] =
      some (splice block 56 (toBE 8 (bitCount s))) := by
    rw [← poke_eq hfit, bitCount, ← toBE_double, ← bytes_toBE, ← bytes_toBE]
    rfl
  refine ⟨{ s with
    messageBlock_ := splice block 56 (toBE 8 (bitCount s)), messageBlockIndex_ := 56 }
    |>.processMessageBlock, ?_, ?_, rfl, rfl, ?_⟩
  · rw [Sha256.closeBlock, show BLOCK_SIZE - 8 = 56 from rfl, hf]
    simp only [Option.bind_eq_bind, Option.bind_some, hpoke]
  · exact (length_splice hfit).trans hb
  · simp only [Sha256.processMessageBlock, hlast]

/-- The hash of whole bytes, a mark and a length. -/
def hashOf (m : Str) (mark : UInt8) (len : ℕ) : Hash :=
  (blocks 64 (m ++ padding 64 8 mark 0 (fun _ => toBE 8 len) m.length)).foldl compress initialHash

lemma zeros_eq (n : ℕ) : zeros 64 8 n = if n % 64 < 56 then 55 - n % 64 else 119 - n % 64 := by
  unfold zeros
  split_ifs <;> omega

section Padding

variable (c : Hash) {buf len : Str} (mark : UInt8) {n : ℕ}

lemma absorb_padding_short (hn : buf.length = n % 64) (hb : buf.length < 56) (hl : len.length = 8) :
    absorb compress 64 (c, buf) (padding 64 8 mark 0 (fun _ => len) n) =
      (compress c (buf ++ [mark] ++ (List.replicate (56 - (buf.length + 1)) 0 ++ len)), []) := by
  have hz : zeros 64 8 n = 56 - (buf.length + 1) := by
    rw [zeros_eq, if_pos (by omega)]
    omega
  rw [padding, hz, absorb_full _ _ (by simp) ?_, List.append_assoc, List.singleton_append]
  simp only [List.length_cons, List.length_append, List.length_replicate, hl]
  omega

lemma absorb_padding_long (hn : buf.length = n % 64) (hb : 56 ≤ buf.length) (hl : len.length = 8) :
    absorb compress 64 (c, buf) (padding 64 8 mark 0 (fun _ => len) n) =
      (compress (compress c (buf ++ [mark] ++ List.replicate (64 - (buf.length + 1)) 0))
        (List.replicate 56 0 ++ len), []) := by
  have hz : zeros 64 8 n = (64 - (buf.length + 1)) + 56 := by
    rw [zeros_eq, if_neg (by omega)]
    omega
  have hfirst : absorb compress 64 (c, buf) (mark :: List.replicate (64 - (buf.length + 1)) 0) =
      (compress c (buf ++ mark :: List.replicate (64 - (buf.length + 1)) 0), []) := by
    refine absorb_full _ _ (by simp) ?_
    simp only [List.length_cons, List.length_replicate]
    omega
  rw [padding, hz, ← List.replicate_append_replicate, List.append_assoc, ← List.cons_append,
    absorb_append, hfirst, absorb_full _ _ (by simp) (by simp [hl]), List.append_assoc,
    List.singleton_append, List.nil_append]

end Padding

lemma padMessage_spec {s : Sha256} {m : Str} (h : Holds s m) (mark : UInt8) :
    ∃ t, s.padMessage mark = some t ∧ t.messageBlock_.length = 64 ∧ t.messageBlockIndex_ = 0 ∧
      t.corrupted_ = s.corrupted_ ∧ t.intermediateHash_ = hashOf m mark (bitCount s) := by
  have hlt := h.index_lt
  have hbuf : (s.messageBlock_.take s.messageBlockIndex_).length = s.messageBlockIndex_ := by
    rw [List.length_take, h.size]
    omega
  have hn := hbuf.trans h.index
  have hlen := length_toBE 8 (bitCount s)
  have hash : absorb compress 64 (s.intermediateHash_, s.messageBlock_.take s.messageBlockIndex_)
      (padding 64 8 mark 0 (fun _ => toBE 8 (bitCount s)) m.length) =
        (hashOf m mark (bitCount s), []) := by
    rw [← h.chain, ← absorb_append, absorb_eq_blocks _ (by omega), rest_nil (dvd_padded (by omega)
      (fun _ => hlen) m), hashOf]
  obtain ⟨block, hput, hb, ht⟩ := put_spec h mark
  by_cases hc : s.messageBlockIndex_ ≥ 56
  · -- the mark fits, the length does not: the block is filled with zeros, then another one
    have hgo : s.messageBlockIndex_ ≥ BLOCK_SIZE - 8 := hc
    obtain ⟨block', hf, hb', ht'⟩ := fillZeros_spec (s := { s with
      messageBlock_ := block, messageBlockIndex_ := s.messageBlockIndex_ + 1 }) hb hlt
      (Nat.le_refl 64)
    rw [List.take_of_length_le (Nat.le_of_eq hb')] at ht'
    simp only [ht] at ht'
    generalize hu : ({ s with messageBlock_ := block', messageBlockIndex_ := 64 } :
      Sha256).processMessageBlock = u
    have hu0 : u.messageBlockIndex_ = 0 := by rw [← hu]; rfl
    obtain ⟨t, hclose, hsize, hidx, hcor, hhash⟩ := closeBlock_spec (s := u)
      (by rw [← hu]; exact hb') (by rw [hu0]; exact Nat.zero_le 56)
    refine ⟨t, ?_, hsize, hidx, by rw [hcor, ← hu]; rfl, ?_⟩
    · rw [Sha256.padMessage, if_pos hgo, hput, Option.bind_eq_bind, Option.bind_some, BLOCK_SIZE,
        hf, Option.bind_some, hu, hclose]
    · have huh : u.intermediateHash_ = compress s.intermediateHash_ block' := by rw [← hu]; rfl
      have hub : bitCount u = bitCount s := by rw [← hu]; rfl
      rw [absorb_padding_long _ _ hn (by omega) hlen, hbuf, ← ht'] at hash
      rw [hhash, hu0, huh, hub, List.take_zero, List.nil_append, Nat.sub_zero,
        (Prod.mk.inj hash).1]
  · have hgo : ¬ s.messageBlockIndex_ ≥ BLOCK_SIZE - 8 := hc
    generalize hu : ({ s with
      messageBlock_ := block, messageBlockIndex_ := s.messageBlockIndex_ + 1 } : Sha256) = u at hput
    have hui : u.messageBlockIndex_ = s.messageBlockIndex_ + 1 := by rw [← hu]
    obtain ⟨t, hclose, hsize, hidx, hcor, hhash⟩ := closeBlock_spec (s := u)
      (by rw [← hu]; exact hb) (by rw [hui]; omega)
    refine ⟨t, ?_, hsize, hidx, by rw [hcor, ← hu], ?_⟩
    · rw [Sha256.padMessage, if_neg hgo, hput, Option.bind_eq_bind, Option.bind_some, hclose]
    · have huh : u.intermediateHash_ = s.intermediateHash_ := by rw [← hu]
      have hut : u.messageBlock_ = block := by rw [← hu]
      have hub : bitCount u = bitCount s := by rw [← hu]; rfl
      rw [absorb_padding_short _ _ hn (by omega) hlen, hbuf, ← ht] at hash
      rw [hhash, huh, hut, hub, hui, (Prod.mk.inj hash).1]

/-- A message has been finished with, its hash is `h`. -/
structure Finished (s : Sha256) (h : Hash) : Prop where
  size : s.messageBlock_.length = 64
  computed : s.computed_ = true
  corrupted : s.corrupted_ = false
  hash : s.intermediateHash_ = h

lemma finalize_spec {s : Sha256} {m : Str} (h : Holds s m) (hc : s.corrupted_ = false)
    (mark : UInt8) : ∃ t, s.finalize mark = some t ∧ Finished t (hashOf m mark (bitCount s)) := by
  obtain ⟨t, hp, hsize, -, hcor, hhash⟩ := padMessage_spec h mark
  have hfit : 0 + (List.replicate 64 (0 : UInt8)).length ≤ t.messageBlock_.length := by
    rw [List.length_replicate, hsize]
  refine ⟨{ t with
    messageBlock_ := splice t.messageBlock_ 0 (List.replicate 64 0), lengthLow_ := 0,
    lengthHigh_ := 0, computed_ := true }, ?_, ?_, rfl, hcor.trans hc, hhash⟩
  · rw [Sha256.finalize, hp]
    simp only [Option.bind_eq_bind, Option.bind_some, BLOCK_SIZE, poke_eq hfit]
  · exact (length_splice hfit).trans hsize

end Libchef.Sha256Run
