import Libchef.HexDump
import Libchef.Md5Block

/-!
A digest taken in pieces.

However a message is cut, nothing is written outside the buffer of 64 bytes, and the digest is
that of the standard.
-/

namespace Libchef.Md5Run

open Libchef.StringsModel Libchef.Alloc Libchef.Numeral Libchef.Blocks Libchef.HexModel
open Libchef.Words Libchef.Md5Model Libchef.Md5Block

/-! ### The length -/

section AddCount

variable (s : State) (n : ℕ)

@[simp] lemma addCount_abcd : (addCount s n).abcd = s.abcd := rfl

@[simp] lemma addCount_buf : (addCount s n).buf = s.buf := rfl

lemma addCount_count : double (addCount s n).count1 (addCount s n).count0 =
    (double s.count1 s.count0 + 8 * n) % 2 ^ 64 := by
  -- the low word is compared with what is added to it
  have hcarry : (addCount s n).count1 = s.count1 + BitVec.ofNat 32 (n / 2 ^ 29) +
      carry s.count0 (BitVec.ofNat 32 (n * 8 % 2 ^ 64)) := by
    simp only [addCount, carry, add_lt_right_iff]
    split_ifs
    · rfl
    · exact (BitVec.add_zero _).symm
  have hbits : double (BitVec.ofNat 32 (n / 2 ^ 29)) (BitVec.ofNat 32 (n * 8 % 2 ^ 64)) =
      8 * n % 2 ^ 64 := by
    rw [double, BitVec.toNat_ofNat, BitVec.toNat_ofNat]
    omega
  rw [hcarry, show (addCount s n).count0 = s.count0 + BitVec.ofNat 32 (n * 8 % 2 ^ 64) from rfl,
    double_add, hbits, Nat.add_mod_mod]

end AddCount

/-! ### `md5_append` -/

/-- The bytes `m` went through the state. -/
structure Holds (s : State) (m : Str) : Prop where
  size : s.buf.length = 64
  bits : double s.count1 s.count0 = 8 * m.length % 2 ^ 64
  chain : absorb md5Process 64 ((md5Init []).abcd, []) m = (s.abcd, s.buf.take (m.length % 64))

lemma holds_init {memory : Str} (h : memory.length = 64) : Holds (md5Init memory) [] where
  size := h
  bits := by simp [double, md5Init]
  chain := rfl

lemma fullBlocks_spec (data : Str) (s : State) {p left : ℕ} (h : p + left ≤ data.length) :
    ∃ p' left' abcd, fullBlocks data p left s = some (p', left', { s with abcd := abcd }) ∧
      left' < 64 ∧ left' = left % 64 ∧ p' + left' = p + left ∧
      absorb md5Process 64 (s.abcd, []) (window data p left) =
        absorb md5Process 64 (abcd, []) (window data p' left') := by
  induction left using Nat.strong_induction_on generalizing p s with
  | _ left ih =>
    rw [fullBlocks]
    by_cases hge : 64 ≤ left
    · have hblock : (window data p 64).length = 64 := length_window (by omega)
      obtain ⟨p', left', abcd, hf, hlt, hmod, hsum, hab⟩ := ih (left - 64) (by omega)
        { s with abcd := md5Process s.abcd (window data p 64) } (p := p + 64) (by omega)
      refine ⟨p', left', abcd, ?_, hlt, by omega, by omega, ?_⟩
      · rw [if_pos hge, peek_eq (by omega), Option.bind_eq_bind, Option.bind_some, hf]
      · have hcut : window data p left = window data p 64 ++ window data (p + 64) (left - 64) := by
          rw [← window_add, Nat.add_sub_cancel' hge]
        rw [hcut, absorb_block _ _ (by omega) hblock, hab]
    · refine ⟨p, left, s.abcd, if_neg hge, by omega, by omega, rfl, rfl⟩

/-- From the full blocks on, with an empty buffer. -/
lemma appendBlocks_spec {s : State} (hs : s.buf.length = 64) (data : Str) (p left : ℕ)
    (h : p + left ≤ data.length) :
    ∃ abcd buf, appendBlocks data p left s = some { s with abcd := abcd, buf := buf } ∧
      buf.length = 64 ∧ absorb md5Process 64 (s.abcd, []) (window data p left) =
        (abcd, buf.take (left % 64)) := by
  obtain ⟨p', left', abcd, hf, hlt, hmod, hsum, hab⟩ := fullBlocks_spec data s h
  have hlen : (window data p' left').length = left' := length_window (by omega)
  rw [appendBlocks, hf, Option.bind_eq_bind, Option.bind_some, hab,
    absorb_short _ _ (by rw [hlen]; exact (Nat.zero_add _).trans_lt hlt), ← hmod]
  by_cases h0 : left' = 0
  · refine ⟨abcd, s.buf, by simp only [h0, ne_eq, not_true, if_false], hs, ?_⟩
    rw [h0, window_zero, List.take_zero]
    rfl
  · have hfit : 0 + (window data p' left').length ≤ s.buf.length := by omega
    refine ⟨abcd, splice s.buf 0 (window data p' left'), ?_, (length_splice hfit).trans hs, ?_⟩
    · simp only [ne_eq, h0, not_false_iff, if_true,
        peek_eq (show p' + left' ≤ data.length by omega), Option.bind_eq_bind, Option.bind_some,
        poke_eq hfit]
    · have htake := take_splice hfit
      rw [Nat.zero_add, hlen, List.take_zero] at htake
      rw [htake]

/-- **A piece more**, of any length. -/
lemma md5Append_spec {s : State} {m data : Str} (h : Holds s m) {n : ℕ} (hn : n ≤ data.length)
    (hlt : n < 2 ^ 63) :
    ∃ t, md5Append s data n = some t ∧ Holds t (m ++ data.take n) := by
  have hsize := h.size
  have hoff : (s.count0 >>> 3 &&& 63).toNat = m.length % 64 := bytes_in_block h.bits
  have hlen : (m ++ data.take n).length = m.length + n := by
    rw [List.length_append, List.length_take, Nat.min_eq_left hn]
  have hbits : double (addCount s n).count1 (addCount s n).count0 =
      8 * (m ++ data.take n).length % 2 ^ 64 := by
    rw [addCount_count, h.bits, hlen]
    omega
  have hbuf : (s.buf.take (m.length % 64)).length = m.length % 64 := by
    rw [List.length_take]
    omega
  have hwin : window data 0 n = data.take n := by rw [window, List.drop_zero]
  rw [md5Append, hoff]
  by_cases h0 : n = 0
  · refine ⟨s, if_pos h0, ?_⟩
    rwa [h0, List.take_zero, List.append_nil]
  simp only [if_neg h0]
  by_cases hz : m.length % 64 = 0
  · -- nothing is in the buffer
    obtain ⟨abcd, buf, ha, hl, hab⟩ := appendBlocks_spec (s := addCount s n) hsize data 0 n
      (by omega)
    refine ⟨_, (if_neg (by simpa using hz)).trans ha, hl, hbits, ?_⟩
    rw [hlen, absorb_append, h.chain, hz, List.take_zero, ← hwin, ← addCount_abcd s n, hab,
      show (m.length + n) % 64 = n % 64 by omega]
  have hcopy : (if (m.length % 64 + n) % 2 ^ 64 > 64 then 64 - m.length % 64 else n) =
      min n (64 - m.length % 64) := by
    rw [Nat.mod_eq_of_lt (by omega)]
    split_ifs <;> omega
  rw [if_pos hz, hcopy]
  by_cases hfill : m.length % 64 + n < 64
  · -- the block does not get full
    have hmin : min n (64 - m.length % 64) = n := Nat.min_eq_left (by omega)
    have hfit : m.length % 64 + (data.take n).length ≤ s.buf.length := by
      rw [List.length_take, Nat.min_eq_left hn]
      omega
    rw [hmin, peek_eq (by omega), hwin, Option.bind_eq_bind, Option.bind_some, addCount_buf,
      poke_eq hfit, Option.bind_some, if_pos hfill]
    refine ⟨_, rfl, (length_splice hfit).trans hsize, hbits, ?_⟩
    have htake := take_splice hfit
    rw [List.length_take, Nat.min_eq_left hn] at htake
    rw [absorb_append, h.chain, absorb_short _ _ (by rw [hbuf, List.length_take]; omega), hlen,
      show (m.length + n) % 64 = m.length % 64 + n by omega, htake]
    rfl
  · -- the block gets full, the rest goes on from there
    have hmin : min n (64 - m.length % 64) = 64 - m.length % 64 := Nat.min_eq_right (by omega)
    have hpre : (data.take (64 - m.length % 64)).length = 64 - m.length % 64 := by
      rw [List.length_take]
      omega
    have hfit : m.length % 64 + (data.take (64 - m.length % 64)).length ≤ s.buf.length := by
      rw [hpre]
      omega
    have htake := take_splice hfit
    rw [hpre, show m.length % 64 + (64 - m.length % 64) = 64 by omega, List.take_of_length_le
      (by rw [length_splice hfit, hsize])] at htake
    rw [hmin, peek_eq (by omega), window, List.drop_zero, Option.bind_eq_bind, Option.bind_some,
      addCount_buf, poke_eq hfit, Option.bind_some, if_neg (by omega)]
    obtain ⟨abcd, buf, ha, hl, hab⟩ := appendBlocks_spec
      (s := { addCount s n with
        abcd := md5Process s.abcd (splice s.buf (m.length % 64) (data.take (64 - m.length % 64))),
        buf := splice s.buf (m.length % 64) (data.take (64 - m.length % 64)) })
      ((length_splice hfit).trans hsize) data (64 - m.length % 64) (n - (64 - m.length % 64))
      (by omega)
    refine ⟨_, ha, hl, hbits, ?_⟩
    have hcut : data.take n = data.take (64 - m.length % 64) ++
        window data (64 - m.length % 64) (n - (64 - m.length % 64)) := by
      rw [← hwin, ← Nat.add_sub_cancel' (show 64 - m.length % 64 ≤ n by omega), window_add, window,
        List.drop_zero, Nat.zero_add, Nat.add_sub_cancel_left]
    have hfull : absorb md5Process 64 (s.abcd, s.buf.take (m.length % 64))
        (data.take (64 - m.length % 64)) =
        (md5Process s.abcd (splice s.buf (m.length % 64) (data.take (64 - m.length % 64))),
          []) := by
      have hsum : (s.buf.take (m.length % 64)).length +
          (data.take (64 - m.length % 64)).length = 64 := by omega
      rw [absorb_full _ _ (List.length_pos_iff.mp (by omega)) hsum, htake]
    rw [hlen, absorb_append, h.chain, hcut, absorb_append, hfull, hab,
      show (m.length + n) % 64 = (n - (64 - m.length % 64)) % 64 by omega]

lemma chunks_spec {s : State} {m : Str} (h : Holds s m) {chunks : List Str}
    (hc : ∀ c ∈ chunks, c.length < 2 ^ 63) :
    ∃ t, chunks.foldlM (fun s c => md5Append s c c.length) s = some t ∧
      Holds t (m ++ chunks.flatten) := by
  induction chunks generalizing s m with
  | nil => exact ⟨s, rfl, by simpa using h⟩
  | cons c chunks ih =>
    obtain ⟨t, ht, hh⟩ := md5Append_spec h (Nat.le_refl c.length) (hc c List.mem_cons_self)
    obtain ⟨u, hu, hhu⟩ := ih hh fun c hc' => hc c (List.mem_cons_of_mem _ hc')
    refine ⟨u, ?_, ?_⟩
    · rw [List.foldlM_cons, ht, Option.bind_eq_bind, Option.bind_some, hu]
    · rwa [List.take_length, List.append_assoc, ← List.flatten_cons] at hhu

/-! ### `md5_finish` -/

lemma length_bytes (s : State) :
    bytesOf s.count0 ++ bytesOf s.count1 = toLE 8 (double s.count1 s.count0) := by
  rw [← toLE_double, ← bytes_toLE, ← bytes_toLE]
  rfl

lemma padLength_eq {s : State} {m : Str} (h : Holds s m) :
    ((55#32 - s.count0 >>> 3 &&& 63#32) + 1#32).toNat = zeros 64 8 m.length + 1 := by
  have hb := h.bits
  unfold double at hb
  have h0 := s.count0.isLt
  have hand : (55#32 - s.count0 >>> 3 &&& 63#32).toNat = (55#32 - s.count0 >>> 3).toNat % 64 := by
    rw [BitVec.toNat_and, show (63#32).toNat = 2 ^ 6 - 1 from rfl, Nat.and_two_pow_sub_one_eq_mod]
  rw [BitVec.toNat_add, hand, BitVec.toNat_sub, BitVec.toNat_ushiftRight, Nat.shiftRight_eq_div_pow,
    show (55#32).toNat = 55 from rfl, show (1#32).toNat = 1 from rfl]
  unfold zeros
  omega

lemma take_pad {n : ℕ} (h : n < 64) : pad.take (n + 1) = 0x80 :: List.replicate n 0 := by
  rw [pad, List.take_succ_cons, List.take_replicate, Nat.min_eq_left (by omega)]

/-- **The end of a message**: the padding, its length, the digest. -/
lemma md5Finish_spec {s : State} {m : Str} (h : Holds s m) :
    ∃ t, md5Finish s = some (t, Md5Standard.digest m) := by
  have hz : zeros 64 8 m.length < 64 := Nat.mod_lt _ (by omega)
  have hlen : pad.length = 64 := rfl
  obtain ⟨t, ht, hht⟩ := md5Append_spec h (show zeros 64 8 m.length + 1 ≤ pad.length by omega)
    (by omega)
  have hdata : (bytesOf s.count0 ++ bytesOf s.count1).length = 8 := rfl
  obtain ⟨u, hu, hhu⟩ := md5Append_spec hht (Nat.le_of_eq hdata.symm) (by omega)
  have hpad : m ++ pad.take (zeros 64 8 m.length + 1) ++
      (bytesOf s.count0 ++ bytesOf s.count1).take 8 = Md5Standard.pad m := by
    rw [List.take_of_length_le (Nat.le_of_eq hdata), length_bytes, h.bits,
      show (2 : ℕ) ^ 64 = 256 ^ 8 from rfl, toLE_mod, take_pad hz, Md5Standard.pad, padding,
      List.append_assoc, List.cons_append]
  rw [hpad] at hhu
  have hchain := hhu.chain
  rw [absorb_eq_blocks _ (by omega)] at hchain
  have hstate : stateOf u.abcd = Md5Standard.hash m := by
    rw [← (Prod.mk.inj hchain).1, foldl_blocks fun c b hb => md5Process_eq hb c]
    rfl
  refine ⟨u, ?_⟩
  rw [md5Finish, padLength_eq h, ht, Option.bind_eq_bind, Option.bind_some, hu, Option.bind_some,
    Md5Standard.digest, ← hstate]
  exact congrArg (fun d => some (u, d)) (List.flatMap_congr fun w _ => bytes_toLE w)

/-! ### The functions -/

lemma hexPair_eq (c : UInt8) : hexPair c = hexField c := by
  have h : ∀ n < 256, hexPair (UInt8.ofNat n) = hexField (UInt8.ofNat n) := by decide +kernel
  have hc := h c.toNat c.toNat_lt
  rwa [UInt8.ofNat_toNat] at hc

lemma sum_digest {memory data : Str} (hm : memory.length = 64) {len : ℕ} (hl : len ≤ data.length)
    (hlt : len < 2 ^ 63) :
    sum memory data len = some ((Md5Standard.digest (data.take len)).flatMap hexField) := by
  obtain ⟨s, hs, hh⟩ := md5Append_spec (holds_init hm) hl hlt
  obtain ⟨t, ht⟩ := md5Finish_spec hh
  rw [sum, md5HashHex, md5HashString, hs, Option.bind_eq_bind, Option.bind_some, ht]
  exact congrArg some (List.flatMap_congr fun c _ => hexPair_eq c)

/-- **Any cutting** of a message: the buffer is never left, and the digest is that of the whole,
which `sum` gives in hex. -/
theorem md5_chunks {memory : Str} (hm : memory.length = 64) {chunks : List Str}
    (hc : chunks.flatten.length < 2 ^ 63) :
    (∃ s t, chunks.foldlM (fun s c => md5Append s c c.length) (md5Init memory) = some s ∧
      md5Finish s = some (t, Md5Standard.digest chunks.flatten)) ∧
    sumString memory chunks.flatten =
      some ((Md5Standard.digest chunks.flatten).flatMap hexField) := by
  have hlt : ∀ c ∈ chunks, c.length < 2 ^ 63 := fun c hm =>
    (List.sublist_flatten_of_mem hm).length_le.trans_lt hc
  obtain ⟨s, hs, hh⟩ := chunks_spec (holds_init hm) hlt
  obtain ⟨t, ht⟩ := md5Finish_spec hh
  refine ⟨⟨s, t, hs, by simpa using ht⟩, ?_⟩
  rw [sumString, sum_digest hm (Nat.le_refl _) hc, List.take_length]

theorem md5_chunks_abc :
    (∃ s t, ([[97, 98], [], [99]] : List Str).foldlM (fun s c => md5Append s c c.length)
        (md5Init (List.replicate 64 7)) = some s ∧
      md5Finish s = some (t, Md5Standard.digest [97, 98, 99])) ∧
    sumString (List.replicate 64 7) [97, 98, 99] =
      some ((Md5Standard.digest [97, 98, 99]).flatMap hexField) :=
  md5_chunks List.length_replicate
    (show ([[97, 98], [], [99]] : List Str).flatten.length < 2 ^ 63 by decide)

end Libchef.Md5Run
