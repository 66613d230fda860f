import Libchef.HexDump
import Libchef.Sha1Block

/-!
A digest taken in pieces, and printed.

A piece is taken in without leaving the buffer as long as it and what is in the buffer are less
than `2 ^ 32` bytes. Printing the digest writes one byte more than the array has.
-/

namespace Libchef.Sha1Run

open Libchef.StringsModel Libchef.Alloc Libchef.Numeral Libchef.Blocks Libchef.HexModel
open Libchef.Words Libchef.Sha1Model Libchef.Sha1Block

/-! ### The length -/

section AddCount

variable (s : Context) (len : Word)

@[simp] lemma addCount_state : (addCount s len).state = s.state := rfl

@[simp] lemma addCount_buffer : (addCount s len).buffer = s.buffer := rfl

lemma addCount_count : double (addCount s len).count1 (addCount s len).count0 =
    (double s.count1 s.count0 + 8 * len.toNat) % 2 ^ 64 := by
  have hl := len.isLt
  have hcarry : (addCount s len).count1 = s.count1 + len >>> 29 + carry s.count0 (len <<< 3) := by
    simp only [addCount, carry]
    split_ifs
    · rw [BitVec.add_assoc, BitVec.add_comm 1, ← BitVec.add_assoc]
    · exact (BitVec.add_zero _).symm
  have hbits : double (len >>> 29) (len <<< 3) = 8 * len.toNat := by
    rw [double, BitVec.toNat_ushiftRight, Nat.shiftRight_eq_div_pow, BitVec.toNat_shiftLeft,
      Nat.shiftLeft_eq]
    omega
  rw [hcarry, show (addCount s len).count0 = s.count0 + len <<< 3 from rfl, double_add, hbits]

end AddCount

/-! ### `SHA1Update` -/

/-- The bytes `m` went through the context. -/
structure Holds (s : Context) (m : Str) : Prop where
  size : s.buffer.length = 64
  bits : double s.count1 s.count0 = 8 * m.length % 2 ^ 64
  chain : absorb SHA1Transform 64 ((SHA1Init []).state, []) m =
    (s.state, s.buffer.take (m.length % 64))

lemma holds_init {memory : Str} (h : memory.length = 64) : Holds (SHA1Init memory) [] where
  size := h
  bits := by simp [double, SHA1Init]
  chain := rfl

lemma Holds.buffered {s : Context} {m : Str} (h : Holds s m) :
    (s.count0 >>> 3 &&& 63#32).toNat = m.length % 64 := bytes_in_block h.bits

/-- The loop over the blocks ends before the end of the data, and leaves less than a block. -/
lemma transformLoop_spec {data : Str} {len : ℕ} (hlen : len ≤ data.length) (hlt : len < 2 ^ 32)
    {fuel i : ℕ} (hi : i ≤ len) (hfuel : (len - i) / 64 < fuel)
    (hwrap : ∀ k, i + 64 * k ≤ len → i + 64 * k + 63 < 2 ^ 32) (state : Regs) :
    ∃ i' state', transformLoop data len fuel i state = some (i', state') ∧ i' ≤ len ∧
      len - i' = (len - i) % 64 ∧ absorb SHA1Transform 64 (state, []) (window data i (len - i)) =
        absorb SHA1Transform 64 (state', []) (window data i' (len - i')) := by
  induction fuel generalizing i state with
  | zero => omega
  | succ fuel ih =>
    have h0 := hwrap 0 (by omega)
    rw [transformLoop, Nat.mod_eq_of_lt (by omega)]
    by_cases hge : i + 63 < len
    · have hblock : (window data i 64).length = 64 := length_window (by omega)
      obtain ⟨i', state', ht, hi', hmod, hab⟩ := ih (i := i + 64) (by omega) (by omega)
        (fun k hk => by have := hwrap (k + 1) (by omega); omega)
        (SHA1Transform state (window data i 64))
      refine ⟨i', state', ?_, hi', by omega, ?_⟩
      · rw [if_pos hge, peek_eq (by omega), Option.bind_eq_bind, Option.bind_some,
          Nat.mod_eq_of_lt (show i + 64 < 2 ^ 32 by omega), ht]
      · have hcut : window data i (len - i) =
            window data i 64 ++ window data (i + 64) (len - (i + 64)) := by
          rw [← window_add]
          congr 1
          omega
        rw [hcut, absorb_block _ _ (by omega) hblock, hab]
    · exact ⟨i, state, if_neg hge, hi, by omega, rfl⟩

section Update

variable {s : Context} {m : Str} (data : Str) (len : Word)

/-- **A piece more**, that does not wrap the 32-bit arithmetic around. -/
lemma SHA1Update_spec (h : Holds s m) (hlen : len.toNat ≤ data.length)
    (hlt : m.length % 64 + len.toNat < 2 ^ 32) :
    ∃ t, SHA1Update s data len = some t ∧ Holds t (m ++ data.take len.toNat) := by
  have hsize := h.size
  generalize hn : len.toNat = n at hlen hlt
  generalize hj : m.length % 64 = j at hlt
  have hj64 : j < 64 := by omega
  have htot : (m ++ data.take n).length = m.length + n := by
    rw [List.length_append, List.length_take, Nat.min_eq_left hlen]
  have hbits : double (addCount s len).count1 (addCount s len).count0 =
      8 * (m ++ data.take n).length % 2 ^ 64 := by
    rw [addCount_count, h.bits, htot, hn]
    omega
  have hbuf : (s.buffer.take j).length = j := by
    rw [List.length_take]
    omega
  have hchain := h.chain
  rw [hj] at hchain
  have hwin (k : ℕ) : window data 0 k = data.take k := by rw [window, List.drop_zero]
  rw [SHA1Update, h.buffered, hn, hj, Nat.mod_eq_of_lt hlt]
  by_cases hfill : j + n > 63
  · -- the buffer gets full, the rest goes on from there
    have hpre : (data.take (64 - j)).length = 64 - j := by
      rw [List.length_take]
      omega
    have hfit : j + (data.take (64 - j)).length ≤ s.buffer.length := by omega
    have htake := take_splice hfit
    rw [hpre, show j + (64 - j) = 64 by omega, List.take_of_length_le
      (by rw [length_splice hfit, hsize])] at htake
    have hfuel : (n - (64 - j)) / 64 < n / 64 + 1 :=
      Nat.lt_succ_of_le (Nat.div_le_div_right (Nat.sub_le _ _))
    obtain ⟨i, state, ht, hi, hmod, hab⟩ := transformLoop_spec hlen (by omega)
      (show 64 - j ≤ n by omega) hfuel (fun k hk => by omega)
      (SHA1Transform s.state (splice s.buffer j (data.take (64 - j))))
    have hlast : (window data i (n - i)).length = n - i := length_window (by omega)
    have hfit' : 0 + (window data i (n - i)).length ≤
        (splice s.buffer j (data.take (64 - j))).length := by
      rw [length_splice hfit]
      omega
    rw [if_pos hfill, peek_eq (by omega), hwin, Option.bind_eq_bind, Option.bind_some,
      addCount_buffer, poke_eq hfit, Option.bind_some, addCount_state]
    simp only [ht, Option.bind_eq_bind, Option.bind_some,
      peek_eq (show i + (n - i) ≤ data.length by omega), poke_eq hfit']
    refine ⟨_, rfl, ?_, hbits, ?_⟩
    · simp only [length_splice hfit', length_splice hfit, hsize]
    · have htake' := take_splice hfit'
      rw [Nat.zero_add, hlast, List.take_zero, List.nil_append] at htake'
      have hcut : data.take n = data.take (64 - j) ++ window data (64 - j) (n - (64 - j)) := by
        rw [← hwin, ← Nat.add_sub_cancel' (show 64 - j ≤ n by omega), window_add, hwin,
          Nat.zero_add, Nat.add_sub_cancel_left]
      have hpos : data.take (64 - j) ≠ [] := List.length_pos_iff.mp (by omega)
      have hsum : (s.buffer.take j).length + (data.take (64 - j)).length = 64 := by omega
      rw [htot, absorb_append, hchain, hcut, absorb_append,
        absorb_full _ _ hpos hsum, ← htake, hab,
        absorb_short _ _ (by rw [hlast, List.length_nil]; omega), List.nil_append,
        show (m.length + n) % 64 = n - i by omega, htake']
  · have hfit : j + (data.take n).length ≤ s.buffer.length := by
      rw [List.length_take]
      omega
    rw [if_neg hfill, peek_eq (by omega), hwin, Option.bind_eq_bind, Option.bind_some,
      addCount_buffer, poke_eq hfit, Option.bind_some]
    refine ⟨_, rfl, (length_splice hfit).trans hsize, hbits, ?_⟩
    have htake := take_splice hfit
    rw [List.length_take, Nat.min_eq_left hlen] at htake
    rw [htot, absorb_append, hchain, absorb_short _ _ (by rw [hbuf, List.length_take]; omega),
      show (m.length + n) % 64 = j + n by omega, htake]
    rfl

lemma SHA1Update_wrap (h : Holds s m) (hge : 2 ^ 32 ≤ m.length % 64 + len.toNat) :
    SHA1Update s data len = none := by
  have hl := len.isLt
  rw [SHA1Update, h.buffered]
  have hmod : ¬ (m.length % 64 + len.toNat) % 2 ^ 32 > 63 := by omega
  rw [if_neg hmod]
  by_cases hp : 0 + len.toNat ≤ data.length
  · have hlen : (window data 0 len.toNat).length = len.toNat := length_window hp
    have hout : poke s.buffer (m.length % 64) (window data 0 len.toNat) = none := by
      refine if_neg ?_
      rw [hlen, h.size]
      omega
    rw [peek_eq hp, Option.bind_eq_bind, Option.bind_some, addCount_buffer, hout]
    rfl
  · rw [peek, if_neg hp]
    rfl

end Update

/-- The pieces fit into the 32-bit arithmetic, `n` bytes having gone before. -/
def fits : ℕ → List Str → Bool
  | _, [] => true
  | n, c :: chunks => decide (n % 64 + c.length < 2 ^ 32) && fits (n + c.length) chunks

/-- The calls of `SHA1Update` with the pieces. -/
def updates (s : Context) (chunks : List Str) : Option Context :=
  chunks.foldlM (fun s c => SHA1Update s c (BitVec.ofNat 32 c.length)) s

lemma updates_cons (s : Context) (c : Str) (chunks : List Str) :
    updates s (c :: chunks) = (SHA1Update s c (BitVec.ofNat 32 c.length)).bind
      fun s => updates s chunks := List.foldlM_cons

section Updates

variable {s : Context} {m : Str} {chunks : List Str}

/-- Pieces that fit, one after the other. -/
lemma updates_spec (h : Holds s m) (hc : ∀ c ∈ chunks, c.length < 2 ^ 32)
    (hfit : fits m.length chunks = true) :
    ∃ t, updates s chunks = some t ∧ Holds t (m ++ chunks.flatten) := by
  induction chunks generalizing s m with
  | nil => exact ⟨s, rfl, by simpa using h⟩
  | cons c chunks ih =>
    have hlen : (BitVec.ofNat 32 c.length).toNat = c.length := by
      rw [BitVec.toNat_ofNat, Nat.mod_eq_of_lt (hc c List.mem_cons_self)]
    obtain ⟨hnow, hlater⟩ :
        m.length % 64 + c.length < 2 ^ 32 ∧ fits (m.length + c.length) chunks := by
      simpa [fits] using hfit
    obtain ⟨t, ht, hh⟩ := SHA1Update_spec c (BitVec.ofNat 32 c.length) h
      (by rw [hlen]) (by rwa [hlen])
    rw [hlen, List.take_length] at hh
    obtain ⟨u, hu, hhu⟩ := ih hh (fun c hm => hc c (List.mem_cons_of_mem _ hm))
      (by rwa [List.length_append])
    refine ⟨u, ?_, ?_⟩
    · rw [updates_cons, ht, Option.bind_some, hu]
    · rwa [List.append_assoc, ← List.flatten_cons] at hhu

lemma updates_wrap (h : Holds s m) (hc : ∀ c ∈ chunks, c.length < 2 ^ 32)
    (hfit : fits m.length chunks = false) : updates s chunks = none := by
  induction chunks generalizing s m with
  | nil => exact absurd hfit (by simp [fits])
  | cons c chunks ih =>
    have hlen : (BitVec.ofNat 32 c.length).toNat = c.length := by
      rw [BitVec.toNat_ofNat, Nat.mod_eq_of_lt (hc c List.mem_cons_self)]
    rw [updates_cons]
    by_cases hnow : m.length % 64 + c.length < 2 ^ 32
    · have hlater : fits (m.length + c.length) chunks = false := by
        rwa [fits, decide_eq_true hnow, Bool.true_and] at hfit
      obtain ⟨t, ht, hh⟩ := SHA1Update_spec c (BitVec.ofNat 32 c.length) h
        (by rw [hlen]) (by rwa [hlen])
      rw [hlen, List.take_length] at hh
      rw [ht, Option.bind_some, ih hh (fun c hm => hc c (List.mem_cons_of_mem _ hm))
        (by rwa [List.length_append])]
    · rw [SHA1Update_wrap c (BitVec.ofNat 32 c.length) h (by rw [hlen]; omega)]
      rfl

end Updates

/-! ### `SHA1Final` -/

lemma length_bytes (s : Context) :
    bytesOf s.count1 ++ bytesOf s.count0 = toBE 8 (double s.count1 s.count0) := by
  rw [← toBE_double, ← bytes_toBE, ← bytes_toBE]
  rfl

/-- The mask of `SHA1Final` selects the bits of the number of bytes in the buffer. -/
lemma and_504 (x : Word) : (x &&& 504#32).toNat = (x >>> 3 &&& 63#32).toNat * 2 ^ 3 := by
  refine Nat.eq_of_testBit_eq fun i => ?_
  rw [BitVec.toNat_and, BitVec.toNat_and, BitVec.toNat_ushiftRight,
    show (63#32).toNat = 2 ^ 6 - 1 from rfl, show (504#32).toNat = (2 ^ 6 - 1) * 2 ^ 3 from rfl,
    Nat.testBit_and, Nat.testBit_mul_two_pow, Nat.testBit_mul_two_pow, Nat.testBit_and,
    Nat.testBit_two_pow_sub_one, Nat.testBit_shiftRight]
  by_cases hi : 3 ≤ i
  · simp [hi]
  · simp [hi]

lemma Holds.padded_iff {s : Context} {m : Str} (h : Holds s m) :
    s.count0 &&& 504#32 = 448#32 ↔ m.length % 64 = 56 := by
  rw [← BitVec.toNat_inj, and_504, h.buffered, show (448#32).toNat = 56 * 2 ^ 3 from rfl]
  omega

/-- The loop appends the zeros of the padding. -/
lemma zeroLoop_spec {s : Context} {m : Str} (h : Holds s m) {fuel k : ℕ}
    (hk : (m.length + k) % 64 = 56) (hlt : k < 64) (hfuel : k < fuel) :
    ∃ t, zeroLoop fuel s = some t ∧ Holds t (m ++ List.replicate k 0) := by
  induction fuel generalizing s m k with
  | zero => omega
  | succ fuel ih =>
    rcases k with _ | k
    · refine ⟨s, if_neg (not_not.mpr (h.padded_iff.mpr hk)), ?_⟩
      rwa [List.replicate_zero, List.append_nil]
    · have hgo : s.count0 &&& 504#32 ≠ 448#32 := fun hc => by
        have := h.padded_iff.mp hc
        omega
      obtain ⟨t, ht, hh⟩ := SHA1Update_spec [0] 1 h (Nat.le_refl 1)
        (show m.length % 64 + 1 < 2 ^ 32 by omega)
      obtain ⟨u, hu, hhu⟩ := ih hh (k := k)
        (by rw [List.length_append]; change (m.length + 1 + k) % 64 = 56; omega)
        (by omega) (by omega)
      refine ⟨u, ?_, ?_⟩
      · rw [zeroLoop, if_pos hgo, ht, Option.bind_eq_bind, Option.bind_some, hu]
      · rwa [List.append_assoc] at hhu

/-- **The end of a message**: the padding, its length, the digest. -/
lemma SHA1Final_spec {s : Context} {m : Str} (h : Holds s m) :
    SHA1Final s = some (Sha1Standard.digest m) := by
  have hz : zeros 64 8 m.length < 64 := Nat.mod_lt _ (by omega)
  obtain ⟨t, ht, hht⟩ := SHA1Update_spec [0x80] 1 h (Nat.le_refl 1)
    (show m.length % 64 + 1 < 2 ^ 32 by omega)
  have hend : ((m ++ List.take 1 [0x80]).length + zeros 64 8 m.length) % 64 = 56 := by
    rw [List.length_append]
    change (m.length + 1 + zeros 64 8 m.length) % 64 = 56
    unfold zeros
    omega
  obtain ⟨u, hu, hhu⟩ := zeroLoop_spec hht hend hz hz
  have hdata : (bytesOf s.count1 ++ bytesOf s.count0).length = 8 := rfl
  obtain ⟨v, hv, hhv⟩ := SHA1Update_spec (bytesOf s.count1 ++ bytesOf s.count0) 8 hhu
    (Nat.le_of_eq hdata.symm)
    (Nat.lt_of_lt_of_le (Nat.add_lt_add_right (Nat.mod_lt _ (by omega)) 8) (by decide))
  have hpad : m ++ List.take 1 [0x80] ++ List.replicate (zeros 64 8 m.length) 0 ++
      (bytesOf s.count1 ++ bytesOf s.count0).take 8 = Sha1Standard.pad m := by
    rw [List.take_of_length_le (Nat.le_of_eq hdata), length_bytes, h.bits,
      show (2 : ℕ) ^ 64 = 256 ^ 8 from rfl, toBE_mod, Sha1Standard.pad, padding]
    simp only [List.append_assoc, List.take_succ_cons, List.take_nil, List.cons_append,
      List.nil_append]
  have hchain := hhv.chain
  rw [show (8 : Word).toNat = 8 from rfl, show (1 : Word).toNat = 1 from rfl, hpad,
    absorb_eq_blocks _ (by omega)] at hchain
  have hstate : stateOf v.state = Sha1Standard.hash m := by
    rw [← (Prod.mk.inj hchain).1, foldl_blocks fun c b hb => SHA1Transform_eq hb c]
    rfl
  rw [SHA1Final, ht, Option.bind_eq_bind, Option.bind_some, hu, Option.bind_some, hv,
    Option.bind_some, Sha1Standard.digest, ← hstate]
  exact congrArg some (List.flatMap_congr fun w _ => bytes_toBE w)

/-- **Any cutting** of a message into pieces a call can be given: the calls stay in the buffer
exactly if the pieces fit, and then the digest is that of the whole. -/
theorem sha1_chunks {memory : Str} (hm : memory.length = 64) {chunks : List Str}
    (hc : ∀ c ∈ chunks, c.length < 2 ^ 32) :
    (updates (SHA1Init memory) chunks).bind SHA1Final =
      if fits 0 chunks then some (Sha1Standard.digest chunks.flatten) else none := by
  by_cases hfit : fits 0 chunks = true
  · obtain ⟨t, ht, hh⟩ := updates_spec (holds_init hm) hc hfit
    rw [if_pos hfit, ht, Option.bind_some, SHA1Final_spec hh, List.nil_append]
  · rw [if_neg hfit, updates_wrap (holds_init hm) hc (Bool.eq_false_iff.mpr hfit)]
    rfl

theorem sha1_chunks_abc :
    (updates (SHA1Init (List.replicate 64 7)) [[97, 98], [], [99]]).bind SHA1Final =
      if fits 0 [[97, 98], [], [99]] then
        some (Sha1Standard.digest ([[97, 98], [], [99]] : List Str).flatten)
      else none :=
  sha1_chunks List.length_replicate
    (show ∀ c ∈ ([[97, 98], [], [99]] : List Str), c.length < 2 ^ 32 by decide)

/-! ### `crypto_sha1_op` -/

lemma length_hexField (b : UInt8) : (hexField b).length = 2 := by
  rw [HexDump.hexField_eq]
  rfl

lemma printLoop_eq (b : UInt8) (d stack : Str) (i : ℕ) :
    printLoop i (b :: d) stack = poke stack (i * 2) ((b :: d).flatMap hexField ++ [0]) := by
  induction d generalizing b i stack with
  | nil =>
    rw [printLoop, List.flatMap_singleton]
    exact Option.bind_fun_some _
  | cons b' d ih =>
    have hlen : (hexField b).length = 2 := length_hexField b
    have hidx : (i + 1) * 2 = i * 2 + (hexField b).length := by omega
    have hcut : (b :: b' :: d).flatMap hexField ++ [0] =
        hexField b ++ ((b' :: d).flatMap hexField ++ [0]) := by
      rw [List.flatMap_cons, List.append_assoc]
    rw [printLoop]
    simp only [ih, hidx]
    have hle : ([0] : Str).length ≤ ((b' :: d).flatMap hexField ++ [0]).length := by
      rw [List.length_append]
      exact Nat.le_add_left _ _
    exact (poke_poke stack (i * 2) (hexField b) hle).trans (by rw [hcut])

lemma length_hex (d : Str) : (d.flatMap hexField).length = 2 * d.length := by
  induction d with
  | nil => rfl
  | cons b d ih =>
    rw [List.flatMap_cons, List.length_append, ih, length_hexField, List.length_cons]
    omega

lemma length_digest (m : Str) : (Sha1Standard.digest m).length = 20 := by
  simp [Sha1Standard.digest]

lemma sum_digest {memory data : Str} (hm : memory.length = 64) {len : ℕ}
    (hl : len % 2 ^ 32 ≤ data.length) :
    sum memory data len = some (Sha1Standard.digest (data.take (len % 2 ^ 32))) := by
  have hlen : (BitVec.ofNat 32 len).toNat = len % 2 ^ 32 := BitVec.toNat_ofNat _ _
  obtain ⟨t, ht, hh⟩ := SHA1Update_spec data (BitVec.ofNat 32 len) (holds_init hm)
    (by rwa [hlen]) (by rw [hlen, List.length_nil]; omega)
  rw [hlen] at hh
  rw [sum, ht, Option.bind_eq_bind, Option.bind_some, SHA1Final_spec hh, List.nil_append]

/-- **The printed digest** is the right one, of the length modulo `2 ^ 32`. But a byte is written
after it, one past the end of the array. -/
theorem sumString_eq {memory : Str} (hm : memory.length = 64) (stack data : Str) :
    sumString memory stack data =
      let hex := (Sha1Standard.digest (data.take (data.length % 2 ^ 32))).flatMap hexField
      if 40 < stack.length then some (hex, splice stack 0 (hex ++ [0])) else none := by
  have hlen := length_digest (data.take (data.length % 2 ^ 32))
  rw [sumString, sumData, sum_digest hm (Nat.mod_le _ _), Option.bind_eq_bind, Option.bind_some]
  generalize Sha1Standard.digest (data.take (data.length % 2 ^ 32)) = d at hlen
  have hhex : (d.flatMap hexField).length = 40 := by rw [length_hex, hlen]
  have hout : (d.flatMap hexField ++ [0]).length = 41 := by rw [List.length_append, hhex]; rfl
  have hprint : printLoop 0 d stack = poke stack 0 (d.flatMap hexField ++ [0]) := by
    obtain ⟨b, d, rfl⟩ := List.exists_cons_of_length_pos (l := d) (by omega)
    exact printLoop_eq b d stack 0
  rw [hprint]
  by_cases hstack : 40 < stack.length
  · have hfit : 0 + (d.flatMap hexField ++ [0]).length ≤ stack.length := by omega
    have hread : window (splice stack 0 (d.flatMap hexField ++ [0])) 0 40 = d.flatMap hexField := by
      have h := window_splice hfit
      rw [hout] at h
      rw [window_take (show 40 ≤ 41 by omega), h, List.take_left' hhex]
    simp only [if_pos hstack, poke_eq hfit, Option.bind_some]
    rw [peek_eq (by rw [length_splice hfit]; omega), hread]
    rfl
  · have hnone : poke stack 0 (d.flatMap hexField ++ [0]) = none := if_neg (by omega)
    simp only [if_neg hstack, hnone]
    rfl

theorem sumString_eq_abc :
    sumString (List.replicate 64 7) (List.replicate 40 7) [97, 98, 99] = none := by
  rw [sumString_eq List.length_replicate]
  rfl

end Libchef.Sha1Run
