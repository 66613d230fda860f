import Libchef.HexDump
import Libchef.Sha256Run

/-!
What the digests are: for any calls on an object, and for the functions of `crypto_sha256_op`.
-/

namespace Libchef.Sha256Digest

open Libchef.StringsModel Libchef.Alloc Libchef.Numeral Libchef.Blocks Libchef.Runs
open Libchef.HexModel
open Libchef.Sha256Model Libchef.Sha256Block Libchef.Sha256Run

/-! ### The padding in bits -/

lemma bits_zeros (n : ℕ) : bytesToBits (List.replicate n 0) = List.replicate (8 * n) false := by
  induction n with
  | zero => rfl
  | succ n ih =>
    rw [List.replicate_succ', bytesToBits_concat, ih, Nat.mul_succ,
      ← List.replicate_append_replicate]
    rfl

lemma mask_bits : ∀ l < 8, ∀ i < 8,
    (Sha256.masks.getD l 0).toNat.testBit (7 - i) = decide (i < l) ∧
      (Sha256.markbit.getD l 0).toNat.testBit (7 - i) = decide (i = l) := by
  decide

/-- The byte with the mark: the last bits of the message, a one, zeros. -/
lemma marked_byte (b : UInt8) {l : ℕ} (hl : l < 8) :
    toBits 8 ((b &&& Sha256.masks.getD l 0) ||| Sha256.markbit.getD l 0).toNat =
      (toBits 8 b.toNat).take l ++ true :: List.replicate (7 - l) false := by
  refine List.ext_getElem (by simp; omega) fun i hi _ => ?_
  obtain ⟨hmask, hmark⟩ := mask_bits l hl i (by simpa using hi)
  simp only [toBits, List.getElem_map, List.getElem_range, UInt8.toNat_or, UInt8.toNat_and,
    Nat.testBit_or, Nat.testBit_and, Nat.reduceSub, hmask, hmark]
  rcases lt_trichotomy i l with h | rfl | h
  · rw [List.getElem_append_left (by simp; omega)]
    simp [h, h.ne]
  · rw [List.getElem_append_right (by simp)]
    simp [Nat.min_eq_left hl.le]
  · rw [List.getElem_append_right (by simp; omega)]
    simp [h.not_gt, h.ne', List.getElem_cons]
    omega

lemma pad_eq (m : Str) (b : UInt8) {l : ℕ} (hl : l < 8) :
    Sha256Standard.pad (bytesToBits m ++ (toBits 8 b.toNat).take l) =
      bytesToBits (m ++ padding 64 8 ((b &&& Sha256.masks.getD l 0) ||| Sha256.markbit.getD l 0) 0
        (fun _ => toBE 8 (8 * m.length + l)) m.length) := by
  have hlen : (bytesToBits m ++ (toBits 8 b.toNat).take l).length = 8 * m.length + l := by
    rw [List.length_append, length_bytesToBits, List.length_take, length_toBits]
    omega
  have hz : zeros 512 64 (8 * m.length + l) = 7 - l + 8 * zeros 64 8 m.length := by
    unfold zeros
    omega
  have hcons (x : UInt8) (r : Str) : bytesToBits (x :: r) = toBits 8 x.toNat ++ bytesToBits r := rfl
  rw [Sha256Standard.pad, hlen, padding, padding, hz, bytesToBits_append, hcons, marked_byte b hl,
    bytesToBits_append, bits_zeros, bytesToBits_toBE, ← List.replicate_append_replicate]
  simp only [List.append_assoc, List.cons_append]

/-- **The hash** of whole bytes and some bits more is the one of the standard. -/
theorem hashOf_eq (m : Str) (b : UInt8) {l : ℕ} (hl : l < 8) :
    (hashOf m ((b &&& Sha256.masks.getD l 0) ||| Sha256.markbit.getD l 0)
      (8 * m.length + l)).toList =
      Sha256Standard.hash (bytesToBits m ++ (toBits 8 b.toNat).take l) := by
  have hlen (b : UInt8) : (toBits 8 b.toNat).length = 8 := length_toBits 8 b.toNat
  have hcut (x : Str) : blocks 512 (bytesToBits x) = (blocks 64 x).map bytesToBits :=
    blocks_flatMap (B := 64) (by omega) (by omega) hlen x
  have hfold (x : Str) (h : Hash) : ((blocks 64 x).foldl compress h).toList =
      ((blocks 64 x).map bytesToBits).foldl Sha256Standard.compress h.toList := by
    rw [List.foldl_map]
    exact foldl_blocks (fun h b hb => compress_eq hb h) x h
  rw [hashOf, hfold, Sha256Standard.hash, pad_eq m b hl, hcut, initialHash_eq]

lemma hashOf_bytes (m : Str) :
    (hashOf m 0x80 (8 * m.length)).toList = Sha256Standard.hash (bytesToBits m) := by
  have h := hashOf_eq m 0 (l := 0) (by omega)
  rwa [List.take_zero, List.append_nil] at h

lemma digest_eq {h : Hash} {M : List Bool} (hM : h.toList = Sha256Standard.hash M) :
    (h.toList.flatMap fun w =>
      [Sha256.lowByte w 24, Sha256.lowByte w 16, Sha256.lowByte w 8, Sha256.lowByte w 0]) =
      Sha256Standard.digest M := by
  rw [hM, Sha256Standard.digest]
  exact List.flatMap_congr fun w _ => Words.bytes_toBE w

/-! ### Calls in any order -/

/-- What an object stands for: the bytes so far, a whole message, or nothing any more. -/
inductive View
  | absorbing (m : Str)
  | finished (M : List Bool)
  | corrupted

/-- A call. `result` is given the buffer of its caller. -/
inductive Call
  | input (messageArray : Str) (length : Word)
  | finalBits (messageBits : UInt8) (length : Word)
  | result (digest : Str)
  | reset

/-- The caller has as many bytes as it says, and room for the digest. -/
def Call.Valid : Call → Prop
  | .input messageArray length => length.toNat ≤ messageArray.length
  | .result digest => digest.length = 32
  | _ => True

/-- The object, and the buffers after the calls of `result` so far. -/
def next : Sha256 × List Str → Call → Option (Sha256 × List Str)
  | (s, out), .input messageArray length => do
    let s ← s.input messageArray length
    some (s, out)
  | (s, out), .finalBits messageBits length => do
    let s ← s.finalBits messageBits length
    some (s, out)
  | (s, out), .result digest => do
    let (s, digest) ← s.result digest
    some (s, out ++ [digest])
  | (s, out), .reset => some (s.reset, out)

namespace View

/-- A message is taken in as long as its bits can be counted. -/
def took (m : Str) : View := if m.length < 2 ^ 61 then .absorbing m else .corrupted

def input (a : Str) : View → View
  | .absorbing m => took (m ++ a)
  | v => v

def finalBits (b : UInt8) (length : ℕ) (v : View) : View :=
  if length = 0 then v
  else
    match v with
    | .absorbing m =>
      if length < 8 then .finished (bytesToBits m ++ (toBits 8 b.toNat).take length) else .corrupted
    | _ => .corrupted

def result : View → View
  | .absorbing m => .finished (bytesToBits m)
  | v => v

/-- What a buffer holds after `result`. -/
def digest (before : Str) : View → Str
  | .absorbing m => Sha256Standard.digest (bytesToBits m)
  | .finished M => Sha256Standard.digest M
  | .corrupted => before

/-- The calls in terms of messages. -/
def next (st : View × List Str) : Call → View × List Str
  | .input messageArray length => (st.1.input (messageArray.take length.toNat), st.2)
  | .finalBits messageBits length => (st.1.finalBits messageBits length.toNat, st.2)
  | .result digest => (st.1.result, st.2 ++ [st.1.digest digest])
  | .reset => (.absorbing [], st.2)

end View

def Represents (s : Sha256) : View → Prop
  | .absorbing m => Absorbing s m
  | .finished M => ∃ h, Finished s h ∧ h.toList = Sha256Standard.hash M
  | .corrupted => Corrupted s

lemma represents_took {s : Sha256} {m : Str} (h : Took s m) : Represents s (View.took m) := by
  rw [View.took]
  split_ifs with hm
  · exact h.1 hm
  · exact h.2 (Nat.le_of_not_lt hm)

lemma size_of_represents {s : Sha256} {v : View} (h : Represents s v) :
    s.messageBlock_.length = 64 := by
  rcases v with m | M | _
  · exact h.size
  · obtain ⟨_, hf, -⟩ := h
    exact hf.size
  · exact h.size

lemma input_view {s : Sha256} {v : View} (h : Represents s v) {a : Str} {length : Word}
    (hl : length.toNat ≤ a.length) :
    ∃ t, s.input a length = some t ∧ Represents t (v.input (a.take length.toNat)) := by
  rcases v with m | M | _
  · obtain ⟨t, ht, htook⟩ := input_spec h hl
    exact ⟨t, ht, represents_took htook⟩
  · obtain ⟨_, hf, -⟩ := id h
    exact ⟨s, if_pos (Or.inl hf.computed), h⟩
  · exact ⟨s, if_pos (Or.inr (Or.inl h.corrupted)), h⟩

lemma poke_digest {digest : Str} (hd : digest.length = 32) {h : Hash} {M : List Bool}
    (hM : h.toList = Sha256Standard.hash M) :
    poke digest 0 (h.toList.flatMap fun w =>
      [Sha256.lowByte w 24, Sha256.lowByte w 16, Sha256.lowByte w 8, Sha256.lowByte w 0]) =
      some (Sha256Standard.digest M) := by
  rw [digest_eq hM, poke_all (by rw [Sha256Standard.length_digest, hd])]

lemma View.length_digest {v : View} {before : Str} (h : before.length = 32) :
    (v.digest before).length = 32 := by
  rcases v with m | M | _
  · exact Sha256Standard.length_digest _
  · exact Sha256Standard.length_digest _
  · exact h

lemma result_view {s : Sha256} {v : View} (h : Represents s v) {digest : Str}
    (hd : digest.length = 32) :
    ∃ t, s.result digest = some (t, v.digest digest) ∧ Represents t v.result := by
  rcases v with m | M | _
  · obtain ⟨t, ht, hf⟩ := finalize_spec h.toHolds h.corrupted 0x80
    rw [h.bits] at hf
    refine ⟨t, ?_, _, hf, hashOf_bytes m⟩
    rw [Sha256.result, h.corrupted, h.computed, ht]
    simp only [Bool.false_eq_true, if_false, Option.bind_eq_bind, Option.bind_some, hf.hash,
      poke_digest hd (hashOf_bytes m), View.digest]
  · obtain ⟨g, hf, hM⟩ := id h
    refine ⟨s, ?_, h⟩
    rw [Sha256.result, hf.corrupted, hf.computed]
    simp only [Bool.false_eq_true, if_false, if_true, Option.bind_eq_bind, Option.bind_some,
      hf.hash, poke_digest hd hM, View.digest]
  · exact ⟨s, if_pos h.corrupted, h⟩

section Functions

variable {memory digest data : Str}

lemma input_result (hm : memory.length = 64) (hd : digest.length = 32) {len : ℕ}
    (hl : len % 2 ^ 32 ≤ data.length) :
    ∃ s t, (new memory).input data (BitVec.ofNat 32 len) = some s ∧ s.result digest =
      some (t, Sha256Standard.digest (bytesToBits (data.take (len % 2 ^ 32)))) := by
  have hlen : (BitVec.ofNat 32 len).toNat = len % 2 ^ 32 := BitVec.toNat_ofNat len 32
  have hnew : Represents (new memory) (.absorbing []) := absorbing_new hm
  obtain ⟨s, hs, hr⟩ := input_view hnew
    (show (BitVec.ofNat 32 len).toNat ≤ data.length by rw [hlen]; exact hl)
  obtain ⟨t, ht, -⟩ := result_view hr hd
  have hmod := Nat.mod_lt len (Nat.two_pow_pos 32)
  have hlt : ([] ++ data.take (len % 2 ^ 32)).length < 2 ^ 61 := by
    rw [List.nil_append, List.length_take]
    omega
  rw [hlen, View.input, View.took, if_pos hlt] at ht
  exact ⟨s, t, hs, ht⟩

lemma printDigest_digest (M : List Bool) :
    printDigest (Sha256Standard.digest M) = some ((Sha256Standard.digest M).flatMap hexField) := by
  have hpeek : peek (Sha256Standard.digest M) 0 HASH_SIZE = some (Sha256Standard.digest M) :=
    peek_all (Sha256Standard.length_digest M)
  rw [printDigest, hpeek]
  rfl

lemma sumString_digest (hm : memory.length = 64) (hd : digest.length = 32) (s : Str) :
    sumString memory digest s = some ((Sha256Standard.digest
      (bytesToBits (s.take (s.length % 2 ^ 32)))).flatMap hexField) := by
  obtain ⟨o, t, ho, ht⟩ := input_result hm hd (Nat.mod_le s.length _)
  rw [sumString, hashHex, ho, Option.bind_eq_bind, Option.bind_some, ht]
  exact printDigest_digest _

/-- **The functions** give the digest of as many bytes as an `unsigned int` can count: from four
gigabytes on only a part of the data counts. -/
theorem sums_eq (hm : memory.length = 64) (hd : digest.length = 32) {len : ℕ}
    (hl : len % 2 ^ 32 ≤ data.length) :
    sum memory data len digest =
        some (Sha256Standard.digest (bytesToBits (data.take (len % 2 ^ 32)))) ∧
      sumData memory digest data len = some ((Sha256Standard.digest
        (bytesToBits (data.take (len % 2 ^ 32)))).flatMap hexField) ∧
      sumString memory digest data = some ((Sha256Standard.digest
        (bytesToBits (data.take (data.length % 2 ^ 32)))).flatMap hexField) := by
  obtain ⟨s, t, hs, ht⟩ := input_result hm hd hl
  refine ⟨?_, ?_, sumString_digest hm hd data⟩
  · rw [sum, hs, Option.bind_eq_bind, Option.bind_some, ht]
    rfl
  · rw [sumData, hs, Option.bind_eq_bind, Option.bind_some, ht]
    exact printDigest_digest _

theorem sums_eq_abc :
    sum (List.replicate 64 7) [97, 98, 99] 2 (List.replicate 32 7) =
        some (Sha256Standard.digest (bytesToBits [97, 98])) ∧
      sumData (List.replicate 64 7) (List.replicate 32 7) [97, 98, 99] 2 =
        some ((Sha256Standard.digest (bytesToBits [97, 98])).flatMap hexField) ∧
      sumString (List.replicate 64 7) (List.replicate 32 7) [97, 98, 99] =
        some ((Sha256Standard.digest (bytesToBits [97, 98, 99])).flatMap hexField) :=
  sums_eq List.length_replicate List.length_replicate
    (show 2 % 2 ^ 32 ≤ ([97, 98, 99] : Str).length by decide)

end Functions

/-! ### Collisions -/

/-- The blocks a string is made into. -/
def paddedBlocks (s : Str) : List Str :=
  blocks 64 (s ++ padding 64 8 0x80 0 (fun n => toBE 8 (8 * n)) s.length)

lemma toBE_word_injective : Function.Injective fun w : Word => toBE 4 w.toNat := by
  intro w w' h
  have hlt := w.isLt
  have hlt' := w'.isLt
  have hw := toBE_inj h
  rw [Nat.mod_eq_of_lt (by omega), Nat.mod_eq_of_lt (by omega)] at hw
  exact BitVec.eq_of_toNat_eq hw

lemma toList_injective : Function.Injective Hash.toList := by
  rintro ⟨⟩ ⟨⟩ h
  simpa [Hash.toList] using h

/-- **Collisions**: two strings with one digest lead to two different inputs of the compression
function with one value, among those that are met on the way. -/
theorem sumString_collide {memory digest s s' : Str} (hm : memory.length = 64)
    (hd : digest.length = 32) (hs : s.length < 2 ^ 32) (hs' : s'.length < 2 ^ 32) :
    sumString memory digest s ≠ sumString memory digest s' ∨ s = s' ∨
      Collide compress (inputs compress initialHash (paddedBlocks s))
        (inputs compress initialHash (paddedBlocks s')) := by
  by_contra hcon
  obtain ⟨h, hne, hcol⟩ := by simpa only [not_or, ne_eq, not_not] using hcon
  rw [sumString_digest hm hd, sumString_digest hm hd, Nat.mod_eq_of_lt hs, Nat.mod_eq_of_lt hs',
    List.take_length, List.take_length] at h
  have hdig := congrArg HexDump.hexGroups (Option.some.inj h)
  rw [HexDump.hexGroups_flatMap, HexDump.hexGroups_flatMap] at hdig
  have hash := flatMap_injective (by omega) (fun w => length_toBE 4 _) toBE_word_injective hdig
  rw [← hashOf_bytes, ← hashOf_bytes] at hash
  have heq := toList_injective hash
  refine hcol (padded_collide (L := 8) (by omega) (by omega) (fun n => length_toBE 8 _) ?_ hne heq)
  intro he
  have := toBE_inj he
  omega

theorem sumString_collide_ab :
    sumString (List.replicate 64 7) (List.replicate 32 7) [97] ≠
        sumString (List.replicate 64 7) (List.replicate 32 7) [98] ∨ ([97] : Str) = [98] ∨
      Collide compress (inputs compress initialHash (paddedBlocks [97]))
        (inputs compress initialHash (paddedBlocks [98])) :=
  sumString_collide List.length_replicate List.length_replicate (by decide) (by decide)

end Libchef.Sha256Digest
