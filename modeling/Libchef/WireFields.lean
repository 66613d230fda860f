import Libchef.WireModel
import Mathlib.Data.List.Perm.Basic

/-!
Numbers that are written to memory one after the other, and read back; and the head of a chunk.
-/

namespace Libchef.WireFields

open Libchef.StringsModel Libchef.Alloc Libchef.Numeral Libchef.WireModel

/-! ### Shifts -/

/-- The shifts of a number of `k` bytes, the most significant one first. -/
def down : ℕ → List ℕ
  | 0 => []
  | k + 1 => 8 * k :: down k

/-- Bytes that are shifted and or-ed make a number. -/
lemma foldl_down (l : Str) {a : ℕ} {acc : Word} (hacc : acc.toNat = a * 2 ^ (8 * l.length))
    (hlt : (a + 1) * 2 ^ (8 * l.length) ≤ 2 ^ 32) :
    ((l.zip (down l.length)).foldl
      (fun val b => val ||| b.1.toBitVec.setWidth 32 <<< b.2) acc).toNat = acc.toNat + ofBE l := by
  induction l generalizing a acc with
  | nil => rfl
  | cons b l ih =>
    have hb := b.toNat_lt
    generalize hs : 8 * l.length = s at ih
    have hpos := Nat.two_pow_pos s
    have hcons : 8 * (b :: l).length = s + 8 := by rw [List.length_cons]; omega
    rw [hcons, pow_add] at hacc hlt
    have hlow : b.toNat * 2 ^ s < 2 ^ 8 * 2 ^ s := Nat.mul_lt_mul_of_pos_right hb hpos
    have hnext : (a * 2 ^ 8 + b.toNat + 1) * 2 ^ s ≤ 2 ^ 32 :=
      calc (a * 2 ^ 8 + b.toNat + 1) * 2 ^ s
          ≤ (a * 2 ^ 8 + 2 ^ 8) * 2 ^ s := Nat.mul_le_mul_right _ (by omega)
        _ = (a + 1) * (2 ^ s * 2 ^ 8) := by ring
        _ ≤ 2 ^ 32 := hlt
    have hbyte : b.toNat * 2 ^ s < 2 ^ 32 :=
      calc b.toNat * 2 ^ s < (a * 2 ^ 8 + b.toNat + 1) * 2 ^ s :=
            Nat.mul_lt_mul_of_pos_right (by omega) hpos
        _ ≤ 2 ^ 32 := hnext
    have hshift : (b.toBitVec.setWidth 32 <<< s).toNat = b.toNat * 2 ^ s := by
      rw [BitVec.toNat_shiftLeft, BitVec.toNat_setWidth, Nat.shiftLeft_eq, UInt8.toNat_toBitVec,
        Nat.mod_eq_of_lt (show b.toNat < 2 ^ 32 by omega), Nat.mod_eq_of_lt hbyte]
    have hor : (acc ||| b.toBitVec.setWidth 32 <<< s).toNat = (a * 2 ^ 8 + b.toNat) * 2 ^ s := by
      have hcut : b.toNat * 2 ^ s < 2 ^ (s + 8) := by rwa [pow_add, Nat.mul_comm (2 ^ s)]
      rw [BitVec.toNat_or, hacc, hshift, ← pow_add, or_eq_add hcut, pow_add]
      ring
    have hBE : ofBE (b :: l) = b.toNat * 2 ^ s + ofBE l := by
      rw [← List.singleton_append, ofBE_append, ← hs, pow_mul]
      simp [ofBE]
    rw [List.length_cons, down, List.zip_cons_cons, List.foldl_cons, hs, ih hor hnext, hor, hBE,
      hacc]
    ring

lemma map_down (k : ℕ) (val : Word) :
    ((down k).map fun s => UInt8.ofBitVec ((val >>> s).setWidth 8)) = toBE k val.toNat := by
  induction k with
  | zero => rfl
  | succ k ih =>
    have hbyte : UInt8.ofBitVec ((val >>> (8 * k)).setWidth 8) =
        UInt8.ofNat (val.toNat / 256 ^ k) := by
      refine UInt8.toNat_inj.mp ?_
      rw [UInt8.toNat_ofBitVec, BitVec.toNat_setWidth, BitVec.toNat_ushiftRight,
        Nat.shiftRight_eq_div_pow, pow_mul, UInt8.toNat_ofNat']
      rfl
    have hone (n : ℕ) : toBE 1 n = [UInt8.ofNat n] := rfl
    rw [down, List.map_cons, ih, Nat.add_comm k 1, toBE_add, hone, hbyte, List.singleton_append]

/-! ### One number -/

/-- The fields that can be written. -/
inductive Field
  | be8
  | be16
  | be24
  | be32
  | le32
deriving DecidableEq

namespace Field

def size : Field → ℕ
  | .be8 => 1
  | .be16 => 2
  | .be24 => 3
  | .be32 | .le32 => 4

def write : Field → Str → ℕ → Word → Option (Str × ℕ)
  | .be8 => writeBeUi8
  | .be16 => writeBeUi16
  | .be24 => writeBeUi24
  | .be32 => writeBeUi32
  | .le32 => writeLeUi32

def read : Field → Str → ℕ → Option Word
  | .be8 => readBeUi8
  | .be16 => readBeUi16
  | .be24 => readBeUi24
  | .be32 => readBeUi32
  | .le32 => readLeUi32

/-- The bytes of a value. -/
def bytes (f : Field) (val : Word) : Str :=
  if f = .le32 then toLE 4 val.toNat else toBE f.size val.toNat

/-- The value that is left of one in so many bytes. -/
def trunc (f : Field) (val : Word) : Word := BitVec.ofNat 32 (val.toNat % 256 ^ f.size)

variable (f : Field)

@[simp] lemma length_bytes (val : Word) : (f.bytes val).length = f.size := by
  cases f <;> simp [bytes, size]

lemma write_eq (m : Str) (p : ℕ) (val : Word) :
    f.write m p val = (poke m p (f.bytes val)).bind fun m => some (m, p + f.size) := by
  have hle : ([0, 8, 16, 24].map fun s => UInt8.ofBitVec ((val >>> s).setWidth 8)) =
      toLE 4 val.toNat := by
    rw [← List.reverse_reverse (toLE 4 _), ← toBE, ← map_down]
    rfl
  cases f
  · exact congrArg (fun b => (poke m p b).bind _) (map_down 1 val)
  · exact congrArg (fun b => (poke m p b).bind _) (map_down 2 val)
  · exact congrArg (fun b => (poke m p b).bind _) (map_down 3 val)
  · exact congrArg (fun b => (poke m p b).bind _) (map_down 4 val)
  · exact congrArg (fun b => (poke m p b).bind _) hle

/-- The number that bytes are. -/
def number (l : Str) : ℕ := if f = .le32 then ofLE l else ofBE l

lemma read_be {l : Str} (hl : l.length ≤ 4) :
    (l.zip (down l.length)).foldl (fun val b => val ||| b.1.toBitVec.setWidth 32 <<< b.2) 0 =
      BitVec.ofNat 32 (ofBE l) := by
  have hpow : (0 + 1) * 2 ^ (8 * l.length) ≤ 2 ^ 32 := by
    rw [Nat.zero_add, Nat.one_mul]
    exact Nat.pow_le_pow_right (by omega) (by omega)
  have hlt : ofBE l < 2 ^ 32 := by
    have h := ofBE_lt l
    rw [show (256 : ℕ) = 2 ^ 8 from rfl, ← pow_mul] at h
    omega
  have hacc : (0 : Word).toNat = 0 * 2 ^ (8 * l.length) := (Nat.zero_mul _).symm
  refine BitVec.eq_of_toNat_eq ?_
  rw [foldl_down l hacc hpow, BitVec.toNat_ofNat, Nat.mod_eq_of_lt hlt]
  exact Nat.zero_add _

lemma read_le {l : Str} (hl : l.length = 4) :
    (l.zip [0, 8, 16, 24]).foldl (fun val b => val ||| b.1.toBitVec.setWidth 32 <<< b.2) 0 =
      BitVec.ofNat 32 (ofLE l) := by
  have hrev : l.zip [0, 8, 16, 24] = (l.reverse.zip (down l.reverse.length)).reverse := by
    rw [List.length_reverse, hl]
    obtain ⟨a, b, c, d, rfl⟩ : ∃ a b c d, l = [a, b, c, d] := by
      rcases l with _ | ⟨a, _ | ⟨b, _ | ⟨c, _ | ⟨d, _ | ⟨_, l⟩⟩⟩⟩⟩ <;> simp at hl ⊢
    rfl
  have hcomm : RightCommutative
      (fun (val : Word) (b : UInt8 × ℕ) => val ||| b.1.toBitVec.setWidth 32 <<< b.2) :=
    ⟨fun a b c => by rw [BitVec.or_assoc, BitVec.or_comm (_ <<< _), ← BitVec.or_assoc]⟩
  have hBE : ofBE l.reverse = ofLE l := by rw [ofBE, List.reverse_reverse]
  rw [hrev, (List.reverse_perm _).foldl_eq, read_be (by rw [List.length_reverse, hl]), hBE]

lemma read_eq (m : Str) (p : ℕ) :
    f.read m p = (peek m p f.size).map fun l => BitVec.ofNat 32 (f.number l) := by
  by_cases hp : p + f.size ≤ m.length
  · have hlen : (window m p f.size).length = f.size := length_window hp
    have hbe (hf : f.size ≤ 4) :
        ((window m p f.size).zip (down f.size)).foldl
          (fun val b => val ||| b.1.toBitVec.setWidth 32 <<< b.2) 0 =
            BitVec.ofNat 32 (ofBE (window m p f.size)) := by
      have h := read_be (l := window m p f.size) (by omega)
      rwa [hlen] at h
    rw [peek_eq hp, Option.map_some]
    have hread (shifts : List ℕ) (hs : shifts.length = f.size) : readShifted shifts m p =
        some (((window m p f.size).zip shifts).foldl
          (fun val b => val ||| b.1.toBitVec.setWidth 32 <<< b.2) 0) := by
      rw [readShifted, hs, peek_eq hp]
      rfl
    cases f
    · exact (hread [0] rfl).trans (congrArg some (hbe (by decide)))
    · exact (hread [8, 0] rfl).trans (congrArg some (hbe (by decide)))
    · exact (hread [16, 8, 0] rfl).trans (congrArg some (hbe (by decide)))
    · exact (hread [24, 16, 8, 0] rfl).trans (congrArg some (hbe (by decide)))
    · exact (hread [0, 8, 16, 24] rfl).trans (congrArg some (read_le hlen))
  · have hnone : peek m p f.size = none := if_neg hp
    have hread (shifts : List ℕ) (hs : shifts.length = f.size) : readShifted shifts m p = none := by
      rw [readShifted, hs, hnone]
      rfl
    rw [hnone, Option.map_none]
    cases f
    · exact hread [0] rfl
    · exact hread [8, 0] rfl
    · exact hread [16, 8, 0] rfl
    · exact hread [24, 16, 8, 0] rfl
    · exact hread [0, 8, 16, 24] rfl

lemma number_bytes (val : Word) : f.number (f.bytes val) = val.toNat % 256 ^ f.size := by
  by_cases hf : f = .le32
  · subst hf
    exact ofLE_toLE 4 val.toNat
  · rw [number, if_neg hf, bytes, if_neg hf, ofBE_toBE]

end Field

/-! ### Many numbers -/

def totalSize (fs : List Field) : ℕ := (fs.map Field.size).sum

/-- The numbers are written one after the other. -/
def writeAll (fs : List (Field × Word)) (m : Str) (p : ℕ) : Option (Str × ℕ) :=
  fs.foldlM (fun st f => f.1.write st.1 st.2 f.2) (m, p)

/-- They are read one after the other. -/
def readAll (m : Str) : (p : ℕ) → List Field → Option (List Word)
  | _, [] => some []
  | p, f :: fs => do
    let val ← f.read m p
    let vals ← readAll m (p + f.size) fs
    some (val :: vals)

def allBytes (fs : List (Field × Word)) : Str := fs.flatMap fun f => f.1.bytes f.2

lemma length_allBytes (fs : List (Field × Word)) :
    (allBytes fs).length = totalSize (fs.map Prod.fst) := by
  induction fs with
  | nil => rfl
  | cons f fs ih =>
    rw [allBytes, List.flatMap_cons, List.length_append, Field.length_bytes]
    rw [allBytes] at ih
    rw [ih]
    simp [totalSize]

/-- The writes are one write of all the bytes. -/
lemma writeAll_eq (fs : List (Field × Word)) {m : Str} {p : ℕ} (hp : p ≤ m.length) :
    writeAll fs m p =
      (poke m p (allBytes fs)).bind fun m => some (m, p + totalSize (fs.map Prod.fst)) := by
  induction fs generalizing m p with
  | nil =>
    have hnil : poke m p [] = some m := by
      rw [poke_eq (by simpa using hp), splice]
      simp
    rw [allBytes, List.flatMap_nil, hnil]
    rfl
  | cons f fs ih =>
    have hcut : allBytes (f :: fs) = f.1.bytes f.2 ++ allBytes fs := List.flatMap_cons
    have hsize : p + totalSize ((f :: fs).map Prod.fst) =
        p + f.1.size + totalSize (fs.map Prod.fst) := by
      simp [totalSize, Nat.add_assoc]
    have hlen := f.1.length_bytes f.2
    have hpoke := poke_poke m p (f.1.bytes f.2) (v := []) (Nat.zero_le (allBytes fs).length)
    rw [List.append_nil, hlen] at hpoke
    rw [writeAll, List.foldlM_cons, Field.write_eq, hsize, hcut, ← hpoke]
    by_cases hfit : p + (f.1.bytes f.2).length ≤ m.length
    · simp only [poke_eq hfit, Option.bind_eq_bind, Option.bind_some]
      exact ih (by rw [length_splice hfit]; omega)
    · have hnone : poke m p (f.1.bytes f.2) = none := if_neg hfit
      rw [hnone]
      rfl

lemma readAll_eq (fs : List (Field × Word)) {m : Str} {p : ℕ}
    (hp : p + (allBytes fs).length ≤ m.length)
    (hm : window m p (allBytes fs).length = allBytes fs) :
    readAll m p (fs.map Prod.fst) = some (fs.map fun f => f.1.trunc f.2) := by
  induction fs generalizing p with
  | nil => rfl
  | cons f fs ih =>
    have hcut : allBytes (f :: fs) = f.1.bytes f.2 ++ allBytes fs := List.flatMap_cons
    have hlen := f.1.length_bytes f.2
    rw [hcut, List.length_append, hlen] at hp hm
    rw [window_add] at hm
    obtain ⟨hfirst, hrest⟩ := List.append_inj hm (by rw [length_window (by omega), hlen])
    rw [List.map_cons, readAll, Field.read_eq, peek_eq (by omega), hfirst, Option.map_some,
      Option.bind_eq_bind, Option.bind_some, ih (by omega) hrest, Field.number_bytes]
    rfl

/-- **Any fields** in a row: the writes stay in the memory exactly if there is room for all, they
leave alone what is before and after, and what is read back are the values, without the bits that
have no room. -/
theorem fields_round_trip (fs : List (Field × Word)) {m : Str} {p : ℕ} (hp : p ≤ m.length) :
    if p + totalSize (fs.map Prod.fst) ≤ m.length then
      ∃ m', writeAll fs m p = some (m', p + totalSize (fs.map Prod.fst)) ∧
        m'.length = m.length ∧ m'.take p = m.take p ∧
        m'.drop (p + totalSize (fs.map Prod.fst)) = m.drop (p + totalSize (fs.map Prod.fst)) ∧
        readAll m' p (fs.map Prod.fst) = some (fs.map fun f => f.1.trunc f.2)
    else writeAll fs m p = none := by
  have hlen := length_allBytes fs
  rw [writeAll_eq fs hp, ← hlen]
  split_ifs with hfit
  · refine ⟨splice m p (allBytes fs), ?_, length_splice hfit, ?_, ?_, ?_⟩
    · rw [poke_eq hfit, Option.bind_some]
    · rw [splice, List.take_left' (List.length_take_of_le hp)]
    · rw [splice, ← List.append_assoc, List.drop_left']
      rw [List.length_append, List.length_take_of_le hp]
    · exact readAll_eq fs (by rwa [length_splice hfit]) (window_splice hfit)
  · have hnone : poke m p (allBytes fs) = none := if_neg hfit
    rw [hnone]
    rfl

theorem fields_round_trip_four :
    if 1 + 9 ≤ 10 then
      ∃ m', writeAll [(.be16, 0x12345), (.be24, 7), (.le32, 0xFFFFFFFF)] (List.replicate 10 9) 1 =
          some (m', 1 + 9) ∧
        m'.length = 10 ∧ m'.take 1 = [9] ∧ m'.drop (1 + 9) = [] ∧
        readAll m' 1 [.be16, .be24, .le32] = some [0x2345, 7, 0xFFFFFFFF]
    else
      writeAll [(.be16, 0x12345), (.be24, 7), (.le32, 0xFFFFFFFF)] (List.replicate 10 9) 1 = none :=
  fields_round_trip [(.be16, 0x12345), (.be24, 7), (.le32, 0xFFFFFFFF)]
    (show 1 ≤ (List.replicate 10 (9 : UInt8)).length by decide)

/-! ### The head of a chunk -/

lemma swap_four (a b c d : UInt8) :
    swapIfBigEndian .big [a, b, c, d] = [a, b, c, d].reverse := by
  simp [swapIfBigEndian, swapLoop]

lemma swap_eight (a b c d a' b' c' d' : UInt8) :
    swapIfBigEndian .big [a, b, c, d, a', b', c', d'] = [a, b, c, d, a', b', c', d'].reverse := by
  simp [swapIfBigEndian, swapLoop]

lemma swap_big {data : Str} (hd : data.length = 4 ∨ data.length = 8) :
    swapIfBigEndian .big data = data.reverse := by
  rcases hd with hd | hd
  · rcases data with _ | ⟨a, _ | ⟨b, _ | ⟨c, _ | ⟨d, _ | ⟨_, l⟩⟩⟩⟩⟩ <;> simp at hd
    exact swap_four a b c d
  · rcases data with _ | ⟨a, _ | ⟨b, _ | ⟨c, _ | ⟨d, _ | ⟨a', _ | ⟨b', _ | ⟨c', _ |
      ⟨d', _ | ⟨_, l⟩⟩⟩⟩⟩⟩⟩⟩⟩ <;> simp at hd
    exact swap_eight a b c d a' b' c' d'

section Members

variable (e : Endian) {k : ℕ} (hk : k = 4 ∨ k = 8) (raw : Str) (at_ : ℕ)

lemma encodeMember_eq (hk : k = 4 ∨ k = 8) (n : ℕ) :
    encodeMember e k n raw at_ = poke raw at_ (toLE k n) := by
  cases e
  · rfl
  · rw [encodeMember, Endian.bytes, swap_big (by rwa [length_toBE]), toBE, List.reverse_reverse]

lemma decodeMember_eq (hk : k = 4 ∨ k = 8) :
    decodeMember e k raw at_ = (peek raw at_ k).map ofLE := by
  by_cases hp : at_ + k ≤ raw.length
  · rw [decodeMember, peek_eq hp, Option.map_some, Option.bind_eq_bind, Option.bind_some]
    cases e
    · rfl
    · rw [swap_big (by rwa [length_window hp]), Endian.number, ofBE, List.reverse_reverse]
  · have hnone : peek raw at_ k = none := if_neg hp
    rw [decodeMember, hnone]
    rfl

end Members

/-- The bytes of a head. -/
def headBytes (ch : ChunkHead) : Str :=
  toLE 8 ch.id_.toNat ++ (toLE 4 ch.type_.toNat ++ (toLE 4 MAGIC_NUM.toNat ++
    (toLE 4 ch.reserved_.toNat ++ toLE 4 ch.bodyLen_.toNat)))

lemma length_headBytes (ch : ChunkHead) : (headBytes ch).length = CHUNK_HEAD_LEN := by
  simp [headBytes, CHUNK_HEAD_LEN]

lemma encode_eq (e : Endian) (ch : ChunkHead) (raw : Str) :
    encode e ch raw = poke raw 0 (headBytes ch) := by
  have hcat (k n : ℕ) (w : Str) (at_ : ℕ) (r : Str) :
      (poke r at_ (toLE k n)).bind (fun r => poke r (at_ + k) w) = poke r at_ (toLE k n ++ w) := by
    have h := poke_poke r at_ (toLE k n) (v := []) (Nat.zero_le w.length)
    rwa [List.append_nil, length_toLE] at h
  have h16 := hcat 4 ch.reserved_.toNat (toLE 4 ch.bodyLen_.toNat) 16
  have h12 := hcat 4 MAGIC_NUM.toNat (toLE 4 ch.reserved_.toNat ++ toLE 4 ch.bodyLen_.toNat) 12
  have h8 := hcat 4 ch.type_.toNat (toLE 4 MAGIC_NUM.toNat ++
    (toLE 4 ch.reserved_.toNat ++ toLE 4 ch.bodyLen_.toNat)) 8
  simp only [encode, encodeMember_eq _ _ _ (Or.inl rfl : 4 = 4 ∨ 4 = 8),
    encodeMember_eq _ _ _ (Or.inr rfl : 8 = 4 ∨ 8 = 8), Option.bind_eq_bind]
  simp only [Nat.reduceAdd] at h16 h12 h8
  simp only [h16, h12, h8]
  exact hcat 8 ch.id_.toNat _ 0 raw

/-- The head that bytes are. -/
def headOf (raw : Str) : ChunkHead :=
  ⟨BitVec.ofNat 64 (ofLE (window raw 0 8)), BitVec.ofNat 32 (ofLE (window raw 8 4)),
    BitVec.ofNat 32 (ofLE (window raw 16 4)), BitVec.ofNat 32 (ofLE (window raw 20 4))⟩

lemma magic_iff {w : Str} (hw : w.length = 4) :
    BitVec.ofNat 32 (ofLE w) = MAGIC_NUM ↔ w = toLE 4 MAGIC_NUM.toNat := by
  have hlt := ofLE_lt w
  rw [hw] at hlt
  constructor
  · intro h
    have hn := congrArg BitVec.toNat h
    rw [BitVec.toNat_ofNat, Nat.mod_eq_of_lt (show ofLE w < 2 ^ 32 by omega)] at hn
    rw [← hn, ← hw, toLE_ofLE]
  · rintro rfl
    rw [ofLE_toLE]
    rfl

lemma decode_eq (e : Endian) {raw : Str} (hraw : CHUNK_HEAD_LEN ≤ raw.length) (ch : ChunkHead) :
    decode e raw ch = if window raw 12 4 = toLE 4 MAGIC_NUM.toNat then some (0, headOf raw)
      else some (-1, ch) := by
  have h24 : 24 ≤ raw.length := hraw
  have hw : (window raw 12 4).length = 4 := length_window (by omega)
  simp only [decode, decodeMember_eq _ _ _ (Or.inl rfl : 4 = 4 ∨ 4 = 8),
    decodeMember_eq _ _ _ (Or.inr rfl : 8 = 4 ∨ 8 = 8), peek_eq (show 12 + 4 ≤ raw.length by omega),
    peek_eq (show 0 + 8 ≤ raw.length by omega), peek_eq (show 8 + 4 ≤ raw.length by omega),
    peek_eq (show 16 + 4 ≤ raw.length by omega), peek_eq (show 20 + 4 ≤ raw.length by omega),
    Option.map_some, Option.bind_eq_bind, Option.bind_some, ne_eq, magic_iff hw, ite_not]
  rfl

lemma window_head {s : Str} : window s 0 24 =
    window s 0 8 ++ (window s 8 4 ++ (window s 12 4 ++ (window s 16 4 ++ window s 20 4))) := by
  rw [show window s 16 4 ++ window s 20 4 = window s 16 8 from (window_add (n := 4) (m := 4)).symm,
    show window s 12 4 ++ window s 16 8 = window s 12 12 from (window_add (n := 4) (m := 8)).symm,
    show window s 8 4 ++ window s 12 12 = window s 8 16 from (window_add (n := 4) (m := 12)).symm]
  exact window_add (n := 8) (m := 16)

lemma ofNat_ofLE_toLE {w k : ℕ} (h : 256 ^ k = 2 ^ w) (x : BitVec w) :
    BitVec.ofNat w (ofLE (toLE k x.toNat)) = x := by
  rw [ofLE_toLE, h, Nat.mod_eq_of_lt x.isLt]
  exact BitVec.eq_of_toNat_eq (by rw [BitVec.toNat_ofNat, Nat.mod_eq_of_lt x.isLt])

lemma toLE_ofNat_ofLE {w k : ℕ} (h : 256 ^ k = 2 ^ w) {l : Str} (hl : l.length = k) :
    toLE k (BitVec.ofNat w (ofLE l)).toNat = l := by
  rw [BitVec.toNat_ofNat, ← h, toLE_mod, ← hl, toLE_ofLE]

lemma headOf_splice (ch : ChunkHead) {raw : Str} (hraw : CHUNK_HEAD_LEN ≤ raw.length) :
    window (splice raw 0 (headBytes ch)) 12 4 = toLE 4 MAGIC_NUM.toNat ∧
      headOf (splice raw 0 (headBytes ch)) = ch := by
  have hfit : 0 + (headBytes ch).length ≤ raw.length := by rwa [Nat.zero_add, length_headBytes]
  have hall := window_splice hfit
  have hsize : 24 ≤ (splice raw 0 (headBytes ch)).length := by rwa [length_splice hfit]
  rw [length_headBytes] at hall
  generalize splice raw 0 (headBytes ch) = s at hall hsize
  rw [CHUNK_HEAD_LEN, window_head, headBytes] at hall
  have hlen (i k : ℕ) (h : i + k ≤ 24) : (window s i k).length = k := length_window (by omega)
  obtain ⟨hid, hall⟩ := List.append_inj hall (by rw [hlen 0 8 (by omega), length_toLE])
  obtain ⟨htype, hall⟩ := List.append_inj hall (by rw [hlen 8 4 (by omega), length_toLE])
  obtain ⟨hmagic, hall⟩ := List.append_inj hall (by rw [hlen 12 4 (by omega), length_toLE])
  obtain ⟨hres, hbody⟩ := List.append_inj hall (by rw [hlen 16 4 (by omega), length_toLE])
  refine ⟨hmagic, ?_⟩
  rw [headOf, hid, htype, hres, hbody, ofNat_ofLE_toLE rfl, ofNat_ofLE_toLE rfl,
    ofNat_ofLE_toLE rfl, ofNat_ofLE_toLE rfl]

lemma splice_headOf {raw : Str} (hraw : CHUNK_HEAD_LEN ≤ raw.length)
    (hmagic : window raw 12 4 = toLE 4 MAGIC_NUM.toNat) :
    splice raw 0 (headBytes (headOf raw)) = raw := by
  have h24 : 24 ≤ raw.length := hraw
  have hlen (i k : ℕ) (h : i + k ≤ 24) : (window raw i k).length = k := length_window (by omega)
  have hbytes : headBytes (headOf raw) = raw.take 24 := by
    rw [headBytes, headOf, toLE_ofNat_ofLE rfl (hlen 0 8 (by omega)),
      toLE_ofNat_ofLE rfl (hlen 8 4 (by omega)), toLE_ofNat_ofLE rfl (hlen 16 4 (by omega)),
      toLE_ofNat_ofLE rfl (hlen 20 4 (by omega)), ← hmagic, ← window_head, window, List.drop_zero]
  rw [hbytes, splice, List.take_zero, List.nil_append, Nat.zero_add, List.length_take_of_le h24,
    List.take_append_drop]

/-- **The head of a chunk** is the same bytes on all machines. What one encodes another decodes,
the bytes after it are left alone, and what is decoded is what some head is encoded as: where there
is none, the caller's head is left alone. -/
theorem chunk_head {raw : Str} (hraw : CHUNK_HEAD_LEN ≤ raw.length) (ch ch' : ChunkHead)
    (e e' : Endian) :
    (∃ raw', encode e ch raw = some raw' ∧ raw'.length = raw.length ∧
      raw'.drop CHUNK_HEAD_LEN = raw.drop CHUNK_HEAD_LEN ∧ decode e' raw' ch' = some (0, ch)) ∧
    ((∃ ch₁, decode e raw ch = some (0, ch₁) ∧ encode e' ch₁ raw = some raw) ∨
      decode e raw ch = some (-1, ch) ∧ ∀ e₁ ch₁ raw₁, encode e₁ ch₁ raw₁ ≠ some raw) := by
  have hfit (ch : ChunkHead) : 0 + (headBytes ch).length ≤ raw.length := by
    rwa [Nat.zero_add, length_headBytes]
  obtain ⟨hmagic, hhead⟩ := headOf_splice ch hraw
  refine ⟨⟨splice raw 0 (headBytes ch), ?_, length_splice (hfit ch), ?_, ?_⟩, ?_⟩
  · rw [encode_eq, poke_eq (hfit ch)]
  · rw [splice, List.take_zero, List.nil_append, Nat.zero_add, ← length_headBytes ch,
      List.drop_left]
  · rw [decode_eq _ (by rwa [length_splice (hfit ch)]), if_pos hmagic, hhead]
  · rw [decode_eq _ hraw]
    by_cases hm : window raw 12 4 = toLE 4 MAGIC_NUM.toNat
    · rw [if_pos hm]
      refine Or.inl ⟨_, rfl, ?_⟩
      rw [encode_eq, poke_eq (hfit _), splice_headOf hraw hm]
    · rw [if_neg hm]
      refine Or.inr ⟨rfl, fun e₁ ch₁ raw₁ h => hm ?_⟩
      rw [encode_eq] at h
      obtain ⟨hfit₁, rfl⟩ : _ ∧ splice raw₁ 0 (headBytes ch₁) = raw := by simpa [poke] using h
      rw [length_headBytes] at hfit₁
      exact (headOf_splice ch₁ hfit₁).1

theorem chunk_head_zeros :
    (∃ raw', encode .big ⟨1, 2, 3, 4⟩ (List.replicate 25 0) = some raw' ∧ raw'.length = 25 ∧
      raw'.drop 24 = [0] ∧ decode .little raw' ⟨0, 0, 0, 0⟩ = some (0, ⟨1, 2, 3, 4⟩)) ∧
    ((∃ ch₁, decode .big (List.replicate 25 0) ⟨1, 2, 3, 4⟩ = some (0, ch₁) ∧
        encode .little ch₁ (List.replicate 25 0) = some (List.replicate 25 0)) ∨
      decode .big (List.replicate 25 0) ⟨1, 2, 3, 4⟩ = some (-1, ⟨1, 2, 3, 4⟩) ∧
        ∀ e₁ ch₁ raw₁, encode e₁ ch₁ raw₁ ≠ some (List.replicate 25 0)) :=
  chunk_head (show CHUNK_HEAD_LEN ≤ (List.replicate 25 (0 : UInt8)).length by decide)
    ⟨1, 2, 3, 4⟩ ⟨0, 0, 0, 0⟩ .big .little

end Libchef.WireFields
