import Libchef.Base.Blocks
import Libchef.Base.Numeral

/-!
Bytes as characters, six bits each, as RFC 4648 defines it.

This is what the code is compared with, and not a translation of it. What is read are the
characters of the alphabet at the beginning, and what is left of the bits is thrown away.
-/

namespace Libchef.Base64Standard

open Libchef.Blocks Libchef.Numeral

/-- The character of a value. -/
def alphabet (v : ℕ) : UInt8 :=
  if v < 26 then UInt8.ofNat (65 + v)
  else if v < 52 then UInt8.ofNat (97 + (v - 26))
  else if v < 62 then UInt8.ofNat (48 + (v - 52))
  else if v = 62 then 43
  else 47

/-- The value of a character. -/
def valueOf (c : UInt8) : Option ℕ :=
  if 65 ≤ c ∧ c ≤ 90 then some (c.toNat - 65)
  else if 97 ≤ c ∧ c ≤ 122 then some (c.toNat - 97 + 26)
  else if 48 ≤ c ∧ c ≤ 57 then some (c.toNat - 48 + 52)
  else if c = 43 then some 62
  else if c = 47 then some 63
  else none

/-- The character that fills a group of four. -/
def fillChar : UInt8 := 61

/-- The bits, and as few zeros as make groups of six. -/
def filled (bits : List Bool) : List Bool :=
  bits ++ List.replicate ((6 - bits.length % 6) % 6) false

def sextets (s : List UInt8) : List ℕ := (blocks 6 (filled (bytesToBits s))).map ofBits

def encode (s : List UInt8) : List UInt8 :=
  (sextets s).map alphabet ++ List.replicate ((4 - (sextets s).length % 4) % 4) fillChar

/-- The characters that are read. -/
def letters (s : List UInt8) : List UInt8 := s.takeWhile fun c => (valueOf c).isSome

def octets (bits : List Bool) : List UInt8 := (blocks 8 bits).map fun b => UInt8.ofNat (ofBits b)

def lettersToBits (s : List UInt8) : List Bool := s.flatMap fun c => toBits 6 ((valueOf c).getD 0)

def decode (s : List UInt8) : List UInt8 := octets (lettersToBits (letters s))

/-! ### Coding and decoding -/

lemma valueOf_alphabet : ∀ v < 64, valueOf (alphabet v) = some v := by decide

lemma valueOf_fillChar : valueOf fillChar = none := rfl

lemma octets_append (s : List UInt8) (w : List Bool) :
    octets (bytesToBits s ++ w) = s ++ octets w := by
  induction s with
  | nil => rfl
  | cons b s ih =>
    have hb : ofBits (toBits 8 b.toNat) = b.toNat := by
      rw [ofBits_toBits, Nat.mod_eq_of_lt b.toNat_lt]
    have hcons : bytesToBits (b :: s) ++ w = toBits 8 b.toNat ++ (bytesToBits s ++ w) := by
      rw [bytesToBits, List.flatMap_cons, List.append_assoc, bytesToBits]
    rw [hcons, octets, blocks_append (by omega) (length_toBits 8 _), List.map_cons, hb,
      UInt8.ofNat_toNat, ← octets, ih, List.cons_append]

lemma length_filled (bits : List Bool) : (filled bits).length = (bits.length + 5) / 6 * 6 := by
  rw [filled, List.length_append, List.length_replicate]
  omega

lemma length_sextets (s : List UInt8) : (sextets s).length = (8 * s.length + 5) / 6 := by
  rw [sextets, List.length_map, blocks, List.length_map, List.length_range, length_filled,
    length_bytesToBits, Nat.mul_div_cancel _ (by omega)]

lemma sextet_lt {s : List UInt8} {v : ℕ} (hv : v ∈ sextets s) : v < 64 := by
  obtain ⟨b, hb, rfl⟩ := List.mem_map.mp hv
  have h := ofBits_lt b
  rwa [length_of_mem_blocks hb] at h

lemma lettersToBits_sextets (s : List UInt8) :
    lettersToBits ((sextets s).map alphabet) = filled (bytesToBits s) := by
  have hsix (b : List Bool) (hb : b ∈ blocks 6 (filled (bytesToBits s))) :
      toBits 6 ((valueOf (alphabet (ofBits b))).getD 0) = b := by
    rw [valueOf_alphabet _ (sextet_lt (List.mem_map_of_mem hb)), Option.getD_some,
      ← length_of_mem_blocks hb, toBits_ofBits]
  have hdvd : 6 ∣ (filled (bytesToBits s)).length := by
    rw [length_filled]
    exact Nat.dvd_mul_left 6 _
  have hflat := flatten_blocks (by omega) hdvd
  rw [lettersToBits, sextets, List.map_map, List.flatMap_map]
  refine (List.flatMap_congr hsix).trans ?_
  rwa [List.flatMap_id']

lemma letters_encode (s t : List UInt8) :
    letters (encode s ++ t) =
      (sextets s).map alphabet ++ if 3 ∣ s.length then letters t else [] := by
  have hall : ∀ c ∈ (sextets s).map alphabet, (valueOf c).isSome = true := by
    intro c hc
    obtain ⟨v, hv, rfl⟩ := List.mem_map.mp hc
    rw [valueOf_alphabet v (sextet_lt hv)]
    rfl
  have hlen := length_sextets s
  rw [encode, List.append_assoc, letters, List.takeWhile_append_of_pos hall]
  refine congrArg _ ?_
  split_ifs with hd
  · rw [show (4 - (sextets s).length % 4) % 4 = 0 by omega]
    rfl
  · obtain ⟨k, hk⟩ : ∃ k, (4 - (sextets s).length % 4) % 4 = k + 1 :=
      ⟨(4 - (sextets s).length % 4) % 4 - 1, by omega⟩
    rw [hk, List.replicate_succ, List.cons_append, List.takeWhile_cons, valueOf_fillChar]
    rfl

lemma octets_short {bits : List Bool} (h : bits.length < 8) : octets bits = [] := by
  rw [octets, blocks_short h]
  rfl

/-- **Decoding an encoding**: the bytes again. What comes after it is read if there are no
characters that fill a group. -/
theorem decode_encode (s t : List UInt8) :
    decode (encode s ++ t) = s ++ if 3 ∣ s.length then decode t else [] := by
  have happ (u v : List UInt8) : lettersToBits (u ++ v) = lettersToBits u ++ lettersToBits v :=
    List.flatMap_append
  rw [decode, letters_encode, happ, lettersToBits_sextets, filled, List.append_assoc,
    octets_append, length_bytesToBits]
  refine congrArg _ ?_
  split_ifs with hd
  · rw [show (6 - 8 * s.length % 6) % 6 = 0 by omega]
    rfl
  · refine octets_short ?_
    rw [List.length_append, List.length_replicate]
    change _ + 0 < 8
    omega

lemma sextets_append {s : List UInt8} (hs : 3 ∣ s.length) (t : List UInt8) :
    sextets (s ++ t) = sextets s ++ sextets t := by
  have hlen := length_bytesToBits s
  have hwhole : filled (bytesToBits s) = bytesToBits s := by
    rw [filled, show (6 - (bytesToBits s).length % 6) % 6 = 0 by omega, List.replicate_zero,
      List.append_nil]
  have hcut : filled (bytesToBits (s ++ t)) = bytesToBits s ++ filled (bytesToBits t) := by
    rw [filled, bytesToBits_append, List.append_assoc, List.length_append, filled,
      show (6 - ((bytesToBits s).length + (bytesToBits t).length) % 6) % 6 =
        (6 - (bytesToBits t).length % 6) % 6 by omega]
  rw [sextets, hcut, blocks_append_of_dvd (by omega) (by omega), List.map_append, sextets, hwhole,
    sextets]

/-- An encoding goes on after whole groups. -/
theorem encode_append {s : List UInt8} (hs : 3 ∣ s.length) (t : List UInt8) :
    encode (s ++ t) = encode s ++ encode t := by
  have hlen := length_sextets s
  rw [encode, sextets_append hs, List.length_append, List.map_append, List.append_assoc, encode,
    show (4 - (sextets s).length % 4) % 4 = 0 by omega, List.replicate_zero, List.append_nil,
    encode,
    show (4 - ((sextets s).length + (sextets t).length) % 4) % 4 =
      (4 - (sextets t).length % 4) % 4 by omega]

lemma length_encode (s : List UInt8) : (encode s).length = (s.length + 2) / 3 * 4 := by
  rw [encode, List.length_append, List.length_map, List.length_replicate, length_sextets]
  omega

end Libchef.Base64Standard
