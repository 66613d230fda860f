import Libchef.Base64Model
import Libchef.Base64Standard

/-!
What is encoded and decoded is what the standard says, byte for byte.
-/

namespace Libchef.Base64Codes

open Libchef.StringsModel Libchef.Alloc Libchef.Blocks Libchef.Numeral
open Libchef.Base64Model
open Libchef.Base64Standard hiding encode decode

/-! ### The characters -/

lemma charOf_ofNat : ∀ v < 64, charOf (UInt8.ofNat v) = some (alphabet v) := by decide

lemma mapM_charOf {bs : Str} (h : ∀ b ∈ bs, b.toNat < 64) :
    bs.mapM charOf = some ((bs.map UInt8.toNat).map alphabet) := by
  induction bs with
  | nil => rfl
  | cons b bs ih =>
    obtain ⟨hb, hbs⟩ := List.forall_mem_cons.mp h
    have hchar := charOf_ofNat b.toNat hb
    rw [UInt8.ofNat_toNat] at hchar
    rw [List.mapM_cons, hchar, ih hbs]
    rfl

lemma letter_ofNat : ∀ n < 256,
    (UInt8.ofNat n ≠ chr '=' ∧ isBase64 (UInt8.ofNat n) = true ↔
      (valueOf (UInt8.ofNat n)).isSome = true) ∧
      ∀ v ∈ valueOf (UInt8.ofNat n), v < 64 ∧ findByte (UInt8.ofNat n) = UInt8.ofNat v := by
  decide +kernel

lemma letter_iff (c : UInt8) : c ≠ chr '=' ∧ isBase64 c = true ↔ (valueOf c).isSome = true := by
  have h := (letter_ofNat c.toNat c.toNat_lt).1
  rwa [UInt8.ofNat_toNat] at h

lemma valueOf_spec {c : UInt8} {v : ℕ} (h : valueOf c = some v) :
    v < 64 ∧ findByte c = UInt8.ofNat v := by
  have hc := (letter_ofNat c.toNat c.toNat_lt).2
  rw [UInt8.ofNat_toNat] at hc
  exact hc v h

/-! ### Three bytes, four characters -/

lemma masks_encode : ∀ n < 256, ((UInt8.ofNat n &&& 0xfc) >>> 2).toNat = n / 4 ∧
    ((UInt8.ofNat n &&& 0x03) <<< 4).toNat = n % 4 * 16 ∧
    ((UInt8.ofNat n &&& 0xf0) >>> 4).toNat = n / 16 ∧
    ((UInt8.ofNat n &&& 0x0f) <<< 2).toNat = n % 16 * 4 ∧
    ((UInt8.ofNat n &&& 0xc0) >>> 6).toNat = n / 64 ∧ (UInt8.ofNat n &&& 0x3f).toNat = n % 64 := by
  decide +kernel

lemma masks_spec (c : UInt8) : ((c &&& 0xfc) >>> 2).toNat = c.toNat / 4 ∧
    ((c &&& 0x03) <<< 4).toNat = c.toNat % 4 * 16 ∧ ((c &&& 0xf0) >>> 4).toNat = c.toNat / 16 ∧
    ((c &&& 0x0f) <<< 2).toNat = c.toNat % 16 * 4 ∧ ((c &&& 0xc0) >>> 6).toNat = c.toNat / 64 ∧
    (c &&& 0x3f).toNat = c.toNat % 64 := by
  have h := masks_encode c.toNat c.toNat_lt
  rwa [UInt8.ofNat_toNat] at h

/-- The values of the four characters, and the characters. -/
lemma addChars_fours (x y z : UInt8) (ret : Str) {n : ℕ} (hn : n ≤ 4) :
    ((fours [x, y, z]).bind fun array4 => addChars ret array4 n) =
      some (ret ++ (([x.toNat / 4, x.toNat % 4 * 16 + y.toNat / 16,
        y.toNat % 16 * 4 + z.toNat / 64, z.toNat % 64]).take n).map alphabet) := by
  obtain ⟨hx1, hx2, -⟩ := masks_spec x
  obtain ⟨-, -, hy3, hy4, -⟩ := masks_spec y
  obtain ⟨-, -, -, -, hz5, hz6⟩ := masks_spec z
  have hx := x.toNat_lt
  have hy := y.toNat_lt
  have hz := z.toNat_lt
  have hadd (b c : UInt8) (h : b.toNat + c.toNat < 256) : (b + c).toNat = b.toNat + c.toNat := by
    rw [UInt8.toNat_add, Nat.mod_eq_of_lt h]
  obtain ⟨q, hq, hlen, hval⟩ : ∃ q, fours [x, y, z] = some q ∧ q.length = 4 ∧
      q.map UInt8.toNat = [x.toNat / 4, x.toNat % 4 * 16 + y.toNat / 16,
        y.toNat % 16 * 4 + z.toNat / 64, z.toNat % 64] := by
    refine ⟨_, rfl, rfl, ?_⟩
    simp only [List.map_cons, List.map_nil]
    rw [hadd _ _ (by omega), hadd _ _ (by omega), hx1, hx2, hy3, hy4, hz5, hz6]
  have hlt : ∀ b ∈ q.take n, b.toNat < 64 := by
    intro b hb
    have hmem : b.toNat ∈ q.map UInt8.toNat := List.mem_map_of_mem (List.mem_of_mem_take hb)
    rw [hval] at hmem
    simp only [List.mem_cons, List.not_mem_nil, or_false] at hmem
    omega
  rw [hq, Option.bind_some, addChars, peek_eq (by omega), window, List.drop_zero,
    Option.bind_eq_bind, Option.bind_some, mapM_charOf hlt, List.map_take, hval]
  rfl

/-- The groups of six bits. -/
def groups (bits : List Bool) : List ℕ := (blocks 6 bits).map ofBits

lemma groups_toBits (k n : ℕ) :
    groups (toBits (6 + k) n) = n / 2 ^ k % 64 :: groups (toBits k n) := by
  rw [toBits_add, groups, blocks_append (by omega) (length_toBits 6 _), List.map_cons,
    ofBits_toBits]
  rfl

lemma groups_zero (n : ℕ) : groups (toBits 0 n) = [] := by
  rw [groups, blocks_short (by rw [length_toBits]; omega), List.map_nil]

lemma bits_one (x : UInt8) : bytesToBits [x] = toBits 8 x.toNat := List.append_nil _

lemma bits_snoc (s : Str) {k n : ℕ} (h : bytesToBits s = toBits k n) (z : UInt8) :
    bytesToBits (s ++ [z]) = toBits (k + 8) (n * 2 ^ 8 + z.toNat) := by
  rw [bytesToBits_concat, h, toBits_concat _ z.toNat_lt]

lemma filled_eq {s : Str} {k n : ℕ} (h : bytesToBits s = toBits k n) (j : ℕ)
    (hj : j = (6 - k % 6) % 6) : filled (bytesToBits s) = toBits (k + j) (n * 2 ^ j) := by
  have hcat := toBits_concat k (Nat.two_pow_pos j) n
  rw [Nat.add_zero, toBits_zero] at hcat
  rw [hcat, filled, h, length_toBits, hj]

section Groups

variable (x y z : UInt8)

lemma sextets_three : sextets [x, y, z] = [x.toNat / 4, x.toNat % 4 * 16 + y.toNat / 16,
    y.toNat % 16 * 4 + z.toNat / 64, z.toNat % 64] := by
  have hx := x.toNat_lt
  have hy := y.toNat_lt
  have hz := z.toNat_lt
  have h := filled_eq (bits_snoc [x, y] (bits_snoc [x] (bits_one x) y) z) 0 rfl
  refine (congrArg groups h).trans ?_
  change groups (toBits (6 + (6 + (6 + (6 + 0)))) _) = _
  simp only [groups_toBits, groups_zero, List.cons.injEq, and_true]
  omega

lemma sextets_two : sextets [x, y] = [x.toNat / 4, x.toNat % 4 * 16 + y.toNat / 16,
    y.toNat % 16 * 4] := by
  have hx := x.toNat_lt
  have hy := y.toNat_lt
  have h := filled_eq (bits_snoc [x] (bits_one x) y) 2 rfl
  refine (congrArg groups h).trans ?_
  change groups (toBits (6 + (6 + (6 + 0))) _) = _
  simp only [groups_toBits, groups_zero, List.cons.injEq, and_true]
  omega

lemma sextets_one : sextets [x] = [x.toNat / 4, x.toNat % 4 * 16] := by
  have hx := x.toNat_lt
  have h := filled_eq (bits_one x) 4 rfl
  refine (congrArg groups h).trans ?_
  change groups (toBits (6 + (6 + 0)) _) = _
  simp only [groups_toBits, groups_zero, List.cons.injEq, and_true]
  omega

end Groups

/-! ### An array that is filled -/

/-- The first elements of an array of `n` elements are `buf`. -/
def Filled (n : ℕ) (array buf : Str) : Prop := array.length = n ∧ array.take buf.length = buf

lemma filled_nil {n : ℕ} {array : Str} (h : array.length = n) : Filled n array [] := ⟨h, rfl⟩

lemma Filled.poke {n : ℕ} {array buf : Str} (h : Filled n array buf) (hlt : buf.length < n)
    (c : UInt8) : ∃ array', poke array buf.length [c] = some array' ∧
      Filled n array' (buf ++ [c]) := by
  obtain ⟨hlen, htake⟩ := h
  have hfit : buf.length + [c].length ≤ array.length := by
    rw [List.length_singleton]
    omega
  refine ⟨_, poke_eq hfit, by rw [length_splice hfit, hlen], ?_⟩
  rw [List.length_append, take_splice hfit, htake]

lemma Filled.full {n : ℕ} {array buf : Str} (h : Filled n array buf) (hn : buf.length = n) :
    array = buf := by
  obtain ⟨hlen, htake⟩ := h
  rwa [List.take_of_length_le (by omega)] at htake

lemma clear_append (u v : Str) :
    (List.range' u.length v.length).foldlM (fun a j => Alloc.poke a j [0]) (u ++ v) =
      some (u ++ List.replicate v.length 0) := by
  induction v generalizing u with
  | nil => rfl
  | cons c v ih =>
    have hu : (u ++ [(0 : UInt8)]).length = u.length + 1 := by simp
    have hfit : u.length + [(0 : UInt8)].length ≤ (u ++ c :: v).length := by simp
    have hset : Alloc.poke (u ++ c :: v) u.length [0] = some ((u ++ [0]) ++ v) := by
      rw [poke_eq hfit]
      simp [splice]
    rw [List.length_cons, List.range'_succ, List.foldlM_cons, hset, Option.bind_eq_bind,
      Option.bind_some, ← hu, ih, List.replicate_succ, List.append_assoc, List.singleton_append]

lemma Filled.clearFrom {n : ℕ} {array buf : Str} (h : Filled n array buf) :
    clearFrom array buf.length n = some (buf ++ List.replicate (n - buf.length) 0) := by
  obtain ⟨hlen, htake⟩ := h
  have hdrop : (array.drop buf.length).length = n - buf.length := by rw [List.length_drop, hlen]
  have hcut : array = buf ++ array.drop buf.length := by
    rw [← List.take_append_drop buf.length array, htake, List.drop_left]
  have h := clear_append buf (array.drop buf.length)
  rwa [hdrop, ← hcut] at h

/-! ### `base64_encode` -/

/-- What a block of three bytes adds to the output. -/
def addFour (ret block : Str) : Str := ret ++ (sextets block).map alphabet

lemma addFour_eq {block : Str} (hb : block.length = 3) (ret : Str) :
    ((fours block).bind fun array4 => addChars ret array4 4) = some (addFour ret block) := by
  obtain ⟨x, y, z, rfl⟩ := List.length_eq_three.mp hb
  rw [addChars_fours x y z ret le_rfl, addFour, sextets_three]
  rfl

/-- The loop takes blocks in. -/
lemma base64EncodeLoop_spec (input : Str) {array3 buf : Str} (h : Filled 3 array3 buf)
    (hlt : buf.length < 3) (ret : Str) :
    ∃ array3', base64EncodeLoop input buf.length array3 ret =
        some ((absorb addFour 3 (ret, buf) input).2.length, array3',
          (absorb addFour 3 (ret, buf) input).1) ∧
      Filled 3 array3' (absorb addFour 3 (ret, buf) input).2 := by
  induction input generalizing array3 buf ret with
  | nil => exact ⟨array3, rfl, h⟩
  | cons c input ih =>
    obtain ⟨array3', hpoke, hset⟩ := h.poke hlt c
    have hlen : (buf ++ [c]).length = buf.length + 1 := by simp
    rw [absorb_cons, push, base64EncodeLoop, hpoke, Option.bind_eq_bind, Option.bind_some]
    by_cases hfull : buf.length + 1 = 3
    · obtain rfl := hset.full (by omega)
      have hfour := addFour_eq hset.1 ret
      obtain ⟨array4, hfours, hadd⟩ := Option.bind_eq_some_iff.mp hfour
      simp only [if_pos hfull, hfours, Option.bind_some, hadd]
      exact ih (filled_nil hset.1) (by decide) _
    · simp only [if_neg hfull]
      rw [← hlen]
      exact ih hset (by omega) ret

lemma foldl_addFour (bs : List Str) (ret : Str) :
    bs.foldl addFour ret = ret ++ bs.flatMap fun b => (sextets b).map alphabet := by
  induction bs generalizing ret with
  | nil => simp
  | cons b bs ih => rw [List.foldl_cons, ih, addFour, List.append_assoc, List.flatMap_cons]

lemma addChars_last {buf : Str} (h0 : buf.length ≠ 0) (hlt : buf.length < 3) (ret : Str) :
    ((fours (buf ++ List.replicate (3 - buf.length) 0)).bind fun array4 =>
      addChars ret array4 (buf.length + 1)) = some (ret ++ (sextets buf).map alphabet) := by
  rcases buf with _ | ⟨x, _ | ⟨y, _ | ⟨z, buf⟩⟩⟩
  · exact absurd rfl h0
  · rw [sextets_one]
    exact addChars_fours x 0 0 ret (show 2 ≤ 4 by omega)
  · rw [sextets_two]
    exact addChars_fours x y 0 ret (show 3 ≤ 4 by omega)
  · simp only [List.length_cons] at hlt
    omega

lemma base64Encode_blocks {memory : Str} (hm : memory.length = 3) (input : Str) :
    base64Encode memory input = some
      (((blocks 3 input).flatMap fun b => (sextets b).map alphabet) ++
        if (rest 3 input).length ≠ 0 then (sextets (rest 3 input)).map alphabet ++
          List.replicate (3 - (rest 3 input).length) (chr '=') else []) := by
  obtain ⟨array3, he, hf⟩ := base64EncodeLoop_spec input (filled_nil hm) (by decide) []
  rw [absorb_eq_blocks _ (by omega), List.length_nil] at he
  rw [absorb_eq_blocks _ (by omega)] at hf
  rw [base64Encode, he, foldl_addFour, List.nil_append, Option.bind_eq_bind, Option.bind_some]
  have hlt : (rest 3 input).length < 3 := length_rest (by omega) input
  by_cases h0 : (rest 3 input).length ≠ 0
  · have hlast := addChars_last h0 hlt
      ((blocks 3 input).flatMap fun b => (sextets b).map alphabet)
    obtain ⟨array4, hfours, hadd⟩ := Option.bind_eq_some_iff.mp hlast
    simp only at hf
    simp only [if_pos h0, hf.clearFrom, hfours, Option.bind_eq_bind, Option.bind_some, hadd,
      List.append_assoc]
  · simp only [if_neg h0, List.append_nil]

/-- **Encoding** follows the standard. -/
theorem base64Encode_eq {memory : Str} (hm : memory.length = 3) (input : Str) :
    base64Encode memory input = some (Base64Standard.encode input) := by
  rw [base64Encode_blocks hm]
  refine congrArg some ?_
  induction input using block_induction (show 0 < 3 by omega) with
  | short m h =>
    rw [blocks_short h, rest_short h, List.flatMap_nil, List.nil_append]
    rcases m with _ | ⟨x, _ | ⟨y, _ | ⟨z, m⟩⟩⟩
    · rfl
    · rw [Base64Standard.encode, sextets_one]
      rfl
    · rw [Base64Standard.encode, sextets_two]
      rfl
    · simp only [List.length_cons] at h
      omega
  | block b m hb ih =>
    obtain ⟨x, y, z, rfl⟩ := List.length_eq_three.mp hb
    have hblock : Base64Standard.encode [x, y, z] = (sextets [x, y, z]).map alphabet := by
      rw [Base64Standard.encode, sextets_three]
      simp
    rw [blocks_append (by omega) hb, rest_append (by omega) hb, List.flatMap_cons,
      List.append_assoc, ih, Base64Standard.encode_append (hb ▸ dvd_refl 3), hblock]

/-! ### Four characters, three bytes -/

lemma masks_decode : ∀ v < 64, (UInt8.ofNat v <<< 2).toNat = v * 4 ∧
    ((UInt8.ofNat v &&& 0x30) >>> 4).toNat = v / 16 ∧
    ((UInt8.ofNat v &&& 0xf) <<< 4).toNat = v % 16 * 16 ∧
    ((UInt8.ofNat v &&& 0x3c) >>> 2).toNat = v / 4 ∧
    ((UInt8.ofNat v &&& 0x3) <<< 6).toNat = v % 4 * 64 ∧ (UInt8.ofNat v).toNat = v := by
  decide

lemma add_eq_ofNat {p q : UInt8} {m n : ℕ} (hp : p.toNat = m) (hq : q.toNat = n) :
    p + q = UInt8.ofNat (m + n) := by
  rw [UInt8.ofNat_add, ← hp, ← hq, UInt8.ofNat_toNat, UInt8.ofNat_toNat]

section Threes

variable {v w x y : ℕ}

/-- The three bytes of an array of four elements. -/
def bytesOf (array4 : Str) : Str := (threes array4).getD []

lemma threes_one (hv : v < 64) (hw : w < 64) (p q : UInt8) :
    (bytesOf [UInt8.ofNat v, UInt8.ofNat w, p, q]).take 1 = [UInt8.ofNat (v * 4 + w / 16)] :=
  congrArg (fun b => [b]) (add_eq_ofNat (masks_decode v hv).1 (masks_decode w hw).2.1)

lemma threes_two (hv : v < 64) (hw : w < 64) (hx : x < 64) (q : UInt8) :
    (bytesOf [UInt8.ofNat v, UInt8.ofNat w, UInt8.ofNat x, q]).take 2 =
      [UInt8.ofNat (v * 4 + w / 16), UInt8.ofNat (w % 16 * 16 + x / 4)] :=
  congrArg₂ (fun a b => [a, b]) (add_eq_ofNat (masks_decode v hv).1 (masks_decode w hw).2.1)
    (add_eq_ofNat (masks_decode w hw).2.2.1 (masks_decode x hx).2.2.2.1)

lemma threes_three (hv : v < 64) (hw : w < 64) (hx : x < 64) (hy : y < 64) :
    bytesOf [UInt8.ofNat v, UInt8.ofNat w, UInt8.ofNat x, UInt8.ofNat y] =
      [UInt8.ofNat (v * 4 + w / 16), UInt8.ofNat (w % 16 * 16 + x / 4),
        UInt8.ofNat (x % 4 * 64 + y)] := by
  have h := threes_two hv hw hx (UInt8.ofNat y)
  have hlast := add_eq_ofNat (masks_decode x hx).2.2.2.2.1 (masks_decode y hy).2.2.2.2.2
  rw [← List.take_append_drop 2 (bytesOf _), h]
  exact congrArg (fun b => [_, _, b]) hlast

lemma threes_eq {array4 : Str} (h : array4.length = 4) :
    threes array4 = some (bytesOf array4) ∧ (bytesOf array4).length = 3 := by
  rcases array4 with _ | ⟨w, _ | ⟨x, _ | ⟨y, _ | ⟨z, _ | ⟨_, l⟩⟩⟩⟩⟩ <;> simp at h
  exact ⟨rfl, rfl⟩

end Threes

lemma octets_toBits (k n : ℕ) :
    octets (toBits (8 + k) n) = UInt8.ofNat (n / 2 ^ k % 256) :: octets (toBits k n) := by
  rw [toBits_add, octets, blocks_append (by omega) (length_toBits 8 _), List.map_cons,
    ofBits_toBits]
  rfl

lemma octets_toBits_short {k : ℕ} (hk : k < 8) (n : ℕ) : octets (toBits k n) = [] :=
  octets_short (by rwa [length_toBits])

lemma octets_whole (k n : ℕ) (w : List Bool) :
    octets (toBits (8 * k) n ++ w) = octets (toBits (8 * k) n) ++ octets w := by
  have hnil : octets (bytesToBits (toBE k n)) = toBE k n := by
    have h := octets_append (toBE k n) []
    have hshort : octets [] = [] := octets_short (by decide)
    rwa [hshort, List.append_nil, List.append_nil] at h
  rw [← bytesToBits_toBE, octets_append, hnil]

lemma letters_one {c : UInt8} {v : ℕ} (hc : valueOf c = some v) :
    lettersToBits [c] = toBits 6 v := by
  rw [lettersToBits, List.flatMap_singleton, hc, Option.getD_some]

lemma letters_snoc {s : Str} {k n : ℕ} (h : lettersToBits s = toBits k n) {c : UInt8} {v : ℕ}
    (hc : valueOf c = some v) : lettersToBits (s ++ [c]) = toBits (k + 6) (n * 2 ^ 6 + v) := by
  rw [toBits_concat k (valueOf_spec hc).1, lettersToBits, List.flatMap_append]
  exact congrArg₂ _ h (letters_one hc)

section Letters

variable {c d e g : UInt8} {v w x y : ℕ}

lemma octets_two (hc : valueOf c = some v) (hd : valueOf d = some w) :
    octets (lettersToBits [c, d]) = [UInt8.ofNat (v * 4 + w / 16)] := by
  have hv := (valueOf_spec hc).1
  have hw := (valueOf_spec hd).1
  refine (congrArg octets (letters_snoc (letters_one hc) hd)).trans ?_
  change octets (toBits (8 + 4) _) = _
  rw [octets_toBits, octets_toBits_short (by omega),
    show (v * 2 ^ 6 + w) / 2 ^ 4 % 256 = v * 4 + w / 16 by omega]

lemma octets_three (hc : valueOf c = some v) (hd : valueOf d = some w) (he : valueOf e = some x) :
    octets (lettersToBits [c, d, e]) =
      [UInt8.ofNat (v * 4 + w / 16), UInt8.ofNat (w % 16 * 16 + x / 4)] := by
  have hv := (valueOf_spec hc).1
  have hw := (valueOf_spec hd).1
  have hx := (valueOf_spec he).1
  refine (congrArg octets (letters_snoc (letters_snoc (letters_one hc) hd) he)).trans ?_
  change octets (toBits (8 + (8 + 2)) _) = _
  rw [octets_toBits, octets_toBits, octets_toBits_short (by omega),
    show ((v * 2 ^ 6 + w) * 2 ^ 6 + x) / 2 ^ (8 + 2) % 256 = v * 4 + w / 16 by omega,
    show ((v * 2 ^ 6 + w) * 2 ^ 6 + x) / 2 ^ 2 % 256 = w % 16 * 16 + x / 4 by omega]

/-- Four letters make three bytes, and more letters go on. -/
lemma octets_four (hc : valueOf c = some v) (hd : valueOf d = some w) (he : valueOf e = some x)
    (hg : valueOf g = some y) (rest : Str) :
    octets (lettersToBits ([c, d, e, g] ++ rest)) =
      [UInt8.ofNat (v * 4 + w / 16), UInt8.ofNat (w % 16 * 16 + x / 4),
        UInt8.ofNat (x % 4 * 64 + y)] ++ octets (lettersToBits rest) := by
  have hv := (valueOf_spec hc).1
  have hw := (valueOf_spec hd).1
  have hx := (valueOf_spec he).1
  have hy := (valueOf_spec hg).1
  have hbits := letters_snoc (letters_snoc (letters_snoc (letters_one hc) hd) he) hg
  have happ : lettersToBits ([c, d, e, g] ++ rest) =
      toBits (8 * 3) (((v * 2 ^ 6 + w) * 2 ^ 6 + x) * 2 ^ 6 + y) ++ lettersToBits rest := by
    rw [lettersToBits, List.flatMap_append]
    exact congrArg (· ++ _) hbits
  rw [happ, octets_whole]
  refine congrArg (· ++ _) ?_
  change octets (toBits (8 + (8 + (8 + 0))) _) = _
  rw [octets_toBits, octets_toBits, octets_toBits, octets_toBits_short (by omega)]
  generalize hM : ((v * 2 ^ 6 + w) * 2 ^ 6 + x) * 2 ^ 6 + y = M
  rw [show M / 2 ^ (8 + (8 + 0)) % 256 = v * 4 + w / 16 by omega,
    show M / 2 ^ (8 + 0) % 256 = w % 16 * 16 + x / 4 by omega,
    show M / 2 ^ 0 % 256 = x % 4 * 64 + y by omega]

end Letters

/-! ### `base64_decode` -/

/-- What a block of four characters adds to the output. -/
def addThree (ret block : Str) : Str := ret ++ bytesOf (block.map findByte)

lemma findBytes_eq {array4 : Str} (h : array4.length = 4) :
    findBytes array4 = some (array4.map findByte) := by
  rw [findBytes, peek_all h, Option.bind_eq_bind, Option.bind_some,
    poke_all (List.length_map _)]

lemma addBytes_threes {array4 : Str} (h : array4.length = 4) (ret : Str) {n : ℕ} (hn : n ≤ 3) :
    ((threes array4).bind fun array3 => addBytes ret array3 n) =
      some (ret ++ (bytesOf array4).take n) := by
  obtain ⟨he, hlen⟩ := threes_eq h
  rw [he, Option.bind_some, addBytes, peek_eq (by omega), window, List.drop_zero]
  rfl

lemma letters_cons {c : UInt8} (hc : (valueOf c).isSome = true) (input : Str) :
    letters (c :: input) = c :: letters input := List.takeWhile_cons_of_pos hc

lemma letters_stop {c : UInt8} (hc : ¬ (valueOf c).isSome = true) (input : Str) :
    letters (c :: input) = [] := List.takeWhile_cons_of_neg hc

/-- The loop takes the letters in, if an `int` can count them. -/
lemma base64DecodeLoop_spec {input array4 buf : Str} (h : Filled 4 array4 buf)
    (hlt : buf.length < 4) (ret : Str) {in_ : ℕ} (hin : in_ + (letters input).length < 2 ^ 31) :
    ∃ array4', base64DecodeLoop input in_ buf.length array4 ret =
        some ((absorb addThree 4 (ret, buf) (letters input)).2.length, array4',
          (absorb addThree 4 (ret, buf) (letters input)).1) ∧
      Filled 4 array4' (absorb addThree 4 (ret, buf) (letters input)).2 := by
  induction input generalizing array4 buf ret in_ with
  | nil => exact ⟨array4, rfl, h⟩
  | cons c input ih =>
    rw [base64DecodeLoop]
    by_cases hc : (valueOf c).isSome = true
    · obtain ⟨array4', hpoke, hset⟩ := h.poke hlt c
      have hlen : (buf ++ [c]).length = buf.length + 1 := by simp
      rw [letters_cons hc, List.length_cons] at hin
      rw [letters_cons hc, if_pos ((letter_iff c).mpr hc), hpoke, Option.bind_eq_bind,
        Option.bind_some, if_pos (show in_ + 1 < 2 ^ 31 by omega), absorb_cons, push]
      by_cases hfull : buf.length + 1 = 4
      · obtain rfl := hset.full (by omega)
        have hmap : ((buf ++ [c]).map findByte).length = 4 := by rw [List.length_map, hset.1]
        have hthree := addBytes_threes hmap ret le_rfl
        rw [List.take_of_length_le (Nat.le_of_eq (threes_eq hmap).2)] at hthree
        obtain ⟨array3, hthrees, hadd⟩ := Option.bind_eq_some_iff.mp hthree
        simp only [if_pos hfull, findBytes_eq hset.1, hthrees, Option.bind_some, hadd]
        exact ih (filled_nil hmap) (by decide) _ (by omega)
      · simp only [if_neg hfull]
        rw [← hlen]
        exact ih hset (by omega) ret (by omega)
    · rw [letters_stop hc, if_neg (mt (letter_iff c).mp hc)]
      exact ⟨array4, rfl, h⟩

lemma base64DecodeLoop_overflow {input : Str} {in_ : ℕ} (hlt : in_ < 2 ^ 31)
    (hin : 2 ^ 31 ≤ in_ + (letters input).length) (i : ℕ) (array4 ret : Str) :
    base64DecodeLoop input in_ i array4 ret = none := by
  induction input generalizing i array4 ret in_ with
  | nil => exact absurd hin (by simpa [letters] using hlt)
  | cons c input ih =>
    rw [base64DecodeLoop]
    by_cases hc : (valueOf c).isSome = true
    · rw [letters_cons hc, List.length_cons] at hin
      rw [if_pos ((letter_iff c).mpr hc), Option.bind_eq_bind, Option.bind_eq_none_iff]
      intro array4' _
      by_cases hover : in_ + 1 < 2 ^ 31
      · rw [if_pos hover]
        split_ifs
        · simp only [Option.bind_eq_none_iff]
          exact fun _ _ _ _ _ _ => ih hover (by omega) _ _ _
        · exact ih hover (by omega) _ _ _
      · rw [if_neg hover]
    · rw [letters_stop hc, List.length_nil] at hin
      omega

lemma foldl_addThree (bs : List Str) (ret : Str) :
    bs.foldl addThree ret = ret ++ bs.flatMap fun b => bytesOf (b.map findByte) := by
  induction bs generalizing ret with
  | nil => simp
  | cons b bs ih => rw [List.foldl_cons, ih, addThree, List.append_assoc, List.flatMap_cons]

/-- What is left over at the end. -/
def lastThree (buf : Str) : Str :=
  if buf.length ≠ 0 then
    (bytesOf ((buf ++ List.replicate (4 - buf.length) 0).map findByte)).take (buf.length - 1)
  else []

lemma base64Decode_blocks {memory : Str} (hm : memory.length = 4) {input : Str}
    (hin : (letters input).length < 2 ^ 31) :
    base64Decode memory input = some
      (((blocks 4 (letters input)).flatMap fun b => bytesOf (b.map findByte)) ++
        lastThree (rest 4 (letters input))) := by
  obtain ⟨array4, he, hf⟩ := base64DecodeLoop_spec (filled_nil hm) (by decide) []
    (show 0 + (letters input).length < 2 ^ 31 by omega)
  rw [absorb_eq_blocks _ (by omega), List.length_nil] at he
  rw [absorb_eq_blocks _ (by omega)] at hf
  rw [base64Decode, he, lastThree, foldl_addThree, List.nil_append, Option.bind_eq_bind,
    Option.bind_some]
  have hlt : (rest 4 (letters input)).length < 4 := length_rest (by omega) _
  have hfill : (rest 4 (letters input) ++
      List.replicate (4 - (rest 4 (letters input)).length) (0 : UInt8)).length = 4 := by
    rw [List.length_append, List.length_replicate]
    omega
  by_cases h0 : (rest 4 (letters input)).length ≠ 0
  · simp only at hf
    simp only [if_pos h0, hf.clearFrom, findBytes_eq hfill, Option.bind_eq_bind, Option.bind_some]
    exact addBytes_threes (by rw [List.length_map, hfill]) _ (by omega)
  · simp only [if_neg h0, List.append_nil]

/-- Letters, four at a time. -/
lemma octets_letters {input : Str} (h : ∀ c ∈ input, (valueOf c).isSome = true) :
    ((blocks 4 input).flatMap fun b => bytesOf (b.map findByte)) ++ lastThree (rest 4 input) =
      octets (lettersToBits input) := by
  have hval (m : Str) (c : UInt8) (hm : ∀ c ∈ m, (valueOf c).isSome = true) (hc : c ∈ m) :
      ∃ v, valueOf c = some v := Option.isSome_iff_exists.mp (hm c hc)
  induction input using block_induction (show 0 < 4 by omega) with
  | short m hm =>
    rw [blocks_short hm, rest_short hm, List.flatMap_nil, List.nil_append]
    rcases m with _ | ⟨c, _ | ⟨d, _ | ⟨e, _ | ⟨g, m⟩⟩⟩⟩
    · rfl
    · obtain ⟨v, hv⟩ := hval _ c h (by simp)
      rw [letters_one hv, octets_toBits_short (by omega)]
      rfl
    · obtain ⟨v, hv⟩ := hval _ c h (by simp)
      obtain ⟨w, hw⟩ := hval _ d h (by simp)
      obtain ⟨hv64, hvf⟩ := valueOf_spec hv
      obtain ⟨hw64, hwf⟩ := valueOf_spec hw
      rw [octets_two hv hw, ← threes_one hv64 hw64 (findByte 0) (findByte 0), ← hvf, ← hwf]
      rfl
    · obtain ⟨v, hv⟩ := hval _ c h (by simp)
      obtain ⟨w, hw⟩ := hval _ d h (by simp)
      obtain ⟨x, hx⟩ := hval _ e h (by simp)
      obtain ⟨hv64, hvf⟩ := valueOf_spec hv
      obtain ⟨hw64, hwf⟩ := valueOf_spec hw
      obtain ⟨hx64, hxf⟩ := valueOf_spec hx
      rw [octets_three hv hw hx, ← threes_two hv64 hw64 hx64 (findByte 0), ← hvf, ← hwf, ← hxf]
      rfl
    · simp only [List.length_cons] at hm
      omega
  | block b m hb ih =>
    obtain ⟨c, d, e, g, rfl⟩ : ∃ c d e g, b = [c, d, e, g] := by
      rcases b with _ | ⟨c, _ | ⟨d, _ | ⟨e, _ | ⟨g, _ | ⟨_, b⟩⟩⟩⟩⟩ <;> simp at hb ⊢
    obtain ⟨v, hv⟩ := hval _ c h (by simp)
    obtain ⟨w, hw⟩ := hval _ d h (by simp)
    obtain ⟨x, hx⟩ := hval _ e h (by simp)
    obtain ⟨y, hy⟩ := hval _ g h (by simp)
    obtain ⟨hv64, hvf⟩ := valueOf_spec hv
    obtain ⟨hw64, hwf⟩ := valueOf_spec hw
    obtain ⟨hx64, hxf⟩ := valueOf_spec hx
    obtain ⟨hy64, hyf⟩ := valueOf_spec hy
    have hblock : bytesOf ([c, d, e, g].map findByte) = [UInt8.ofNat (v * 4 + w / 16),
        UInt8.ofNat (w % 16 * 16 + x / 4), UInt8.ofNat (x % 4 * 64 + y)] := by
      rw [← threes_three hv64 hw64 hx64 hy64, ← hvf, ← hwf, ← hxf, ← hyf]
      rfl
    rw [blocks_append (by omega) hb, rest_append (by omega) hb, List.flatMap_cons,
      List.append_assoc, ih fun c hc => h c (List.mem_append_right _ hc), hblock,
      octets_four hv hw hx hy]

/-- **Decoding** follows the standard, as long as an `int` can count the letters. -/
theorem base64Decode_eq {memory : Str} (hm : memory.length = 4) (input : Str) :
    base64Decode memory input =
      if (letters input).length < 2 ^ 31 then some (Base64Standard.decode input) else none := by
  split_ifs with hin
  · have hall : ∀ c ∈ letters input, (valueOf c).isSome = true :=
      List.all_eq_true.mp List.all_takeWhile
    rw [base64Decode_blocks hm hin, octets_letters hall, Base64Standard.decode]
  · rw [base64Decode, base64DecodeLoop_overflow (by omega) (by omega)]
    rfl

/-! ### `encoding_base64_op` -/

lemma encode_eq {memory : Str} (hm : memory.length = 3) (s : Str) :
    encode memory s = some (Base64Standard.encode s) := by
  rw [encode, encodeData, peek_all rfl, Option.bind_eq_bind, Option.bind_some, base64Encode_eq hm]

/-- **Encoding**: four characters for each three bytes that are begun. -/
theorem encode_spec {memory : Str} (hm : memory.length = 3) (s : Str) :
    encode memory s = some (Base64Standard.encode s) ∧
      (Base64Standard.encode s).length = (s.length + 2) / 3 * 4 :=
  ⟨encode_eq hm s, Base64Standard.length_encode s⟩

theorem encode_spec_foob : encode [7, 7, 7] (lit ['f', 'o', 'o', 'b']) =
      some (Base64Standard.encode (lit ['f', 'o', 'o', 'b'])) ∧
    (Base64Standard.encode (lit ['f', 'o', 'o', 'b'])).length = 8 :=
  encode_spec rfl _

/-- **Decoding** gives as many whole bytes as the bits of the characters at the beginning make, as
long as an `int` can count these. -/
theorem decode_spec {memory : Str} (hm : memory.length = 4) (s : Str) :
    decode memory s =
      if (letters s).length < 2 ^ 31 then some (octets (lettersToBits (letters s))) else none := by
  rw [decode, decodeData, peek_all rfl]
  exact base64Decode_eq hm s

theorem decode_spec_foob : decode [7, 7, 7, 7] (lit ['Z', 'm', '9', 'v', 'Y', '=', 'g']) =
    some (octets (lettersToBits (lit ['Z', 'm', '9', 'v', 'Y']))) :=
  decode_spec rfl _

/-- **The round trip**, with something after what is encoded: it is decoded, too, if the last group
needed no filling, and else it is thrown away. -/
theorem decode_encode_append {memory memory' : Str} (hm : memory.length = 3)
    (hm' : memory'.length = 4) {s t : Str} (hlt : (s.length + 2) / 3 * 4 + t.length < 2 ^ 31) :
    ((encode memory s).bind fun e => decode memory' (e ++ t)) =
      if 3 ∣ s.length then (decode memory' t).map (s ++ ·) else some s := by
  have hle (u : Str) : (letters u).length ≤ u.length := (List.takeWhile_sublist _).length_le
  have h1 := hle t
  have h2 := hle (Base64Standard.encode s ++ t)
  rw [List.length_append, Base64Standard.length_encode] at h2
  have hdec (u : Str) (hu : (letters u).length < 2 ^ 31) :
      decode memory' u = some (Base64Standard.decode u) :=
    (decode_spec hm' u).trans (if_pos hu)
  rw [encode_eq hm, Option.bind_some, hdec _ (by omega), hdec t (by omega),
    Base64Standard.decode_encode]
  split_ifs
  · rfl
  · rw [List.append_nil]

theorem decode_encode_append_foob :
    ((encode [7, 7, 7] (lit ['f', 'o', 'o', 'b'])).bind fun e =>
      decode [7, 7, 7, 7] (e ++ lit ['A'])) = some (lit ['f', 'o', 'o', 'b']) :=
  decode_encode_append rfl rfl (by decide)

end Libchef.Base64Codes
