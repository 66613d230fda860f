import Libchef.StringsModel

/-!
URL encoding.

A byte below `0x80` becomes one character or an escape of two digits, and decoding reads it
back. The `char` of a byte from `0x80` on is negative: shifted right it stays negative, and
the index into the digits made of it lies far outside them.
-/

namespace Libchef.StringsUrl

open Libchef.StringsModel

/-- The characters that stand for themselves. -/
def Unreserved (c : UInt8) : Prop :=
  (chr 'A' ≤ c ∧ c ≤ chr 'Z') ∨ (chr 'a' ≤ c ∧ c ≤ chr 'z') ∨ (chr '0' ≤ c ∧ c ≤ chr '9') ∨
    c = chr '-' ∨ c = chr '_' ∨ c = chr '.' ∨ c = chr '~'

instance : DecidablePred Unreserved := fun _ => inferInstanceAs (Decidable (_ ∨ _))

/-- What an encoded text is made of. -/
inductive Encoded : Str → Prop
  | nil : Encoded []
  | char {c : UInt8} {s : Str} (hc : Unreserved c ∨ c = chr '+') (hs : Encoded s) : Encoded (c :: s)
  | escape {hi lo : UInt8} {s : Str} (hhi : hi ∈ hexdigitsUpper) (hlo : lo ∈ hexdigitsUpper)
    (hs : Encoded s) : Encoded (chr '%' :: hi :: lo :: s)

/-- The text is encoded within bounds, to an encoded text that decodes to it. -/
def RoundTrips (s : Str) : Prop := ∃ e, urlEncode s = some e ∧ Encoded e ∧ urlDecode e = s

variable {c : UInt8} {s e : Str}

/-! ### One character -/

lemma plain_iff (c : UInt8) : plain c = true ↔ Unreserved c := by
  have h : ∀ b : BitVec 8, plain (UInt8.ofBitVec b) = true ↔ Unreserved (UInt8.ofBitVec b) := by
    decide
  exact h c.toBitVec

lemma charAt_low (h : c < 0x80) :
    charAt hexdigitsUpper ((promote c).sshiftRight 4) = hexdigitsUpper[c.toNat / 16]? ∧
      charAt hexdigitsUpper (promote c &&& 15) = hexdigitsUpper[c.toNat % 16]? := by
  have h' : ∀ b : BitVec 8, UInt8.ofBitVec b < 0x80 →
      charAt hexdigitsUpper ((promote (UInt8.ofBitVec b)).sshiftRight 4) =
          hexdigitsUpper[(UInt8.ofBitVec b).toNat / 16]? ∧
        charAt hexdigitsUpper (promote (UInt8.ofBitVec b) &&& 15) =
          hexdigitsUpper[(UInt8.ofBitVec b).toNat % 16]? := by
    decide
  exact h' c.toBitVec h

/-- From `0x80` on the first read is out of bounds. -/
lemma charAt_high (h : ¬ c < 0x80) :
    charAt hexdigitsUpper ((promote c).sshiftRight 4) = none := by
  have h' : ∀ b : BitVec 8, ¬ UInt8.ofBitVec b < 0x80 →
      charAt hexdigitsUpper ((promote (UInt8.ofBitVec b)).sshiftRight 4) = none := by
    decide
  exact h' c.toBitVec h

lemma unhexPair_digits : ∀ i < 16, ∀ j < 16,
    unhexPair (hexdigitsUpper.getD i 0) (hexdigitsUpper.getD j 0) = UInt8.ofNat (16 * i + j) := by
  decide

lemma mem_hexdigits_of_upper : ∀ d ∈ hexdigitsUpper, d ∈ hexdigits := by decide +kernel

lemma unhexPair_halves (c : UInt8) :
    unhexPair (hexdigitsUpper.getD (c.toNat / 16) 0)
      (hexdigitsUpper.getD (c.toNat % 16) 0) = c := by
  have hlt := c.toNat_lt
  rw [unhexPair_digits _ (by omega) _ (by omega), Nat.div_add_mod, UInt8.ofNat_toNat]

lemma unreserved_low (h : Unreserved c) : c < 0x80 ∧ c ≠ chr '%' ∧ c ≠ chr '+' := by
  have h' : ∀ b : BitVec 8, Unreserved (UInt8.ofBitVec b) → UInt8.ofBitVec b < 0x80 ∧
      UInt8.ofBitVec b ≠ chr '%' ∧ UInt8.ofBitVec b ≠ chr '+' := by
    decide
  exact h' c.toBitVec h

lemma decodeLoop_char (h1 : c ≠ chr '%') (h2 : c ≠ chr '+') (s : Str) :
    decodeLoop (c :: s) = (decodeLoop s).map (c :: ·) := by
  rw [decodeLoop.eq_def]
  simp only [if_neg h1, if_neg h2]

lemma decodeLoop_plus (s : Str) :
    decodeLoop (chr '+' :: s) = (decodeLoop s).map (chr ' ' :: ·) := by
  have h : chr '+' ≠ chr '%' := by decide
  rw [decodeLoop.eq_def]
  simp only [if_neg h, if_true]

lemma decodeLoop_escape {hi lo : UInt8} (hhi : hi ∈ hexdigits) (hlo : lo ∈ hexdigits) (s : Str) :
    decodeLoop (chr '%' :: hi :: lo :: s) = (decodeLoop s).map (unhexPair hi lo :: ·) := by
  rw [decodeLoop.eq_def]
  simp only [if_true, if_pos (And.intro hhi hlo)]

/-- **One round**: a byte below `0x80` becomes a piece of an encoded text, which reads back. -/
theorem encodeChar_low (h : c < 0x80) :
    ∃ e, encodeChar c = some e ∧ (∀ s, Encoded s → Encoded (e ++ s)) ∧
      ∀ s, decodeLoop (e ++ s) = (decodeLoop s).map (c :: ·) := by
  unfold encodeChar
  by_cases hp : plain c = true
  · have hu := (plain_iff c).mp hp
    obtain ⟨-, h1, h2⟩ := unreserved_low hu
    exact ⟨[c], if_pos hp, fun s => .char (Or.inl hu), decodeLoop_char h1 h2⟩
  by_cases hb : c = chr ' '
  · subst hb
    exact ⟨[chr '+'], by rw [if_neg hp, if_pos rfl], fun s => .char (Or.inr rfl),
      decodeLoop_plus⟩
  · obtain ⟨h1, h2⟩ := charAt_low h
    have hlt := c.toNat_lt
    have hlen : hexdigitsUpper.length = 16 := rfl
    have hdigit : ∀ i < 16, hexdigitsUpper[i]? = some (hexdigitsUpper.getD i 0) ∧
        hexdigitsUpper.getD i 0 ∈ hexdigitsUpper := by decide
    obtain ⟨e1, m1⟩ := hdigit (c.toNat / 16) (by omega)
    obtain ⟨e2, m2⟩ := hdigit (c.toNat % 16) (by omega)
    refine ⟨_, by rw [if_neg hp, if_neg hb, h1, e1, h2, e2]; rfl, fun s => .escape m1 m2,
      fun s => ?_⟩
    have hd := decodeLoop_escape (mem_hexdigits_of_upper _ m1) (mem_hexdigits_of_upper _ m2) s
    rwa [unhexPair_halves] at hd

lemma encodeChar_high (h : ¬ c < 0x80) : encodeChar c = none := by
  have hp : ¬ plain c = true := fun hp => h (unreserved_low ((plain_iff c).mp hp)).1
  have hb : c ≠ chr ' ' := by
    rintro rfl
    exact h (by decide)
  rw [encodeChar, if_neg hp, if_neg hb, charAt_high h]
  rfl

/-! ### The whole text -/

lemma encodeLoop_low (h : ∀ c ∈ s, c < 0x80) :
    ∃ e, encodeLoop s = some e ∧ Encoded e ∧ decodeLoop e = some s := by
  induction s with
  | nil => exact ⟨[], rfl, .nil, rfl⟩
  | cons c s ih =>
    obtain ⟨e, he, hc, hd⟩ := encodeChar_low (h c (by simp))
    obtain ⟨es, hes, hcs, hds⟩ := ih fun x hx => h x (by simp [hx])
    exact ⟨e ++ es, by simp [encodeLoop, he, hes], hc es hcs, by rw [hd, hds]; rfl⟩

lemma low_of_encodeLoop (h : encodeLoop s = some e) : ∀ c ∈ s, c < 0x80 := by
  induction s generalizing e with
  | nil => simp
  | cons c s ih =>
    simp only [encodeLoop, Option.bind_eq_bind, Option.bind_eq_some_iff] at h
    obtain ⟨e₁, h₁, e₂, h₂, -⟩ := h
    intro x hx
    rcases List.mem_cons.mp hx with rfl | hx
    · by_contra hc
      rw [encodeChar_high hc] at h₁
      cases h₁
    · exact ih h₂ x hx

/-- **When a text survives.** It is encoded within bounds, and decoded to itself, if and only if
all its bytes are below `0x80`. -/
theorem roundTrips_iff (s : Str) : RoundTrips s ↔ ∀ c ∈ s, c < 0x80 := by
  constructor
  · rintro ⟨e, he, -, -⟩
    unfold urlEncode at he
    split_ifs at he with hs
    · simp [hs]
    · exact low_of_encodeLoop he
  · intro h
    by_cases hs : s = []
    · exact ⟨s, if_pos hs, hs ▸ .nil, if_pos hs⟩
    obtain ⟨e, he, hc, hd⟩ := encodeLoop_low h
    refine ⟨e, by rw [urlEncode, if_neg hs, he], hc, ?_⟩
    have hne : e ≠ [] := by
      rintro rfl
      exact hs (Option.some.inj hd).symm
    rw [urlDecode, if_neg hne, hd]
    rfl

/-- The first byte of a character outside ASCII makes the encoder read out of bounds. -/
theorem urlEncode_out_of_bounds : urlEncode [0xE4, 0xB8, 0xAD] = none ∧
    ¬ RoundTrips [0xE4, 0xB8, 0xAD] := by
  refine ⟨by decide, ?_⟩
  rintro ⟨e, he, -⟩
  rw [show urlEncode [0xE4, 0xB8, 0xAD] = none by decide] at he
  cases he

end Libchef.StringsUrl
