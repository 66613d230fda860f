import Libchef.Base.Runs
import Libchef.HmacModel
import Libchef.HmacStandard
import Libchef.Sha256Digest

/-!
What the codes are: for any calls on an object, whatever its key and its text.

A key whose length is not an `int` counts as none. The second code asked for without a new key is
not the one of the text.
-/

namespace Libchef.HmacRun

open Libchef.StringsModel Libchef.Alloc Libchef.Numeral Libchef.Runs Libchef.HexModel
open Libchef.Sha256Model Libchef.Sha256Run Libchef.Sha256Digest
open Libchef.HmacModel Libchef.HmacStandard

/-! ### The key -/

/-- A byte of the key is written to both arrays. -/
def xorAll (pad : UInt8) (K : Str) : Str := K.map fun b => b ^^^ pad

lemma length_xorAll (pad : UInt8) (K : Str) : (xorAll pad K).length = K.length := List.length_map _

lemma keyLoop_append (i : ℕ) (u v : Str) (pads : Str × Str) :
    keyLoop i (u ++ v) pads = (keyLoop i u pads).bind (keyLoop (i + u.length) v) := by
  induction u generalizing i pads with
  | nil => rfl
  | cons b u ih =>
    rw [List.cons_append, keyLoop, keyLoop, Option.bind_eq_bind, Option.bind_assoc,
      List.length_cons]
    refine congrArg _ (funext fun pads => ?_)
    rw [ih, show i + 1 + u.length = i + (u.length + 1) by omega]

lemma restLoop_eq (left i : ℕ) (pads : Str × Str) :
    restLoop left i pads = keyLoop i (List.replicate left 0) pads := by
  induction left generalizing i pads with
  | zero => rfl
  | succ left ih => simp only [restLoop, List.replicate_succ, keyLoop, ih, UInt8.zero_xor]

/-- The loop over the key fills both arrays. -/
lemma keyLoop_eq (K : Str) {i : ℕ} {ipad opad : Str} (hi : i + K.length ≤ ipad.length)
    (ho : i + K.length ≤ opad.length) :
    keyLoop i K (ipad, opad) =
      some (splice ipad i (xorAll 0x36 K), splice opad i (xorAll 0x5c K)) := by
  induction K generalizing i ipad opad with
  | nil => simp [keyLoop, xorAll, splice]
  | cons b K ih =>
    rw [List.length_cons] at hi ho
    have hb (c : UInt8) (l : Str) (h : i + (K.length + 1) ≤ l.length) :
        i + [c].length ≤ l.length := by
      rw [List.length_singleton]
      omega
    have hnext (c pad : UInt8) (l : Str) (h : i + (K.length + 1) ≤ l.length) :
        splice (splice l i [c]) (i + 1) (xorAll pad K) = splice l i (c :: xorAll pad K) :=
      splice_splice (u := [c]) (v := []) (hb c l h) (Nat.zero_le _)
    have hi' := hb (b ^^^ 0x36) ipad hi
    have ho' := hb (b ^^^ 0x5c) opad ho
    simp only [keyLoop, padAt, poke_eq hi', poke_eq ho', Option.bind_eq_bind, Option.bind_some]
    rw [ih (by rw [length_splice hi']; omega) (by rw [length_splice ho']; omega), hnext _ _ _ hi,
      hnext _ _ _ ho]
    rfl

lemma loops_eq {K ipad opad : Str} (hK : K.length ≤ 64) (hi : ipad.length = 64)
    (ho : opad.length = 64) :
    (keyLoop 0 K (ipad, opad)).bind (restLoop (64 - K.length) K.length) =
      some (xorAll 0x36 (K ++ List.replicate (64 - K.length) 0),
        xorAll 0x5c (K ++ List.replicate (64 - K.length) 0)) := by
  have hlen : (K ++ List.replicate (64 - K.length) 0).length = 64 := by
    rw [List.length_append, List.length_replicate]
    omega
  have happ := keyLoop_append 0 K (List.replicate (64 - K.length) 0) (ipad, opad)
  rw [Nat.zero_add] at happ
  simp only [restLoop_eq]
  rw [← happ, keyLoop_eq _ (by omega) (by omega), splice_all (by rw [length_xorAll, hlen, hi]),
    splice_all (by rw [length_xorAll, hlen, ho])]

/-- The bytes that are the key. -/
def keyOf (key : Str) (keyLen : Word) : Str :=
  if keyLen.toInt < 0 then [] else key.take keyLen.toNat

/-- The caller has as many bytes of the key as it says. -/
def KeyValid (key : Str) (keyLen : Word) : Prop := 0 ≤ keyLen.toInt → keyLen.toNat ≤ key.length

/-- The arrays have their lengths. -/
structure LocalsValid (locals : ResetLocals) : Prop where
  kIpad : locals.kIpad.length = 64
  tempkey : locals.tempkey.length = 32
  sha : locals.sha.length = 64

lemma toInt_of_nonneg {w : Word} (h : 0 ≤ w.toInt) : w.toInt = w.toNat := by
  have hlt := w.isLt
  rw [BitVec.toInt_eq_toNat_cond] at h ⊢
  split_ifs at h ⊢ <;> omega

/-- What `reset` puts in the arrays is made of a key that is not longer than a block. -/
lemma reset_key {locals : ResetLocals} (hl : LocalsValid locals) {key : Str} {keyLen : Word}
    (hk : KeyValid key keyLen) :
    ∃ K : Str, K.length ≤ 64 ∧
      K ++ List.replicate (64 - K.length) 0 = blockKey Sha256Standard.digest 64 (keyOf key keyLen) ∧
      ∀ h : Hmac, h.reset locals key keyLen =
        ((keyLoop 0 K (locals.kIpad, h.kOpad_)).bind (restLoop (64 - K.length) K.length)).bind
          fun pads => (h.hasher_.reset.input pads.1 64).bind fun hasher =>
            some ⟨pads.2, hasher⟩ := by
  by_cases hlong : keyLen.toInt > 64
  · -- the digest is the key
    have hint := toInt_of_nonneg (Int.le_of_lt (Int.lt_trans (by decide) hlong))
    have hle := hk (by omega)
    have hkey : keyOf key keyLen = key.take keyLen.toNat := if_neg (by omega)
    have hlen : (key.take keyLen.toNat).length = keyLen.toNat := by
      rw [List.length_take]
      omega
    have hw := keyLen.isLt
    have hnew : Represents (Sha256Model.new locals.sha) (.absorbing []) := absorbing_new hl.sha
    obtain ⟨s, hs, hr⟩ := input_view hnew hle
    obtain ⟨t, ht, -⟩ := result_view hr hl.tempkey
    have hview : View.input (key.take keyLen.toNat) (.absorbing []) =
        .absorbing (key.take keyLen.toNat) := by
      rw [View.input, View.took, List.nil_append, if_pos (by omega)]
    rw [hview, View.digest] at ht
    have hdig := Sha256Standard.length_digest (bytesToBits (key.take keyLen.toNat))
    refine ⟨_, by rw [hdig]; omega, ?_, fun h => ?_⟩
    · rw [hkey, blockKey, hlen, if_pos (by omega)]
    · have hgo : keyLen.toInt > (BLOCK_SIZE : ℤ) := hlong
      rw [Hmac.reset, if_pos hgo, hs, hdig]
      simp only [Option.bind_eq_bind, Option.bind_some, ht, HASH_SIZE, Int.toNat_natCast,
        peek_all hdig, Option.bind_assoc, BLOCK_SIZE]
      rfl
  · have hkey : (keyOf key keyLen).length = keyLen.toInt.toNat ∧
        peek key 0 keyLen.toInt.toNat = some (keyOf key keyLen) := by
      by_cases hneg : keyLen.toInt < 0
      · rw [keyOf, if_pos hneg, Int.toNat_of_nonpos (by omega)]
        exact ⟨rfl, peek_eq (Nat.zero_le _)⟩
      · have hint := toInt_of_nonneg (Int.not_lt.mp hneg)
        have hle := hk (Int.not_lt.mp hneg)
        rw [keyOf, if_neg hneg, hint, Int.toNat_natCast, peek_eq (by omega), window, List.drop_zero,
          List.length_take]
        exact ⟨by omega, rfl⟩
    have hshort : (keyOf key keyLen).length ≤ 64 := by omega
    refine ⟨keyOf key keyLen, hshort, ?_, fun h => ?_⟩
    · rw [blockKey, if_neg (by omega)]
    · have hgo : ¬ keyLen.toInt > (BLOCK_SIZE : ℤ) := hlong
      rw [Hmac.reset, if_neg hgo]
      simp only [Option.bind_eq_bind, Option.bind_some, hkey.1, hkey.2, Option.bind_assoc,
        BLOCK_SIZE]
      rfl

/-! ### Calls in any order -/

/-- What an object stands for, the key apart: the text so far, a whole text, a code that has been
asked for, or nothing any more. -/
inductive Text
  | taking (m : Str)
  | ended (M : List Bool)
  | done (mac : Str)
  | corrupted

/-- A call. `reset` comes with the memory of its local variables, and `result` with the buffer of
the caller. -/
inductive Call
  | reset (locals : ResetLocals) (key : Str) (keyLen : Word)
  | input (text : Str) (textLen : Word)
  | finalBits (bits : UInt8) (bitcount : Word)
  | result (digest : Str)

/-- The caller has as many bytes as it says, and room for the code. -/
def Call.Valid : Call → Prop
  | .reset locals key keyLen => LocalsValid locals ∧ KeyValid key keyLen
  | .input text textLen => textLen.toNat ≤ text.length
  | .finalBits _ _ => True
  | .result digest => digest.length = 32

/-- The object, and the buffers after the calls of `result` so far. -/
def next : Hmac × List Str → Call → Option (Hmac × List Str)
  | (h, out), .reset locals key keyLen => do
    let h ← h.reset locals key keyLen
    some (h, out)
  | (h, out), .input text textLen => do
    let h ← h.input text textLen
    some (h, out)
  | (h, out), .finalBits bits bitcount => do
    let h ← h.finalBits bits bitcount
    some (h, out)
  | (h, out), .result digest => do
    let (h, digest) ← h.result digest
    some (h, out ++ [digest])

namespace Text

/-- The bits of the block of the key are counted, too. -/
def input (a : Str) : Text → Text
  | .taking m => if 64 + (m ++ a).length < 2 ^ 61 then .taking (m ++ a) else .corrupted
  | x => x

def finalBits (b : UInt8) (length : ℕ) (x : Text) : Text :=
  if length = 0 then x
  else
    match x with
    | .taking m =>
      if length < 8 then .ended (bytesToBits m ++ (toBits 8 b.toNat).take length) else .corrupted
    | _ => .corrupted

/-- **The code**, when `before` is in the buffer of the caller. After a code, or for too long a
text, it is not one of the text. -/
def mac (K before : Str) : Text → Str
  | .taking m => hmac Sha256Standard.digest 64 K (bytesToBits m)
  | .ended M => hmac Sha256Standard.digest 64 K M
  | .done mac => outerHash Sha256Standard.digest 64 K mac
  | .corrupted => outerHash Sha256Standard.digest 64 K before

/-- The calls in terms of keys and texts. -/
def next (st : (Str × Text) × List Str) : Call → (Str × Text) × List Str
  | .reset _ key keyLen => ((keyOf key keyLen, .taking []), st.2)
  | .input text textLen => ((st.1.1, st.1.2.input (text.take textLen.toNat)), st.2)
  | .finalBits bits bitcount => ((st.1.1, st.1.2.finalBits bits bitcount.toNat), st.2)
  | .result digest =>
    ((st.1.1, .done (st.1.2.mac st.1.1 digest)), st.2 ++ [st.1.2.mac st.1.1 digest])

end Text

/-- What the hasher stands for. -/
def Hashes (s : Sha256) (ipad : Str) : Text → Prop
  | .taking m => Represents s (.absorbing (ipad ++ m))
  | .ended M => Represents s (.finished (bytesToBits ipad ++ M))
  | .done mac => ∃ M, Represents s (.finished M) ∧ mac = Sha256Standard.digest M
  | .corrupted => Represents s .corrupted

/-- The object has the key `K`, and stands for `x`. -/
structure Stands (h : Hmac) (K : Str) (x : Text) : Prop where
  opad : h.kOpad_ = xorKey Sha256Standard.digest 64 K 0x5c
  hashes : Hashes h.hasher_ (xorKey Sha256Standard.digest 64 K 0x36) x

lemma length_xorKey (K : Str) (pad : UInt8) :
    (xorKey Sha256Standard.digest 64 K pad).length = 64 := by
  rw [xorKey, List.length_map, blockKey, List.length_append, List.length_replicate]
  split_ifs with h
  · rw [Sha256Standard.length_digest]
  · omega

lemma input_absorbing {s : Sha256} {m a : Str} (h : Represents s (.absorbing m)) {length : Word}
    (hl : length.toNat = a.length) (hlt : (m ++ a).length < 2 ^ 61) :
    ∃ t, s.input a length = some t ∧ Represents t (.absorbing (m ++ a)) := by
  obtain ⟨t, ht, hr⟩ := input_view h (Nat.le_of_eq hl)
  rw [hl, List.take_length, View.input, View.took, if_pos hlt] at hr
  exact ⟨t, ht, hr⟩

section Steps

variable {h : Hmac} {K : Str} {x : Text}

lemma reset_stands (hs : h.hasher_.messageBlock_.length = 64) (ho : h.kOpad_.length = 64)
    {locals : ResetLocals} (hl : LocalsValid locals) {key : Str} {keyLen : Word}
    (hk : KeyValid key keyLen) :
    ∃ t, h.reset locals key keyLen = some t ∧ Stands t (keyOf key keyLen) (.taking []) := by
  obtain ⟨K, hK, hblock, hreset⟩ := reset_key hl hk
  have hstart : Represents h.hasher_.reset (.absorbing []) := absorbing_reset hs
  have hlen := length_xorKey (keyOf key keyLen) 0x36
  obtain ⟨t, ht, hr⟩ := input_absorbing hstart (show (64 : Word).toNat = _ from hlen.symm)
    (by rw [List.nil_append, hlen]; omega)
  refine ⟨⟨xorKey Sha256Standard.digest 64 (keyOf key keyLen) 0x5c, t⟩, ?_, rfl,
    by simpa [Hashes] using hr⟩
  rw [hreset, loops_eq hK hl.kIpad ho, Option.bind_some, hblock]
  exact congrArg (Option.bind · _) ht

lemma input_stands (hh : Stands h K x) {text : Str} {textLen : Word}
    (hl : textLen.toNat ≤ text.length) :
    ∃ t, h.input text textLen = some t ∧ Stands t K (x.input (text.take textLen.toNat)) := by
  have hx := hh.hashes
  have hgo {v : View} (hv : Represents h.hasher_ v) : ∃ t, h.input text textLen =
      some { h with hasher_ := t } ∧ Represents t (v.input (text.take textLen.toNat)) := by
    obtain ⟨t, ht, hr⟩ := input_view hv hl
    refine ⟨t, ?_, hr⟩
    rw [Hmac.input, ht]
    rfl
  rcases x with m | M | mac | _
  · obtain ⟨t, ht, hr⟩ := hgo (v := .absorbing _) hx
    refine ⟨_, ht, hh.opad, ?_⟩
    have hlen := length_xorKey K 0x36
    rw [View.input, View.took, List.append_assoc, List.length_append, hlen] at hr
    rw [Text.input]
    split_ifs at hr ⊢
    · exact hr
    · exact hr
  · obtain ⟨t, ht, hr⟩ := hgo (v := .finished _) hx
    exact ⟨_, ht, hh.opad, hr⟩
  · obtain ⟨M, hM, hmac⟩ := hx
    obtain ⟨t, ht, hr⟩ := hgo hM
    exact ⟨_, ht, hh.opad, M, hr, hmac⟩
  · obtain ⟨t, ht, hr⟩ := hgo (v := .corrupted) hx
    exact ⟨_, ht, hh.opad, hr⟩

/-- The digest of whatever the hasher made of it. -/
lemma result_outer (ho : h.kOpad_ = xorKey Sha256Standard.digest 64 K 0x5c) {v : View}
    (hv : Represents h.hasher_ v) {digest : Str} (hd : digest.length = 32) :
    ∃ t, h.result digest = some (t, outerHash Sha256Standard.digest 64 K (v.digest digest)) ∧
      Stands t K (.done (outerHash Sha256Standard.digest 64 K (v.digest digest))) := by
  have hlen := length_xorKey K 0x5c
  have hdig : (v.digest digest).length = 32 := View.length_digest hd
  obtain ⟨s, hs, hr⟩ := result_view hv hd
  have hreset : Represents s.reset (.absorbing []) := absorbing_reset (size_of_represents hr)
  obtain ⟨t, ht, hr⟩ := input_absorbing hreset (show (64 : Word).toNat = _ from hlen.symm)
    (by rw [List.nil_append, hlen]; omega)
  obtain ⟨u, hu, hr⟩ := input_absorbing hr (show (32 : Word).toNat = _ from hdig.symm)
    (by rw [List.length_append, List.nil_append, hlen, hdig]; omega)
  obtain ⟨w, hw, hr⟩ := result_view hr hdig
  rw [List.nil_append] at hw hr
  change u.result _ = some (w, outerHash Sha256Standard.digest 64 K (v.digest digest)) at hw
  refine ⟨{ h with hasher_ := w }, ?_, ho, _, hr, rfl⟩
  have h64 : BitVec.ofNat 32 BLOCK_SIZE = 64 := rfl
  have h32 : BitVec.ofNat 32 HASH_SIZE = 32 := rfl
  simp only [Hmac.result, hs, ho, h64, h32, ht, hu, hw, Option.bind_eq_bind, Option.bind_some]

lemma result_stands (hh : Stands h K x) {digest : Str} (hd : digest.length = 32) :
    ∃ t, h.result digest = some (t, x.mac K digest) ∧ Stands t K (.done (x.mac K digest)) := by
  have hx := hh.hashes
  rcases x with m | M | mac | _
  · have hinner : innerHash Sha256Standard.digest 64 K (bytesToBits m) =
        View.digest digest (.absorbing (xorKey Sha256Standard.digest 64 K 0x36 ++ m)) := by
      rw [innerHash, View.digest, bytesToBits_append]
    rw [Text.mac, hmac, hinner]
    exact result_outer hh.opad (v := .absorbing _) hx hd
  · exact result_outer hh.opad (v := .finished _) hx hd
  · obtain ⟨M, hM, rfl⟩ := hx
    exact result_outer hh.opad hM hd
  · exact result_outer hh.opad (v := .corrupted) hx hd

end Steps

section Functions

variable {kOpad block : Str} {locals : ResetLocals}

lemma new_stands (ho : kOpad.length = 64) (hb : block.length = 64) (hl : LocalsValid locals)
    {key : Str} {keyLen : Word} (hk : KeyValid key keyLen) :
    ∃ h, Hmac.new kOpad block locals key keyLen = some h ∧
      Stands h (keyOf key keyLen) (.taking []) :=
  reset_stands (h := ⟨kOpad, Sha256Model.new block⟩) hb ho hl hk

/-- A list of pieces and their lengths. -/
def textOf (chunks : List (Str × ℕ)) : Str := chunks.flatMap fun c => c.1.take (c.2 % 2 ^ 32)

lemma updates_stands {h : Hmac} {K m : Str} (hh : Stands h K (.taking m)) {chunks : List (Str × ℕ)}
    (hc : ∀ c ∈ chunks, c.2 % 2 ^ 32 ≤ c.1.length)
    (hlt : 64 + (m ++ textOf chunks).length < 2 ^ 61) :
    ∃ t, chunks.foldlM (fun h c => update h c.1 c.2) h = some t ∧
      Stands t K (.taking (m ++ textOf chunks)) := by
  induction chunks generalizing h m with
  | nil => exact ⟨h, rfl, by simpa [textOf] using hh⟩
  | cons c chunks ih =>
    have hlen : (BitVec.ofNat 32 c.2).toNat = c.2 % 2 ^ 32 := BitVec.toNat_ofNat _ _
    have hcut : m ++ textOf (c :: chunks) = m ++ c.1.take (c.2 % 2 ^ 32) ++ textOf chunks := by
      rw [textOf, List.flatMap_cons, List.append_assoc, textOf]
    rw [hcut] at hlt ⊢
    obtain ⟨t, ht, hs⟩ := input_stands hh (hlen.trans_le (hc c List.mem_cons_self))
    rw [List.length_append] at hlt
    rw [hlen, Text.input, if_pos (by omega)] at hs
    obtain ⟨u, hu, hsu⟩ := ih hs (fun c hm => hc c (List.mem_cons_of_mem _ hm))
      (by rwa [List.length_append])
    refine ⟨u, ?_, hsu⟩
    rw [List.foldlM_cons, update, ht, Option.bind_eq_bind, Option.bind_some, hu]

/-- **Any cutting** of a text, with lengths that are taken modulo `2 ^ 32`: the code of the
standard. A key of `2 ^ 31` bytes counts as none. -/
theorem hmac_chunks (ho : kOpad.length = 64) (hb : block.length = 64) (hl : LocalsValid locals)
    {key : Str} {keyLen : ℕ} (hk : KeyValid key (BitVec.ofNat 32 keyLen))
    {chunks : List (Str × ℕ)} (hc : ∀ c ∈ chunks, c.2 % 2 ^ 32 ≤ c.1.length)
    (hlt : 64 + (textOf chunks).length < 2 ^ 61) {dst : Str} (hd : dst.length = 32) :
    ∃ h t u, HmacModel.new kOpad block locals key keyLen = some h ∧
      chunks.foldlM (fun h c => update h c.1 c.2) h = some t ∧
      final t dst = some (u, hmac Sha256Standard.digest 64 (keyOf key (BitVec.ofNat 32 keyLen))
        (bytesToBits (textOf chunks))) := by
  obtain ⟨h, hnew, hs⟩ := new_stands ho hb hl hk
  obtain ⟨t, ht, hst⟩ := updates_stands hs hc hlt
  obtain ⟨u, hu, -⟩ := result_stands hst hd
  exact ⟨h, t, u, hnew, ht, hu⟩

theorem hmac_chunks_negative :
    ∃ h t u, HmacModel.new (List.replicate 64 7) (List.replicate 64 7)
        ⟨List.replicate 64 7, List.replicate 32 7, List.replicate 64 7⟩ [107] (2 ^ 31) = some h ∧
      [([97, 98], 2), ([99], 2 ^ 32 + 1)].foldlM (fun h c => update h c.1 c.2) h = some t ∧
      final t (List.replicate 32 7) =
        some (u, hmac Sha256Standard.digest 64 [] (bytesToBits [97, 98, 99])) := by
  have hmem : (List.replicate 64 7 : Str).length = 64 := List.length_replicate
  exact hmac_chunks hmem hmem
    (show LocalsValid ⟨List.replicate 64 7, List.replicate 32 7, List.replicate 64 7⟩ from
      ⟨hmem, List.length_replicate, hmem⟩)
    (show KeyValid [107] (BitVec.ofNat 32 (2 ^ 31)) from fun h => absurd h (by decide))
    (show ∀ c ∈ ([([97, 98], 2), ([99], 2 ^ 32 + 1)] : List (Str × ℕ)),
      c.2 % 2 ^ 32 ≤ c.1.length by decide) (by decide) List.length_replicate

/-- **A text as a whole**: its code in hex. -/
theorem calcHex_eq (ho : kOpad.length = 64) (hb : block.length = 64) (hl : LocalsValid locals)
    {key text : Str} {keyLen textLen : Word} (hk : KeyValid key keyLen)
    (ht : textLen.toNat ≤ text.length) {digest : Str} (hd : digest.length = 32) :
    Hmac.calcHex kOpad block locals text textLen key keyLen digest =
      some ((hmac Sha256Standard.digest 64 (keyOf key keyLen)
        (bytesToBits (text.take textLen.toNat))).flatMap hexField) := by
  have hlen := textLen.isLt
  obtain ⟨h, hnew, hs⟩ := new_stands ho hb hl hk
  obtain ⟨t, htext, hst⟩ := input_stands hs ht
  rw [Text.input, List.nil_append, List.length_take, if_pos (by omega)] at hst
  obtain ⟨u, hu, -⟩ := result_stands hst hd
  simp only [Hmac.calcHex, Hmac.calcDigest, hnew, htext, hu, Option.bind_eq_bind, Option.bind_some,
    Text.mac]
  exact printDigest_digest _

end Functions

end Libchef.HmacRun
