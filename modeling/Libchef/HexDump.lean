import Libchef.Base.Lines
import Libchef.HexModel
import Libchef.StringsDecode

/-!
The lines of a hex dump.

A line shows its bytes as hex groups and, behind a margin, as text. The groups of the last line are
filled up to the width of a full one, for which the width has to be an `int`.
-/

namespace Libchef.HexDump

open Libchef.Lines Libchef.StringsModel Libchef.StringsDecode Libchef.HexModel

/-- The bytes that the groups of two hex digits in a text stand for. -/
def hexGroups : Str → Str
  | a :: b :: s =>
    match hexValue a, hexValue b with
    | some i, some j => UInt8.ofNat (16 * i + j) :: hexGroups s
    | _, _ => hexGroups (b :: s)
  | _ => []

/-- A byte in the text part: itself if it can be printed. -/
def asText (b : UInt8) : UInt8 := if 0x20 ≤ b ∧ b ≤ 0x7e then b else chr '.'

/-- The lines of a dump without their ends. -/
def rows (out : Str) : List Str := (lines lf out).map (body lf)

/-- The bytes that a line shows. -/
def bytesOf (numPerLine : ℕ) (row : Str) : Str := hexGroups (row.take (3 * numPerLine - 1))

/-- A text is a dump of the buffer. -/
structure Dumps (buf : Str) (numPerLine : ℕ) (withAscii : Bool) (out : Str) : Prop where
  ended : ∀ w ∈ lines lf out, w.getLast? = some lf
  count : (rows out).length = (buf.length + numPerLine - 1) / numPerLine
  bytes : (rows out).flatMap (bytesOf numPerLine) = buf
  full : ∀ row ∈ (rows out).dropLast, (bytesOf numPerLine row).length = numPerLine
  text : withAscii = true → ∀ row ∈ rows out,
    row.drop (3 * numPerLine + 3) = (bytesOf numPerLine row).map asText

variable {buf c : Str} {b : UInt8} {k n i : ℕ} {withAscii : Bool}

/-! ### One byte -/

/-- The hex digit of a number below 16. -/
def nibble (d : ℕ) : UInt8 := hexdigits.getD d 0

lemma nibble_spec : ∀ d < 16, hexValue (nibble d) = some d ∧ nibble d ≠ lf := by
  decide

lemma hexField_ofNat : ∀ n < 256,
    hexField (UInt8.ofNat n) = [nibble (n / 16), nibble (n % 16)] := by
  decide +kernel

/-- The codes of the characters that the source can print. -/
def printableCodes : List ℕ :=
  List.range' 48 10 ++ List.range' 97 26 ++ List.range' 65 26 ++
    (List.range' 33 15 ++ List.range' 58 7 ++ List.range' 91 6 ++ List.range' 123 4 ++ [32])

lemma printableCodes_eq : printableAscii.map UInt8.toNat = printableCodes := by
  decide

lemma mem_printableCodes (n : ℕ) : n ∈ printableCodes ↔ 0x20 ≤ n ∧ n ≤ 0x7e := by
  simp only [printableCodes, List.mem_append, List.mem_range'_1, List.mem_singleton]
  omega

lemma hexField_eq (b : UInt8) : hexField b = [nibble (b.toNat / 16), nibble (b.toNat % 16)] := by
  have h := hexField_ofNat b.toNat b.toNat_lt
  rwa [UInt8.ofNat_toNat] at h

lemma asciiItem_eq (b : UInt8) : asciiItem b = asText b := by
  have hmem : b ∈ printableAscii ↔ 0x20 ≤ b.toNat ∧ b.toNat ≤ 0x7e := by
    rw [← mem_printableCodes, ← printableCodes_eq, List.mem_map]
    exact ⟨fun h => ⟨b, h, rfl⟩, fun ⟨c, hc, he⟩ => UInt8.toNat_inj.mp he ▸ hc⟩
  unfold asciiItem asText
  simp only [hmem, UInt8.le_iff_toNat_le]
  rfl

lemma asText_ne_lf (b : UInt8) : asText b ≠ lf := by
  unfold asText
  split_ifs with h
  · rintro rfl
    exact absurd h.1 (by decide)
  · decide

lemma hexGroups_hexField (b : UInt8) (s : Str) :
    hexGroups (hexField b ++ s) = b :: hexGroups s := by
  have hlt := b.toNat_lt
  have hhi := nibble_spec (b.toNat / 16) (by omega)
  have hlo := nibble_spec (b.toNat % 16) (by omega)
  rw [hexField_eq]
  simp only [List.cons_append, List.nil_append, hexGroups, hhi.1, hlo.1]
  rw [Nat.div_add_mod, UInt8.ofNat_toNat]

lemma hexGroups_flatMap (l : Str) : hexGroups (l.flatMap hexField) = l := by
  induction l with
  | nil => rfl
  | cons b l ih => rw [List.flatMap_cons, hexGroups_hexField, ih]

lemma hexGroups_blank (s : Str) : hexGroups (chr ' ' :: s) = hexGroups s := by
  have hblank : hexValue (chr ' ') = none := by decide
  cases s with
  | nil => rfl
  | cons c s => simp only [hexGroups, hblank]

lemma hexGroups_blanks (n : ℕ) : hexGroups (List.replicate n (chr ' ')) = [] := by
  induction n with
  | zero => rfl
  | succ n ih => rw [List.replicate_succ, hexGroups_blank, ih]

/-! ### The bytes of a line -/

/-- The hex groups of some bytes, with a blank between two. -/
def hexText (c : Str) : Str := (c.mapIdx hexItem).flatten

lemma hexText_cons (b : UInt8) (c : Str) :
    hexText (b :: c) = hexField b ++ c.flatMap fun b => chr ' ' :: hexField b := by
  have hrest (m : ℕ) : (c.mapIdx fun j => hexItem (j + m + 1)).flatten =
      c.flatMap fun b => chr ' ' :: hexField b := by
    induction c generalizing m with
    | nil => rfl
    | cons b c ih =>
      rw [List.mapIdx_cons, List.flatten_cons, List.flatMap_cons, ← ih (m + 1)]
      simp only [Nat.add_right_comm _ 1 m, ← Nat.add_assoc]
      rfl
  rw [hexText, List.mapIdx_cons, List.flatten_cons, ← hrest 0]
  rfl

lemma length_hexText (hc : c ≠ []) : (hexText c).length = 3 * c.length - 1 := by
  obtain ⟨b, c, rfl⟩ := List.exists_cons_of_ne_nil hc
  have hrest : (c.flatMap fun b => chr ' ' :: hexField b).length = 3 * c.length := by
    induction c with
    | nil => rfl
    | cons b c ih =>
      rw [List.flatMap_cons, List.length_append, ih (List.cons_ne_nil _ _), hexField_eq]
      simp only [List.length_cons, List.length_nil]
      omega
  rw [hexText_cons, List.length_append, hrest, hexField_eq]
  simp only [List.length_cons, List.length_nil]
  omega

lemma hexGroups_hexText (c : Str) (n : ℕ) :
    hexGroups (hexText c ++ List.replicate n (chr ' ')) = c := by
  cases c with
  | nil => exact hexGroups_blanks n
  | cons b c =>
    have hrest : hexGroups ((c.flatMap fun b => chr ' ' :: hexField b) ++
        List.replicate n (chr ' ')) = c := by
      induction c with
      | nil => exact hexGroups_blanks n
      | cons b c ih =>
        rw [List.flatMap_cons, List.cons_append, List.cons_append, hexGroups_blank,
          List.append_assoc, hexGroups_hexField, ih]
    rw [hexText_cons, List.append_assoc, hexGroups_hexField, hrest]

lemma lf_notMem_hexText (c : Str) : lf ∉ hexText c := by
  have hfield (b : UInt8) : lf ∉ hexField b := by
    have hlt := b.toNat_lt
    rw [hexField_eq]
    simp only [List.mem_cons, List.not_mem_nil, or_false, not_or]
    exact ⟨(nibble_spec _ (by omega)).2.symm, (nibble_spec _ (by omega)).2.symm⟩
  cases c with
  | nil => exact List.not_mem_nil
  | cons b c =>
    rw [hexText_cons, List.mem_append, List.mem_flatMap, not_or]
    refine ⟨hfield b, ?_⟩
    rintro ⟨x, -, hx⟩
    rcases List.mem_cons.mp hx with h | h
    · exact absurd h (by decide)
    · exact hfield x h

lemma mapM_eq_some {α β : Type*} {g : α → Option β} {h : α → β} {l : List α}
    (hl : ∀ x ∈ l, g x = some (h x)) : l.mapM g = some (l.map h) := by
  induction l with
  | nil => rfl
  | cons x l ih =>
    obtain ⟨hx, hrest⟩ := List.forall_mem_cons.mp hl
    rw [List.mapM_cons, hx, ih hrest]
    rfl

/-- The loops over the bytes of a line read no other ones. -/
lemma eachItem_eq {start item : ℕ} (h : start + item ≤ buf.length) (f : ℕ → UInt8 → Str) :
    eachItem buf start item f = some ((((buf.drop start).take item).mapIdx f).flatten) := by
  have hread : (List.range item).mapM (fun j => (buf[start + j]?).map (f j)) =
      some ((List.range item).map fun j => f j (buf.getD (start + j) 0)) := by
    refine mapM_eq_some fun j hj => ?_
    have hlt : start + j < buf.length := by
      rw [List.mem_range] at hj
      omega
    simp [List.getElem?_eq_getElem hlt]
  have hsame : (List.range item).map (fun j => f j (buf.getD (start + j) 0)) =
      ((buf.drop start).take item).mapIdx f := by
    refine List.ext_getElem ?_ fun j hj hj' => ?_
    · simp only [List.length_map, List.length_range, List.length_mapIdx, List.length_take,
        List.length_drop]
      omega
    · rw [List.length_map, List.length_range] at hj
      have hlt : start + j < buf.length := by omega
      simp [List.getElem?_eq_getElem hlt]
  rw [eachItem, hread, hsame]
  rfl

/-! ### One line -/

/-- The bytes of line `i`. -/
def chunk (buf : Str) (k i : ℕ) : Str := (buf.drop (i * k)).take k

/-- The number of lines. -/
def numOfLine (buf : Str) (k : ℕ) : ℕ := buf.length / k + if buf.length % k ≠ 0 then 1 else 0

/-- The hex part of a line, which is filled up or not. -/
def hexPart (k : ℕ) (filled : Bool) (c : Str) : Str :=
  if filled then leftField (width k) (hexText c) else hexText c

/-- A line without its end. -/
def row (k : ℕ) (withAscii filled : Bool) (c : Str) : Str :=
  hexPart k filled c ++ if withAscii then lit [' ', ' ', ' ', ' '] ++ c.map asText else []

/-- The last line is shorter than the others, and so it is filled up if there is a text part. -/
def isFilled (buf : Str) (k : ℕ) (withAscii : Bool) (i : ℕ) : Bool :=
  (buf.length % k ≠ 0 ∧ i = numOfLine buf k - 1) ∧ withAscii

lemma numOfLine_eq (hk : 0 < k) (buf : Str) :
    numOfLine buf k = (buf.length + k - 1) / k := by
  have hdiv := Nat.div_add_mod buf.length k
  have hmod := Nat.mod_lt buf.length hk
  have hsplit : buf.length + k - 1 =
      k * (buf.length / k) + (buf.length % k + k - 1) := by omega
  rw [hsplit, Nat.mul_add_div hk, numOfLine]
  congr 1
  split_ifs with hrest
  · refine (Nat.div_eq_of_lt_le ?_ ?_).symm <;> omega
  · exact (Nat.div_eq_of_lt (by omega)).symm

/-- The bytes that the loops for a line go through. -/
lemma item_spec (hk : 0 < k) (hi : i < numOfLine buf k) {item : ℕ}
    (hitem : item = if buf.length % k ≠ 0 ∧ i = numOfLine buf k - 1 then buf.length % k else k) :
    i * k + item ≤ buf.length ∧ (buf.drop (i * k)).take item = chunk buf k i ∧
      (chunk buf k i).length = item ∧ 0 < item := by
  have hdiv := Nat.div_add_mod buf.length k
  have hmod := Nat.mod_lt buf.length hk
  have hlen := List.length_drop (i := i * k) (l := buf)
  unfold numOfLine at hi hitem
  by_cases hrest : buf.length % k ≠ 0 ∧ i = numOfLine buf k - 1
  · -- the bytes that are left
    rw [numOfLine, if_pos hrest.1, Nat.add_sub_cancel] at hrest
    rw [if_pos hrest.1, Nat.add_sub_cancel, if_pos hrest] at hitem
    have hstart : i * k = k * (buf.length / k) := by rw [hrest.2, Nat.mul_comm]
    have hall : (buf.drop (i * k)).length = item := by omega
    refine ⟨by omega, ?_, ?_, by omega⟩
    · rw [chunk, List.take_of_length_le hall.le, List.take_of_length_le (by omega)]
    · rw [chunk, List.take_of_length_le (by omega), hall]
  · rw [numOfLine] at hrest
    rw [if_neg hrest] at hitem
    have hfull : i + 1 ≤ buf.length / k := by
      by_cases hr : buf.length % k ≠ 0
      · rw [if_pos hr] at hi hrest
        have : i ≠ buf.length / k := fun h => hrest ⟨hr, by omega⟩
        omega
      · rw [if_neg hr] at hi
        omega
    have hend : i * k + k ≤ buf.length := by
      calc i * k + k = (i + 1) * k := by rw [Nat.succ_mul]
        _ ≤ buf.length / k * k := Nat.mul_le_mul_right k hfull
        _ ≤ buf.length := Nat.div_mul_le_self _ _
    rw [hitem]
    exact ⟨hend, rfl, by rw [chunk, List.length_take_of_le (by omega)], hk⟩

lemma dumpLine_eq (hk : 0 < k) (hi : i < numOfLine buf k) (withAscii : Bool) :
    dumpLine buf k (numOfLine buf k) withAscii i =
      some (row k withAscii (isFilled buf k withAscii i) (chunk buf k i) ++ [lf]) := by
  obtain ⟨hin, htake, -, -⟩ := item_spec hk hi rfl
  have htext : ((chunk buf k i).mapIdx fun _ b => [asciiItem b]).flatten =
      (chunk buf k i).map asText := by
    simp only [asciiItem_eq]
    induction chunk buf k i with
    | nil => rfl
    | cons b c ih =>
      rw [List.mapIdx_cons, List.flatten_cons, ih]
      rfl
  have hend : (if i ≠ numOfLine buf k then lit ['\n'] else []) = [lf] := if_pos hi.ne
  unfold dumpLine
  simp only [eachItem_eq hin, htake, htext, hend, Option.bind_eq_bind, Option.bind_some]
  cases withAscii with
  | false => simp [row, hexPart, isFilled, hexText]
  | true =>
    simp only [if_true, Option.map_some, Option.bind_some, row, hexPart, isFilled, hexText,
      and_true, decide_eq_true_eq]

/-- The dump as it is printed. -/
def dump (buf : Str) (k : ℕ) (withAscii : Bool) : Str :=
  ((List.range (numOfLine buf k)).map fun i =>
    row k withAscii (isFilled buf k withAscii i) (chunk buf k i)).flatMap (· ++ [lf])

lemma bytesToHex_eq (hbuf : buf ≠ []) (hk : 0 < k) (withAscii : Bool) :
    bytesToHex (some buf) k withAscii = some (dump buf k withAscii) := by
  have hlen : ¬ (buf.length = 0 ∨ k = 0) := by
    have := List.length_pos_iff.mpr hbuf
    omega
  have hlines := mapM_eq_some (g := dumpLine buf k (numOfLine buf k) withAscii)
    (l := List.range (numOfLine buf k)) fun i hi => dumpLine_eq hk (List.mem_range.mp hi) withAscii
  rw [dump, List.flatMap_map, List.flatMap_def]
  unfold numOfLine at hlines ⊢
  rw [bytesToHex, if_neg hlen]
  simp only [hlines]
  rw [Option.map_some]

/-! ### What a line shows -/

lemma hexPart_eq (k : ℕ) (filled : Bool) (c : Str) :
    ∃ m, hexPart k filled c = hexText c ++ List.replicate m (chr ' ') := by
  cases filled with
  | false => exact ⟨0, (List.append_nil _).symm⟩
  | true => exact ⟨_, rfl⟩

lemma lf_notMem_row (k : ℕ) (withAscii filled : Bool) (c : Str) :
    lf ∉ row k withAscii filled c := by
  obtain ⟨m, hm⟩ := hexPart_eq k filled c
  have hblank : lf ∉ List.replicate m (chr ' ') := fun h =>
    absurd (List.eq_of_mem_replicate h) (by decide)
  have htext : lf ∉ if withAscii then lit [' ', ' ', ' ', ' '] ++ c.map asText else [] := by
    split_ifs
    · rw [List.mem_append, List.mem_map, not_or]
      exact ⟨by decide, fun ⟨b, _, hb⟩ => asText_ne_lf b hb⟩
    · exact List.not_mem_nil
  rw [row, hm, List.mem_append, List.mem_append, not_or, not_or]
  exact ⟨⟨lf_notMem_hexText c, hblank⟩, htext⟩

/-- The columns of a line whose hex part is as wide as it should be. -/
lemma row_columns {filled : Bool} (hk : 0 < k) (hc : c ≠ []) (hle : c.length ≤ k)
    (hwide : withAscii = true → (hexPart k filled c).length = 3 * k - 1)
    (hplain : withAscii = false → filled = false) :
    bytesOf k (row k withAscii filled c) = c ∧
      (withAscii = true → (row k withAscii filled c).drop (3 * k + 3) = c.map asText) := by
  obtain ⟨m, hm⟩ := hexPart_eq k filled c
  cases withAscii with
  | false =>
    obtain rfl := hplain rfl
    have hlen := length_hexText hc
    refine ⟨?_, fun h => absurd h Bool.false_ne_true⟩
    have hrow : row k false false c = hexText c := List.append_nil _
    rw [bytesOf, hrow, List.take_of_length_le (by omega)]
    have hread := hexGroups_hexText c 0
    rwa [List.replicate_zero, List.append_nil] at hread
  | true =>
    have hrow : row k true filled c =
        hexPart k filled c ++ (lit [' ', ' ', ' ', ' '] ++ c.map asText) := rfl
    have hlen := hwide rfl
    constructor
    · rw [bytesOf, hrow, ← hlen, List.take_left, hm, hexGroups_hexText]
    · intro _
      have hcol : 3 * k + 3 = (hexPart k filled c ++ lit [' ', ' ', ' ', ' ']).length := by
        rw [List.length_append, hlen]
        simp only [lit, List.length_map, List.length_cons, List.length_nil]
        omega
      rw [hrow, ← List.append_assoc, hcol, List.drop_left]

lemma width_eq (hk : 0 < k) (h : 3 * k ≤ 2 ^ 31) : width k = 3 * k - 1 := by
  have hmod : (k * 2 + k - 1) % 2 ^ 64 = 3 * k - 1 := by omega
  rw [width, hmod, BitVec.toInt_ofNat']
  have hcast : ((3 * k - 1 : ℕ) : ℤ) = 3 * k - 1 := by omega
  rw [hcast]
  exact Int.bmod_eq_of_le (by omega) (by omega)

/-- A width that is not an `int` is negative, or at least too small. -/
lemma width_lt (h : 2 ^ 31 < 3 * k) : width k < 3 * k - 1 := by
  have hlt := (BitVec.ofNat 32 ((k * 2 + k - 1) % 2 ^ 64)).toInt_lt
  rw [width]
  omega

lemma length_filled (k : ℕ) (hc : c ≠ []) :
    ((hexPart k true c).length : ℤ) = max (3 * (c.length : ℤ) - 1) (width k) := by
  have hlen := length_hexText hc
  have hpos := List.length_pos_iff.mpr hc
  simp only [hexPart, if_true, leftField, List.length_append, List.length_replicate]
  omega

/-! ### The dump -/

lemma lines_dump (buf : Str) (k : ℕ) (withAscii : Bool) :
    lines lf (dump buf k withAscii) = ((List.range (numOfLine buf k)).map fun i =>
      row k withAscii (isFilled buf k withAscii i) (chunk buf k i)).map (· ++ [lf]) := by
  refine lines_flatMap fun r hr => ?_
  obtain ⟨i, -, rfl⟩ := List.mem_map.mp hr
  exact lf_notMem_row _ _ _ _

lemma rows_dump (buf : Str) (k : ℕ) (withAscii : Bool) :
    rows (dump buf k withAscii) = (List.range (numOfLine buf k)).map fun i =>
      row k withAscii (isFilled buf k withAscii i) (chunk buf k i) := by
  rw [rows, lines_dump, List.map_map]
  refine (List.map_congr_left fun r _ => body_append_end r).trans (List.map_id _)

lemma flatMap_chunk (buf : Str) (k n : ℕ) :
    (List.range n).flatMap (chunk buf k) = buf.take (n * k) := by
  induction n with
  | zero => simp
  | succ n ih =>
    rw [List.range_succ, List.flatMap_append, ih, List.flatMap_singleton, Nat.succ_mul,
      List.take_add]
    rfl

lemma flatMap_chunk_all (hk : 0 < k) (buf : Str) :
    (List.range (numOfLine buf k)).flatMap (chunk buf k) = buf := by
  rw [flatMap_chunk, List.take_of_length_le]
  have hdiv := Nat.div_add_mod buf.length k
  have hmod := Nat.mod_lt buf.length hk
  unfold numOfLine
  split_ifs with hrest
  · rw [Nat.succ_mul, Nat.mul_comm]
    omega
  · rw [Nat.add_zero, Nat.mul_comm]
    omega

lemma isFilled_iff : isFilled buf k withAscii i = true ↔
    (buf.length % k ≠ 0 ∧ i = numOfLine buf k - 1) ∧ withAscii = true := by
  unfold isFilled
  exact decide_eq_true_iff

lemma length_chunk_full (hk : 0 < k) (hi : i < numOfLine buf k)
    (hfull : ¬ (buf.length % k ≠ 0 ∧ i = numOfLine buf k - 1)) :
    (chunk buf k i).length = k := by
  rw [(item_spec hk hi rfl).2.2.1, if_neg hfull]

lemma columns_of_width (hk : 0 < k) (hi : i < numOfLine buf k)
    (h : withAscii = false ∨ k ∣ buf.length ∨ 3 * k ≤ 2 ^ 31) :
    bytesOf k (row k withAscii (isFilled buf k withAscii i) (chunk buf k i)) = chunk buf k i ∧
      (withAscii = true → (row k withAscii (isFilled buf k withAscii i) (chunk buf k i)).drop
        (3 * k + 3) = (chunk buf k i).map asText) := by
  obtain ⟨-, -, hlen, hpos⟩ := item_spec hk hi rfl
  have hne : chunk buf k i ≠ [] := List.ne_nil_of_length_pos (by omega)
  have hle : (chunk buf k i).length ≤ k := List.length_take_le _ _
  refine row_columns hk hne hle (fun hascii => ?_) fun hascii => ?_
  · cases hf : isFilled buf k withAscii i with
    | true =>
      have hrest := (isFilled_iff.mp hf).1.1
      have hwidth : 3 * k ≤ 2 ^ 31 := by
        rcases h with h | h | h
        · rw [hascii] at h
          cases h
        · exact absurd (Nat.mod_eq_zero_of_dvd h) hrest
        · exact h
      have hfill := length_filled k hne
      rw [width_eq hk hwidth] at hfill
      omega
    | false =>
      have hfull : ¬ (buf.length % k ≠ 0 ∧ i = numOfLine buf k - 1) := fun hrest => by
        rw [isFilled_iff.mpr ⟨hrest, hascii⟩] at hf
        cases hf
      rw [hexPart, if_neg Bool.false_ne_true, length_hexText hne, length_chunk_full hk hi hfull]
  · by_contra hf
    have := (isFilled_iff.mp (Bool.eq_true_of_not_eq_false hf)).2
    rw [hascii] at this
    cases this

lemma dumps_of_width (hk : 0 < k) (h : withAscii = false ∨ k ∣ buf.length ∨ 3 * k ≤ 2 ^ 31) :
    Dumps buf k withAscii (dump buf k withAscii) where
  ended w hw := by
    rw [lines_dump, List.map_map] at hw
    obtain ⟨i, -, rfl⟩ := List.mem_map.mp hw
    exact List.getLast?_concat
  count := by
    rw [rows_dump, List.length_map, List.length_range, numOfLine_eq hk]
  bytes := by
    rw [rows_dump, List.flatMap_map]
    refine (List.flatMap_congr fun i hi => ?_).trans (flatMap_chunk_all hk buf)
    exact (columns_of_width hk (List.mem_range.mp hi) h).1
  full r hr := by
    rw [rows_dump, ← List.map_dropLast] at hr
    obtain ⟨i, hi, rfl⟩ := List.mem_map.mp hr
    have hlt : i < numOfLine buf k - 1 := by
      rw [List.dropLast_eq_take, List.length_range, List.take_range] at hi
      have := List.mem_range.mp hi
      omega
    rw [(columns_of_width hk (by omega) h).1, length_chunk_full hk (by omega) fun h => by omega]
  text hascii r hr := by
    rw [rows_dump] at hr
    obtain ⟨i, hi, rfl⟩ := List.mem_map.mp hr
    obtain ⟨hbytes, htext⟩ := columns_of_width hk (List.mem_range.mp hi) h
    rw [hbytes, htext hascii]

lemma length_flatMap_full {rs : List Str} (h : ∀ r ∈ rs, (bytesOf k r).length = k) :
    (rs.flatMap (bytesOf k)).length = rs.length * k := by
  induction rs with
  | nil => exact (Nat.zero_mul k).symm
  | cons r rs ih =>
    obtain ⟨hr, hrest⟩ := List.forall_mem_cons.mp h
    rw [List.flatMap_cons, List.length_append, hr, ih hrest, List.length_cons, Nat.succ_mul,
      Nat.add_comm]

/-- The text part of the last line begins too early if the width is not an `int`. -/
lemma width_of_dumps (hk : 0 < k) (h : Dumps buf k withAscii (dump buf k withAscii)) :
    withAscii = false ∨ k ∣ buf.length ∨ 3 * k ≤ 2 ^ 31 := by
  by_contra hno
  obtain ⟨hascii, hdvd, hwidth⟩ := not_or.mp hno |>.imp_right not_or.mp
  obtain rfl : withAscii = true := Bool.eq_true_of_not_eq_false hascii
  have hrest : buf.length % k ≠ 0 := fun h0 => hdvd (Nat.dvd_of_mod_eq_zero h0)
  have hn : numOfLine buf k = buf.length / k + 1 := by rw [numOfLine, if_pos hrest]
  have hlast : isFilled buf k true (buf.length / k) = true :=
    isFilled_iff.mpr ⟨⟨hrest, by rw [hn, Nat.add_sub_cancel]⟩, rfl⟩
  let c := chunk buf k (buf.length / k)
  have hrows : rows (dump buf k true) = ((List.range (buf.length / k)).map fun i =>
      row k true (isFilled buf k true i) (chunk buf k i)) ++ [row k true true c] := by
    rw [rows_dump, hn, List.range_succ, List.map_append, List.map_singleton, hlast]
  have hc : c.length = buf.length % k ∧ 0 < buf.length % k := by
    have hitem : buf.length % k =
        if buf.length % k ≠ 0 ∧ buf.length / k = numOfLine buf k - 1 then buf.length % k else k :=
      (if_pos ⟨hrest, by rw [hn, Nat.add_sub_cancel]⟩).symm
    exact (item_spec hk (by omega) hitem).2.2
  have hne : c ≠ [] := List.ne_nil_of_length_pos (by omega)
  -- the last line shows as many bytes as are left
  have hshown : (bytesOf k (row k true true c)).length = c.length := by
    have hfull := h.full
    have hbytes := congrArg List.length h.bytes
    rw [hrows] at hfull hbytes
    rw [List.dropLast_concat] at hfull
    rw [List.flatMap_append, List.flatMap_singleton, List.length_append,
      length_flatMap_full hfull, List.length_map, List.length_range] at hbytes
    have hdiv := Nat.div_add_mod buf.length k
    have hcomm := Nat.mul_comm (buf.length / k) k
    omega
  have htext := congrArg List.length
    (h.text rfl (row k true true c) (by rw [hrows]; exact List.mem_append_right _ (by simp)))
  rw [List.length_map, hshown, List.length_drop] at htext
  have hrow : (row k true true c).length = (hexPart k true c).length + (4 + c.length) := by
    simp only [row, if_true, lit, List.length_append, List.length_map, List.length_cons,
      List.length_nil]
  have hfill := length_filled k hne
  have hlt := width_lt (k := k) (by omega)
  have hmod := Nat.mod_lt buf.length hk
  omega

/-- **The dump is lossless and aligned exactly if its width is an `int`**, or if there is no last
line to fill up. -/
theorem bytes_to_hex_iff (hbuf : buf ≠ []) (hk : 0 < k) (withAscii : Bool) :
    (∃ out, bytesToHex (some buf) k withAscii = some out ∧ Dumps buf k withAscii out) ↔
      withAscii = false ∨ k ∣ buf.length ∨ 3 * k ≤ 2 ^ 31 := by
  rw [bytesToHex_eq hbuf hk]
  constructor
  · rintro ⟨out, hout, h⟩
    obtain rfl := Option.some.inj hout
    exact width_of_dumps hk h
  · exact fun h => ⟨_, rfl, dumps_of_width hk h⟩

/-- Two whole lines, and one that is filled up. -/
theorem bytes_to_hex_lines :
    (∃ out, bytesToHex (some (lit ['A', 'B', 'C', 'D', 'E'])) 2 true = some out ∧
        Dumps (lit ['A', 'B', 'C', 'D', 'E']) 2 true out) ↔
      true = false ∨ 2 ∣ (lit ['A', 'B', 'C', 'D', 'E']).length ∨ 3 * 2 ≤ 2 ^ 31 :=
  bytes_to_hex_iff (List.cons_ne_nil _ _) (by decide) true

/-- One byte with so many bytes to a line that the width is negative. -/
theorem bytes_to_hex_wide :
    bytesToHex (some (lit ['A'])) 715827883 true =
        some (lit ['4', '1', ' ', ' ', ' ', ' ', 'A', '\n']) ∧
      ¬ ∃ out, bytesToHex (some (lit ['A'])) 715827883 true = some out ∧
        Dumps (lit ['A']) 715827883 true out := by
  refine ⟨by decide, ?_⟩
  rintro ⟨out, hout, hdumps⟩
  have hne : lit ['A'] ≠ [] := List.cons_ne_nil _ _
  rw [bytesToHex_eq hne (by decide)] at hout
  obtain rfl := Option.some.inj hout
  exact absurd (width_of_dumps (by decide) hdumps) (by decide)

end Libchef.HexDump
