import Libchef.NetdevModel

/-!
The row that `netdev::parse` reads.

The name of the interface, a colon and a blank are searched in the first bytes of the file. A colon
and a blank stand behind the names only, so what is found is the first row before whose colon the
text ends with the name asked for. Its name may be longer. Of its counts the first bytes may show
but a part, and a count from 2^63 on ends the reading of those after it.
-/

namespace Libchef.NetdevRow

open Libchef.Text Libchef.Decimal Libchef.Istream Libchef.StringsModel Libchef.NetdevModel

/-- A count, with more or fewer blanks before it. -/
structure Count where
  pad : ℕ
  value : ℕ
  value_lt : value < 2 ^ 64

/-- A count with the blanks before it. -/
def Count.text (c : Count) : Str := List.replicate c.pad (byte ' ') ++ print c.value

/-- Counts with one blank before each. -/
def columnsText (cs : List Count) : Str := cs.flatMap fun c => byte ' ' :: c.text

/-- A row of the file: the name of an interface and its sixteen counts. In `between` are the counts
2 to 8, in `later` the counts 10 to 16. -/
structure Row where
  indent : ℕ
  name : Str
  bytesIn : Count
  between : List Count
  bytesOut : Count
  later : List Count
  name_noSpace : ∀ c ∈ name, isSpace c = false
  name_noColon : chr ':' ∉ name
  length_between : between.length = 7
  length_later : later.length = 7

namespace Row

variable (r : Row)

/-- What stands before the colon. -/
def label : Str := List.replicate r.indent (byte ' ') ++ r.name

/-- The counts 1 to 9. -/
def firstNine : Str := r.bytesIn.text ++ columnsText r.between ++ columnsText [r.bytesOut]

/-- What stands behind the colon and a blank. -/
def counts : Str := r.firstNine ++ columnsText r.later ++ [lf]

def text : Str := r.label ++ colonSpace ++ r.counts

end Row

/-- The text of `/proc/net/dev`. -/
structure DevText where
  headers : List Str
  rows : List Row
  headers_noColon : ∀ h ∈ headers, ¬ colonSpace <:+: h
  names_nodup : (rows.map Row.name).Nodup

/-- The header lines. -/
def headersText (hs : List Str) : Str := hs.flatMap (· ++ [lf])

def DevText.text (t : DevText) : Str := headersText t.headers ++ t.rows.flatMap Row.text

/-- The rows, each with the text up to its colon, for a text that begins with `before`. -/
def marks (before : Str) : List Row → List (Str × Row)
  | [] => []
  | r :: rows => (before ++ r.label, r) :: marks (before ++ r.text) rows

/-- What the first `k` bytes of a text show of a count that it begins with. -/
def Count.shown (c : Count) (k : ℕ) : ℕ := number ((print c.value).take (k - c.pad))

namespace Row

variable (r : Row)

/-- What `k` bytes of the counts show of the first one. -/
def shownIn (k : ℕ) : ℕ := r.bytesIn.shown k

/-- What `k` bytes of the counts show of the ninth one, if the seven before it are in the range of
an `int64_t`; else nothing. -/
def shownOut (k : ℕ) : ℕ :=
  if ∀ c ∈ r.between, c.value < 2 ^ 63 then
    r.bytesOut.shown (k - (r.bytesIn.text ++ columnsText r.between).length - 1)
  else 0

end Row

namespace DevText

variable (t : DevText) (interface : Str)

/-- The first row before whose colon the text ends with the name, of those whose colon and blank
are in the first bytes. -/
def found : Option (Str × Row) :=
  ((marks (headersText t.headers) t.rows).filter fun m => m.1.length + 2 ≤ contentSize).find?
    fun m => interface <:+ m.1

/-- The row that is found has the name, its first nine counts are in the first bytes, and those
between the two are in the range of an `int64_t`; or none is found, and none has the name. -/
def Meant : Prop :=
  match t.found interface with
  | none => ∀ r ∈ t.rows, r.name ≠ interface
  | some (before, f) => f.name = interface ∧
      before.length + 2 + f.firstNine.length ≤ contentSize ∧ ∀ c ∈ f.between, c.value < 2 ^ 63

/-- The counts tell the rows apart: the row with the name has a ninth count that is not zero, and no
other row has its first one. -/
def Telling : Prop :=
  ∀ r ∈ t.rows, r.name = interface → r.bytesOut.value ≠ 0 ∧
    ∀ f ∈ t.rows, f.bytesIn.value = r.bytesIn.value → f = r

/-- The row that is found shows the two counts of the row with that name, or there is neither. -/
def Shown : Prop :=
  match t.found interface with
  | none => ∀ r ∈ t.rows, r.name ≠ interface
  | some (before, f) => ∃ r ∈ t.rows, r.name = interface ∧
      f.shownIn (contentSize - before.length - 2) = r.bytesIn.value ∧
      f.shownOut (contentSize - before.length - 2) = r.bytesOut.value

end DevText

/-- `parse` succeeds if there is a row of the interface, and gives the bytes in it. -/
structure Reads (t : DevText) (dummy : ℤ) (interface : Str) : Prop where
  succeeds : (parse .init dummy (some t.text) interface).1 = true ↔
    ∃ r ∈ t.rows, r.name = interface
  bytes : ∀ r ∈ t.rows, r.name = interface →
    (parse .init dummy (some t.text) interface).2 = ⟨r.bytesIn.value, r.bytesOut.value⟩

variable {t : DevText} {interface before : Str} {rows : List Row} {r : Row} {m : Str × Row}

/-! ### Where a colon and a blank stand -/

lemma notMem_countText {c : UInt8} (hc : c ≠ byte ' ') (hd : isDigit c = false) (x : Count) :
    c ∉ x.text := by
  intro h
  rcases List.mem_append.mp h with h | h
  · exact hc (List.eq_of_mem_replicate h)
  · rw [((print_spec x.value).1 c h).1] at hd
    cases hd

lemma notMem_columnsText {c : UInt8} (hc : c ≠ byte ' ') (hd : isDigit c = false)
    (cs : List Count) : c ∉ columnsText cs := by
  intro h
  obtain ⟨x, -, hmem⟩ := List.mem_flatMap.mp h
  rcases List.mem_cons.mp hmem with h | h
  · exact hc h
  · exact notMem_countText hc hd x h

lemma notMem_counts {c : UInt8} (hc : c ≠ byte ' ') (hd : isDigit c = false) (hl : c ≠ lf)
    (r : Row) : c ∉ r.counts := by
  simp only [Row.counts, Row.firstNine, List.mem_append, List.mem_singleton, not_or]
  exact ⟨⟨⟨⟨notMem_countText hc hd _, notMem_columnsText hc hd _⟩, notMem_columnsText hc hd _⟩,
    notMem_columnsText hc hd _⟩, hl⟩

lemma colon_notMem_label (r : Row) : chr ':' ∉ r.label := by
  intro h
  rcases List.mem_append.mp h with h | h
  · exact absurd (List.eq_of_mem_replicate h) (by decide)
  · exact r.name_noColon h

lemma getElem?_of_at {s : Str} {q : ℕ} (h : At s colonSpace q) :
    s[q]? = some (chr ':') ∧ s[q + 1]? = some (chr ' ') := by
  obtain ⟨a, b, rfl, rfl⟩ := at_iff.mp h
  simp [colonSpace, lit]

lemma le_length_marks (h : m ∈ marks before rows) : before.length ≤ m.1.length := by
  induction rows generalizing before with
  | nil => cases h
  | cons r rows ih =>
    rcases List.mem_cons.mp h with rfl | h
    · simp
    · exact le_trans (by simp) (ih h)

lemma length_label_lt (r : Row) : r.label.length + 2 ≤ r.text.length := by
  simp only [Row.text, List.length_append, colonSpace, lit, List.length_map, List.length_cons,
    List.length_nil]
  omega

lemma pairwise_marks (before : Str) (rows : List Row) :
    (marks before rows).Pairwise fun m m' => m.1.length < m'.1.length := by
  induction rows generalizing before with
  | nil => exact List.Pairwise.nil
  | cons r rows ih =>
    refine List.pairwise_cons.mpr ⟨fun m hm => ?_, ih _⟩
    have hle := le_length_marks hm
    have := length_label_lt r
    simp only [List.length_append] at hle ⊢
    omega

lemma marks_cut (h : m ∈ marks before rows) : m.2 ∈ rows ∧
    ∃ rest, before ++ rows.flatMap Row.text = m.1 ++ colonSpace ++ m.2.counts ++ rest := by
  induction rows generalizing before with
  | nil => cases h
  | cons r rows ih =>
    rcases List.mem_cons.mp h with rfl | h
    · exact ⟨List.mem_cons_self, rows.flatMap Row.text, by simp [Row.text]⟩
    · obtain ⟨hmem, rest, hrest⟩ := ih h
      refine ⟨List.mem_cons_of_mem r hmem, rest, ?_⟩
      rw [← hrest, List.flatMap_cons, List.append_assoc]

lemma eq_of_colon (r : Row) {q : ℕ} (h : r.text[q]? = some (chr ':')) : q = r.label.length := by
  have htext : r.text = r.label ++ chr ':' :: (chr ' ' :: r.counts) := by
    simp [Row.text, colonSpace, lit]
  rw [htext] at h
  rcases Nat.lt_trichotomy q r.label.length with hlt | rfl | hgt
  · rw [List.getElem?_append_left hlt] at h
    exact absurd (List.mem_of_getElem? h) (colon_notMem_label r)
  · rfl
  · obtain ⟨n, rfl⟩ := Nat.exists_eq_add_of_lt hgt
    rw [List.getElem?_append_right (by omega), Nat.add_assoc, Nat.add_sub_cancel_left,
      List.getElem?_cons_succ] at h
    rcases List.mem_cons.mp (List.mem_of_getElem? h) with h | h
    · exact absurd h (by decide)
    · exact absurd h (notMem_counts (by decide) (by decide) (by decide) r)

/-- A colon and a blank stand behind the label of a row, or in what comes after the row. -/
lemma at_row (r : Row) (s : Str) (q : ℕ) : At (r.text ++ s) colonSpace q ↔
    q = r.label.length ∨ ∃ p, q = r.text.length + p ∧ At s colonSpace p := by
  have hlabel := length_label_lt r
  rcases Nat.lt_or_ge q r.text.length with hin | hout
  · constructor
    · intro h
      have hcolon := (getElem?_of_at h).1
      rw [List.getElem?_append_left hin] at hcolon
      exact Or.inl (eq_of_colon r hcolon)
    · rintro (rfl | ⟨p, rfl, -⟩)
      · rw [Row.text, List.append_assoc]
        exact At.append r.label colonSpace (r.counts ++ s)
      · omega
  · obtain ⟨p, rfl⟩ := Nat.exists_eq_add_of_le hout
    rw [at_append_right]
    constructor
    · exact fun h => Or.inr ⟨p, rfl, h⟩
    · rintro (h | ⟨p', hp, h⟩)
      · omega
      · rwa [Nat.add_left_cancel hp]

/-- A colon and a blank stand at the marks only. -/
lemma at_rows (before : Str) (rows : List Row) (q : ℕ) :
    At (rows.flatMap Row.text) colonSpace q ↔
      ∃ m ∈ marks before rows, m.1.length = before.length + q := by
  induction rows generalizing before q with
  | nil =>
    simp only [marks, List.not_mem_nil, false_and, exists_false, iff_false]
    intro h
    have := h.add_le
    simp [colonSpace, lit] at this
  | cons r rows ih =>
    rw [List.flatMap_cons, at_row]
    simp only [marks, List.mem_cons, exists_eq_or_imp, List.length_append, Nat.add_left_cancel_iff]
    refine or_congr eq_comm ⟨?_, ?_⟩
    · rintro ⟨p, rfl, h⟩
      obtain ⟨m, hm, hlen⟩ := (ih (before ++ r.text) p).mp h
      exact ⟨m, hm, by rw [hlen, List.length_append, Nat.add_assoc]⟩
    · rintro ⟨m, hm, hlen⟩
      have hle := le_length_marks hm
      rw [List.length_append] at hle
      obtain ⟨p, rfl⟩ := Nat.exists_eq_add_of_le (show r.text.length ≤ q by omega)
      refine ⟨p, rfl, (ih (before ++ r.text) p).mpr ⟨m, hm, ?_⟩⟩
      rw [hlen, List.length_append, Nat.add_assoc]

/-- In the headers there is none. -/
lemma not_at_headers {hs : List Str} (h : ∀ x ∈ hs, ¬ colonSpace <:+: x) (s : Str) {q : ℕ}
    (hq : q < (headersText hs).length) : ¬ At (headersText hs ++ s) colonSpace q := by
  induction hs generalizing q with
  | nil => cases hq
  | cons x hs ih =>
    obtain ⟨hx, hrest⟩ := List.forall_mem_cons.mp h
    have htext : headersText (x :: hs) ++ s = (x ++ [lf]) ++ (headersText hs ++ s) := by
      simp [headersText]
    intro hat
    rw [htext] at hat
    rcases Nat.lt_or_ge q (x.length + 1) with hlt | hge
    · obtain ⟨hcolon, hblank⟩ := getElem?_of_at hat
      rw [List.append_assoc] at hat hcolon hblank
      have hend : ∀ c, (x ++ ([lf] ++ (headersText hs ++ s)))[x.length]? = some c → c = lf := by
        intro c hc
        rw [List.getElem?_append_right le_rfl, Nat.sub_self] at hc
        exact (Option.some.inj hc).symm
      rcases Nat.lt_or_ge (q + 1) x.length with hin | hout
      · exact hx (infix_iff_at.mpr ⟨q, hat.of_append hin⟩)
      · rcases Nat.eq_or_lt_of_le hout with he | he
        · rw [← he] at hblank
          exact absurd (hend _ hblank) (by decide)
        · obtain rfl : q = x.length := by omega
          exact absurd (hend _ hcolon) (by decide)
    · obtain ⟨p, rfl⟩ := Nat.exists_eq_add_of_le hge
      rw [← List.length_singleton (a := lf), ← List.length_append, at_append_right] at hat
      refine ih hrest ?_ hat
      simp only [headersText, List.flatMap_cons, List.length_append, List.length_singleton] at hq
      exact Nat.lt_of_add_lt_add_left hq

lemma at_text (t : DevText) (q : ℕ) : At t.text colonSpace q ↔
    ∃ m ∈ marks (headersText t.headers) t.rows, m.1.length = q := by
  rcases Nat.lt_or_ge q (headersText t.headers).length with hlt | hge
  · refine iff_of_false (not_at_headers t.headers_noColon _ hlt) ?_
    rintro ⟨m, hm, rfl⟩
    exact absurd (le_length_marks hm) (by omega)
  · obtain ⟨p, rfl⟩ := Nat.exists_eq_add_of_le hge
    rw [DevText.text, at_append_right, at_rows]

/-! ### The row that is found -/

lemma find_eq (t : DevText) (interface : Str) :
    find (t.text.take contentSize) (interface ++ colonSpace) 0 =
      (t.found interface).map fun m => m.1.length - interface.length := by
  refine find_marked ((pairwise_marks _ _).filter _) (fun m hm => ?_) fun q => ?_
  · obtain ⟨hm, hsize⟩ := List.mem_filter.mp hm
    obtain ⟨-, rest, hrest⟩ := marks_cut hm
    have hpre : m.1 <+: t.text := ⟨colonSpace ++ m.2.counts ++ rest, by
      rw [DevText.text, hrest]; simp⟩
    exact List.prefix_take_iff.mpr ⟨hpre, by have := of_decide_eq_true hsize; omega⟩
  · rw [at_take (by decide), at_text]
    simp only [List.mem_filter, decide_eq_true_eq]
    constructor
    · rintro ⟨⟨m, hm, rfl⟩, hsize⟩
      exact ⟨m, ⟨hm, hsize⟩, rfl⟩
    · rintro ⟨m, ⟨hm, hsize⟩, rfl⟩
      exact ⟨⟨m, hm, rfl⟩, hsize⟩

lemma of_found (h : t.found interface = some m) : interface <:+ m.1 ∧ m.2 ∈ t.rows ∧
    ∃ rest, t.text = m.1 ++ colonSpace ++ m.2.counts ++ rest := by
  obtain ⟨hsuf, as, bs, heq, -⟩ := List.find?_eq_some_iff_append.mp h
  have hm : m ∈ marks (headersText t.headers) t.rows :=
    List.mem_of_mem_filter (heq ▸ List.mem_append_right as List.mem_cons_self)
  exact ⟨of_decide_eq_true hsuf, marks_cut hm⟩

/-! ### The counts that are read -/

section Counts

variable {s : Str} {k : ℕ} {st : Input}

lemma head?_columnsText (cs : List Count) (hs : ∀ c ∈ s.head?, isDigit c = false) :
    ∀ c ∈ (columnsText cs ++ s).head?, isDigit c = false := by
  cases cs with
  | nil => exact hs
  | cons x cs =>
    intro c hc
    obtain rfl := Option.some.inj hc
    decide

lemma blank_replicate (n : ℕ) : ∀ c ∈ List.replicate n (byte ' '), isSpace c = true := by
  intro c hc
  rw [List.eq_of_mem_replicate hc]
  decide

lemma extract_count {n : ℕ} (x : Count) (hs : ∀ c ∈ s.head?, isDigit c = false)
    (h : Leaves (List.replicate n (byte ' ') ++ (print x.value ++ s)) k st) :
    Leaves s (k - n - (print x.value).length) (extract readUInt64 (0, st)).2 ∧
      (extract readUInt64 (0, st)).1 = number ((print x.value).take (k - n)) := by
  obtain ⟨hd, hnum, hne⟩ := print_spec x.value
  have hcut := Leaves.extract (p := (0, st)) (f := readUInt64) (g := number) (blank_replicate n)
    (fun c hc => (hd c hc).1) hne hs h fun m r hm hr =>
      readUnsigned_digits (fun c hc => (hd c (List.mem_of_mem_take hc)).1) hm
        (le_trans (number_take_le _ m) (by have := x.value_lt; omega)) hr
  rw [List.length_replicate] at hcut
  exact ⟨hcut.1, hcut.2 rfl⟩

lemma columnsText_cons_append (x : Count) (cs : List Count) (s : Str) :
    columnsText (x :: cs) ++ s =
      List.replicate (x.pad + 1) (byte ' ') ++ (print x.value ++ (columnsText cs ++ s)) := by
  simp [columnsText, Count.text, List.replicate_succ]

lemma length_columnsText_cons (x : Count) (cs : List Count) :
    (columnsText (x :: cs)).length =
      x.pad + 1 + (print x.value).length + (columnsText cs).length := by
  have h := congrArg List.length (columnsText_cons_append x cs [])
  simp only [List.append_nil, List.length_append, List.length_replicate] at h
  omega

lemma extract_one {x : Count} {cs : List Count} (hs : ∀ c ∈ s.head?, isDigit c = false)
    (h : Leaves (columnsText (x :: cs) ++ s) k st) (v : ℤ) :
    (x.value < 2 ^ 63 → Leaves (columnsText cs ++ s) (k - (x.pad + 1) - (print x.value).length)
        (extract readInt64 (v, st)).2) ∧
      (2 ^ 63 ≤ x.value → Spent (extract readInt64 (v, st)).2) := by
  obtain ⟨hd, hnum, hne⟩ := print_spec x.value
  rw [columnsText_cons_append] at h
  have hdigits : ∀ c ∈ print x.value, isDigit c = true := fun c hc => (hd c hc).1
  constructor
  · intro hlt
    have hcut : Leaves _ _ (extract readInt64 (v, st)).2 :=
      Leaves.extract_int (p := (v, st)) (blank_replicate _) hdigits hne
        (head?_columnsText cs hs) h (by omega) (by rw [hnum]; omega)
    rwa [List.length_replicate] at hcut
  · intro hge
    exact Leaves.extract_above (p := (v, st)) (blank_replicate _) hdigits hne
      (head?_columnsText cs hs) h (by omega) (by rw [hnum]; omega)

lemma extract_between {cs : List Count} (hcs : ∀ c ∈ cs, c.value < 2 ^ 63)
    (hs : ∀ c ∈ s.head?, isDigit c = false) (h : Leaves (columnsText cs ++ s) k st) (v : ℤ) :
    Leaves s (k - (columnsText cs).length) ((extract readInt64)^[cs.length] (v, st)).2 := by
  induction cs generalizing k st v with
  | nil => exact h
  | cons x cs ih =>
    obtain ⟨hx, hrest⟩ := List.forall_mem_cons.mp hcs
    have hk : k - (columnsText (x :: cs)).length =
        k - (x.pad + 1) - (print x.value).length - (columnsText cs).length := by
      rw [length_columnsText_cons]
      omega
    rw [hk, List.length_cons, Function.iterate_succ_apply]
    exact ih hrest ((extract_one hs h v).1 hx) _

lemma extract_between_above {cs : List Count} (habove : ¬ ∀ c ∈ cs, c.value < 2 ^ 63)
    (hs : ∀ c ∈ s.head?, isDigit c = false) (h : Leaves (columnsText cs ++ s) k st) (v : ℤ) :
    Spent ((extract readInt64)^[cs.length] (v, st)).2 := by
  induction cs generalizing k st v with
  | nil => exact absurd (by simp) habove
  | cons x cs ih =>
    rw [List.length_cons, Function.iterate_succ_apply]
    rcases Nat.lt_or_ge x.value (2 ^ 63) with hlt | hge
    · exact ih (fun hrest => habove (List.forall_mem_cons.mpr ⟨hlt, hrest⟩))
        ((extract_one hs h v).1 hlt) _
    · exact Spent.iterate ((extract_one hs h v).2 hge) _

end Counts

/-- The counts of a row that is found. -/
lemma extract_row (f : Row) (rest : Str) (k : ℕ) (dummy : ℤ) {st : Input}
    (hst : Leaves (f.counts ++ rest) k st) :
    (extract readUInt64 (0, st)).1 = f.shownIn k ∧
      (extract readUInt64
        (0, ((extract readInt64)^[7] (dummy, (extract readUInt64 (0, st)).2)).2)).1 =
          f.shownOut k := by
  let tail : Str := columnsText f.later ++ (lf :: rest)
  have htail : ∀ c ∈ tail.head?, isDigit c = false := by
    refine head?_columnsText f.later fun c hc => ?_
    obtain rfl := Option.some.inj hc
    decide
  have hcounts : f.counts ++ rest = List.replicate f.bytesIn.pad (byte ' ') ++
      (print f.bytesIn.value ++
        (columnsText f.between ++ (columnsText [f.bytesOut] ++ tail))) := by
    simp [Row.counts, Row.firstNine, Count.text, tail]
  have hnine := head?_columnsText [f.bytesOut] htail
  rw [hcounts] at hst
  obtain ⟨hleft, hin⟩ := extract_count f.bytesIn (head?_columnsText f.between hnine) hst
  refine ⟨hin, ?_⟩
  rw [← f.length_between]
  unfold Row.shownOut
  split_ifs with hrange
  · have hleaves := extract_between hrange hnine hleft dummy
    rw [columnsText_cons_append] at hleaves
    rw [(extract_count f.bytesOut htail hleaves).2, Count.shown]
    congr 2
    simp only [Count.text, List.length_append, List.length_replicate]
    omega
  · have hspent := extract_between_above hrange hnine hleft dummy
    exact (Spent.extract (p := (0, _)) hspent).1

/-- What `parse` gives. -/
lemma parse_eq (t : DevText) (dummy : ℤ) (interface : Str) :
    parse .init dummy (some t.text) interface =
      match t.found interface with
      | none => (false, .init)
      | some (before, f) => (true, ⟨f.shownIn (contentSize - before.length - 2),
          f.shownOut (contentSize - before.length - 2)⟩) := by
  have hcontent : FilepathModel.readFile (some t.text) contentSize = t.text.take contentSize := rfl
  have hfind := find_eq t interface
  simp only [parse, hcontent, hfind]
  cases hf : t.found interface with
  | none => simp
  | some m =>
    obtain ⟨hsuf, -, rest, htext⟩ := of_found hf
    rw [hf] at hfind
    have hne : t.text.take contentSize ≠ [] := by
      intro hnil
      rw [hnil, find_eq_none.mpr] at hfind
      · cases hfind
      · intro i _ hat
        have := hat.add_le
        simp [colonSpace, lit] at this
    rw [if_neg hne]
    have hle := hsuf.length_le
    have hpos : m.1.length - interface.length + (interface ++ colonSpace).length =
        (m.1 ++ colonSpace).length := by
      simp only [List.length_append]
      omega
    have hzero : 0 ∉ m.2.counts := notMem_counts (by decide) (by decide) (by decide) m.2
    have hleaves : Leaves (m.2.counts ++ cStr rest) (contentSize - m.1.length - 2)
        ⟨cStr ((t.text.take contentSize).drop (m.1 ++ colonSpace).length), false⟩ := by
      have hlen : (m.1 ++ colonSpace).length = m.1.length + 2 := List.length_append
      have hsee : cStr ((t.text.take contentSize).drop (m.1 ++ colonSpace).length) =
          (m.2.counts ++ cStr rest).take (contentSize - m.1.length - 2) := by
        rw [List.drop_take, htext, List.append_assoc, List.drop_left, ← cStr_append hzero, hlen,
          Nat.sub_sub]
        exact (List.take_takeWhile ..).symm
      unfold Leaves
      split_ifs with hk
      · exact Or.inr (by rw [hsee, hk]; rfl)
      · rw [hsee]
    obtain ⟨hin, hout⟩ := extract_row m.2 _ _ dummy hleaves
    simp only [Option.map_some, hpos, Netdev.init, hin, hout]

/-- What is read is what the row that is found shows. So the counts of another row do, where they
happen to be the same. -/
theorem reads_iff_shown (t : DevText) (dummy : ℤ) (interface : Str) :
    Reads t dummy interface ↔ t.Shown interface := by
  unfold DevText.Shown
  constructor
  · rintro ⟨hsucc, hbytes⟩
    rw [parse_eq] at hsucc hbytes
    cases hf : t.found interface with
    | none =>
      rw [hf] at hsucc
      intro r hr hname
      exact absurd (hsucc.mpr ⟨r, hr, hname⟩) Bool.false_ne_true
    | some m =>
      rw [hf] at hsucc hbytes
      obtain ⟨r, hr, hname⟩ := hsucc.mp rfl
      obtain ⟨hin, hout⟩ := Netdev.mk.inj (hbytes r hr hname)
      exact ⟨r, hr, hname, hin, hout⟩
  · intro h
    constructor
    · rw [parse_eq]
      cases hf : t.found interface with
      | none =>
        rw [hf] at h
        exact iff_of_false Bool.false_ne_true fun ⟨r, hr, hname⟩ => h r hr hname
      | some m =>
        rw [hf] at h
        obtain ⟨r, hr, hname, -⟩ := h
        exact iff_of_true rfl ⟨r, hr, hname⟩
    · intro r hr hname
      rw [parse_eq]
      cases hf : t.found interface with
      | none =>
        rw [hf] at h
        exact absurd hname (h r hr)
      | some m =>
        rw [hf] at h
        obtain ⟨r', hr', hname', hin, hout⟩ := h
        obtain rfl := List.inj_on_of_nodup_map t.names_nodup hr hr' (hname.trans hname'.symm)
        exact congrArg₂ Netdev.mk hin hout

/-- **`net_interface_bytes`** leaves its outputs alone where no row is found, and gives what the
row shows to those that are asked for. -/
theorem netInterfaceBytes_eq (t : DevText) (dummy : ℤ) (interface : Str)
    (inBytes outBytes : Option ℕ) :
    netInterfaceBytes dummy (some t.text) interface inBytes outBytes =
      match t.found interface with
      | none => (false, inBytes, outBytes)
      | some (before, f) => (true,
          inBytes.map fun _ => f.shownIn (contentSize - before.length - 2),
          outBytes.map fun _ => f.shownOut (contentSize - before.length - 2)) := by
  rw [netInterfaceBytes, parse_eq]
  cases t.found interface <;> rfl

lemma Count.shown_eq (c : Count) {k : ℕ} (h : c.text.length ≤ k) : c.shown k = c.value := by
  rw [Count.text, List.length_append, List.length_replicate] at h
  rw [Count.shown, List.take_of_length_le (by omega)]
  exact (print_spec c.value).2.1

lemma DevText.Meant.shown (h : t.Meant interface) : t.Shown interface := by
  unfold DevText.Meant at h
  unfold DevText.Shown
  cases hf : t.found interface with
  | none => simpa only [hf] using h
  | some m =>
    obtain ⟨before, f⟩ := m
    simp only [hf] at h ⊢
    obtain ⟨hname, hroom, hrange⟩ := h
    have hnine : f.firstNine.length =
        f.bytesIn.text.length + (columnsText f.between).length + (1 + f.bytesOut.text.length) := by
      simp only [Row.firstNine, columnsText, List.length_append, List.flatMap_singleton,
        List.length_cons]
      omega
    refine ⟨f, (of_found hf).2.1, hname, f.bytesIn.shown_eq (by omega), ?_⟩
    rw [Row.shownOut, if_pos hrange]
    exact f.bytesOut.shown_eq (by rw [List.length_append]; omega)

lemma Count.length_le_of_shown (c : Count) {k : ℕ} (h : c.shown k = c.value)
    (hc : c.value ≠ 0) : c.text.length ≤ k := by
  rw [Count.text, List.length_append, List.length_replicate]
  by_contra hk
  rw [Count.shown] at h
  by_cases hcut : k - c.pad < (print c.value).length
  · have := number_take_le hcut
    omega
  · have : k - c.pad = 0 := by omega
    rw [this] at h
    exact hc h.symm

lemma Count.shown_zero (c : Count) : c.shown 0 = 0 := by
  simp [Count.shown, number]

/-- Where the counts tell the rows apart, the row that is found is the one with the name. -/
lemma DevText.Telling.meant (ht : t.Telling interface) (h : t.Shown interface) :
    t.Meant interface := by
  unfold DevText.Shown at h
  unfold DevText.Meant
  cases hf : t.found interface with
  | none => simpa only [hf] using h
  | some m =>
    obtain ⟨before, f⟩ := m
    simp only [hf] at h ⊢
    obtain ⟨r, hr, hname, hin, hout⟩ := h
    obtain ⟨hne, hother⟩ := ht r hr hname
    rw [← hout, Row.shownOut] at hne
    by_cases hrange : ∀ c ∈ f.between, c.value < 2 ^ 63
    swap
    · exact absurd (if_neg hrange) hne
    rw [if_pos hrange] at hne
    -- as the ninth count is shown, the first one is shown to its end
    have hroom : (f.bytesIn.text ++ columnsText f.between).length + 1 <
        contentSize - before.length - 2 := by
      by_contra hno
      rw [show contentSize - before.length - 2 -
        (f.bytesIn.text ++ columnsText f.between).length - 1 = 0 by omega] at hne
      exact hne f.bytesOut.shown_zero
    rw [List.length_append] at hroom
    rw [Row.shownIn, f.bytesIn.shown_eq (by omega)] at hin
    obtain rfl := hother f (of_found hf).2.1 hin
    rw [Row.shownOut, if_pos hrange] at hout
    have hnine := f.bytesOut.length_le_of_shown hout (hout ▸ hne)
    refine ⟨hname, ?_, hrange⟩
    simp only [Row.firstNine, columnsText, List.length_append, List.flatMap_singleton,
      List.length_cons] at hnine hroom ⊢
    omega

/-- **When `parse` reads the row of the interface**: where the first row before whose colon the text
ends with the name is the one with that name, and its counts can be read up to the ninth. Nothing
else will do, unless counts are zero or the same. -/
theorem reads_of_meant (t : DevText) (dummy : ℤ) (interface : Str) :
    (t.Meant interface → Reads t dummy interface) ∧
      (t.Telling interface → (Reads t dummy interface ↔ t.Meant interface)) := by
  rw [reads_iff_shown]
  exact ⟨fun h => h.shown, fun ht => ⟨ht.meant, fun h => h.shown⟩⟩

/-- A row with the same number in all columns. -/
def sameRow (name : Str) (n : ℕ) (hn : n < 2 ^ 64) (hs : ∀ c ∈ name, isSpace c = false)
    (hc : chr ':' ∉ name) : Row where
  indent := 1
  name := name
  bytesIn := ⟨0, n, hn⟩
  between := List.replicate 7 ⟨0, n, hn⟩
  bytesOut := ⟨0, n, hn⟩
  later := List.replicate 7 ⟨0, n, hn⟩
  name_noSpace := hs
  name_noColon := hc
  length_between := List.length_replicate
  length_later := List.length_replicate

def veth0 : Row :=
  sameRow (lit ['v', 'e', 't', 'h', '0']) 5 (by decide) (by simp [lit]; decide) (by decide)

def eth0 : Row :=
  sameRow (lit ['e', 't', 'h', '0']) 7 (by decide) (by simp [lit]; decide) (by decide)

/-- Two interfaces, in this order, behind one line of a header. -/
def twoRows (r s : Row) (h : r.name ≠ s.name) : DevText where
  headers := [lit ['f', 'a', 'c', 'e', '|']]
  rows := [r, s]
  headers_noColon := by decide
  names_nodup := by simp [h]

/-- The name of the second one ends as that of the first, which is found. -/
theorem reads_of_meant_eth0 : Reads (twoRows eth0 veth0 (by decide)) 0 eth0.name := by
  refine (reads_of_meant _ 0 _).1 ?_
  have hfound : (twoRows eth0 veth0 (by decide)).found eth0.name =
      some (lit ['f', 'a', 'c', 'e', '|'] ++ [lf] ++ eth0.label, eth0) := rfl
  rw [DevText.Meant, hfound]
  exact ⟨rfl, by decide, by decide⟩

/-- Where it comes second, the counts of the first are read. -/
theorem reads_twoRows :
    parse .init 0 (some (twoRows veth0 eth0 (by decide)).text) eth0.name = (true, ⟨5, 5⟩) ∧
      ¬ Reads (twoRows veth0 eth0 (by decide)) 0 eth0.name := by
  have hparse : parse .init 0 (some (twoRows veth0 eth0 (by decide)).text) eth0.name =
      (true, ⟨5, 5⟩) := by
    rw [parse_eq]
    decide
  refine ⟨hparse, fun h => ?_⟩
  have hbytes := h.bytes eth0 (by simp [twoRows]) rfl
  rw [hparse] at hbytes
  exact absurd hbytes (by decide)

end Libchef.NetdevRow
