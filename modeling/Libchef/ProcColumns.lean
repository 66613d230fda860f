import Libchef.ProcModel

/-!
The columns that `proc_stat::parse` reads.

The name of the process is read as one word. With a blank in it, what follows the first word of the
name stands where numbers are expected. There are too few digits in a name for all the numbers
before the columns of the memory, so an extraction fails and the columns are not read.
-/

namespace Libchef.ProcColumns

open Libchef.Decimal Libchef.Istream Libchef.StringsModel Libchef.ProcModel

/-- The name of a process: at most 15 bytes, with a NUL after them. -/
structure Comm where
  name : Str
  length_le : name.length ≤ 15
  noNul : 0 ∉ name

/-- How the kernel shows a byte of the name. -/
def shownByte (c : UInt8) : Str :=
  if c = lf then lit ['\\', 'n'] else if c = chr '\\' then lit ['\\', '\\'] else [c]

def Comm.shown (c : Comm) : Str := c.name.flatMap shownByte

/-- There is no blank in the name, but for newlines, which are shown as something else. -/
def Comm.OneWord (c : Comm) : Prop := ∀ b ∈ c.name, isSpace b = true → b = lf

def isLetter (c : UInt8) : Bool :=
  (chr 'A' ≤ c ∧ c ≤ chr 'Z') ∨ (chr 'a' ≤ c ∧ c ≤ chr 'z')

def Fits32 (n : ℤ) : Prop := -2 ^ 31 ≤ n ∧ n ≤ 2 ^ 31 - 1

def Fits64 (n : ℤ) : Prop := -2 ^ 63 ≤ n ∧ n ≤ 2 ^ 63 - 1

/-- A line of `/proc/self/stat`. In `ints` are the fields 4 to 9, in `longs` the fields 10 to 22;
`vsize` and `res` are the fields 23 and 24. -/
structure StatLine where
  pid : ℤ
  comm : Comm
  state : UInt8
  ints : List ℤ
  longs : List ℤ
  vsize : ℤ
  res : ℤ
  rest : Str
  pid_fits : Fits32 pid
  isLetter_state : isLetter state = true
  length_ints : ints.length = 6
  ints_fit : ∀ i ∈ ints, Fits32 i
  length_longs : longs.length = 13
  longs_fit : ∀ i ∈ longs, Fits64 i
  vsize_fits : Fits64 vsize
  res_fits : Fits64 res
  rest_blank : ∀ c ∈ rest.head?, isSpace c = true

namespace StatLine

variable (l : StatLine)

/-- The line from the field after the state on. -/
def fields : Str := columns l.ints ++ (columns (l.longs ++ [l.vsize, l.res]) ++ cStr l.rest)

def text : Str :=
  printInt l.pid ++ lit [' ', '('] ++ l.comm.shown ++ lit [')', ' '] ++ [l.state] ++
    columns (l.ints ++ l.longs ++ [l.vsize, l.res]) ++ l.rest

end StatLine

/-- The right columns are read from the line. -/
structure Reads (d : ProcStat) (l : StatLine) (pageSize : ℤ) : Prop where
  vsize : (extractAll d l.text).vsize = l.vsize
  res : (extractAll d l.text).res = l.res
  virtKbytes : Fits32 (l.vsize.tdiv 1024) → ∀ ps, parse d l.text pageSize = some ps →
    ps.virtKbytes_ = l.vsize.tdiv 1024
  resKbytes : Fits32 (l.res * pageSize.tdiv 1024) → ∃ ps, parse d l.text pageSize = some ps ∧
    ps.resKbytes_ = l.res * pageSize.tdiv 1024

variable {d : ProcStat} {l : StatLine} {n : ℤ}

lemma toInt32_of_fits (h : Fits32 n) : toInt32 n = n := by
  obtain ⟨hlo, hhi⟩ := h
  rw [toInt32, BitVec.toInt_ofInt]
  exact Int.bmod_eq_of_le (by omega) (by omega)

lemma reads_of_columns (hv : (extractAll d l.text).vsize = l.vsize)
    (hr : (extractAll d l.text).res = l.res) (pageSize : ℤ) : Reads d l pageSize := by
  refine ⟨hv, hr, fun hfit ps hps => ?_, fun hfit => ?_⟩
  · simp only [parse] at hps
    split_ifs at hps
    rw [← Option.some.inj hps, hv]
    exact toInt32_of_fits hfit
  · obtain ⟨hlo, hhi⟩ := hfit
    simp only [parse, hr]
    rw [if_pos ⟨by omega, by omega⟩]
    exact ⟨_, rfl, toInt32_of_fits ⟨hlo, hhi⟩⟩

/-! ### The name as it is shown -/

lemma shownByte_cases (c : UInt8) : shownByte c = [c] ∨
    ∀ b ∈ shownByte c, b ≠ 0 ∧ isSpace b = false ∧ isDigit b = false := by
  unfold shownByte
  split_ifs
  · exact Or.inr (by decide +kernel)
  · exact Or.inr (by decide +kernel)
  · exact Or.inl rfl

lemma notMem_shown (c : Comm) : 0 ∉ c.shown := by
  intro h
  obtain ⟨b, hb, hmem⟩ := List.mem_flatMap.mp h
  rcases shownByte_cases b with he | hall
  · rw [he, List.mem_singleton] at hmem
    exact c.noNul (hmem ▸ hb)
  · exact (hall 0 hmem).1 rfl

lemma countP_shown_le (name : Str) :
    (name.flatMap shownByte).countP isDigit ≤ name.length := by
  induction name with
  | nil => exact le_rfl
  | cons c name ih =>
    have hone : (shownByte c).countP isDigit ≤ 1 := by
      rcases shownByte_cases c with he | hall
      · rw [he]
        exact List.countP_le_length
      · rw [List.countP_eq_zero.mpr fun b hb => by simp [(hall b hb).2.2]]
        exact Nat.zero_le 1
    rw [List.flatMap_cons, List.countP_append, List.length_cons]
    omega

lemma oneWord_iff (c : Comm) : c.OneWord ↔ ∀ b ∈ c.shown, isSpace b = false := by
  constructor
  · intro h b hb
    obtain ⟨a, ha, hmem⟩ := List.mem_flatMap.mp hb
    rcases shownByte_cases a with he | hall
    · rw [he, List.mem_singleton] at hmem
      subst hmem
      by_contra hs
      -- a newline is not shown as it is
      rw [h b ha (Bool.eq_true_of_not_eq_false hs)] at he
      exact absurd he (by decide)
    · exact (hall b hmem).2.1
  · intro h b hb hs
    by_contra hlf
    have hbs : b ≠ chr '\\' := by
      rintro rfl
      exact absurd hs (by decide)
    have hshow : shownByte b = [b] := by rw [shownByte, if_neg hlf, if_neg hbs]
    have := h b (List.mem_flatMap.mpr ⟨b, hb, by rw [hshow]; exact List.mem_singleton_self b⟩)
    rw [hs] at this
    cases this

lemma stop_letter {c : UInt8} (h : isLetter c = true) : Stop c := by
  have hrange : 65 ≤ c.toNat := by
    simp only [isLetter, decide_eq_true_eq, UInt8.le_iff_toNat_le] at h
    rcases h with h | h
    · exact h.1
    · exact le_trans (by decide) h.1
  have hne {b : UInt8} (hb : b.toNat < 65) : c ≠ b := by
    rintro rfl
    omega
  refine ⟨?_, ?_, hne (by decide), hne (by decide)⟩
  · simp only [isSpace, decide_eq_false_iff_not, not_or, not_and, UInt8.le_iff_toNat_le]
    refine ⟨hne (by decide), fun _ h13 => ?_⟩
    have h13' : c.toNat ≤ 13 := h13
    omega
  · simp only [isDigit, decide_eq_false_iff_not, not_and, UInt8.le_iff_toNat_le]
    intro _ h9
    have h9' : c.toNat ≤ 57 := h9
    omega

lemma stop_paren : Stop (chr ')') := ⟨by decide, by decide, by decide, by decide⟩

/-! ### The extractions -/

lemma notMem_columns (fs : List ℤ) : 0 ∉ columns fs := by
  intro h
  obtain ⟨i, -, hmem⟩ := List.mem_flatMap.mp h
  rcases List.mem_cons.mp hmem with h | h
  · exact absurd h (by decide)
  · exact notMem_printInt (by decide) (by decide) i h

lemma cStr_text (l : StatLine) : cStr l.text =
    [] ++ printInt l.pid ++ (lit [' '] ++ chr '(' :: (l.comm.shown ++ chr ')' ::
      (lit [' '] ++ l.state :: l.fields))) := by
  have hpid : 0 ∉ printInt l.pid := notMem_printInt (by decide) (by decide) l.pid
  have hstate : 0 ≠ l.state := by
    intro h
    have := l.isLetter_state
    rw [← h] at this
    exact absurd this (by decide)
  rw [StatLine.text, cStr_append, List.append_assoc l.ints, columns_append]
  · simp [StatLine.fields, lit]
  · simp only [List.mem_append, not_or, List.mem_singleton]
    exact ⟨⟨⟨⟨⟨hpid, by decide⟩, notMem_shown l.comm⟩, by decide⟩, hstate⟩, notMem_columns _⟩

lemma extract_pid (l : StatLine) (v : ℤ) : extract readInt32 (v, ⟨cStr l.text, false⟩) =
    (l.pid, ⟨lit [' '] ++ chr '(' :: (l.comm.shown ++ chr ')' ::
      (lit [' '] ++ l.state :: l.fields)), false⟩) := by
  rw [cStr_text]
  refine extract_int (by simp) l.pid_fits.1 l.pid_fits.2 (fun c hc => ?_) v
  obtain rfl := Option.some.inj hc
  decide

lemma columns_of_few {b : UInt8} (hb : Stop b) {v w : ℤ} {st : Input} (h : Few b 19 st) :
    ((extract readInt64)^[13] (v, ((extract readInt32)^[6] (w, st)).2)).2.fail = true := by
  have hints : Few b 13 ((extract readInt32)^[6] (w, st)).2 := Few.iterate hb h
  exact few_zero.mp (Few.iterate hb hints)

/-- The stream after the name and the state. -/
def afterState (d : ProcStat) (l : StatLine) : Input :=
  (extract readChar (d.chDummy_, (extract readWord (d.stringDummy_,
    (extract readInt32 (d.int32Dummy_, ⟨cStr l.text, false⟩)).2)).2)).2

lemma exists_columns (d : ProcStat) (l : StatLine) {P : Input → Prop}
    (h : ∀ v w, P ((extract readInt64)^[13]
      (v, ((extract readInt32)^[6] (w, afterState d l)).2)).2) :
    ∃ st, P st ∧ (extractAll d l.text).vsize = (extract readInt64 (0, st)).1 ∧
      (extractAll d l.text).res = (extract readInt64 (0, (extract readInt64 (0, st)).2)).1 :=
  ⟨_, h d.int64Dummy_ _, rfl, rfl⟩

lemma head?_cStr_rest (l : StatLine) : ∀ c ∈ (cStr l.rest).head?, isDigit c = false := by
  intro c hc
  have hmem : c ∈ l.rest.head? := by
    cases hrest : l.rest with
    | nil => rw [hrest] at hc; cases hc
    | cons b s =>
      rw [hrest, cStr, List.takeWhile_cons] at hc
      split_ifs at hc
      · exact hc
      · cases hc
  by_contra hd
  have hs := isSpace_of_isDigit (Bool.eq_true_of_not_eq_false hd)
  rw [l.rest_blank c hmem] at hs
  cases hs

lemma extract_columns_pair (l : StatLine) (v w : ℤ) :
    ((extract readInt64)^[13] (v, ((extract readInt32)^[6] (w, ⟨l.fields, false⟩)).2)).2 =
      ⟨columns [l.vsize, l.res] ++ cStr l.rest, false⟩ := by
  have hhead := head?_columns [l.vsize, l.res] (head?_cStr_rest l)
  have hlongs := extract_columns (r := columns [l.vsize, l.res] ++ cStr l.rest) l.longs_fit hhead v
  have hints := extract_columns
    (r := columns (l.longs ++ [l.vsize, l.res]) ++ cStr l.rest) l.ints_fit
    (head?_columns _ (head?_cStr_rest l)) w
  rw [l.length_ints] at hints
  rw [l.length_longs] at hlongs
  rw [StatLine.fields, readInt32, hints, columns_append, List.append_assoc, readInt64, hlongs]

section OneWord

variable (h : l.comm.OneWord)

include h in
lemma extract_comm (s : Str) (t : Str) :
    extract readWord (s, ⟨lit [' '] ++ chr '(' :: (l.comm.shown ++ chr ')' :: (lit [' '] ++ t)),
        false⟩) = (chr '(' :: (l.comm.shown ++ [chr ')']), ⟨lit [' '] ++ t, false⟩) := by
  rw [extract_blanks (by decide +kernel) (by decide)]
  have hword : ∀ c ∈ chr '(' :: (l.comm.shown ++ [chr ')']), (!isSpace c) = true := by
    intro c hc
    simp only [List.mem_cons, List.mem_append, List.not_mem_nil, or_false] at hc
    rcases hc with rfl | hc | rfl
    · decide
    · rw [(oneWord_iff _).mp h c hc]; rfl
    · decide
  have hsplit : chr '(' :: (l.comm.shown ++ chr ')' :: (lit [' '] ++ t)) =
      (chr '(' :: (l.comm.shown ++ [chr ')'])) ++ (lit [' '] ++ t) := by simp
  rw [readWord, hsplit, List.takeWhile_append_of_pos hword, List.dropWhile_append_of_pos hword]
  have htake : (lit [' '] ++ t).takeWhile (fun c => !isSpace c) = [] := rfl
  have hdrop : (lit [' '] ++ t).dropWhile (fun c => !isSpace c) = lit [' '] ++ t := rfl
  rw [htake, hdrop, List.append_nil]

include h in
/-- With a name of one word the columns are read. -/
lemma reads_of_oneWord (d : ProcStat) (pageSize : ℤ) : Reads d l pageSize := by
  have hstate : afterState d l = ⟨l.fields, false⟩ := by
    rw [afterState, extract_pid, extract_comm h,
      extract_blanks (by decide +kernel) (stop_letter l.isLetter_state).space]
    rfl
  obtain ⟨st, rfl, hv, hr⟩ := exists_columns d l (P := (· = _)) fun v w =>
    hstate ▸ extract_columns_pair l v w
  have hfirst : extract readInt64 (0, ⟨columns [l.vsize, l.res] ++ cStr l.rest, false⟩) =
      (l.vsize, ⟨columns [l.res] ++ cStr l.rest, false⟩) := by
    rw [columns_cons, List.append_assoc]
    exact extract_int (by simpa using by decide) l.vsize_fits.1 l.vsize_fits.2
      (head?_columns _ (head?_cStr_rest l)) 0
  have hsecond : extract readInt64 (0, ⟨columns [l.res] ++ cStr l.rest, false⟩) =
      (l.res, ⟨cStr l.rest, false⟩) := by
    rw [columns_cons, List.append_assoc]
    exact extract_int (by simpa using by decide) l.res_fits.1 l.res_fits.2 (head?_cStr_rest l) 0
  rw [hfirst] at hv hr
  rw [hsecond] at hr
  exact reads_of_columns hv hr pageSize

end OneWord

/-- The word that is read ends in the name if there is a blank. -/
lemma extract_comm_blank (h : ¬ l.comm.OneWord) (s t : Str) :
    ∃ c u, isSpace c = true ∧ (c :: u).countP isDigit ≤ 15 ∧
      (extract readWord (s, ⟨lit [' '] ++ chr '(' :: (l.comm.shown ++ chr ')' :: t), false⟩)).2 =
        ⟨(c :: u) ++ chr ')' :: t, false⟩ := by
  have hblank : l.comm.shown.dropWhile (fun b => !isSpace b) ≠ [] := by
    intro hnil
    rw [List.dropWhile_eq_nil_iff] at hnil
    exact h ((oneWord_iff _).mpr fun b hb => by simpa using hnil b hb)
  obtain ⟨c, u, hu⟩ := List.exists_cons_of_ne_nil hblank
  have hc : isSpace c = true := by
    have := List.head?_dropWhile_not (fun b => !isSpace b) l.comm.shown
    rw [hu] at this
    simpa using this
  have hcount : (c :: u).countP isDigit ≤ 15 := by
    rw [← hu]
    calc (l.comm.shown.dropWhile fun b => !isSpace b).countP isDigit
        ≤ l.comm.shown.countP isDigit := (List.dropWhile_sublist _).countP_le
      _ ≤ l.comm.name.length := countP_shown_le _
      _ ≤ 15 := l.comm.length_le
  refine ⟨c, u, hc, hcount, ?_⟩
  rw [extract_blanks (by decide +kernel) (by decide), readWord]
  have hparen : (!isSpace (chr '(')) = true := by decide
  have hcut := l.comm.shown.takeWhile_append_dropWhile (p := fun b => !isSpace b)
  rw [hu] at hcut
  have hword : ∀ b ∈ l.comm.shown.takeWhile fun b => !isSpace b, (!isSpace b) = true :=
    fun b hb => List.mem_takeWhile_imp (p := fun b => !isSpace b) hb
  rw [List.dropWhile_cons_of_pos (p := fun b => !isSpace b) hparen, ← hcut, List.append_assoc,
    List.dropWhile_append_of_pos hword, List.cons_append,
    List.dropWhile_cons_of_neg (by simp [hc])]

/-- With a blank in the name a number is missing. -/
lemma few_of_not_oneWord (h : ¬ l.comm.OneWord) (d : ProcStat) :
    ∃ b, Stop b ∧ Few b 19 (afterState d l) := by
  obtain ⟨c, u, hc, hcount, hword⟩ :=
    extract_comm_blank h d.stringDummy_ (lit [' '] ++ l.state :: l.fields)
  rw [afterState, extract_pid, hword]
  have hsplit := (c :: u).takeWhile_append_dropWhile (p := isSpace)
  have hblanks : ∀ b ∈ (c :: u).takeWhile isSpace, isSpace b = true :=
    fun b hb => List.mem_takeWhile_imp hb
  cases hd : (c :: u).dropWhile isSpace with
  | nil =>
    -- the character is the parenthesis, and the state stands where a number should
    rw [hd, List.append_nil] at hsplit
    refine ⟨l.state, stop_letter l.isLetter_state, Or.inr ⟨lit [' '], l.fields, ?_, by decide⟩⟩
    rw [← hsplit, extract_blanks hblanks stop_paren.space]
    rfl
  | cons e v =>
    have he : isSpace e = false := by
      have := List.head?_dropWhile_not isSpace (c :: u)
      rw [hd] at this
      simpa using this
    refine ⟨chr ')', stop_paren, Or.inr ⟨v, lit [' '] ++ l.state :: l.fields, ?_, ?_⟩⟩
    · rw [hd] at hsplit
      rw [← hsplit, List.append_assoc, List.cons_append, extract_blanks hblanks he]
      rfl
    · have hv : List.Sublist v (c :: u) :=
        (List.sublist_cons_self e v).trans (hd ▸ List.dropWhile_sublist _)
      have := hv.countP_le (p := isDigit)
      omega

lemma columns_of_not_oneWord (h : ¬ l.comm.OneWord) (d : ProcStat) :
    (extractAll d l.text).vsize = 0 ∧ (extractAll d l.text).res = 0 := by
  obtain ⟨b, hb, hfew⟩ := few_of_not_oneWord h d
  obtain ⟨st, hst, hv, hr⟩ := exists_columns d l (P := fun st => st.fail = true) fun v w =>
    columns_of_few hb hfew
  have hkeep : extract readInt64 (0, st) = (0, st) := extract_fail hst
  rw [hkeep] at hv hr
  rw [hkeep] at hr
  exact ⟨hv, hr⟩

/-- **`parse` reads the right columns exactly if the name of the process is one word**, or if the
columns are 0, as they are where it reads none. -/
theorem stat_columns_iff (d : ProcStat) (l : StatLine) (pageSize : ℤ) :
    Reads d l pageSize ↔ l.comm.OneWord ∨ (l.vsize = 0 ∧ l.res = 0) := by
  constructor
  · intro hreads
    by_cases h : l.comm.OneWord
    · exact Or.inl h
    · obtain ⟨hv, hr⟩ := columns_of_not_oneWord h d
      exact Or.inr ⟨hreads.vsize.symm.trans hv, hreads.res.symm.trans hr⟩
  · intro h
    by_cases hone : l.comm.OneWord
    · exact reads_of_oneWord hone d pageSize
    · obtain ⟨hv, hr⟩ := columns_of_not_oneWord hone d
      obtain ⟨hv0, hr0⟩ := h.resolve_left hone
      exact reads_of_columns (hv.trans hv0.symm) (hr.trans hr0.symm) pageSize

/-- **`obtain_mem_info`** gives the two columns of such a line, in units of 1024 bytes. -/
theorem obtainMemInfo_eq (h : l.comm.OneWord) (hlen : l.text.length ≤ 65535) {pageSize : ℤ}
    (hvirt : Fits32 (l.vsize.tdiv 1024)) (hres : Fits32 (l.res * pageSize.tdiv 1024))
    (d : ProcStat) (mi : MemInfo) :
    obtainMemInfo d (some l.text) pageSize (some mi) =
      some (true, some ⟨l.vsize.tdiv 1024, l.res * pageSize.tdiv 1024⟩) := by
  have hreads := reads_of_oneWord h d pageSize
  obtain ⟨ps, hps, hresK⟩ := hreads.resKbytes hres
  have hfile : FilepathModel.readFile (some l.text) 65535 = l.text :=
    List.take_of_length_le hlen
  simp only [obtainMemInfo, hfile, hps, Option.map_some, hresK, hreads.virtKbytes hvirt ps hps]

/-- The line of a process that is called `a b`, of 2048 bytes and one page. -/
def blankName : StatLine where
  pid := 7
  comm := ⟨lit ['a', ' ', 'b'], by decide, by decide⟩
  state := chr 'S'
  ints := [1, 1, 1, 0, -1, 0]
  longs := [0, 0, 0, 0, 0, 0, 0, 0, 20, 0, 1, 0, 100]
  vsize := 2048
  res := 1
  rest := lit [' ', '0', '\n']
  pid_fits := ⟨by decide, by decide⟩
  isLetter_state := by decide
  length_ints := rfl
  ints_fit := by simp [Fits32]
  length_longs := rfl
  longs_fit := by simp [Fits64]
  vsize_fits := ⟨by decide, by decide⟩
  res_fits := ⟨by decide, by decide⟩
  rest_blank := by simp [lit]; decide

/-- No column of the memory is read from it. -/
theorem reads_blankName :
    (extractAll ⟨[], 0, 0, 0, 0, 0⟩ blankName.text).vsize = 0 ∧
      ¬ Reads ⟨[], 0, 0, 0, 0, 0⟩ blankName 4096 := by
  have hbroken : ¬ blankName.comm.OneWord := fun hone =>
    absurd (hone (chr ' ') (by decide) (by decide)) (by decide)
  have hzero := (columns_of_not_oneWord hbroken ⟨[], 0, 0, 0, 0, 0⟩).1
  refine ⟨hzero, fun h => ?_⟩
  have hreads := h.vsize
  rw [hzero] at hreads
  cases hreads

end Libchef.ProcColumns
