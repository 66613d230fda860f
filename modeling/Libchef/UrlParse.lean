import Libchef.StringsCut
import Libchef.UrlModel

/-!
What the parts of a parsed URL are.

The parts put together again are the URL, and all of them depend on the URL alone, with one
exception: a URL without a port leaves the port of the context as it was.
-/

namespace Libchef.UrlParse

open Libchef.Text Libchef.StringsModel Libchef.StringsCut Libchef.UrlModel

variable {url pre rest : Str}

/-- The text that ends the scheme. -/
abbrev schemeEnd : Str := lit [':', '/', '/']

/-- `://` does not overlap itself, so what comes before it first is what does not contain it. -/
lemma find_schemeEnd (h : ¬ schemeEnd <:+: pre) :
    find (pre ++ schemeEnd ++ rest) schemeEnd 0 = some pre.length := by
  have hat := At.append pre schemeEnd rest
  refine find_eq_some.mpr ⟨Nat.zero_le _, hat, fun i _ hi hi' => ?_⟩
  by_cases hlt : i + 3 ≤ pre.length
  · rw [List.append_assoc] at hi'
    exact h (infix_iff_at.mpr ⟨i, hi'.of_append hlt⟩)
  · -- the two would share a character
    have hget : ∀ {s : Str} {r : ℕ}, At s schemeEnd r →
        s[r]? = some (chr ':') ∧ s[r + 1]? = some (chr '/') ∧ s[r + 2]? = some (chr '/') := by
      intro s r hr
      obtain ⟨a, b, rfl, rfl⟩ := at_iff.mp hr
      simp [lit]
    obtain ⟨-, h1, h2⟩ := hget hi'
    obtain ⟨h0, -, -⟩ := hget hat
    rcases (by omega : i + 1 = pre.length ∨ i + 2 = pre.length) with he | he
    · rw [he, h0] at h1
      exact absurd h1 (by decide)
    · rw [he, h0] at h2
      exact absurd h2 (by decide)

lemma cut_schemeEnd (h : ¬ schemeEnd <:+: pre) :
    cut (pre ++ schemeEnd ++ rest) schemeEnd = (true, pre, rest) :=
  cut_append (find_schemeEnd h)

/-! ### The parts -/

/-- The first cut behind the scheme. -/
def hostCut (url : Str) : Bool × Str × Str := cut (cut url schemeEnd).2.2 (lit ['/'])

/-- The cut of the host. -/
def portCut (url : Str) : Bool × Str × Str := cut (hostCut url).2.1 (lit [':'])

/-- The cut of the path. -/
def queryCut (url : Str) : Bool × Str × Str := cut (lit ['/'] ++ (hostCut url).2.2) (lit ['?'])

def itemCut (url : Str) : Bool × Str × Str := cutLast (queryCut url).2.1 (lit ['/'])

lemma hostCut_no_scheme (h : ¬ schemeEnd <:+: url) : hostCut url = (false, [], []) := by
  rw [hostCut, (cut_not_found (by decide) h).2]
  rfl

/-- What `parse` writes. -/
lemma parse_eq (url : Str) (ctx : UrlContext) : parse url ctx = (
    { url_ := url
      scheme_ := (cut url schemeEnd).2.1
      stdhost_ := (hostCut url).2.1
      host_ := (portCut url).2.1
      originPort_ :=
        if (portCut url).2.2 ≠ [] then Decimal.atoi (portCut url).2.2 else ctx.originPort_
      pathWithRawQuery_ := lit ['/'] ++ (hostCut url).2.2
      path_ := (queryCut url).2.1
      pathWithoutLastItem_ := trimPrefix (itemCut url).2.1 (lit ['/'])
      lastItemOfPath_ := (itemCut url).2.2
      rawQuery_ := (queryCut url).2.2 }, 0) := by
  unfold parse
  by_cases h : (portCut url).2.2 = []
  · have h' : (cut (cut (cut url schemeEnd).2.2 (lit ['/'])).2.1 (lit [':'])).2.2 = [] := h
    simp only [h, h', ne_eq, not_true_eq_false, if_false]
    rfl
  · have h' : (cut (cut (cut url schemeEnd).2.2 (lit ['/'])).2.1 (lit [':'])).2.2 ≠ [] := h
    simp only [if_pos h, if_pos h']
    rfl

/-- What follows the slash that ends the host, up to the query. -/
def pathTail (url : Str) : Str := (cut (hostCut url).2.2 (lit ['?'])).2.1

lemma path_eq (url : Str) : (queryCut url).2.1 = chr '/' :: pathTail url := by
  obtain ⟨hnot, -, -⟩ := cut_char (hostCut url).2.2 (chr '?')
  obtain ⟨b, hb, hs⟩ := exists_cut_char (hostCut url).2.2 (chr '?')
  have hcut : (cut ((chr '/' :: pathTail url) ++ b) [chr '?']).2.1 = chr '/' :: pathTail url :=
    cut_char_before (List.not_mem_cons_of_ne_of_not_mem (by decide) hnot) hb
  rw [queryCut, lit_singleton, lit_singleton, hs]
  exact hcut

lemma slash_mem_path (url : Str) : chr '/' ∈ (queryCut url).2.1 := by
  rw [path_eq]
  exact List.mem_cons_self

/-! ### Nothing is lost -/

/-- The parts of a URL that has `rest` behind its scheme fit together. -/
structure Lossless (url rest : Str) (c : UrlContext) : Prop where
  whole : c.scheme_ ++ schemeEnd ++ c.stdhost_ ++ c.pathWithRawQuery_ =
    if chr '/' ∈ rest then url else url ++ [chr '/']
  scheme : ¬ schemeEnd <:+: c.scheme_
  stdhost : chr '/' ∉ c.stdhost_
  slash : c.pathWithRawQuery_.head? = some (chr '/')
  query : c.pathWithRawQuery_ =
    if chr '?' ∈ c.pathWithRawQuery_ then c.path_ ++ chr '?' :: c.rawQuery_ else c.path_
  path : chr '?' ∉ c.path_
  port : c.stdhost_ = c.host_ ∨ ∃ port, c.stdhost_ = c.host_ ++ chr ':' :: port ∧
    (port ≠ [] → c.originPort_ = Decimal.atoi port)
  host : chr ':' ∉ c.host_
  item : chr '/' ∉ c.lastItemOfPath_
  items : ∃ X, c.path_ = X ++ chr '/' :: c.lastItemOfPath_ ∧
    (X = c.pathWithoutLastItem_ ∨ X = chr '/' :: c.pathWithoutLastItem_)

lemma itemCut_spec (url : Str) :
    (queryCut url).2.1 = (itemCut url).2.1 ++ chr '/' :: (itemCut url).2.2 ∧
      chr '/' ∉ (itemCut url).2.2 := by
  rw [itemCut, lit_singleton]
  exact cutLast_char (slash_mem_path url)

/-- **Nothing is lost**: the parts of a URL put together are the URL. -/
theorem parse_lossless (hurl : url = pre ++ schemeEnd ++ rest) (hfirst : ¬ schemeEnd <:+: pre)
    (ctx : UrlContext) : Lossless url rest (parse url ctx).1 := by
  obtain ⟨hs, hin, hout⟩ := cut_char rest (chr '/')
  have hcut : cut url schemeEnd = (true, pre, rest) := by rw [hurl, cut_schemeEnd hfirst]
  have hhost : hostCut url = cut rest [chr '/'] := by rw [hostCut, hcut]; rfl
  obtain ⟨hq, hqin, hqout⟩ := cut_char (chr '/' :: (hostCut url).2.2) (chr '?')
  obtain ⟨hp, hpin, hpout⟩ := cut_char (hostCut url).2.1 (chr ':')
  obtain ⟨hitem, hlast⟩ := itemCut_spec url
  rw [parse_eq]
  constructor
  case whole =>
    simp only [hcut, hhost]
    split_ifs with h
    · conv_rhs => rw [hurl, hin h]
      simp [lit]
    · obtain ⟨h1, h2⟩ := hout h
      rw [h1, h2, hurl]
      simp [lit]
  case scheme => rwa [hcut]
  case stdhost => rwa [hhost]
  case slash => rfl
  case query =>
    by_cases h : chr '?' ∈ chr '/' :: (hostCut url).2.2
    · exact (hqin h).trans (if_pos h).symm
    · exact (hqout h).1.symm.trans (if_neg h).symm
  case path => exact hq
  case port =>
    by_cases h : chr ':' ∈ (hostCut url).2.1
    · exact Or.inr ⟨_, hpin h, fun hne => if_pos hne⟩
    · exact Or.inl (hpout h).1.symm
  case host => exact hp
  case item => exact hlast
  case items =>
    exact ⟨(itemCut url).2.1, hitem, trimPrefix_spec (itemCut url).2.1 (lit ['/'])⟩

/-- A URL with two colons, slashes and question marks. -/
theorem parse_lossless_query :
    ∃ ctx url rest, ctx = ⟨[], [], [], [], 0, [], [], [], [], []⟩ ∧
      url = lit ['h'] ++ schemeEnd ++ rest ∧
      rest = lit ['a', ':', '8', '/', 'b', '/', 'c', '?', 'd', '?', ':', '/'] ∧
      Lossless url rest (parse url ctx).1 :=
  ⟨_, _, _, rfl, rfl, rfl, parse_lossless rfl (by decide) _⟩

/-! ### What depends on the context -/

/-- The URL carries a port: a colon in its host with a text behind it. -/
def CarriesPort (url : Str) : Prop :=
  ∃ scheme host port tail, url = scheme ++ schemeEnd ++ host ++ chr ':' :: port ++ tail ∧
    ¬ schemeEnd <:+: scheme ∧ chr '/' ∉ host ∧ chr ':' ∉ host ∧ chr '/' ∉ port ∧ port ≠ [] ∧
    (tail = [] ∨ tail.head? = some (chr '/'))

/-- Whatever was in the context before, `parse` leaves the same in it, and no port if the URL
carries none. -/
def ContextFree (url : Str) : Prop :=
  ∀ ctx ctx', parse url ctx = parse url ctx' ∧
    (¬ CarriesPort url → (parse url ctx).1.originPort_ = 0)

lemma carriesPort_iff : CarriesPort url ↔ (portCut url).2.2 ≠ [] := by
  constructor
  · rintro ⟨scheme, host, port, tail, rfl, hs, hh, hc, hp, hne, ht⟩
    have hrest : (cut (scheme ++ schemeEnd ++ host ++ chr ':' :: port ++ tail) schemeEnd).2.2 =
        (host ++ chr ':' :: port) ++ tail := by
      rw [List.append_assoc _ host, List.append_assoc _ _ tail, cut_schemeEnd hs]
    have hno : chr '/' ∉ host ++ chr ':' :: port := by
      simp only [List.mem_append, List.mem_cons, not_or]
      exact ⟨hh, by decide, hp⟩
    have hhost : (hostCut (scheme ++ schemeEnd ++ host ++ chr ':' :: port ++ tail)).2.1 =
        host ++ chr ':' :: port := by
      rw [hostCut, hrest]
      exact cut_char_before hno ht
    rw [portCut, hhost]
    exact (congrArg (fun x => x.2.2) (cut_char_append hc port)).trans_ne hne
  · intro hne
    obtain ⟨hc, hcin, hcout⟩ := cut_char (hostCut url).2.1 (chr ':')
    obtain ⟨hs, -, -⟩ := cut_char (cut url schemeEnd).2.2 (chr '/')
    have hcolon : chr ':' ∈ (hostCut url).2.1 := by
      by_contra h
      exact hne (hcout h).2
    have hstd := hcin hcolon
    have hscheme : schemeEnd <:+: url := by
      by_contra h
      rw [hostCut_no_scheme h] at hcolon
      cases hcolon
    have hurl := cut_found (by decide) hscheme
    have hport : chr '/' ∉ (portCut url).2.2 := fun h => hs (by
      show chr '/' ∈ (hostCut url).2.1
      rw [hstd]
      exact List.mem_append_right _ (List.mem_cons_of_mem _ h))
    have hhost : chr '/' ∉ (portCut url).2.1 := fun h => hs (by
      show chr '/' ∈ (hostCut url).2.1
      rw [hstd]
      exact List.mem_append_left _ h)
    -- what follows the port is empty, or begins with the slash
    obtain ⟨tail, ht, hrest⟩ := exists_cut_char (cut url schemeEnd).2.2 (chr '/')
    refine ⟨(cut url schemeEnd).2.1, (portCut url).2.1, (portCut url).2.2, tail, ?_,
      (cut_spec (by decide)).1, hhost, hc, hport, hne, ht⟩
    calc url = (cut url schemeEnd).2.1 ++ schemeEnd ++ (cut url schemeEnd).2.2 := hurl
      _ = (cut url schemeEnd).2.1 ++ schemeEnd ++
          ((portCut url).2.1 ++ chr ':' :: (portCut url).2.2 ++ tail) := by
        conv_lhs => rw [hrest]
        exact congrArg (fun x => _ ++ (x ++ tail)) hstd
      _ = _ := by simp only [List.append_assoc]

/-- **When the context does not matter**: if and only if the URL carries a port. -/
theorem contextFree_iff (url : Str) : ContextFree url ↔ CarriesPort url := by
  constructor
  · intro h
    by_contra hno
    have hport : (portCut url).2.2 = [] := by
      by_contra hne
      exact hno (carriesPort_iff.mpr hne)
    let ctx : UrlContext := ⟨[], [], [], [], 1, [], [], [], [], []⟩
    have h1 := (h ctx ctx).2 hno
    rw [parse_eq] at h1
    simp [hport, ctx] at h1
  · intro h ctx ctx'
    have hne := carriesPort_iff.mp h
    refine ⟨?_, fun hno => absurd h hno⟩
    rw [parse_eq, parse_eq]
    simp only [if_pos hne]

/-- A URL without a port gets that of the URL before it. -/
theorem parse_keeps_port : ∃ ctx first second,
    first = lit ['h', ':', '/', '/', 'a', ':', '8', '0', '/'] ∧
    second = lit ['h', ':', '/', '/', 'b', '/'] ∧
    (parse second (parse first ctx).1).1.originPort_ = 80 ∧ ¬ ContextFree second := by
  refine ⟨⟨[], [], [], [], 0, [], [], [], [], []⟩, _, _, rfl, rfl, by decide, fun h => ?_⟩
  have := (h ⟨[], [], [], [], 1, [], [], [], [], []⟩ ⟨[], [], [], [], 2, [], [], [], [], []⟩).1
  revert this
  decide

end Libchef.UrlParse
