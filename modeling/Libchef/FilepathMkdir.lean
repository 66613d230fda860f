import Libchef.Base.Tree
import Libchef.StringsModel

/-!
Making the directories of a path, as `chef_filepath_op.hpp` does it.

Each prefix of the path that ends before a slash or at the end is given to `mkdir`, and that
something exists there already is no failure. So every call leaves the tree as it was but for
directories on the path. It is told nothing of what exists there: a regular file at the end of
the path goes unnoticed, one on the way makes the next call fail.
-/

namespace Libchef.FilepathMkdir

open Libchef.Files (slash)
open Libchef.StringsModel Libchef.Tree

/-- The next `n` rounds of the loop of `mkdir_recursive`, from position `i` on. -/
def mkdirLoop (path : Str) : ℕ → ℕ → FileTree → ℤ × FileTree
  | 0, _, t => (0, t)
  | n + 1, i, t =>
    if path[i]? = some slash ∨ path[i]? = none then
      match t.mkdir (path.take i) with
      | .ok t => mkdirLoop path n (i + 1) t
      | .error .eexist => mkdirLoop path n (i + 1) t
      | .error _ => (-1, t)
    else mkdirLoop path n (i + 1) t

/-- `mkdir_recursive`, with the tree that it leaves behind. -/
def mkdirRecursive (pathname : Str) (t : FileTree) : ℤ × FileTree :=
  if pathname = [] then (-1, t)
  else
    let pathDup := cStr pathname
    if pathDup.length = 0 then (-1, t)
    else
      let i := if pathDup.head? = some slash then 1 else 0
      mkdirLoop pathDup (pathDup.length + 1 - i) i t

variable {path pathname : Str} {t t' t'' : FileTree} {n i : ℕ}

/-! ### What is made -/

/-- `t'` is `t` with directories that are prefixes of the path, up to a slash or to the end. -/
structure Made (path : Str) (t t' : FileTree) : Prop where
  more : Extends t t'
  along : ∀ l, t.node l = none → t'.node l ≠ none →
    ∃ i, (path[i]? = some slash ∨ i = path.length) ∧ t'.find (path.take i) = .ok l

lemma Made.refl (path : Str) (t : FileTree) : Made path t t :=
  ⟨Extends.refl t, fun _ h h' => absurd h h'⟩

lemma Made.trans (h : Made path t t') (h' : Made path t' t'') : Made path t t'' := by
  refine ⟨h.more.trans h'.more, fun l hn hs => ?_⟩
  by_cases hl : t'.node l = none
  · exact h'.along l hl hs
  · obtain ⟨q, hq, hf⟩ := h.along l hn hl
    exact ⟨q, hq, h'.more.find hf⟩

lemma made_mkdir (hi : path[i]? = some slash ∨ path[i]? = none)
    (h : t.mkdir (path.take i) = .ok t') : Made path t t' := by
  obtain ⟨j, hj, htake⟩ : ∃ j, (path[j]? = some slash ∨ j = path.length) ∧
      path.take j = path.take i := by
    rcases hi with hi | hi
    · exact ⟨i, Or.inl hi, rfl⟩
    · refine ⟨path.length, Or.inr rfl, ?_⟩
      rw [List.take_length, List.take_of_length_le (List.getElem?_eq_none_iff.mp hi)]
  obtain ⟨hext, l, hf, -, hsame⟩ := mkdir_ok_find h
  refine ⟨hext, fun l' hn hs => ⟨j, hj, ?_⟩⟩
  rw [htake]
  by_cases hl : l' = l
  · rw [hl, hf]
  · rw [hsame l' hl] at hs
    exact absurd hn hs

/-- Only directories on the path are made, however the loop ends. -/
theorem made_loop (path : Str) (n i : ℕ) (t : FileTree) : Made path t (mkdirLoop path n i t).2 := by
  induction n generalizing i t with
  | zero => exact Made.refl path t
  | succ n ih =>
    rw [mkdirLoop]
    split_ifs with hi
    · cases hm : t.mkdir (path.take i) with
      | ok t' => exact (made_mkdir hi hm).trans (ih (i + 1) t')
      | error e =>
        cases e with
        | eexist => exact ih (i + 1) t
        | enoent | enotdir => exact Made.refl path t
    · exact ih (i + 1) t

/-- Where it returns zero, the call for the whole path has made a directory, or something has
been there. -/
lemma loop_last (hi : i + n = path.length) (h : (mkdirLoop path (n + 1) i t).1 = 0) :
    ∃ t₁, Made path t t₁ ∧ (t₁.mkdir path = .ok (mkdirLoop path (n + 1) i t).2 ∨
      t₁.mkdir path = .error .eexist ∧ (mkdirLoop path (n + 1) i t).2 = t₁) := by
  induction n generalizing i t with
  | zero =>
    obtain rfl : i = path.length := by omega
    refine ⟨t, Made.refl path t, ?_⟩
    simp only [mkdirLoop, List.getElem?_eq_none le_rfl, or_true, if_true, List.take_length] at h ⊢
    cases hm : t.mkdir path with
    | ok t' => simp
    | error e => cases e <;> simp_all
  | succ n ih =>
    rw [mkdirLoop] at h ⊢
    split_ifs at h ⊢ with hslash
    · cases hm : t.mkdir (path.take i) with
      | ok t' =>
        simp only [hm] at h ⊢
        obtain ⟨t₁, h₁, hl⟩ := ih (by omega) h
        exact ⟨t₁, (made_mkdir hslash hm).trans h₁, hl⟩
      | error e =>
        cases e with
        | eexist =>
          simp only [hm] at h ⊢
          exact ih (by omega) h
        | enoent | enotdir => simp [hm] at h
    · exact ih (by omega) h

/-! ### A regular file at the end of the path -/

/-- The components of the path lead to a regular file, and to none on the way. -/
structure Overlooked (t : FileTree) (path : Str) : Prop where
  file : ∃ content, t.node (lexical (t.start path) (parts path)) = some (.file content)
  way : ∀ k < (parts path).length, ∀ content,
    t.node (lexical (t.start path) ((parts path).take k)) ≠ some (.file content)

lemma overlooked_iff_of_extends (h : Extends t t') : Overlooked t' path ↔ Overlooked t path := by
  constructor
  · rintro ⟨hf, hw⟩
    simp only [h.start, ne_eq, h.file_iff] at hf hw
    exact ⟨hf, hw⟩
  · rintro ⟨hf, hw⟩
    refine ⟨?_, ?_⟩
    · simpa only [h.start, h.file_iff] using hf
    · simpa only [h.start, ne_eq, h.file_iff] using hw

/-- What `mkdir` says to exist is a directory, or has been overlooked. -/
lemma stat_of_eexist (h : t.mkdir path = .error .eexist) :
    t.stat path = some .dir ∨ Overlooked t path := by
  obtain ⟨hp, l, hw⟩ := mkdir_eexist_iff.mp h
  obtain ⟨rfl, hway, hend⟩ := (walk_ok_iff (by simp [start_dir])).mp hw
  obtain ⟨x, hx⟩ := Option.ne_none_iff_exists'.mp hend
  cases x with
  | dir =>
    left
    rw [FileTree.stat, find_dir hp hw hx]
    exact hx
  | file content =>
    refine Or.inr ⟨⟨content, hx⟩, fun k hk content' hf => ?_⟩
    rw [hway k hk] at hf
    cases hf

lemma not_dir_of_overlooked (h : Overlooked t path) : t.stat path ≠ some .dir := by
  obtain ⟨content, hfile⟩ := h.file
  unfold FileTree.stat
  cases hf : t.find path with
  | error e => exact nofun
  | ok l =>
    rw [find_ok hf]
    simp [hfile]

/-- Where the loop returns zero the path is a directory then, unless it was overlooked. -/
lemma loop_stat (hi : i + n = path.length) (h : (mkdirLoop path (n + 1) i t).1 = 0)
    (ho : ¬ Overlooked t path) : (mkdirLoop path (n + 1) i t).2.stat path = some .dir := by
  obtain ⟨t₁, h₁, hm | ⟨hm, he⟩⟩ := loop_last hi h
  · obtain ⟨-, l, hf, hd, -⟩ := mkdir_ok_find hm
    rw [FileTree.stat, hf]
    exact hd
  · rw [he]
    exact (stat_of_eexist hm).resolve_right fun ho₁ =>
      ho ((overlooked_iff_of_extends h₁.more).mp ho₁)

/-! ### The loop on such a path -/

lemma length_splitOn (l : Str) : (l.splitOn slash).length = l.count slash + 1 := by
  induction l with
  | nil => rfl
  | cons c l ih =>
    rw [List.splitOn_cons_eq_if_modifyHead, List.count_cons]
    split_ifs <;> simp [ih]

lemma splitOn_take (hi : path[i]? = some slash ∨ path[i]? = none) :
    (path.take i).splitOn slash <+: path.splitOn slash := by
  rcases hi with hi | hi
  · obtain ⟨hlt, he⟩ := List.getElem?_eq_some_iff.mp hi
    refine ⟨(path.drop (i + 1)).splitOn slash, ?_⟩
    rw [← List.splitOn_append_cons_self, ← he, List.getElem_cons_drop, List.take_append_drop]
  · rw [List.take_of_length_le (List.getElem?_eq_none_iff.mp hi)]

/-- So are they without the empty ones at their end. -/
lemma parts_take (hi : path[i]? = some slash ∨ path[i]? = none) :
    parts (path.take i) <+: parts path := by
  obtain ⟨es, hes, hempty⟩ := splitOn_eq_parts path
  have hq : parts (path.take i) <+: path.splitOn slash :=
    (List.rdropWhile_prefix _ _).trans (splitOn_take hi)
  rcases List.prefix_or_prefix_of_prefix hq ⟨es, hes.symm⟩ with h | ⟨ds, hds⟩
  · exact h
  -- there are no empty ones to go past those of the path
  obtain rfl : ds = [] := by
    rcases List.eq_nil_or_concat ds with h | ⟨ds', c, rfl⟩
    · exact h
    exfalso
    rw [List.concat_eq_append, ← List.append_assoc] at hds
    have hc : c = [] := by
      rw [hes, ← hds, List.append_assoc, List.prefix_append_right_inj] at hq
      exact hempty c (hq.subset (by simp))
    have hidem := List.rdropWhile_idempotent (fun c => decide (c = []))
      ((path.take i).splitOn slash)
    change List.rdropWhile _ (parts (path.take i)) = parts (path.take i) at hidem
    rw [← hds, List.rdropWhile_concat_pos _ _ _ (by simpa using hc)] at hidem
    have hle := (List.rdropWhile_prefix (fun c => decide (c = [])) (parts path ++ ds')).length_le
    rw [hidem, List.length_append] at hle
    simp at hle
  rw [← hds, List.append_nil]

lemma start_take (hi : i ≠ 0) : t.start (path.take i) = t.start path := by
  rw [FileTree.start, FileTree.start, List.head?_take, if_neg hi]

/-- The first `k` components of the path that lead to a place before its end lead to a directory. -/
def Past (path : Str) (k : ℕ) (t : FileTree) : Prop :=
  ∀ j < k, j < (parts path).length →
    t.node (lexical (t.start path) ((parts path).take j)) = some .dir

lemma Past.extends (h : Past path n t) (hext : Extends t t') : Past path n t' := by
  intro j hj hlt
  rw [hext.start]
  exact hext.node _ _ (h j hj hlt)

lemma lexical_take (hi : path[i]? = some slash ∨ path[i]? = none) (l : List Str)
    (hlt : ((path.take i).splitOn slash).length < (parts path).length) :
    lexical l ((parts path).take ((path.take i).splitOn slash).length) =
      lexical l (parts (path.take i)) := by
  obtain ⟨es, hes, hempty⟩ := splitOn_eq_parts (path.take i)
  have hpre : (path.take i).splitOn slash <+: parts path :=
    List.prefix_of_prefix_length_le (splitOn_take hi) (List.rdropWhile_prefix _ _) hlt.le
  rw [← List.prefix_iff_eq_take.mp hpre, hes, lexical_append, lexical_empties hempty]

lemma Past.succ (hi : path[i]? = some slash ∨ path[i]? = none)
    (h : Past path ((path.take i).splitOn slash).length t)
    (hd : ((path.take i).splitOn slash).length < (parts path).length →
      t.node (lexical (t.start path) (parts (path.take i))) = some .dir) :
    Past path (((path.take i).splitOn slash).length + 1) t := by
  intro j hj hlt
  rcases Nat.lt_succ_iff_lt_or_eq.mp hj with hj | rfl
  · exact h j hj hlt
  rw [lexical_take hi _ hlt]
  exact hd hlt

/-- A call of `mkdir` for a prefix of an overlooked path does not fail. -/
lemma mkdir_take (ho : Overlooked t path) (hi : path[i]? = some slash ∨ path[i]? = none)
    (hne : path.take i ≠ []) (hpast : Past path ((path.take i).splitOn slash).length t) :
    (t.mkdir (path.take i) = .error .eexist ∨ ∃ t', t.mkdir (path.take i) = .ok t') ∧
      ∀ t', t.mkdir (path.take i) = .error .eexist ∧ t' = t ∨ t.mkdir (path.take i) = .ok t' →
        Past path (((path.take i).splitOn slash).length + 1) t' := by
  have hstart : t.start (path.take i) = t.start path :=
    start_take (by rintro rfl; exact hne rfl)
  have hparts := parts_take hi
  refine ⟨mkdir_or_eexist hne fun k hk => ?_, ?_⟩
  · obtain ⟨zs, hzs⟩ := hparts
    have hk' : k < ((path.take i).splitOn slash).length :=
      hk.trans_le (List.rdropWhile_prefix _ _).length_le
    have := hpast k hk' (by rw [← hzs, List.length_append]; omega)
    rwa [← hzs, List.take_append_of_le_length hk.le, ← hstart] at this
  · rintro t' (⟨he, rfl⟩ | hm)
    · refine hpast.succ hi fun hlt => ?_
      obtain ⟨-, l, hw⟩ := mkdir_eexist_iff.mp he
      obtain ⟨-, -, hend⟩ := (walk_ok_iff (by simp [start_dir])).mp hw
      obtain ⟨x, hx⟩ := Option.ne_none_iff_exists'.mp hend
      rw [hstart] at hx
      cases x with
      | dir => exact hx
      | file content =>
        rw [← lexical_take hi _ hlt] at hx
        exact absurd hx (ho.way _ hlt content)
    · obtain ⟨hext, l, hf, hd, -⟩ := mkdir_ok_find hm
      refine (hpast.extends hext).succ hi fun _ => ?_
      rw [← hd, find_ok hf, hext.start, hext.start, hstart]

lemma length_splitOn_take (hlt : i < path.length) :
    ((path.take (i + 1)).splitOn slash).length =
      ((path.take i).splitOn slash).length + if path[i]? = some slash then 1 else 0 := by
  rw [← List.take_concat_get' path i hlt, length_splitOn, length_splitOn, List.count_append,
    List.getElem?_eq_getElem hlt]
  by_cases hc : path[i] = slash
  · simp [hc]
  · simp [hc]

/-- The loop does not fail on an overlooked path. -/
lemma loop_zero (ho : Overlooked t path) (hi : i + n = path.length + 1)
    (hp : path ≠ []) (h0 : i = 0 → path[0]? ≠ some slash)
    (hpast : Past path ((path.take i).splitOn slash).length t) : (mkdirLoop path n i t).1 = 0 := by
  induction n generalizing i t with
  | zero => rfl
  | succ n ih =>
    rw [mkdirLoop]
    split_ifs with hb
    · have hne : path.take i ≠ [] := by
        intro hnil
        rcases List.take_eq_nil_iff.mp hnil with rfl | hnil
        · have hpos := List.length_pos_iff.mpr hp
          rcases hb with hb | hb
          · exact h0 rfl hb
          · exact absurd (List.getElem?_eq_none_iff.mp hb) (by omega)
        · exact hp hnil
      have hrest {t' : FileTree} (hext : Extends t t')
          (hpast' : Past path (((path.take i).splitOn slash).length + 1) t') :
          (mkdirLoop path n (i + 1) t').1 = 0 := by
        cases n with
        | zero => rfl
        | succ n =>
          have hlt : i < path.length := by omega
          have hs : path[i]? = some slash := hb.resolve_right (by simp [hlt])
          refine ih ((overlooked_iff_of_extends hext).mpr ho) (by omega) (by omega) ?_
          rw [length_splitOn_take hlt, if_pos hs]
          exact hpast'
      obtain ⟨hm, hnext⟩ := mkdir_take ho hb hne hpast
      rcases hm with he | ⟨t', hm⟩
      · simp only [he]
        exact hrest (Extends.refl t) (hnext t (Or.inl ⟨he, rfl⟩))
      · simp only [hm]
        exact hrest (mkdir_ok_find hm).1 (hnext t' (Or.inr hm))
    · have hlt : i < path.length := by
        by_contra hge
        exact hb (Or.inr (List.getElem?_eq_none (by omega)))
      refine ih ho (by omega) (by omega) ?_
      rw [length_splitOn_take hlt, if_neg fun hs => hb (Or.inl hs)]
      exact hpast

/-- Where the loop starts: a slash that the path begins with is not the end of a prefix. -/
def first (path : Str) : ℕ := if path.head? = some slash then 1 else 0

lemma first_le (hp : path ≠ []) : first path ≤ path.length := by
  have := List.length_pos_iff.mpr hp
  unfold first
  split_ifs <;> omega

/-- The loop starts in a directory. -/
lemma past_first (path : Str) (t : FileTree) :
    Past path ((path.take (first path)).splitOn slash).length t := by
  intro j hj hlt
  rw [lexical_empties, start_dir]
  intro c hc
  unfold first at hj
  split_ifs at hj with hs
  · obtain ⟨path', rfl⟩ := List.head?_eq_some_iff.mp hs
    have hU : (slash :: path').splitOn slash = [] :: path'.splitOn slash :=
      List.splitOn_append_cons_self [] path'
    have hj1 : j ≤ 1 := Nat.lt_succ_iff.mp (by simpa [length_splitOn] using hj)
    have hpre : (parts (slash :: path')).take j <+: [] :: path'.splitOn slash :=
      (List.take_prefix ..).trans (hU ▸ List.rdropWhile_prefix _ _)
    have hone : (parts (slash :: path')).take j <+: [[]] :=
      List.prefix_of_prefix_length_le hpre (by simp) (by simp; omega)
    exact List.mem_singleton.mp (hone.subset hc)
  · have hj0 : j = 0 := by simpa [length_splitOn] using hj
    rw [hj0] at hc
    cases hc

lemma mkdirRecursive_nil (h : cStr pathname = []) : mkdirRecursive pathname t = (-1, t) := by
  unfold mkdirRecursive
  simp [h]

lemma mkdirRecursive_eq (h : cStr pathname ≠ []) : mkdirRecursive pathname t =
    mkdirLoop (cStr pathname) ((cStr pathname).length - first (cStr pathname) + 1)
      (first (cStr pathname)) t := by
  have hp : pathname ≠ [] := by
    rintro rfl
    exact h rfl
  have hle := first_le h
  simp only [mkdirRecursive, hp, if_false, List.length_eq_zero_iff, h]
  rw [← Nat.sub_add_comm hle]
  rfl

lemma not_overlooked_nil : ¬ Overlooked t [] := by
  rintro ⟨⟨content, hf⟩, -⟩
  have hd : t.node (t.start []) = some .dir := start_dir
  have hf : t.node (t.start []) = some (.file content) := hf
  rw [hd] at hf
  cases hf

/-- It returns zero only where the path is a directory then; and whatever it returns, what was
there is there, and what is new are directories that are prefixes of the path, up to a slash or to
the end. -/
structure Truthful (pathname : Str) (t : FileTree) : Prop where
  dir : (mkdirRecursive pathname t).1 = 0 →
    (mkdirRecursive pathname t).2.stat (cStr pathname) = some .dir
  made : Made (cStr pathname) t (mkdirRecursive pathname t).2

/-- **When zero means a directory**: unless the components of the path lead to a regular file, and
to none on the way. -/
theorem truthful_iff (pathname : Str) (t : FileTree) :
    Truthful pathname t ↔ ¬ Overlooked t (cStr pathname) := by
  by_cases hp : cStr pathname = []
  · rw [hp]
    refine iff_of_true ⟨?_, ?_⟩ not_overlooked_nil
    · rw [mkdirRecursive_nil hp]
      exact nofun
    · rw [mkdirRecursive_nil hp]
      exact Made.refl _ t
  have hle := first_le hp
  have heq := mkdirRecursive_eq (t := t) hp
  constructor
  · rintro ⟨hdir, -⟩ ho
    have hzero : (mkdirRecursive pathname t).1 = 0 := by
      rw [heq]
      refine loop_zero ho (by omega) hp (fun h0 hs => ?_) (past_first _ t)
      rw [first, List.head?_eq_getElem?, if_pos hs] at h0
      cases h0
    refine not_dir_of_overlooked ?_ (hdir hzero)
    rw [heq]
    exact (overlooked_iff_of_extends (made_loop _ _ _ t).more).mpr ho
  · intro ho
    refine ⟨fun h => ?_, ?_⟩
    · rw [heq] at h ⊢
      exact loop_stat (by omega) h ho
    · rw [heq]
      exact made_loop _ _ _ t

/-- A root directory with one empty file in it. -/
def oneFile : FileTree where
  node l := if l = [] then some .dir else if l = [lit ['f']] then some (.file []) else none
  cwd := []
  root_dir := rfl
  cwd_dir := rfl
  closed l c h := by
    rw [if_neg (by simp)] at h
    split_ifs at h with hc
    · rw [(List.append_inj' (show l ++ [c] = [] ++ [lit ['f']] from hc) rfl).1]
      rfl
    · exact absurd rfl h

/-- The path of the file: zero is returned, and it is still a file. -/
theorem file_untruthful : (mkdirRecursive (lit ['f']) oneFile).1 = 0 ∧
    (mkdirRecursive (lit ['f']) oneFile).2.stat (lit ['f']) = some (.file []) ∧
      ¬ Truthful (lit ['f']) oneFile := by
  refine ⟨by decide, by decide, fun h => ?_⟩
  have hdir := h.dir (by decide)
  revert hdir
  decide

end Libchef.FilepathMkdir
