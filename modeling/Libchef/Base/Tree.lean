import Libchef.Base.Files

/-!
A tree of directories and regular files.

What is there is there at a location, the names on the way from the root. There are no links, so
that the components of a path lead to one location, whatever there is; the path is found if on
the way to it there are directories.
-/

namespace Libchef.Tree

open Libchef.Files (Text slash dot)

inductive Node
  | dir
  | file (content : Text)
  deriving DecidableEq

inductive Errno
  | eexist
  | enoent
  | enotdir
  deriving DecidableEq

/-- What there is stands in a directory. -/
structure FileTree where
  node : List Text → Option Node
  cwd : List Text
  root_dir : node [] = some .dir
  cwd_dir : node cwd = some .dir
  closed : ∀ l c, node (l ++ [c]) ≠ none → node l = some .dir

/-- Where a component of a path leads to. -/
def next (l : List Text) (c : Text) : List Text :=
  if c = [] ∨ c = [dot] then l else if c = [dot, dot] then l.dropLast else l ++ [c]

def lexical (l : List Text) (cs : List Text) : List Text := cs.foldl next l

/-- The components of a path without the slashes that it ends with. -/
def parts (path : Text) : List Text := (path.splitOn slash).rdropWhile (· = [])

namespace FileTree

variable (t : FileTree)

lemma dir_dropLast {l : List Text} (h : t.node l = some .dir) : t.node l.dropLast = some .dir := by
  rcases List.eq_nil_or_concat l with rfl | ⟨l', c, rfl⟩
  · exact h
  · rw [List.concat_eq_append] at h ⊢
    rw [List.dropLast_concat]
    exact t.closed l' c (by rw [h]; simp)

/-- From a directory only a name can lead to nothing. -/
lemma next_eq {l : List Text} {c : Text} (hd : t.node l = some .dir)
    (hn : t.node (next l c) = none) : next l c = l ++ [c] := by
  unfold next at hn ⊢
  split_ifs at hn ⊢
  · rw [hd] at hn
    cases hn
  · rw [t.dir_dropLast hd] at hn
    cases hn
  · rfl

/-- The tree with a directory where there was nothing. -/
def addDir (l : List Text) (c : Text) (hd : t.node l = some .dir)
    (hn : t.node (next l c) = none) : FileTree where
  node := Function.update t.node (next l c) (some .dir)
  cwd := t.cwd
  root_dir := by
    rw [Function.update_apply, t.root_dir]
    split_ifs <;> rfl
  cwd_dir := by
    rw [Function.update_apply, t.cwd_dir]
    split_ifs <;> rfl
  closed l' c' h := by
    rw [Function.update_apply]
    split_ifs
    · rfl
    by_cases h1 : l' ++ [c'] = next l c
    · rw [t.next_eq hd hn] at h1
      rw [(List.append_inj' h1 rfl).1]
      exact hd
    · exact t.closed l' c' (by rwa [Function.update_of_ne h1] at h)

/-- Follows the components of a path. -/
def walk : List Text → List Text → Except Errno (List Text)
  | l, [] => .ok l
  | l, c :: cs =>
    if t.node l ≠ some .dir then .error .enotdir
    else if t.node (next l c) = none then .error .enoent
    else walk (next l c) cs

/-- Where a path starts. -/
def start (path : Text) : List Text := if path.head? = some slash then [] else t.cwd

def find (path : Text) : Except Errno (List Text) :=
  if path = [] then .error .enoent else t.walk (t.start path) (path.splitOn slash)

def stat (path : Text) : Option Node :=
  match t.find path with
  | .ok l => t.node l
  | .error _ => none

/-- `mkdir` in the directory that the last component is looked up in. -/
def mkdirAt (l : List Text) (c : Text) : Except Errno FileTree :=
  if hd : t.node l = some .dir then
    if hn : t.node (next l c) = none then .ok (t.addDir l c hd hn) else .error .eexist
  else .error .enotdir

def mkdir (path : Text) : Except Errno FileTree :=
  if path = [] then .error .enoent
  else
    match (parts path).getLast? with
    | none => .error .eexist
    | some c =>
      match t.walk (t.start path) (parts path).dropLast with
      | .error e => .error e
      | .ok l => t.mkdirAt l c

end FileTree

/-! ### What is found -/

variable {t t' t'' : FileTree} {l l' cs es : List Text} {c path q : Text} {x : Node}

lemma start_dir : t.node (t.start path) = some .dir := by
  unfold FileTree.start
  split_ifs
  · exact t.root_dir
  · exact t.cwd_dir

lemma lexical_append : lexical l (cs ++ es) = lexical (lexical l cs) es := List.foldl_append

lemma lexical_empties (h : ∀ c ∈ es, c = []) : lexical l es = l := by
  induction es with
  | nil => rfl
  | cons c es ih =>
    obtain rfl := h c (by simp)
    exact ih fun c hc => h c (by simp [hc])

/-- **What it takes to be found**: directories on the way, and something at its end. -/
theorem walk_ok_iff (hl : t.node l ≠ none) : t.walk l cs = .ok l' ↔
    l' = lexical l cs ∧ (∀ k < cs.length, t.node (lexical l (cs.take k)) = some .dir) ∧
      t.node (lexical l cs) ≠ none := by
  induction cs generalizing l with
  | nil => simp [FileTree.walk, lexical, hl, eq_comm]
  | cons c cs ih =>
    have hway : (∀ k < (c :: cs).length, t.node (lexical l ((c :: cs).take k)) = some .dir) ↔
        t.node l = some .dir ∧
          ∀ k < cs.length, t.node (lexical (next l c) (cs.take k)) = some .dir := by
      constructor
      · intro h
        exact ⟨h 0 (by simp), fun k hk => h (k + 1) (by simpa using hk)⟩
      · rintro ⟨h0, h⟩ k hk
        cases k with
        | zero => exact h0
        | succ k => exact h k (by simpa using hk)
    rw [hway, FileTree.walk]
    by_cases hd : t.node l = some .dir
    · rw [if_neg (not_not.mpr hd)]
      by_cases hn : t.node (next l c) = none
      · -- the next directory on the way, or the end, is not there
        rw [if_pos hn]
        refine ⟨nofun, fun ⟨_, ⟨_, h⟩, he⟩ => ?_⟩
        cases cs with
        | nil => exact absurd hn he
        | cons c' cs =>
          have h0 : t.node (next l c) = some .dir := h 0 (by simp)
          rw [hn] at h0
          cases h0
      · rw [if_neg hn, ih hn]
        exact ⟨fun h => ⟨h.1, ⟨hd, h.2.1⟩, h.2.2⟩, fun h => ⟨h.1, h.2.1.2, h.2.2⟩⟩
    · rw [if_pos hd]
      exact ⟨nofun, fun h => absurd h.2.1.1 hd⟩

lemma walk_ne_eexist : t.walk l cs ≠ .error .eexist := by
  induction cs generalizing l with
  | nil => exact nofun
  | cons c cs ih =>
    rw [FileTree.walk]
    split_ifs
    · exact nofun
    · exact nofun
    · exact ih

lemma splitOn_eq_parts (path : Text) :
    ∃ es, path.splitOn slash = parts path ++ es ∧ ∀ c ∈ es, c = [] :=
  ⟨(path.splitOn slash).rtakeWhile (· = []), List.rdropWhile_append_rtakeWhile.symm,
    fun c hc => by simpa using List.mem_rtakeWhile_imp hc⟩

lemma walk_append : t.walk l (cs ++ es) = (t.walk l cs).bind fun l' => t.walk l' es := by
  induction cs generalizing l with
  | nil => rfl
  | cons c cs ih =>
    rw [List.cons_append, FileTree.walk, FileTree.walk]
    split_ifs
    · rfl
    · rfl
    · exact ih

lemma walk_empties (hd : t.node l = some .dir) (h : ∀ c ∈ es, c = []) : t.walk l es = .ok l := by
  have hl : t.node l ≠ none := by simp [hd]
  refine (walk_ok_iff hl).mpr ⟨(lexical_empties h).symm, fun k _ => ?_, ?_⟩
  · rw [lexical_empties fun c hc => h c (List.mem_of_mem_take hc)]
    exact hd
  · rwa [lexical_empties h]

lemma find_dir (hp : path ≠ []) (h : t.walk (t.start path) (parts path) = .ok l)
    (hd : t.node l = some .dir) : t.find path = .ok l := by
  obtain ⟨es, he, hes⟩ := splitOn_eq_parts path
  rw [FileTree.find, if_neg hp, he, walk_append, h]
  exact walk_empties hd hes

lemma find_ok (h : t.find path = .ok l) : l = lexical (t.start path) (parts path) := by
  obtain ⟨es, he, hes⟩ := splitOn_eq_parts path
  unfold FileTree.find at h
  split_ifs at h
  have hl : t.node (t.start path) ≠ none := by simp [start_dir]
  obtain ⟨rfl, -⟩ := (walk_ok_iff hl).mp h
  rw [he, lexical_append, lexical_empties hes]

/-! ### What `mkdir` does -/

/-- It says that something exists where the path is found, slashes at its end aside. -/
theorem mkdir_eexist_iff : t.mkdir path = .error .eexist ↔
    path ≠ [] ∧ ∃ l, t.walk (t.start path) (parts path) = .ok l := by
  unfold FileTree.mkdir
  by_cases hp : path = []
  · simp [hp]
  rw [if_neg hp]
  rcases List.eq_nil_or_concat (parts path) with hnil | ⟨ds, c, hc⟩
  · simp [hnil, hp, FileTree.walk]
  · rw [List.concat_eq_append] at hc
    simp only [hc, List.getLast?_concat, List.dropLast_concat, walk_append]
    cases hw : t.walk (t.start path) ds with
    | error e =>
      have hne : t.walk (t.start path) ds ≠ .error .eexist := walk_ne_eexist
      rw [hw] at hne
      simpa [hp, Except.bind] using fun he => hne (congrArg Except.error he)
    | ok l =>
      simp only [FileTree.mkdirAt, Except.bind, FileTree.walk]
      split_ifs <;> simp_all

/-- Otherwise it makes a directory there. -/
theorem mkdir_ok (h : t.mkdir path = .ok t') : path ≠ [] ∧ ∃ l c hd hn,
    t' = t.addDir l c hd hn ∧ ∃ ds, parts path = ds ++ [c] ∧
      t.walk (t.start path) ds = .ok l := by
  unfold FileTree.mkdir at h
  split_ifs at h with hp
  refine ⟨hp, ?_⟩
  rcases List.eq_nil_or_concat (parts path) with hnil | ⟨ds, c, hc⟩
  · simp [hnil] at h
  · rw [List.concat_eq_append] at hc
    simp only [hc, List.getLast?_concat, List.dropLast_concat] at h
    cases hw : t.walk (t.start path) ds with
    | error e => simp [hw] at h
    | ok l =>
      simp only [hw, FileTree.mkdirAt] at h
      split_ifs at h with hd hn
      cases h
      exact ⟨l, c, hd, hn, rfl, ds, hc, hw⟩

/-! ### More directories -/

/-- `t'` has all that `t` has, and otherwise only directories. -/
structure Extends (t t' : FileTree) : Prop where
  node : ∀ l x, t.node l = some x → t'.node l = some x
  dirs : ∀ l, t.node l = none → t'.node l = none ∨ t'.node l = some .dir
  cwd : t'.cwd = t.cwd

namespace Extends

lemma refl (t : FileTree) : Extends t t := ⟨fun _ _ h => h, fun _ h => Or.inl h, rfl⟩

lemma trans (h : Extends t t') (h' : Extends t' t'') : Extends t t'' := by
  refine ⟨fun l x hx => h'.node l x (h.node l x hx), fun l hn => ?_, h'.cwd.trans h.cwd⟩
  rcases h.dirs l hn with hn' | hd
  · exact h'.dirs l hn'
  · exact Or.inr (h'.node l _ hd)

lemma addDir {hd : t.node l = some .dir} {hn : t.node (next l c) = none} :
    Extends t (t.addDir l c hd hn) := by
  refine ⟨fun l' x hx => ?_, fun l' h => ?_, rfl⟩
  · have hne : l' ≠ next l c := by
      rintro rfl
      rw [hn] at hx
      cases hx
    exact (Function.update_of_ne hne ..).trans hx
  · show Function.update _ _ _ _ = _ ∨ Function.update _ _ _ _ = _
    rw [Function.update_apply]
    split_ifs
    · exact Or.inr rfl
    · exact Or.inl h

variable (h : Extends t t')
include h

lemma start : t'.start path = t.start path := by rw [FileTree.start, FileTree.start, h.cwd]

lemma walk (hl : t.node l ≠ none) (hw : t.walk l cs = .ok l') : t'.walk l cs = .ok l' := by
  obtain ⟨he, hway, hend⟩ := (walk_ok_iff hl).mp hw
  have hsome {l : List Text} (hl : t.node l ≠ none) : t'.node l ≠ none := by
    obtain ⟨x, hx⟩ := Option.ne_none_iff_exists'.mp hl
    simp [h.node l x hx]
  exact (walk_ok_iff (hsome hl)).mpr ⟨he, fun k hk => h.node _ _ (hway k hk), hsome hend⟩

lemma find (hf : t.find path = .ok l) : t'.find path = .ok l := by
  unfold FileTree.find at hf ⊢
  split_ifs at hf ⊢
  rw [h.start]
  exact h.walk (by simp [start_dir]) hf

lemma file_iff {content : Text} : t'.node l = some (.file content) ↔
    t.node l = some (.file content) := by
  refine ⟨fun hf => ?_, h.node l _⟩
  cases hl : t.node l with
  | none => rcases h.dirs l hl with hn | hd <;> simp_all
  | some x => rw [← h.node l x hl, hf]

end Extends

/-! ### What is left behind -/

/-- Where `mkdir` has made a directory the path is found, and nothing else is different. -/
theorem mkdir_ok_find (h : t.mkdir path = .ok t') : Extends t t' ∧ ∃ l, t'.find path = .ok l ∧
    t'.node l = some .dir ∧ ∀ l' ≠ l, t'.node l' = t.node l' := by
  obtain ⟨hp, l, c, hd, hn, rfl, ds, hds, hw⟩ := mkdir_ok h
  have hext : Extends t (t.addDir l c hd hn) := Extends.addDir
  have hself : (t.addDir l c hd hn).node (next l c) = some .dir := Function.update_self ..
  refine ⟨hext, next l c, find_dir hp ?_ hself, hself, fun l' hl' => Function.update_of_ne hl' ..⟩
  rw [hds, walk_append, hext.start, hext.walk (by simp [start_dir]) hw]
  show FileTree.walk _ l [c] = _
  rw [FileTree.walk, if_neg (not_not.mpr (hext.node l _ hd)), if_neg (by rw [hself]; simp)]
  rfl

/-- It does not fail where there are directories on the way. -/
theorem mkdir_or_eexist (hp : path ≠ [])
    (h : ∀ k < (parts path).length,
      t.node (lexical (t.start path) ((parts path).take k)) = some .dir) :
    t.mkdir path = .error .eexist ∨ ∃ t', t.mkdir path = .ok t' := by
  unfold FileTree.mkdir
  rw [if_neg hp]
  rcases List.eq_nil_or_concat (parts path) with hnil | ⟨ds, c, hc⟩
  · rw [hnil]
    exact Or.inl rfl
  · rw [List.concat_eq_append] at hc
    have hl : t.node (t.start path) ≠ none := by simp [start_dir]
    have hd : t.node (lexical (t.start path) ds) = some .dir := by
      simpa [hc] using h ds.length (by simp [hc])
    have hw : t.walk (t.start path) ds = .ok (lexical (t.start path) ds) := by
      refine (walk_ok_iff hl).mpr ⟨rfl, fun k hk => ?_, by simp [hd]⟩
      have := h k (by rw [hc, List.length_append]; omega)
      rwa [hc, List.take_append_of_le_length hk.le] at this
    simp only [hc, List.getLast?_concat, List.dropLast_concat, hw, FileTree.mkdirAt]
    rw [dif_pos hd]
    split_ifs with hn
    · exact Or.inr ⟨_, rfl⟩
    · exact Or.inl rfl

end Libchef.Tree
