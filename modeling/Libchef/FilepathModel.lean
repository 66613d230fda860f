import Libchef.Base.Files
import Libchef.StringsModel

/-!
Paths and the removal of directories, as `chef_filepath_op.hpp` has them.

A call that removes something returns its result and the file system it leaves behind.
-/

namespace Libchef.FilepathModel

open Libchef.Files Libchef.StringsModel

def join (path filename : Str) : Str :=
  if path.length = 0 then filename
  else if filename.length = 0 then path
  else
    let ret := if path.getLast? = some (chr '/') then substr path 0 (path.length - 1) else path
    let ret := ret ++ lit ['/']
    if filename.head? = some (chr '/') then ret ++ substr filename 1 (filename.length - 1)
    else ret ++ filename

/-- `read_file` with a limit, for a file that holds `file`, or that does not open. -/
def readFile (file : Option Str) (contentSize : ℕ) : Str := (file.getD []).take contentSize

def exist (fs : Fs) (name : Str) : ℤ :=
  if name = [] then -1 else if (fs.stat name).isSome then 0 else -1

def isDir (fs : Fs) (pathname : Str) : ℤ :=
  if pathname = [] then -1
  else
    match fs.stat pathname with
    | some (.dir _) => 0
    | _ => -1

def rmFile (fs : Fs) (name : Str) : ℤ × Fs :=
  if name = [] then (-1, fs)
  else if exist fs name = -1 then (0, fs)
  else if isDir fs name = 0 then (-1, fs)
  else
    match fs.unlink name with
    | none => (-1, fs)
    | some fs => (0, fs)

/-- A round of the loop of `rmdir_recursive`, with `ret` and the file system so far. -/
def visit (rmdirRecursive : Str → Fs → ℤ × Fs) (pathname : Str) (s : ℤ × Fs) (name : Str) :
    ℤ × Fs :=
  if name = lit ['.'] ∨ name = lit ['.', '.'] then s
  else
    let fileWithPath := join pathname name
    if exist s.2 fileWithPath ≠ 0 then s
    else
      let r := if isDir s.2 fileWithPath = 0 then rmdirRecursive fileWithPath s.2
        else rmFile s.2 fileWithPath
      (if r.1 ≠ 0 then -1 else s.1, r.2)

/-- The body of `rmdir_recursive`, over what it calls for a directory inside. -/
def body (rmdirRecursive : Str → Fs → ℤ × Fs) (pathname : Str) (fs : Fs) : ℤ × Fs :=
  if pathname = [] then (-1, fs)
  else if exist fs pathname = -1 then (0, fs)
  else if isDir fs pathname = -1 then (-1, fs)
  else
    match fs.readdir pathname with
    | none => (-1, fs)
    | some names =>
      let s := names.foldl (visit rmdirRecursive pathname) (0, fs)
      match s.2.rmdir pathname with
      | none => (-1, s.2)
      | some fs => (if s.1 = 0 then 0 else -1, fs)

/-- The calls inside one another, down to that depth. -/
def nested : ℕ → Str → Fs → ℤ × Fs
  | 0, _, fs => (0, fs)
  | n + 1, pathname, fs => body (nested n) pathname fs

/-- A path that is too long does not exist, so that the calls do not get deeper than that. -/
def rmdirRecursive (pathname : Str) (fs : Fs) : ℤ × Fs := nested (fs.pathMax + 1) pathname fs

/-! ### What the calls leave behind -/

variable {fs fs' : Fs} {path q : Str} {name : Name} {d i n : ℕ}

lemma join_name (hq : q ≠ []) (name : Name) : ∃ q₁, (q = q₁ ∨ q = q₁ ++ [slash]) ∧
    join q name.text = q₁ ++ slash :: name.text := by
  have hhead : name.text.head? ≠ some (chr '/') := fun h =>
    name.noSlash (List.mem_of_head? h)
  unfold join
  rw [if_neg (by simpa using hq), if_neg (by simpa using name.ne_nil)]
  simp only [if_neg hhead]
  split_ifs with hlast
  · obtain ⟨q₁, rfl⟩ := List.getLast?_eq_some_iff.mp hlast
    exact ⟨q₁, Or.inr rfl, by simp [substr, lit]; rfl⟩
  · exact ⟨q, Or.inl rfl, by simp [lit]; rfl⟩

lemma length_join (hq : q ≠ []) (name : Name) : q.length < (join q name.text).length := by
  have hname := List.length_pos_iff.mpr name.ne_nil
  obtain ⟨q₁, rfl | rfl, hj⟩ := join_name hq name <;>
  · rw [hj]
    simp only [List.length_append, List.length_cons, List.length_nil]
    omega

lemma exist_eq (hq : path ≠ []) : exist fs path = if (fs.stat path).isSome then 0 else -1 :=
  if_neg hq

lemma isDir_eq_zero (h : isDir fs path = 0) : ∃ d, fs.stat path = some (.dir d) := by
  unfold isDir at h
  split_ifs at h
  cases hs : fs.stat path with
  | none => simp [hs] at h
  | some r =>
    cases r with
    | dir d => exact ⟨d, rfl⟩
    | file => simp [hs] at h

lemma rmFile_cases (fs : Fs) (path : Str) : (rmFile fs path).2 = fs ∨
    fs.stat path = some .file ∧ fs.unlink path = some (rmFile fs path).2 := by
  unfold rmFile
  split_ifs with h1 h2 h3
  · exact Or.inl rfl
  · exact Or.inl rfl
  · exact Or.inl rfl
  · cases hu : fs.unlink path with
    | none => exact Or.inl rfl
    | some fs' =>
      refine Or.inr ⟨?_, rfl⟩
      rw [exist_eq h1] at h2
      unfold isDir at h3
      rw [if_neg h1] at h3
      cases hs : fs.stat path with
      | none => simp [hs] at h2
      | some r =>
        cases r with
        | file => rfl
        | dir d => simp [hs] at h3

lemma isDir_of_stat (h : fs.stat path = some (.dir d)) : isDir fs path = 0 := by
  unfold isDir
  rw [if_neg (ne_nil_of_stat h), h]

/-! ### The calls remove entries only -/

/-- A call removes entries, and changes nothing else. -/
def Removes (call : Str → Fs → ℤ × Fs) : Prop := ∀ q fs, Fewer (call q fs).2 fs

variable {call call' : Str → Fs → ℤ × Fs}

lemma rmFile_fewer (fs : Fs) (path : Str) : Fewer (rmFile fs path).2 fs := by
  rcases rmFile_cases fs path with h | ⟨-, h⟩
  · rw [h]
    exact .refl fs
  · obtain ⟨d, c, it, -, -, -, he⟩ := unlink_some h
    rw [he]
    exact fewer_erase

lemma visit_fewer (hc : Removes call) (q : Str) (s : ℤ × Fs) (c : Str) :
    Fewer (visit call q s c).2 s.2 := by
  simp only [visit]
  split_ifs
  any_goals exact .refl s.2
  any_goals exact hc _ _
  all_goals exact rmFile_fewer _ _

lemma foldl_fewer (hc : Removes call) (q : Str) (l : List Str) (s : ℤ × Fs) :
    Fewer (l.foldl (visit call q) s).2 s.2 := by
  induction l generalizing s with
  | nil => exact .refl s.2
  | cons c l ih => exact (ih _).trans (visit_fewer hc q s c)

/-- What the body leaves of a directory that opens. -/
lemma body_eq {names : List Str} (h : fs.readdir q = some names) :
    (body call q fs).2 = ((names.foldl (visit call q) (0, fs)).2.rmdir q).getD
      (names.foldl (visit call q) (0, fs)).2 := by
  obtain ⟨d, hst, -⟩ := readdir_some h
  have hq := ne_nil_of_stat hst
  unfold body
  rw [if_neg hq, if_neg (by simp [exist_eq hq, hst]),
    if_neg (by rw [isDir_of_stat hst]; decide), h]
  simp only
  cases (names.foldl (visit call q) (0, fs)).2.rmdir q <;> rfl

lemma body_none (h : fs.readdir q = none) : (body call q fs).2 = fs := by
  unfold body
  split_ifs
  any_goals rfl
  rw [h]

/-- Of what a part of the loop leaves, the body leaves less. -/
lemma body_fewer_foldl (hc : Removes call) {l r : List Str} (h : fs.readdir q = some (l ++ r)) :
    Fewer (body call q fs).2 (l.foldl (visit call q) (0, fs)).2 := by
  rw [body_eq h, List.foldl_append]
  have hrest := foldl_fewer hc q r (l.foldl (visit call q) (0, fs))
  cases hr : (r.foldl (visit call q) (l.foldl (visit call q) (0, fs))).2.rmdir q with
  | none => exact hrest
  | some fs' =>
    obtain ⟨d, c, i, -, -, -, rfl⟩ := rmdir_some hr
    exact fewer_erase.trans hrest

lemma Removes.body (hc : Removes call) : Removes (body call) := by
  intro q fs
  cases h : fs.readdir q with
  | none =>
    rw [body_none h]
    exact .refl fs
  | some names => exact body_fewer_foldl (l := []) hc h

lemma removes_nested (n : ℕ) : Removes (nested n) := by
  induction n with
  | zero => exact fun _ fs => .refl fs
  | succ n ih => exact ih.body

/-! ### The depth of the calls -/

/-- Only what the body calls for longer paths matters. -/
lemma body_congr (hc : Removes call')
    (h : ∀ q' fs', q.length < q'.length → fs'.pathMax = fs.pathMax → call q' fs' = call' q' fs') :
    body call q fs = body call' q fs := by
  unfold body
  split_ifs with hq
  · rfl
  · rfl
  · rfl
  · cases hr : fs.readdir q with
    | none => rfl
    | some names =>
      obtain ⟨d, -, hnames⟩ := readdir_some hr
      have hloop (l : List Str) (hl : ∀ c ∈ l, c ∈ names) (s : ℤ × Fs)
          (hs : s.2.pathMax = fs.pathMax) :
          l.foldl (visit call q) s = l.foldl (visit call' q) s := by
        induction l generalizing s with
        | nil => rfl
        | cons c l ih =>
          have hvisit : visit call q s c = visit call' q s c := by
            rcases hnames c (hl c (List.mem_cons_self ..)) with rfl | rfl | ⟨name, rfl, -⟩
            · rfl
            · rfl
            · simp only [visit, h _ _ (length_join hq name) hs]
          rw [List.foldl_cons, List.foldl_cons, hvisit]
          exact ih (fun c' hc' => hl c' (List.mem_cons_of_mem _ hc')) _
            ((visit_fewer hc q s c).pathMax.trans hs)
      simp only [hloop names (fun _ hc => hc) (0, fs) rfl]

lemma nested_succ (h : fs.pathMax < n + path.length) :
    nested n path fs = nested (n + 1) path fs := by
  induction n generalizing path fs with
  | zero =>
    have hne : path ≠ [] := by
      rintro rfl
      simp at h
    have hno : fs.stat path = none := if_pos (Or.inr (by omega))
    rw [nested, nested, body, if_neg hne, if_pos (by rw [exist_eq hne, hno]; rfl)]
  | succ n ih =>
    exact body_congr (removes_nested _) fun q' fs' hlt hmax => ih (by rw [hmax]; omega)

/-- **The recursion is that of the source**: its depth is no limit. -/
theorem rmdirRecursive_eq (path : Str) (fs : Fs) :
    rmdirRecursive path fs = body rmdirRecursive path fs := by
  refine body_congr (fun q fs => removes_nested _ q fs) fun q' fs' hlt hmax => ?_
  rw [rmdirRecursive, hmax]
  exact nested_succ (by rw [hmax]; omega)

end Libchef.FilepathModel
