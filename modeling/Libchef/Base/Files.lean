import Mathlib.Data.List.DropRight
import Mathlib.Logic.Function.Basic

/-!
A file system: directories, regular files and symbolic links.

A path is resolved from the root or from the current directory, component by component. A link
on the way is replaced by its target, a limited number of times; what acts on an entry itself
does not follow the last component. Where entries go away, less can be resolved, and what still
can is resolved to the same.
-/

namespace Libchef.Files

/-- The bytes of a path. -/
abbrev Text := List UInt8

def slash : UInt8 := UInt8.ofNat '/'.toNat
def dot : UInt8 := UInt8.ofNat '.'.toNat

/-- The name of an entry. -/
structure Name where
  text : Text
  ne_nil : text ≠ []
  noSlash : slash ∉ text
  ne_dot : text ≠ [dot]
  ne_dots : text ≠ [dot, dot]
  deriving DecidableEq

inductive Item
  | dir (i : ℕ)
  | file (content : Text)
  | link (target : Text)
  deriving DecidableEq

structure Dir where
  parent : ℕ
  entries : List (Name × Item)

def Dir.erase (d : Dir) (c : Text) : Dir :=
  { d with entries := d.entries.filter fun e => e.1.text ≠ c }

/-- The directories, and the limits on the length of a path and on the number of links followed
on the way. -/
structure Fs where
  dirs : ℕ → Dir
  root : ℕ
  cwd : ℕ
  pathMax : ℕ
  linkMax : ℕ

/-- What a path leads to once links are followed. -/
inductive Found
  | dir (i : ℕ)
  | file
  deriving DecidableEq

namespace Fs

variable (fs : Fs)

/-- The entry of that name in a directory. -/
def lookup (d : ℕ) (c : Text) : Option Item :=
  ((fs.dirs d).entries.find? fun e => e.1.text = c).map Prod.snd

/-- Where a path starts that stands in the directory `d`. -/
def start (d : ℕ) (path : Text) : ℕ := if path.head? = some slash then fs.root else d

/-- Follows components up to a link, which `follow` takes over. -/
def walkWith (follow : ℕ → List Text → Option Found) : ℕ → List Text → Option Found
  | d, [] => some (.dir d)
  | d, c :: cs =>
    if c = [] ∨ c = [dot] then walkWith follow d cs
    else if c = [dot, dot] then walkWith follow (fs.dirs d).parent cs
    else
      match fs.lookup d c with
      | none => none
      | some (.dir i) => walkWith follow i cs
      | some (.file _) => if cs = [] then some .file else none
      | some (.link target) =>
        if target = [] then none else follow (fs.start d target) (target.splitOn slash ++ cs)

/-- Follows components, and up to that many links. -/
def walk : ℕ → ℕ → List Text → Option Found
  | 0 => fs.walkWith fun _ _ => none
  | n + 1 => fs.walkWith (walk n)

/-- `stat`, which follows links. -/
def stat (path : Text) : Option Found :=
  if path = [] ∨ fs.pathMax ≤ path.length then none
  else fs.walk fs.linkMax (fs.start fs.cwd path) (path.splitOn slash)

/-- The directory and the last component of a path. -/
def entry (path : Text) : Option (ℕ × Text) :=
  if path = [] ∨ fs.pathMax ≤ path.length then none
  else
    match fs.walk fs.linkMax (fs.start fs.cwd path) (path.splitOn slash).dropLast,
      (path.splitOn slash).getLast? with
    | some (.dir d), some c => some (d, c)
    | _, _ => none

def erase (d : ℕ) (c : Text) : Fs :=
  { fs with dirs := Function.update fs.dirs d ((fs.dirs d).erase c) }

/-- `unlink`, for anything but directories. -/
def unlink (path : Text) : Option Fs :=
  (fs.entry path).bind fun (d, c) =>
    match fs.lookup d c with
    | some (.file _) | some (.link _) => some (fs.erase d c)
    | _ => none

/-- A path without the slashes that it ends with. -/
def strip (path : Text) : Text := path.rdropWhile (· = slash)

/-- `rmdir`, for empty directories. -/
def rmdir (path : Text) : Option Fs :=
  (fs.entry (strip path)).bind fun (d, c) =>
    match fs.lookup d c with
    | some (.dir i) => if (fs.dirs i).entries = [] then some (fs.erase d c) else none
    | _ => none

/-- What `opendir` and `readdir` give. -/
def readdir (path : Text) : Option (List Text) :=
  match fs.stat path with
  | some (.dir d) => some ([dot] :: [dot, dot] :: (fs.dirs d).entries.map fun e => e.1.text)
  | _ => none

end Fs

/-! ### Fewer entries -/

variable {fs fs' : Fs} {d i n : ℕ} {c : Text} {cs : List Text} {path : Text} {r : Found}

/-- `fs'` has some of the entries of `fs`, and nothing else is different. -/
structure Fewer (fs' fs : Fs) : Prop where
  parent : ∀ d, (fs'.dirs d).parent = (fs.dirs d).parent
  lookup : ∀ d c it, fs'.lookup d c = some it → fs.lookup d c = some it
  root : fs'.root = fs.root
  cwd : fs'.cwd = fs.cwd
  pathMax : fs'.pathMax = fs.pathMax
  linkMax : fs'.linkMax = fs.linkMax

lemma Fewer.refl (fs : Fs) : Fewer fs fs := ⟨fun _ => rfl, fun _ _ _ h => h, rfl, rfl, rfl, rfl⟩

lemma Fewer.trans {fs'' : Fs} (h : Fewer fs'' fs') (h' : Fewer fs' fs) : Fewer fs'' fs :=
  ⟨fun d => (h.parent d).trans (h'.parent d),
    fun d c it hl => h'.lookup d c it (h.lookup d c it hl), h.root.trans h'.root,
    h.cwd.trans h'.cwd, h.pathMax.trans h'.pathMax, h.linkMax.trans h'.linkMax⟩

/-- What is the same in the end has been the same all the time. -/
lemma Fewer.lookup_between {fs₁ fs₂ : Fs} (h₁ : Fewer fs₁ fs) (h₂ : Fewer fs₂ fs₁)
    (h₃ : Fewer fs' fs₂) (h : fs'.lookup d c = fs.lookup d c) :
    fs₂.lookup d c = fs₁.lookup d c := by
  cases hl : fs₁.lookup d c with
  | none =>
    refine Option.eq_none_iff_forall_not_mem.mpr fun it hit => ?_
    rw [h₂.lookup d c it hit] at hl
    cases hl
  | some it => exact h₃.lookup d c it (h.trans (h₁.lookup d c it hl))

lemma lookup_mem {it : Item} (h : fs.lookup d c = some it) :
    ∃ e ∈ (fs.dirs d).entries, e.1.text = c ∧ e.2 = it := by
  obtain ⟨e, he, rfl⟩ := Option.map_eq_some_iff.mp h
  exact ⟨e, List.mem_of_find?_eq_some he, by simpa using List.find?_some he, rfl⟩

lemma lookup_of_mem {e : Name × Item} (h : e ∈ (fs.dirs d).entries) :
    ∃ it, fs.lookup d e.1.text = some it := by
  unfold Fs.lookup
  cases hf : (fs.dirs d).entries.find? fun x => x.1.text = e.1.text with
  | none =>
    have := List.find?_eq_none.mp hf e h
    simp at this
  | some x => exact ⟨x.2, rfl⟩

lemma dirs_erase {d' : ℕ} :
    (fs.erase d c).dirs d' = if d' = d then (fs.dirs d).erase c else fs.dirs d' :=
  Function.update_apply ..

lemma lookup_erase {d' : ℕ} {c' : Text} :
    (fs.erase d c).lookup d' c' = if d' = d ∧ c' = c then none else fs.lookup d' c' := by
  unfold Fs.lookup
  rw [dirs_erase]
  by_cases hd : d' = d
  · subst hd
    rw [if_pos rfl, Dir.erase, List.find?_filter]
    by_cases hc : c' = c
    · rw [if_pos ⟨rfl, hc⟩, List.find?_eq_none.mpr, Option.map_none]
      intro e _
      simp [hc]
    · rw [if_neg fun h => hc h.2]
      congr 2
      funext e
      by_cases he : e.1.text = c' <;> simp [he, hc]
  · rw [if_neg hd, if_neg fun h => hd h.1]

lemma fewer_erase : Fewer (fs.erase d c) fs := by
  refine ⟨fun d' => ?_, fun d' c' it h => ?_, rfl, rfl, rfl, rfl⟩
  · rw [dirs_erase]
    split_ifs with hd
    · rw [hd, Dir.erase]
    · rfl
  · rw [lookup_erase] at h
    split_ifs at h
    exact h

lemma Fewer.start (h : Fewer fs' fs) : fs'.start d path = fs.start d path := by
  rw [Fs.start, Fs.start, h.root]

/-- **What can still be resolved is resolved to the same.** -/
theorem Fewer.walk (h : Fewer fs' fs) (hr : fs'.walk n d cs = some r) :
    fs.walk n d cs = some r := by
  have hwith {f f' : ℕ → List Text → Option Found}
      (hf : ∀ d cs r, f' d cs = some r → f d cs = some r) {d : ℕ} {cs : List Text} {r : Found}
      (hr : fs'.walkWith f' d cs = some r) : fs.walkWith f d cs = some r := by
    induction cs generalizing d with
    | nil => exact hr
    | cons c cs ih =>
      rw [Fs.walkWith] at hr ⊢
      by_cases h1 : c = [] ∨ c = [dot]
      · rw [if_pos h1] at hr ⊢
        exact ih hr
      rw [if_neg h1] at hr ⊢
      by_cases h2 : c = [dot, dot]
      · rw [if_pos h2] at hr ⊢
        rw [← h.parent]
        exact ih hr
      · rw [if_neg h2] at hr ⊢
        cases hl : fs'.lookup d c with
        | none => simp [hl] at hr
        | some it =>
          rw [hl] at hr
          rw [h.lookup d c it hl]
          cases it with
          | dir i => exact ih hr
          | file content => exact hr
          | link target =>
            simp only [h.start] at hr ⊢
            split_ifs at hr ⊢
            exact hf _ _ _ hr
  induction n generalizing d cs r with
  | zero => exact hwith (fun _ _ _ h => h) hr
  | succ n ih => exact hwith (fun d cs r hr => ih hr) hr

/-! ### Longer paths -/

/-- A component that names an entry. -/
def Plain (c : Text) : Prop := c ≠ [] ∧ c ≠ [dot] ∧ c ≠ [dot, dot]

lemma Name.plain (name : Name) : Plain name.text := ⟨name.ne_nil, name.ne_dot, name.ne_dots⟩

/-- What leads to a directory can be followed by more, with the links that are left. -/
lemma walk_append (l : List Text) (h : fs.walk n d cs = some (.dir i)) :
    ∃ m, fs.walk n d (cs ++ l) = fs.walk m i l := by
  have hwith {f : ℕ → List Text → Option Found} {n d : ℕ} (hn : fs.walk n = fs.walkWith f)
      (hf : ∀ d cs, f d cs = some (.dir i) → ∃ m, f d (cs ++ l) = fs.walk m i l)
      {cs : List Text} (h : fs.walkWith f d cs = some (.dir i)) :
      ∃ m, fs.walkWith f d (cs ++ l) = fs.walk m i l := by
    induction cs generalizing d with
    | nil =>
      obtain rfl : d = i := by simpa [Fs.walkWith] using h
      exact ⟨n, by rw [hn]; rfl⟩
    | cons c cs ih =>
      rw [Fs.walkWith] at h
      rw [List.cons_append, Fs.walkWith]
      by_cases h1 : c = [] ∨ c = [dot]
      · rw [if_pos h1] at h ⊢
        exact ih h
      rw [if_neg h1] at h ⊢
      by_cases h2 : c = [dot, dot]
      · rw [if_pos h2] at h ⊢
        exact ih h
      rw [if_neg h2] at h ⊢
      cases hl : fs.lookup d c with
      | none => simp [hl] at h
      | some it =>
        cases it with
        | dir j =>
          simp only [hl] at h ⊢
          exact ih h
        | file content =>
          simp only [hl] at h
          split_ifs at h
          cases h
        | link target =>
          simp only [hl] at h ⊢
          split_ifs at h ⊢
          rw [← List.append_assoc]
          exact hf _ _ h
  induction n generalizing d cs with
  | zero => exact hwith (n := 0) rfl (fun _ _ h => by cases h) h
  | succ n ih => exact hwith (n := n + 1) rfl (fun d cs h => ih h) h

/-- What is followed by more leads to a directory. -/
lemma walk_prefix {l : List Text} (hl : l ≠ []) (h : fs.walk n d (cs ++ l) = some r) :
    ∃ i, fs.walk n d cs = some (.dir i) := by
  have hwith {f : ℕ → List Text → Option Found}
      (hf : ∀ d cs r, f d (cs ++ l) = some r → ∃ i, f d cs = some (.dir i)) {d : ℕ}
      {cs : List Text} {r : Found} (h : fs.walkWith f d (cs ++ l) = some r) :
      ∃ i, fs.walkWith f d cs = some (.dir i) := by
    induction cs generalizing d with
    | nil => exact ⟨d, rfl⟩
    | cons c cs ih =>
      rw [List.cons_append, Fs.walkWith] at h
      rw [Fs.walkWith]
      by_cases h1 : c = [] ∨ c = [dot]
      · rw [if_pos h1] at h ⊢
        exact ih h
      rw [if_neg h1] at h ⊢
      by_cases h2 : c = [dot, dot]
      · rw [if_pos h2] at h ⊢
        exact ih h
      rw [if_neg h2] at h ⊢
      cases hl' : fs.lookup d c with
      | none => simp [hl'] at h
      | some it =>
        cases it with
        | dir j =>
          simp only [hl'] at h ⊢
          exact ih h
        | file content => simp [hl', hl] at h
        | link target =>
          simp only [hl'] at h ⊢
          split_ifs at h ⊢
          rw [← List.append_assoc] at h
          exact hf _ _ _ h
  induction n generalizing d cs r with
  | zero => exact hwith (fun _ _ _ h => by cases h) h
  | succ n ih => exact hwith (f := fs.walk n) (fun _ _ _ h => ih h) h

lemma walk_slash (h : fs.walk n d (cs ++ [[]]) = some r) : fs.walk n d cs = some r := by
  obtain ⟨i, hi⟩ := walk_prefix (by simp) h
  obtain ⟨m, hm⟩ := walk_append [[]] hi
  have hr : fs.walk m i [[]] = some (.dir i) := by cases m <;> simp [Fs.walk, Fs.walkWith]
  rw [hi, ← hr, ← hm, h]

/-- What an entry that is not a link leads to. -/
def Item.found : Item → Option Found
  | .dir i => some (.dir i)
  | .file _ => some .file
  | .link _ => none

lemma walk_entry (h : fs.walk n d cs = some (.dir i)) (hc : Plain c) {it : Item}
    (hl : fs.lookup i c = some it) (hr : it.found = some r) :
    fs.walk n d (cs ++ [c]) = some r := by
  obtain ⟨m, hm⟩ := walk_append [c] h
  rw [hm]
  cases it with
  | link target => cases hr
  | dir j | file content =>
    cases hr
    cases m <;> simp [Fs.walk, Fs.walkWith, hl, hc.1, hc.2.1, hc.2.2]

/-! ### Calls in a file system with fewer entries -/

theorem Fewer.stat (h : Fewer fs' fs) (hr : fs'.stat path = some r) : fs.stat path = some r := by
  unfold Fs.stat at hr ⊢
  rw [h.pathMax, h.cwd, h.linkMax, h.start] at hr
  split_ifs at hr ⊢
  exact h.walk hr

lemma entry_some {e : ℕ × Text} : fs.entry path = some e ↔ path ≠ [] ∧ path.length < fs.pathMax ∧
    fs.walk fs.linkMax (fs.start fs.cwd path) (path.splitOn slash).dropLast = some (.dir e.1) ∧
      (path.splitOn slash).getLast? = some e.2 := by
  unfold Fs.entry
  by_cases hc : path = [] ∨ fs.pathMax ≤ path.length
  · rw [if_pos hc]
    refine ⟨nofun, fun ⟨h1, h2, _⟩ => ?_⟩
    rcases hc with hc | hc
    · exact absurd hc h1
    · omega
  · rw [if_neg hc]
    push Not at hc
    cases hw : fs.walk fs.linkMax (fs.start fs.cwd path) (path.splitOn slash).dropLast with
    | none => simp
    | some r =>
      cases hl : (path.splitOn slash).getLast? with
      | none => simp
      | some c =>
        cases r with
        | file => simp
        | dir i => simp [hc, Prod.ext_iff]

lemma Fewer.entry {e : ℕ × Text} (h : Fewer fs' fs) (he : fs'.entry path = some e) :
    fs.entry path = some e := by
  rw [entry_some, h.pathMax, h.cwd, h.linkMax, h.start] at he
  exact entry_some.mpr ⟨he.1, he.2.1, h.walk he.2.2.1, he.2.2.2⟩

/-! ### What the calls do -/

lemma ne_nil_of_stat (h : fs.stat path = some r) : path ≠ [] := by
  rintro rfl
  simp [Fs.stat] at h

lemma stat_length (h : fs.stat path = some r) : path.length < fs.pathMax := by
  unfold Fs.stat at h
  split_ifs at h with hlen
  omega

lemma unlink_some (h : fs.unlink path = some fs') : ∃ d c it, fs.entry path = some (d, c) ∧
    fs.lookup d c = some it ∧ (∀ i, it ≠ .dir i) ∧ fs' = fs.erase d c := by
  obtain ⟨⟨d, c⟩, he, h⟩ := Option.bind_eq_some_iff.mp h
  cases hl : fs.lookup d c with
  | none => simp [hl] at h
  | some it =>
    cases it with
    | dir i => simp [hl] at h
    | file content | link target =>
      simp only [hl, Option.some.injEq] at h
      exact ⟨d, c, _, he, hl, nofun, h.symm⟩

lemma rmdir_some (h : fs.rmdir path = some fs') : ∃ d c i, fs.entry (Fs.strip path) = some (d, c) ∧
    fs.lookup d c = some (.dir i) ∧ (fs.dirs i).entries = [] ∧ fs' = fs.erase d c := by
  obtain ⟨⟨d, c⟩, he, h⟩ := Option.bind_eq_some_iff.mp h
  cases hl : fs.lookup d c with
  | none => simp [hl] at h
  | some it =>
    cases it with
    | file content | link target => simp [hl] at h
    | dir i =>
      simp only [hl] at h
      split_ifs at h with hempty
      exact ⟨d, c, i, he, hl, hempty, (Option.some.inj h).symm⟩

lemma readdir_some {names : List Text} (h : fs.readdir path = some names) :
    ∃ d, fs.stat path = some (.dir d) ∧ ∀ c ∈ names, c = [dot] ∨ c = [dot, dot] ∨
      ∃ name : Name, name.text = c ∧ ∃ it, fs.lookup d c = some it := by
  unfold Fs.readdir at h
  cases hs : fs.stat path with
  | none => simp [hs] at h
  | some r =>
    cases r with
    | file => simp [hs] at h
    | dir d =>
      simp only [hs, Option.some.injEq] at h
      subst h
      refine ⟨d, rfl, fun c hc => ?_⟩
      rcases List.mem_cons.mp hc with rfl | hc
      · exact Or.inl rfl
      rcases List.mem_cons.mp hc with rfl | hc
      · exact Or.inr (Or.inl rfl)
      obtain ⟨e, he, rfl⟩ := List.mem_map.mp hc
      exact Or.inr (Or.inr ⟨e.1, rfl, lookup_of_mem he⟩)

lemma readdir_of_stat (h : fs.stat path = some (.dir d)) : fs.readdir path =
    some ([dot] :: [dot, dot] :: (fs.dirs d).entries.map fun e => e.1.text) := by
  unfold Fs.readdir
  rw [h]

end Libchef.Files
