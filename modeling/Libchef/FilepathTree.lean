import Libchef.FilepathLinks

/-!
What the recursive removal of a directory leaves alone.

The calls classify entries through links. Where a link leads out of the tree to a directory,
its entries are removed like those of the tree. Whether it still does when the removal comes to it
depends on what has been removed before.
-/

namespace Libchef.FilepathTree

open Libchef.Files Libchef.StringsModel Libchef.FilepathModel Libchef.FilepathLinks

variable {fs fs' : Fs} {p q : Str} {name : Name} {d₀ n : ℕ} {c : Text} {In : ℕ → Text → Prop}

/-! ### The tree -/

/-- The directories that are reached from `d₀` through real entries. -/
inductive InTree (fs : Fs) (d₀ : ℕ) : ℕ → Prop
  | root : InTree fs d₀ d₀
  | sub {d i : ℕ} {c : Text} (h : InTree fs d₀ d) (hl : fs.lookup d c = some (.dir i)) :
    InTree fs d₀ i

/-- The entry of that name in that directory is the one that `p` itself names. -/
def Own (fs : Fs) (p : Str) (d : ℕ) (c : Text) : Prop := fs.entry (Fs.strip p) = some (d, c)

/-- The entries outside of the tree of `p` are as they were. -/
def StaysInside (fs : Fs) (p : Str) (d₀ : ℕ) : Prop :=
  ∀ d c, ¬ InTree fs d₀ d → ¬ Own fs p d c →
    (rmdirRecursive p fs).2.lookup d c = fs.lookup d c

/-- What may be removed: the entries of the tree and that of `p` itself. -/
def Inside (fs : Fs) (p : Str) (d₀ d : ℕ) (c : Text) : Prop := InTree fs d₀ d ∨ Own fs p d c

/-! ### The removal that leaves links alone -/

/-- A call that leaves links alone. -/
def spare (call : Str → Fs → ℤ × Fs) (path : Str) (fs : Fs) : ℤ × Fs :=
  if isLink fs path then (-1, fs) else call path fs

/-- A removal that leaves the links to directories alone, down to that depth. -/
def sweep : ℕ → Str → Fs → ℤ × Fs
  | 0, _, fs => (0, fs)
  | n + 1, pathname, fs => body (spare (sweep n)) pathname fs

/-- In the directory `q` such a removal comes to that name, when `fs'` is left of `fs`. -/
def Comes (n : ℕ) (q : Str) (fs : Fs) (name : Name) (fs' : Fs) : Prop :=
  ∃ before after, fs.readdir q = some (before ++ name.text :: after) ∧
    fs' = (before.foldl (visit (spare (sweep n)) q) (0, fs)).2

/-- Somewhere below `q` it comes to a link that then leads to a directory. -/
inductive Meets : ℕ → Str → Fs → Str → Fs → Prop
  | link {n : ℕ} {q : Str} {fs fs' : Fs} {name : Name} (h : Comes n q fs name fs')
    (hd : isDir fs' (join q name.text) = 0) (hl : isLink fs' (join q name.text) = true) :
    Meets (n + 1) q fs (join q name.text) fs'
  | deeper {n : ℕ} {q x : Str} {fs fs' fs'' : Fs} {name : Name} (h : Comes n q fs name fs')
    (hd : isDir fs' (join q name.text) = 0) (hl : isLink fs' (join q name.text) = false)
    (hm : Meets n (join q name.text) fs' x fs'') : Meets (n + 1) q fs x fs''

/-- By links nothing is removed outside of the tree. Either from no link that then leads to a
directory, when the removal of the tree comes to it, anything can be removed. Or the directories
outside of the tree that links lead to have nothing to remove from the first. -/
def Spared (fs : Fs) (p : Str) (d₀ : ℕ) : Prop :=
  (∀ x fs', Meets (fs.pathMax + 1) p fs x fs' → Harmless fs' (fun _ _ => False) (Visited fs' x)) ∨
    Harmless fs (Inside fs p d₀) (Visited fs p)

/-- No link to a directory that the removal comes to leads to where something may be removed. -/
def LeadsOut (fs : Fs) (p : Str) (d₀ : ℕ) : Prop :=
  ∀ x fs', Meets (fs.pathMax + 1) p fs x fs' → ∀ q d c, Visited fs' x q d → ¬ Inside fs p d₀ d c

/-! ### It stays in the tree -/

lemma rmdir_top (h : Kept fs (Inside fs p d₀) fs') (hr : fs'.rmdir p = some fs'') :
    Kept fs (Inside fs p d₀) fs'' := by
  obtain ⟨d, c, i, he, -, -, rfl⟩ := rmdir_some hr
  exact h.erase (Or.inr (h.fewer.entry he))

/-- **It stays in the tree**, as it goes through real entries only. -/
theorem sweep_kept (n : ℕ) {q : Str}
    (hvisit : ∀ d, fs.stat q = some (.dir d) → InTree fs d₀ d)
    (hrmdir : ∀ fs' fs'', Kept fs (Inside fs p d₀) fs' → fs'.rmdir q = some fs'' →
      Kept fs (Inside fs p d₀) fs'')
    (h : Kept fs (Inside fs p d₀) fs') : Kept fs (Inside fs p d₀) (sweep n q fs').2 := by
  have hh : Harmless fs (Inside fs p d₀) fun _ d => InTree fs d₀ d :=
    ⟨fun _ _ _ _ hin hout => absurd (Or.inl hin) hout,
      fun _ _ _ _ hin hout => absurd (Or.inl hin) hout⟩
  induction n generalizing q fs' with
  | zero => exact h
  | succ n ih =>
    refine body_kept hh hvisit (fun d name it e T hq hl hT he => ?_) hrmdir h
    unfold spare
    split_ifs with hlink
    · exact hT
    have hin := hvisit d hq
    -- what is not a link is what the path leads to
    have hdir (i : ℕ) (hi : fs.stat (join q name.text) = some (.dir i)) : InTree fs d₀ i := by
      cases it with
      | dir j =>
        cases stat_join hq hl rfl hi
        exact hin.sub hl
      | file content => cases stat_join hq hl rfl hi
      | link target =>
        obtain ⟨d', it, hent, hit⟩ := entry_of_stat (ne_nil_of_stat hq) he
        obtain ⟨rfl, -⟩ := entry_join hq (hT.fewer.entry hent)
        rw [hT.fewer.lookup _ _ _ hit] at hl
        cases hl
        exact absurd (isLink_iff.mpr ⟨_, _, target, hent, hit⟩) hlink
    have hx := hT.fewer.stat he
    exact ih hdir (fun _ _ hk hr => hk.rmdir hh hin hq (hdir e hx) hx hr) hT

lemma visit_snd {call call' : Str → Fs → ℤ × Fs} {s s' : ℤ × Fs} (hs : s.2 = s'.2)
    (h : c ≠ [dot] → c ≠ [dot, dot] → isDir s'.2 (join q c) = 0 →
      (call (join q c) s'.2).2 = (call' (join q c) s'.2).2) :
    (visit call q s c).2 = (visit call' q s' c).2 := by
  simp only [visit, hs]
  by_cases hdot : c = lit ['.'] ∨ c = lit ['.', '.']
  · simp only [if_pos hdot, hs]
  by_cases hexist : exist s'.2 (join q c) ≠ 0
  · simp only [if_neg hdot, if_pos hexist, hs]
  by_cases hdir : isDir s'.2 (join q c) = 0
  · simp only [if_neg hdot, if_neg hexist, if_pos hdir]
    exact h (fun he => hdot (Or.inl he)) (fun he => hdot (Or.inr he)) hdir
  · simp only [if_neg hdot, if_neg hexist, if_neg hdir]

/-- A call does what it does with links left alone, if by links nothing is removed. -/
lemma call_eq_sweep (hq : q ≠ [])
    (hlink : isLink fs (join q name.text) = true →
      Harmless fs (fun _ _ => False) (Visited fs (join q name.text)))
    (hdeeper : isLink fs (join q name.text) = false →
      (nested n (join q name.text) fs).2 = (sweep n (join q name.text) fs).2) :
    (nested n (join q name.text) fs).2 = (spare (sweep n) (join q name.text) fs).2 := by
  rw [spare]
  split_ifs with hl
  · exact (nested_link_kept (hlink hl) hq hl n).eq
  · exact hdeeper (Bool.not_eq_true _ ▸ hl)

/-- A part of the loop does what it does with links left alone, if the calls do. -/
lemma foldl_eq_sweep {l r : List Str} (hr : fs.readdir q = some (l ++ r))
    (h : ∀ l₁ (name : Name) r₁, l = l₁ ++ name.text :: r₁ →
      (l₁.foldl (visit (nested n) q) (0, fs)).2 =
        (l₁.foldl (visit (spare (sweep n)) q) (0, fs)).2 →
      isDir (l₁.foldl (visit (spare (sweep n)) q) (0, fs)).2 (join q name.text) = 0 →
      (nested n (join q name.text) (l₁.foldl (visit (spare (sweep n)) q) (0, fs)).2).2 =
        (spare (sweep n) (join q name.text)
          (l₁.foldl (visit (spare (sweep n)) q) (0, fs)).2).2) :
    (l.foldl (visit (nested n) q) (0, fs)).2 =
      (l.foldl (visit (spare (sweep n)) q) (0, fs)).2 := by
  obtain ⟨d, -, hnames⟩ := readdir_some hr
  induction l using List.reverseRecOn generalizing r with
  | nil => rfl
  | append_singleton l c ih =>
    have hl : (l.foldl (visit (nested n) q) (0, fs)).2 =
        (l.foldl (visit (spare (sweep n)) q) (0, fs)).2 := by
      rw [List.append_assoc] at hr hnames
      exact ih hr (fun l₁ name r₁ hl => h l₁ name (r₁ ++ [c]) (by rw [hl]; simp)) hnames
    rw [List.foldl_concat, List.foldl_concat]
    refine visit_snd hl fun hdot hdots hdir => ?_
    obtain ⟨name, rfl, -⟩ := ((hnames c (by simp)).resolve_left hdot).resolve_left hdots
    exact h l name [] rfl hl hdir

/-- **Where nothing is removed by links** the calls do what the removal without them does. -/
theorem nested_eq_sweep
    (h : ∀ x T, Meets n q fs x T → Harmless T (fun _ _ => False) (Visited T x)) :
    (nested n q fs).2 = (sweep n q fs).2 := by
  induction n generalizing q fs with
  | zero => rfl
  | succ n ih =>
    rw [nested, sweep]
    cases hr : fs.readdir q with
    | none => rw [body_none hr, body_none hr]
    | some names =>
      obtain ⟨d, hst, -⟩ := readdir_some hr
      rw [body_eq hr, body_eq hr, foldl_eq_sweep (r := []) (by rw [hr, List.append_nil])]
      intro l₁ name r₁ hl _ hdir
      have hcomes : Comes n q fs name _ := ⟨l₁, r₁, hl ▸ hr, rfl⟩
      exact call_eq_sweep (ne_nil_of_stat hst) (fun hlink => h _ _ (.link hcomes hdir hlink))
        fun hlink => ih fun x T hm => h x T (.deeper hcomes hdir hlink hm)

/-- **Where the calls remove nothing of what links lead to**, there was nothing to remove. -/
theorem harmless_of_confined (h : Confined In n q fs)
    (hout : ∀ x T, Meets n q fs x T → ∀ r d c, Visited T x r d → ¬ In d c) {x : Str} {T : Fs}
    (hm : Meets n q fs x T) : Harmless T (fun _ _ => False) (Visited T x) := by
  induction n generalizing q fs x T with
  | zero => cases hm
  | succ n ih =>
    have hq {names : List Str} (hr : fs.readdir q = some names) : q ≠ [] := by
      obtain ⟨d, hst, -⟩ := readdir_some hr
      exact ne_nil_of_stat hst
    have hlink {name : Name} {T : Fs} (hc : Comes n q fs name T)
        (hdir : isDir T (join q name.text) = 0) (hs : Confined In n (join q name.text) T)
        (hl : isLink T (join q name.text) = true) :
        Harmless T (fun _ _ => False) (Visited T (join q name.text)) := by
      obtain ⟨_, _, hr, -⟩ := id hc
      exact hs.harmless (hq hr) hl (hout _ _ (.link hc hdir hl))
    have hdeeper {name : Name} {T : Fs} (hc : Comes n q fs name T)
        (hdir : isDir T (join q name.text) = 0) (hs : Confined In n (join q name.text) T)
        (hl : isLink T (join q name.text) = false) {x : Str} {T' : Fs}
        (hm : Meets n (join q name.text) T x T') :
        Harmless T' (fun _ _ => False) (Visited T' x) :=
      ih hs (fun x T' hm => hout x T' (.deeper hc hdir hl hm)) hm
    -- up to each name the loop does what it does with links left alone
    have hsame {l r : List Str} {name : Name} (hr : fs.readdir q = some (l ++ name.text :: r)) :
        (l.foldl (visit (nested n) q) (0, fs)).2 =
          (l.foldl (visit (spare (sweep n)) q) (0, fs)).2 := by
      refine foldl_eq_sweep hr fun l₁ name₁ r₁ hl₁ hfold hdir => ?_
      have hr₁ : fs.readdir q = some (l₁ ++ name₁.text :: (r₁ ++ name.text :: r)) := by
        rw [hr, hl₁]
        simp
      have hc : Comes n q fs name₁ _ := ⟨l₁, _, hr₁, rfl⟩
      have hs := h.sub hr₁ hfold hdir
      exact call_eq_sweep (hq hr) (hlink hc hdir hs) fun hl =>
        nested_eq_sweep fun x T hm => hdeeper hc hdir hs hl hm
    cases hm with
    | link hc hdir hl =>
      obtain ⟨l, r, hr, rfl⟩ := id hc
      exact hlink hc hdir (h.sub hr (hsame hr) hdir) hl
    | deeper hc hdir hl hm =>
      obtain ⟨l, r, hr, rfl⟩ := id hc
      exact hdeeper hc hdir (h.sub hr (hsame hr) hdir) hl hm

/-- **When `rmdir_recursive` stays inside the tree.** Where by links nothing is removed outside of
it, every entry outside is as it was; where links lead out of the tree only, that is when. -/
theorem staysInside_of_spared (hp : fs.stat p = some (.dir d₀)) :
    (Spared fs p d₀ → StaysInside fs p d₀) ∧
      (LeadsOut fs p d₀ → (StaysInside fs p d₀ ↔ Spared fs p d₀)) := by
  have henough (h : Spared fs p d₀) : StaysInside fs p d₀ := by
    have hkept : Kept fs (Inside fs p d₀) (rmdirRecursive p fs).2 := by
      rcases h with h | h
      · rw [rmdirRecursive, nested_eq_sweep h]
        refine sweep_kept _ (fun d hd => ?_) (fun _ _ => rmdir_top) .refl
        cases hp.symm.trans hd
        exact .root
      · exact nested_kept h _ (fun _ => .top) (fun _ _ => rmdir_top) .refl
    exact fun d c hout hno => hkept.lookup (not_or.mpr ⟨hout, hno⟩)
  refine ⟨henough, fun hout => ⟨fun h => Or.inl fun x T hm => ?_, henough⟩⟩
  have hconfined : Confined (Inside fs p d₀) (fs.pathMax + 1) p fs :=
    ⟨by omega, fun d c hno => h d c (not_or.mp hno).1 (not_or.mp hno).2⟩
  exact harmless_of_confined hconfined hout hm

/-- What comes before the name in the directory. -/
lemma Comes.names (h : Comes n q fs name fs') {l : List Text}
    (hr : fs.readdir q = some ([dot] :: [dot, dot] :: l)) :
    ∃ before after, l = before ++ name.text :: after ∧
      fs' = (before.foldl (visit (spare (sweep n)) q) (0, fs)).2 := by
  obtain ⟨before, after, hr', rfl⟩ := h
  have heq := Option.some.inj (hr.symm.trans hr')
  rcases before with _ | ⟨b₀, _ | ⟨b₁, bs⟩⟩
  · exact absurd (List.cons.inj heq).1.symm name.ne_dot
  · exact absurd (List.cons.inj (List.cons.inj heq).2).1.symm name.ne_dots
  · simp only [List.cons_append, List.cons.injEq] at heq
    obtain ⟨rfl, rfl, rfl⟩ := heq
    exact ⟨bs, after, rfl, rfl⟩

/-- Two directories in the root, with these entries, and an empty one in the first. -/
def twoDirs (a b : List (Name × Item)) : Fs where
  dirs
    | 0 => ⟨0, [(⟨lit ['a'], by decide, by decide, by decide, by decide⟩, .dir 1),
        (⟨lit ['b'], by decide, by decide, by decide, by decide⟩, .dir 2)]⟩
    | 1 => ⟨0, a⟩
    | 2 => ⟨0, b⟩
    | _ => ⟨1, []⟩
  root := 0
  cwd := 0
  pathMax := 4096
  linkMax := 40

/-- A file. -/
def f : Name × Item := (⟨lit ['f'], by decide, by decide, by decide, by decide⟩, .file [])

/-- An empty directory. -/
def x : Name × Item := (⟨lit ['x'], by decide, by decide, by decide, by decide⟩, .dir 3)

/-- A link. -/
def l (target : Text) : Name × Item :=
  (⟨lit ['l'], by decide, by decide, by decide, by decide⟩, .link target)

/-- A link out of the tree that goes through an entry of it. -/
def through : Fs := twoDirs [x, l (lit ['x', '/', '.', '.', '/', '.', '.', '/', 'b'])] [f]

/-- When the removal comes to the link, the entry is gone. -/
theorem staysInside_of_spared_through : StaysInside through (lit ['/', 'a']) 1 := by
  refine (staysInside_of_spared rfl).1 (Or.inl fun path T hm => ?_)
  exfalso
  have hround {name : Name} {T : Fs} (h : Comes through.pathMax (lit ['/', 'a']) through name T)
      (hd : isDir T (join (lit ['/', 'a']) name.text) = 0) :
      x.1.text = name.text ∧ T = through := by
    obtain ⟨before, after, hnames, rfl⟩ := h.names rfl
    rcases before with _ | ⟨b, _ | ⟨b', bs⟩⟩
    · exact ⟨(List.cons.inj hnames).1, rfl⟩
    · obtain ⟨rfl, hname⟩ := List.cons.inj hnames
      rw [← (List.cons.inj hname).1] at hd
      exact absurd hd (by decide)
    · have hlen := congrArg List.length hnames
      simp [through, twoDirs] at hlen
  cases hm with
  | link h hd hl =>
    obtain ⟨hname, rfl⟩ := hround h hd
    rw [← hname] at hl
    revert hl
    decide
  | deeper h hd hl hm =>
    obtain ⟨hname, rfl⟩ := hround h hd
    rw [← hname] at hm
    cases hm with
    | link h | deeper h =>
      obtain ⟨before, after, hnames, -⟩ := h.names rfl
      cases before <;> cases hnames

/-- A link to the other directory, where a file is removed. -/
theorem not_staysInside :
    (twoDirs [l (lit ['/', 'b'])] [f]).stat (lit ['/', 'a']) = some (.dir 1) ∧
      ¬ StaysInside (twoDirs [l (lit ['/', 'b'])] [f]) (lit ['/', 'a']) 1 := by
  refine ⟨rfl, fun h => ?_⟩
  have hone {d : ℕ} (hd : InTree (twoDirs [l (lit ['/', 'b'])] [f]) 1 d) : d = 1 := by
    induction hd with
    | root => rfl
    | sub _ hl ih =>
      obtain ⟨x, hx, -, hdir⟩ := lookup_mem hl
      rw [ih] at hx
      obtain rfl := List.mem_singleton.mp hx
      cases hdir
  have hfile := h 2 (lit ['f']) (fun hd => by cases hone hd) (by unfold Own; decide)
  revert hfile
  decide

end Libchef.FilepathTree
