import Libchef.FilepathModel

/-!
What the recursive removal of a directory does on paths through links.

A call goes wherever paths of entries lead, links followed. It removes what it finds there of what
may go, and where nothing is gone afterwards there was nothing to remove.
-/

namespace Libchef.FilepathLinks

open Libchef.Files Libchef.StringsModel Libchef.FilepathModel

variable {fs fs' fs'' : Fs} {p q : Str} {name : Name} {d e i n : ℕ} {c : Text} {it : Item}
  {In : ℕ → Text → Prop} {V : Str → ℕ → Prop}

/-- The paths to directories that are made of `p` by adding names of entries. -/
inductive Visited (fs : Fs) (p : Str) : Str → ℕ → Prop
  | top {d : ℕ} (h : fs.stat p = some (.dir d)) : Visited fs p p d
  | child {q : Str} {d e : ℕ} {it : Item} (h : Visited fs p q d) (name : Name)
    (hl : fs.lookup d name.text = some it)
    (hs : fs.stat (join q name.text) = some (.dir e)) : Visited fs p (join q name.text) e

/-- On the paths of `V` there is nothing to remove but entries of `In`: no other entry leads to
anything but a directory, or is itself a directory with nothing in it but entries of `In`. -/
structure Harmless (fs : Fs) (In : ℕ → Text → Prop) (V : Str → ℕ → Prop) : Prop where
  noFile : ∀ q d (name : Name) it, V q d → ¬ In d name.text →
    fs.lookup d name.text = some it → fs.stat (join q name.text) ≠ some .file
  notEmpty : ∀ q d (name : Name) i, V q d → ¬ In d name.text →
    fs.lookup d name.text = some (.dir i) → V (join q name.text) i →
    ∃ c it, fs.lookup i c = some it ∧ ¬ In i c

/-- What `lstat` tells of a path. -/
def isLink (fs : Fs) (path : Str) : Bool :=
  match (fs.entry path).bind fun (d, c) => fs.lookup d c with
  | some (.link _) => true
  | _ => false

/-! ### Paths of entries -/

/-- The components of the path of an entry, over those of the path of its directory. -/
lemma stat_dir (h : fs.stat q = some (.dir d)) (name : Name) : ∃ cs,
    (join q name.text).splitOn slash = cs ++ [name.text] ∧
      fs.start fs.cwd (join q name.text) = fs.start fs.cwd q ∧
        fs.walk fs.linkMax (fs.start fs.cwd q) cs = some (.dir d) := by
  have hq := ne_nil_of_stat h
  have hwalk : fs.walk fs.linkMax (fs.start fs.cwd q) (q.splitOn slash) = some (.dir d) := by
    unfold Fs.stat at h
    split_ifs at h
    exact h
  obtain ⟨q₁, hq₁, hj⟩ := join_name hq name
  refine ⟨q₁.splitOn slash, ?_, ?_, ?_⟩
  · rw [hj, List.splitOn_append_cons_self, List.splitOn_eq_singleton name.noSlash]
  · have hhead : (q₁ ++ slash :: name.text).head? = q.head? := by
      rcases hq₁ with rfl | rfl
      · cases q with
        | nil => exact absurd rfl hq
        | cons a q => rfl
      · cases q₁ <;> rfl
    rw [hj, Fs.start, Fs.start, hhead]
  · rcases hq₁ with rfl | rfl
    · exact hwalk
    · rw [List.splitOn_append_cons_self, List.splitOn_nil] at hwalk
      exact walk_slash hwalk

lemma entry_join (h : fs.stat q = some (.dir d)) {d' : ℕ}
    (he : fs.entry (join q name.text) = some (d', c)) : d' = d ∧ c = name.text := by
  obtain ⟨cs, hsplit, hstart, hwalk⟩ := stat_dir h name
  obtain ⟨-, -, hdir, hlast⟩ := entry_some.mp he
  rw [hsplit, List.dropLast_concat, hstart, hwalk] at hdir
  rw [hsplit, List.getLast?_concat] at hlast
  simp only [Option.some.injEq, Found.dir.injEq] at hdir hlast
  exact ⟨hdir.symm, hlast.symm⟩

lemma stat_join (h : fs.stat q = some (.dir d)) (hl : fs.lookup d name.text = some it)
    {r r' : Found} (hf : it.found = some r) (hs : fs.stat (join q name.text) = some r') :
    r' = r := by
  obtain ⟨cs, hsplit, hstart, hwalk⟩ := stat_dir h name
  unfold Fs.stat at hs
  split_ifs at hs
  rw [hsplit, hstart, walk_entry hwalk name.plain hl hf] at hs
  exact (Option.some.inj hs).symm

lemma strip_join (hq : q ≠ []) (name : Name) : Fs.strip (join q name.text) = join q name.text := by
  obtain ⟨q₁, -, hj⟩ := join_name hq name
  unfold Fs.strip
  refine List.rdropWhile_eq_self_iff.mpr fun hne hlast => name.noSlash ?_
  have hmem : (join q name.text).getLast hne = name.text.getLast name.ne_nil := by
    simp only [hj]
    rw [List.getLast_append_of_ne_nil _ (by simp), List.getLast_cons name.ne_nil]
  rw [hmem, decide_eq_true_eq] at hlast
  rw [← hlast]
  exact List.getLast_mem name.ne_nil

/-- What leads anywhere is an entry of its directory. -/
lemma entry_of_stat {r : Found} (hq : q ≠ []) (hs : fs.stat (join q name.text) = some r) :
    ∃ d it, fs.entry (join q name.text) = some (d, name.text) ∧
      fs.lookup d name.text = some it := by
  obtain ⟨q₁, -, hj⟩ := join_name hq name
  have hsplit : (join q name.text).splitOn slash = q₁.splitOn slash ++ [name.text] := by
    rw [hj, List.splitOn_append_cons_self, List.splitOn_eq_singleton name.noSlash]
  have hne := ne_nil_of_stat hs
  unfold Fs.stat at hs
  split_ifs at hs with hlen
  rw [hsplit] at hs
  obtain ⟨d, hd⟩ := walk_prefix (List.cons_ne_nil _ _) hs
  obtain ⟨m, hm⟩ := walk_append [name.text] hd
  rw [hm] at hs
  have hlook : fs.lookup d name.text ≠ none := fun hnone => by
    obtain ⟨h1, h2, h3⟩ := name.plain
    cases m <;> simp [Fs.walk, Fs.walkWith, hnone, h1, h2, h3] at hs
  obtain ⟨it, hit⟩ := Option.ne_none_iff_exists'.mp hlook
  refine ⟨d, it, entry_some.mpr ⟨hne, by omega, ?_, ?_⟩, hit⟩
  · rw [hsplit, List.dropLast_concat, hd]
  · rw [hsplit, List.getLast?_concat]

lemma isLink_iff {path : Str} : isLink fs path = true ↔
    ∃ d c target, fs.entry path = some (d, c) ∧ fs.lookup d c = some (.link target) := by
  unfold isLink
  cases he : fs.entry path with
  | none => simp
  | some e =>
    obtain ⟨d, c⟩ := e
    cases hl : fs.lookup d c with
    | none => simp [hl]
    | some it => cases it <;> simp [hl]

/-! ### What stays -/

/-- What has been removed so far is of `In`. -/
inductive Kept (fs : Fs) (In : ℕ → Text → Prop) : Fs → Prop
  | refl : Kept fs In fs
  | erase {fs' : Fs} {d : ℕ} {c : Text} (h : Kept fs In fs') (hin : In d c) :
    Kept fs In (fs'.erase d c)

lemma Kept.fewer (h : Kept fs In fs') : Fewer fs' fs := by
  induction h with
  | refl => exact .refl fs
  | erase h hin ih => exact fewer_erase.trans ih

lemma Kept.lookup (h : Kept fs In fs') (hout : ¬ In d c) : fs'.lookup d c = fs.lookup d c := by
  induction h with
  | refl => rfl
  | erase h hin ih =>
    rw [lookup_erase, if_neg, ih]
    rintro ⟨rfl, rfl⟩
    exact hout hin

lemma Kept.eq (h : Kept fs (fun _ _ => False) fs') : fs' = fs := by
  cases h with
  | refl => rfl
  | erase h hin => exact hin.elim

lemma Kept.unlink (hh : Harmless fs In V) (h : Kept fs In fs') (hv : V q d)
    (hq : fs.stat q = some (.dir d)) (hl : fs.lookup d name.text = some it)
    (hs : fs'.stat (join q name.text) = some .file)
    (hu : fs'.unlink (join q name.text) = some fs'') : Kept fs In fs'' := by
  obtain ⟨d', c, it', he, hl', -, rfl⟩ := unlink_some hu
  have hfile := h.fewer.stat hs
  obtain ⟨rfl, rfl⟩ := entry_join hq (h.fewer.entry he)
  refine h.erase ?_
  by_contra hout
  exact hh.noFile q _ name it hv hout hl hfile

lemma Kept.rmdir (hh : Harmless fs In V) (h : Kept fs In fs') (hv : V q d)
    (hq : fs.stat q = some (.dir d)) (hv' : V (join q name.text) e)
    (hx : fs.stat (join q name.text) = some (.dir e))
    (hr : fs'.rmdir (join q name.text) = some fs'') : Kept fs In fs'' := by
  obtain ⟨d', c, i, he, hl, hempty, rfl⟩ := rmdir_some hr
  rw [strip_join (ne_nil_of_stat hq)] at he
  obtain ⟨rfl, rfl⟩ := entry_join hq (h.fewer.entry he)
  have hl₀ := h.fewer.lookup _ _ _ hl
  obtain rfl : e = i := Found.dir.inj (stat_join hq hl₀ rfl hx)
  refine h.erase ?_
  by_contra hout
  obtain ⟨c, it, hc, hne⟩ := hh.notEmpty q _ name e hv hout hl₀ hv'
  have hkept := h.lookup hne
  rw [hc, Fs.lookup, hempty] at hkept
  cases hkept

/-! ### One call -/

/-- A round of the loop. -/
lemma visit_kept (hh : Harmless fs In V) (hv : V q d) (hq : fs.stat q = some (.dir d))
    {call : Str → Fs → ℤ × Fs}
    (hcall : ∀ (name : Name) it e fs', fs.lookup d name.text = some it → Kept fs In fs' →
      fs'.stat (join q name.text) = some (.dir e) → Kept fs In (call (join q name.text) fs').2)
    {s : ℤ × Fs} (hs : Kept fs In s.2)
    (hc : c = [dot] ∨ c = [dot, dot] ∨ ∃ name : Name, name.text = c ∧
      ∃ it, fs.lookup d c = some it) :
    Kept fs In (visit call q s c).2 := by
  unfold visit
  by_cases hdot : c = lit ['.'] ∨ c = lit ['.', '.']
  · rw [if_pos hdot]
    exact hs
  rw [if_neg hdot]
  rcases hc with rfl | rfl | ⟨name, rfl, it, hl⟩
  · exact absurd (Or.inl rfl) hdot
  · exact absurd (Or.inr rfl) hdot
  by_cases hexist : exist s.2 (join q name.text) ≠ 0
  · simp only [if_pos hexist]
    exact hs
  by_cases hdir : isDir s.2 (join q name.text) = 0
  · simp only [if_neg hexist, if_pos hdir]
    obtain ⟨e, he⟩ := isDir_eq_zero hdir
    exact hcall name it e s.2 hl hs he
  · simp only [if_neg hexist, if_neg hdir]
    rcases rmFile_cases s.2 (join q name.text) with he | ⟨hst, hu⟩
    · rw [he]
      exact hs
    · exact hs.unlink hh hv hq hl hst hu

/-- **A call**, once the calls inside are known to remove nothing else, and the removal of its own
directory. -/
lemma body_kept (hh : Harmless fs In V) {call : Str → Fs → ℤ × Fs}
    (hvisit : ∀ d, fs.stat q = some (.dir d) → V q d)
    (hcall : ∀ d (name : Name) it e fs', fs.stat q = some (.dir d) →
      fs.lookup d name.text = some it → Kept fs In fs' →
      fs'.stat (join q name.text) = some (.dir e) → Kept fs In (call (join q name.text) fs').2)
    (hrmdir : ∀ fs' fs'', Kept fs In fs' → fs'.rmdir q = some fs'' → Kept fs In fs'')
    (h : Kept fs In fs') : Kept fs In (body call q fs').2 := by
  cases hr : fs'.readdir q with
  | none =>
    rw [body_none hr]
    exact h
  | some names =>
    obtain ⟨d, hst, hnames⟩ := readdir_some hr
    have hq := h.fewer.stat hst
    have hloop (l : List Str) (hl : ∀ c ∈ l, c ∈ names) (s : ℤ × Fs) (hs : Kept fs In s.2) :
        Kept fs In (l.foldl (visit call q) s).2 := by
      induction l generalizing s with
      | nil => exact hs
      | cons c l ih =>
        refine ih (fun c' hc' => hl c' (List.mem_cons_of_mem _ hc')) _ ?_
        refine visit_kept hh (hvisit d hq) hq (fun name it e fs' => hcall d name it e fs' hq)
          hs ?_
        rcases hnames c (hl c (List.mem_cons_self ..)) with hc | hc | ⟨name, hname, it, hit⟩
        · exact Or.inl hc
        · exact Or.inr (Or.inl hc)
        · exact Or.inr (Or.inr ⟨name, hname, it, h.fewer.lookup d c it hit⟩)
    have hs := hloop names (fun _ hc => hc) (0, fs') h
    rw [body_eq hr]
    cases hrm : (names.foldl (visit call q) (0, fs')).2.rmdir q with
    | none => exact hs
    | some fs'' => exact hrmdir _ _ hs hrm

/-! ### The calls inside one another -/

/-- **The calls inside one another**, by the depth of the calls. -/
theorem nested_kept (hh : Harmless fs In (Visited fs p)) (n : ℕ) {q : Str}
    (hvisit : ∀ d, fs.stat q = some (.dir d) → Visited fs p q d)
    (hrmdir : ∀ fs' fs'', Kept fs In fs' → fs'.rmdir q = some fs'' → Kept fs In fs'')
    (h : Kept fs In fs') : Kept fs In (nested n q fs').2 := by
  induction n generalizing q fs' with
  | zero => exact h
  | succ n ih =>
    refine body_kept hh hvisit (fun d name it e T hq hl hT he => ?_) hrmdir h
    have hv := hvisit d hq
    have hx := hT.fewer.stat he
    exact ih (fun e' he' => hv.child name hl he')
      (fun _ _ hk hr => hk.rmdir hh hv hq (hv.child name hl hx) hx hr) hT

/-- `rmdir` does not follow a link. -/
lemma rmdir_link (hq : q ≠ []) (hl : isLink fs (join q name.text) = true) (h : Fewer fs' fs) :
    fs'.rmdir (join q name.text) = none := by
  cases hr : fs'.rmdir (join q name.text) with
  | none => rfl
  | some fs'' =>
    obtain ⟨d, c, target, he, hlink⟩ := isLink_iff.mp hl
    obtain ⟨d', c', i, he', hdir, -⟩ := rmdir_some hr
    rw [strip_join hq] at he'
    obtain ⟨rfl, rfl⟩ := Prod.mk.inj (Option.some.inj (he.symm.trans (h.entry he')))
    rw [h.lookup _ _ _ hdir] at hlink
    cases hlink

/-- What a call for a link removes is on the paths that go on from the link. -/
lemma nested_link_kept (hh : Harmless fs In (Visited fs (join q name.text))) (hq : q ≠ [])
    (hl : isLink fs (join q name.text) = true) (n : ℕ) :
    Kept fs In (nested n (join q name.text) fs).2 := by
  refine nested_kept hh n (fun _ => .top) (fun fs' fs'' hk hr => ?_) .refl
  rw [rmdir_link hq hl hk.fewer] at hr
  cases hr

/-! ### What is gone after a call -/

lemma gone_of_erase (h : Fewer fs (fs'.erase d c)) : fs.lookup d c = none := by
  cases hl : fs.lookup d c with
  | none => rfl
  | some it =>
    have he := h.lookup _ _ _ hl
    rw [lookup_erase, if_pos ⟨rfl, rfl⟩] at he
    cases he

lemma visit_name {call : Str → Fs → ℤ × Fs} {s : ℤ × Fs} {r : Found}
    (hs : s.2.stat (join q name.text) = some r) : (visit call q s name.text).2 =
      if isDir s.2 (join q name.text) = 0 then (call (join q name.text) s.2).2
      else (rmFile s.2 (join q name.text)).2 := by
  have hdot : ¬ (name.text = lit ['.'] ∨ name.text = lit ['.', '.']) :=
    not_or.mpr ⟨name.ne_dot, name.ne_dots⟩
  have hexist : ¬ exist s.2 (join q name.text) ≠ 0 := by
    simp [exist_eq (ne_nil_of_stat hs), hs]
  simp only [visit, if_neg hdot, if_neg hexist]
  split_ifs <;> rfl

lemma rmFile_of_stat (hq : fs.stat q = some (.dir d))
    (hs : fs.stat (join q name.text) = some .file) :
    (rmFile fs (join q name.text)).2 = fs.erase d name.text := by
  obtain ⟨d', it, he, hl⟩ := entry_of_stat (ne_nil_of_stat hq) hs
  obtain ⟨rfl, -⟩ := entry_join hq he
  have hne := ne_nil_of_stat hs
  have hu : fs.unlink (join q name.text) = some (fs.erase d' name.text) := by
    unfold Fs.unlink
    rw [he, Option.bind_some]
    cases it with
    | dir i => cases stat_join hq hl rfl hs
    | file content | link target => simp only [hl]
  unfold rmFile isDir
  rw [if_neg hne, if_neg (by simp [exist_eq hne, hs]), if_neg (by simp [hne, hs]), hu]

lemma rmdir_of_stat (hq : fs.stat q = some (.dir d)) (hl : fs.lookup d name.text = some (.dir i))
    (hs : fs.stat (join q name.text) = some (.dir i)) (hempty : (fs.dirs i).entries = []) :
    fs.rmdir (join q name.text) = some (fs.erase d name.text) := by
  obtain ⟨d', it, he, hit⟩ := entry_of_stat (ne_nil_of_stat hq) hs
  obtain ⟨rfl, -⟩ := entry_join hq he
  unfold Fs.rmdir
  rw [strip_join (ne_nil_of_stat hq), he, Option.bind_some]
  simp only [hl, if_pos hempty]

/-- A call after which all the entries are there has come to every entry of its directory, and
all of them were there after that. -/
lemma round_whole (hlen : fs.pathMax < n + q.length) (hT : Fewer fs' fs)
    (hw : Fewer fs (nested n q fs').2) (hq : fs.stat q = some (.dir d))
    (hl : fs.lookup d name.text = some it) :
    ∃ m s, fs.pathMax < m + 1 + q.length ∧ Fewer s.2 fs ∧
      Fewer fs (visit (nested m) q s name.text).2 := by
  cases n with
  | zero =>
    have := stat_length hq
    omega
  | succ m =>
    have hfs' : Fewer fs fs' := hw.trans (removes_nested _ _ _)
    have hr := readdir_of_stat (hfs'.stat hq)
    obtain ⟨e, he, hname, -⟩ := lookup_mem (hfs'.lookup _ _ _ hl)
    have hmem : name.text ∈ [dot] :: [dot, dot] :: (fs'.dirs d).entries.map fun e => e.1.text :=
      List.mem_cons_of_mem _ (List.mem_cons_of_mem _ (List.mem_map.mpr ⟨e, he, hname⟩))
    obtain ⟨before, after, hsplit⟩ := List.append_of_mem hmem
    have hround : Fewer (nested (m + 1) q fs').2
        ((before ++ [name.text]).foldl (visit (nested m) q) (0, fs')).2 := by
      refine body_fewer_foldl (r := after) (removes_nested m) ?_
      rw [hr, hsplit, List.append_assoc, List.singleton_append]
    rw [List.foldl_concat] at hround
    exact ⟨m, before.foldl (visit (nested m) q) (0, fs'), hlen,
      (foldl_fewer (removes_nested m) q before (0, fs')).trans hT, hw.trans hround⟩

/-- It has been called in every directory on its paths. -/
lemma visited_whole (hlen : fs.pathMax < n + p.length) (hw : Fewer fs (nested n p fs).2)
    (hv : Visited fs p q d) : fs.stat q = some (.dir d) ∧ ∃ m fs', fs.pathMax < m + q.length ∧
      Fewer fs' fs ∧ Fewer fs (nested m q fs').2 := by
  induction hv with
  | top h => exact ⟨h, n, fs, hlen, .refl fs, hw⟩
  | child h name hl hs ih =>
    obtain ⟨hq, m, fs', hlen, hT, hw⟩ := ih
    obtain ⟨k, s, hk, hs', hw⟩ := round_whole hlen hT hw hq hl
    have hst := (hw.trans (visit_fewer (removes_nested k) _ s _)).stat hs
    rw [visit_name hst, if_pos (isDir_of_stat hst)] at hw
    have := length_join (ne_nil_of_stat hq) name
    exact ⟨hs, k, s.2, by omega, hs', hw⟩

/-- **Where nothing is gone there was nothing to remove.** -/
theorem harmless_of_whole (hlen : fs.pathMax < n + p.length) (hw : Fewer fs (nested n p fs).2) :
    Harmless fs (fun _ _ => False) (Visited fs p) := by
  constructor
  · intro q d name it hv _ hl hs
    obtain ⟨hq, m, fs', hlen, hT, hw⟩ := visited_whole hlen hw hv
    obtain ⟨k, s, -, -, hw⟩ := round_whole hlen hT hw hq hl
    have hback : Fewer fs s.2 := hw.trans (visit_fewer (removes_nested k) q s _)
    have hst := hback.stat hs
    rw [visit_name hst, if_neg (by simp [isDir, ne_nil_of_stat hst, hst]),
      rmFile_of_stat (hback.stat hq) hst] at hw
    rw [gone_of_erase hw] at hl
    cases hl
  · intro q d name i hv _ hl hv'
    obtain ⟨hq, -⟩ := visited_whole hlen hw hv
    obtain ⟨hx, m, fs', hlen, hT, hw⟩ := visited_whole hlen hw hv'
    by_contra hno
    have hback : Fewer fs fs' := hw.trans (removes_nested m _ fs')
    have hempty : (fs'.dirs i).entries = [] := by
      refine List.eq_nil_iff_forall_not_mem.mpr fun e he => ?_
      obtain ⟨it, hit⟩ := lookup_of_mem he
      exact hno ⟨_, it, hT.lookup _ _ _ hit, id⟩
    have hx' := hback.stat hx
    cases m with
    | zero =>
      have := stat_length hx
      omega
    | succ m =>
      have hr := readdir_of_stat hx'
      rw [hempty, List.map_nil] at hr
      have hskip : ([[dot], [dot, dot]].foldl (visit (nested m) (join q name.text)) (0, fs')).2 =
        fs' := rfl
      rw [nested, body_eq hr, hskip, rmdir_of_stat (hback.stat hq) (hback.lookup _ _ _ hl) hx'
        hempty, Option.getD_some] at hw
      rw [gone_of_erase hw] at hl
      cases hl

/-! ### Calls that keep to some entries -/

/-- A call removes nothing but entries of `In`, and is deep enough for its path. -/
structure Confined (In : ℕ → Text → Prop) (n : ℕ) (q : Str) (fs : Fs) : Prop where
  deep : fs.pathMax < n + q.length
  keeps : ∀ d c, ¬ In d c → (nested n q fs).2.lookup d c = fs.lookup d c

/-- So do the calls inside: what one leaves is between what there is before it and what there is
at the end. -/
lemma Confined.sub (h : Confined In (n + 1) q fs) {l r : List Str} {T : Fs}
    (hr : fs.readdir q = some (l ++ name.text :: r))
    (hl : (l.foldl (visit (nested n) q) (0, fs)).2 = T) (hdir : isDir T (join q name.text) = 0) :
    Confined In n (join q name.text) T := by
  obtain ⟨d, hst, -⟩ := readdir_some hr
  obtain ⟨e, he⟩ := isDir_eq_zero hdir
  have hrem := removes_nested n
  have hT : Fewer T fs := hl ▸ foldl_fewer hrem q l (0, fs)
  have hend : Fewer (nested (n + 1) q fs).2 (nested n (join q name.text) T).2 := by
    have hround := body_fewer_foldl (l := l ++ [name.text]) (r := r) hrem (by simpa using hr)
    rw [List.foldl_concat, visit_name (by rw [hl]; exact he), hl, if_pos hdir] at hround
    exact hround
  constructor
  · have := length_join (ne_nil_of_stat hst) name
    have := h.deep
    rw [hT.pathMax]
    omega
  · exact fun d c hno => hT.lookup_between (hrem _ T) hend (h.keeps d c hno)

/-- A link whose call leaves all that it leads to leads to nothing that can be removed. -/
lemma Confined.harmless (h : Confined In n (join q name.text) fs) (hq : q ≠ [])
    (hl : isLink fs (join q name.text) = true)
    (hout : ∀ x d c, Visited fs (join q name.text) x d → ¬ In d c) :
    Harmless fs (fun _ _ => False) (Visited fs (join q name.text)) := by
  have hf := removes_nested n (join q name.text) fs
  have hkept : Kept fs (fun d _ => ∃ x, Visited fs (join q name.text) x d)
      (nested n (join q name.text) fs).2 :=
    nested_link_kept ⟨fun x _ _ _ hv hno => absurd ⟨x, hv⟩ hno,
      fun x _ _ _ hv hno => absurd ⟨x, hv⟩ hno⟩ hq hl n
  refine harmless_of_whole h.deep ⟨fun d => (hf.parent d).symm, fun d c it hit => ?_,
    hf.root.symm, hf.cwd.symm, hf.pathMax.symm, hf.linkMax.symm⟩
  by_cases hv : ∃ x, Visited fs (join q name.text) x d
  · obtain ⟨x, hv⟩ := hv
    rw [h.keeps d c (hout x d c hv), hit]
  · rw [hkept.lookup hv, hit]

end Libchef.FilepathLinks
