import Libchef.DumpModel

/-!
When a dump that overwrites its file leaves it whole.

The text is written to another file, and that one is renamed whatever has become of the write.
So the file changes to what the other one was left with, and this is the text of a dump as long
as no rename succeeds after a write that was cut short or refused.
-/

namespace Libchef.DumpAtomic

open Libchef.StringsModel Libchef.DumpModel Libchef.Disk

/-- A dumper that overwrites its file. -/
def overwriting (numPerLine_ : UInt32) (filename_ : Str) : Dumper :=
  ⟨numPerLine_, filename_, .overwrite⟩

variable {n : UInt32} {f : Str} {d : Dumper} {s s' : State} {c : Call} {text old : Str}
  {files : Contents Str UInt8} {calls : List Call}

lemma text_ne_nil (h : d.text c = some text) : text ≠ [] := by
  obtain ⟨styled, -, ht⟩ := Option.bind_eq_some_iff.mp h
  cases ht
  simp [rule, lit]

lemma tmp_ne_nil : d.tmp ≠ [] := by simp [Dumper.tmp, lit]

lemma tmp_ne : d.tmp ≠ d.filename_ := by
  intro h
  have := congrArg List.length h
  simp [Dumper.tmp, lit] at this

lemma dump2disk_filename (e : (overwriting n f).dump2disk s c = some s') :
    ∃ text, (overwriting n f).text c = some text ∧ s'.dumped = s.dumped ++ [text] ∧
      s'.files f =
        if f ≠ [] ∧ c.renamed ∧ (left s.files (overwriting n f).tmp text c.write).isSome then
          left s.files (overwriting n f).tmp text c.write
        else s.files f := by
  obtain ⟨text, ht, e⟩ := Option.bind_eq_some_iff.mp e
  refine ⟨text, ht, ?_⟩
  cases e
  refine ⟨rfl, ?_⟩
  have htmp := tmp_ne (d := overwriting n f)
  simp only [writeFile, renameFile, tmp_ne_nil, text_ne_nil ht, false_or, if_false]
  by_cases hf : (overwriting n f).filename_ = []
  · rw [if_pos hf, if_neg fun h => h.1 hf]
    exact write_of_ne s.files _ text htmp.symm false c.write
  · rw [if_neg hf]
    refine (rename_write_dst s.files _ _ text htmp c.write c.renamed).trans ?_
    exact if_congr (and_iff_right hf).symm rfl rfl

/-- A text that the file may come to hold: that of a dump so far, this one included, or what the
file holds already. -/
def Known (d : Dumper) (s : State) (text old : Str) : Prop :=
  old ∈ s.dumped ++ [text] ∨ s.files d.filename_ = some old

/-- No rename succeeds after a write that stopped short, nor after one that was refused where the
other file is there from before. -/
def Followed (d : Dumper) (s : State) (c : Call) : Prop :=
  ∀ text, d.text c = some text → d.filename_ ≠ [] → c.renamed = true →
    match c.write with
    | .wrote k => text.length ≤ k
    | .refused => s.files d.tmp = none

/-- Where one does, what the write left of its text, or what the other file has from before, does
happen to be harmless. -/
def Whole (d : Dumper) (s : State) (c : Call) : Prop :=
  ∀ text, d.text c = some text → d.filename_ ≠ [] → c.renamed = true →
    match c.write with
    | .wrote k => Known d s text (text.take k)
    | .refused => ∀ old ∈ s.files d.tmp, Known d s text old

lemma Followed.whole (h : Followed d s c) : Whole d s c := by
  intro text ht hne hr
  have hok := h text ht hne hr
  cases hw : c.write with
  | refused =>
    intro old hold
    rw [hw] at hok
    rw [hok] at hold
    cases hold
  | wrote k =>
    rw [hw] at hok
    exact Or.inl (by rw [List.take_of_length_le hok]; simp)

/-- If the call changes the file, it then holds the text of a dump. -/
def Intact (d : Dumper) (s : State) (c : Call) : Prop :=
  ∀ s', d.dump2disk s c = some s' → s'.files d.filename_ = s.files d.filename_ ∨
    ∃ text ∈ s'.dumped, s'.files d.filename_ = some text

/-- The file holds what it held at first, or the text of a dump. -/
def Kept (d : Dumper) (files : Contents Str UInt8) (s : State) : Prop :=
  s.files d.filename_ = files d.filename_ ∨ ∃ text ∈ s.dumped, s.files d.filename_ = some text

/-- What is left in the other file, put in terms of the write. -/
lemma whole_iff_left (ht : d.text c = some text) : Whole d s c ↔
    (d.filename_ ≠ [] → c.renamed = true → ∀ old ∈ left s.files d.tmp text c.write,
      Known d s text old) := by
  unfold Whole
  simp only [ht, Option.some.injEq, forall_eq']
  refine imp_congr_right fun _ => imp_congr_right fun _ => ?_
  cases c.write with
  | refused => rfl
  | wrote k => simp [left]

lemma whole_iff_intact : Whole (overwriting n f) s c ↔ Intact (overwriting n f) s c := by
  cases ht : (overwriting n f).text c with
  | none => simp [Whole, Intact, Dumper.dump2disk, ht]
  | some text =>
    obtain ⟨s', e⟩ : ∃ s', (overwriting n f).dump2disk s c = some s' :=
      ⟨_, by rw [Dumper.dump2disk, ht]; rfl⟩
    obtain ⟨text', ht', hd, hf⟩ := dump2disk_filename e
    rw [ht] at ht'
    cases ht'
    have hintact : Intact (overwriting n f) s c ↔ s'.files f = s.files f ∨
        ∃ t ∈ s.dumped ++ [text], s'.files f = some t := by
      simp only [Intact, e, Option.some.injEq, forall_eq', hd]
      rfl
    rw [whole_iff_left ht, hintact]
    split_ifs at hf with hc
    · obtain ⟨hne, hr, hl⟩ := hc
      obtain ⟨old, hold⟩ := Option.isSome_iff_exists.mp hl
      rw [hf, hold]
      constructor
      · intro h
        rcases h hne hr old rfl with hm | hm
        · exact Or.inr ⟨old, hm, rfl⟩
        · exact Or.inl hm.symm
      · rintro h - - old' ho
        cases ho
        rcases h with h | ⟨t, hm, ht⟩
        · exact Or.inr h.symm
        · exact Or.inl (Option.some.inj ht ▸ hm)
    · refine iff_of_true (fun hne hr old hold => absurd ⟨hne, hr, ?_⟩ hc) (Or.inl hf)
      rw [Option.mem_def.mp hold]
      rfl

lemma Kept.step (h : Kept (overwriting n f) files s) (hi : Intact (overwriting n f) s c)
    (e : (overwriting n f).dump2disk s c = some s') : Kept (overwriting n f) files s' := by
  obtain ⟨text, -, hd, -⟩ := dump2disk_filename e
  rcases hi s' e with hi | hi
  · rw [Kept, hi, hd]
    exact h.imp_right fun ⟨t, hm, ht⟩ => ⟨t, List.mem_append_left _ hm, ht⟩
  · exact Or.inr hi

lemma intact_always (h : Runs.Along (overwriting n f).dump2disk (Intact (overwriting n f))
    (init files) calls) :
    Runs.Always (overwriting n f).dump2disk (Kept (overwriting n f) files) (init files) calls :=
  h.always (fun _ _ _ hk hi e => hk.step hi e) (Or.inl rfl)

/-- **The plain pattern of failures.** As long as no rename succeeds after a write that failed,
every change of the file leaves the text of a dump in it, and the file always holds what it held
at first or the text of a dump. -/
theorem atomic_of_followed (h : Runs.Along (overwriting n f).dump2disk
    (Followed (overwriting n f)) (init files) calls) :
    Runs.Along (overwriting n f).dump2disk (Intact (overwriting n f)) (init files) calls ∧
      Runs.Always (overwriting n f).dump2disk (Kept (overwriting n f) files) (init files)
        calls := by
  have hi := h.imp fun _ _ hc => whole_iff_intact.mp (Followed.whole hc)
  exact ⟨hi, intact_always hi⟩

/-- **When the dump is atomic.** In any run of calls, whatever the files are at first and whichever
writes and renames fail, every change of the file leaves the text of a dump in it just when no
rename succeeds after a write that was cut short or refused, coincidences apart; and then the file
always holds what it held at first or the text of a dump. -/
theorem atomic_iff (n : UInt32) (f : Str) (files : Contents Str UInt8) (calls : List Call) :
    (Runs.Along (overwriting n f).dump2disk (Whole (overwriting n f)) (init files) calls ↔
      Runs.Along (overwriting n f).dump2disk (Intact (overwriting n f)) (init files) calls) ∧
    (Runs.Along (overwriting n f).dump2disk (Whole (overwriting n f)) (init files) calls →
      Runs.Always (overwriting n f).dump2disk (Kept (overwriting n f) files) (init files)
        calls) := by
  have hiff : Whole (overwriting n f) = Intact (overwriting n f) :=
    funext fun s => funext fun c => propext whole_iff_intact
  rw [hiff]
  exact ⟨Iff.rfl, intact_always⟩

/-- A dumper of the file `counts`. -/
def dumper : Dumper := overwriting 10 (lit ['c', 'o', 'u', 'n', 't', 's'])

/-- A call without counts, after an hour, whose rename succeeds. -/
def atHour (hour : Char) (w : Write) : Call where
  asctime := lit ['T', 'h', 'u', ' ', 'J', 'a', 'n', ' ', ' ', '1', ' ', '0', hour, ':', '0', '0',
    ':', '0', '0', ' ', '1', '9', '7', '0', '\n']
  tag2count := .empty
  write := w
  renamed := true

/-- A write that is cut short leaves the first few bytes of its text in the file, in place of the
dump that is there. -/
theorem cut_short : ∃ s,
    dumper.run (fun _ => none) [atHour '1' (.wrote 135), atHour '2' (.wrote 5)] = some s ∧
    s.files dumper.filename_ = some (lit ['-', '-', '-', '-', '-']) ∧
    ¬ Runs.Along dumper.dump2disk (Intact dumper) (init fun _ => none)
      [atHour '1' (.wrote 135), atHour '2' (.wrote 5)] := by
  refine ⟨_, rfl, by decide, fun h => ?_⟩
  have hne : ∀ s₁ ∈ dumper.dump2disk (init fun _ => none) (atHour '1' (.wrote 135)),
      ∀ s₂ ∈ dumper.dump2disk s₁ (atHour '2' (.wrote 5)),
        s₂.files dumper.filename_ ≠ s₁.files dumper.filename_ ∧
          ∀ text ∈ s₂.dumped, s₂.files dumper.filename_ ≠ some text := by decide
  obtain ⟨h1, h2⟩ := hne _ rfl _ rfl
  rcases (h.2 _ rfl).1 _ rfl with hs | ⟨text, hm, ht⟩
  · exact h1 hs
  · exact h2 text hm ht

end Libchef.DumpAtomic
