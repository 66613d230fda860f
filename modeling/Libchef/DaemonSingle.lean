import Mathlib.Data.Nat.Digits.Defs
import Libchef.DaemonModel

/-!
Whether a pidfile admits a single daemon.

A process looks at the file first and truncates it later, and another can do the same in
between. Between the truncation and the write the file says nothing to those who look at it.
-/

namespace Libchef.DaemonSingle

open Libchef.RecordLock Libchef.StringsModel Libchef.DaemonModel

variable {s s' : State} {a : Act} {p q n : ℕ} {t : Place} {file : Option Str} {acts : List Act}

/-- At most one live process has returned from `start`, and while there is no call the file
starts with its process id. -/
structure Single (s : State) : Prop where
  one : ∀ p q, s.place p = .returned → s.place q = .returned → p = q
  content : ∀ p, s.place p = .returned → (∀ q, (s.place q).calling = false) →
    ∃ rest, s.file = some (line p ++ rest)

/-- Past the truncation of the file, unless the write has failed. -/
def past : Place → Bool
  | .truncated | .locked | .written true | .returned => true
  | _ => false

/-- Between the truncation of the file and the write. -/
def between : Place → Bool
  | .truncated | .locked => true
  | _ => false

/-- No call looks at the file while another process is between its truncation and its write, or
fails to look at it once another is past the truncation; and none truncates it once another has
done so since the call looked at it. -/
def RaceFree (s : State) : Act → Prop
  | .existRead _ true => ∀ q ∈ s.truncs, between (s.place q) = false
  | .existOpen _ false | .existRead _ false => ∀ q ∈ s.truncs, past (s.place q) = false
  | .writeOpen p true => ∀ q ∈ s.truncs.drop (s.place p).seen, past (s.place q) = false
  | _ => True

instance : DecidableRel RaceFree
  | s, .existRead _ true => inferInstanceAs (Decidable (∀ q ∈ s.truncs, _))
  | s, .existOpen _ false | s, .existRead _ false =>
    inferInstanceAs (Decidable (∀ q ∈ s.truncs, past (s.place q) = false))
  | s, .writeOpen p true =>
    inferInstanceAs (Decidable (∀ q ∈ s.truncs.drop (s.place p).seen, _))
  | _, .existOpen _ true | _, .writeOpen _ false | _, .spawn _ | _, .call _ | _, .existClose _
  | _, .existKill _ | _, .daemon _ _ | _, .writeLock _ _ | _, .writeLine _ _ | _, .writeClose _
  | _, .die _ => inferInstanceAs (Decidable True)

/-! ### Reading a process id back -/

/-- `exist` reads off the file what `write` has written. -/
lemma pidOf_line (hp : p < 2 ^ 31) (rest : Str) :
    pidOf ((line p ++ rest).take 64) = some (p : ℤ) := by
  obtain ⟨hd, -, -⟩ := Decimal.print_spec p
  have hlen : (Decimal.print p).length ≤ 10 := by
    rw [Decimal.print, List.length_map]
    exact Nat.toDigits_length 10 p 10 (by omega) (by omega)
  have htext : ∀ c ∈ Decimal.print p, decide (c ≠ 0 ∧ c ≠ chr '\n') = true := by
    intro c hc
    have hdig := (hd c hc).1
    refine decide_eq_true ⟨?_, ?_⟩ <;> (rintro rfl; revert hdig; decide)
  obtain ⟨r, hr⟩ : ∃ r, (line p ++ rest).take 64 = Decimal.print p ++ chr '\n' :: r := by
    refine ⟨rest.take (63 - (Decimal.print p).length), ?_⟩
    have h64 : 64 = (Decimal.print p).length + (1 + (63 - (Decimal.print p).length)) := by omega
    rw [line, List.append_assoc, h64, List.take_length_add_append, Nat.add_comm 1]
    simp
  have htake (r : Str) : (Decimal.print p ++ chr '\n' :: r).takeWhile
      (fun c => decide (c ≠ 0 ∧ c ≠ chr '\n')) = Decimal.print p := by
    rw [List.takeWhile_append_of_pos htext]
    simp
  have hatoi : Decimal.atoi (Decimal.print p) = p := by
    simpa using Decimal.atoi_print hp (r := []) (by simp)
  simp only [pidOf, hr, List.append_assoc, List.cons_append, htake]
  rw [if_neg (by omega), hatoi]

/-! ### What holds while no race happens -/

/-- What a process has seen of another that was past the truncation when it looked: its process
id, and after the test nothing, since the other was alive. -/
def Knows (p : ℕ) : Place → Prop
  | .read bytes _ | .closed bytes _ => pidOf bytes = some (p : ℤ)
  | .checked _ | .forked _ => False
  | _ => True

structure Inv (s : State) : Prop where
  pid : ∀ p, s.place p ≠ .unborn → 0 < p ∧ p < 2 ^ 31
  listed : ∀ p, past (s.place p) = true → p ∈ s.truncs
  one : ∀ p q, past (s.place p) = true → past (s.place q) = true → p = q
  content : ∀ p, past (s.place p) = true → between (s.place p) = false →
    ∃ rest, s.file = some (line p ++ rest)
  seen : ∀ p, (s.place p).seen ≤ s.truncs.length
  knows : ∀ p q, past (s.place q) = true →
    q ∈ s.truncs.drop (s.place p).seen ∨ Knows q (s.place p)

lemma inv_init (file : Option Str) : Inv (init file) where
  pid _ h := absurd rfl h
  listed _ h := absurd h Bool.false_ne_true
  one _ _ h := absurd h Bool.false_ne_true
  content _ h := absurd h Bool.false_ne_true
  seen _ := Nat.zero_le _
  knows _ _ h := absurd h Bool.false_ne_true

/-- A process goes on without touching the file. -/
structure Goes (s s' : State) (p : ℕ) (t : Place) : Prop where
  place : ∀ q, s'.place q = if q = p then t else s.place q
  file : s'.file = s.file
  truncs : s'.truncs = s.truncs

lemma goes_put : Goes s (s.put p t) p t := ⟨fun _ => State.put_place, rfl, rfl⟩

lemma goes_exit : Goes s (s.exit p) p .dead := ⟨fun _ => State.exit_place, rfl, rfl⟩

/-- **A step that leaves the file alone.** -/
lemma Inv.goes (h : Inv s) (hg : Goes s s' p t) (hp : 0 < p ∧ p < 2 ^ 31)
    (hpast : past t = true → past (s.place p) = true)
    (hbetween : past t = true → between t = false → between (s.place p) = false)
    (hseen : t.seen ≤ s.truncs.length)
    (hknows : ∀ q, past (s.place q) = true → q ∈ s.truncs.drop t.seen ∨ Knows q t) : Inv s' := by
  have hback (q : ℕ) (hq : past (s'.place q) = true) : past (s.place q) = true := by
    rw [hg.place] at hq
    split_ifs at hq with he
    · exact he ▸ hpast hq
    · exact hq
  refine ⟨fun q hq => ?_, fun q hq => hg.truncs ▸ h.listed q (hback q hq),
    fun q r hq hr => h.one q r (hback q hq) (hback r hr), fun q hq hb => ?_, fun q => ?_,
    fun q r hr => ?_⟩
  · rw [hg.place] at hq
    split_ifs at hq with he
    · exact he ▸ hp
    · exact h.pid q hq
  · refine hg.file ▸ h.content q (hback q hq) ?_
    rw [hg.place] at hq hb
    split_ifs at hq hb with he
    · exact he ▸ hbetween hq hb
    · exact hb
  · rw [hg.place, hg.truncs]
    split_ifs
    · exact hseen
    · exact h.seen q
  · rw [hg.place, hg.truncs]
    split_ifs
    · exact hknows r (hback r hr)
    · exact h.knows q r (hback r hr)

lemma Inv.goes_out (h : Inv s) (hg : Goes s s' p t) (hp : 0 < p ∧ p < 2 ^ 31)
    (hpast : past t = false) (hseen : t.seen = 0) (hknows : ∀ q, Knows q t) : Inv s' :=
  h.goes hg hp (by simp [hpast]) (by simp [hpast]) (by omega) fun q _ => Or.inr (hknows q)

lemma Inv.exit (h : Inv s) (hp : s.place p ≠ .unborn) : Inv (s.exit p) :=
  h.goes_out goes_exit (h.pid p hp) rfl rfl fun _ => trivial

/-- **The truncation**, once no other process is past it. -/
lemma Inv.truncate (h : Inv s) (hp : 0 < p ∧ p < 2 ^ 31) (hno : ∀ q, past (s.place q) = false) :
    Inv (s.writeOpen p true) := by
  have hplace (q : ℕ) : (s.writeOpen p true).place q =
      if q = p then .truncated else s.place q := State.put_place
  have hlist : (s.writeOpen p true).truncs = s.truncs ++ [p] := rfl
  have honly (q : ℕ) (hq : past ((s.writeOpen p true).place q) = true) : q = p := by
    rw [hplace] at hq
    split_ifs at hq with he
    · exact he
    · exact absurd hq (by simp [hno q])
  have hseen (q : ℕ) : ((s.writeOpen p true).place q).seen ≤ s.truncs.length := by
    rw [hplace]
    split_ifs
    · exact Nat.zero_le _
    · exact h.seen q
  refine ⟨fun q hq => ?_, fun q hq => ?_, fun q r hq hr => by rw [honly q hq, honly r hr],
    fun q hq hb => ?_, fun q => ?_, fun q r hr => Or.inl ?_⟩
  · rw [hplace] at hq
    split_ifs at hq with he
    · exact he ▸ hp
    · exact h.pid q hq
  · rw [honly q hq, hlist]
    simp
  · rw [honly q hq, hplace, if_pos rfl] at hb
    cases hb
  · rw [hlist, List.length_append]
    exact (hseen q).trans (Nat.le_add_right _ _)
  · rw [honly r hr, hlist, List.drop_append_of_le_length (hseen q)]
    simp

/-- **The write**, whole or in part. -/
lemma Inv.write (h : Inv s) (hp : s.place p = .locked) (hs : s.writeLine p n = some s') :
    Inv s' := by
  unfold State.writeLine at hs
  split_ifs at hs with hn
  cases hs
  have hpast : past (s.place p) = true := by rw [hp]; rfl
  have hplace (q : ℕ) : (s.put p (.written (n = (line p).length))).place q =
      if q = p then .written (n = (line p).length) else s.place q := State.put_place
  have honly (q : ℕ) (hq : past ((s.put p (.written (n = (line p).length))).place q) = true) :
      q = p ∧ n = (line p).length := by
    rw [hplace] at hq
    split_ifs at hq with he
    · refine ⟨he, ?_⟩
      by_contra hne
      simp [hne, past] at hq
    · exact absurd (h.one q p hq hpast) he
  refine ⟨fun q hq => ?_, fun q hq => ?_, fun q r hq hr => by rw [(honly q hq).1, (honly r hr).1],
    fun q hq _ => ?_, fun q => ?_, fun q r hr => ?_⟩
  · rw [hplace] at hq
    split_ifs at hq with he
    · exact he ▸ h.pid p (by rw [hp]; nofun)
    · exact h.pid q hq
  · exact (honly q hq).1 ▸ h.listed p hpast
  · obtain ⟨rfl, rfl⟩ := honly q hq
    exact ⟨_, by rw [List.take_length]⟩
  · rw [hplace]
    split_ifs
    · exact Nat.zero_le _
    · exact h.seen q
  · rw [hplace, (honly r hr).1]
    split_ifs
    · exact Or.inr trivial
    · exact h.knows q p hpast

lemma Inv.checked (h : Inv s) (hp : s.place p ≠ .unborn)
    (hno : ∀ q ∈ s.truncs, past (s.place q) = false) :
    Inv (s.put p (.checked s.truncs.length)) := by
  refine h.goes goes_put (h.pid p hp) (by simp [past]) (by simp [past]) le_rfl fun q hq => ?_
  rw [hno q (h.listed q hq)] at hq
  cases hq

/-- **A look at the file** while no process is between its truncation and its write. -/
lemma Inv.read {f : Str} (h : Inv s) (hp : s.place p ≠ .unborn) (hf : s.file = some f)
    (hno : ∀ q ∈ s.truncs, between (s.place q) = false) :
    Inv (s.put p (.read (f.take 64) s.truncs.length)) := by
  refine h.goes goes_put (h.pid p hp) (by simp [past]) (by simp [past]) le_rfl fun q hq => ?_
  obtain ⟨rest, hrest⟩ := h.content q hq (hno q (h.listed q hq))
  obtain rfl := Option.some.inj (hf.symm.trans hrest)
  have hq' : s.place q ≠ .unborn := fun he => by
    rw [he] at hq
    cases hq
  exact Or.inr (pidOf_line (h.pid q hq').2 rest)

lemma live_of_past (h : past t = true) : t.live = true := by
  cases t <;> first | rfl | cases h

/-- **The test**: a process that was past the truncation at the look, and still is, is found. -/
lemma Inv.kill {bytes : Str} (h : Inv s) (hp : s.place p = .closed bytes n)
    (hs : s.existKill p bytes n = some s') : Inv s' := by
  have hne : s.place p ≠ .unborn := by rw [hp]; nofun
  obtain ⟨pid, hpid, rfl⟩ := Option.map_eq_some_iff.mp hs
  split_ifs with hc
  · have hseen := h.seen p
    rw [hp] at hseen
    refine h.goes goes_put (h.pid p hne) (by simp [past]) (by simp [past]) hseen fun q hq => ?_
    have hknows := h.knows p q hq
    rw [hp] at hknows
    rcases hknows with hq' | hk
    · exact Or.inl hq'
    · obtain rfl : pid = q := Option.some.inj (hpid.symm.trans hk)
      have hlive := live_of_past hq
      have hpos := (h.pid q (fun he => by rw [he] at hq; cases hq)).1
      rcases hc with hc | hc
      · omega
      · rw [Int.toNat_natCast, hlive] at hc
        cases hc
  · exact h.exit hne

/-- The child goes on with what its parent has seen. -/
lemma Inv.daemon {child : Option ℕ} (h : Inv s) (hp : s.place p = .checked n)
    (hs : s.daemon p n child = some s') : Inv s' := by
  have hne : s.place p ≠ .unborn := by rw [hp]; nofun
  cases child with
  | none =>
    cases hs
    exact h.exit hne
  | some c =>
    simp only [State.daemon] at hs
    split_ifs at hs with hf
    cases hs
    have hseen := h.seen p
    rw [hp] at hseen
    have hchild : Inv (s.put c (.forked n)) := by
      refine h.goes goes_put ⟨hf.1, hf.2.1⟩ (by simp [past]) (by simp [past]) hseen fun q hq => ?_
      have hknows := h.knows p q hq
      rwa [hp] at hknows
    refine hchild.exit ?_
    rw [State.put_place]
    split_ifs
    · nofun
    · exact hne

/-- A call that has seen no other process truncates the file, as long as no other has done so
since. -/
lemma Inv.open (h : Inv s) (hp : s.place p = .forked n)
    (hno : ∀ q ∈ s.truncs.drop (s.place p).seen, past (s.place q) = false) :
    Inv (s.writeOpen p true) := by
  refine h.truncate (h.pid p (by rw [hp]; nofun)) fun q => Bool.eq_false_iff.mpr fun hq => ?_
  rcases h.knows p q hq with hq' | hk
  · rw [hno q hq'] at hq
    cases hq
  · rw [hp] at hk
    exact hk

/-- **Every step that is free of races keeps the invariant.** -/
theorem Inv.step (h : Inv s) (hok : RaceFree s a) (hs : DaemonModel.step s a = some s') :
    Inv s' := by
  cases a with
  | spawn p =>
    simp only [DaemonModel.step] at hs
    split_ifs at hs with hf
    cases hs
    exact h.goes_out goes_put ⟨hf.1, hf.2.1⟩ rfl rfl fun _ => trivial
  | call p =>
    simp only [DaemonModel.step] at hs
    split_ifs at hs with hp
    cases hs
    exact h.goes_out goes_put (h.pid p (by rw [hp]; nofun)) rfl rfl fun _ => trivial
  | existOpen p ok =>
    simp only [DaemonModel.step] at hs
    split_ifs at hs with hp
    have hne : s.place p ≠ .unborn := by rw [hp]; nofun
    cases ok with
    | false =>
      cases hs
      exact h.checked hne hok
    | true =>
      simp only [State.existOpen, if_true] at hs
      split_ifs at hs
      cases hs
      exact h.goes_out goes_put (h.pid p hne) rfl rfl fun _ => trivial
  | existRead p ok =>
    simp only [DaemonModel.step] at hs
    split_ifs at hs with hp
    have hne : s.place p ≠ .unborn := by rw [hp]; nofun
    cases ok with
    | false =>
      cases hs
      exact h.checked hne hok
    | true =>
      obtain ⟨f, hf, rfl⟩ := Option.map_eq_some_iff.mp hs
      exact h.read hne hf hok
  | existClose p =>
    simp only [DaemonModel.step] at hs
    split at hs
    case h_1 bytes n hp =>
      cases hs
      have hseen := h.seen p
      rw [hp] at hseen
      refine h.goes goes_put (h.pid p (by rw [hp]; nofun)) (by simp [past]) (by simp [past])
        hseen fun q hq => ?_
      have hknows := h.knows p q hq
      rwa [hp] at hknows
    case h_2 => cases hs
  | existKill p =>
    simp only [DaemonModel.step] at hs
    split at hs
    case h_1 bytes n hp => exact h.kill hp hs
    case h_2 => cases hs
  | daemon p child =>
    simp only [DaemonModel.step] at hs
    split at hs
    case h_1 n hp => exact h.daemon hp hs
    case h_2 => cases hs
  | writeOpen p ok =>
    simp only [DaemonModel.step] at hs
    split at hs
    case h_1 n hp =>
      cases hs
      cases ok with
      | false => exact h.exit (by rw [hp]; nofun)
      | true => exact h.open hp hok
    case h_2 => cases hs
  | writeLock p ok =>
    simp only [DaemonModel.step] at hs
    split_ifs at hs with hp
    have hne : s.place p ≠ .unborn := by rw [hp]; nofun
    cases ok with
    | false =>
      cases hs
      exact h.exit hne
    | true =>
      obtain ⟨l, -, rfl⟩ := Option.map_eq_some_iff.mp hs
      exact h.goes (t := .locked) ⟨fun _ => State.put_place, rfl, rfl⟩ (h.pid p hne)
        (by rw [hp]; simp [past]) (by simp [between]) (Nat.zero_le _) fun _ _ => Or.inr trivial
  | writeLine p n =>
    simp only [DaemonModel.step] at hs
    split_ifs at hs with hp
    exact h.write hp hs
  | writeClose p =>
    simp only [DaemonModel.step] at hs
    split at hs
    case h_1 complete hp =>
      cases hs
      have hne : s.place p ≠ .unborn := by rw [hp]; nofun
      cases complete with
      | false => exact h.exit hne
      | true =>
        exact h.goes (t := .returned) ⟨fun _ => State.put_place, rfl, rfl⟩ (h.pid p hne)
          (by rw [hp]; simp [past]) (by rw [hp]; simp [between]) (Nat.zero_le _)
          fun _ _ => Or.inr trivial
    case h_2 => cases hs
  | die p =>
    simp only [DaemonModel.step] at hs
    split_ifs at hs with hp
    cases hs
    exact h.exit fun he => by
      rw [he] at hp
      cases hp

lemma Inv.single (h : Inv s) : Single s where
  one p q hp hq := h.one p q (by rw [hp]; rfl) (by rw [hq]; rfl)
  content p hp _ := h.content p (by rw [hp]; rfl) (by rw [hp]; rfl)

/-- **When a pidfile admits a single daemon.** In a run that is free of races at most one live
process has returned from `start`, and the file has its process id. -/
theorem single_of_raceFree (h : run file acts = some s)
    (hok : Runs.Along step RaceFree (init file) acts) : Single s :=
  (Runs.exec_invariant (fun _ _ _ hi hok hs => hi.step hok hs) (inv_init file) hok h).single

/-- The steps of a call that finds no file, up to its `write`. -/
def unnoticed (p child : ℕ) : List Act :=
  [.spawn p, .call p, .existOpen p false, .daemon p (some child)]

/-- The steps of `write`. -/
def write (p : ℕ) : List Act :=
  [.writeOpen p true, .writeLock p true, .writeLine p (line p).length, .writeClose p]

/-- A call while the daemon is there. -/
theorem single_of_raceFree_second :
    ∃ s, run none (unnoticed 1 11 ++ write 11 ++ [.spawn 2, .call 2, .existOpen 2 true,
      .existRead 2 true, .existClose 2, .existKill 2]) = some s ∧ s.place 2 = .dead ∧ Single s :=
  ⟨_, rfl, by decide, single_of_raceFree (show run none (unnoticed 1 11 ++ write 11 ++ [.spawn 2,
    .call 2, .existOpen 2 true, .existRead 2 true, .existClose 2, .existKill 2]) = some _ from rfl)
    (by decide)⟩

/-- Two calls that look before either of them writes. -/
theorem not_single :
    ∃ s, run none (unnoticed 1 11 ++ unnoticed 2 12 ++ write 11 ++ write 12) = some s ∧
      s.place 11 = .returned ∧ s.place 12 = .returned ∧ ¬ Single s :=
  ⟨_, rfl, rfl, rfl, fun h => absurd (h.one 11 12 rfl rfl) (by decide)⟩

/-- A call that looks between the truncation and the write of another. -/
example : ∃ s, run none (unnoticed 1 11 ++ [.writeOpen 11 true, .spawn 2, .call 2,
    .existOpen 2 true, .existRead 2 true, .existClose 2, .existKill 2, .daemon 2 (some 12)] ++
    (write 11).tail ++ write 12) = some s ∧
      s.place 11 = .returned ∧ s.place 12 = .returned :=
  ⟨_, rfl, rfl, rfl⟩

end Libchef.DaemonSingle
