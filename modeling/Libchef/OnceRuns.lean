import Libchef.OnceModel

/-!
The function runs once, and a function that throws is the last one.

What has been started and has returned can be read off the place of the thread that owns the
mutex. An exception leaves the mutex with a thread that has gone, so nobody starts a function
any more.
-/

namespace Libchef.OnceRuns

open Libchef.Sync Libchef.OnceModel

variable {s s' : State} {a : Act} {i : ℕ} {t u : Thread}

/-- The functions return. -/
def Returns : Act → Prop
  | .throw _ => False
  | _ => True

instance : DecidablePred Returns
  | .throw _ => .isFalse id
  | .run | .piece _ => .isTrue trivial

/-- The flag and the counts, where the owner of the mutex is at that place. -/
def Local (s : State) : Option Thread → Prop
  | none | some .test => s.begun = s.done_.toNat ∧ s.finished = s.done_.toNat
  | some .call => s.done_ = false ∧ s.begun = 0 ∧ s.finished = 0
  | some .body => s.done_ = false ∧ s.begun = 1 ∧ s.finished = 0
  | some .store => s.done_ = false ∧ s.begun = 1 ∧ s.finished = 1
  | some .unlock => s.done_ = true ∧ s.begun = 1 ∧ s.finished = 1
  | some _ => False

structure Inv (s : State) : Prop where
  owned : Monitor.Owned s.m_
  here : Local s s.m_.here
  returned : .returned ∈ s.m_.threads → s.done_ = true
  thrown : .thrown ∉ s.m_.threads

lemma inv_init : Inv init := ⟨⟨nofun, nofun⟩, ⟨rfl, rfl⟩, nofun, nofun⟩

lemma Inv.turn (h : Inv s) (hm : s'.m_.threads = s.m_.threads.set i u)
    (ho : Monitor.Owned s'.m_) (hl : Local s' s'.m_.here)
    (hd : s.done_ = true → s'.done_ = true) (hr : u = .returned → s'.done_ = true)
    (ht : u ≠ .thrown) : Inv s' := by
  refine ⟨ho, hl, fun hmem => ?_, fun hmem => ?_⟩
  · rw [hm] at hmem
    rcases List.mem_or_eq_of_mem_set hmem with hmem | rfl
    · exact hd (h.returned hmem)
    · exact hr rfl
  · rw [hm] at hmem
    rcases List.mem_or_eq_of_mem_set hmem with hmem | hmem
    · exact h.thrown hmem
    · exact ht hmem.symm

lemma Inv.inside (h : Inv s) (ht : s.m_.threads[i]? = some t) (hp : Place.holds t = true)
    (hu : Place.holds u = true) (hm : s'.m_ = s.m_.put i u) (hl : Local s' (some u))
    (hd : s.done_ = true → s'.done_ = true) : Inv s' := by
  refine h.turn (u := u) (by rw [hm]; rfl) ?_ ?_ hd ?_ ?_
  · rw [hm]
    exact h.owned.put ht (hu.trans hp.symm)
  · rwa [hm, h.owned.here_put_self ht hp]
  · rintro rfl
    cases hu
  · rintro rfl
    cases hu

/-- **Every step of functions that return keeps the invariant.** -/
theorem Inv.step (h : Inv s) (ha : Returns a) (e : OnceModel.step s a = some s') : Inv s' := by
  cases a with
  | throw i => exact ha.elim
  | run =>
    cases e
    refine ⟨h.owned.spawn rfl, ?_, fun hr => ?_, fun hr => ?_⟩
    · rw [h.owned.here_spawn]
      exact h.here
    · rcases List.mem_append.mp hr with hr | hr
      · exact h.returned hr
      · cases List.mem_singleton.mp hr
    · rcases List.mem_append.mp hr with hr | hr
      · exact h.thrown hr
      · cases List.mem_singleton.mp hr
  | piece i =>
    obtain ⟨t, ht, e⟩ := Option.bind_eq_some_iff.mp e
    have hl (hp : Place.holds t = true) : Local s (some t) :=
      h.owned.here_of_holds ht hp ▸ h.here
    cases t with
    | load =>
      cases e
      have hu : Place.holds (if s.done_ then Thread.returned else .lock) = false := by
        split_ifs <;> rfl
      refine h.turn rfl (h.owned.put ht hu) ?_ id (fun hr => ?_) ?_
      · rw [State.put, h.owned.here_put ht rfl]
        exact h.here
      · by_contra hd
        have hd : s.done_ ≠ true := hd
        rw [if_neg hd] at hr
        cases hr
      · split_ifs <;> simp
    | lock =>
      obtain ⟨m, hm, rfl⟩ := Option.map_eq_some_iff.mp e
      obtain ⟨hfree, hhere⟩ := Monitor.here_acquire ht hm
      have hlocal : Local s none := hfree ▸ h.here
      have howned := h.owned.acquire ht rfl hm
      obtain ⟨-, rfl⟩ := Monitor.acquire_some hm
      exact h.turn (u := .test) rfl howned (hhere ▸ hlocal) id nofun nofun
    | test =>
      cases e
      obtain ⟨hb, hf⟩ := hl rfl
      cases hd : s.done_ with
      | true =>
        rw [hd] at hb hf
        exact h.inside (u := .unlock) ht rfl rfl rfl ⟨hd, hb, hf⟩ id
      | false =>
        rw [hd] at hb hf
        exact h.inside (u := .call) ht rfl rfl rfl ⟨hd, hb, hf⟩ id
    | call =>
      cases e
      obtain ⟨hd, hb, hf⟩ := hl rfl
      exact h.inside ht rfl rfl rfl ⟨hd, congrArg (· + 1) hb, hf⟩ id
    | body =>
      cases e
      obtain ⟨hd, hb, hf⟩ := hl rfl
      exact h.inside ht rfl rfl rfl ⟨hd, hb, congrArg (· + 1) hf⟩ id
    | store =>
      cases e
      obtain ⟨hd, hb, hf⟩ := hl rfl
      exact h.inside ht rfl rfl rfl ⟨rfl, hb, hf⟩ fun _ => rfl
    | unlock =>
      cases e
      obtain ⟨hd, hb, hf⟩ := hl rfl
      refine h.turn (u := .returned) rfl (h.owned.release ht rfl rfl) ?_ id (fun _ => hd) nofun
      rw [Monitor.here_release]
      have hone : s.done_.toNat = 1 := by rw [hd, Bool.toNat_true]
      exact ⟨hb.trans hone.symm, hf.trans hone.symm⟩
    | returned | thrown => cases e

/-! ### Once -/

lemma begun_le (h : Inv s) : s.finished ≤ s.begun ∧ s.begun ≤ 1 := by
  have hl := h.here
  have hd : s.done_.toNat ≤ 1 := Bool.toNat_le _
  unfold Local at hl
  split at hl <;> first | exact hl.elim | omega

lemma once_of_done (h : Inv s) (hd : s.done_ = true) : s.begun = 1 ∧ s.finished = 1 := by
  have hl := h.here
  unfold Local at hl
  split at hl <;> simp_all

/-- **Once.** For any calls whose functions return, whatever the order of their steps, no second
function is started; and when one of the calls has returned, one has been, and has returned. -/
theorem runs_once {acts : List Act} (ha : ∀ a ∈ acts, Returns a) (e : run acts = some s) :
    s.begun ≤ 1 ∧ s.finished ≤ s.begun ∧
      (.returned ∈ s.m_.threads → s.begun = 1 ∧ s.finished = 1) := by
  have h : Inv s := Runs.exec_invariant (fun _ _ _ h ha e => h.step ha e) inv_init
    (Runs.along_of_forall ha) e
  exact ⟨(begun_le h).2, (begun_le h).1, fun hr => once_of_done h (h.returned hr)⟩

/-- Two calls, of which the second one waits for the first one's function. -/
def twoCalls : List Act :=
  [.run, .run] ++ [0, 1, 0, 0, 0, 0, 0, 0, 1, 1, 1].map .piece

theorem runs_once_two : ∃ s, run twoCalls = some s ∧ s.m_.threads = [.returned, .returned] ∧
    s.begun ≤ 1 ∧ s.finished ≤ s.begun ∧
      (.returned ∈ s.m_.threads → s.begun = 1 ∧ s.finished = 1) :=
  ⟨_, rfl, rfl, runs_once (show ∀ a ∈ twoCalls, Returns a by decide) rfl⟩

/-! ### Exceptions -/

/-- A place inside `run`. -/
def Inside (t : Thread) : Prop := t ≠ .returned ∧ t ≠ .thrown

/-- Only a call inside `run` owns the mutex, and where none is inside and no function has
returned, a later call can start its function. -/
structure Survives (s : State) : Prop where
  owner : ∀ i, s.m_.owner = some i → ∃ t, s.m_.threads[i]? = some t ∧ Inside t
  later : s.done_ = false → (∀ t ∈ s.m_.threads, ¬ Inside t) →
    ∃ acts s', Runs.exec OnceModel.step s (.run :: acts) = some s' ∧ s'.begun = s.begun + 1

lemma later_begins (hd : s.done_ = false) (hfree : s.m_.owner = none) :
    ∃ acts s', Runs.exec OnceModel.step s (.run :: acts) = some s' ∧ s'.begun = s.begun + 1 := by
  let i := s.m_.threads.length
  refine ⟨[.piece i, .piece i, .piece i, .piece i],
    ⟨⟨some i, s.m_.threads ++ [.body]⟩, s.done_, s.begun + 1, s.finished⟩, ?_, rfl⟩
  simp [Runs.exec, OnceModel.step, State.piece, State.put, Monitor.spawn, Monitor.put,
    Monitor.acquire, hd, hfree, i]

lemma survives_of_owner (h : ∀ i, s.m_.owner = some i → ∃ t, s.m_.threads[i]? = some t ∧ Inside t) :
    Survives s := by
  refine ⟨h, fun hd hno => later_begins hd ?_⟩
  cases ho : s.m_.owner with
  | none => rfl
  | some i =>
    obtain ⟨t, ht, hin⟩ := h i ho
    exact absurd hin (hno t (List.mem_of_getElem? ht))

lemma Inv.survives (h : Inv s) : Survives s := by
  refine survives_of_owner fun i ho => ?_
  have hlt := h.owned.lt_length i ho
  have ht := List.getElem?_eq_getElem hlt
  have hp := (h.owned.holds_iff i _ ht).mpr ho
  refine ⟨_, ht, fun hr => ?_, fun hr => ?_⟩ <;>
  · rw [hr] at hp
    cases hp

/-- **When the calls survive.** In every state of a run only a call inside `run` owns the mutex,
and a later call can start its function, if and only if no function has thrown. -/
theorem survives_iff {acts : List Act} (e : run acts = some s) :
    Runs.Along OnceModel.step (fun _ a => Returns a) init acts ↔
      Runs.Always OnceModel.step Survives init acts := by
  refine Runs.along_iff_always_of_exec (I := Inv) (fun _ => Inv.survives) (fun s a s' h e => ?_)
    inv_init e
  have hreturns (ha : Returns a) : (Returns a ↔ Survives s') ∧ (Returns a → Inv s') :=
    ⟨iff_of_true ha (h.step ha e).survives, fun _ => h.step ha e⟩
  cases a with
  | run | piece i => exact hreturns trivial
  | throw i =>
    refine ⟨iff_of_false id fun hs => ?_, fun ha => ha.elim⟩
    simp only [OnceModel.step] at e
    split_ifs at e with ht
    cases e
    obtain ⟨t, ht', hin⟩ := hs.owner i ((h.owned.holds_iff i _ ht).mp rfl)
    obtain ⟨hlt, -⟩ := List.getElem?_eq_some_iff.mp ht
    rw [State.put, Monitor.put, List.getElem?_set_self hlt] at ht'
    exact hin.2 (Option.some.inj ht').symm

theorem survives_iff_two : ∃ s, run twoCalls = some s ∧ s.done_ = true ∧
    (Runs.Along OnceModel.step (fun _ a => Returns a) init twoCalls ↔
      Runs.Always OnceModel.step Survives init twoCalls) :=
  ⟨_, rfl, rfl, survives_iff (show run twoCalls = some _ from rfl)⟩

/-! ### What an exception leaves behind -/

/-- The mutex is with a thread that does not go on. -/
structure Stuck (s : State) : Prop where
  owner : s.m_.owner ≠ none
  gone : ∀ t ∈ s.m_.threads, Place.holds t = false

lemma Stuck.step (h : Stuck s) (e : OnceModel.step s a = some s') :
    Stuck s' ∧ s'.begun = s.begun := by
  cases a with
  | run =>
    cases e
    refine ⟨⟨h.owner, fun t ht => ?_⟩, rfl⟩
    rcases List.mem_append.mp ht with ht | ht
    · exact h.gone t ht
    · rw [List.mem_singleton.mp ht]
      rfl
  | throw i =>
    simp only [OnceModel.step] at e
    split_ifs at e with ht
    cases h.gone _ (List.mem_of_getElem? ht)
  | piece i =>
    obtain ⟨t, ht, e⟩ := Option.bind_eq_some_iff.mp e
    have hp := h.gone t (List.mem_of_getElem? ht)
    cases t with
    | load =>
      cases e
      refine ⟨⟨h.owner, fun t ht => ?_⟩, rfl⟩
      rcases List.mem_or_eq_of_mem_set ht with ht | rfl
      · exact h.gone t ht
      · split_ifs <;> rfl
    | lock =>
      obtain ⟨m, hm, -⟩ := Option.map_eq_some_iff.mp e
      exact absurd (Monitor.acquire_some hm).1 h.owner
    | test | call | body | store | unlock => cases hp
    | returned | thrown => cases e

/-- A call whose function throws: the mutex is not free, although nobody is inside `run`, and no
function is ever started again. -/
theorem not_survives : ∃ s, run ([.run] ++ List.replicate 4 (.piece 0) ++ [.throw 0]) = some s ∧
    s.done_ = false ∧ s.m_.threads = [.thrown] ∧ ¬ Survives s ∧
    ∀ acts s', Runs.exec OnceModel.step s acts = some s' → s'.begun = s.begun := by
  refine ⟨_, rfl, rfl, rfl, fun hs => ?_, fun acts s' e => ?_⟩
  · obtain ⟨t, ht, hin⟩ := hs.owner 0 rfl
    exact hin.2 (Option.some.inj ht).symm
  · refine (Runs.exec_invariant' (P := fun s => Stuck s ∧ s.begun = 1) ?_ ?_ e).2
    · intro s a s' h e
      exact ⟨(h.1.step e).1, (h.1.step e).2.trans h.2⟩
    · exact ⟨⟨nofun, by decide⟩, rfl⟩

end Libchef.OnceRuns
