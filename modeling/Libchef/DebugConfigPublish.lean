import Libchef.DebugConfigModel

/-!
The configuration is created once, and can be seen before it is filled.

The pointer is set before the fields are, and the first test of it is made without the mutex.
What the object is like can be read off the place of the thread that owns the mutex.
-/

namespace Libchef.DebugConfigPublish

open Libchef.Sync Libchef.DebugConfigModel

variable {s s' : State} {a : Act} {i k : ℕ} {t u : Thread}

/-- The object after the first `k` assignments. -/
def filled (k : ℕ) : Config := (stores.take k).foldl (fun dmc f => f dmc) blank

lemma filled_succ (hk : k < stores.length) : filled (k + 1) = stores[k] (filled k) := by
  rw [filled, List.take_add_one, List.foldl_append, List.getElem?_eq_getElem hk]
  rfl

lemma filled_length : filled stores.length = defaults := rfl

lemma filled_ne (hk : k < stores.length) : filled k ≠ defaults := by
  have hall : ∀ k < stores.length, filled k ≠ defaults := by decide
  exact hall k hk

/-- The thread is assigning to the fields. -/
def storing : Thread → Bool
  | .store _ => true
  | _ => false

/-- Some thread is assigning to the fields. -/
def Filling (s : State) : Prop := ∃ t ∈ s.mu.threads, storing t = true

instance : DecidablePred Filling := fun _ => inferInstanceAs (Decidable (∃ _ ∈ _, _))

/-- A call does not make its first test while the fields are assigned to. -/
def NotEarly (s : State) : Act → Prop
  | .piece i => s.mu.threads[i]? = some .test → ¬ Filling s
  | .call => True

instance : DecidableRel NotEarly
  | _, .piece _ => inferInstanceAs (Decidable (_ → _))
  | _, .call => .isTrue trivial

/-- What has been returned or used had its default values. -/
def Published (s : State) : Prop := ∀ c ∈ s.seen, c = defaults

/-- The pointer and the object, where the owner of the mutex is at that place. -/
def Local (s : State) : Option Thread → Prop
  | none | some .retest => s.dmc = none ∧ s.objects = [] ∨ s.dmc = some 0 ∧ s.objects = [defaults]
  | some .alloc => s.dmc = none ∧ s.objects = []
  | some (.store k) => k < stores.length ∧ s.dmc = some 0 ∧ s.objects = [filled k]
  | some .again | some .unlock => s.dmc = some 0 ∧ s.objects = [defaults]
  | some _ => False

structure Inv (s : State) : Prop where
  owned : Monitor.Owned s.mu
  here : Local s s.mu.here
  created : s.seen ≠ [] → s.objects.length = 1

lemma inv_init : Inv init := ⟨⟨nofun, nofun⟩, Or.inl ⟨rfl, rfl⟩, fun h => absurd rfl h⟩

lemma use_eq {c : Config} (hd : s.dmc = some 0) (ho : s.objects = [c]) :
    s.use = some { s with seen := s.seen ++ [c] } := by
  simp [State.use, State.deref, hd, ho]

lemma Inv.filling_iff (h : Inv s) : Filling s ↔ ∃ k, s.mu.here = some (.store k) := by
  constructor
  · rintro ⟨t, ht, hs⟩
    obtain ⟨i, hi⟩ := List.mem_iff_getElem?.mp ht
    cases t with
    | store k => exact ⟨k, h.owned.here_of_holds hi rfl⟩
    | _ => cases hs
  · rintro ⟨k, hk⟩
    obtain ⟨i, -, hi⟩ := Option.bind_eq_some_iff.mp hk
    exact ⟨_, List.mem_of_getElem? hi, rfl⟩

/-- What the pointer leads to once it is set. -/
lemma Inv.object (h : Inv s) (hd : s.dmc ≠ none) :
    s.dmc = some 0 ∧ ∃ c, s.objects = [c] ∧ (c = defaults ↔ ¬ Filling s) := by
  have hl := h.here
  have hnot {o : Option Thread} (ho : s.mu.here = o) (hne : ∀ k, o ≠ some (.store k)) :
      ¬ Filling s := fun hf => by
    obtain ⟨k, hk⟩ := h.filling_iff.mp hf
    exact hne k (ho.symm.trans hk)
  unfold Local at hl
  split at hl
  · next ho =>
    obtain ⟨hd', ho'⟩ := hl.resolve_left fun hl => hd hl.1
    exact ⟨hd', _, ho', iff_of_true rfl (hnot ho nofun)⟩
  · next ho =>
    obtain ⟨hd', ho'⟩ := hl.resolve_left fun hl => hd hl.1
    exact ⟨hd', _, ho', iff_of_true rfl (hnot ho nofun)⟩
  · exact absurd hl.1 hd
  · next k ho =>
    exact ⟨hl.2.1, _, hl.2.2, iff_of_false (filled_ne hl.1)
      (not_not_intro (h.filling_iff.mpr ⟨k, ho⟩))⟩
  · next ho => exact ⟨hl.1, _, hl.2, iff_of_true rfl (hnot ho nofun)⟩
  · next ho => exact ⟨hl.1, _, hl.2, iff_of_true rfl (hnot ho nofun)⟩
  · exact hl.elim

lemma Inv.test_cases (h : Inv s) (e : s.piece i .test = some s') :
    s' = s.put i .lock ∧ ¬ Filling s ∨ ∃ c, s.objects = [c] ∧ (c = defaults ↔ ¬ Filling s) ∧
      s' = { s with seen := s.seen ++ [c] }.put i .returned := by
  simp only [State.piece] at e
  split_ifs at e with hd
  · refine Or.inl ⟨(Option.some.inj e).symm, fun hf => ?_⟩
    obtain ⟨k, hk⟩ := h.filling_iff.mp hf
    have hl : Local s (some (.store k)) := hk ▸ h.here
    cases hd.symm.trans hl.2.1
  · obtain ⟨hd', c, ho, hc⟩ := h.object hd
    rw [use_eq hd' ho] at e
    exact Or.inr ⟨c, ho, hc, (Option.some.inj e).symm⟩

lemma Inv.inside (h : Inv s) (ht : s.mu.threads[i]? = some t) (hp : Place.holds t = true)
    (hu : Place.holds u = true) (hm : s'.mu = s.mu.put i u) (hl : Local s' (some u))
    (hc : s'.seen ≠ [] → s'.objects.length = 1) : Inv s' := by
  refine ⟨?_, ?_, hc⟩
  · rw [hm]
    exact h.owned.put ht (hu.trans hp.symm)
  · rwa [hm, h.owned.here_put_self ht hp]

lemma Inv.outside (h : Inv s) (ht : s.mu.threads[i]? = some t) (hp : Place.holds t = false)
    (hu : Place.holds u = false) (hm : s'.mu = s.mu.put i u) (hl : Local s' s.mu.here)
    (hc : s'.seen ≠ [] → s'.objects.length = 1) : Inv s' := by
  refine ⟨?_, ?_, hc⟩
  · rw [hm]
    exact h.owned.put ht (hu.trans hp.symm)
  · rwa [hm, h.owned.here_put ht hp]

/-- **Every step keeps the invariant.** -/
theorem Inv.step (h : Inv s) (e : DebugConfigModel.step s a = some s') : Inv s' := by
  cases a with
  | call =>
    cases e
    refine ⟨h.owned.spawn rfl, ?_, h.created⟩
    rw [h.owned.here_spawn]
    exact h.here
  | piece i =>
    obtain ⟨t, ht, e⟩ := Option.bind_eq_some_iff.mp e
    have hl (hp : Place.holds t = true) : Local s (some t) :=
      h.owned.here_of_holds ht hp ▸ h.here
    cases t with
    | test =>
      rcases h.test_cases e with ⟨rfl, -⟩ | ⟨c, ho, -, rfl⟩
      · exact h.outside (u := .lock) ht rfl rfl rfl h.here h.created
      · refine h.outside (u := .returned) ht rfl rfl rfl h.here fun _ => ?_
        show s.objects.length = 1
        rw [ho, List.length_singleton]
    | lock =>
      obtain ⟨m, hm, rfl⟩ := Option.map_eq_some_iff.mp e
      obtain ⟨hfree, hhere⟩ := Monitor.here_acquire ht hm
      have hlocal : Local s none := hfree ▸ h.here
      exact ⟨h.owned.acquire ht rfl hm, hhere ▸ hlocal, h.created⟩
    | retest =>
      cases e
      rcases hl rfl with ⟨hd, ho⟩ | ⟨hd, ho⟩
      · refine h.inside (u := .alloc) ht rfl rfl ?_ ⟨hd, ho⟩ h.created
        rw [hd]
        rfl
      · refine h.inside (u := .again) ht rfl rfl ?_ ⟨hd, ho⟩ h.created
        rw [hd]
        rfl
    | alloc =>
      cases e
      obtain ⟨hd, ho⟩ := hl rfl
      have hnew : s.objects ++ [blank] = [filled 0] := by rw [ho]; rfl
      refine h.inside (u := .store 0) ht rfl rfl rfl ⟨by decide, ?_, hnew⟩ fun _ => ?_
      · show some s.objects.length = some 0
        rw [ho, List.length_nil]
      · show (s.objects ++ [blank]).length = 1
        rw [hnew, List.length_singleton]
    | store k =>
      obtain ⟨hk, hd, ho⟩ := hl rfl
      simp only [State.piece, List.getElem?_eq_getElem hk, State.assign, hd] at e
      cases e
      have hnew : s.objects.modify 0 stores[k] = [filled (k + 1)] := by
        rw [ho, filled_succ hk]
        rfl
      have hone : (s.objects.modify 0 stores[k]).length = 1 := by rw [hnew, List.length_singleton]
      by_cases hlast : k + 1 < stores.length
      · exact h.inside (u := .store (k + 1)) ht rfl rfl (by rw [if_pos hlast]; rfl)
          ⟨hlast, rfl, hnew⟩ fun _ => hone
      · have hall : k + 1 = stores.length := by omega
        rw [hall, filled_length] at hnew
        exact h.inside (u := .again) ht rfl rfl (by rw [if_neg hlast]; rfl) ⟨rfl, hnew⟩
          fun _ => hone
    | again =>
      obtain ⟨hd, ho⟩ := hl rfl
      simp only [State.piece, use_eq hd ho, hd, reduceCtorEq, if_false] at e
      cases e
      refine h.inside (u := .unlock) ht rfl rfl rfl ⟨rfl, ho⟩ fun _ => ?_
      show s.objects.length = 1
      rw [ho, List.length_singleton]
    | unlock =>
      obtain ⟨hd, ho⟩ := hl rfl
      simp only [State.piece, use_eq hd ho] at e
      cases e
      refine ⟨h.owned.release ht rfl rfl, ?_, fun _ => ?_⟩
      · rw [Monitor.here_release]
        exact Or.inr ⟨hd, ho⟩
      · show s.objects.length = 1
        rw [ho, List.length_singleton]
    | relock | returned => cases e

lemma Inv.length_le (h : Inv s) : s.objects.length ≤ 1 := by
  have hl := h.here
  unfold Local at hl
  split at hl
  · rcases hl with ⟨-, ho⟩ | ⟨-, ho⟩ <;> rw [ho] <;> decide
  · rcases hl with ⟨-, ho⟩ | ⟨-, ho⟩ <;> rw [ho] <;> decide
  · rw [hl.2]
    decide
  · rw [hl.2.2, List.length_singleton]
  · rw [hl.2, List.length_singleton]
  · rw [hl.2, List.length_singleton]
  · exact hl.elim

/-- What a step shows to a call: nothing, or the object, which has its default values unless
the call tests the pointer early. -/
lemma Inv.step_seen (h : Inv s) (e : DebugConfigModel.step s a = some s') :
    s'.seen = s.seen ∧ NotEarly s a ∨
      ∃ c, s'.seen = s.seen ++ [c] ∧ (NotEarly s a ↔ c = defaults) := by
  cases a with
  | call =>
    cases e
    exact Or.inl ⟨rfl, trivial⟩
  | piece i =>
    obtain ⟨t, ht, e⟩ := Option.bind_eq_some_iff.mp e
    have hl (hp : Place.holds t = true) : Local s (some t) :=
      h.owned.here_of_holds ht hp ▸ h.here
    have hok (hne : t ≠ .test) : NotEarly s (.piece i) := fun ht' =>
      absurd (Option.some.inj (ht.symm.trans ht')) hne
    cases t with
    | test =>
      rcases h.test_cases e with ⟨rfl, hf⟩ | ⟨c, -, hc, rfl⟩
      · exact Or.inl ⟨rfl, fun _ => hf⟩
      · exact Or.inr ⟨c, rfl, (forall_prop_of_true ht).trans hc.symm⟩
    | lock =>
      obtain ⟨m, -, rfl⟩ := Option.map_eq_some_iff.mp e
      exact Or.inl ⟨rfl, hok nofun⟩
    | retest | alloc =>
      cases e
      exact Or.inl ⟨rfl, hok nofun⟩
    | store k =>
      obtain ⟨hk, hd, -⟩ := hl rfl
      simp only [State.piece, List.getElem?_eq_getElem hk, State.assign, hd] at e
      cases e
      exact Or.inl ⟨rfl, hok nofun⟩
    | again =>
      obtain ⟨hd, ho⟩ := hl rfl
      simp only [State.piece, use_eq hd ho, hd, reduceCtorEq, if_false] at e
      cases e
      exact Or.inr ⟨_, rfl, iff_of_true (hok nofun) rfl⟩
    | unlock =>
      obtain ⟨hd, ho⟩ := hl rfl
      simp only [State.piece, use_eq hd ho] at e
      cases e
      exact Or.inr ⟨_, rfl, iff_of_true (hok nofun) rfl⟩
    | relock | returned => cases e

lemma published_snoc {c : Config} (hs : s'.seen = s.seen ++ [c]) (h : Published s) :
    Published s' ↔ c = defaults := by
  unfold Published
  rw [hs]
  refine ⟨fun h' => h' c (by simp), fun hc d hd => ?_⟩
  rcases List.mem_append.mp hd with hd | hd
  · exact h d hd
  · rw [List.mem_singleton.mp hd, hc]

/-- **When the configuration is filled before it is seen.** One object is created, whatever the
order of the steps; and what the calls return and use has its default values in every state of a
run if and only if no call makes its first test while the fields are assigned to. -/
theorem published_iff {acts : List Act} (e : run acts = some s) :
    s.objects.length ≤ 1 ∧ (s.seen ≠ [] → s.objects.length = 1) ∧
      (Runs.Along DebugConfigModel.step NotEarly init acts ↔
        Runs.Always DebugConfigModel.step Published init acts) := by
  have h : Inv s := Runs.exec_invariant' (fun _ _ _ h e => h.step e) inv_init e
  refine ⟨h.length_le, h.created, Runs.along_iff_always_of_exec
    (I := fun s => Inv s ∧ Published s) (fun _ h => h.2) (fun s a s' h e => ?_)
    ⟨inv_init, fun c hc => absurd hc List.not_mem_nil⟩ e⟩
  have hiff : NotEarly s a ↔ Published s' := by
    rcases h.1.step_seen e with ⟨hs, hok⟩ | ⟨c, hs, hc⟩
    · refine iff_of_true hok ?_
      unfold Published
      rw [hs]
      exact h.2
    · exact hc.trans (published_snoc hs h.2).symm
  exact ⟨hiff, fun hok => ⟨h.1.step e, hiff.mp hok⟩⟩

/-- A call that is alone, and one that comes after it. -/
def oneByOne : List Act :=
  [.call] ++ List.replicate 15 (.piece 0) ++ [.call, .piece 1]

theorem published_iff_one : ∃ s, run oneByOne = some s ∧ s.seen = [defaults, defaults, defaults] ∧
    s.objects.length ≤ 1 ∧ (s.seen ≠ [] → s.objects.length = 1) ∧
      (Runs.Along DebugConfigModel.step NotEarly init oneByOne ↔
        Runs.Always DebugConfigModel.step Published init oneByOne) :=
  ⟨_, rfl, rfl, published_iff (show run oneByOne = some _ from rfl)⟩

/-- A second call that tests the pointer right after it has been set returns an object without
values. -/
theorem seen_blank :
    ∃ s, run ([.call, .call] ++ List.replicate 4 (.piece 0) ++ [.piece 1]) = some s ∧
      s.mu.threads[1]? = some .returned ∧ s.seen = [blank] ∧ ¬ Published s :=
  ⟨_, rfl, rfl, rfl, fun h => absurd (h blank (by decide)) (by decide)⟩

end Libchef.DebugConfigPublish
