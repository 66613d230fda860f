import Libchef.TaskOnce

/-!
What the release modes promise.

The last collection sees every task that was added before the exit flag was stored. A task
that comes in later, while the worker goes from its last collection to its final critical
section, lands in a container nobody collects any more.
-/

namespace Libchef.TaskShutdown

open Libchef.TaskModel Libchef.TaskSteps Libchef.TaskOnce

/-- The worker has collected for the last time. -/
def past : Worker → Bool
  | .leave | .flush _ | .flushDefferred _ _ | .release | .ended => true
  | _ => false

/-- The worker has executed all it is going to. -/
def finished : Worker → Bool
  | .release | .ended => true
  | _ => false

/-- A deferred task that the last collection had to leave. -/
def NotDue (s : State) (t : Task) : Prop := ∃ v, s.hist.lastNow = some v ∧ v < t.due

section Pieces

variable {s s' : State} {a : Act}

lemma piece_keeps (hp : Piece s s') :
    s'.exitFlag_ = s.exitFlag_ ∧ s'.releaseMode_ = s.releaseMode_ ∧
    s'.hist.early = s.hist.early ∧ s'.clock = s.clock := by
  cases hp with
  | collect hw =>
    have hk := collect_keeps (s := s)
    exact ⟨hk.2.2.2.2.2.1, hk.2.2.2.2.2.2, hk.2.2.2.1, hk.2.2.2.2.1⟩
  | _ => exact ⟨rfl, rfl, rfl, rfl⟩

lemma piece_past (hp : Piece s s') (h : past s'.worker = true) :
    past s.worker = true ∨ s.worker = .check ∧ s.exitFlag_ = true := by
  cases hp with
  | leave hw he => exact Or.inr ⟨hw, he⟩
  | wake hw hm next hn => rcases hn with rfl | rfl <;> simp [past] at h
  | final hw | flushed hw | flush hw | flushDone hw | clear hw | defferred hw | defferredDone hw
  | unlock hw => exact Or.inl (by rw [hw]; rfl)
  | _ => simp [past, State.unlock, State.call, State.pop] at h

lemma piece_check (hs : Shape s) (hp : Piece s s') (h : s'.worker = .check) : Collects s s' := by
  cases hp with
  | collect hw => exact collect_effect hs hw
  | wake hw hm next hn => rcases hn with rfl | rfl <;> cases h
  | final hw =>
    unfold State.final at h
    cases hr : s.releaseMode_ <;> rw [hr] at h <;> cases h
  | flushed hw =>
    unfold State.afterFlush at h
    cases hr : s.releaseMode_ <;> rw [hr] at h <;> cases h
  | _ => cases h

/-- Where all tasks are to be executed, the deferred ones are executed at the end. -/
lemma piece_finished (hp : Piece s s') (h : finished s'.worker = true)
    (hr : s.releaseMode_ = .doAllDone) :
    finished s.worker = true ∨ defferred s' = [] := by
  cases hp with
  | wake hw hm next hn => rcases hn with rfl | rfl <;> simp [finished] at h
  | final hw => simp [State.final, hr, finished] at h
  | flushed hw => simp [State.afterFlush, hr, finished] at h
  | clear hw => exact Or.inr (by simp [defferred, Ordered.Multimap.empty])
  | unlock hw => exact Or.inl (by rw [hw]; rfl)
  | _ => simp [finished, State.unlock, State.call, State.pop] at h

/-- Where a task that was added before a step can be after it. -/
structure Old (s s' : State) (t : Task) : Prop where
  inTasks : t ∈ s'.tasks_ → t ∈ s.tasks_
  inDefferred : t ∈ defferred s' → t ∈ defferred s
  lastNow : s'.hist.lastNow = s.hist.lastNow

lemma Old.keep {t : Task} (h : Old s s' t)
    (ht : t ∉ s.tasks_ ∧ (t ∈ defferred s → NotDue s t)) :
    t ∉ s'.tasks_ ∧ (t ∈ defferred s' → NotDue s' t) := by
  refine ⟨fun hm => ht.1 (h.inTasks hm), fun hd => ?_⟩
  obtain ⟨v, hv, hlt⟩ := ht.2 (h.inDefferred hd)
  exact ⟨v, h.lastNow.trans hv, hlt⟩

/-- Only a collection moves the tasks that were added before into `collect_tasks`. -/
lemma old (h : Once s) (he : Effect s s') (hw : s.worker ≠ .collect) {t : Task}
    (ht : t ∈ s.hist.added) : Old s s' t := by
  cases he with
  | still e => exact ⟨by rw [e.tasks]; exact id, by rw [e.defferred]; exact id, e.lastNow⟩
  | collects hc e => exact absurd hc hw
  | calls u hc e =>
    refine ⟨by rw [e.tasks]; exact id, fun hm => ?_, e.lastNow⟩
    rcases e.next with ⟨-, h₂⟩ | ⟨-, -, h₃, -⟩
    · rwa [h₂] at hm
    · rw [h₃]
      exact List.mem_cons_of_mem u hm
  | pushes u e =>
    have hne : t ≠ u := by
      rintro rfl
      exact absurd (h.seq_lt ht) (by rw [e.seq]; exact lt_irrefl _)
    by_cases h0 : u.defferredTimeMs = 0
    · obtain ⟨h₁, h₂⟩ := e.immediate h0
      refine ⟨fun hm => ?_, by rw [h₂]; exact id, e.lastNow⟩
      rw [h₁] at hm
      simpa [hne] using hm
    · obtain ⟨h₁, l₁, l₂, h₂, h₃, -⟩ := e.late h0
      refine ⟨by rw [h₁]; exact id, fun hm => ?_, e.lastNow⟩
      rw [h₃] at hm
      rw [h₂]
      simpa [hne] using hm

lemma past_ne {w : Worker} (h : past w = true) : w ≠ .collect := by
  rintro rfl
  cases h

lemma push_step {i : ℕ} (h : Shape s) (hs : step s (.push i) = some s') :
    ∃ t, Pushes s s' t ∧ s.adding[i]? = some t.defferredTimeMs ∧ s'.exitFlag_ = s.exitFlag_ ∧
      s'.releaseMode_ = s.releaseMode_ ∧ s'.hist.early = s.hist.early := by
  obtain ⟨d, hd, hm, rfl⟩ := push_some hs
  obtain ⟨t, rfl, e⟩ := push_effect (s := { s with adding := s.adding.eraseIdx i })
    ⟨h.here, h.immediate, h.keys⟩ hm d
  refine ⟨t, { e with }, hd, ?_⟩
  unfold State.push
  by_cases hd : t.defferredTimeMs = 0 <;> simp [hd]

end Pieces

/-! ### Tasks added before the exit flag was stored -/

/-- Where the early tasks can still be. -/
structure Passed (s : State) : Prop where
  once : Once s
  early : ∀ t ∈ s.hist.early, t ∈ s.hist.added
  checked : s.worker = .check → s.tasks_ = [] ∧ ∀ t ∈ defferred s, NotDue s t
  left : past s.worker = true → s.exitFlag_ = true ∧
    ∀ t ∈ s.hist.early, t ∉ s.tasks_ ∧ (t ∈ defferred s → NotDue s t)
  served : finished s.worker = true → s.releaseMode_ = .doAllDone →
    ∀ t ∈ s.hist.early, t ∉ defferred s

section Passed

variable {s s' : State} {a : Act}

lemma past_of_finished {w : Worker} (h : finished w = true) : past w = true := by
  cases w <;> first | rfl | simp [finished] at h

/-- **Every step keeps the promise.** -/
theorem Passed.step (h : Passed s) (hs : TaskModel.step s a = some s') : Passed s' := by
  have h' := h.once.step hs
  cases a with
  | start =>
    obtain ⟨hw, rfl⟩ := start_some hs
    exact ⟨h', h.early, nofun, nofun, nofun⟩
  | increment d => cases hs; exact ⟨h', h.early, h.checked, h.left, h.served⟩
  | clock t =>
    obtain ⟨-, rfl⟩ := clock_some hs
    exact ⟨h', h.early, h.checked, h.left, h.served⟩
  | stop =>
    obtain ⟨hx, rfl⟩ := stop_some hs
    have hno : ¬ past s.worker = true := fun hp => by
      rw [(h.left hp).1] at hx
      cases hx
    exact ⟨h', fun t ht => ht, h.checked, fun hp => absurd hp hno,
      fun hf => absurd (past_of_finished hf) hno⟩
  | push i =>
    obtain ⟨u, e, -, hx, hr, hh⟩ := push_step h.once.shape hs
    have hcheck : s.worker ≠ .check := fun hw => by
      have hm := h.once.shape.mutex
      rw [hw, e.free] at hm
      cases hm
    refine ⟨h', fun t ht => ?_, fun hw => absurd (e.worker ▸ hw) hcheck, fun hp => ?_,
      fun hf hm t ht => ?_⟩
    · rw [e.added]
      exact List.mem_append_left _ (h.early t (hh ▸ ht))
    · rw [e.worker] at hp
      obtain ⟨hx', hleft⟩ := h.left hp
      refine ⟨hx.trans hx', fun t ht => ?_⟩
      rw [hh] at ht
      exact (old h.once (.pushes u e) (past_ne hp) (h.early t ht)).keep (hleft t ht)
    · rw [e.worker] at hf
      rw [hh] at ht
      have hold := old h.once (.pushes u e) (past_ne (past_of_finished hf)) (h.early t ht)
      exact fun hd => h.served hf (hr ▸ hm) t ht (hold.inDefferred hd)
  | worker =>
    have hp := piece_of_step hs
    obtain ⟨hx, hr, hh, -⟩ := piece_keeps hp
    have he := piece_effect h.once.shape hp
    refine ⟨h', fun t ht => ?_, fun hw => ?_, fun hw => ?_, fun hf hm t ht => ?_⟩
    · exact he.added (h.early t (hh ▸ ht))
    · have hc := piece_check h.once.shape hp hw
      exact ⟨hc.tasks, fun t ht => ⟨s.clock, hc.late t ht⟩⟩
    · rw [hx, hh]
      rcases piece_past hp hw with hpast | ⟨hcheck, hexit⟩
      · obtain ⟨hx', hleft⟩ := h.left hpast
        exact ⟨hx', fun t ht => (old h.once he (past_ne hpast) (h.early t ht)).keep (hleft t ht)⟩
      · obtain ⟨htasks, hlate⟩ := h.checked hcheck
        refine ⟨hexit, fun t ht => (old h.once he (by rw [hcheck]; nofun) (h.early t ht)).keep ?_⟩
        exact ⟨by rw [htasks]; simp, hlate t⟩
    · rw [hh] at ht
      rcases piece_finished hp hf (hr ▸ hm) with hfin | hnil
      · have hold := old h.once he (past_ne (past_of_finished hfin)) (h.early t ht)
        exact fun hd => h.served hfin (hr ▸ hm) t ht (hold.inDefferred hd)
      · rw [hnil]
        simp

lemma passed_init (rm : ReleaseMode) : Passed (init rm) :=
  ⟨once_init rm, by simp [init], nofun, nofun, nofun⟩

lemma step_mode (hs : TaskModel.step s a = some s') : s'.releaseMode_ = s.releaseMode_ := by
  cases a with
  | start => obtain ⟨-, rfl⟩ := start_some hs; rfl
  | increment d => cases hs; rfl
  | push i =>
    obtain ⟨d, -, -, rfl⟩ := push_some hs
    unfold State.push
    by_cases hd : d = 0 <;> simp [hd]
  | stop => obtain ⟨-, rfl⟩ := stop_some hs; rfl
  | clock t => obtain ⟨-, rfl⟩ := clock_some hs; rfl
  | worker => exact (piece_keeps (piece_of_step hs)).2.1

lemma run_passed {rm : ReleaseMode} {acts : List Act} (h : run rm acts = some s) :
    Passed s ∧ s.releaseMode_ = rm :=
  Runs.exec_invariant' (P := fun s => Passed s ∧ s.releaseMode_ = rm)
    (fun _ _ _ hp hs => ⟨hp.1.step hs, (step_mode hs).trans hp.2⟩) ⟨passed_init rm, rfl⟩ h

/-- Once the worker has ended, an early task has been executed or is still deferred. -/
lemma Passed.ended (h : Passed s) (hw : s.worker = .ended) (hr : s.releaseMode_ ≠ .asap)
    {t : Task} (ht : t ∈ s.hist.early) :
    t ∈ s.hist.executed ∨ t ∈ defferred s ∧ NotDue s t := by
  have hl := h.once.shape.here
  unfold Local at hl
  rw [hw] at hl
  have hnil : collected s = [] := by simp [collected, hw, hl.2 hr]
  obtain ⟨-, hleft⟩ := h.left (by rw [hw]; rfl)
  have hmem := h.once.perm.mem_iff.mp (h.early t ht)
  rw [hnil, List.nil_append] at hmem
  rcases List.mem_append.mp hmem with hm | hm
  · exact Or.inl hm
  rcases List.mem_append.mp hm with hm | hm
  · exact absurd hm (hleft t ht).1
  · exact Or.inr ⟨hm, (hleft t ht).2 hm⟩

end Passed

/-- **Once, in order, and as the release mode promises.** No task is executed twice, the
immediate tasks executed are the first ones added, in their order, and when the worker has
ended, the tasks added before the exit flag was stored have been executed: all of them, or
the immediate ones and those due at the last collection. -/
theorem executed_once_in_order (rm : ReleaseMode) {acts : List Act} {s : State}
    (h : run rm acts = some s) :
    s.hist.executed.Nodup ∧ s.hist.executed ⊆ s.hist.added ∧
      s.hist.executed.filter immediate <+: s.hist.added.filter immediate ∧
      (s.worker = .ended → ∀ t ∈ s.hist.early,
        (rm = .doAllDone → s.hist.executed.count t = 1) ∧
        (rm = .doShouldDone →
          t.defferredTimeMs = 0 ∨ (∀ v, s.hist.lastNow = some v → t.due ≤ v) →
            s.hist.executed.count t = 1)) := by
  obtain ⟨hp, hr⟩ := run_passed h
  have hnodup := hp.once.executed_nodup
  refine ⟨hnodup, fun t ht => ?_, hp.once.executed_prefix, fun hw t ht => ⟨fun hm => ?_,
    fun hm hcase => ?_⟩⟩
  · exact hp.once.perm.mem_iff.mpr (List.mem_append_left _ ht)
  · rcases hp.ended hw (by rw [hr, hm]; nofun) ht with hx | ⟨hd, -⟩
    · exact List.count_eq_one_of_mem hnodup hx
    · exact absurd hd (hp.served (by rw [hw]; rfl) (hr.trans hm) t ht)
  · rcases hp.ended hw (by rw [hr, hm]; nofun) ht with hx | ⟨hd, v, hv, hlt⟩
    · exact List.count_eq_one_of_mem hnodup hx
    · rcases hcase with h0 | hdue
      · exact absurd h0 (hp.once.shape.defferred_ne hd)
      · exact absurd (hdue v hv) hlt.not_ge

/-- One immediate and one deferred task, the exit flag, and the worker to its end. -/
theorem executed_once_in_order_two :
    ∃ s, run .doAllDone ([.start, .increment 5, .push 0, .increment 0, .push 0, .stop] ++
        List.replicate 12 .worker) = some s ∧ s.worker = .ended ∧
      ∀ t ∈ s.hist.early, s.hist.executed.count t = 1 := by
  refine ⟨_, rfl, rfl, fun t ht => ?_⟩
  exact ((executed_once_in_order .doAllDone (show run .doAllDone ([.start, .increment 5, .push 0,
    .increment 0, .push 0, .stop] ++ List.replicate 12 .worker) = some _ from rfl)).2.2.2
      rfl t ht).1 rfl

end Libchef.TaskShutdown
