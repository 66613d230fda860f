import Libchef.TaskShutdown

/-!
The final critical section.

It executes what was collected, and in one mode the deferred tasks, under the mutex, and it
does not look at `tasks_`. So it is in order to add immediate tasks until the last collection
only, and to have tasks that add tasks only where nothing is left to the flush.
-/

namespace Libchef.TaskFinal

open Libchef.TaskModel Libchef.TaskSteps Libchef.TaskOnce Libchef.TaskShutdown

variable {s s' : State} {a : Act}

/-! ### Nothing is left behind -/

/-- No immediate task comes in between the last collection and the final critical section. -/
def NoLateTask (s : State) (a : Act) : Prop :=
  s.worker = .leave → ∀ i, a = .push i → s.adding[i]? ≠ some 0

instance : DecidableRel NoLateTask
  | s, .push j => decidable_of_iff (s.worker = .leave → s.adding[j]? ≠ some 0)
    ⟨fun h hw _ hi => Act.push.inj hi ▸ h hw, fun h hw => h hw j rfl⟩
  | _, .start | _, .increment _ | _, .stop | _, .clock _ | _, .worker => isTrue nofun

/-- From the test after the last collection to the end of the final critical section. -/
def closing : Worker → Bool
  | .check | .leave | .flush _ | .flushDefferred _ _ | .release => true
  | _ => false

/-- In the final critical section. -/
def inFinal : Worker → Bool
  | .flush _ | .flushDefferred _ _ | .release => true
  | _ => false

lemma closing_free {w : Worker} (h : closing w = true) (hf : holds w = false) : w = .leave := by
  cases w <;> simp_all [closing, holds]

lemma inFinal_holds {w : Worker} (h : inFinal w = true) : holds w = true := by
  cases w <;> simp_all [inFinal, holds]

structure Swept (s : State) : Prop where
  passed : Passed s
  empty : closing s.worker = true → s.tasks_ = []
  before : inFinal s.worker = true → s.hist.before = s.hist.added
  served : s.worker = .ended → ∀ t ∈ s.hist.before, t ∈ s.hist.added ∧ t ∉ s.tasks_ ∧
    (s.releaseMode_ = .doAllDone → t ∉ defferred s)

lemma piece_closing (hs : Shape s) (hp : Piece s s') (h : closing s'.worker = true) :
    closing s.worker = true ∧ s'.tasks_ = s.tasks_ ∨ s'.tasks_ = [] := by
  cases hp with
  | collect hw => exact Or.inr (collect_effect hs hw).tasks
  | wake hw hm next hn => rcases hn with rfl | rfl <;> simp [closing] at h
  | leave hw | final hw | flushed hw | flush hw | flushDone hw | clear hw | defferred hw
  | defferredDone hw => exact Or.inl (by rw [hw]; exact ⟨rfl, rfl⟩)
  | _ => simp [closing, State.unlock, State.call, State.pop] at h

lemma piece_inFinal (hp : Piece s s') (h : inFinal s'.worker = true) :
    inFinal s.worker = true ∧ s'.hist.before = s.hist.before ∧ s'.hist.added = s.hist.added ∨
      s'.hist.before = s'.hist.added := by
  cases hp with
  | final hw => exact Or.inr rfl
  | wake hw hm next hn => rcases hn with rfl | rfl <;> simp [inFinal] at h
  | flushed hw | flush hw | flushDone hw | clear hw | defferred hw | defferredDone hw =>
    exact Or.inl (by rw [hw]; exact ⟨rfl, rfl, rfl⟩)
  | _ => simp [inFinal, State.unlock, State.call, State.pop] at h

lemma piece_ended (hp : Piece s s') (h : s'.worker = .ended) :
    s.worker = .release ∧ s' = s.unlock .ended := by
  cases hp with
  | unlock hw => exact ⟨hw, rfl⟩
  | wake hw hm next hn => rcases hn with rfl | rfl <;> cases h
  | final hw =>
    unfold State.final at h
    cases hr : s.releaseMode_ <;> rw [hr] at h <;> cases h
  | flushed hw =>
    unfold State.afterFlush at h
    cases hr : s.releaseMode_ <;> rw [hr] at h <;> cases h
  | _ => cases h

lemma push_before {i : ℕ} (hs : step s (.push i) = some s') :
    s'.hist.before = s.hist.before ∧ (s.adding[i]? ≠ some 0 → s'.tasks_ = s.tasks_) := by
  obtain ⟨d, hd, -, rfl⟩ := push_some hs
  unfold State.push
  by_cases h0 : d = 0
  · subst h0
    exact ⟨by simp, fun hne => absurd hd hne⟩
  · exact ⟨by simp [h0], fun _ => by simp [h0]⟩

/-- **Every step keeps it**, unless an immediate task comes in too late. -/
theorem Swept.step (h : Swept s) (hok : NoLateTask s a) (hs : TaskModel.step s a = some s') :
    Swept s' := by
  have h' := h.passed.step hs
  have hshape := h.passed.once.shape
  cases a with
  | start =>
    obtain ⟨hw, rfl⟩ := start_some hs
    exact ⟨h', nofun, nofun, nofun⟩
  | increment d => cases hs; exact ⟨h', h.empty, h.before, h.served⟩
  | clock t => obtain ⟨-, rfl⟩ := clock_some hs; exact ⟨h', h.empty, h.before, h.served⟩
  | stop => obtain ⟨-, rfl⟩ := stop_some hs; exact ⟨h', h.empty, h.before, h.served⟩
  | push i =>
    obtain ⟨u, e, -, -, hr, -⟩ := push_step hshape hs
    obtain ⟨hb, htasks⟩ := push_before hs
    have hfree : holds s.worker = false := hshape.mutex.symm.trans e.free
    refine ⟨h', fun hw => ?_, fun hw => ?_, fun hw t ht => ?_⟩
    · rw [e.worker] at hw
      rw [htasks (hok (closing_free hw hfree) i rfl), h.empty hw]
    · rw [e.worker] at hw
      rw [inFinal_holds hw] at hfree
      cases hfree
    · rw [e.worker] at hw
      rw [hb] at ht
      obtain ⟨hadd, hnt, hnd⟩ := h.served hw t ht
      have hold := old h.passed.once (.pushes u e) (by rw [hw]; nofun) hadd
      refine ⟨?_, fun hm => hnt (hold.inTasks hm), fun hm hd => hnd (hr ▸ hm) (hold.inDefferred hd)⟩
      rw [e.added]
      exact List.mem_append_left _ hadd
  | worker =>
    have hp := piece_of_step hs
    refine ⟨h', fun hw => ?_, fun hw => ?_, fun hw t ht => ?_⟩
    · rcases piece_closing hshape hp hw with ⟨hc, ht⟩ | ht
      · rw [ht, h.empty hc]
      · exact ht
    · rcases piece_inFinal hp hw with ⟨hf, hb, hadd⟩ | hb
      · rw [hb, hadd, h.before hf]
      · exact hb
    · obtain ⟨hrel, rfl⟩ := piece_ended hp hw
      have hl := hshape.here
      unfold Local at hl
      rw [hrel] at hl
      have hempty := h.empty (by rw [hrel]; rfl)
      refine ⟨?_, ?_, fun hm => ?_⟩
      · exact (h.before (by rw [hrel]; rfl)) ▸ ht
      · show t ∉ s.tasks_
        rw [hempty]
        simp
      · show t ∉ s.defferredTasks_.entries.map Prod.snd
        rw [hl.2.2 hm]
        simp

lemma swept_init (rm : ReleaseMode) : Swept (init rm) :=
  ⟨passed_init rm, nofun, nofun, nofun⟩

lemma Swept.release (h : Swept s) (hw : s.worker = .release)
    (hr : s.releaseMode_ = .doAllDone) :
    s.tasks_ = [] ∧ s.defferredTasks_.entries = [] := by
  have hl := h.passed.once.shape.here
  unfold Local at hl
  rw [hw] at hl
  exact ⟨h.empty (by rw [hw]; rfl), hl.2.2 hr⟩

lemma Swept.ended (h : Swept s) (hw : s.worker = .ended) (hr : s.releaseMode_ = .doAllDone)
    {t : Task} (ht : t ∈ s.hist.before) : t ∈ s.hist.executed := by
  have hl := h.passed.once.shape.here
  unfold Local at hl
  rw [hw] at hl
  obtain ⟨hadd, hnt, hnd⟩ := h.served hw t ht
  have hnil : collected s = [] := by simp [collected, hw, hl.2 (by simp [hr])]
  have hmem := h.passed.once.perm.mem_iff.mp hadd
  rw [hnil, List.nil_append] at hmem
  rcases List.mem_append.mp hmem with hm | hm
  · exact hm
  rcases List.mem_append.mp hm with hm | hm
  · exact absurd hm hnt
  · exact absurd hm (hnd hr)

/-! ### What comes in too late is dropped -/

/-- A task nobody collects any more. -/
structure Dropped (t : Task) (s : State) : Prop where
  once : Once s
  tasks : t ∈ s.tasks_
  left : past s.worker = true
  before : s.worker ≠ .leave → t ∈ s.hist.before

lemma piece_dropped (hp : Piece s s') (h : past s.worker = true) :
    past s'.worker = true ∧ s'.tasks_ = s.tasks_ ∧
      (s.worker = .leave ∧ s'.hist.before = s.hist.added ∨
        s.worker ≠ .leave ∧ s'.hist.before = s.hist.before) := by
  cases hp with
  | final hw =>
    refine ⟨?_, rfl, Or.inl ⟨hw, rfl⟩⟩
    unfold State.final
    cases s.releaseMode_ <;> rfl
  | flushed hw =>
    refine ⟨?_, rfl, Or.inr ⟨by rw [hw]; nofun, rfl⟩⟩
    unfold State.afterFlush
    cases s.releaseMode_ <;> rfl
  | flush hw | flushDone hw | clear hw | defferred hw | defferredDone hw | unlock hw =>
    exact ⟨rfl, rfl, Or.inr ⟨by rw [hw]; nofun, rfl⟩⟩
  | lock hw | sleep hw | ready hw | wake hw | collect hw | leave hw | stay hw | again hw
  | call hw | done hw => rw [hw] at h; cases h

theorem Dropped.step {t : Task} (h : Dropped t s) (hs : TaskModel.step s a = some s') :
    Dropped t s' := by
  have h' := h.once.step hs
  cases a with
  | start =>
    obtain ⟨hw, -⟩ := start_some hs
    have := h.left
    rw [hw] at this
    cases this
  | increment d => cases hs; exact ⟨h', h.tasks, h.left, h.before⟩
  | clock t => obtain ⟨-, rfl⟩ := clock_some hs; exact ⟨h', h.tasks, h.left, h.before⟩
  | stop => obtain ⟨-, rfl⟩ := stop_some hs; exact ⟨h', h.tasks, h.left, h.before⟩
  | push i =>
    obtain ⟨u, e, -⟩ := push_step h.once.shape hs
    refine ⟨h', ?_, e.worker ▸ h.left, fun hw => (push_before hs).1 ▸ h.before (e.worker ▸ hw)⟩
    by_cases h0 : u.defferredTimeMs = 0
    · rw [(e.immediate h0).1]
      exact List.mem_append_left _ h.tasks
    · rw [(e.late h0).1]
      exact h.tasks
  | worker =>
    obtain ⟨hl, ht, hb⟩ := piece_dropped (piece_of_step hs) h.left
    refine ⟨h', ht ▸ h.tasks, hl, fun _ => ?_⟩
    rcases hb with ⟨-, hb⟩ | ⟨hne, hb⟩
    · rw [hb]
      exact h.once.perm.mem_iff.mpr (by simp [h.tasks])
    · rw [hb]
      exact h.before hne

lemma Dropped.not_executed {t : Task} (h : Dropped t s) : t ∉ s.hist.executed := by
  have hnd := h.once.perm.nodup_iff.mp h.once.nodup
  exact fun hm => (List.nodup_append.mp hnd).2.2 t hm t (by simp [h.tasks]) rfl

/-- An immediate task that comes in while the worker goes to its final critical section. -/
lemma dropped_of_late (h : Once s) (hok : ¬ NoLateTask s a)
    (hs : TaskModel.step s a = some s') : ∃ t, Dropped t s' := by
  simp only [NoLateTask, not_forall, not_not] at hok
  obtain ⟨hw, i, rfl, hd⟩ := hok
  obtain ⟨d, hd', hm, rfl⟩ := push_some hs
  rw [hd] at hd'
  cases hd'
  exact ⟨⟨s.hist.added.length, 0, s.clock⟩, h.step hs, by simp [State.push],
    by simp [State.push, hw, past], fun hne => absurd hw (by simpa [State.push] using hne)⟩

/-- **When nothing is dropped.** With `RELEASE_MODE_DO_ALL_DONE` both containers are empty at
the end of the final critical section, and all tasks added before it are executed, if and only
if no immediate task came in between the last collection and that critical section. -/
theorem nothing_dropped_iff {acts : List Act} (h : run .doAllDone acts = some s) :
    (s.worker = .release → (s.tasks_ = [] ∧ s.defferredTasks_.entries = [] ↔
      Runs.Along TaskModel.step NoLateTask (init .doAllDone) acts)) ∧
    (s.worker = .ended → ((∀ t ∈ s.hist.before, t ∈ s.hist.executed) ↔
      Runs.Along TaskModel.step NoLateTask (init .doAllDone) acts)) := by
  have hmode := (run_passed h).2
  have hgood : Runs.Along TaskModel.step NoLateTask (init .doAllDone) acts → Swept s := fun hok =>
    Runs.exec_invariant (fun _ _ _ hp hok hs => hp.step hok hs) (swept_init _) hok h
  have hbad : ¬ Runs.Along TaskModel.step NoLateTask (init .doAllDone) acts →
      ∃ t, Dropped t s := fun hok => by
    obtain ⟨l₁, a, l₂, s₁, s₂, -, h₁, hna, h₂, h₃⟩ := Runs.exists_step_of_not_along h hok
    obtain ⟨t, ht⟩ := dropped_of_late (run_passed h₁).1.once hna h₂
    exact ⟨t, Runs.exec_invariant' (fun _ _ _ hp hs => hp.step hs) ht h₃⟩
  refine ⟨fun hw => ⟨fun he => ?_, fun hok => (hgood hok).release hw hmode⟩,
    fun hw => ⟨fun he => ?_, fun hok t ht => (hgood hok).ended hw hmode ht⟩⟩
  · by_contra hok
    obtain ⟨t, ht⟩ := hbad hok
    have := ht.tasks
    rw [he.1] at this
    cases this
  · by_contra hok
    obtain ⟨t, ht⟩ := hbad hok
    exact ht.not_executed (he t (ht.before (by rw [hw]; nofun)))

/-- A run in which the one task comes in early. -/
theorem nothing_dropped_iff_early :
    ∃ s, run .doAllDone ([.start, .increment 0, .push 0, .stop] ++ List.replicate 10 .worker) =
        some s ∧ s.worker = .ended ∧ s.hist.before ≠ [] ∧
      ∀ t ∈ s.hist.before, t ∈ s.hist.executed :=
  ⟨_, rfl, rfl, by decide, ((nothing_dropped_iff (show run .doAllDone ([.start, .increment 0,
    .push 0, .stop] ++ List.replicate 10 .worker) = some _ from rfl)).2 rfl).mpr (by decide)⟩

/-- A run in which it comes in after the last collection: the worker ends without it. -/
theorem late_task_dropped :
    ∃ s t, run .doAllDone ([.start, .stop, .worker, .worker, .worker, .worker, .increment 0,
        .push 0] ++ List.replicate 4 .worker) = some s ∧ s.worker = .ended ∧
      t ∈ s.hist.before ∧ t ∉ s.hist.executed ∧ t ∈ s.tasks_ :=
  ⟨_, ⟨0, 0, 0⟩, rfl, rfl, by decide, by decide, by decide⟩

/-! ### Calls under the mutex -/

/-- The worker takes the mutex for the last time only where the flush has nothing to call. -/
def NothingToFlush (s : State) (a : Act) : Prop :=
  a = .worker → s.worker = .leave → s.releaseMode_ = .asap ∨
    s.collectTasks = [] ∧ (s.releaseMode_ = .doAllDone → s.defferredTasks_.entries = [])

instance : DecidableRel NothingToFlush := fun _ _ => inferInstanceAs (Decidable (_ → _))

/-- A task is not called while the worker owns the mutex. -/
def Unlocked (s : State) (a : Act) : Prop :=
  a = .worker → ∀ t, calls s = some t → s.mutex_ = false

/-- The flush has nothing to call. -/
structure Quiet (s : State) : Prop where
  shape : Shape s
  flush : ∀ c, s.worker = .flush c →
    s.collectTasks = [] ∧ (s.releaseMode_ = .doAllDone → s.defferredTasks_.entries = [])
  iter : ∀ iter c, s.worker = .flushDefferred iter c → iter = []

/-- In the flush. -/
def flushes : Worker → Bool
  | .flush _ | .flushDefferred _ _ => true
  | _ => false

lemma quiet_of (hs : Shape s) (hw : flushes s.worker = false) : Quiet s := by
  refine ⟨hs, fun c h => ?_, fun iter c h => ?_⟩ <;> rw [h] at hw <;> cases hw

lemma Quiet.unlocked (h : Quiet s) {t : Task} (ht : calls s = some t) : s.mutex_ = false := by
  rw [h.shape.mutex]
  unfold calls at ht
  split at ht
  · next hw => rw [hw]; rfl
  · next hw =>
    rw [(h.flush _ hw).1] at ht
    cases ht
  · next iter hw =>
    rw [h.iter _ _ hw] at ht
    cases ht
  · cases ht

theorem Quiet.step (h : Quiet s) (hok : NothingToFlush s a)
    (hs : TaskModel.step s a = some s') : Quiet s' := by
  have hshape := h.shape.step hs
  cases a with
  | start => obtain ⟨-, rfl⟩ := start_some hs; exact quiet_of hshape rfl
  | increment d => cases hs; exact ⟨hshape, h.flush, h.iter⟩
  | clock t => obtain ⟨-, rfl⟩ := clock_some hs; exact ⟨hshape, h.flush, h.iter⟩
  | stop => obtain ⟨-, rfl⟩ := stop_some hs; exact ⟨hshape, h.flush, h.iter⟩
  | push i =>
    obtain ⟨u, e, -⟩ := push_step h.shape hs
    have hfree : holds s.worker = false := h.shape.mutex.symm.trans e.free
    rw [← e.worker] at hfree
    refine ⟨hshape, fun c hw => ?_, fun iter c hw => ?_⟩ <;> rw [hw] at hfree <;> cases hfree
  | worker =>
    have hp := piece_of_step hs
    cases hp with
    | final hw hm =>
      rcases hok rfl hw with hr | ⟨hc, hd⟩
      · exact quiet_of hshape (by simp [State.final, hr, flushes])
      · refine ⟨hshape, fun c _ => ⟨hc, hd⟩, fun iter c hw' => ?_⟩
        unfold State.final at hw'
        cases hr : s.releaseMode_ <;> rw [hr] at hw' <;> cases hw'
    | flushed hw hc =>
      obtain ⟨-, hd⟩ := h.flush _ hw
      refine ⟨hshape, fun c hw' => ?_, fun iter c hw' => ?_⟩ <;>
        unfold State.afterFlush at hw' <;> cases hr : s.releaseMode_ <;> rw [hr] at hw' <;>
        cases hw'
      exact hd hr
    | flush hw hc =>
      rw [(h.flush _ hw).1] at hc
      cases hc
    | flushDone hw =>
      obtain ⟨hc, hd⟩ := h.flush _ hw
      refine ⟨hshape, fun _ _ => ⟨by simp [State.pop, hc], hd⟩, fun iter c hw' => ?_⟩
      cases hw'
    | defferred hw => cases h.iter _ _ hw
    | defferredDone hw => cases h.iter _ _ hw
    | wake hw hm next hn =>
      rcases hn with rfl | rfl <;> exact quiet_of hshape rfl
    | _ => exact quiet_of hshape rfl

/-- The worker owns the mutex and has a task to call before it gives it back. -/
def Owes (s : State) : Prop :=
  s.mutex_ = true ∧ ((∃ t, calls s = some t) ∨
    s.worker = .flush false ∧ s.collectTasks = [] ∧ s.releaseMode_ = .doAllDone ∧
      s.defferredTasks_.entries ≠ [])

lemma Owes.step (h : Owes s) (hok : Unlocked s a) (hs : TaskModel.step s a = some s') :
    Owes s' := by
  obtain ⟨hm, hcase⟩ := h
  cases a with
  | start =>
    obtain ⟨hw, -⟩ := start_some hs
    rcases hcase with ⟨t, ht⟩ | ⟨hw', -⟩
    · simp [calls, hw] at ht
    · rw [hw] at hw'
      cases hw'
  | increment d => cases hs; exact ⟨hm, hcase⟩
  | clock t => obtain ⟨-, rfl⟩ := clock_some hs; exact ⟨hm, hcase⟩
  | stop => obtain ⟨-, rfl⟩ := stop_some hs; exact ⟨hm, hcase⟩
  | push i =>
    obtain ⟨d, -, hm', -⟩ := push_some hs
    rw [hm] at hm'
    cases hm'
  | worker =>
    rcases hcase with ⟨t, ht⟩ | ⟨hw, hc, hr, hd⟩
    · rw [hok rfl t ht] at hm
      cases hm
    · simp only [TaskModel.step, State.workerStep, hw, hc, State.afterFlush, hr] at hs
      cases hs
      obtain ⟨e, l, he⟩ := List.exists_cons_of_ne_nil hd
      exact ⟨hm, Or.inl ⟨e.2, by simp [calls, he]⟩⟩

lemma owes_of_final (hok : ¬ NothingToFlush s a) (hs : TaskModel.step s a = some s') :
    Owes s' := by
  simp only [NothingToFlush, not_forall, not_or, not_and] at hok
  obtain ⟨rfl, hw, hr, hrest⟩ := hok
  cases piece_of_step hs with
  | final hw' hm =>
    refine ⟨rfl, ?_⟩
    have hfinal : s.final = .flush false := by
      unfold State.final
      cases hmode : s.releaseMode_
      · exact absurd hmode hr
      · rfl
      · rfl
    by_cases hc : s.collectTasks = []
    · obtain ⟨hall, hd⟩ := hrest hc
      exact Or.inr ⟨hfinal, hc, hall, hd⟩
    · obtain ⟨t, l, hl⟩ := List.exists_cons_of_ne_nil hc
      exact Or.inl ⟨t, by simp [calls, hfinal, hl]⟩
  | _ => simp_all

lemma quiet_init (rm : ReleaseMode) : Quiet (init rm) :=
  quiet_of (shape_init rm) rfl

lemma Owes.not_ended (h : Owes s) : s.worker ≠ .ended := by
  intro hw
  rcases h.2 with ⟨t, ht⟩ | ⟨hw', -⟩
  · simp [calls, hw] at ht
  · rw [hw] at hw'
    cases hw'

/-- **When no task is called under the mutex.** As long as the worker takes the mutex for the
last time with nothing left to flush, every call is made without it; and of a run to the end
of the worker this is the exact condition. -/
theorem unlocked_iff (rm : ReleaseMode) {acts : List Act} (h : run rm acts = some s) :
    (Runs.Along TaskModel.step NothingToFlush (init rm) acts →
      ∀ t, calls s = some t → s.mutex_ = false) ∧
    (s.worker = .ended → (Runs.Along TaskModel.step Unlocked (init rm) acts ↔
      Runs.Along TaskModel.step NothingToFlush (init rm) acts)) := by
  refine ⟨fun hok t ht => ?_, fun hw => ⟨fun hunl => ?_, fun hok => ?_⟩⟩
  · have hq : Quiet s :=
      Runs.exec_invariant (fun _ _ _ hq hok hs => Quiet.step hq hok hs) (quiet_init rm) hok h
    exact hq.unlocked ht
  · by_contra hok
    obtain ⟨l₁, a, l₂, s₁, s₂, rfl, h₁, hna, h₂, h₃⟩ := Runs.exists_step_of_not_along h hok
    have hrest := (Runs.along_append hunl h₁).2 s₂ h₂
    have howes : Owes s :=
      Runs.exec_invariant (fun _ _ _ ho hok hs => Owes.step ho hok hs) (owes_of_final hna h₂)
        hrest h₃
    exact howes.not_ended hw
  · exact Runs.along_of_invariant (fun _ _ _ hq hok hs => Quiet.step hq hok hs)
      (fun s a hq _ t ht => hq.unlocked ht) (quiet_init rm) hok

/-- A run to the end whose last collection finds nothing. -/
theorem unlocked_iff_quiet :
    ∃ s, run .doAllDone ([.start, .increment 0, .push 0] ++ List.replicate 7 .worker ++ [.stop] ++
        List.replicate 8 .worker) = some s ∧ s.worker = .ended ∧ s.hist.executed ≠ [] ∧
      Runs.Along TaskModel.step Unlocked (init .doAllDone) ([.start, .increment 0, .push 0] ++
        List.replicate 7 .worker ++ [.stop] ++ List.replicate 8 .worker) :=
  ⟨_, rfl, rfl, by decide, ((unlocked_iff .doAllDone (show run .doAllDone ([.start, .increment 0,
    .push 0] ++ List.replicate 7 .worker ++ [.stop] ++ List.replicate 8 .worker) = some _
    from rfl)).2 rfl).mpr (by decide)⟩

/-- A task that came in before the exit flag is called in the final critical section. -/
theorem called_under_mutex :
    ∃ s t, run .doShouldDone ([.start, .increment 0, .push 0, .stop] ++
        List.replicate 5 .worker) = some s ∧ calls s = some t ∧ s.mutex_ = true :=
  ⟨_, _, rfl, rfl, rfl⟩

end Libchef.TaskFinal
