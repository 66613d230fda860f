import Libchef.TaskShutdown

/-!
Due times.

The deferred tasks that have been executed, those that are collected and those that wait stand
in one line, ordered by due time and then by the order of their `add`. A collection or a call
moves the boundaries in it. A task that comes in is due after everything collected, because
the clock has not gone back since then.
-/

namespace Libchef.TaskDue

open Libchef.TaskModel Libchef.TaskSteps Libchef.TaskOnce Libchef.TaskShutdown

/-- The clock when the task was added, plus its delay. -/
def dueTime (t : Task) : ℤ := t.addedAt + t.defferredTimeMs.toInt

def delayed (t : Task) : Bool := t.defferredTimeMs ≠ 0

/-- The clock does not go back and no delay is negative. -/
def Steady (s : State) : Act → Prop
  | .clock t => s.clock ≤ t
  | .increment defferredTimeMs => 0 ≤ defferredTimeMs.toInt
  | _ => True

instance : DecidableRel Steady
  | s, .clock t => inferInstanceAs (Decidable (s.clock ≤ t))
  | _, .increment d => inferInstanceAs (Decidable (0 ≤ d.toInt))
  | _, .start | _, .push _ | _, .stop | _, .worker => isTrue trivial

/-- Due before the other, or at the same time and added before. -/
def Earlier (t u : Task) : Prop := dueTime t < dueTime u ∨ dueTime t = dueTime u ∧ t.seq < u.seq

/-- The deferred tasks in the order they are executed in. -/
def line (s : State) : List Task :=
  (s.hist.executed ++ collected s).filter delayed ++ defferred s

/-- In the part of the final critical section that executes tasks that are not due, or past
it. Only `RELEASE_MODE_DO_ALL_DONE` has that part. -/
def flushing : Worker → Bool
  | .flushDefferred _ _ | .release | .ended => true
  | _ => false

/-- The due times of the tasks, and their order. -/
structure Due (s : State) : Prop where
  once : Once s
  clock : s.clock < 2 ^ 63
  delays : ∀ d ∈ s.adding, 0 ≤ d.toInt
  key : ∀ t ∈ s.hist.added, (t.due : ℤ) = dueTime t
  order : s.worker ≠ .ended → (line s).Pairwise Earlier
  executed : (s.hist.executed.filter delayed).Pairwise Earlier
  reached : flushing s.worker = false →
    ∀ t ∈ (s.hist.executed ++ collected s).filter delayed, dueTime t ≤ s.clock

section Due

variable {s s' : State} {a : Act}

lemma key_eq {t : Task} (h : t.addedAt < 2 ^ 63) (hd : 0 ≤ t.defferredTimeMs.toInt) :
    (t.due : ℤ) = dueTime t := by
  have hlt : t.defferredTimeMs.toInt < 2 ^ 31 := t.defferredTimeMs.toInt_lt
  unfold Task.due dueTime
  omega

lemma filter_delayed {l : List Task} (h : ∀ t ∈ l, t.defferredTimeMs ≠ 0) :
    l.filter delayed = l :=
  List.filter_eq_self.mpr fun t ht => by simpa [delayed] using h t ht

lemma filter_immediate (h : Shape s) : s.tasks_.filter delayed = [] :=
  List.filter_eq_nil_iff.mpr fun t ht => by simp [delayed, h.immediate t ht]

/-- A step leaves the line as it is, or puts a task into it that comes in. -/
lemma line_effect (h : Shape s) (he : Effect s s') : line s' = line s ∨
    ∃ t, Pushes s s' t ∧ t.defferredTimeMs ≠ 0 := by
  cases he with
  | still e => exact Or.inl (by rw [line, e.executed, e.collected, e.defferred, line])
  | collects hw e =>
    left
    obtain ⟨l, hc, hd, -⟩ := e.due
    have hl : l.filter delayed = l := filter_delayed fun t ht =>
      h.defferred_ne (hd ▸ List.mem_append_left _ ht)
    rw [line, e.executed, hc, line, e.empty, hd]
    simp [filter_immediate h, hl]
  | calls t hc e =>
    left
    rcases e.next with ⟨h₁, h₂⟩ | ⟨h₁, h₂, h₃, -⟩
    · rw [line, e.executed, h₂, line, h₁]
      simp
    · have ht : delayed t = true := by
        simpa [delayed] using h.defferred_ne (t := t) (by rw [h₃]; simp)
      rw [line, e.executed, h₂, line, h₁, h₃]
      simp [ht]
  | pushes t e =>
    by_cases h0 : t.defferredTimeMs = 0
    · exact Or.inl (by rw [line, e.executed, e.collected, (e.immediate h0).2, line])
    · exact Or.inr ⟨t, e, h0⟩

lemma mem_added (h : Once s) {t : Task} (ht : t ∈ line s) : t ∈ s.hist.added := by
  refine h.perm.mem_iff.mpr ?_
  rcases List.mem_append.mp ht with ht | ht
  · rw [← List.append_assoc]
    exact List.mem_append_left _ (List.mem_of_mem_filter ht)
  · simp [ht]

/-- A task that comes in goes to its place in the line. -/
lemma Due.push (h : Due s) (hw : flushing s.worker = false) {t : Task} (e : Pushes s s' t)
    (h0 : t.defferredTimeMs ≠ 0) (hd : 0 ≤ t.defferredTimeMs.toInt) :
    (line s').Pairwise Earlier := by
  obtain ⟨-, l₁, l₂, h₁, h₂, hle, hlt⟩ := e.late h0
  have hline : line s = ((s.hist.executed ++ collected s).filter delayed ++ l₁) ++ l₂ := by
    rw [line, h₁, List.append_assoc]
  have hline' : line s' =
      ((s.hist.executed ++ collected s).filter delayed ++ l₁) ++ t :: l₂ := by
    rw [line, e.executed, e.collected, h₂, List.append_assoc]
  have hkey : (t.due : ℤ) = dueTime t := key_eq (e.addedAt ▸ h.clock) hd
  have hadded := fun u (hu : u ∈ line s) => mem_added h.once hu
  have hnow : (s.clock : ℤ) < dueTime t := by
    have hpos : t.defferredTimeMs.toInt ≠ 0 := fun hz => h0 (Int32.toInt_inj.mp hz)
    unfold dueTime
    rw [e.addedAt]
    omega
  have horder := h.order (by rintro hw'; rw [hw'] at hw; cases hw)
  rw [hline] at horder hadded
  rw [hline']
  obtain ⟨ho₁, ho₂, ho₁₂⟩ := List.pairwise_append.mp horder
  refine List.pairwise_append.mpr ⟨ho₁, List.pairwise_cons.mpr ⟨fun u hu => Or.inl ?_, ho₂⟩,
    fun u hu v hv => ?_⟩
  · have := h.key u (hadded u (List.mem_append_right _ hu))
    have := hlt u hu
    omega
  · rcases List.mem_cons.mp hv with rfl | hv
    · have hadd := hadded u (List.mem_append_left _ hu)
      rcases List.mem_append.mp hu with hu | hu
      · exact Or.inl (Int.lt_of_le_of_lt (h.reached hw u hu) hnow)
      · have hk := h.key u hadd
        rcases Nat.lt_or_eq_of_le (hle u hu) with hlt | heq
        · exact Or.inl (by omega)
        · exact Or.inr ⟨by omega, e.seq ▸ h.once.seq_lt hadd⟩
    · exact ho₁₂ u hu v hv

lemma flushing_free {w : Worker} (h : holds w = false) (hw : w ≠ .ended) :
    flushing w = false := by
  cases w <;> simp_all [holds, flushing]

/-- What the effect of a step leaves of the order. -/
lemma Due.effect (h : Due s) (he : Effect s s') (h' : Once s')
    (hclock : s.clock ≤ s'.clock ∧ s'.clock < 2 ^ 63) (hdelays : ∀ d ∈ s'.adding, 0 ≤ d.toInt)
    (hpush : ∀ t, Pushes s s' t → 0 ≤ t.defferredTimeMs.toInt)
    (hended : s'.worker ≠ .ended → s.worker ≠ .ended)
    (hflush : flushing s'.worker = false → flushing s.worker = false) : Due s' := by
  have hshape := h.once.shape
  have hline := line_effect hshape he
  have hle : (s.clock : ℤ) ≤ s'.clock := by exact_mod_cast hclock.1
  refine ⟨h', hclock.2, hdelays, fun t ht => ?_, fun hw => ?_, ?_, fun hw t ht => ?_⟩
  · cases he with
    | still e => exact h.key t (e.added ▸ ht)
    | collects hw e => exact h.key t (e.added ▸ ht)
    | calls u hc e => exact h.key t (e.added ▸ ht)
    | pushes u e =>
      rw [e.added] at ht
      rcases List.mem_append.mp ht with ht | ht
      · exact h.key t ht
      · rw [List.mem_singleton.mp ht]
        exact key_eq (e.addedAt ▸ h.clock) (hpush u e)
  · rcases hline with hl | ⟨t, e, h0⟩
    · exact hl ▸ h.order (hended hw)
    · have hfree : holds s.worker = false := hshape.mutex.symm.trans e.free
      exact h.push (flushing_free hfree (hended hw)) e h0 (hpush t e)
  · cases he with
    | still e => exact e.executed ▸ h.executed
    | collects hw e => exact e.executed ▸ h.executed
    | pushes u e => exact e.executed ▸ h.executed
    | calls u hc e =>
      have hw : s.worker ≠ .ended := fun hw => by simp [calls, hw] at hc
      have hl : line s' = line s := by
        rcases hline with hl | ⟨t, e', -⟩
        · exact hl
        · have := congrArg List.length (e.added.symm.trans e'.added)
          simp at this
      refine (hl ▸ h.order hw).sublist ?_
      rw [line, List.filter_append, List.append_assoc]
      exact List.sublist_append_left _ _
  · have hreached := h.reached (hflush hw)
    cases he with
    | still e =>
      rw [e.executed, e.collected] at ht
      exact Int.le_trans (hreached t ht) hle
    | collects hw e =>
      obtain ⟨l, hc, hd, hdue⟩ := e.due
      rw [e.executed, hc, ← List.append_assoc, List.filter_append, List.filter_append,
        filter_immediate hshape, List.append_nil] at ht
      rcases List.mem_append.mp ht with ht | ht
      · exact Int.le_trans (hreached t (by rw [e.empty, List.append_nil]; exact ht)) hle
      · have hl : t ∈ l := List.mem_of_mem_filter ht
        have hk := h.key t (mem_added h.once (by rw [line, hd]; simp [hl]))
        have := hdue t hl
        omega
    | calls u hc e =>
      rcases e.next with ⟨h₁, -⟩ | ⟨-, -, -, iter, hw'⟩
      · refine Int.le_trans (hreached t ?_) hle
        rw [h₁]
        rw [e.executed, List.append_assoc, List.singleton_append] at ht
        exact ht
      · have := hflush hw
        rw [hw'] at this
        cases this
    | pushes u e =>
      rw [e.executed, e.collected] at ht
      exact Int.le_trans (hreached t ht) hle

lemma piece_flushing (hp : Piece s s') : s.worker ≠ .ended ∧
    (flushing s'.worker = false → flushing s.worker = false) ∧ s'.adding = s.adding ∧
    s'.hist.added = s.hist.added := by
  cases hp with
  | collect hw =>
    refine ⟨by rw [hw]; nofun, fun _ => by rw [hw]; rfl, ?_, collect_keeps.2.1⟩
    unfold State.collect State.appendExpiredTasks_
    by_cases ht : s.tasks_ = [] <;> by_cases hd : s.defferredTasks_.entries = [] <;> simp [ht, hd]
  | clear hw | defferred hw | defferredDone hw | unlock hw =>
    exact ⟨by rw [hw]; nofun, nofun, rfl, rfl⟩
  | lock hw | sleep hw | ready hw | wake hw | leave hw | stay hw | again hw | call hw | done hw
  | final hw | flushed hw | flush hw | flushDone hw =>
    exact ⟨by rw [hw]; nofun, fun _ => by rw [hw]; rfl, rfl, rfl⟩

/-- **Every step keeps the order**, with a clock that does not go back. -/
theorem Due.step (h : Due s) (hok : Steady s a) (hs : TaskModel.step s a = some s') : Due s' := by
  have h' := h.once.step hs
  have he := step_effect h.once.shape hs
  have hno : ∀ t, s'.hist.added = s.hist.added → Pushes s s' t →
      0 ≤ t.defferredTimeMs.toInt := fun t hadd e => by
    have := congrArg List.length (hadd.symm.trans e.added)
    simp at this
  cases a with
  | start =>
    obtain ⟨hw, rfl⟩ := start_some hs
    exact h.effect he h' ⟨le_rfl, h.clock⟩ h.delays (fun t => hno t rfl)
      (fun _ => by rw [hw]; nofun) (fun _ => by rw [hw]; rfl)
  | increment d =>
    cases hs
    refine h.effect he h' ⟨le_rfl, h.clock⟩ (fun d' hd' => ?_) (fun t => hno t rfl) id id
    rcases List.mem_append.mp hd' with hd' | hd'
    · exact h.delays d' hd'
    · rw [List.mem_singleton.mp hd']
      exact hok
  | push i =>
    obtain ⟨u, e, hd, -⟩ := push_step h.once.shape hs
    have hu : 0 ≤ u.defferredTimeMs.toInt := h.delays _ (List.mem_of_getElem? hd)
    obtain ⟨d, -, -, hs'⟩ := push_some hs
    have hkeep : s'.clock = s.clock ∧ s'.adding = s.adding.eraseIdx i := by
      rw [hs']
      unfold State.push
      by_cases hd : d = 0 <;> simp [hd]
    refine h.effect he h' ⟨hkeep.1.ge, hkeep.1 ▸ h.clock⟩ (fun d' hd' => ?_) (fun t e' => ?_)
      (e.worker ▸ id) (e.worker ▸ id)
    · rw [hkeep.2] at hd'
      exact h.delays d' (List.mem_of_mem_eraseIdx hd')
    · have htu := e.added.symm.trans e'.added
      rw [List.append_cancel_left_eq, List.cons.injEq] at htu
      exact htu.1 ▸ hu
  | stop =>
    obtain ⟨-, rfl⟩ := stop_some hs
    exact h.effect he h' ⟨le_rfl, h.clock⟩ h.delays (fun t => hno t rfl) id id
  | clock t =>
    obtain ⟨ht, rfl⟩ := clock_some hs
    exact h.effect he h' ⟨hok, ht⟩ h.delays (fun t => hno t rfl) id id
  | worker =>
    have hp := piece_of_step hs
    obtain ⟨hw, hflush, hadding, hadded⟩ := piece_flushing hp
    have hclock := (piece_keeps hp).2.2.2
    exact h.effect he h' ⟨hclock.ge, hclock ▸ h.clock⟩ (hadding ▸ h.delays)
      (fun t => hno t hadded) (fun _ => hw) hflush

lemma due_init (rm : ReleaseMode) : Due (init rm) :=
  ⟨once_init rm, Nat.two_pow_pos 63, nofun, nofun,
    fun _ => by simp [line, init, collected, defferred, Ordered.Multimap.empty], by simp [init],
    fun _ => by simp [init, collected]⟩

lemma Due.calls (h : Due s) {t : Task} (hc : calls s = some t) (h0 : t.defferredTimeMs ≠ 0)
    (hw : ∀ iter, s.worker ≠ .flushDefferred iter false) : dueTime t ≤ s.clock := by
  have hd : delayed t = true := by simpa [delayed] using h0
  have hmem : ∀ {c}, (c = Worker.run false ∨ c = .flush false) → s.worker = c →
      s.collectTasks.head? = some t → t ∈ (s.hist.executed ++ collected s).filter delayed := by
    rintro c hc hw ht
    refine List.mem_filter.mpr ⟨List.mem_append_right _ ?_, hd⟩
    rcases hc with rfl | rfl <;> simpa [collected, hw] using List.mem_of_mem_head? ht
  unfold TaskModel.calls at hc
  split at hc
  · next hw' => exact h.reached (by rw [hw']; rfl) t (hmem (Or.inl rfl) hw' hc)
  · next hw' => exact h.reached (by rw [hw']; rfl) t (hmem (Or.inr rfl) hw' hc)
  · next iter hw' => exact absurd hw' (hw iter)
  · cases hc

end Due

/-- **Deferred tasks respect their due times.** With a clock that does not go back and delays
that are not negative, a deferred task is called when the clock has reached its due time, the
flush of the deferred tasks apart, and the deferred tasks executed are in the order of their
due times, those with the same due time in the order they were added in. -/
theorem executed_when_due (rm : ReleaseMode) {acts : List Act} {s : State}
    (hok : Runs.Along step Steady (init rm) acts) (h : run rm acts = some s) :
    (∀ t, calls s = some t → t.defferredTimeMs ≠ 0 →
        (∀ iter, s.worker ≠ .flushDefferred iter false) → dueTime t ≤ s.clock) ∧
      (s.hist.executed.filter delayed).Pairwise Earlier := by
  have hdue : Due s :=
    Runs.exec_invariant (fun _ _ _ hd hok hs => hd.step hok hs) (due_init rm) hok h
  exact ⟨fun t ht h0 hw => hdue.calls ht h0 hw, hdue.executed⟩

/-- Two deferred tasks, the second one due first. -/
def twoDeferred : List Act :=
  [.start, .increment 5, .push 0, .increment 3, .push 0, .clock 4] ++ List.replicate 7 .worker ++
    [.clock 6] ++ List.replicate 8 .worker

theorem executed_when_due_two :
    ∃ s, run .asap twoDeferred = some s ∧
      s.hist.executed = [⟨1, 3, 0⟩, ⟨0, 5, 0⟩] ∧
      (s.hist.executed.filter delayed).Pairwise Earlier :=
  ⟨_, rfl, by decide, (executed_when_due .asap
    (show Runs.Along step Steady (init .asap) twoDeferred by decide) rfl).2⟩

end Libchef.TaskDue
