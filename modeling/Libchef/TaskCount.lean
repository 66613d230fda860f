import Libchef.TaskOnce

/-!
The count of undone tasks.

It is changed outside the mutex when a task is added, and by the worker after each call. A task
stays in its container until the worker has counted it as done, and the deferred tasks of the
final flush stay in theirs until all of them have been.
-/

namespace Libchef.TaskCount

open Libchef.Ordered Libchef.TaskModel Libchef.TaskSteps Libchef.TaskOnce

variable {s s' : State} {a : Act}

/-- The deferred tasks that the worker has not counted as done. -/
def later (s : State) : ℕ :=
  match s.worker with
  | .flushDefferred iter _ => iter.length
  | _ => s.defferredTasks_.entries.length

/-- The calls of `add` between their increment and their push, the tasks in `tasks_`, the
deferred tasks and the collected ones, those not counted as done among them. -/
def undone (s : State) : ℕ :=
  s.adding.length + s.tasks_.length + later s + s.collectTasks.length

/-- The next piece of the worker counts a task as done. -/
def countsDown : Worker → Bool
  | .run c | .flush c => c
  | .flushDefferred iter c => c && !iter.isEmpty
  | _ => false

/-- The tasks never executed, those among them whose `add` is not over yet. -/
def neverExecuted (s : State) : ℕ :=
  s.adding.length + (s.hist.added.filter (· ∉ s.hist.executed)).length

/-- What is counted, and that a call of a collected task was one of the task in front. -/
structure Counted (s : State) : Prop where
  count : s.numOfUndoneTask_ = UInt64.ofNat (undone s)
  front : s.worker = .run true ∨ s.worker = .flush true → s.collectTasks ≠ []

lemma countsDown_pos (h : Counted s) (hc : countsDown s.worker = true) : 0 < undone s := by
  have hfront (hw : s.worker = .run true ∨ s.worker = .flush true) : 0 < undone s := by
    have := List.length_pos_iff.mpr (h.front hw)
    unfold undone
    omega
  cases hw : s.worker with
  | run c =>
    rw [hw] at hc
    exact hfront (Or.inl (hw.trans (congrArg _ hc)))
  | flush c =>
    rw [hw] at hc
    exact hfront (Or.inr (hw.trans (congrArg _ hc)))
  | flushDefferred iter c =>
    rw [hw] at hc
    have hne : iter ≠ [] := by
      rintro rfl
      simp [countsDown] at hc
    have := List.length_pos_iff.mpr hne
    simp only [undone, later, hw]
    omega
  | _ =>
    rw [hw] at hc
    cases hc

lemma Counted.same (h : Counted s) (hn : s'.numOfUndoneTask_ = s.numOfUndoneTask_)
    (hu : undone s' = undone s)
    (hf : s'.worker = .run true ∨ s'.worker = .flush true → s'.collectTasks ≠ []) : Counted s' :=
  ⟨by rw [hn, hu, h.count], hf⟩

lemma Counted.down (h : Counted s) (hn : s'.numOfUndoneTask_ = s.numOfUndoneTask_ - 1)
    (hu : undone s = undone s' + 1)
    (hf : s'.worker = .run true ∨ s'.worker = .flush true → s'.collectTasks ≠ []) :
    Counted s' := by
  refine ⟨?_, hf⟩
  rw [hn, h.count, hu, UInt64.ofNat_add]
  simp

lemma collect_counts : s.collect.adding = s.adding ∧
    s.collect.numOfUndoneTask_ = s.numOfUndoneTask_ := by
  unfold State.collect State.appendExpiredTasks_
  by_cases ht : s.tasks_ = [] <;> by_cases hd : s.defferredTasks_.entries = [] <;> simp [ht, hd]

lemma undone_collect (hw : s.worker = .collect) (hc : s.collectTasks = []) :
    undone { s.collect with worker := .check } = undone s := by
  obtain ⟨l, hl, hd, -⟩ := collect_split hc
  have ht := collect_tasks hc
  simp only [undone, later, hw, collect_counts.1, ht, hl, hd, hc, List.length_append,
    List.length_map, List.length_nil]
  omega

lemma Counted.pop (h : Counted s) {next : Worker} (hw : s.worker = .run true ∧ next = .run false ∨
    s.worker = .flush true ∧ next = .flush false) : Counted (s.pop next) := by
  have hpos := List.length_pos_iff.mpr (h.front (hw.imp And.left And.left))
  have hlater : later (s.pop next) = later s := by
    rcases hw with ⟨hw, rfl⟩ | ⟨hw, rfl⟩ <;> simp only [later, hw, State.pop]
  refine h.down rfl ?_ (by rcases hw with ⟨-, rfl⟩ | ⟨-, rfl⟩ <;> simp [State.pop])
  rw [undone, undone, hlater]
  simp only [State.pop, List.length_tail]
  omega

lemma Counted.call (h : Counted s) {t : Task} {next : Worker}
    (hl : later { s with worker := next } = later s)
    (hf : next = .run true ∨ next = .flush true → s.collectTasks ≠ []) :
    Counted (s.call t next) :=
  h.same rfl (by rw [undone, undone, ← hl]; rfl) hf

/-- **Every piece of the worker keeps the count.** -/
theorem Counted.piece (h : Counted s) (hs : Shape s) (hp : Piece s s') : Counted s' := by
  have hl := hs.here
  unfold Local at hl
  cases hp with
  | collect hw =>
    rw [hw] at hl
    exact h.same collect_counts.2 (undone_collect hw hl.2) (by simp)
  | done hw => exact h.pop (Or.inl ⟨hw, rfl⟩)
  | flushDone hw => exact h.pop (Or.inr ⟨hw, rfl⟩)
  | defferredDone hw =>
    refine h.down rfl ?_ (by simp)
    simp only [undone, later, hw, List.length_cons]
    omega
  | clear hw => exact h.same rfl (by simp [undone, later, hw, Multimap.empty]) (by simp)
  | flushed hw hc =>
    refine h.same rfl ?_ ?_ <;>
      unfold State.afterFlush <;> cases s.releaseMode_ <;> simp [undone, later, hw]
  | final hw hm =>
    refine h.same rfl ?_ ?_ <;>
      unfold State.final <;> cases s.releaseMode_ <;> simp [undone, later, hw]
  | wake hw hm next hn =>
    rcases hn with rfl | rfl <;> exact h.same rfl (by simp [undone, later, hw]) (by simp)
  | call hw hc | flush hw hc => exact h.call (by simp only [later, hw]) (by simp [hc])
  | defferred hw => exact h.call (by simp only [later, hw]) (by simp)
  | _ hw => exact h.same rfl (by simp [undone, later, hw, State.unlock]) (by simp [State.unlock])

lemma later_of_free (hs : Shape s) (hm : s.mutex_ = false) :
    later s = s.defferredTasks_.entries.length := by
  rw [hs.mutex] at hm
  unfold later
  cases hw : s.worker with
  | flushDefferred iter c =>
    rw [hw] at hm
    cases hm
  | _ => rfl

lemma undone_push (hs : Shape s) (hm : s.mutex_ = false) (d : Int32) :
    undone (s.push d) = undone s + 1 ∧ (s.push d).numOfUndoneTask_ = s.numOfUndoneTask_ ∧
      (s.push d).worker = s.worker ∧ (s.push d).collectTasks = s.collectTasks := by
  have hs' := hs.push hm d
  have hlater := later_of_free hs hm
  unfold State.push at hs' ⊢
  by_cases hd : d = 0
  · simp only [hd, if_true] at hs' ⊢
    refine ⟨?_, trivial, trivial, trivial⟩
    have hlater' := later_of_free hs' hm
    simp only [undone, hlater, hlater', List.length_append, List.length_singleton]
    omega
  · simp only [hd, if_false] at hs' ⊢
    refine ⟨?_, trivial, trivial, trivial⟩
    have hlater' := later_of_free hs' hm
    simp only [undone, hlater, hlater', (Multimap.insert_perm _).length_eq, List.length_cons]
    omega

/-- **Every step keeps the count.** -/
theorem Counted.step (h : Counted s) (hs : Shape s) (e : TaskModel.step s a = some s') :
    Counted s' := by
  cases a with
  | start =>
    obtain ⟨hw, rfl⟩ := start_some e
    exact h.same rfl (by simp [undone, later, hw]) (by simp)
  | increment d =>
    cases e
    refine ⟨?_, h.front⟩
    have hu : undone { s with
        numOfUndoneTask_ := s.numOfUndoneTask_ + 1
        adding := s.adding ++ [d] } = undone s + 1 := by
      simp only [undone, later, List.length_append, List.length_singleton]
      omega
    rw [hu, h.count, UInt64.ofNat_add]
    rfl
  | push i =>
    obtain ⟨d, hd, hm, rfl⟩ := push_some e
    have hs' : Shape { s with adding := s.adding.eraseIdx i } := ⟨hs.here, hs.immediate, hs.keys⟩
    obtain ⟨hu, hn, hw, hc⟩ := undone_push hs' hm d
    have hlt := (List.getElem?_eq_some_iff.mp hd).1
    refine h.same hn (hu.trans ?_) (by rw [hw, hc]; exact h.front)
    simp only [undone, later, List.length_eraseIdx_of_lt hlt]
    omega
  | stop =>
    obtain ⟨-, rfl⟩ := stop_some e
    exact h.same rfl rfl h.front
  | clock t =>
    obtain ⟨-, rfl⟩ := clock_some e
    exact h.same rfl rfl h.front
  | worker => exact h.piece hs (piece_of_step e)

lemma counted_init (rm : ReleaseMode) : Counted (init rm) := ⟨rfl, by simp [init]⟩

lemma run_counted {rm : ReleaseMode} {acts : List Act} (e : run rm acts = some s) :
    Counted s ∧ Once s :=
  Runs.exec_invariant' (P := fun s => Counted s ∧ Once s)
    (fun _ _ _ h hs => ⟨h.1.step h.2.shape hs, h.2.step hs⟩) ⟨counted_init rm, once_init rm⟩ e

lemma filter_notMem_append {l l' : List Task} (h : (l ++ l').Nodup) :
    (l ++ l').filter (· ∉ l) = l' := by
  obtain ⟨-, -, hne⟩ := List.nodup_append.mp h
  rw [List.filter_append, List.filter_eq_nil_iff.mpr (by simp), List.nil_append,
    List.filter_eq_self.mpr fun t ht => by simpa using fun hm => hne t hm t ht rfl]

/-- The tasks that are left in the containers are those never executed. -/
lemma undone_ended (h : Once s) (hw : s.worker = .ended) : undone s = neverExecuted s := by
  have hperm := h.perm
  simp only [collected, defferred, hw] at hperm
  have hlen := (hperm.filter (· ∉ s.hist.executed)).length_eq
  rw [filter_notMem_append (hperm.nodup_iff.mp h.nodup)] at hlen
  simp only [undone, later, hw, neverExecuted, hlen, List.length_append, List.length_map]
  omega

/-- **The count is exact.** After any steps of adding threads and the worker, in every release
mode, `num_of_undone_task_` is the number of undone tasks; there is one wherever the worker
counts one as done; and once the worker has ended these are the tasks never executed. -/
theorem undone_exact {rm : ReleaseMode} {acts : List Act} (e : run rm acts = some s) :
    s.numOfUndoneTask_ = UInt64.ofNat (undone s) ∧
      (countsDown s.worker = true → 0 < undone s) ∧
      (s.worker = .ended → s.numOfUndoneTask_ = UInt64.ofNat (neverExecuted s)) := by
  obtain ⟨h, ho⟩ := run_counted e
  refine ⟨h.count, countsDown_pos h, fun hw => ?_⟩
  rw [h.count, undone_ended ho hw]

/-- A deferred task that the final flush executes. -/
def lastTask : List Act :=
  [.start, .increment 5, .push 0, .stop] ++ List.replicate 8 .worker

theorem undone_exact_last : ∃ s, run .doAllDone lastTask = some s ∧
    s.numOfUndoneTask_ = UInt64.ofNat (undone s) ∧
      (countsDown s.worker = true → 0 < undone s) ∧
      (s.worker = .ended → s.numOfUndoneTask_ = UInt64.ofNat (neverExecuted s)) :=
  ⟨_, rfl, undone_exact (show run .doAllDone lastTask = some _ from rfl)⟩

/-- It is still in `defferred_tasks_` when it is counted as done. -/
theorem counted_before_clear : ∃ s, run .doAllDone lastTask = some s ∧
    s.numOfUndoneTask_ ≠ UInt64.ofNat (s.adding.length + s.tasks_.length +
      s.defferredTasks_.entries.length + s.collectTasks.length) :=
  ⟨_, rfl, by decide⟩

end Libchef.TaskCount
