import Libchef.TaskCount
import Libchef.TaskShutdown

/-!
The worker of a task thread comes to its end.

Once the exit flag is stored, every piece of the worker brings it nearer to its end, whatever the
adding threads do between them. Only the tasks that are added late make the way longer, and the
worker can always go on. So `stop_and_join` returns.

Tasks are taken to return, and not to call `add` on their own task thread: one that is executed in
the final critical section and does so waits for ever for the mutex that the worker holds.
-/

namespace Libchef.TaskStop

open Libchef.Ordered Libchef.TaskModel Libchef.TaskSteps Libchef.TaskOnce Libchef.TaskCount
open Libchef.TaskShutdown

variable {s s' : State} {a : Act}

/-- How many pieces come after this one at the least, with no task left. -/
def stage : Worker → ℕ
  | .idle | .run _ => 9
  | .top | .wait => 8
  | .test => 7
  | .collect => 6
  | .check => 5
  | .leave => 4
  | .flush _ => 3
  | .flushDefferred _ _ => 2
  | .release => 1
  | .ended => 0

/-- How many pieces the worker has before it: two for each undone task, or one where the task has
been called. -/
def rank (s : State) : ℕ :=
  stage s.worker + 2 * undone s - if countsDown s.worker then 1 else 0

lemma rank_move (hu : undone s' = undone s) (hs : stage s'.worker < stage s.worker)
    (hc : countsDown s.worker = false) : rank s' + 1 ≤ rank s := by
  rw [rank, rank, hu, hc]
  simp only [Bool.false_eq_true, if_false]
  omega

lemma rank_call (hu : undone s' = undone s) (hs : stage s'.worker = stage s.worker)
    (hpos : 0 < stage s.worker) (hc : countsDown s.worker = false)
    (hc' : countsDown s'.worker = true) : rank s' + 1 ≤ rank s := by
  rw [rank, rank, hu, hs, hc, hc']
  simp only [Bool.false_eq_true, if_false, if_true]
  omega

lemma rank_done (hu : undone s = undone s' + 1) (hs : stage s'.worker = stage s.worker)
    (hc' : countsDown s'.worker = false) : rank s' + 1 ≤ rank s := by
  rw [rank, rank, hu, hs, hc']
  simp only [Bool.false_eq_true, if_false]
  split_ifs <;> omega

lemma undone_pop (h : Counted s) {next : Worker} (hw : s.worker = .run true ∧ next = .run false ∨
    s.worker = .flush true ∧ next = .flush false) : undone s = undone (s.pop next) + 1 := by
  have hpos := List.length_pos_iff.mpr (h.front (hw.imp And.left And.left))
  have hlater : later (s.pop next) = later s := by
    rcases hw with ⟨hw, rfl⟩ | ⟨hw, rfl⟩ <;> simp only [later, hw, State.pop]
  rw [undone, undone, hlater]
  simp only [State.pop, List.length_tail]
  omega

/-- **Every piece brings the worker nearer to its end**, once the exit flag is stored. -/
theorem piece_rank (h : Counted s) (hs : Shape s) (he : s.exitFlag_ = true) (hp : Piece s s') :
    rank s' + 1 ≤ rank s := by
  cases hp with
  | sleep hw he' | stay hw he' => exact absurd (he.symm.trans he') (by decide)
  | collect hw =>
    have hl := hs.here
    unfold Local at hl
    rw [hw] at hl
    exact rank_move (undone_collect hw hl.2) (by simp [stage, hw]) (by simp [countsDown, hw])
  | done hw =>
    exact rank_done (undone_pop h (Or.inl ⟨hw, rfl⟩)) (by simp [stage, hw, State.pop]) rfl
  | flushDone hw =>
    exact rank_done (undone_pop h (Or.inr ⟨hw, rfl⟩)) (by simp [stage, hw, State.pop]) rfl
  | defferredDone hw =>
    refine rank_done ?_ (by simp [stage, hw]) rfl
    simp only [undone, later, hw, List.length_cons]
    omega
  | call hw hc | flush hw hc | defferred hw =>
    exact rank_call (by simp only [undone, later, hw, State.call])
      (by simp [stage, hw, State.call]) (by simp [stage, hw]) (by simp [countsDown, hw]) rfl
  | clear hw =>
    exact rank_move (by simp [undone, later, hw, Multimap.empty]) (by simp [stage, hw])
      (by simp [countsDown, hw])
  | wake hw hm next hn =>
    rcases hn with rfl | rfl <;>
      exact rank_move (by simp [undone, later, hw]) (by simp [stage, hw])
        (by simp [countsDown, hw])
  | final hw hm =>
    refine rank_move ?_ ?_ (by simp [countsDown, hw]) <;>
      unfold State.final <;> cases s.releaseMode_ <;> simp [undone, later, stage, hw]
  | flushed hw hc =>
    refine rank_move ?_ ?_ (by simp [countsDown, hw]) <;>
      unfold State.afterFlush <;> cases s.releaseMode_ <;> simp [undone, later, stage, hw]
  | _ hw =>
    exact rank_move (by simp [undone, later, hw, State.unlock])
      (by simp [stage, hw, State.unlock]) (by simp [countsDown, hw])

/-! ### Every step -/

/-- The worker has been started and the exit flag is stored. -/
structure Stopping (s : State) : Prop where
  counted : Counted s
  once : Once s
  exit : s.exitFlag_ = true
  started : s.worker ≠ .idle

def isIncrement : Act → Bool
  | .increment _ => true
  | _ => false

lemma piece_started (hp : Piece s s') : s'.worker ≠ .idle := by
  cases hp with
  | wake hw hm next hn => rcases hn with rfl | rfl <;> simp
  | final hw => unfold State.final; cases s.releaseMode_ <;> simp
  | flushed hw => unfold State.afterFlush; cases s.releaseMode_ <;> simp
  | _ => simp [State.unlock, State.call, State.pop]

lemma undone_increment {d : Int32} (hs : step s (.increment d) = some s') :
    undone s' = undone s + 1 ∧ s'.worker = s.worker ∧ s'.exitFlag_ = s.exitFlag_ := by
  cases hs
  refine ⟨?_, rfl, rfl⟩
  simp only [undone, later, List.length_append, List.length_singleton]
  omega

lemma undone_of_push {i : ℕ} (h : Shape s) (hs : step s (.push i) = some s') :
    undone s' = undone s ∧ s'.worker = s.worker := by
  obtain ⟨d, hd, hm, rfl⟩ := push_some hs
  have hsh : Shape { s with adding := s.adding.eraseIdx i } := ⟨h.here, h.immediate, h.keys⟩
  obtain ⟨hu, -, hw, -⟩ := undone_push hsh hm d
  have hlt := (List.getElem?_eq_some_iff.mp hd).1
  refine ⟨hu.trans ?_, hw⟩
  simp only [undone, later, List.length_eraseIdx_of_lt hlt]
  omega

/-- **A step of whatever thread.** A task that is added later makes two pieces more. -/
theorem step_rank (h : Stopping s) (hs : step s a = some s') :
    Stopping s' ∧ rank s' + (if a == .worker then 1 else 0) ≤
      rank s + 2 * if isIncrement a then 1 else 0 := by
  have hc := h.counted.step h.once.shape hs
  have ho := h.once.step hs
  cases a with
  | start => exact absurd (start_some hs).1 h.started
  | stop => exact absurd (h.exit.symm.trans (stop_some hs).1) (by decide)
  | increment d =>
    obtain ⟨hu, hw, hexit⟩ := undone_increment hs
    refine ⟨⟨hc, ho, hexit.trans h.exit, hw ▸ h.started⟩, ?_⟩
    simp only [rank, hu, hw, isIncrement]
    simp
    omega
  | push i =>
    obtain ⟨hu, hw⟩ := undone_of_push h.once.shape hs
    obtain ⟨-, -, -, hexit, -⟩ := push_step h.once.shape hs
    refine ⟨⟨hc, ho, hexit.trans h.exit, hw ▸ h.started⟩, ?_⟩
    simp [rank, hu, hw, isIncrement]
  | clock t =>
    obtain ⟨-, rfl⟩ := clock_some hs
    exact ⟨⟨hc, ho, h.exit, h.started⟩, le_rfl⟩
  | worker =>
    have hp := piece_of_step hs
    refine ⟨⟨hc, ho, (piece_keeps hp).1.trans h.exit, piece_started hp⟩, ?_⟩
    simpa [isIncrement] using piece_rank h.counted h.once.shape h.exit hp

/-- The worker waits for nothing that another thread has to do. -/
lemma worker_enabled (h : Shape s) (hw : s.worker ≠ .idle) (hw' : s.worker ≠ .ended) :
    ∃ s', step s .worker = some s' := by
  have hm := h.mutex
  have hlock (next : Worker) (hf : holds s.worker = false) : ∃ s', s.lock next = some s' :=
    ⟨_, if_neg (by rw [hm, hf]; decide)⟩
  show ∃ s', s.workerStep = some s'
  unfold State.workerStep
  cases hw₀ : s.worker with
  | idle => exact absurd hw₀ hw
  | ended => exact absurd hw₀ hw'
  | top | wait => exact hlock _ (by rw [hw₀]; rfl)
  | leave =>
    obtain ⟨s', e⟩ := hlock s.final (by rw [hw₀]; rfl)
    exact ⟨_, Option.bind_eq_some_iff.mpr ⟨s', e, rfl⟩⟩
  | test =>
    simp only
    split_ifs <;> exact ⟨_, rfl⟩
  | run c | flush c => cases c <;> cases s.collectTasks <;> exact ⟨_, rfl⟩
  | flushDefferred iter c => cases iter <;> cases c <;> exact ⟨_, rfl⟩
  | collect | check | release => exact ⟨_, rfl⟩

/-- **`stop_and_join` returns**, if all tasks return and none of them calls `add`: every call of
`add` is one of another thread. From the store of the exit flag on, the worker makes at most two
pieces for each task then undone or added since, and nine more; and until it has ended it can make
its next one, whatever the adding threads do between. -/
theorem stop_and_join_returns {rm : ReleaseMode} {acts : List Act} (h : run rm acts = some s)
    (he : s.exitFlag_ = true) (hw : s.worker ≠ .idle) {rest : List Act}
    (e : Runs.exec step s rest = some s') :
    rest.count .worker ≤ 9 + 2 * (undone s + rest.countP isIncrement) ∧
      (s'.worker = .ended ∨ ∃ s'', step s' .worker = some s'') := by
  obtain ⟨hc, ho⟩ := run_counted h
  have hs : Stopping s := ⟨hc, ho, he, hw⟩
  have hs' : Stopping s' := Runs.exec_invariant' (P := Stopping)
    (fun _ _ _ h₁ e₁ => (step_rank h₁ e₁).1) hs e
  refine ⟨?_, ?_⟩
  · have hrank : rank s' + rest.countP (· == .worker) ≤
        rank s + 2 * rest.countP isIncrement :=
      Runs.exec_rank (P := Stopping) (fun _ _ _ h₁ e₁ => step_rank h₁ e₁) hs e
    have hfirst : rank s ≤ 9 + 2 * undone s := by
      have hstage : stage s.worker ≤ 9 := by cases s.worker <;> simp [stage]
      unfold rank
      omega
    rw [List.count]
    omega
  · by_cases hend : s'.worker = .ended
    · exact Or.inl hend
    · exact Or.inr (worker_enabled hs'.once.shape hs'.started hend)

/-- An immediate and a deferred task, both undone when the flag is stored. -/
theorem stop_and_join_returns_two :
    ∃ s, run .doAllDone [.start, .increment 5, .push 0, .increment 0, .push 0, .stop] = some s ∧
      s.exitFlag_ = true ∧ s.worker ≠ .idle ∧
      ∃ s', Runs.exec step s (.increment 0 :: List.replicate 12 .worker) = some s' ∧
        (.increment 0 :: List.replicate 12 Act.worker).count .worker ≤
          9 + 2 * (undone s + (.increment 0 :: List.replicate 12 Act.worker).countP isIncrement) ∧
        (s'.worker = .ended ∨ ∃ s'', step s' .worker = some s'') :=
  ⟨_, rfl, rfl, by decide, _, rfl, stop_and_join_returns
    (show run .doAllDone [.start, .increment 5, .push 0, .increment 0, .push 0, .stop] = some _
      from rfl) rfl (by decide) rfl⟩

end Libchef.TaskStop
