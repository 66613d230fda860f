import Libchef.PoolModel
import Mathlib.Data.List.Nodup

/-!
The tasks of a thread pool: how they are handed out, and how they are counted.

The queue is changed under the mutex only, so a task is taken by the one worker that finds it
at the head. The count of undone tasks is changed without the mutex, before a task is pushed
and after it has been executed, so it is ahead of the queue by the calls of `add` and by the
workers that are between the two.
-/

namespace Libchef.PoolTasks

open Libchef.Sync Libchef.PoolModel

variable {s s' : State} {a : Act}

/-- What is seen of a step: worker `i` takes a task, or counts one as done. -/
inductive Event
  | took (i : ℕ) (t : Task)
  | finished (i : ℕ)
  deriving DecidableEq

/-- What is seen of the next piece of a thread. -/
def pieceEvent (s : State) (i : ℕ) : Thread → Option Event
  | .take => s.tasks_.head?.map (.took i)
  | .done => some (.finished i)
  | _ => none

def event (s : State) : Act → Option Event
  | .piece i => s.monitor.threads[i]?.bind (pieceEvent s i)
  | _ => none

def events (numOfThread : UInt32) (acts : List Act) : List Event :=
  Runs.observe step event (init numOfThread) acts

/-- Which worker took which task. -/
def took : Event → Option (ℕ × Task)
  | .took i t => some (i, t)
  | .finished _ => none

def finished : Event → Bool
  | .took _ _ => false
  | .finished _ => true

/-- A call of `add` that has counted its task and not pushed it. -/
def adding : Thread → Bool
  | .lock _ | .push _ => true
  | _ => false

/-- A worker that has a task it has not counted as done. -/
def holding : Thread → Bool
  | .run (some _) | .done => true
  | _ => false

/-- The tasks counted and not pushed, those in the queue, and those taken and not counted as
done. -/
def undone (s : State) : ℕ :=
  s.monitor.threads.countP adding + s.tasks_.length + s.monitor.threads.countP holding

/-- Only callables are added. -/
def Callable : Act → Prop
  | .add c => c = true
  | _ => True

instance : DecidablePred Callable
  | .add c => inferInstanceAs (Decidable (c = true))
  | .start | .piece _ | .notifyOne _ _ | .spurious _ | .exit | .notifyAll => .isTrue trivial

/-- The task of a thread, if it has one, is a callable. -/
def sound : Thread → Bool
  | .run (some t) => t.callable
  | .add c | .lock c | .push c => c
  | _ => true

structure Sound (s : State) : Prop where
  tasks : ∀ t ∈ s.tasks_, t.callable = true
  threads : ∀ p ∈ s.monitor.threads, sound p = true

/-! ### What a step can do -/

/-- Threads go on, and nothing happens to tasks or their count. -/
structure Quiet (s s' : State) : Prop where
  tasks : s'.tasks_ = s.tasks_
  hist : s'.hist.pushed = s.hist.pushed ∧ s'.hist.taken = s.hist.taken
  num : s'.numOfUndoneTask_ = s.numOfUndoneTask_
  adding : s'.monitor.threads.countP adding = s.monitor.threads.countP adding
  holding : s'.monitor.threads.countP holding = s.monitor.threads.countP holding
  sound : ∀ p ∈ s'.monitor.threads, sound p = true

/-- Thread `i` goes from `t` to `u`. -/
structure Turn (s : State) (i : ℕ) (t u : Thread) (s' : State) : Prop where
  here : s.monitor.threads[i]? = some t
  threads : s'.monitor.threads = s.monitor.threads.set i u

/-- The steps as far as tasks go. -/
inductive Effect (s s' : State) : Option Event → Prop
  | quiet (h : Quiet s s') : Effect s s' none
  | take (i : ℕ) (t : Task) (l : List Task) (turn : Turn s i .take (.run (some t)) s')
      (queue : s.tasks_ = t :: l) (tasks : s'.tasks_ = l)
      (hist : s'.hist.pushed = s.hist.pushed ∧ s'.hist.taken = s.hist.taken ++ [t])
      (num : s'.numOfUndoneTask_ = s.numOfUndoneTask_) : Effect s s' (some (.took i t))
  | finish (i : ℕ) (turn : Turn s i .done .loop s') (tasks : s'.tasks_ = s.tasks_)
      (hist : s'.hist.pushed = s.hist.pushed ∧ s'.hist.taken = s.hist.taken)
      (num : s'.numOfUndoneTask_ = s.numOfUndoneTask_ - 1) : Effect s s' (some (.finished i))
  | count (i : ℕ) (turn : Turn s i (.add true) (.lock true) s') (tasks : s'.tasks_ = s.tasks_)
      (hist : s'.hist.pushed = s.hist.pushed ∧ s'.hist.taken = s.hist.taken)
      (num : s'.numOfUndoneTask_ = s.numOfUndoneTask_ + 1) : Effect s s' none
  | push (i : ℕ) (t : Task) (turn : Turn s i (.push true) .notify s')
      (seq : t = ⟨s.hist.pushed.length, true⟩) (tasks : s'.tasks_ = s.tasks_ ++ [t])
      (hist : s'.hist.pushed = s.hist.pushed ++ [t] ∧ s'.hist.taken = s.hist.taken)
      (num : s'.numOfUndoneTask_ = s.numOfUndoneTask_) : Effect s s' none

section Steps

variable {i : ℕ} {t u : Thread}

lemma Turn.sound (h : Turn s i t u s') (hs : Sound s) (hu : sound u = true) :
    ∀ p ∈ s'.monitor.threads, PoolTasks.sound p = true := by
  intro p hp
  rw [h.threads] at hp
  rcases List.mem_or_eq_of_mem_set hp with hp | rfl
  · exact hs.threads p hp
  · exact hu

lemma Turn.countP (h : Turn s i t u s') (f : Thread → Bool) :
    s'.monitor.threads.countP f + (f t).toNat = s.monitor.threads.countP f + (f u).toNat := by
  rw [h.threads]
  exact Monitor.countP_set f h.here

lemma Turn.quiet (h : Turn s i t u s') (hs : Sound s) (hu : PoolTasks.sound u = true)
    (ha : PoolTasks.adding u = PoolTasks.adding t)
    (hh : PoolTasks.holding u = PoolTasks.holding t) (htasks : s'.tasks_ = s.tasks_)
    (hhist : s'.hist.pushed = s.hist.pushed ∧ s'.hist.taken = s.hist.taken)
    (hnum : s'.numOfUndoneTask_ = s.numOfUndoneTask_) : Quiet s s' := by
  refine ⟨htasks, hhist, hnum, ?_, ?_, h.sound hs hu⟩
  · have := h.countP PoolTasks.adding
    rw [ha] at this
    exact Nat.add_right_cancel this
  · have := h.countP PoolTasks.holding
    rw [hh] at this
    exact Nat.add_right_cancel this

lemma acquire_quiet (hs : Sound s) (ht : s.monitor.threads[i]? = some t)
    (hu : sound u = true) (ha : adding u = adding t) (hh : holding u = holding t)
    (e : s.acquire i u = some s') : Quiet s s' := by
  obtain ⟨m, hm, rfl⟩ := Option.map_eq_some_iff.mp e
  obtain ⟨-, rfl⟩ := Monitor.acquire_some hm
  exact Turn.quiet (u := u) ⟨ht, rfl⟩ hs hu ha hh rfl ⟨rfl, rfl⟩ rfl

lemma wakeUp_quiet (hs : Sound s) {m : Monitor Thread} (h : s.monitor.wakeUp i = some m) :
    Quiet s { s with monitor := m } := by
  obtain ⟨p, hp, hb, rfl⟩ := Monitor.wakeUp_some h
  obtain rfl : p = .waiting := of_decide_eq_true hb
  exact Turn.quiet (u := .woken) ⟨hp, rfl⟩ hs rfl rfl rfl rfl ⟨rfl, rfl⟩ rfl

/-- **The pieces of the threads.** -/
theorem piece_effect (hs : Sound s) (ht : s.monitor.threads[i]? = some t)
    (e : s.piece i t = some s') : Effect s s' (pieceEvent s i t) := by
  cases t with
  | loop =>
    cases e
    refine .quiet (Turn.quiet ⟨ht, rfl⟩ hs ?_ ?_ ?_ rfl ⟨rfl, rfl⟩ rfl) <;>
      cases s.exitFlag_ <;> rfl
  | enter | woken => exact .quiet (acquire_quiet (u := .test) hs ht rfl rfl rfl e)
  | test =>
    cases e
    refine .quiet (Turn.quiet ⟨ht, rfl⟩ hs ?_ ?_ ?_ rfl ⟨rfl, rfl⟩ rfl) <;> split_ifs <;> rfl
  | sleep =>
    cases e
    exact .quiet (Turn.quiet (u := .waiting) ⟨ht, rfl⟩ hs rfl rfl rfl rfl ⟨rfl, rfl⟩ rfl)
  | take =>
    cases e
    unfold State.take pieceEvent
    cases hq : s.tasks_ with
    | nil =>
      exact .quiet (Turn.quiet (u := .run none) ⟨ht, rfl⟩ hs rfl rfl rfl rfl ⟨rfl, rfl⟩ rfl)
    | cons t l => exact .take i t l ⟨ht, rfl⟩ hq rfl ⟨rfl, rfl⟩ rfl
  | run t =>
    cases t with
    | none =>
      cases e
      exact .quiet (Turn.quiet (u := .loop) ⟨ht, rfl⟩ hs rfl rfl rfl rfl ⟨rfl, rfl⟩ rfl)
    | some t =>
      have hc : t.callable = true := hs.threads _ (List.mem_of_getElem? ht)
      simp only [State.piece, hc, if_true] at e
      cases e
      exact .quiet (Turn.quiet (u := .done) ⟨ht, rfl⟩ hs rfl rfl rfl rfl ⟨rfl, rfl⟩ rfl)
  | done =>
    cases e
    exact .finish i ⟨ht, rfl⟩ rfl ⟨rfl, rfl⟩ rfl
  | add c =>
    obtain rfl : c = true := hs.threads _ (List.mem_of_getElem? ht)
    cases e
    exact .count i ⟨ht, rfl⟩ rfl ⟨rfl, rfl⟩ rfl
  | lock c =>
    have hc : sound (.lock c) = true := hs.threads _ (List.mem_of_getElem? ht)
    exact .quiet (acquire_quiet (u := .push c) hs ht hc rfl rfl e)
  | push c =>
    obtain rfl : c = true := hs.threads _ (List.mem_of_getElem? ht)
    cases e
    exact .push i _ ⟨ht, rfl⟩ rfl rfl ⟨rfl, rfl⟩ rfl
  | leave =>
    cases e
    exact .quiet (Turn.quiet (u := .added) ⟨ht, rfl⟩ hs rfl rfl rfl rfl ⟨rfl, rfl⟩ rfl)
  | waiting | ended | notify | added => cases e

lemma notifyOne_quiet (hs : Sound s) {j : Option ℕ} {m : Monitor Thread}
    (ht : s.monitor.threads[i]? = some .notify)
    (h : (s.monitor.put i .leave).notifyOne j = some m) : Quiet s { s with monitor := m } := by
  have hput : Quiet s (s.put i .leave) :=
    Turn.quiet (u := .leave) ⟨ht, rfl⟩ hs rfl rfl rfl rfl ⟨rfl, rfl⟩ rfl
  rcases Monitor.notifyOne_some h with ⟨rfl, -⟩ | ⟨k, hk⟩
  · exact hput
  · have hs' : Sound (s.put i .leave) := ⟨hs.tasks, hput.sound⟩
    have hw := wakeUp_quiet hs' hk
    exact ⟨rfl, ⟨rfl, rfl⟩, rfl, hw.adding.trans hput.adding, hw.holding.trans hput.holding,
      hw.sound⟩

lemma notifyAll_quiet (hs : Sound s) (d : Destructor) :
    Quiet s { s with monitor := s.monitor.notifyAll, destructor := d } := by
  have hcount (f : Thread → Bool) (hf : f .woken = f .waiting) :
      s.monitor.notifyAll.threads.countP f = s.monitor.threads.countP f := by
    rw [Monitor.notifyAll, List.countP_map]
    refine List.countP_congr fun p _ => ?_
    rw [Function.comp_apply]
    split_ifs with hb
    · obtain rfl : p = .waiting := of_decide_eq_true hb
      rw [← hf]
      rfl
    · rfl
  refine ⟨rfl, ⟨rfl, rfl⟩, rfl, hcount _ rfl, hcount _ rfl, fun p hp => ?_⟩
  obtain ⟨q, hq, rfl⟩ := List.mem_map.mp hp
  split_ifs
  · rfl
  · exact hs.threads q hq

lemma spawn_quiet (hs : Sound s) {p : Thread} (hp : sound p = true) (ha : adding p = false)
    (hh : holding p = false) (n : ℕ) :
    Quiet s { s with monitor := s.monitor.spawn p, started := n } := by
  refine ⟨rfl, ⟨rfl, rfl⟩, rfl, ?_, ?_, fun q hq => ?_⟩
  · simp [Monitor.spawn, ha]
  · simp [Monitor.spawn, hh]
  · rcases List.mem_append.mp hq with hq | hq
    · exact hs.threads q hq
    · rwa [List.mem_singleton.mp hq]

/-- **What a step does to tasks.** -/
theorem step_effect (hs : Sound s) (ha : Callable a) (e : step s a = some s') :
    Effect s s' (event s a) := by
  cases a with
  | start =>
    simp only [step] at e
    split_ifs at e
    cases e
    exact .quiet (spawn_quiet hs rfl rfl rfl _)
  | add c =>
    cases e
    exact .quiet (spawn_quiet (p := .add c) hs ha rfl rfl s.started)
  | piece i =>
    obtain ⟨t, ht, e⟩ := Option.bind_eq_some_iff.mp e
    rw [event, ht]
    exact piece_effect hs ht e
  | notifyOne i j =>
    simp only [step] at e
    split_ifs at e with ht
    obtain ⟨m, hm, rfl⟩ := Option.map_eq_some_iff.mp e
    exact .quiet (notifyOne_quiet hs ht hm)
  | spurious j =>
    obtain ⟨m, hm, rfl⟩ := Option.map_eq_some_iff.mp e
    exact .quiet (wakeUp_quiet hs hm)
  | exit =>
    simp only [step] at e
    split_ifs at e
    cases e
    exact .quiet ⟨rfl, ⟨rfl, rfl⟩, rfl, rfl, rfl, hs.threads⟩
  | notifyAll =>
    simp only [step] at e
    split_ifs at e
    cases e
    exact .quiet (notifyAll_quiet hs _)

end Steps

/-! ### What a run comes to -/

/-- The tasks are handed out once each, in the order in which they were pushed, and counted. -/
structure HandedOut (s : State) (seen : List Event) : Prop where
  queue : s.hist.pushed = s.hist.taken ++ s.tasks_
  seq : s.hist.pushed.map Task.seq = List.range s.hist.pushed.length
  takers : (seen.filterMap took).map Prod.snd = s.hist.taken
  held : s.hist.taken.length = seen.countP finished + s.monitor.threads.countP holding
  count : s.numOfUndoneTask_ = UInt64.ofNat (undone s)

variable {seen : List Event}

/-- **One step.** -/
theorem HandedOut.step (h : HandedOut s seen) (hs : Sound s) {ev : Option Event}
    (e : Effect s s' ev) : HandedOut s' (seen ++ ev.toList) ∧ Sound s' := by
  cases e with
  | quiet q =>
    have hu : undone s' = undone s := by rw [undone, q.adding, q.tasks, q.holding, undone]
    rw [Option.toList_none, List.append_nil]
    exact ⟨⟨by rw [q.hist.1, q.hist.2, q.tasks, h.queue], by rw [q.hist.1, h.seq],
      by rw [q.hist.2, h.takers], by rw [q.hist.2, q.holding, h.held],
      by rw [q.num, hu, h.count]⟩, by rw [q.tasks]; exact hs.tasks, q.sound⟩
  | take i t l turn queue tasks hist num =>
    have ha := turn.countP adding
    have hh := turn.countP holding
    simp only [adding, holding, Bool.toNat_false, Bool.toNat_true, Nat.add_zero] at ha hh
    have hl : s.tasks_.length = l.length + 1 := by rw [queue, List.length_cons]
    have hu : undone s' = undone s := by rw [undone, undone, ha, hh, tasks, hl]; omega
    refine ⟨⟨?_, by rw [hist.1, h.seq], ?_, ?_, by rw [num, hu, h.count]⟩, ?_⟩
    · rw [hist.1, hist.2, tasks, h.queue, queue, List.append_assoc, List.singleton_append]
    · rw [hist.2, ← h.takers]
      simp [took]
    · rw [hist.2, List.length_append, h.held, hh]
      simp [finished]
      omega
    · have htasks : ∀ x ∈ t :: l, x.callable = true := queue ▸ hs.tasks
      exact ⟨fun x hx => htasks x (List.mem_cons_of_mem t (tasks ▸ hx)),
        turn.sound hs (htasks t (List.mem_cons_self ..))⟩
  | finish i turn tasks hist num =>
    have ha := turn.countP adding
    have hh := turn.countP holding
    simp only [adding, holding, Bool.toNat_false, Bool.toNat_true, Nat.add_zero] at ha hh
    have hu : undone s = undone s' + 1 := by rw [undone, undone, ha, ← hh, tasks]; omega
    refine ⟨⟨by rw [hist.1, hist.2, tasks, h.queue], by rw [hist.1, h.seq], ?_, ?_, ?_⟩,
      by rw [tasks]; exact hs.tasks, turn.sound hs rfl⟩
    · rw [hist.2, ← h.takers]
      simp [took]
    · rw [hist.2, h.held, ← hh]
      simp [finished]
      omega
    · rw [num, h.count, hu, UInt64.ofNat_add]
      exact UInt64.add_sub_cancel _ _
  | count i turn tasks hist num =>
    have ha := turn.countP adding
    have hh := turn.countP holding
    simp only [adding, holding, Bool.toNat_false, Bool.toNat_true, Nat.add_zero] at ha hh
    have hu : undone s' = undone s + 1 := by rw [undone, undone, ha, hh, tasks]; omega
    rw [Option.toList_none, List.append_nil]
    refine ⟨⟨by rw [hist.1, hist.2, tasks, h.queue], by rw [hist.1, h.seq],
      by rw [hist.2, h.takers], by rw [hist.2, hh, h.held], ?_⟩,
      by rw [tasks]; exact hs.tasks, turn.sound hs rfl⟩
    rw [num, h.count, hu, UInt64.ofNat_add]
    rfl
  | push i t turn seq tasks hist num =>
    have ha := turn.countP adding
    have hh := turn.countP holding
    simp only [adding, holding, Bool.toNat_false, Bool.toNat_true, Nat.add_zero] at ha hh
    have hu : undone s' = undone s := by
      rw [undone, undone, ← ha, hh, tasks, List.length_append, List.length_singleton]
      omega
    rw [Option.toList_none, List.append_nil]
    refine ⟨⟨?_, ?_, by rw [hist.2, h.takers], by rw [hist.2, hh, h.held],
      by rw [num, hu, h.count]⟩, ?_, turn.sound hs rfl⟩
    · rw [hist.1, hist.2, tasks, h.queue, List.append_assoc]
    · rw [hist.1, List.map_append, h.seq, List.length_append, List.length_singleton,
        List.range_succ, seq]
      rfl
    · intro x hx
      rw [tasks] at hx
      rcases List.mem_append.mp hx with hx | hx
      · exact hs.tasks x hx
      · rw [List.mem_singleton.mp hx, seq]

lemma handedOut_init (n : UInt32) : HandedOut (init n) [] ∧ Sound (init n) :=
  ⟨⟨rfl, rfl, rfl, rfl, rfl⟩, nofun, nofun⟩

/-- **A run.** -/
theorem run_handedOut {n : UInt32} {acts : List Act} (ha : ∀ a ∈ acts, Callable a)
    (e : run n acts = some s) : HandedOut s (events n acts) := by
  have hstep : ∀ s a s' seen, HandedOut s seen ∧ Sound s → Callable a → step s a = some s' →
      HandedOut s' (seen ++ (event s a).toList) ∧ Sound s' :=
    fun _ _ _ _ h ha e => h.1.step h.2 (step_effect h.2 ha e)
  have h := Runs.exec_observe hstep (handedOut_init n) (Runs.along_of_forall ha) e
  rw [List.nil_append] at h
  exact h.1

lemma HandedOut.unique (h : HandedOut s seen) {t : Task} (ht : t ∈ s.hist.taken) :
    ∃! i, (i, t) ∈ seen.filterMap took := by
  have hnd : (s.hist.pushed.map Task.seq).Nodup := h.seq ▸ List.nodup_range
  have htaken : s.hist.taken.Nodup := by
    have := List.Nodup.of_map Task.seq hnd
    rw [h.queue] at this
    exact (List.nodup_append.mp this).1
  rw [← h.takers] at ht htaken
  obtain ⟨⟨i, t'⟩, hi, rfl⟩ := List.mem_map.mp ht
  refine ⟨i, hi, fun j hj => ?_⟩
  exact congrArg Prod.fst (List.inj_on_of_nodup_map htaken hj hi rfl)

lemma undone_pos (h : .done ∈ s.monitor.threads) : 0 < undone s := by
  have : 0 < s.monitor.threads.countP holding := List.countP_pos_iff.mpr ⟨_, h, rfl⟩
  unfold undone
  omega

/-- **Every task is handed out once.** After any steps of any threads that add callables, the
tasks pushed are those taken, in the order in which they were pushed, followed by those in the
queue; each of them has been taken by one worker; and `num_of_undone_task_` is the number of
tasks counted and not pushed, in the queue, or taken and not counted as done, so that whoever
counts it down finds it positive. -/
theorem hands_out_once {n : UInt32} {acts : List Act} (ha : ∀ a ∈ acts, Callable a)
    (e : run n acts = some s) :
    HandedOut s (events n acts) ∧
    (∀ t ∈ s.hist.taken, ∃! i, (i, t) ∈ (events n acts).filterMap took) ∧
    (.done ∈ s.monitor.threads → 0 < undone s) :=
  ⟨run_handedOut ha e, fun _ => (run_handedOut ha e).unique, undone_pos⟩

/-- Two workers wait, two calls of `add` wake one each, and the one woken last gets the mutex
first. -/
def twoTasks : List Act :=
  [.start, .start] ++ List.replicate 4 (.piece 0) ++ List.replicate 4 (.piece 1) ++
    [.add true, .add true, .piece 3, .piece 2, .piece 2, .piece 2, .notifyOne 2 (some 0), .piece 2,
      .piece 3, .piece 3, .notifyOne 3 (some 1), .piece 3] ++
    List.replicate 3 (.piece 1) ++ List.replicate 4 (.piece 0)

theorem hands_out_once_two : ∃ s, run 2 twoTasks = some s ∧
    s.monitor.threads = [.done, .run (some ⟨0, true⟩), .added, .added] ∧
    s.hist.executed = [⟨1, true⟩] ∧ s.numOfUndoneTask_ = 2 ∧
    HandedOut s (events 2 twoTasks) ∧
    (∀ t ∈ s.hist.taken, ∃! i, (i, t) ∈ (events 2 twoTasks).filterMap took) ∧
    (.done ∈ s.monitor.threads → 0 < undone s) :=
  ⟨_, rfl, rfl, rfl, rfl, hands_out_once (show ∀ a ∈ twoTasks, Callable a by decide) rfl⟩

end Libchef.PoolTasks
