import Libchef.TaskModel

/-!
What a step of a task thread can do.

The pieces of the worker are told apart once; from them comes what each of them does to the
tasks that wait to be called, wherever in the containers they are.
-/

namespace Libchef.TaskSteps

open Libchef.Ordered Libchef.TaskModel

/-- The collected tasks not yet called. -/
def collected (s : State) : List Task :=
  match s.worker with
  | .run true | .flush true => s.collectTasks.tail
  | _ => s.collectTasks

/-- The deferred tasks not yet called. -/
def defferred (s : State) : List Task :=
  match s.worker with
  | .flushDefferred iter true => iter.tail.map Prod.snd
  | .flushDefferred iter false => iter.map Prod.snd
  | _ => s.defferredTasks_.entries.map Prod.snd

/-- The pieces of the worker, one by one. -/
inductive Piece (s : State) : State → Prop
  | lock (hw : s.worker = .top) (hm : s.mutex_ = false) :
      Piece s { s with mutex_ := true, worker := .test }
  | sleep (hw : s.worker = .test) (he : s.exitFlag_ = false) (ht : s.tasks_ = []) :
      Piece s (s.unlock .wait)
  | ready (hw : s.worker = .test) (h : s.exitFlag_ = true ∨ s.tasks_ ≠ []) :
      Piece s { s with worker := .collect }
  | wake (hw : s.worker = .wait) (hm : s.mutex_ = false) (next : Worker)
      (hn : next = .test ∨ next = .collect) : Piece s { s with mutex_ := true, worker := next }
  | collect (hw : s.worker = .collect) : Piece s { s.collect with worker := .check }
  | leave (hw : s.worker = .check) (he : s.exitFlag_ = true) : Piece s (s.unlock .leave)
  | stay (hw : s.worker = .check) (he : s.exitFlag_ = false) : Piece s (s.unlock (.run false))
  | again (hw : s.worker = .run false) (hc : s.collectTasks = []) :
      Piece s { s with worker := .top }
  | call (hw : s.worker = .run false) {t : Task} {l : List Task} (hc : s.collectTasks = t :: l) :
      Piece s (s.call t (.run true))
  | done (hw : s.worker = .run true) :
      Piece s (s.pop (.run false))
  | final (hw : s.worker = .leave) (hm : s.mutex_ = false) :
      Piece s { s with mutex_ := true, worker := s.final, hist.before := s.hist.added }
  | flushed (hw : s.worker = .flush false) (hc : s.collectTasks = []) :
      Piece s { s with worker := s.afterFlush }
  | flush (hw : s.worker = .flush false) {t : Task} {l : List Task}
      (hc : s.collectTasks = t :: l) : Piece s (s.call t (.flush true))
  | flushDone (hw : s.worker = .flush true) :
      Piece s (s.pop (.flush false))
  | clear {c : Bool} (hw : s.worker = .flushDefferred [] c) :
      Piece s { s with defferredTasks_ := .empty, worker := .release }
  | defferred {e : ℕ × Task} {iter : List (ℕ × Task)}
      (hw : s.worker = .flushDefferred (e :: iter) false) :
      Piece s (s.call e.2 (.flushDefferred (e :: iter) true))
  | defferredDone {e : ℕ × Task} {iter : List (ℕ × Task)}
      (hw : s.worker = .flushDefferred (e :: iter) true) :
      Piece s { s with
        worker := .flushDefferred iter false, numOfUndoneTask_ := s.numOfUndoneTask_ - 1 }
  | unlock (hw : s.worker = .release) : Piece s (s.unlock .ended)

lemma lock_some {s s' : State} {next : Worker} (h : s.lock next = some s') :
    s.mutex_ = false ∧ s' = { s with mutex_ := true, worker := next } := by
  unfold State.lock at h
  split_ifs at h with hm
  exact ⟨by simpa using hm, (Option.some.inj h).symm⟩

/-- **There are no other pieces.** -/
theorem piece_of_step {s s' : State} (h : s.workerStep = some s') : Piece s s' := by
  unfold State.workerStep at h
  split at h
  · cases h
  · cases h
  · next hw =>
    obtain ⟨hm, rfl⟩ := lock_some h
    exact .lock hw hm
  · next hw =>
    split_ifs at h with hc
    · cases h
      simp only [Bool.and_eq_true, Bool.not_eq_true', List.isEmpty_iff] at hc
      exact .sleep hw hc.1 hc.2
    · cases h
      refine .ready hw ?_
      simp only [Bool.and_eq_true, Bool.not_eq_true', List.isEmpty_iff, not_and_or] at hc
      simpa using hc
  · next hw =>
    obtain ⟨hm, rfl⟩ := lock_some h
    refine .wake hw hm _ ?_
    split_ifs
    · exact Or.inl rfl
    · exact Or.inr rfl
  · next hw =>
    cases h
    exact .collect hw
  · next hw =>
    cases h
    cases he : s.exitFlag_
    · exact .stay hw he
    · exact .leave hw he
  · next hw =>
    split at h <;> cases h
    · next hc => exact .again hw hc
    · next hc => exact .call hw hc
  · next hw =>
    cases h
    exact .done hw
  · next hw =>
    obtain ⟨s₁, h₁, h₂⟩ := Option.bind_eq_some_iff.mp h
    obtain ⟨hm, rfl⟩ := lock_some h₁
    cases h₂
    exact .final hw hm
  · next hw =>
    split at h <;> cases h
    · next hc => exact .flushed hw hc
    · next hc => exact .flush hw hc
  · next hw =>
    cases h
    exact .flushDone hw
  · next hw =>
    cases h
    exact .clear hw
  · next hw =>
    cases h
    exact .defferred hw
  · next hw =>
    cases h
    exact .defferredDone hw
  · next hw =>
    cases h
    exact .unlock hw

/-! ### What holds where -/

/-- What holds of the mutex and the containers, wherever the worker is. -/
def Local (s : State) : Prop :=
  match s.worker with
  | .idle | .top | .wait => s.mutex_ = false ∧ s.collectTasks = []
  | .test | .collect => s.mutex_ = true ∧ s.collectTasks = []
  | .check => s.mutex_ = true
  | .run _ | .leave => s.mutex_ = false
  | .flush _ => s.mutex_ = true ∧ s.releaseMode_ ≠ .asap
  | .flushDefferred iter _ => s.mutex_ = true ∧ s.releaseMode_ = .doAllDone ∧
      s.collectTasks = [] ∧ iter <:+ s.defferredTasks_.entries
  | .release => s.mutex_ = true ∧ (s.releaseMode_ ≠ .asap → s.collectTasks = []) ∧
      (s.releaseMode_ = .doAllDone → s.defferredTasks_.entries = [])
  | .ended => s.mutex_ = false ∧ (s.releaseMode_ ≠ .asap → s.collectTasks = [])

/-- The worker is in one of its two lock scopes. -/
def holds : Worker → Bool
  | .test | .collect | .check | .flush _ | .flushDefferred _ _ | .release => true
  | _ => false

structure Shape (s : State) : Prop where
  here : Local s
  immediate : ∀ t ∈ s.tasks_, t.defferredTimeMs = 0
  keys : ∀ e ∈ s.defferredTasks_.entries, e.1 = e.2.due ∧ e.2.defferredTimeMs ≠ 0

section Pieces

variable {s s' : State}

lemma Shape.mutex (h : Shape s) : s.mutex_ = holds s.worker := by
  have hl := h.here
  unfold Local at hl
  cases hw : s.worker <;> rw [hw] at hl <;> first | exact hl | exact hl.1

lemma collect_tasks (h : s.collectTasks = []) : s.collect.tasks_ = [] := by
  unfold State.collect State.appendExpiredTasks_
  by_cases ht : s.tasks_ = [] <;> by_cases hd : s.defferredTasks_.entries = [] <;>
    simp [ht, hd, h]

/-- The collection takes all immediate tasks and the deferred ones that are due. -/
lemma collect_split (h : s.collectTasks = []) :
    ∃ l, s.collect.collectTasks = s.tasks_ ++ l.map Prod.snd ∧
      s.defferredTasks_.entries = l ++ s.collect.defferredTasks_.entries ∧
      (∀ e ∈ l, e.1 ≤ s.clock) ∧
      ∀ e ∈ s.collect.defferredTasks_.entries,
        s.collect.hist.lastNow = some s.clock ∧ s.clock < e.1 := by
  by_cases hd : s.defferredTasks_.entries = []
  · refine ⟨[], ?_⟩
    simp only [State.collect]
    by_cases ht : s.tasks_ = [] <;> simp [ht, hd, h]
  · refine ⟨s.defferredTasks_.upTo s.clock, ?_⟩
    have hup := Multimap.upTo_append (m := s.defferredTasks_) (k := s.clock)
    have hle := fun e =>
      Multimap.le_of_mem_upTo (m := s.defferredTasks_) (k := s.clock) (e := e)
    have hlt := fun e =>
      Multimap.lt_of_mem_eraseUpTo (m := s.defferredTasks_) (k := s.clock) (e := e)
    unfold State.collect State.appendExpiredTasks_
    by_cases ht : s.tasks_ = []
    · simp only [ht, if_true, hd, if_false, h]
      exact ⟨trivial, hup.symm, hle, fun e he => ⟨trivial, hlt e he⟩⟩
    · simp only [ht, hd, if_false]
      exact ⟨trivial, hup.symm, hle, fun e he => ⟨trivial, hlt e he⟩⟩

lemma collect_keeps : s.collect.mutex_ = s.mutex_ ∧ s.collect.hist.added = s.hist.added ∧
    s.collect.hist.executed = s.hist.executed ∧ s.collect.hist.early = s.hist.early ∧
    s.collect.clock = s.clock ∧ s.collect.exitFlag_ = s.exitFlag_ ∧
    s.collect.releaseMode_ = s.releaseMode_ := by
  unfold State.collect State.appendExpiredTasks_
  by_cases ht : s.tasks_ = [] <;> by_cases hd : s.defferredTasks_.entries = [] <;> simp [ht, hd]

/-- **Every piece keeps the shape.** -/
theorem Shape.piece (h : Shape s) (hp : Piece s s') : Shape s' := by
  have hl := h.here
  unfold Local at hl
  cases hp with
  | lock hw hm => rw [hw] at hl; exact ⟨⟨rfl, hl.2⟩, h.immediate, h.keys⟩
  | sleep hw => rw [hw] at hl; exact ⟨⟨rfl, hl.2⟩, h.immediate, h.keys⟩
  | ready hw => rw [hw] at hl; exact ⟨hl, h.immediate, h.keys⟩
  | wake hw hm next hn =>
    rw [hw] at hl
    rcases hn with rfl | rfl <;> exact ⟨⟨rfl, hl.2⟩, h.immediate, h.keys⟩
  | collect hw =>
    rw [hw] at hl
    obtain ⟨l, -, hd, -, -⟩ := collect_split hl.2
    refine ⟨collect_keeps.1.trans hl.1, fun t ht => ?_, fun e he => h.keys e ?_⟩
    · rw [show _ = _ from collect_tasks hl.2] at ht
      cases ht
    · rw [hd]
      exact List.mem_append_right _ he
  | leave hw => exact ⟨rfl, h.immediate, h.keys⟩
  | stay hw => exact ⟨rfl, h.immediate, h.keys⟩
  | again hw hc => rw [hw] at hl; exact ⟨⟨hl, hc⟩, h.immediate, h.keys⟩
  | call hw => rw [hw] at hl; exact ⟨hl, h.immediate, h.keys⟩
  | done hw => rw [hw] at hl; exact ⟨hl, h.immediate, h.keys⟩
  | final hw hm =>
    refine ⟨?_, h.immediate, h.keys⟩
    unfold Local State.final
    cases s.releaseMode_ <;> simp
  | flushed hw hc =>
    rw [hw] at hl
    refine ⟨?_, h.immediate, h.keys⟩
    unfold Local State.afterFlush
    cases s.releaseMode_ <;> simp [hl.1, hc]
  | flush hw => rw [hw] at hl; exact ⟨hl, h.immediate, h.keys⟩
  | flushDone hw => rw [hw] at hl; exact ⟨hl, h.immediate, h.keys⟩
  | clear hw =>
    rw [hw] at hl
    exact ⟨⟨hl.1, fun _ => hl.2.2.1, fun _ => rfl⟩, h.immediate, by simp [Multimap.empty]⟩
  | defferred hw => rw [hw] at hl; exact ⟨hl, h.immediate, h.keys⟩
  | defferredDone hw =>
    rw [hw] at hl
    exact ⟨⟨hl.1, hl.2.1, hl.2.2.1, (List.suffix_cons _ _).trans hl.2.2.2⟩, h.immediate, h.keys⟩
  | unlock hw => rw [hw] at hl; exact ⟨⟨rfl, hl.2.1⟩, h.immediate, h.keys⟩

/-! ### What a step does to the tasks that wait -/

/-- The tasks stay where they are. -/
structure Still (s s' : State) : Prop where
  added : s'.hist.added = s.hist.added
  executed : s'.hist.executed = s.hist.executed
  collected : collected s' = collected s
  tasks : s'.tasks_ = s.tasks_
  defferred : defferred s' = defferred s
  lastNow : s'.hist.lastNow = s.hist.lastNow

/-- The worker collects: all immediate tasks, then the deferred ones that are due. -/
structure Collects (s s' : State) : Prop where
  added : s'.hist.added = s.hist.added
  executed : s'.hist.executed = s.hist.executed
  empty : collected s = []
  tasks : s'.tasks_ = []
  due : ∃ l, collected s' = s.tasks_ ++ l ∧ defferred s = l ++ defferred s' ∧
    ∀ t ∈ l, t.due ≤ s.clock
  late : ∀ t ∈ defferred s', s'.hist.lastNow = some s.clock ∧ s.clock < t.due

/-- The worker calls a task, the next collected one or the next deferred one. -/
structure Calls (s s' : State) (t : Task) : Prop where
  added : s'.hist.added = s.hist.added
  executed : s'.hist.executed = s.hist.executed ++ [t]
  tasks : s'.tasks_ = s.tasks_
  next : collected s = t :: collected s' ∧ defferred s' = defferred s ∨
    collected s = [] ∧ collected s' = [] ∧ defferred s = t :: defferred s' ∧
      ∃ iter, s.worker = .flushDefferred iter false
  lastNow : s'.hist.lastNow = s.hist.lastNow

/-- A task comes in. -/
structure Pushes (s s' : State) (t : Task) : Prop where
  free : s.mutex_ = false
  worker : s'.worker = s.worker
  seq : t.seq = s.hist.added.length
  addedAt : t.addedAt = s.clock
  added : s'.hist.added = s.hist.added ++ [t]
  executed : s'.hist.executed = s.hist.executed
  collected : collected s' = collected s
  immediate : t.defferredTimeMs = 0 → s'.tasks_ = s.tasks_ ++ [t] ∧ defferred s' = defferred s
  late : t.defferredTimeMs ≠ 0 → s'.tasks_ = s.tasks_ ∧ ∃ l₁ l₂, defferred s = l₁ ++ l₂ ∧
    defferred s' = l₁ ++ t :: l₂ ∧ (∀ x ∈ l₁, x.due ≤ t.due) ∧ ∀ x ∈ l₂, t.due < x.due
  lastNow : s'.hist.lastNow = s.hist.lastNow

inductive Effect (s s' : State) : Prop
  | still (h : Still s s')
  | collects (hw : s.worker = .collect) (h : Collects s s')
  | calls (t : Task) (hc : calls s = some t) (h : Calls s s' t)
  | pushes (t : Task) (h : Pushes s s' t)

lemma Effect.added {t : Task} (he : Effect s s') (ht : t ∈ s.hist.added) :
    t ∈ s'.hist.added := by
  cases he with
  | still e => rwa [e.added]
  | collects hc e => rwa [e.added]
  | calls u hc e => rwa [e.added]
  | pushes u e =>
    rw [e.added]
    exact List.mem_append_left _ ht

lemma collect_effect (h : Shape s) (hw : s.worker = .collect) :
    Collects s { s.collect with worker := .check } := by
  have hl := h.here
  unfold Local at hl
  rw [hw] at hl
  obtain ⟨l, hc, hd, hdue, hlate⟩ := collect_split hl.2
  have hk := fun e he => (h.keys e he).1
  refine ⟨collect_keeps.2.1, collect_keeps.2.2.1, by simp [collected, hw, hl.2],
    collect_tasks hl.2, ⟨l.map Prod.snd, by simp [collected, hc], by simp [defferred, hw, hd],
      fun t ht => ?_⟩, fun t ht => ?_⟩
  · obtain ⟨e, he, rfl⟩ := List.mem_map.mp ht
    rw [← hk e (by rw [hd]; exact List.mem_append_left _ he)]
    exact hdue e he
  · obtain ⟨e, he, rfl⟩ := List.mem_map.mp ht
    rw [← hk e (by rw [hd]; exact List.mem_append_right _ he)]
    exact hlate e he

/-- **What a piece of the worker does to the tasks that wait.** -/
theorem piece_effect (h : Shape s) (hp : Piece s s') : Effect s s' := by
  have hl := h.here
  unfold Local at hl
  cases hp with
  | lock hw hm =>
    exact .still ⟨rfl, rfl, by simp [collected, hw], rfl, by simp [defferred, hw], rfl⟩
  | sleep hw =>
    exact .still ⟨rfl, rfl, by simp [collected, hw, State.unlock], rfl,
      by simp [defferred, hw, State.unlock], rfl⟩
  | ready hw => exact .still ⟨rfl, rfl, by simp [collected, hw], rfl, by simp [defferred, hw], rfl⟩
  | wake hw hm next hn =>
    refine .still ⟨rfl, rfl, ?_, rfl, ?_, rfl⟩ <;>
      rcases hn with rfl | rfl <;> simp [collected, defferred, hw]
  | collect hw => exact .collects hw (collect_effect h hw)
  | leave hw =>
    exact .still ⟨rfl, rfl, by simp [collected, hw, State.unlock], rfl,
      by simp [defferred, hw, State.unlock], rfl⟩
  | stay hw =>
    exact .still ⟨rfl, rfl, by simp [collected, hw, State.unlock], rfl,
      by simp [defferred, hw, State.unlock], rfl⟩
  | again hw => exact .still ⟨rfl, rfl, by simp [collected, hw], rfl, by simp [defferred, hw], rfl⟩
  | call hw hc =>
    exact .calls _ (by simp [calls, hw, hc]) ⟨rfl, rfl, rfl,
      Or.inl ⟨by simp [collected, hw, hc, State.call], by simp [defferred, hw, State.call]⟩, rfl⟩
  | done hw =>
    exact .still ⟨rfl, rfl, by simp [collected, hw, State.pop], rfl,
      by simp [defferred, hw, State.pop], rfl⟩
  | final hw =>
    refine .still ⟨rfl, rfl, ?_, rfl, ?_, rfl⟩ <;>
      unfold State.final <;> cases s.releaseMode_ <;> simp [collected, defferred, hw]
  | flushed hw hc =>
    refine .still ⟨rfl, rfl, ?_, rfl, ?_, rfl⟩ <;>
      unfold State.afterFlush <;> cases s.releaseMode_ <;> simp [collected, defferred, hw]
  | flush hw hc =>
    exact .calls _ (by simp [calls, hw, hc]) ⟨rfl, rfl, rfl,
      Or.inl ⟨by simp [collected, hw, hc, State.call], by simp [defferred, hw, State.call]⟩, rfl⟩
  | flushDone hw =>
    exact .still ⟨rfl, rfl, by simp [collected, hw, State.pop], rfl,
      by simp [defferred, hw, State.pop], rfl⟩
  | @clear c hw =>
    refine .still ⟨rfl, rfl, by simp [collected, hw], rfl, ?_, rfl⟩
    cases c <;> simp [defferred, hw, Multimap.empty]
  | defferred hw =>
    rw [hw] at hl
    exact .calls _ (by simp [calls, hw]) ⟨rfl, rfl, rfl,
      Or.inr ⟨by simp [collected, hw, hl.2.2.1], by simp [collected, hl.2.2.1, State.call],
        by simp [defferred, hw, State.call], _, hw⟩, rfl⟩
  | defferredDone hw =>
    exact .still ⟨rfl, rfl, by simp [collected, hw], rfl, by simp [defferred, hw], rfl⟩
  | unlock hw =>
    exact .still ⟨rfl, rfl, by simp [collected, hw, State.unlock], rfl,
      by simp [defferred, hw, State.unlock], rfl⟩

/-! ### The other steps -/

lemma start_some (hs : step s .start = some s') :
    s.worker = .idle ∧ s' = { s with worker := .top } := by
  simp only [step] at hs
  split_ifs at hs with hw
  exact ⟨hw, (Option.some.inj hs).symm⟩

lemma stop_some (hs : step s .stop = some s') :
    s.exitFlag_ = false ∧ s' = { s with exitFlag_ := true, hist.early := s.hist.added } := by
  simp only [step] at hs
  split_ifs at hs with he
  exact ⟨by simpa using he, (Option.some.inj hs).symm⟩

lemma clock_some {t : ℕ} (hs : step s (.clock t) = some s') :
    t < 2 ^ 63 ∧ s' = { s with clock := t } := by
  simp only [step] at hs
  split_ifs at hs with ht
  exact ⟨ht, (Option.some.inj hs).symm⟩

lemma push_some {i : ℕ} (hs : step s (.push i) = some s') :
    ∃ d, s.adding[i]? = some d ∧ s.mutex_ = false ∧
      s' = ({ s with adding := s.adding.eraseIdx i }.push d) := by
  obtain ⟨d, hd, h⟩ := Option.bind_eq_some_iff.mp hs
  split_ifs at h with hm
  exact ⟨d, hd, by simpa using hm, (Option.some.inj h).symm⟩

/-- Where the mutex is free, no piece of the worker is in the middle of a container. -/
lemma defferred_of_free (h : Shape s) (hm : s.mutex_ = false) :
    defferred s = s.defferredTasks_.entries.map Prod.snd := by
  rw [h.mutex] at hm
  unfold defferred
  cases hw : s.worker with
  | flushDefferred iter c =>
    rw [hw] at hm
    cases hm
  | _ => rfl

lemma push_effect (h : Shape s) (hm : s.mutex_ = false) (d : Int32) :
    ∃ t, t.defferredTimeMs = d ∧ Pushes s (s.push d) t := by
  refine ⟨⟨s.hist.added.length, d, s.clock⟩, rfl, ?_⟩
  have hdef := defferred_of_free h hm
  unfold State.push
  by_cases hd : d = 0
  · simp only [hd, if_true]
    exact ⟨hm, rfl, rfl, rfl, rfl, rfl, rfl, fun _ => ⟨rfl, rfl⟩, fun hne => absurd rfl hne, rfl⟩
  · simp only [hd, if_false]
    refine ⟨hm, rfl, rfl, rfl, rfl, rfl, rfl, fun h0 => absurd h0 hd, fun _ => ⟨rfl, ?_⟩, rfl⟩
    obtain ⟨l₁, l₂, h₁, h₂, hle, hlt⟩ := Multimap.insert_split
      (m := s.defferredTasks_) (k := (⟨s.hist.added.length, d, s.clock⟩ : Task).due)
      ⟨s.hist.added.length, d, s.clock⟩
    have hk := fun e he => (h.keys e he).1
    rw [h₁] at hk
    refine ⟨l₁.map Prod.snd, l₂.map Prod.snd, by rw [hdef, h₁, List.map_append], ?_, ?_, ?_⟩
    · show defferred _ = _
      unfold defferred at hdef ⊢
      cases hw : s.worker with
      | flushDefferred iter c =>
        rw [h.mutex, hw] at hm
        cases hm
      | _ => simp [h₂]
    · intro x hx
      obtain ⟨e, he, rfl⟩ := List.mem_map.mp hx
      rw [← hk e (List.mem_append_left _ he)]
      exact hle e he
    · intro x hx
      obtain ⟨e, he, rfl⟩ := List.mem_map.mp hx
      rw [← hk e (List.mem_append_right _ he)]
      exact hlt e he

lemma Shape.push (h : Shape s) (hm : s.mutex_ = false) (d : Int32) : Shape (s.push d) := by
  have hl := h.here
  unfold Local at hl
  have hhere : ∀ s' : State, s'.worker = s.worker → s'.mutex_ = s.mutex_ →
      s'.collectTasks = s.collectTasks → s'.releaseMode_ = s.releaseMode_ → Local s' := by
    intro s' hw' hm' hc' hr'
    unfold Local
    rw [hw', hm', hc', hr']
    cases hw : s.worker <;> rw [hw] at hl
    case flushDefferred iter c => rw [hm] at hl; cases hl.1
    case release => rw [hm] at hl; cases hl.1
    all_goals exact hl
  unfold State.push
  by_cases hd : d = 0
  · simp only [hd, if_true]
    refine ⟨hhere _ rfl rfl rfl rfl, fun t ht => ?_, h.keys⟩
    rcases List.mem_append.mp ht with ht | ht
    · exact h.immediate t ht
    · rw [List.mem_singleton.mp ht]
  · simp only [hd, if_false]
    refine ⟨hhere _ rfl rfl rfl rfl, h.immediate, fun e he => ?_⟩
    rcases List.mem_cons.mp ((Multimap.insert_perm _).mem_iff.mp he) with rfl | he
    · exact ⟨rfl, hd⟩
    · exact h.keys e he

/-- **Every step keeps the shape.** -/
theorem Shape.step {a : Act} (h : Shape s) (hs : TaskModel.step s a = some s') : Shape s' := by
  cases a with
  | start =>
    obtain ⟨hw, rfl⟩ := start_some hs
    have hl := h.here
    unfold Local at hl
    rw [hw] at hl
    exact ⟨hl, h.immediate, h.keys⟩
  | increment d => cases hs; exact ⟨h.here, h.immediate, h.keys⟩
  | push i =>
    obtain ⟨d, -, hm, rfl⟩ := push_some hs
    exact Shape.push (s := { s with adding := s.adding.eraseIdx i })
      ⟨h.here, h.immediate, h.keys⟩ hm d
  | stop =>
    obtain ⟨-, rfl⟩ := stop_some hs
    exact ⟨h.here, h.immediate, h.keys⟩
  | clock t =>
    obtain ⟨-, rfl⟩ := clock_some hs
    exact ⟨h.here, h.immediate, h.keys⟩
  | worker => exact h.piece (piece_of_step hs)

/-- **What a step does to the tasks that wait.** -/
theorem step_effect {a : Act} (h : Shape s) (hs : TaskModel.step s a = some s') : Effect s s' := by
  cases a with
  | start =>
    obtain ⟨hw, rfl⟩ := start_some hs
    exact .still ⟨rfl, rfl, by simp [collected, hw], rfl, by simp [defferred, hw], rfl⟩
  | increment d => cases hs; exact .still ⟨rfl, rfl, rfl, rfl, rfl, rfl⟩
  | push i =>
    obtain ⟨d, -, hm, rfl⟩ := push_some hs
    obtain ⟨t, -, ht⟩ := push_effect (s := { s with adding := s.adding.eraseIdx i })
      ⟨h.here, h.immediate, h.keys⟩ hm d
    exact .pushes t { ht with }
  | stop =>
    obtain ⟨-, rfl⟩ := stop_some hs
    exact .still ⟨rfl, rfl, rfl, rfl, rfl, rfl⟩
  | clock t =>
    obtain ⟨-, rfl⟩ := clock_some hs
    exact .still ⟨rfl, rfl, rfl, rfl, rfl, rfl⟩
  | worker => exact piece_effect h (piece_of_step hs)

end Pieces

lemma shape_init (rm : ReleaseMode) : Shape (init rm) :=
  ⟨⟨rfl, rfl⟩, by simp [init], by simp [init, Multimap.empty]⟩

/-- A deferred task has a delay. -/
lemma Shape.defferred_ne {s : State} (h : Shape s) {t : Task} (ht : t ∈ defferred s) :
    t.defferredTimeMs ≠ 0 := by
  have hl := h.here
  unfold Local at hl
  have hall : ∀ t ∈ s.defferredTasks_.entries.map Prod.snd, t.defferredTimeMs ≠ 0 := by
    intro t ht
    obtain ⟨e, he, rfl⟩ := List.mem_map.mp ht
    exact (h.keys e he).2
  unfold defferred at ht
  cases hw : s.worker with
  | flushDefferred iter c =>
    rw [hw] at hl ht
    have hsub : ∀ e ∈ iter, e.2.defferredTimeMs ≠ 0 := fun e he =>
      (h.keys e (hl.2.2.2.subset he)).2
    cases c
    · obtain ⟨e, he, rfl⟩ := List.mem_map.mp ht
      exact hsub e he
    · obtain ⟨e, he, rfl⟩ := List.mem_map.mp ht
      exact hsub e (List.mem_of_mem_tail he)
  | _ =>
    rw [hw] at ht
    exact hall t ht

end Libchef.TaskSteps
