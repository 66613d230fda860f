import Libchef.GroupCallsModel
import Libchef.TaskCount
import Libchef.TaskShutdown

/-!
What a step of a thread group can do, and what holds of its task threads.

The pieces are told apart once. A task thread of the group makes the pieces of a task thread, its
tasks have no delay, and it has the tasks that the calls gave it.
-/

namespace Libchef.GroupSteps

open Libchef.GroupCallsModel

variable {Task : Type} {g g' : State Task} {c k : ℕ} {call : Call Task}

/-- The thread `k` makes a piece. -/
structure Works (g : State Task) (k : ℕ) (a : TaskModel.Act) (s s' : TaskModel.State) : Prop where
  before : g.threads_[k]? = some s
  piece : TaskModel.step s a = some s'

/-- The pieces that only change what the call of the thread `c` is. -/
inductive Turns (g : State Task) (c : ℕ) : Act Task → Option (Call Task) → Option (Call Task) → Prop
  | start : Turns g c (.start c) none (some (.starting 0))
  | sum : Turns g c (.numOfUndoneTask c) none (some (.sum 0 0))
  | destroy : Turns g c (.destroy c) none (some (.stopping 0))
  | started {i : ℕ} : Turns g c (.go c) (some (.starting i)) none
  | summed {i : ℕ} {ret : UInt64} (hi : g.num ≤ i) :
      Turns g c (.go c) (some (.sum i ret)) (some (.returned ret))
  | over {ret : UInt64} : Turns g c (.go c) (some (.returned ret)) none
  | destroyed {i : ℕ} : Turns g c (.go c) (some (.stopping i)) none
  | joined {i : ℕ} {s : TaskModel.State} (hs : g.threads_[i]? = some s)
      (hw : s.worker = .ended ∨ s.worker = .idle) :
      Turns g c (.go c) (some (.joining i)) (some (.stopping (i + 1)))
  | read {i : ℕ} {ret : UInt64} (hi : i < g.num) {s : TaskModel.State}
      (hs : g.threads_[i]? = some s) :
      Turns g c (.go c) (some (.sum i ret)) (some (.sum (i + 1) (ret + s.numOfUndoneTask_)))
  | scan {t : Task} {i m : ℕ} {u : UInt32} (hi : i < g.num) {s : TaskModel.State}
      (hs : g.threads_[i]? = some s) :
      Turns g c (.go c) (some (.scan t i m u))
        (some (if s.numOfUndoneTask_.toUInt32 < u then
          .scan t (i + 1) i s.numOfUndoneTask_.toUInt32 else .scan t (i + 1) m u))
  | choose {t : Task} {i m k : ℕ} {u : UInt32} (hi : g.num ≤ i)
      (hk : GroupModel.thread g.group (UInt32.ofNat m) = some k) :
      Turns g c (.go c) (some (.scan t i m u)) (some (.add t k))

/-- The pieces in which a call makes a piece of a task thread. -/
inductive Drives : ℕ → TaskModel.Act → Option (Call Task) → Option (Call Task) → Prop
  | start {i : ℕ} : Drives i .start (some (.starting i)) (some (.starting (i + 1)))
  | increment {t : Task} {k : ℕ} :
      Drives k (.increment 0) (some (.add t k)) (some (.adding t k))
  | stop {i : ℕ} : Drives i .stop (some (.stopping i)) (some (.joining i))

/-- The pieces with which a call of `add` begins: what the call becomes. -/
inductive Begins (g : State Task) (c : ℕ) (t : Task) : Act Task → Call Task → UInt32 → Prop
  | addAt {index : UInt32} {k : ℕ} (hk : GroupModel.thread g.group index = some k) :
      Begins g c t (.addAt c t index) (.add t k) g.group.roundRobinIndex_
  | roundRobin {rand : Int32} {k : ℕ} (hs : g.group.strategy_ = .roundRobin)
      (hk : GroupModel.thread g.group g.group.roundRobinIndex_ = some k) :
      Begins g c t (.add c t rand) (.add t k) (g.group.roundRobinIndex_ + 1)
  | random {rand : Int32} {k : ℕ} (hs : g.group.strategy_ = .random)
      (hk : GroupModel.thread g.group rand.toUInt32 = some k) :
      Begins g c t (.add c t rand) (.add t k) g.group.roundRobinIndex_
  | idle {rand : Int32} (hs : g.group.strategy_ = .idle) {s : TaskModel.State}
      (h0 : g.threads_[0]? = some s) :
      Begins g c t (.add c t rand) (.scan t 1 0 s.numOfUndoneTask_.toUInt32)
        g.group.roundRobinIndex_

/-- The pieces of the group, one by one. -/
inductive Piece (g : State Task) : Act Task → State Task → Prop
  | begins {c : ℕ} {t : Task} {a : Act Task} {call : Call Task} {i : UInt32}
      (hc : g.calls[c]? = some none) (hb : Begins g c t a call i) :
      Piece g a { g with
        handed := g.handed ++ [t]
        calls := g.calls.set c (some call)
        group.roundRobinIndex_ := i }
  | turns {c : ℕ} {a : Act Task} {old new : Option (Call Task)} (hc : g.calls[c]? = some old)
      (ht : Turns g c a old new) : Piece g a (g.put c new)
  | drives {c k : ℕ} {b : TaskModel.Act} {s s' : TaskModel.State}
      {old new : Option (Call Task)} (hc : g.calls[c]? = some old) (hd : Drives k b old new)
      (hw : Works g k b s s') :
      Piece g (.go c) ({ g with threads_ := g.threads_.set k s' }.put c new)
  | pushes {c k : ℕ} {t : Task} {s s' : TaskModel.State}
      (hc : g.calls[c]? = some (some (.adding t k))) (hw : Works g k (.push 0) s s') :
      Piece g (.go c) ({ g with
        threads_ := g.threads_.set k s'
        group.threads_ := g.group.threads_.modify k (· ++ [t]) }.put c none)
  | alone {k : ℕ} {b : TaskModel.Act} {s s' : TaskModel.State} {a : Act Task}
      (hb : b = .worker ∧ a = .worker k ∨ ∃ t, b = .clock t ∧ a = .clock k t)
      (hw : Works g k b s s') :
      Piece g a { g with threads_ := g.threads_.set k s' }

lemma free_iff : g.free c = true ↔ g.calls[c]? = some none := by
  unfold State.free
  split <;> simp_all

lemma thread_some {a : TaskModel.Act} (h : g.thread k a = some g') :
    ∃ s s', Works g k a s s' ∧ g' = { g with threads_ := g.threads_.set k s' } := by
  obtain ⟨s, hs, h⟩ := Option.bind_eq_some_iff.mp h
  obtain ⟨s', hs', h⟩ := Option.bind_eq_some_iff.mp h
  exact ⟨s, s', ⟨hs, hs'⟩, (Option.some.inj h).symm⟩

lemma addAt_some {t : Task} {index : UInt32} (h : g.addAt c t index = some g') :
    ∃ k, GroupModel.thread g.group index = some k ∧ g' = g.put c (some (.add t k)) := by
  obtain ⟨k, hk, h⟩ := Option.bind_eq_some_iff.mp h
  exact ⟨k, hk, (Option.some.inj h).symm⟩

lemma count_some {u : UInt64} (h : g.count k = some u) :
    ∃ s, g.threads_[k]? = some s ∧ s.numOfUndoneTask_ = u := Option.map_eq_some_iff.mp h

lemma go_piece (hc : g.calls[c]? = some (some call)) (h : g.go c call = some g') :
    Piece g (.go c) g' := by
  cases call with
  | starting i =>
    simp only [State.go] at h
    split_ifs at h with hi
    · obtain ⟨g₁, h₁, rfl⟩ := Option.map_eq_some_iff.mp h
      obtain ⟨s, s', hw, rfl⟩ := thread_some h₁
      exact .drives hc .start hw
    · cases h
      exact .turns hc .started
  | scan t i m u =>
    simp only [State.go] at h
    split_ifs at h with hi
    · obtain ⟨n, hn, h⟩ := Option.bind_eq_some_iff.mp h
      obtain ⟨s, hs, rfl⟩ := count_some hn
      cases h
      exact .turns hc (.scan hi hs)
    · obtain ⟨k, hk, rfl⟩ := addAt_some h
      exact .turns hc (.choose (Nat.not_lt.mp hi) hk)
  | add t k =>
    obtain ⟨g₁, h₁, rfl⟩ := Option.map_eq_some_iff.mp h
    obtain ⟨s, s', hw, rfl⟩ := thread_some h₁
    exact .drives hc .increment hw
  | adding t k =>
    obtain ⟨g₁, h₁, rfl⟩ := Option.map_eq_some_iff.mp h
    obtain ⟨s, s', hw, rfl⟩ := thread_some h₁
    exact .pushes hc hw
  | sum i ret =>
    simp only [State.go] at h
    split_ifs at h with hi
    · obtain ⟨n, hn, h⟩ := Option.bind_eq_some_iff.mp h
      obtain ⟨s, hs, rfl⟩ := count_some hn
      cases h
      exact .turns hc (.read hi hs)
    · cases h
      exact .turns hc (.summed (Nat.not_lt.mp hi))
  | returned ret =>
    cases h
    exact .turns hc .over
  | stopping i =>
    simp only [State.go] at h
    split_ifs at h with hi
    · obtain ⟨g₁, h₁, rfl⟩ := Option.map_eq_some_iff.mp h
      obtain ⟨s, s', hw, rfl⟩ := thread_some h₁
      exact .drives hc .stop hw
    · cases h
      exact .turns hc .destroyed
  | joining i =>
    obtain ⟨s, hs, h⟩ := Option.bind_eq_some_iff.mp h
    split_ifs at h with hw
    cases h
    exact .turns hc (.joined hs hw)

/-- **There are no other pieces.** -/
theorem piece_of_step {a : Act Task} (h : step g a = some g') : Piece g a g' := by
  cases a with
  | start c | numOfUndoneTask c | destroy c =>
    simp only [step] at h
    split_ifs at h with hc
    cases h
    first
      | exact .turns (free_iff.mp hc) .start
      | exact .turns (free_iff.mp hc) .sum
      | exact .turns (free_iff.mp hc) .destroy
  | addAt c t index =>
    simp only [step] at h
    split_ifs at h with hc
    obtain ⟨k, hk, rfl⟩ := addAt_some h
    exact .begins (free_iff.mp hc) (.addAt hk)
  | add c t rand =>
    simp only [step] at h
    split_ifs at h with hc
    unfold State.add at h
    split at h
    · next hs =>
      obtain ⟨k, hk, rfl⟩ := addAt_some h
      exact .begins (free_iff.mp hc) (.roundRobin hs hk)
    · next hs =>
      obtain ⟨k, hk, rfl⟩ := addAt_some h
      exact .begins (free_iff.mp hc) (.random hs hk)
    · next hs =>
      obtain ⟨n, hn, h⟩ := Option.bind_eq_some_iff.mp h
      obtain ⟨s, hs', rfl⟩ := count_some hn
      cases h
      exact .begins (free_iff.mp hc) (Begins.idle (g := g) hs hs')
  | go c =>
    obtain ⟨call, hc, h⟩ := Option.bind_eq_some_iff.mp h
    cases call with
    | none => cases h
    | some call => exact go_piece hc h
  | worker k =>
    obtain ⟨s, s', hw, rfl⟩ := thread_some h
    exact .alone (Or.inl ⟨rfl, rfl⟩) hw
  | clock k t =>
    obtain ⟨s, s', hw, rfl⟩ := thread_some h
    exact .alone (Or.inr ⟨t, rfl, rfl⟩) hw

/-! ### A task thread of the group -/

open Libchef.TaskSteps Libchef.TaskOnce Libchef.TaskCount

/-- A task thread of the group, with the tasks that were given to it. -/
structure Serves (tasks : List Task) (s : TaskModel.State) : Prop where
  reached : ∃ acts, TaskModel.run .asap acts = some s
  adding : ∀ d ∈ s.adding, d = 0
  immediate : ∀ x ∈ s.hist.added, x.defferredTimeMs = 0
  length : s.hist.added.length = tasks.length

/-- The tasks that a thread has executed. -/
def executedBy (tasks : List Task) (s : TaskModel.State) : List Task :=
  s.hist.executed.filterMap fun x => tasks[x.seq]?

section Threads

variable {tasks : List Task} {s s' : TaskModel.State} {a : TaskModel.Act}

lemma Serves.once (h : Serves tasks s) : Once s := by
  obtain ⟨acts, e⟩ := h.reached
  exact (run_counted e).2

lemma Serves.counted (h : Serves tasks s) : Counted s := by
  obtain ⟨acts, e⟩ := h.reached
  exact (run_counted e).1

lemma Serves.reached_step (h : Serves tasks s) (e : TaskModel.step s a = some s') :
    ∃ acts, TaskModel.run .asap acts = some s' := by
  obtain ⟨acts, e'⟩ := h.reached
  refine ⟨acts ++ [a], ?_⟩
  rw [TaskModel.run, Runs.exec_append, show Runs.exec _ _ acts = _ from e', Option.bind_some]
  exact Runs.exec_cons_some.mpr ⟨s', e, rfl⟩

lemma worker_keeps (e : TaskModel.step s .worker = some s') :
    s'.hist.added = s.hist.added ∧ s'.adding = s.adding := by
  cases TaskSteps.piece_of_step e with
  | collect hw => exact ⟨collect_keeps.2.1, collect_counts.1⟩
  | _ => exact ⟨rfl, rfl⟩

lemma Serves.keep (h : Serves tasks s) (ha : ∀ i, a ≠ .push i) (hd : ∀ d, a = .increment d → d = 0)
    (e : TaskModel.step s a = some s') : Serves tasks s' := by
  have hr := h.reached_step e
  cases a with
  | start => obtain ⟨-, rfl⟩ := start_some e; exact ⟨hr, h.adding, h.immediate, h.length⟩
  | stop => obtain ⟨-, rfl⟩ := stop_some e; exact ⟨hr, h.adding, h.immediate, h.length⟩
  | clock t => obtain ⟨-, rfl⟩ := clock_some e; exact ⟨hr, h.adding, h.immediate, h.length⟩
  | push i => exact absurd rfl (ha i)
  | increment d =>
    cases e
    refine ⟨hr, fun d' hd' => ?_, h.immediate, h.length⟩
    rcases List.mem_append.mp hd' with hd' | hd'
    · exact h.adding d' hd'
    · exact (List.mem_singleton.mp hd').trans (hd d rfl)
  | worker =>
    obtain ⟨hadded, hadding⟩ := worker_keeps e
    exact ⟨hr, hadding ▸ h.adding, hadded ▸ h.immediate, hadded ▸ h.length⟩

lemma Serves.push (h : Serves tasks s) (t : Task) (e : TaskModel.step s (.push 0) = some s') :
    Serves (tasks ++ [t]) s' := by
  have hr := h.reached_step e
  obtain ⟨d, hd, -, rfl⟩ := push_some e
  obtain rfl : d = 0 := h.adding d (List.mem_of_getElem? hd)
  refine ⟨hr, fun d' hd' => ?_, fun x hx => ?_, ?_⟩
  · exact h.adding d' (List.mem_of_mem_tail (by simpa [TaskModel.State.push] using hd'))
  · have hx' : x ∈ s.hist.added ++ [⟨s.hist.added.length, 0, s.clock⟩] := by
      simpa [TaskModel.State.push] using hx
    rcases List.mem_append.mp hx' with hx | hx
    · exact h.immediate x hx
    · rw [List.mem_singleton.mp hx]
  · simp [TaskModel.State.push, h.length]

lemma Serves.executed_prefix (h : Serves tasks s) : s.hist.executed <+: s.hist.added := by
  have hall (l : List TaskModel.Task) (hl : l ⊆ s.hist.added) : l.filter TaskOnce.immediate = l :=
    List.filter_eq_self.mpr fun x hx => decide_eq_true (h.immediate x (hl hx))
  have hp := h.once.executed_prefix
  rwa [hall _ (List.Subset.refl _), hall] at hp
  exact fun x hx => h.once.perm.mem_iff.mpr (List.mem_append_left _ hx)

lemma filterMap_range (l : List Task) (m : ℕ) :
    (List.range m).filterMap (fun i => l[i]?) = l.take m := by
  induction m with
  | zero => rfl
  | succ m ih =>
    rw [List.range_succ, List.filterMap_append, ih, List.take_add_one]
    cases h : l[m]? <;> simp [h]

/-- **A thread has executed the first of its tasks**, each of them once. -/
theorem Serves.executedBy_eq (h : Serves tasks s) :
    executedBy tasks s = tasks.take s.hist.executed.length := by
  obtain ⟨rest, hrest⟩ := h.executed_prefix
  have hseq : s.hist.executed.map TaskModel.Task.seq = List.range s.hist.executed.length := by
    have hall := h.once.seq
    rw [← hrest, List.map_append, List.length_append, List.range_add] at hall
    exact (List.append_inj hall (by simp)).1
  rw [← filterMap_range, ← hseq, List.filterMap_map]
  rfl

lemma Serves.executed_le (h : Serves tasks s) : s.hist.executed.length ≤ tasks.length :=
  h.length ▸ h.executed_prefix.length_le

end Threads

end Libchef.GroupSteps
