import Libchef.PoolModel

/-!
The end of a thread pool.

The destructor stores the exit flag and notifies without the mutex, so that both can fall
between a worker's test of the flag and its wait.
-/

namespace Libchef.PoolExit

open Libchef.Sync Libchef.PoolModel

variable {s s' : State} {a : Act}

/-- After the last notification a worker is blocked, and nothing is on its way to wake it. -/
def Lost (s : State) : Prop := s.destructor = .notified ∧ .waiting ∈ s.monitor.threads

/-- The destructor notifies when no worker is between its test and its wait. -/
def NoneFallingAsleep (s : State) (a : Act) : Prop :=
  a = .notifyAll → .sleep ∉ s.monitor.threads

instance : DecidableRel NoneFallingAsleep := fun _ _ => inferInstanceAs (Decidable (_ → _))

instance : DecidablePred Lost := fun _ => inferInstanceAs (Decidable (_ ∧ _))

/-- Where the workers are not, once the destructor has notified. -/
structure Awake (s : State) : Prop where
  exiting : s.destructor ≠ .alive → s.exitFlag_ = true
  awake : s.destructor = .notified → .sleep ∉ s.monitor.threads ∧ .waiting ∉ s.monitor.threads

/-- What a step other than the two of the destructor can do. -/
structure Moves (s s' : State) : Prop where
  destructor : s'.destructor = s.destructor
  exitFlag : s'.exitFlag_ = s.exitFlag_
  sleep : .sleep ∈ s'.monitor.threads → .sleep ∈ s.monitor.threads ∨ s.exitFlag_ = false
  waiting : .waiting ∈ s'.monitor.threads →
    .waiting ∈ s.monitor.threads ∨ .sleep ∈ s.monitor.threads

/-- Neither asleep nor on the way. -/
def settled : Thread → Bool
  | .sleep | .waiting => false
  | _ => true

lemma moves_of (hsub : ∀ u ∈ s'.monitor.threads, u ∈ s.monitor.threads ∨ settled u = true)
    (hd : s'.destructor = s.destructor) (he : s'.exitFlag_ = s.exitFlag_) : Moves s s' := by
  refine ⟨hd, he, fun h => ?_, fun h => ?_⟩ <;> rcases hsub _ h with h | h
  · exact Or.inl h
  · cases h
  · exact Or.inl h
  · cases h

lemma mem_set {l : List Thread} {i : ℕ} {t u : Thread} (hu : u ∈ l.set i t)
    (ht : settled t = true) : u ∈ l ∨ settled u = true := by
  rcases List.mem_or_eq_of_mem_set hu with hu | rfl
  · exact Or.inl hu
  · exact Or.inr ht

lemma moves_set {i : ℕ} {t : Thread} (hm : s'.monitor.threads = s.monitor.threads.set i t)
    (ht : settled t = true) (hd : s'.destructor = s.destructor)
    (he : s'.exitFlag_ = s.exitFlag_) : Moves s s' :=
  moves_of (fun _ hu => mem_set (hm ▸ hu) ht) hd he

lemma acquire_moves {i : ℕ} {t : Thread} (ht : settled t = true)
    (h : s.acquire i t = some s') : Moves s s' := by
  obtain ⟨m, hm, rfl⟩ := Option.map_eq_some_iff.mp h
  obtain ⟨-, rfl⟩ := Monitor.acquire_some hm
  exact moves_set rfl ht rfl rfl

lemma wakeUp_moves {j : ℕ} {m : Monitor Thread} (h : s.monitor.wakeUp j = some m) :
    Moves s { s with monitor := m } := by
  obtain ⟨t, -, -, rfl⟩ := Monitor.wakeUp_some h
  exact moves_set rfl (t := .woken) rfl rfl rfl

/-- **A worker falls asleep only where the flag is not set.** -/
theorem piece_moves {i : ℕ} {t : Thread} (ht : t ∈ s.monitor.threads)
    (h : s.piece i t = some s') : Moves s s' := by
  cases t with
  | loop =>
    cases h
    refine moves_set rfl ?_ rfl rfl
    cases s.exitFlag_ <;> rfl
  | enter | woken => exact acquire_moves rfl h
  | test =>
    cases h
    by_cases hc : (!s.exitFlag_ && s.tasks_.isEmpty) = true
    · rw [if_pos hc]
      simp only [Bool.and_eq_true, Bool.not_eq_true'] at hc
      refine ⟨rfl, rfl, fun _ => Or.inr hc.1, fun hw => ?_⟩
      rcases List.mem_or_eq_of_mem_set hw with hw | hw
      · exact Or.inl hw
      · cases hw
    · rw [if_neg hc]
      exact moves_set rfl rfl rfl rfl
  | sleep =>
    cases h
    refine ⟨rfl, rfl, fun hs => Or.inl ?_, fun _ => Or.inr ht⟩
    rcases List.mem_or_eq_of_mem_set hs with hs | hs
    · exact hs
    · cases hs
  | take =>
    cases h
    unfold State.take
    split <;> exact moves_set rfl rfl rfl rfl
  | run t =>
    cases t with
    | none => cases h; exact moves_set rfl rfl rfl rfl
    | some t =>
      simp only [State.piece] at h
      split_ifs at h <;> cases h <;> exact moves_set rfl rfl rfl rfl
  | lock c => exact acquire_moves rfl h
  | done | add c | push c | leave => cases h; exact moves_set rfl rfl rfl rfl
  | waiting | ended | notify | added => cases h

lemma notifyOne_moves {i : ℕ} {j : Option ℕ} {m : Monitor Thread}
    (h : (s.monitor.put i .leave).notifyOne j = some m) : Moves s { s with monitor := m } := by
  rcases Monitor.notifyOne_some h with ⟨rfl, -⟩ | ⟨k, hk⟩
  · exact moves_set rfl rfl rfl rfl
  · obtain ⟨t, -, -, rfl⟩ := Monitor.wakeUp_some hk
    refine moves_of (fun u hu => ?_) rfl rfl
    rcases mem_set (t := .woken) hu rfl with hu | hu
    · exact mem_set hu rfl
    · exact Or.inr hu

lemma spawn_moves {t : Thread} {n : ℕ} {c : UInt64} (ht : settled t = true) :
    Moves s { s with monitor := s.monitor.spawn t, started := n, numOfUndoneTask_ := c } := by
  refine moves_of (fun u hu => ?_) rfl rfl
  rcases List.mem_append.mp hu with hu | hu
  · exact Or.inl hu
  · exact Or.inr (List.mem_singleton.mp hu ▸ ht)

theorem step_moves (hs : step s a = some s') (hx : a ≠ .exit) (hn : a ≠ .notifyAll) :
    Moves s s' := by
  cases a with
  | start =>
    simp only [step] at hs
    split_ifs at hs
    cases hs
    exact spawn_moves rfl
  | add c =>
    cases hs
    exact spawn_moves rfl
  | piece i =>
    obtain ⟨t, ht, h⟩ := Option.bind_eq_some_iff.mp hs
    exact piece_moves (List.mem_of_getElem? ht) h
  | notifyOne i j =>
    simp only [step] at hs
    split_ifs at hs with ht
    obtain ⟨m, hm, rfl⟩ := Option.map_eq_some_iff.mp hs
    exact notifyOne_moves hm
  | spurious j =>
    obtain ⟨m, hm, rfl⟩ := Option.map_eq_some_iff.mp hs
    exact wakeUp_moves hm
  | exit => exact absurd rfl hx
  | notifyAll => exact absurd rfl hn

/-- **Every step keeps the workers awake**, once the destructor has notified in time. -/
theorem Awake.step (h : Awake s) (hok : NoneFallingAsleep s a)
    (hs : PoolModel.step s a = some s') : Awake s' := by
  by_cases hx : a = .exit
  · subst hx
    simp only [PoolModel.step] at hs
    split_ifs at hs
    cases hs
    exact ⟨fun _ => rfl, nofun⟩
  by_cases hn : a = .notifyAll
  · subst hn
    simp only [PoolModel.step] at hs
    split_ifs at hs with hd
    cases hs
    refine ⟨fun _ => h.exiting (by rw [hd]; nofun), fun _ => ⟨fun hm => ?_, fun hm => ?_⟩⟩
    · obtain ⟨t, ht, he⟩ := List.mem_map.mp hm
      by_cases hb : Place.blocked t = true
      · rw [if_pos hb] at he
        cases he
      · rw [if_neg hb] at he
        exact hok rfl (he ▸ ht)
    · cases Monitor.not_blocked_notifyAll hm
  · have hmove := step_moves hs hx hn
    refine ⟨fun hd => ?_, fun hd => ?_⟩
    · rw [hmove.exitFlag]
      exact h.exiting (hmove.destructor ▸ hd)
    · rw [hmove.destructor] at hd
      obtain ⟨hsleep, hwait⟩ := h.awake hd
      refine ⟨fun hm => ?_, fun hm => (hmove.waiting hm).elim hwait hsleep⟩
      rcases hmove.sleep hm with hm | he
      · exact hsleep hm
      · rw [h.exiting (by rw [hd]; nofun)] at he
        cases he

/-- A worker that falls asleep while the destructor notifies is not woken. -/
lemma lost_of_sleep (h : .sleep ∈ s.monitor.threads)
    (hs : PoolModel.step s .notifyAll = some s') :
    ∃ i s'', PoolModel.step s' (.piece i) = some s'' ∧ Lost s'' := by
  simp only [PoolModel.step] at hs
  split_ifs at hs
  cases hs
  obtain ⟨i, hi, he⟩ := List.mem_iff_getElem.mp (Monitor.mem_notifyAll (m := s.monitor) rfl h)
  refine ⟨i, _, Option.bind_eq_some_iff.mpr ⟨.sleep, List.getElem?_eq_some_iff.mpr ⟨hi, he⟩, rfl⟩,
    rfl, List.mem_set hi _⟩

lemma awake_init (numOfThread : UInt32) : Awake (init numOfThread) :=
  ⟨fun h => absurd rfl h, nofun⟩

/-- **When no wake-up is lost.** As long as no worker is between its test and its wait when
the destructor notifies, no worker is blocked after that. In every other run the next step of
such a worker blocks it for good. -/
theorem no_lost_wakeup (numOfThread : UInt32) {acts : List Act}
    (h : run numOfThread acts = some s) :
    (Runs.Along step NoneFallingAsleep (init numOfThread) acts → ¬ Lost s) ∧
    (¬ Runs.Along step NoneFallingAsleep (init numOfThread) acts → ∃ acts' i s',
      acts' <+: acts ∧ run numOfThread (acts' ++ [.piece i]) = some s' ∧ Lost s') := by
  refine ⟨fun hok hl => ?_, fun hok => ?_⟩
  · have ha : Awake s :=
      Runs.exec_invariant (fun _ _ _ ha hok hs => ha.step hok hs) (awake_init _) hok h
    exact (ha.awake hl.1).2 hl.2
  · obtain ⟨l₁, a, l₂, s₁, s₂, rfl, h₁, hna, h₂, -⟩ := Runs.exists_step_of_not_along h hok
    simp only [NoneFallingAsleep, not_forall, not_not] at hna
    obtain ⟨rfl, hsleep⟩ := hna
    obtain ⟨i, s', hs, hl⟩ := lost_of_sleep hsleep h₂
    refine ⟨l₁ ++ [.notifyAll], i, s', ⟨l₂, by simp⟩, ?_, hl⟩
    have hrun : run numOfThread (l₁ ++ [.notifyAll]) = some s₂ := by
      rw [run, Runs.exec_append, h₁]
      exact Runs.exec_cons_some.mpr ⟨s₂, h₂, rfl⟩
    rw [run, Runs.exec_append, ← run, hrun]
    exact Runs.exec_cons_some.mpr ⟨s', hs, rfl⟩

/-- A worker that sleeps when the destructor notifies. -/
theorem no_lost_wakeup_asleep :
    ∃ s, run 1 ([.start] ++ List.replicate 4 (.piece 0) ++ [.exit, .notifyAll]) = some s ∧
      s.destructor = .notified ∧ ¬ Lost s :=
  ⟨_, rfl, rfl, (no_lost_wakeup 1 (show run 1 ([.start] ++ List.replicate 4 (.piece 0) ++
    [.exit, .notifyAll]) = some _ from rfl)).1 (by decide)⟩

/-- A worker that has made its test when the destructor notifies, and then blocks. -/
theorem wakeup_lost :
    ∃ s, run 1 ([.start] ++ List.replicate 3 (.piece 0) ++ [.exit, .notifyAll, .piece 0]) =
      some s ∧ Lost s :=
  ⟨_, rfl, rfl, by decide⟩

end Libchef.PoolExit
