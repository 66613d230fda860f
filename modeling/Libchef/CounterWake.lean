import Libchef.CounterModel

/-!
Who is woken by the event counter.

A call of `notify` wakes one thread. So the calls that are still to notify when the count
reaches what is needed have to be as many as the threads that are blocked then.
-/

namespace Libchef.CounterWake

open Libchef.Sync Libchef.CounterModel

variable {s s' : State} {a : Act}

/-- A call of `notify` that has not notified yet. -/
def notifying : Thread → Bool
  | .notify | .count | .signal => true
  | _ => false

/-- Not in a call of `notify`, and not on the way out of the wait. -/
def quiet : Thread → Bool
  | .notify | .count | .signal | .leave | .woken _ _ => false
  | _ => true

def pending (s : State) : ℕ := s.monitor.threads.countP notifying

/-- The count has been reached, nobody notifies or wakes up, and a thread is blocked. -/
def Lost (s : State) : Prop :=
  s.check_ = true ∧ (∀ t ∈ s.monitor.threads, quiet t = true) ∧ 0 < s.monitor.waiting

/-- When the count reaches what is needed, no more threads are blocked than there are calls
of `notify` that have not notified yet. -/
def EnoughNotify (s : State) : Act → Prop
  | .piece i => s.monitor.threads[i]? = some .count → s.check_ = false →
      s.needCount_ ≤ s.counted_ + 1 → s.monitor.waiting ≤ pending s
  | _ => True

instance : DecidableRel EnoughNotify
  | _, .piece _ => inferInstanceAs (Decidable (_ → _ → _ → _))
  | _, .wait | _, .waitFor _ | _, .notify | _, .notifyOne _ _ | _, .spurious _
  | _, .timeout _ => isTrue trivial

instance : DecidablePred Lost := fun _ => inferInstanceAs (Decidable (_ ∧ _ ∧ _))

/-! ### What a step can do -/

/-- Thread `i` goes from `t` to `u`, and nothing is counted. -/
structure Goes (s : State) (i : ℕ) (t u : Thread) (m : Monitor Thread) : Prop where
  here : s.monitor.threads[i]? = some t
  threads : m.threads = s.monitor.threads.set i u
  owned : s.monitor.Owned → m.Owned
  sleep : ∀ timed, u = .sleep timed → s.check_ = false
  returned : u = .returned true → s.check_ = true
  waiting : Place.blocked u = true → ∃ timed, t = .sleep timed

section Steps

variable {i : ℕ} {t u : Thread} {m : Monitor Thread}

/-- Neither about to block, nor blocked, nor back from a wait that has been successful. -/
def plain : Thread → Bool
  | .sleep _ | .waiting _ | .returned true => false
  | _ => true

lemma goes_plain (ht : s.monitor.threads[i]? = some t)
    (hm : m.threads = s.monitor.threads.set i u) (ho : s.monitor.Owned → m.Owned)
    (hu : plain u = true) : Goes s i t u m := by
  refine ⟨ht, hm, ho, fun timed h => ?_, fun h => ?_, fun hb => ?_⟩
  · rw [h] at hu
    cases hu
  · rw [h] at hu
    cases hu
  · cases u with
    | waiting timed => cases hu
    | _ => cases hb

lemma goes_put (ht : s.monitor.threads[i]? = some t) (hh : Place.holds u = Place.holds t)
    (hu : plain u = true) : Goes s i t u (s.monitor.put i u) :=
  goes_plain ht rfl (fun ho => ho.put ht hh) hu

lemma goes_release (ht : s.monitor.threads[i]? = some t) (hh : Place.holds t = true)
    (hh' : Place.holds u = false) (hu : plain u = true) :
    Goes s i t u (s.monitor.release i u) :=
  goes_plain ht rfl (fun ho => ho.release ht hh hh') hu

lemma goes_acquire (ht : s.monitor.threads[i]? = some t) (hh : Place.holds u = true)
    (hu : plain u = true) (h : s.acquire i u = some s') :
    ∃ m, Goes s i t u m ∧ s' = { s with monitor := m } := by
  obtain ⟨m, hm, rfl⟩ := Option.map_eq_some_iff.mp h
  obtain ⟨-, rfl⟩ := Monitor.acquire_some hm
  exact ⟨_, goes_plain ht rfl (fun ho => ho.acquire ht hh hm) hu, rfl⟩

lemma goes_returned {timed late : Bool} (ht : s.monitor.threads[i]? = some (.test timed late))
    (hc : s.check_ = true) :
    Goes s i (.test timed late) (.returned true) (s.monitor.release i (.returned true)) := by
  refine ⟨ht, rfl, fun ho => ho.release ht rfl rfl, fun timed h => ?_, fun _ => hc, fun hb => ?_⟩
  · cases h
  · cases hb

/-- **The pieces of the threads**, the one that counts apart. -/
theorem piece_goes (ht : s.monitor.threads[i]? = some t) (hc : t ≠ .count)
    (h : s.piece i t = some s') : ∃ u m, Goes s i t u m ∧
      (notifying t).toNat ≤ (notifying u).toNat ∧ s' = { s with monitor := m } := by
  cases t with
  | enter timed =>
    obtain ⟨m, g, hs⟩ := goes_acquire ht rfl rfl h
    exact ⟨_, m, g, Nat.zero_le _, hs⟩
  | woken timed late =>
    obtain ⟨m, g, hs⟩ := goes_acquire ht rfl rfl h
    exact ⟨_, m, g, Nat.zero_le _, hs⟩
  | notify =>
    obtain ⟨m, g, hs⟩ := goes_acquire ht rfl rfl h
    exact ⟨_, m, g, Nat.le_refl 1, hs⟩
  | test timed late =>
    simp only [State.piece] at h
    split_ifs at h with hcheck hover <;> cases h
    · exact ⟨_, _, goes_returned ht hcheck, Nat.zero_le _, rfl⟩
    · exact ⟨_, _, goes_release ht rfl rfl (u := .returned false) rfl, Nat.zero_le _, rfl⟩
    · refine ⟨.sleep timed, s.monitor.put i (.sleep timed), ⟨ht, rfl, fun ho => ho.put ht rfl,
        fun _ _ => ?_, fun hr => ?_, fun hb => ?_⟩, Nat.zero_le _, rfl⟩
      · simpa using hcheck
      · cases hr
      · cases hb
  | sleep timed =>
    cases h
    refine ⟨.waiting timed, _, ⟨ht, rfl, fun ho => ho.release ht rfl rfl, fun _ hs => ?_,
      fun hr => ?_, fun _ => ⟨timed, rfl⟩⟩, Nat.zero_le _, rfl⟩
    · cases hs
    · cases hr
  | leave =>
    cases h
    exact ⟨_, _, goes_release ht rfl rfl (u := .notified) rfl, Nat.zero_le _, rfl⟩
  | count => exact absurd rfl hc
  | waiting | returned | signal | notified => cases h

lemma goes_wakeUp (h : s.monitor.wakeUp i = some m) :
    ∃ timed, Goes s i (.waiting timed) (.woken timed false) m := by
  obtain ⟨t, ht, hb, rfl⟩ := Monitor.wakeUp_some h
  cases t with
  | waiting timed => exact ⟨timed, goes_put ht rfl rfl⟩
  | _ => cases hb

/-! ### What has been counted -/

/-- The count, and who relies on it. -/
structure Counted (nc : Int32) (s : State) : Prop where
  owned : s.monitor.Owned
  needCount : s.needCount_ = nc
  sleeping : ∀ timed, .sleep timed ∈ s.monitor.threads → s.check_ = false
  happened : s.counted_.toInt ≤ s.happened
  returned : .returned true ∈ s.monitor.threads → nc.toInt ≤ s.happened

variable {nc : Int32}

lemma counted_init (nc : Int32) : Counted nc (init nc) :=
  ⟨⟨by simp [init], by simp [init]⟩, rfl, by simp [init], by simp [init], by simp [init]⟩

lemma Counted.check (h : Counted nc s) (hc : s.check_ = true) : nc.toInt ≤ s.happened := by
  have hle : s.needCount_.toInt ≤ s.counted_.toInt :=
    Int32.le_iff_toInt_le.mp (of_decide_eq_true hc)
  rw [h.needCount] at hle
  exact Int.le_trans hle h.happened

lemma Counted.goes (h : Counted nc s) (g : Goes s i t u m) :
    Counted nc { s with monitor := m } := by
  refine ⟨g.owned h.owned, h.needCount, fun timed hm => ?_, h.happened, fun hm => ?_⟩
  · rcases List.mem_or_eq_of_mem_set (g.threads ▸ hm) with hm | hu
    · exact h.sleeping timed hm
    · exact g.sleep timed hu.symm
  · rcases List.mem_or_eq_of_mem_set (g.threads ▸ hm) with hm | hu
    · exact h.returned hm
    · exact h.check (g.returned hu.symm)

lemma Counted.spawn (h : Counted nc s) (hh : Place.holds t = false) (ht : plain t = true) :
    Counted nc { s with monitor := s.monitor.spawn t } := by
  refine ⟨h.owned.spawn hh, h.needCount, fun timed hm => ?_, h.happened, fun hm => ?_⟩
  · rcases List.mem_append.mp hm with hm | hm
    · exact h.sleeping timed hm
    · rw [← List.mem_singleton.mp hm] at ht
      cases ht
  · rcases List.mem_append.mp hm with hm | hm
    · exact h.returned hm
    · rw [← List.mem_singleton.mp hm] at ht
      cases ht

lemma toInt_add_one {c : Int32} : (c + 1).toInt ≤ c.toInt + 1 := by
  have hlt := c.toInt_lt
  have hle := c.le_toInt
  rw [Int32.toInt_add]
  simp only [Int32.toInt_one, Int.bmod]
  omega

/-- The increment is made by the thread that owns the mutex, so nobody is about to block. -/
lemma Counted.count (h : Counted nc s) (ht : s.monitor.threads[i]? = some .count) :
    Counted nc ({ s with counted_ := s.counted_ + 1, happened := s.happened + 1 }.put i
      .signal) := by
  refine ⟨h.owned.put ht rfl, h.needCount, fun timed hm => ?_, ?_, fun hm => ?_⟩
  · rcases List.mem_or_eq_of_mem_set hm with hm | hu
    · obtain ⟨j, hj⟩ := List.mem_iff_getElem?.mp hm
      have hij := h.owned.unique ht rfl hj rfl
      rw [hij, hj] at ht
      cases ht
    · cases hu
  · have := h.happened
    have := toInt_add_one (c := s.counted_)
    simp only [State.put]
    push_cast
    omega
  · rcases List.mem_or_eq_of_mem_set hm with hm | hu
    · have := h.returned hm
      simp only [State.put]
      push_cast
      omega
    · cases hu

/-- **Every step keeps the count right.** -/
theorem Counted.step (h : Counted nc s) (hs : CounterModel.step s a = some s') :
    Counted nc s' := by
  cases a with
  | wait | waitFor ms | notify =>
    cases hs
    exact h.spawn rfl rfl
  | piece i =>
    obtain ⟨t, ht, hp⟩ := Option.bind_eq_some_iff.mp hs
    by_cases hc : t = .count
    · subst hc
      cases hp
      exact h.count ht
    · obtain ⟨u, m, g, -, rfl⟩ := piece_goes ht hc hp
      exact h.goes g
  | notifyOne i j =>
    simp only [CounterModel.step] at hs
    split_ifs at hs with ht
    obtain ⟨m, hm, rfl⟩ := Option.map_eq_some_iff.mp hs
    have hleave : Counted nc (s.put i .leave) := h.goes (goes_put ht rfl rfl)
    rcases Monitor.notifyOne_some hm with ⟨rfl, -⟩ | ⟨k, hk⟩
    · exact hleave
    · obtain ⟨timed, g⟩ := goes_wakeUp (s := s.put i .leave) hk
      exact hleave.goes g
  | spurious j =>
    obtain ⟨m, hm, rfl⟩ := Option.map_eq_some_iff.mp hs
    obtain ⟨timed, g⟩ := goes_wakeUp hm
    exact h.goes g
  | timeout j =>
    simp only [CounterModel.step] at hs
    split_ifs at hs with ht
    cases hs
    exact h.goes (goes_put ht rfl rfl)

/-! ### Who is still to be woken -/

/-- Once the count has been reached, every blocked thread has a call of `notify` to come. -/
def Enough (s : State) : Prop := s.check_ = true → s.monitor.waiting ≤ pending s

lemma Goes.counts (g : Goes s i t u m) :
    m.waiting + (Place.blocked t).toNat = s.monitor.waiting + (Place.blocked u).toNat ∧
      pending { s with monitor := m } + (notifying t).toNat =
        pending s + (notifying u).toNat := by
  unfold Monitor.waiting pending
  rw [g.threads]
  exact ⟨Monitor.countP_set _ g.here, Monitor.countP_set _ g.here⟩

lemma Enough.goes (h : Enough s) (hc : Counted nc s) (g : Goes s i t u m)
    (hn : (notifying t).toNat ≤ (notifying u).toNat) : Enough { s with monitor := m } := by
  intro hcheck
  obtain ⟨hw, hp⟩ := g.counts
  have hle := h hcheck
  have hu : Place.blocked u = false := by
    by_contra hb
    obtain ⟨timed, rfl⟩ := g.waiting (by simpa using hb)
    have := hc.sleeping timed (List.mem_of_getElem? g.here)
    rw [show s.check_ = true from hcheck] at this
    cases this
  rw [hu] at hw
  simp only [Bool.toNat_false] at hw
  show m.waiting ≤ _
  omega

lemma Enough.spawn (h : Enough s) (hb : Place.blocked t = false) :
    Enough { s with monitor := s.monitor.spawn t } := by
  intro hcheck
  have hle := h hcheck
  simp only [pending, Monitor.waiting, Monitor.spawn, List.countP_append, List.countP_singleton,
    hb] at hle ⊢
  simp only [Bool.false_eq_true, if_false]
  omega

lemma Enough.count (h : Enough s) (ht : s.monitor.threads[i]? = some .count)
    (hok : EnoughNotify s (.piece i)) :
    Enough ({ s with counted_ := s.counted_ + 1, happened := s.happened + 1 }.put i .signal) := by
  intro hcheck
  have g : Goes s i .count .signal (s.monitor.put i .signal) :=
    goes_put ht rfl rfl
  obtain ⟨hw, hp⟩ := g.counts
  have hle : s.monitor.waiting ≤ pending s := by
    cases hs : s.check_
    · exact hok ht hs (of_decide_eq_true hcheck)
    · exact h hs
  simp only [Place.blocked, notifying, Bool.toNat_true, Bool.toNat_false] at hw hp
  show (s.monitor.put i .signal).waiting ≤ pending { s with monitor := s.monitor.put i .signal }
  omega

lemma Enough.notifyOne {j : Option ℕ} (h : Enough s) (ht : s.monitor.threads[i]? = some .signal)
    (hm : (s.monitor.put i .leave).notifyOne j = some m) : Enough { s with monitor := m } := by
  intro hcheck
  have g : Goes s i .signal .leave (s.monitor.put i .leave) := goes_put ht rfl rfl
  obtain ⟨hw, hp⟩ := g.counts
  have hle := h hcheck
  simp only [Place.blocked, notifying, Bool.toNat_true, Bool.toNat_false] at hw hp
  show m.waiting ≤ _
  rcases Monitor.notifyOne_some hm with ⟨rfl, hzero⟩ | ⟨k, hk⟩
  · omega
  · obtain ⟨timed, g'⟩ := goes_wakeUp (s := s.put i .leave) hk
    obtain ⟨hw', hp'⟩ := g'.counts
    simp only [Place.blocked, notifying, Bool.toNat_true, Bool.toNat_false, State.put] at hw' hp'
    omega

/-- **Every step leaves calls enough**, if the step that reaches the count does. -/
theorem Enough.step (h : Enough s) (hc : Counted nc s) (hok : EnoughNotify s a)
    (hs : CounterModel.step s a = some s') : Enough s' := by
  cases a with
  | wait | waitFor ms | notify =>
    cases hs
    exact h.spawn rfl
  | piece i =>
    obtain ⟨t, ht, hp⟩ := Option.bind_eq_some_iff.mp hs
    by_cases hcount : t = .count
    · subst hcount
      cases hp
      exact h.count ht hok
    · obtain ⟨u, m, g, hn, rfl⟩ := piece_goes ht hcount hp
      exact h.goes hc g hn
  | notifyOne i j =>
    simp only [CounterModel.step] at hs
    split_ifs at hs with ht
    obtain ⟨m, hm, rfl⟩ := Option.map_eq_some_iff.mp hs
    exact h.notifyOne ht hm
  | spurious j =>
    obtain ⟨m, hm, rfl⟩ := Option.map_eq_some_iff.mp hs
    obtain ⟨timed, g⟩ := goes_wakeUp hm
    exact h.goes hc g (Nat.zero_le _)
  | timeout j =>
    simp only [CounterModel.step] at hs
    split_ifs at hs with ht
    cases hs
    exact h.goes hc (goes_put ht rfl rfl) (Nat.zero_le _)

lemma run_counted {acts : List Act} (h : run nc acts = some s) : Counted nc s :=
  Runs.exec_invariant' (fun _ _ _ hc hs => Counted.step hc hs) (counted_init nc) h

end Steps

end Libchef.CounterWake
