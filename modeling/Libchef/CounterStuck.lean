import Libchef.CounterWake

/-!
What becomes of a counter whose calls of `notify` are not enough.

Once the count has been reached nobody blocks any more, and a call of `notify` wakes one
thread. The threads that can go on have only so far to go, and when they are there, the
others are blocked for good.
-/

namespace Libchef.CounterStuck

open Libchef.Sync Libchef.CounterModel Libchef.CounterWake

variable {nc : Int32} {s s' : State} {a : Act} {i : ℕ} {t u : Thread} {m : Monitor Thread}

/-- A call of `notify` that has yet to make its increment. -/
def counting : Thread → Bool
  | .notify | .count => true
  | _ => false

/-- The calls in progress do not take the count past the largest `int`. -/
def Room (s : State) : Prop :=
  s.counted_.toInt + s.monitor.threads.countP counting < 2 ^ 31

/-- How far a thread has to go. A blocked one counts as one that has just been woken. -/
def distance : Thread → ℕ
  | .notify => 4
  | .count => 3
  | .signal | .waiting _ | .woken _ _ => 2
  | .leave | .test _ _ => 1
  | _ => 0

def remaining (s : State) : ℕ := (s.monitor.threads.map distance).sum

/-- The count has been reached with more threads blocked than calls that have to notify. -/
structure Behind (nc : Int32) (s : State) : Prop where
  counted : Counted nc s
  check : s.check_ = true
  room : Room s
  behind : pending s < s.monitor.waiting

lemma Behind.goes (h : Behind nc s) (g : Goes s i t u m)
    (hb : Place.blocked u = Place.blocked t) (hn : notifying u = notifying t)
    (hc : counting u = counting t) (hd : distance u < distance t) :
    Behind nc { s with monitor := m } ∧ remaining { s with monitor := m } < remaining s := by
  obtain ⟨hw, hp⟩ := g.counts
  have hcount := Monitor.countP_set (p := u) counting g.here
  have hsum := Monitor.sum_set (p := u) distance g.here
  have hroom := h.room
  have hbehind := h.behind
  rw [hb] at hw
  rw [hn] at hp
  rw [hc, ← g.threads] at hcount
  rw [← g.threads] at hsum
  refine ⟨⟨h.counted.goes g, h.check, ?_, ?_⟩, ?_⟩
  · unfold Room at hroom ⊢
    simp only
    omega
  · show pending { s with monitor := m } < m.waiting
    omega
  · unfold remaining
    simp only
    omega

lemma toInt_succ (h : Room s) (ht : s.monitor.threads[i]? = some .count) :
    (s.counted_ + 1).toInt = s.counted_.toInt + 1 := by
  have hle := s.counted_.le_toInt
  have hpos : 0 < s.monitor.threads.countP counting :=
    List.countP_pos_iff.mpr ⟨.count, List.mem_of_getElem? ht, rfl⟩
  unfold Room at h
  rw [Int32.toInt_add]
  simp only [Int32.toInt_one, Int.bmod]
  omega

/-- An increment after which the count is reached, with too few calls of `notify`. -/
lemma count_behind (h : Counted nc s) (ht : s.monitor.threads[i]? = some .count) (hroom : Room s)
    (hbehind : pending s < s.monitor.waiting) (hreach : s.needCount_ ≤ s.counted_ + 1) :
    ∃ s', step s (.piece i) = some s' ∧ Behind nc s' ∧ remaining s' < remaining s := by
  have g : Goes s i .count .signal (s.monitor.put i .signal) := goes_put ht rfl rfl
  obtain ⟨hw, hp⟩ := g.counts
  have hcount := Monitor.countP_set (p := .signal) counting ht
  have hsum := Monitor.sum_set (p := .signal) distance ht
  have hone := toInt_succ hroom ht
  simp only [Place.blocked, notifying, counting, distance, Bool.toNat_true, Bool.toNat_false]
    at hw hp hcount hsum
  unfold Room at hroom
  refine ⟨_, Option.bind_eq_some_iff.mpr ⟨_, ht, rfl⟩,
    ⟨h.count ht, decide_eq_true hreach, ?_, ?_⟩, ?_⟩
  · show (s.counted_ + 1).toInt + (((s.monitor.threads.set i .signal).countP counting : ℕ) : ℤ) <
      2 ^ 31
    omega
  · show pending { s with monitor := s.monitor.put i .signal } <
      (s.monitor.put i .signal).waiting
    omega
  · show ((s.monitor.threads.set i .signal).map distance).sum < remaining s
    unfold remaining
    omega

lemma Behind.count (h : Behind nc s) (ht : s.monitor.threads[i]? = some .count) :
    ∃ s', step s (.piece i) = some s' ∧ Behind nc s' ∧ remaining s' < remaining s := by
  have hle := Int32.le_iff_toInt_le.mp (of_decide_eq_true h.check)
  have hone := toInt_succ h.room ht
  exact count_behind h.counted ht h.room h.behind (Int32.le_iff_toInt_le.mpr (by omega))

/-- A notification wakes one thread, and is one call less. -/
lemma Behind.signal (h : Behind nc s) (ht : s.monitor.threads[i]? = some .signal) :
    ∃ j s', step s (.notifyOne i j) = some s' ∧ Behind nc s' ∧ remaining s' < remaining s := by
  have g : Goes s i .signal .leave (s.monitor.put i .leave) := goes_put ht rfl rfl
  obtain ⟨hw, hp⟩ := g.counts
  have hcount := Monitor.countP_set (p := .leave) counting ht
  have hsum := Monitor.sum_set (p := .leave) distance ht
  have hroom := h.room
  have hbehind := h.behind
  simp only [Place.blocked, notifying, counting, distance, Bool.toNat_true, Bool.toNat_false]
    at hw hp hcount hsum
  obtain ⟨j, m, hm⟩ := Monitor.exists_wakeUp (m := s.monitor.put i .leave) (by omega)
  obtain ⟨timed, g'⟩ := goes_wakeUp (s := s.put i .leave) hm
  obtain ⟨hw', hp'⟩ := g'.counts
  have hcount' := Monitor.countP_set (p := .woken timed false) counting g'.here
  have hsum' := Monitor.sum_set (p := .woken timed false) distance g'.here
  rw [← g'.threads] at hcount' hsum'
  simp only [Place.blocked, notifying, counting, distance, Bool.toNat_true, Bool.toNat_false,
    State.put, Monitor.put] at hw' hp' hcount' hsum' hw hp
  refine ⟨some j, { s with monitor := m }, ?_, ⟨(h.counted.goes g).goes g', h.check, ?_, ?_⟩, ?_⟩
  · simp only [step, ht, if_true, Monitor.notifyOne, hm, Option.map_some]
  · unfold Room at hroom ⊢
    simp only
    omega
  · show pending { s with monitor := m } < m.waiting
    omega
  · show (m.threads.map distance).sum < remaining s
    unfold remaining
    omega

lemma Behind.piece (h : Behind nc s) (g : Goes s i t u m)
    (hs : s.piece i t = some { s with monitor := m })
    (hb : Place.blocked u = Place.blocked t) (hn : notifying u = notifying t)
    (hc : counting u = counting t) (hd : distance u < distance t) :
    ∃ a s', step s a = some s' ∧ Behind nc s' ∧ remaining s' < remaining s :=
  ⟨.piece i, _, Option.bind_eq_some_iff.mpr ⟨t, g.here, hs⟩, h.goes g hb hn hc hd⟩

/-- The owner of the mutex can always go on. -/
lemma Behind.advance_owner (h : Behind nc s) (ho : s.monitor.owner = some i) :
    ∃ a s', step s a = some s' ∧ Behind nc s' ∧ remaining s' < remaining s := by
  obtain ⟨t, ht⟩ : ∃ t, s.monitor.threads[i]? = some t :=
    ⟨_, List.getElem?_eq_getElem (h.counted.owned.lt_length i ho)⟩
  have hh := (h.counted.owned.holds_iff i t ht).mpr ho
  cases t with
  | test timed late =>
    have hpiece : s.piece i (.test timed late) = some (s.release i (.returned true)) := by
      simp [State.piece, h.check]
    exact h.piece (goes_returned ht h.check) hpiece rfl rfl rfl (by simp [distance])
  | sleep timed =>
    have := h.counted.sleeping timed (List.mem_of_getElem? ht)
    rw [h.check] at this
    cases this
  | count =>
    obtain ⟨s', hs⟩ := h.count ht
    exact ⟨_, s', hs⟩
  | signal =>
    obtain ⟨j, s', hs⟩ := h.signal ht
    exact ⟨_, s', hs⟩
  | leave =>
    have g : Goes s i .leave .notified (s.monitor.release i .notified) :=
      goes_release ht rfl rfl rfl
    exact h.piece g rfl rfl rfl rfl (by simp [distance])
  | _ => cases hh

/-- A thread that takes the free mutex. -/
lemma Behind.advance_free (h : Behind nc s) (ho : s.monitor.owner = none)
    (ht : s.monitor.threads[i]? = some t) (hq : quiet t = false) :
    ∃ a s', step s a = some s' ∧ Behind nc s' ∧ remaining s' < remaining s := by
  have hacq : ∀ u, s.monitor.acquire i u =
      some { owner := some i, threads := s.monitor.threads.set i u } := fun u => by
    rw [Monitor.acquire, if_pos ho]
  have hfree : Place.holds t = false := by
    by_contra hh
    have := (h.counted.owned.holds_iff i t ht).mp (by simpa using hh)
    rw [ho] at this
    cases this
  cases t with
  | woken timed late =>
    have g : Goes s i (.woken timed late) (.test timed late) _ :=
      goes_plain ht rfl (fun hown => hown.acquire ht rfl (hacq _)) rfl
    exact h.piece g (by simp [State.piece, State.acquire, hacq]) rfl rfl rfl (by simp [distance])
  | notify =>
    have g : Goes s i .notify .count _ :=
      goes_plain ht rfl (fun hown => hown.acquire ht rfl (hacq _)) rfl
    exact h.piece g (by simp [State.piece, State.acquire, hacq]) rfl rfl rfl (by simp [distance])
  | count | signal | leave => cases hfree
  | _ => cases hq

/-- **Some thread can go on**, as long as one that is not blocked has anywhere to go. -/
theorem Behind.advance (h : Behind nc s) (hl : ¬ Lost s) :
    ∃ a s', step s a = some s' ∧ Behind nc s' ∧ remaining s' < remaining s := by
  cases ho : s.monitor.owner with
  | some i => exact h.advance_owner ho
  | none =>
    have hquiet : ¬ ∀ t ∈ s.monitor.threads, quiet t = true := fun hq =>
      hl ⟨h.check, hq, Nat.lt_of_le_of_lt (Nat.zero_le _) h.behind⟩
    simp only [not_forall, Bool.not_eq_true] at hquiet
    obtain ⟨t, hmem, hq⟩ := hquiet
    obtain ⟨i, ht⟩ := List.mem_iff_getElem?.mp hmem
    exact h.advance_free ho ht hq

end Libchef.CounterStuck
