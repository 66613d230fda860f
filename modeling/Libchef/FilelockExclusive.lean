import Mathlib.Data.Fintype.EquivFin
import Libchef.FilelockModel

/-!
Whether file locks exclude one another.

The lock belongs to the process. The objects of one process do not exclude one another, and
where one of them is unlocked or destroyed the lock of the others goes with it.
-/

namespace Libchef.FilelockExclusive

open Libchef.RecordLock Libchef.FilelockModel

variable {s s' : State} {a : Act} {i j p q : ℕ} {fl : Filelock} {acts : List Act}

/-- The object `i` is locked, in the process `p`. -/
def LockedAs (s : State) (i p : ℕ) : Prop :=
  ∃ fl, s.get? i = some fl ∧ fl.locked = true ∧ fl.process = p

/-- At most one object is locked. -/
def Exclusive (s : State) : Prop := ∀ i j p q, LockedAs s i p → LockedAs s j q → i = j

/-- No other object of the process is locked. -/
def Alone (s : State) (i : ℕ) (fl : Filelock) : Prop :=
  ∀ j < s.objects.length, ∀ fl' ∈ s.get? j,
    fl'.process = fl.process → fl'.locked = true → j = i

/-- While an object is locked, no other object of its process asks for the lock, is unlocked or
closes its descriptor. -/
def Undisturbed (s : State) : Act → Prop
  | .lock i _ | .tryLock i _ | .unlock i _ => ∀ fl ∈ s.get? i, Alone s i fl
  | .destroy i => ∀ fl ∈ s.get? i, fl.fd_ ≠ none → Alone s i fl
  | _ => True

instance : Decidable (Alone s i fl) :=
  inferInstanceAs (Decidable (∀ j < s.objects.length, ∀ fl' ∈ s.get? j, _ → _ → j = i))

instance : DecidableRel Undisturbed
  | s, .lock i _ | s, .tryLock i _ | s, .unlock i _ =>
    inferInstanceAs (Decidable (∀ fl ∈ s.get? i, Alone s i fl))
  | s, .destroy i => inferInstanceAs (Decidable (∀ fl ∈ s.get? i, fl.fd_ ≠ none → Alone s i fl))
  | _, .construct _ | _, .attach _ _ => inferInstanceAs (Decidable True)

/-! ### What a step does to the locked objects -/

/-- Nothing changes, except that objects may not be locked any more. -/
structure Neutral (s s' : State) : Prop where
  lock : s'.lock = s.lock
  locked : ∀ j q, LockedAs s' j q → LockedAs s j q

/-- The object gets the lock. -/
structure Granted (s s' : State) (i : ℕ) (fl : Filelock) : Prop where
  lock : s.lock.request fl.process = some s'.lock
  locked : ∀ j q, LockedAs s' j q ↔ j = i ∧ q = fl.process ∨ LockedAs s j q

/-- The process of the object loses the lock. -/
structure Released (s s' : State) (i : ℕ) (fl : Filelock) : Prop where
  lock : s'.lock = s.lock.release fl.process
  locked : ∀ j q, LockedAs s' j q ↔ j ≠ i ∧ LockedAs s j q

lemma lockedAs_put (h : s.get? i = some fl) {o : Option Filelock} :
    LockedAs (s.put i o) j q ↔
      (j = i ∧ ∃ fl', o = some fl' ∧ fl'.locked = true ∧ fl'.process = q) ∨
        j ≠ i ∧ LockedAs s j q := by
  unfold LockedAs
  rw [State.get?_put h]
  by_cases hj : j = i <;> simp [hj]

lemma lockedAs_lock {l : Lock ℕ} : LockedAs { s with lock := l } j q ↔ LockedAs s j q := Iff.rfl

lemma lockedAs_iff (h : s.get? i = some fl) :
    LockedAs s i q ↔ fl.locked = true ∧ fl.process = q := by
  unfold LockedAs
  rw [h]
  simp

lemma granted_setWriteLock (h : s.get? i = some fl) {l : Lock ℕ}
    (hl : s.lock.request fl.process = some l) :
    Granted s { s.put i (some { fl with locked := true }) with lock := l } i fl := by
  refine ⟨hl, fun j q => ?_⟩
  rw [lockedAs_lock, lockedAs_put h]
  by_cases hj : j = i
  · subst hj
    rw [lockedAs_iff h]
    simp only [true_and, Option.some.injEq, exists_eq_left', ne_eq, not_true, false_and, or_false]
    tauto
  · simp [hj]

lemma setWriteLock_cases {granted : Bool} (h : s.get? i = some fl)
    (hs : s.setWriteLock i fl granted = some s') :
    fl.fd_ ≠ none ∧ (s' = s ∨ Granted s s' i fl) := by
  unfold State.setWriteLock at hs
  split_ifs at hs with hfd hg
  · obtain ⟨l, hl, rfl⟩ := Option.map_eq_some_iff.mp hs
    exact ⟨hfd, Or.inr (granted_setWriteLock h hl)⟩
  · exact ⟨hfd, Or.inl (Option.some.inj hs).symm⟩

lemma unlock_cases {done : Bool} (h : s.get? i = some fl)
    (hs : s.unlockStep i fl done = some s') :
    fl.fd_ ≠ none ∧ (∀ j q, LockedAs s' j q ↔ j ≠ i ∧ LockedAs s j q) ∧
      s'.lock = if done then s.lock.release fl.process else s.lock := by
  unfold State.unlockStep at hs
  split_ifs at hs with hfd hd <;> cases hs <;> refine ⟨hfd, fun j q => ?_, ?_⟩
  any_goals
    rw [lockedAs_lock, lockedAs_put h]
    simp
  · rw [if_pos hd]
  · rw [if_neg hd]

lemma destroy_cases (h : s.get? i = some fl) :
    (fl.fd_ = none ∧ Neutral s (s.destroyStep i fl)) ∨
      fl.fd_ ≠ none ∧ Released s (s.destroyStep i fl) i fl := by
  have hlocked (j q : ℕ) : LockedAs (s.put i none) j q ↔ j ≠ i ∧ LockedAs s j q := by
    rw [lockedAs_put h]
    simp
  by_cases hfd : fl.fd_ = none
  · exact Or.inl ⟨hfd, by simp [State.destroyStep, hfd], fun j q hj => ((hlocked j q).mp hj).2⟩
  · exact Or.inr ⟨hfd, by simp [State.destroyStep, hfd], hlocked⟩

lemma attach_neutral {fd : Option ℕ} (h : s.get? i = some fl) (hs : s.attach i fl fd = some s') :
    Neutral s s' := by
  cases fd with
  | none =>
    simp only [State.attach] at hs
    split_ifs at hs
    cases hs
    exact ⟨rfl, fun _ _ hj => hj⟩
  | some fd =>
    simp only [State.attach] at hs
    split_ifs at hs
    cases hs
    refine ⟨rfl, fun j q hj => ?_⟩
    rcases (lockedAs_put h).mp hj with ⟨rfl, fl', he, hl⟩ | ⟨-, hj⟩
    · cases he
      exact (lockedAs_iff h).mpr hl
    · exact hj

lemma construct_neutral : Neutral s ⟨s.objects ++ [some ⟨p, none, false⟩], s.lock⟩ := by
  refine ⟨rfl, fun j q ⟨fl, hj, hl⟩ => ?_⟩
  rw [State.get?_construct] at hj
  split_ifs at hj
  · cases hj
    exact absurd hl.1 Bool.false_ne_true
  · exact ⟨fl, hj, hl⟩

lemma undisturbed_iff (h : s.get? i = some fl) :
    (∀ fl ∈ s.get? i, Alone s i fl) ↔ Alone s i fl := by
  rw [h]
  simp

/-- **What a step does.** -/
theorem step_cases (hs : step s a = some s') :
    Neutral s s' ∨ ∃ i fl, s.get? i = some fl ∧ (Undisturbed s a → Alone s i fl) ∧
      (Granted s s' i fl ∨ Released s s' i fl) := by
  cases a with
  | construct p =>
    cases hs
    exact Or.inl construct_neutral
  | attach i fd =>
    obtain ⟨fl, h, hs⟩ := Option.bind_eq_some_iff.mp hs
    exact Or.inl (attach_neutral h hs)
  | lock i granted | tryLock i granted =>
    obtain ⟨fl, h, hs⟩ := Option.bind_eq_some_iff.mp hs
    rcases setWriteLock_cases h hs with ⟨-, rfl | hg⟩
    · exact Or.inl ⟨rfl, fun _ _ hj => hj⟩
    · exact Or.inr ⟨i, fl, h, (undisturbed_iff h).mp, Or.inl hg⟩
  | unlock i done =>
    obtain ⟨fl, h, hs⟩ := Option.bind_eq_some_iff.mp hs
    obtain ⟨-, hlocked, hlock⟩ := unlock_cases h hs
    cases done with
    | false => exact Or.inl ⟨hlock, fun j q hj => ((hlocked j q).mp hj).2⟩
    | true => exact Or.inr ⟨i, fl, h, (undisturbed_iff h).mp, Or.inr ⟨hlock, hlocked⟩⟩
  | destroy i =>
    obtain ⟨fl, h, rfl⟩ := Option.map_eq_some_iff.mp hs
    rcases destroy_cases h with ⟨-, hn⟩ | ⟨hfd, hr⟩
    · exact Or.inl hn
    · exact Or.inr ⟨i, fl, h, fun hok => hok fl h hfd, Or.inr hr⟩

/-! ### Exclusion -/

/-- What excludes the others: a locked object's process has the lock. -/
structure Inv (s : State) : Prop where
  owned : ∀ i p, LockedAs s i p → s.lock.owner = some p
  exclusive : Exclusive s

lemma inv_init : Inv init := by
  have hno (i p : ℕ) : ¬ LockedAs init i p := by
    rintro ⟨fl, h, -⟩
    simp [State.get?, init] at h
  exact ⟨fun i p h => absurd h (hno i p), fun i _ p _ h => absurd h (hno i p)⟩

lemma Alone.eq (h : Alone s i fl) (hj : LockedAs s j fl.process) : j = i := by
  obtain ⟨fl', hget, hl, hp⟩ := hj
  exact h j (State.lt_of_get? hget) fl' hget hp hl

lemma exists_of_not_alone (h : ¬ Alone s i fl) : ∃ j, LockedAs s j fl.process ∧ j ≠ i := by
  unfold Alone at h
  push Not at h
  obtain ⟨j, -, fl', hget, hp, hl, hne⟩ := h
  exact ⟨j, ⟨fl', hget, hl, hp⟩, hne⟩

lemma Inv.granted (h : Inv s) (ha : Alone s i fl) (hg : Granted s s' i fl) : Inv s' := by
  obtain ⟨hfree, hlock⟩ := Lock.request_some.mp hg.lock
  have hi (j q : ℕ) (hj : LockedAs s' j q) : j = i ∧ q = fl.process := by
    rcases (hg.locked j q).mp hj with hj | hj
    · exact hj
    · obtain rfl := hfree q (h.owned j q hj)
      exact ⟨ha.eq hj, rfl⟩
  refine ⟨fun j q hj => ?_, fun j k q r hj hk => ?_⟩
  · rw [hlock, (hi j q hj).2]
  · rw [(hi j q hj).1, (hi k r hk).1]

lemma Inv.released (h : Inv s) (ha : Alone s i fl) (hr : Released s s' i fl) : Inv s' := by
  refine ⟨fun j q hj => ?_, fun j k q r hj hk => ?_⟩
  · obtain ⟨hne, hj⟩ := (hr.locked j q).mp hj
    have howned := h.owned j q hj
    have hq : q ≠ fl.process := fun he => hne (ha.eq (he ▸ hj))
    rw [hr.lock, Lock.release_of_ne howned hq, howned]
  · exact h.exclusive j k q r ((hr.locked j q).mp hj).2 ((hr.locked k r).mp hk).2

/-- **Every step that disturbs no other object keeps exclusion.** -/
theorem Inv.step (h : Inv s) (hok : Undisturbed s a) (hs : FilelockModel.step s a = some s') :
    Inv s' := by
  rcases step_cases hs with hn | ⟨i, fl, -, halone, hg | hr⟩
  · exact ⟨fun j q hj => by rw [hn.lock, h.owned j q (hn.locked j q hj)],
      fun j k q r hj hk => h.exclusive j k q r (hn.locked j q hj) (hn.locked k r hk)⟩
  · exact h.granted (halone hok) hg
  · exact h.released (halone hok) hr

/-! ### Where another object is disturbed -/

lemma exists_fd (s : State) : ∃ fd, ∀ o ∈ s.objects, ∀ fl ∈ o, fl.fd_ ≠ some fd := by
  obtain ⟨fd, hfd⟩ := Infinite.exists_notMem_finset
    (s.objects.filterMap fun o => o.bind Filelock.fd_).toFinset
  refine ⟨fd, fun o ho fl hfl he => hfd ?_⟩
  rw [List.mem_toFinset, List.mem_filterMap]
  exact ⟨o, ho, by rw [hfl, Option.bind_some, he]⟩

lemma exists_granted (h : s.get? i = some fl) (hfd : fl.fd_ ≠ none) {l : Lock ℕ}
    (hl : s.lock.request fl.process = some l) :
    ∃ s', s.setWriteLock i fl true = some s' ∧ Granted s s' i fl :=
  ⟨_, by rw [State.setWriteLock, if_neg hfd, if_pos rfl, hl]; rfl, granted_setWriteLock h hl⟩

/-- A new object of a process gets the lock where it is free. -/
lemma exists_lock (p : ℕ) (hfree : s.lock.owner = none) :
    ∃ more s', Runs.exec step s more = some s' ∧ LockedAs s' s.objects.length p ∧
      ∀ j q, LockedAs s j q → LockedAs s' j q := by
  obtain ⟨fd, hfd⟩ := exists_fd s
  let s₁ : State := ⟨s.objects ++ [some ⟨p, none, false⟩], s.lock⟩
  have hget₁ (j : ℕ) : s₁.get? j =
      if j = s.objects.length then some ⟨p, none, false⟩ else s.get? j := State.get?_construct
  have hnew₁ : s₁.get? s.objects.length = some ⟨p, none, false⟩ := by rw [hget₁, if_pos rfl]
  let s₂ : State := s₁.put s.objects.length (some ⟨p, some fd, false⟩)
  have hget₂ (j : ℕ) : s₂.get? j =
      if j = s.objects.length then some ⟨p, some fd, false⟩ else s₁.get? j := State.get?_put hnew₁
  have hnew₂ : s₂.get? s.objects.length = some ⟨p, some fd, false⟩ := by rw [hget₂, if_pos rfl]
  have hattach : s₁.attach s.objects.length ⟨p, none, false⟩ (some fd) = some s₂ := by
    unfold State.attach
    rw [if_neg (by simp)]
    refine if_pos fun o ho fl hfl _ => ?_
    rcases List.mem_append.mp ho with ho | ho
    · exact hfd o ho fl hfl
    · obtain rfl := List.mem_singleton.mp ho
      cases hfl
      nofun
  have hrequest : s₂.lock.request p = some ⟨some p⟩ := by
    refine Lock.request_some.mpr ⟨fun q hq => ?_, rfl⟩
    rw [show s₂.lock = s.lock from rfl, hfree] at hq
    cases hq
  obtain ⟨s₃, h₃, hg⟩ := exists_granted hnew₂ (by simp) hrequest
  refine ⟨[.construct p, .attach s.objects.length (some fd), .lock s.objects.length true], s₃,
    ?_, ?_, fun j q hj => ?_⟩
  · refine Runs.exec_cons_some.mpr ⟨s₁, rfl, Runs.exec_cons_some.mpr ⟨s₂, ?_,
      Runs.exec_cons_some.mpr ⟨s₃, ?_, rfl⟩⟩⟩
    · rw [step, hnew₁, Option.bind_some, hattach]
    · rw [step, hnew₂, Option.bind_some, State.lockStep, h₃]
  all_goals
    rw [hg.locked]
  · exact Or.inl ⟨rfl, rfl⟩
  · obtain ⟨fl, hget, hl⟩ := hj
    have hne : j ≠ s.objects.length := (State.lt_of_get? hget).ne
    exact Or.inr ⟨fl, by rw [hget₂, if_neg hne, hget₁, if_neg hne, hget], hl⟩

/-- The same call, with success. -/
def successful : Act → Act
  | .lock i _ => .lock i true
  | .tryLock i _ => .tryLock i true
  | .unlock i _ => .unlock i true
  | a => a

/-- A call that disturbs another object can have success. -/
lemma Inv.successful (h : Inv s) (hn : ¬ Undisturbed s a)
    (hs : FilelockModel.step s a = some s') :
    ∃ i fl s'', FilelockModel.step s (successful a) = some s'' ∧ ¬ Alone s i fl ∧
      (Granted s s'' i fl ∨ Released s s'' i fl) := by
  cases a with
  | construct p => exact absurd trivial hn
  | attach i fd => exact absurd trivial hn
  | lock i granted | tryLock i granted =>
    obtain ⟨fl, hget, hs⟩ := Option.bind_eq_some_iff.mp hs
    have hna : ¬ Alone s i fl := mt (undisturbed_iff hget).mpr hn
    obtain ⟨j, hj, -⟩ := exists_of_not_alone hna
    have hrequest : s.lock.request fl.process = some ⟨some fl.process⟩ :=
      Lock.request_some.mpr ⟨fun q hq => Option.some.inj (hq ▸ h.owned j _ hj), rfl⟩
    obtain ⟨s'', hs'', hg⟩ := exists_granted hget (setWriteLock_cases hget hs).1 hrequest
    exact ⟨i, fl, s'', Option.bind_eq_some_iff.mpr ⟨fl, hget, hs''⟩, hna, Or.inl hg⟩
  | unlock i done =>
    obtain ⟨fl, hget, hs⟩ := Option.bind_eq_some_iff.mp hs
    obtain ⟨s'', hs''⟩ : ∃ s'', s.unlockStep i fl true = some s'' := by
      rw [State.unlockStep, if_neg (unlock_cases hget hs).1]
      exact ⟨_, rfl⟩
    obtain ⟨-, hlocked, hlock⟩ := unlock_cases hget hs''
    exact ⟨i, fl, s'', Option.bind_eq_some_iff.mpr ⟨fl, hget, hs''⟩,
      mt (undisturbed_iff hget).mpr hn, Or.inr ⟨hlock, hlocked⟩⟩
  | destroy i =>
    obtain ⟨fl, hget, rfl⟩ := Option.map_eq_some_iff.mp hs
    have hn' : ¬ (fl.fd_ ≠ none → Alone s i fl) := fun hok => hn (by
      simpa [Undisturbed, hget] using hok)
    obtain ⟨hfd, hna⟩ := Classical.not_imp.mp hn'
    rcases destroy_cases hget with ⟨hno, -⟩ | ⟨-, hr⟩
    · exact absurd hno hfd
    · exact ⟨i, fl, _, hs, hna, Or.inr hr⟩

/-- **A call that disturbs another object is where exclusion ends**, if it has success: at once,
or as soon as an object of another process gets the lock. -/
theorem Inv.disturbed (h : Inv s) (hn : ¬ Undisturbed s a)
    (hs : FilelockModel.step s a = some s') :
    ∃ more s'', Runs.exec FilelockModel.step s (FilelockExclusive.successful a :: more) = some s'' ∧
      ¬ Exclusive s'' := by
  obtain ⟨i, fl, s₁, hs₁, hna, hcase⟩ := h.successful hn hs
  obtain ⟨j, hj, hne⟩ := exists_of_not_alone hna
  rcases hcase with hg | hr
  · have hi : LockedAs s₁ i fl.process := (hg.locked i _).mpr (Or.inl ⟨rfl, rfl⟩)
    have hj' : LockedAs s₁ j fl.process := (hg.locked j _).mpr (Or.inr hj)
    exact ⟨[], s₁, Runs.exec_cons_some.mpr ⟨s₁, hs₁, rfl⟩, fun he => hne (he j i _ _ hj' hi)⟩
  · have hfree : s₁.lock.owner = none := by
      rw [hr.lock, Lock.release_of_owner (h.owned j _ hj)]
    have hj' : LockedAs s₁ j fl.process := (hr.locked j _).mpr ⟨hne, hj⟩
    obtain ⟨more, s'', he, hnew, hold⟩ := exists_lock (fl.process + 1) hfree
    refine ⟨more, s'', Runs.exec_cons_some.mpr ⟨s₁, hs₁, he⟩, fun hx => ?_⟩
    have hlt : j < s₁.objects.length := by
      obtain ⟨fl', hget', -⟩ := hj'
      exact State.lt_of_get? hget'
    exact hlt.ne (hx j _ _ _ (hold j _ hj') hnew)

/-- **When file locks exclude one another.** As long as no object asks for the lock, is unlocked
or destroyed while another object of its process is locked, at most one object is locked. In
every other run the first such call, if it has success, leads to where two objects are. -/
theorem exclusive_iff_undisturbed (h : run acts = some s) :
    (Runs.Along step Undisturbed init acts → Exclusive s) ∧
    (¬ Runs.Along step Undisturbed init acts → ∃ acts₁ a acts₂ more s',
      acts = acts₁ ++ a :: acts₂ ∧ run (acts₁ ++ successful a :: more) = some s' ∧
        ¬ Exclusive s') := by
  have hinv {acts : List Act} {s : State} (hok : Runs.Along step Undisturbed init acts)
      (h : run acts = some s) : Inv s :=
    Runs.exec_invariant (fun _ _ _ hi hok hs => hi.step hok hs) inv_init hok h
  refine ⟨fun hok => (hinv hok h).exclusive, fun hn => ?_⟩
  obtain ⟨l₁, a, l₂, s₁, s₂, hl, hok, h₁, hna, h₂, -⟩ := Runs.exists_first_of_not_along h hn
  obtain ⟨more, s', he, hx⟩ := (hinv hok h₁).disturbed hna h₂
  refine ⟨l₁, a, l₂, more, s', hl, ?_, hx⟩
  rw [run, Runs.exec_append, h₁]
  exact he

/-- Two processes, one after the other. -/
theorem exclusive_in_turn :
    ∃ s, run [.construct 1, .construct 2, .attach 0 (some 3), .attach 1 (some 3), .lock 0 true,
      .tryLock 1 false, .unlock 0 true, .tryLock 1 true] = some s ∧ Exclusive s :=
  ⟨_, rfl, (exclusive_iff_undisturbed (show run [.construct 1, .construct 2, .attach 0 (some 3),
    .attach 1 (some 3), .lock 0 true, .tryLock 1 false, .unlock 0 true, .tryLock 1 true] = some _
    from rfl)).1 (by decide)⟩

/-- Two objects of one process. -/
theorem not_exclusive_in_process :
    ∃ s, run [.construct 1, .construct 1, .attach 0 (some 3), .attach 1 (some 4), .lock 0 true,
      .lock 1 true] = some s ∧ ¬ Exclusive s :=
  ⟨_, rfl, fun h => absurd (h 0 1 1 1 ⟨_, rfl, rfl, rfl⟩ ⟨_, rfl, rfl, rfl⟩) (by decide)⟩

end Libchef.FilelockExclusive
