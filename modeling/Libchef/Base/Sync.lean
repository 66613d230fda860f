import Mathlib.Data.List.Basic
import Mathlib.Algebra.Order.Ring.Nat

/-!
Threads that share a mutex and a condition variable.

A monitor knows where each thread is and which of them owns the mutex. A wait gives the mutex
back and blocks in one step; a notification, or nothing at all, takes a blocked thread to a
place from which it has to take the mutex again.
-/

namespace Libchef.Sync

/-- What a monitor has to know of the places its threads can be in. -/
class Place (P : Type*) where
  holds : P → Bool
  blocked : P → Bool
  wake : P → P
  holds_of_blocked : ∀ p, blocked p = true → holds p = false
  holds_wake : ∀ p, blocked p = true → holds (wake p) = false
  blocked_wake : ∀ p, blocked p = true → blocked (wake p) = false

structure Monitor (P : Type*) where
  owner : Option ℕ
  threads : List P

namespace Monitor

variable {P : Type*} (m : Monitor P) (i : ℕ) (p : P)

def spawn : Monitor P := { m with threads := m.threads ++ [p] }

/-- The thread goes on without the mutex changing hands. -/
def put : Monitor P := { m with threads := m.threads.set i p }

/-- The thread takes the mutex, once it is free. -/
def acquire : Option (Monitor P) :=
  if m.owner = none then some { owner := some i, threads := m.threads.set i p } else none

/-- The thread gives the mutex back. -/
def release : Monitor P := { owner := none, threads := m.threads.set i p }

/-- A blocked thread wakes up. -/
def wakeUp [Place P] : Option (Monitor P) :=
  m.threads[i]?.bind fun p => if Place.blocked p then some (m.put i (Place.wake p)) else none

/-- `notify_one` wakes one of the blocked threads, where there is one. -/
def notifyOne [Place P] : Option ℕ → Option (Monitor P)
  | some i => m.wakeUp i
  | none => if m.threads.any Place.blocked then none else some m

def notifyAll [Place P] : Monitor P :=
  { m with threads := m.threads.map fun p => if Place.blocked p then Place.wake p else p }

/-- How many threads are blocked. -/
def waiting [Place P] : ℕ := m.threads.countP Place.blocked

variable {m i p} {m' : Monitor P} {q : P}

lemma acquire_some (h : m.acquire i p = some m') :
    m.owner = none ∧ m' = { owner := some i, threads := m.threads.set i p } := by
  unfold acquire at h
  split_ifs at h with ho
  exact ⟨ho, (Option.some.inj h).symm⟩

lemma countP_set (f : P → Bool) (h : m.threads[i]? = some q) :
    (m.threads.set i p).countP f + (f q).toNat = m.threads.countP f + (f p).toNat := by
  obtain ⟨hlt, rfl⟩ := List.getElem?_eq_some_iff.mp h
  have hset := List.countP_set (p := f) (a := p) hlt
  have hle := List.boole_getElem_le_countP (p := f) hlt
  have hbool : ∀ b : Bool, b.toNat = if b = true then 1 else 0 := by decide
  rw [hbool, hbool]
  omega

lemma sum_set (f : P → ℕ) {l : List P} (h : l[i]? = some q) :
    ((l.set i p).map f).sum + f q = (l.map f).sum + f p := by
  induction l generalizing i with
  | nil => simp at h
  | cons a l ih =>
    cases i with
    | zero =>
      obtain rfl : a = q := by simpa using h
      simp only [List.set_cons_zero, List.map_cons, List.sum_cons]
      omega
    | succ i =>
      have := ih (i := i) (by simpa using h)
      simp only [List.set_cons_succ, List.map_cons, List.sum_cons]
      omega

variable [Place P]

lemma wakeUp_some (h : m.wakeUp i = some m') :
    ∃ p, m.threads[i]? = some p ∧ Place.blocked p = true ∧ m' = m.put i (Place.wake p) := by
  obtain ⟨p, hp, h⟩ := Option.bind_eq_some_iff.mp h
  split_ifs at h with hb
  exact ⟨p, hp, hb, (Option.some.inj h).symm⟩

/-- A notification either wakes a thread or finds none. -/
lemma notifyOne_some {j : Option ℕ} (h : m.notifyOne j = some m') :
    (m' = m ∧ m.waiting = 0) ∨ ∃ i, m.wakeUp i = some m' := by
  cases j with
  | some i => exact Or.inr ⟨i, h⟩
  | none =>
    unfold notifyOne at h
    split_ifs at h with hb
    refine Or.inl ⟨(Option.some.inj h).symm, ?_⟩
    simpa [waiting, List.countP_eq_zero] using hb

lemma exists_wakeUp (h : 0 < m.waiting) : ∃ i m', m.wakeUp i = some m' := by
  obtain ⟨p, hp, hb⟩ := List.countP_pos_iff.mp h
  obtain ⟨i, hi⟩ := List.mem_iff_getElem?.mp hp
  exact ⟨i, m.put i (Place.wake p), by simp [wakeUp, hi, hb]⟩

lemma not_blocked_notifyAll (h : p ∈ m.notifyAll.threads) : Place.blocked p = false := by
  obtain ⟨q, -, rfl⟩ := List.mem_map.mp h
  split_ifs with hq
  · exact Place.blocked_wake q hq
  · simpa using hq

lemma mem_notifyAll (hb : Place.blocked p = false) (h : p ∈ m.threads) :
    p ∈ m.notifyAll.threads :=
  List.mem_map.mpr ⟨p, h, by simp [hb]⟩

/-! ### Who owns the mutex -/

/-- The owner of the mutex is the one thread in a place where the mutex is held. -/
structure Owned (m : Monitor P) : Prop where
  holds_iff : ∀ i p, m.threads[i]? = some p → (Place.holds p = true ↔ m.owner = some i)
  lt_length : ∀ i, m.owner = some i → i < m.threads.length

namespace Owned

lemma unique (h : Owned m) {j : ℕ} (hi : m.threads[i]? = some p) (hp : Place.holds p = true)
    (hj : m.threads[j]? = some q) (hq : Place.holds q = true) : i = j :=
  Option.some.inj (((h.holds_iff i p hi).mp hp).symm.trans ((h.holds_iff j q hj).mp hq))

lemma spawn (h : Owned m) (hp : Place.holds p = false) : Owned (m.spawn p) := by
  refine ⟨fun j q hq => ?_, fun j hj => ?_⟩
  · rw [Monitor.spawn, List.getElem?_append] at hq
    split_ifs at hq with hlt
    · exact h.holds_iff j q hq
    · have : q = p := by
        cases hk : j - m.threads.length <;> rw [hk] at hq <;> simp at hq
        exact hq.symm
      rw [this, hp]
      simp only [Bool.false_eq_true, false_iff]
      exact fun ho => hlt (h.lt_length j ho)
  · have := h.lt_length j hj
    simp only [Monitor.spawn, List.length_append, List.length_singleton]
    omega

lemma put (h : Owned m) (hi : m.threads[i]? = some q) (hp : Place.holds p = Place.holds q) :
    Owned (m.put i p) := by
  refine ⟨fun j r hr => ?_, fun j hj => ?_⟩
  · rw [Monitor.put, List.getElem?_set] at hr
    split_ifs at hr with hij hlt
    · cases Option.some.inj hr
      subst hij
      rw [hp]
      exact h.holds_iff i q hi
    · exact h.holds_iff j r hr
  · simpa [Monitor.put] using h.lt_length j hj

lemma acquire (h : Owned m) (hi : m.threads[i]? = some q) (hp : Place.holds p = true)
    (ha : m.acquire i p = some m') : Owned m' := by
  obtain ⟨ho, rfl⟩ := acquire_some ha
  refine ⟨fun j r hr => ?_, fun j hj => ?_⟩
  · rw [List.getElem?_set] at hr
    split_ifs at hr with hij hlt
    · cases Option.some.inj hr
      simp [hp, hij]
    · have := h.holds_iff j r hr
      rw [ho] at this
      simpa [hij] using this
  · cases Option.some.inj hj
    obtain ⟨hlt, -⟩ := List.getElem?_eq_some_iff.mp hi
    simpa using hlt

lemma release (h : Owned m) (hi : m.threads[i]? = some q) (hq : Place.holds q = true)
    (hp : Place.holds p = false) : Owned (m.release i p) := by
  refine ⟨fun j r hr => ?_, nofun⟩
  have ho := (h.holds_iff i q hi).mp hq
  rw [Monitor.release, List.getElem?_set] at hr
  split_ifs at hr with hij hlt
  · cases Option.some.inj hr
    simp [hp, Monitor.release]
  · have := h.holds_iff j r hr
    rw [ho] at this
    simpa [hij, Monitor.release] using this

end Owned

/-! ### Where the owner is -/

/-- The place of the thread that owns the mutex. -/
def here (m : Monitor P) : Option P := m.owner.bind fun i => m.threads[i]?

omit [Place P] in
lemma here_release : (m.release i p).here = none := rfl

omit [Place P] in
lemma here_acquire (hi : m.threads[i]? = some q) (ha : m.acquire i p = some m') :
    m.here = none ∧ m'.here = some p := by
  obtain ⟨ho, rfl⟩ := acquire_some ha
  obtain ⟨hlt, -⟩ := List.getElem?_eq_some_iff.mp hi
  exact ⟨by rw [here, ho]; rfl, by simp [here, hlt]⟩

namespace Owned

lemma here_of_holds (h : Owned m) (hi : m.threads[i]? = some p) (hp : Place.holds p = true) :
    m.here = some p := by
  rw [here, (h.holds_iff i p hi).mp hp, Option.bind_some, hi]

lemma here_spawn (h : Owned m) : (m.spawn p).here = m.here := by
  unfold here Monitor.spawn
  cases ho : m.owner with
  | none => rfl
  | some i => exact List.getElem?_append_left (h.lt_length i ho)

lemma here_put (h : Owned m) (hi : m.threads[i]? = some q) (hq : Place.holds q = false) :
    (m.put i p).here = m.here := by
  unfold here Monitor.put
  cases ho : m.owner with
  | none => rfl
  | some j =>
    have hne : i ≠ j := by
      rintro rfl
      have := (h.holds_iff i q hi).mpr ho
      rw [hq] at this
      cases this
    exact List.getElem?_set_ne hne

lemma here_put_self (h : Owned m) (hi : m.threads[i]? = some q) (hq : Place.holds q = true) :
    (m.put i p).here = some p := by
  obtain ⟨hlt, -⟩ := List.getElem?_eq_some_iff.mp hi
  rw [here, Monitor.put, (h.holds_iff i q hi).mp hq, Option.bind_some]
  exact List.getElem?_set_self hlt

end Owned

end Monitor

end Libchef.Sync
