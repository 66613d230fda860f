import Libchef.Base.Runs
import Libchef.Base.RecordLock

/-!
File locks, as `chef_filelock.hpp` has them, on one file.

The objects belong to threads of any processes. A step is one call; whether a system call
succeeds, and with which descriptor, is part of the step.
-/

namespace Libchef.FilelockModel

open Libchef.RecordLock

/-- A lock object in a process. `locked` is not in the source: it says that `lock` or `try_lock`
has returned `true`, and that the object has not been unlocked since. -/
structure Filelock where
  process : ℕ
  fd_ : Option ℕ
  locked : Bool
  deriving DecidableEq

/-- An object that was destroyed is `none`. -/
structure State where
  objects : List (Option Filelock)
  lock : Lock ℕ
  deriving DecidableEq

def init : State := ⟨[], .free⟩

namespace State

variable (s : State) (i : ℕ) (fl : Filelock)

def get? : Option Filelock := s.objects[i]?.join

def put (o : Option Filelock) : State := { s with objects := s.objects.set i o }

/-- `open` gives a descriptor the process does not have; it may fail. -/
def attach (fd : Option ℕ) : Option State :=
  if fl.fd_ ≠ none then none
  else match fd with
    | none => some s
    | some fd =>
      if ∀ o ∈ s.objects, ∀ fl' ∈ o, fl'.process = fl.process → fl'.fd_ ≠ some fd then
        some (s.put i (some { fl with fd_ := some fd }))
      else none

/-- `fcntl` with `F_WRLCK`, through either command. It may fail for more than one reason. -/
def setWriteLock (granted : Bool) : Option State :=
  if fl.fd_ = none then none
  else if granted then
    (s.lock.request fl.process).map fun l =>
      { s.put i (some { fl with locked := true }) with lock := l }
  else some s

/-- Blocks until the lock is granted: until then the step is not there. -/
def lockStep (granted : Bool) : Option State := s.setWriteLock i fl granted

def tryLockStep (granted : Bool) : Option State := s.setWriteLock i fl granted

def unlockStep (done : Bool) : Option State :=
  if fl.fd_ = none then none
  else some { s.put i (some { fl with locked := false }) with
    lock := if done then s.lock.release fl.process else s.lock }

/-- The destructor, with `detach_if_needed`. -/
def destroyStep : State :=
  { s.put i none with lock := if fl.fd_ = none then s.lock else s.lock.release fl.process }

end State

inductive Act
  | construct (process : ℕ)
  | attach (i : ℕ) (fd : Option ℕ)
  | lock (i : ℕ) (granted : Bool)
  | tryLock (i : ℕ) (granted : Bool)
  | unlock (i : ℕ) (done : Bool)
  | destroy (i : ℕ)

def step (s : State) : Act → Option State
  | .construct process => some { s with objects := s.objects ++ [some ⟨process, none, false⟩] }
  | .attach i fd => (s.get? i).bind fun fl => s.attach i fl fd
  | .lock i granted => (s.get? i).bind fun fl => s.lockStep i fl granted
  | .tryLock i granted => (s.get? i).bind fun fl => s.tryLockStep i fl granted
  | .unlock i done => (s.get? i).bind fun fl => s.unlockStep i fl done
  | .destroy i => (s.get? i).map fun fl => s.destroyStep i fl

def run (acts : List Act) : Option State := Runs.exec step init acts

/-! ### Objects and their updates -/

variable {s : State} {i j : ℕ} {fl fl' : Filelock} {o : Option Filelock}

lemma State.get?_some : s.get? i = some fl ↔ s.objects[i]? = some (some fl) := by
  rw [State.get?, Option.join_eq_some_iff]

lemma State.get?_put (h : s.get? i = some fl) :
    (s.put i o).get? j = if j = i then o else s.get? j := by
  obtain ⟨hi, -⟩ := List.getElem?_eq_some_iff.mp (State.get?_some.mp h)
  by_cases hj : j = i
  · subst hj
    simp [State.get?, State.put, hi]
  · simp [State.get?, State.put, hj, List.getElem?_set_ne (Ne.symm hj)]

lemma State.get?_construct {p : ℕ} :
    (State.mk (s.objects ++ [some ⟨p, none, false⟩]) s.lock).get? j =
      if j = s.objects.length then some ⟨p, none, false⟩ else s.get? j := by
  unfold State.get?
  rcases Nat.lt_trichotomy j s.objects.length with h | h | h
  · rw [if_neg (by omega), List.getElem?_append_left h]
  · rw [if_pos h, h, List.getElem?_concat_length, Option.join_some]
  · rw [if_neg (by omega), List.getElem?_eq_none (by simp; omega),
      List.getElem?_eq_none (by omega)]

lemma State.lt_of_get? (h : s.get? i = some fl) : i < s.objects.length :=
  (List.getElem?_eq_some_iff.mp (State.get?_some.mp h)).1

end Libchef.FilelockModel
