import Mathlib.Data.List.Basic

/-!
Record locks that processes have on a file.

A write lock on the whole file belongs to a process, whichever of its descriptors it came
through. A request conflicts with the lock of another process only. A process loses its lock
where it unlocks, and where it closes any descriptor of the file.
-/

namespace Libchef.RecordLock

variable {P : Type*} [DecidableEq P]

/-- The process that has the lock. -/
structure Lock (P : Type*) where
  owner : Option P
  deriving DecidableEq

namespace Lock

variable (l : Lock P) (p : P)

def free : Lock P := ⟨none⟩

/-- `none` where another process has the lock. -/
def request : Option (Lock P) :=
  if l.owner = none ∨ l.owner = some p then some ⟨some p⟩ else none

def release : Lock P := if l.owner = some p then ⟨none⟩ else l

variable {l p} {l' : Lock P} {q : P}

lemma request_some : l.request p = some l' ↔ (∀ q, l.owner = some q → q = p) ∧ l' = ⟨some p⟩ := by
  unfold request
  obtain ⟨o⟩ := l
  cases o with
  | none => simp [eq_comm]
  | some q => by_cases h : q = p <;> simp [h, eq_comm]

lemma release_of_ne (h : l.owner = some q) (hne : q ≠ p) : l.release p = l := by
  rw [release, if_neg (by rw [h]; simpa using hne)]

lemma release_of_owner (h : l.owner = some p) : l.release p = ⟨none⟩ := by
  rw [release, if_pos h]

end Lock

end Libchef.RecordLock
