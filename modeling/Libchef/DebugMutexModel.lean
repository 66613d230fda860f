import Libchef.Base.Decimal
import Libchef.Base.Ordered
import Libchef.Base.Runs
import Libchef.StringsModel
import Mathlib.Logic.Function.Basic

/-!
Mutexes that keep books on who waits for them and who holds them, as `chef_debug_mutex.hpp` has
them.

A thread is its id, and `uk` gives the unique key of a mutex. A step is one atomic piece of a
call of `lock` or `unlock`: `before_acquire_lock`, `after_acquire_lock` and `after_unlock`, each
of which runs under the mutex of the manager, and the lock and the unlock of the mutex itself.
-/

namespace Libchef.DebugMutexModel

open Libchef.StringsModel Libchef.Ordered

structure Item where
  time_ : UInt64
  srcinfo_ : Str

/-- `debug_mutex_manager`. The lines with `[ERROR]` that it has printed are in `log`. -/
structure Manager where
  waitAcquireContainer_ : OrderedMap Str Item
  holdContainer_ : OrderedMap Str Item
  printThread_ : Bool
  bacquireCount_ : UInt64
  aacquireCount_ : UInt64
  aunlockCount_ : UInt64
  log : List Str

/-- The key of a thread with a mutex. -/
def key (uk : Str) (tid : ℤ) : Str := uk ++ chr '_' :: Decimal.printInt tid

def errorLine (text : String) (uk : Str) (tid : ℤ) (now : UInt64) (srcinfo : Str) : Str :=
  lit "[ERROR] [".toList ++ cStr uk ++ lit "] [".toList ++ Decimal.printInt tid ++
    lit "] [".toList ++ Decimal.print now.toNat ++ lit "] ".toList ++ lit text.toList ++
    lit " - ".toList ++ cStr srcinfo ++ lit "\n".toList

namespace Manager

variable (d : Manager) (uk : Str) (tid : ℤ) (srcinfo : Str) (now : Fin 3 → UInt64)

def startPrintTmpDebugIfNeeded : Manager := { d with printThread_ := true }

/-- A line is printed where the condition is met. -/
def errorIf (met : Bool) (text : String) (now : UInt64) : Manager :=
  if met then { d with log := d.log ++ [errorLine text uk tid now srcinfo] } else d

/-- `now` are the times that the calls of the clock give, in the order of the code. -/
def beforeAcquireLock : Manager :=
  let k := key uk tid
  let d := d.startPrintTmpDebugIfNeeded
  let d := { d with bacquireCount_ := d.bacquireCount_ + 1 }
  let d := d.errorIf uk tid srcinfo (d.waitAcquireContainer_.get? k).isSome
    "one g try acquire lock twice(wait acquire already)." (now 0)
  let d := d.errorIf uk tid srcinfo (d.holdContainer_.get? k).isSome
    "one g try acquire lock twice(hold already)." (now 1)
  { d with waitAcquireContainer_ := d.waitAcquireContainer_.insert k ⟨now 2, srcinfo⟩ }

def afterAcquireLock : Manager :=
  let k := key uk tid
  let d := d.startPrintTmpDebugIfNeeded
  let d := { d with aacquireCount_ := d.aacquireCount_ + 1 }
  let d := d.errorIf uk tid srcinfo (d.waitAcquireContainer_.get? k).isNone
    "acquired but not in wait acquire container." (now 0)
  let d := d.errorIf uk tid srcinfo (d.holdContainer_.get? k).isSome
    "acquired but in  hold container already." (now 1)
  { d with
    waitAcquireContainer_ := d.waitAcquireContainer_.erase k
    holdContainer_ := d.holdContainer_.insert k ⟨now 2, srcinfo⟩ }

def afterUnlock : Manager :=
  let k := key uk tid
  let d := d.startPrintTmpDebugIfNeeded
  let d := { d with aunlockCount_ := d.aunlockCount_ + 1 }
  let d := d.errorIf uk tid srcinfo (d.holdContainer_.get? k).isNone
    "unlock but not in hold container." (now 0)
  let d := d.errorIf uk tid srcinfo (d.waitAcquireContainer_.get? k).isSome
    "unlock but in wait acquire container already." (now 1)
  { d with holdContainer_ := d.holdContainer_.erase k }

end Manager

variable {M : Type*} [DecidableEq M]

/-- What a thread does next, if it is in a call. -/
inductive Thread (M : Type*)
  | idle
  | beforeAcquire (m : M) (srcinfo : Str)
  | coreLock (m : M) (srcinfo : Str)
  | afterAcquire (m : M) (srcinfo : Str)
  | coreUnlock (m : M) (srcinfo : Str)
  | afterUnlock (m : M) (srcinfo : Str)

/-- A recursive mutex is its owner and how often that has locked it. -/
structure State (M : Type*) where
  thread : ℤ → Thread M
  core_ : M → Option (ℤ × ℕ)
  dmm_ : Manager

def init : State M := ⟨fun _ => .idle, fun _ => none, ⟨.empty, .empty, false, 0, 0, 0, []⟩⟩

namespace State

variable (s : State M) (tid : ℤ) (m : M)

def goto (p : Thread M) : State M := { s with thread := Function.update s.thread tid p }

def owns : Bool := (s.core_ m).any (·.1 = tid)

/-- `core_.lock()`, which waits while another thread is the owner. -/
def lockCore : Option (State M) :=
  match s.core_ m with
  | none => some { s with core_ := Function.update s.core_ m (some (tid, 1)) }
  | some (o, n) =>
    if o = tid then some { s with core_ := Function.update s.core_ m (some (tid, n + 1)) }
    else none

/-- `core_.unlock()`, which only the owner may call. -/
def unlockCore : Option (State M) :=
  match s.core_ m with
  | none => none
  | some (o, n) =>
    if o = tid then
      some { s with core_ := Function.update s.core_ m (if n = 1 then none else some (tid, n - 1)) }
    else none

variable (uk : M → Str)

/-- The next piece of the call that a thread is in. -/
def piece (now : Fin 3 → UInt64) : Thread M → Option (State M)
  | .idle => none
  | .beforeAcquire m srcinfo =>
    some ({ s with dmm_ := s.dmm_.beforeAcquireLock (uk m) tid srcinfo now }.goto tid
      (.coreLock m srcinfo))
  | .coreLock m srcinfo => (s.lockCore tid m).map (·.goto tid (.afterAcquire m srcinfo))
  | .afterAcquire m srcinfo =>
    some ({ s with dmm_ := s.dmm_.afterAcquireLock (uk m) tid srcinfo now }.goto tid .idle)
  | .coreUnlock m srcinfo => (s.unlockCore tid m).map (·.goto tid (.afterUnlock m srcinfo))
  | .afterUnlock m srcinfo =>
    some ({ s with dmm_ := s.dmm_.afterUnlock (uk m) tid srcinfo now }.goto tid .idle)

end State

inductive Act (M : Type*)
  | lock (tid : ℤ) (m : M) (srcinfo : Str)
  | unlock (tid : ℤ) (m : M) (srcinfo : Str)
  | piece (tid : ℤ) (now : Fin 3 → UInt64)

/-- A thread that is in no call begins one, or goes on with the one it is in. -/
def step (uk : M → Str) (s : State M) : Act M → Option (State M)
  | .lock tid m srcinfo =>
    match s.thread tid with
    | .idle => some (s.goto tid (.beforeAcquire m srcinfo))
    | _ => none
  | .unlock tid m srcinfo =>
    match s.thread tid with
    | .idle => some (s.goto tid (.coreUnlock m srcinfo))
    | _ => none
  | .piece tid now => s.piece tid uk now (s.thread tid)

def run (uk : M → Str) (acts : List (Act M)) : Option (State M) := Runs.exec (step uk) init acts

end Libchef.DebugMutexModel
