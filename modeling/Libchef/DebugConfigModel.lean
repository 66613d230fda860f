import Libchef.Base.Runs
import Libchef.Base.Sync

/-!
The configuration of the debug mutexes, as `chef_debug_mutex.hpp` has it.

Every call of `instance` is a thread of one monitor. A step is one atomic piece of one of them:
a test of the pointer, the lock, the allocation with the assignment of the pointer, the store of
one field, the unlock. A call whose first test finds the pointer set returns at once.
-/

namespace Libchef.DebugConfigModel

open Libchef.Sync

inductive Stream
  | stderr
  deriving DecidableEq

/-- `debug_mutex_config`. A field is `none` until it has been assigned. -/
structure Config where
  longWaitAcquireDuration : Option UInt64
  longHoldDuration : Option UInt64
  printInterval : Option UInt64
  logfd : Option Stream
  keyPrefix : Option String
  logCtorFlag : Option Bool
  logDectorFlag : Option Bool
  logLockFlag : Option Bool
  logUnlockFlag : Option Bool
  deriving DecidableEq

/-- What `new` gives. -/
def blank : Config := ⟨none, none, none, none, none, none, none, none, none⟩

/-- The assignments to the fields, in order. -/
def stores : List (Config → Config) :=
  [fun dmc => { dmc with longWaitAcquireDuration := some 1000 },
   fun dmc => { dmc with longHoldDuration := some 1000 },
   fun dmc => { dmc with printInterval := some 1000 },
   fun dmc => { dmc with logfd := some .stderr },
   fun dmc => { dmc with keyPrefix := some "MUTEX" },
   fun dmc => { dmc with logCtorFlag := some true },
   fun dmc => { dmc with logDectorFlag := some true },
   fun dmc => { dmc with logLockFlag := some false },
   fun dmc => { dmc with logUnlockFlag := some false }]

def defaults : Config :=
  ⟨some 1000, some 1000, some 1000, some .stderr, some "MUTEX", some true, some true, some false,
    some false⟩

/-- The places of a call of `instance`. At `again` and `relock` it is in the call of `instance`
inside, made for the log. -/
inductive Thread
  | test
  | lock
  | retest
  | alloc
  | store (k : ℕ)
  | again
  | relock
  | unlock
  | returned
  deriving DecidableEq

instance : Place Thread where
  holds
    | .test | .lock | .returned => false
    | _ => true
  blocked _ := false
  wake t := t
  holds_of_blocked _ h := by cases h
  holds_wake _ h := by cases h
  blocked_wake _ _ := rfl

/-- The objects created are in `objects`, and `dmc` is the place of one of them there. In `seen`
is what the calls have returned or have logged with, as it was at that moment. -/
structure State where
  mu : Monitor Thread
  dmc : Option ℕ
  objects : List Config
  seen : List Config

def init : State := ⟨⟨none, []⟩, none, [], []⟩

namespace State

variable (s : State) (i : ℕ)

def put (t : Thread) : State := { s with mu := s.mu.put i t }

/-- The object that `dmc` points to. -/
def deref : Option Config := s.dmc.bind fun p => s.objects[p]?

/-- The object is used or returned. -/
def use : Option State := s.deref.map fun c => { s with seen := s.seen ++ [c] }

/-- A store to a field of the object. -/
def assign (f : Config → Config) : Option State :=
  s.dmc.map fun p => { s with objects := s.objects.modify p f }

/-- The next piece of a call. A mutex is not locked twice by one thread. -/
def piece : Thread → Option State
  | .test => if s.dmc = none then some (s.put i .lock) else s.use.map (·.put i .returned)
  | .lock => (s.mu.acquire i .retest).map fun m => { s with mu := m }
  | .retest => some (s.put i (if s.dmc = none then .alloc else .again))
  | .alloc => some ({ s with
      dmc := some s.objects.length, objects := s.objects ++ [blank] }.put i (.store 0))
  | .store k => do
    let s ← s.assign (← stores[k]?)
    some (s.put i (if k + 1 < stores.length then .store (k + 1) else .again))
  | .again => if s.dmc = none then some (s.put i .relock) else s.use.map (·.put i .unlock)
  | .relock => none
  | .unlock => s.use.map fun s => { s with mu := s.mu.release i .returned }
  | .returned => none

end State

/-- `call` is a call of `instance`. -/
inductive Act
  | call
  | piece (i : ℕ)
  deriving DecidableEq

def step (s : State) : Act → Option State
  | .call => some { s with mu := s.mu.spawn .test }
  | .piece i => s.mu.threads[i]?.bind (s.piece i)

def run (acts : List Act) : Option State := Runs.exec step init acts

end Libchef.DebugConfigModel
