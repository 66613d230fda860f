import Libchef.Base.Runs
import Libchef.Base.Sync

/-!
A function that is to run once, as `chef_sync_once.hpp` has it.

Every call of `run` is a thread of one monitor. A step is one atomic piece of one of them: a
load of the flag, the lock, the start of the function and its end, the store, the unlock. The
function is one that returns or throws; what it throws leaves `run` at once.
-/

namespace Libchef.OnceModel

open Libchef.Sync

/-- The places of a call of `run`. In `body` it is in the function; `thrown` is where it has
left because of an exception. -/
inductive Thread
  | load
  | lock
  | test
  | call
  | body
  | store
  | unlock
  | returned
  | thrown
  deriving DecidableEq

instance : Place Thread where
  holds
    | .test | .call | .body | .store | .unlock => true
    | _ => false
  blocked _ := false
  wake t := t
  holds_of_blocked _ h := by cases h
  holds_wake _ h := by cases h
  blocked_wake _ _ := rfl

/-- `begun` and `finished` are how many functions have been started and have returned. -/
structure State where
  m_ : Monitor Thread
  done_ : Bool
  begun : ℕ
  finished : ℕ

def init : State := ⟨⟨none, []⟩, false, 0, 0⟩

namespace State

variable (s : State) (i : ℕ)

def put (t : Thread) : State := { s with m_ := s.m_.put i t }

/-- The next piece of a call. -/
def piece : Thread → Option State
  | .load => some (s.put i (if s.done_ then .returned else .lock))
  | .lock => (s.m_.acquire i .test).map fun m => { s with m_ := m }
  | .test => some (s.put i (if s.done_ then .unlock else .call))
  | .call => some ({ s with begun := s.begun + 1 }.put i .body)
  | .body => some ({ s with finished := s.finished + 1 }.put i .store)
  | .store => some ({ s with done_ := true }.put i .unlock)
  | .unlock => some { s with m_ := s.m_.release i .returned }
  | .returned | .thrown => none

end State

/-- `throw i` is an exception out of the function that the call `i` is in. -/
inductive Act
  | run
  | piece (i : ℕ)
  | throw (i : ℕ)
  deriving DecidableEq

def step (s : State) : Act → Option State
  | .run => some { s with m_ := s.m_.spawn .load }
  | .piece i => s.m_.threads[i]?.bind (s.piece i)
  | .throw i => if s.m_.threads[i]? = some .body then some (s.put i .thrown) else none

def run (acts : List Act) : Option State := Runs.exec step init acts

end Libchef.OnceModel
