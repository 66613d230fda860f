import Libchef.Base.Runs
import Libchef.Base.Sync

/-!
The event counter, as `chef_wait_event_counter.hpp` has it.

Every call of `wait`, `wait_for` and `notify` is a thread of one monitor. Threads wake up
spuriously at any moment, those with a timeout also because of it.
-/

namespace Libchef.CounterModel

open Libchef.Sync

/-- The places of a call of `wait` or `wait_for`, with a flag that says whether there is a
timeout and one that says whether it is over, and those of a call of `notify`. -/
inductive Thread
  | enter (timed : Bool)
  | test (timed late : Bool)
  | sleep (timed : Bool)
  | waiting (timed : Bool)
  | woken (timed late : Bool)
  | returned (reached : Bool)
  | notify
  | count
  | signal
  | leave
  | notified
  deriving DecidableEq

instance : Place Thread where
  holds
    | .test _ _ | .sleep _ | .count | .signal | .leave => true
    | _ => false
  blocked
    | .waiting _ => true
    | _ => false
  wake
    | .waiting timed => .woken timed false
    | t => t
  holds_of_blocked t h := by cases t <;> first | rfl | cases h
  holds_wake t h := by cases t <;> first | rfl | cases h
  blocked_wake t _ := by cases t <;> rfl

/-- `happened` is how many calls of `notify` have made their increment. -/
structure State where
  monitor : Monitor Thread
  needCount_ : Int32
  counted_ : Int32
  happened : ℕ

def init (nc : Int32) : State := ⟨⟨none, []⟩, nc, 0, 0⟩

namespace State

variable (s : State) (i : ℕ)

def put (t : Thread) : State := { s with monitor := s.monitor.put i t }

def acquire (t : Thread) : Option State :=
  (s.monitor.acquire i t).map fun m => { s with monitor := m }

def release (t : Thread) : State := { s with monitor := s.monitor.release i t }

def check_ : Bool := s.needCount_ ≤ s.counted_

/-- The next piece of a thread, `notify_one` apart. A timed wait that is over returns what the
test says. -/
def piece : Thread → Option State
  | .enter timed => s.acquire i (.test timed false)
  | .woken timed late => s.acquire i (.test timed late)
  | .test timed late =>
    if s.check_ then some (s.release i (.returned true))
    else if late then some (s.release i (.returned false))
    else some (s.put i (.sleep timed))
  | .sleep timed => some (s.release i (.waiting timed))
  | .notify => s.acquire i .count
  | .count =>
    some ({ s with counted_ := s.counted_ + 1, happened := s.happened + 1 }.put i .signal)
  | .leave => some (s.release i .notified)
  | .waiting _ | .returned _ | .signal | .notified => none

end State

/-- `notifyOne i j` is the `notify_one` of thread `i`, which wakes thread `j` or nobody. -/
inductive Act
  | wait
  | waitFor (timeoutMs : UInt32)
  | notify
  | piece (i : ℕ)
  | notifyOne (i : ℕ) (j : Option ℕ)
  | spurious (j : ℕ)
  | timeout (j : ℕ)
  deriving DecidableEq

def step (s : State) : Act → Option State
  | .wait => some { s with monitor := s.monitor.spawn (.enter false) }
  | .waitFor timeoutMs => some { s with monitor := s.monitor.spawn (.enter (timeoutMs ≠ 0)) }
  | .notify => some { s with monitor := s.monitor.spawn .notify }
  | .piece i => s.monitor.threads[i]?.bind (s.piece i)
  | .notifyOne i j =>
    if s.monitor.threads[i]? = some .signal then
      ((s.monitor.put i .leave).notifyOne j).map fun m => { s with monitor := m }
    else none
  | .spurious j => (s.monitor.wakeUp j).map fun m => { s with monitor := m }
  | .timeout j =>
    if s.monitor.threads[j]? = some (.waiting true) then some (s.put j (.woken true true))
    else none

def run (nc : Int32) (acts : List Act) : Option State := Runs.exec step (init nc) acts

end Libchef.CounterModel
