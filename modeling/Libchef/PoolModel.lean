import Libchef.Base.Runs
import Libchef.Base.Sync

/-!
The thread pool, as `chef_thread_pool.hpp` has it, with any number of adding threads.

Workers and calls of `add` are threads of one monitor. A step is one atomic piece of one of
them, a spurious wake-up, or one of the two stores of the destructor, which does not take the
mutex.
-/

namespace Libchef.PoolModel

open Libchef.Sync

/-- A task in the order of `push_back`, and whether it is a callable at all. -/
structure Task where
  seq : ℕ
  callable : Bool
  deriving DecidableEq

/-- The places of a worker, from the loop of `run_in_thread_` through `take_` and back, and
those of a call of `add`. -/
inductive Thread
  | loop
  | enter
  | test
  | sleep
  | waiting
  | woken
  | take
  | run (t : Option Task)
  | done
  | ended
  | add (callable : Bool)
  | lock (callable : Bool)
  | push (callable : Bool)
  | notify
  | leave
  | added
  deriving DecidableEq

instance : Place Thread where
  holds
    | .test | .sleep | .take | .push _ | .notify | .leave => true
    | _ => false
  blocked t := t = .waiting
  wake _ := .woken
  holds_of_blocked t h := by rw [of_decide_eq_true h]
  holds_wake _ _ := rfl
  blocked_wake _ _ := rfl

/-- How far the destructor is. -/
inductive Destructor
  | alive
  | exiting
  | notified
  deriving DecidableEq

/-- The tasks pushed, taken and executed, in order. -/
structure History where
  pushed : List Task
  taken : List Task
  executed : List Task

structure State where
  monitor : Monitor Thread
  numOfThread_ : UInt32
  started : ℕ
  exitFlag_ : Bool
  destructor : Destructor
  tasks_ : List Task
  numOfUndoneTask_ : UInt64
  hist : History

def init (numOfThread : UInt32) : State :=
  ⟨⟨none, []⟩, numOfThread, 0, false, .alive, [], 0, ⟨[], [], []⟩⟩

namespace State

variable (s : State) (i : ℕ)

def put (t : Thread) : State := { s with monitor := s.monitor.put i t }

def acquire (t : Thread) : Option State :=
  (s.monitor.acquire i t).map fun m => { s with monitor := m }

def release (t : Thread) : State := { s with monitor := s.monitor.release i t }

/-- The end of `take_`. -/
def take : State :=
  match s.tasks_ with
  | [] => s.release i (.run none)
  | t :: l => { s with tasks_ := l, hist.taken := s.hist.taken ++ [t] }.release i (.run (some t))

def pushBack (callable : Bool) : State :=
  let t : Task := ⟨s.hist.pushed.length, callable⟩
  { s with tasks_ := s.tasks_ ++ [t], hist.pushed := s.hist.pushed ++ [t] }

/-- The next piece of a thread, `notify_one` apart. -/
def piece : Thread → Option State
  | .loop => some (s.put i (if s.exitFlag_ then .ended else .enter))
  | .enter | .woken => s.acquire i .test
  | .test => some (s.put i (if !s.exitFlag_ && s.tasks_.isEmpty then .sleep else .take))
  | .sleep => some (s.release i .waiting)
  | .take => some (s.take i)
  | .run none => some (s.put i .loop)
  | .run (some t) =>
    if t.callable then
      some ({ s with hist.executed := s.hist.executed ++ [t] }.put i .done)
    else some (s.put i .loop)
  | .done => some ({ s with numOfUndoneTask_ := s.numOfUndoneTask_ - 1 }.put i .loop)
  | .add c => some ({ s with numOfUndoneTask_ := s.numOfUndoneTask_ + 1 }.put i (.lock c))
  | .lock c => s.acquire i (.push c)
  | .push c => some ((s.pushBack c).put i .notify)
  | .leave => some (s.release i .added)
  | .waiting | .ended | .notify | .added => none

end State

/-- `notifyOne i j` is the `notify_one` of thread `i`, which wakes thread `j` or nobody. -/
inductive Act
  | start
  | add (callable : Bool)
  | piece (i : ℕ)
  | notifyOne (i : ℕ) (j : Option ℕ)
  | spurious (j : ℕ)
  | exit
  | notifyAll
  deriving DecidableEq

/-- The destructor joins all threads of the pool, so they have been started before. -/
def step (s : State) : Act → Option State
  | .start =>
    if s.destructor = .alive ∧ s.started < s.numOfThread_.toNat then
      some { s with monitor := s.monitor.spawn .loop, started := s.started + 1 }
    else none
  | .add c => some { s with monitor := s.monitor.spawn (.add c) }
  | .piece i => s.monitor.threads[i]?.bind (s.piece i)
  | .notifyOne i j =>
    if s.monitor.threads[i]? = some .notify then
      ((s.monitor.put i .leave).notifyOne j).map fun m => { s with monitor := m }
    else none
  | .spurious j => (s.monitor.wakeUp j).map fun m => { s with monitor := m }
  | .exit =>
    if s.destructor = .alive ∧ s.started = s.numOfThread_.toNat then
      some { s with exitFlag_ := true, destructor := .exiting }
    else none
  | .notifyAll =>
    if s.destructor = .exiting then
      some { s with monitor := s.monitor.notifyAll, destructor := .notified }
    else none

def run (numOfThread : UInt32) (acts : List Act) : Option State :=
  Runs.exec step (init numOfThread) acts

end Libchef.PoolModel
