import Libchef.Base.Multimap
import Libchef.Base.Runs
import Mathlib.Algebra.Order.Ring.Nat

/-!
The task thread, as `chef_task_thread.hpp` has it, with any number of adding threads.

A step is one of the atomic pieces of the code: the increment in `add`, its critical section,
the store of the exit flag in `stop_and_join`, a reading of the clock moving on, and a piece
of the worker. Nothing but the worker holds the mutex from one step to the next. The worker's
timed wait may end at any moment, so a notification has no effect of its own. What a task does is
left open: the pieces of a call of `add` that it makes come like those of any other thread, and
the worker does not wait for them.
-/

namespace Libchef.TaskModel

open Libchef.Ordered

inductive ReleaseMode
  | asap
  | doShouldDone
  | doAllDone
  deriving DecidableEq

/-- A task in the order of the critical sections of `add`, with its `defferred_time_ms` and
the clock when it was added. -/
structure Task where
  seq : ℕ
  defferredTimeMs : Int32
  addedAt : ℕ
  deriving DecidableEq

/-- The key of a task in `defferred_tasks_`, a `uint64_t`. -/
def Task.due (t : Task) : ℕ := ((t.addedAt + t.defferredTimeMs.toInt) % 2 ^ 64).toNat

/-- Where the worker is. `run`, `flush` and `flushDefferred` are the loops of `execute_tasks_`;
their flag says that the task in front has been called and not yet been removed. -/
inductive Worker
  | idle
  | top
  | test
  | wait
  | collect
  | check
  | run (called : Bool)
  | leave
  | flush (called : Bool)
  | flushDefferred (iter : List (ℕ × Task)) (called : Bool)
  | release
  | ended
  deriving DecidableEq

/-- What has happened: the tasks added, those among them added before the exit flag was
stored and before the final critical section, the tasks executed, and the clock the last
collection read. -/
structure History where
  added : List Task
  early : List Task
  before : List Task
  executed : List Task
  lastNow : Option ℕ

structure State where
  worker : Worker
  releaseMode_ : ReleaseMode
  exitFlag_ : Bool
  tasks_ : List Task
  defferredTasks_ : Multimap ℕ Task
  numOfUndoneTask_ : UInt64
  mutex_ : Bool
  collectTasks : List Task
  adding : List Int32
  clock : ℕ
  hist : History

def init (rm : ReleaseMode) : State :=
  ⟨.idle, rm, false, [], .empty, 0, false, [], [], 0, ⟨[], [], [], [], none⟩⟩

namespace State

variable (s : State)

/-- The critical section of `add`. -/
def push (defferredTimeMs : Int32) : State :=
  let t : Task := ⟨s.hist.added.length, defferredTimeMs, s.clock⟩
  let s := { s with hist.added := s.hist.added ++ [t] }
  if defferredTimeMs = 0 then { s with tasks_ := s.tasks_ ++ [t] }
  else { s with defferredTasks_ := s.defferredTasks_.insert t.due t }

/-- The worker takes the mutex, once it is free. -/
def lock (next : Worker) : Option State :=
  if s.mutex_ then none else some { s with mutex_ := true, worker := next }

def unlock (next : Worker) : State := { s with mutex_ := false, worker := next }

/-- The call of a task. -/
def call (t : Task) (next : Worker) : State :=
  { s with worker := next, hist.executed := s.hist.executed ++ [t] }

/-- What follows the call of a collected task. -/
def pop (next : Worker) : State :=
  { s with
    worker := next
    numOfUndoneTask_ := s.numOfUndoneTask_ - 1
    collectTasks := s.collectTasks.tail }

def appendExpiredTasks_ : State :=
  { s with
    collectTasks := s.collectTasks ++ (s.defferredTasks_.upTo s.clock).map Prod.snd
    defferredTasks_ := s.defferredTasks_.eraseUpTo s.clock
    hist.lastNow := some s.clock }

/-- The two collections in the critical section. -/
def collect : State :=
  let s := { s with hist.lastNow := none }
  let s := if s.tasks_ = [] then s
    else { s with collectTasks := s.tasks_, tasks_ := s.collectTasks }
  if s.defferredTasks_.entries = [] then s else s.appendExpiredTasks_

/-- Where the switch over the release mode goes. -/
def final : Worker :=
  match s.releaseMode_ with
  | .asap => .release
  | .doShouldDone | .doAllDone => .flush false

/-- Where the switch goes once the collected tasks are executed. -/
def afterFlush : Worker :=
  match s.releaseMode_ with
  | .asap | .doShouldDone => .release
  | .doAllDone => .flushDefferred s.defferredTasks_.entries false

/-- The next piece of the worker. -/
def workerStep : Option State :=
  match s.worker with
  | .idle | .ended => none
  | .top => s.lock .test
  | .test =>
    if !s.exitFlag_ && s.tasks_.isEmpty then some (s.unlock .wait)
    else some { s with worker := .collect }
  | .wait => s.lock (if s.defferredTasks_.entries = [] then .test else .collect)
  | .collect => some { s.collect with worker := .check }
  | .check => some (s.unlock (if s.exitFlag_ then .leave else .run false))
  | .run false =>
    match s.collectTasks with
    | [] => some { s with worker := .top }
    | t :: _ => some (s.call t (.run true))
  | .run true => some (s.pop (.run false))
  | .leave => do
    let s ← s.lock s.final
    some { s with hist.before := s.hist.added }
  | .flush false =>
    match s.collectTasks with
    | [] => some { s with worker := s.afterFlush }
    | t :: _ => some (s.call t (.flush true))
  | .flush true => some (s.pop (.flush false))
  | .flushDefferred [] _ => some { s with defferredTasks_ := .empty, worker := .release }
  | .flushDefferred (e :: iter) false => some (s.call e.2 (.flushDefferred (e :: iter) true))
  | .flushDefferred (_ :: iter) true =>
    some { s with
      worker := .flushDefferred iter false, numOfUndoneTask_ := s.numOfUndoneTask_ - 1 }
  | .release => some (s.unlock .ended)

end State

/-- The atomic pieces. `push i` is the critical section of the `i`-th of the calls of `add`
that have made their increment. -/
inductive Act
  | start
  | increment (defferredTimeMs : Int32)
  | push (i : ℕ)
  | stop
  | clock (t : ℕ)
  | worker
  deriving DecidableEq

/-- `now_` is computed in a signed type of 64 bits. -/
def step (s : State) : Act → Option State
  | .start => if s.worker = .idle then some { s with worker := .top } else none
  | .increment defferredTimeMs => some { s with
      numOfUndoneTask_ := s.numOfUndoneTask_ + 1
      adding := s.adding ++ [defferredTimeMs] }
  | .push i => do
    let defferredTimeMs ← s.adding[i]?
    if s.mutex_ then none
    else some ({ s with adding := s.adding.eraseIdx i }.push defferredTimeMs)
  | .stop =>
    if s.exitFlag_ then none else some { s with exitFlag_ := true, hist.early := s.hist.added }
  | .clock t => if t < 2 ^ 63 then some { s with clock := t } else none
  | .worker => s.workerStep

def run (rm : ReleaseMode) (acts : List Act) : Option State := Runs.exec step (init rm) acts

/-- The task that the next piece of the worker calls, if it calls one. -/
def calls (s : State) : Option Task :=
  match s.worker with
  | .run false | .flush false => s.collectTasks.head?
  | .flushDefferred iter false => iter.head?.map Prod.snd
  | _ => none

end Libchef.TaskModel
