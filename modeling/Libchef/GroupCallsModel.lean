import Libchef.GroupModel
import Libchef.TaskModel

/-!
The thread group with its task threads, called by any number of threads.

A step is a piece of one of the calls, or of one of the task threads: a call reads the count of
undone tasks of one thread at a time, and its `task_thread::add` has an increment and a critical
section. Calls of `add` without an index go by turns through `round_robin_index_`, which no mutex
guards: that piece is taken as one.
-/

namespace Libchef.GroupCallsModel

open Libchef.GroupModel

/-- Where a call is. `start` starts the thread `i` next; `add` and `num_of_undone_task` read the
count of the thread `i` in `scan` and `sum`; `add` and `adding` are `task_thread::add` of the thread
`k`, before its increment and before its critical section; the destructor stores the exit flag of
the thread `i`, and then waits for it. -/
inductive Call (Task : Type)
  | starting (i : ℕ)
  | scan (t : Task) (i minIndex : ℕ) (minUndone : UInt32)
  | add (t : Task) (k : ℕ)
  | adding (t : Task) (k : ℕ)
  | sum (i : ℕ) (ret : UInt64)
  | returned (ret : UInt64)
  | stopping (i : ℕ)
  | joining (i : ℕ)

/-- The task that a call still has to hand on. -/
def Call.task {Task : Type} : Call Task → Option Task
  | .scan t _ _ _ | .add t _ | .adding t _ => some t
  | _ => none

/-- The group, its threads, the calls that are going on and the tasks that were handed to it. -/
structure State (Task : Type) where
  group : ThreadGroup Task
  threads_ : List TaskModel.State
  calls : List (Option (Call Task))
  handed : List Task

variable {Task : Type}

def init (numOfThread : UInt32) (strategy : InnerDispatchStrategy) (callers : ℕ) : State Task :=
  ⟨make numOfThread strategy, List.replicate numOfThread.toNat (TaskModel.init .asap),
    List.replicate callers none, []⟩

namespace State

variable (g : State Task)

def num : ℕ := g.group.numOfThread_.toNat

def free (c : ℕ) : Bool :=
  match g.calls[c]? with
  | some none => true
  | _ => false

/-- What `num_of_undone_task` has returned to the thread `c`. -/
def result (c : ℕ) : Option UInt64 :=
  match g.calls[c]? with
  | some (some (.returned ret)) => some ret
  | _ => none

/-- The task thread that `add` has chosen for the task of the thread `c`. -/
def chosen (c : ℕ) : Option ℕ :=
  match g.calls[c]? with
  | some (some (.add _ k)) => some k
  | _ => none

def put (c : ℕ) (call : Option (Call Task)) : State Task :=
  { g with calls := g.calls.set c call }

def thread (k : ℕ) (a : TaskModel.Act) : Option (State Task) := do
  let s ← TaskModel.step (← g.threads_[k]?) a
  some { g with threads_ := g.threads_.set k s }

def count (k : ℕ) : Option UInt64 := g.threads_[k]?.map TaskModel.State.numOfUndoneTask_

/-- `add` with an index, up to `task_thread::add`. -/
def addAt (c : ℕ) (t : Task) (index : UInt32) : Option (State Task) := do
  let k ← GroupModel.thread g.group index
  some (g.put c (some (.add t k)))

/-- The first piece of `add` without an index. -/
def add (c : ℕ) (t : Task) (rand : Int32) : Option (State Task) :=
  match g.group.strategy_ with
  | .roundRobin =>
    { g with group.roundRobinIndex_ := g.group.roundRobinIndex_ + 1 }.addAt c t
      g.group.roundRobinIndex_
  | .random => g.addAt c t rand.toUInt32
  | .idle => do
    let undone ← g.count 0
    some (g.put c (some (.scan t 1 0 undone.toUInt32)))

def go (c : ℕ) : Call Task → Option (State Task)
  | .starting i =>
    if i < g.num then (g.thread i .start).map fun g => g.put c (some (.starting (i + 1)))
    else some (g.put c none)
  | .scan t i minIndex minUndone =>
    if i < g.num then do
      let undone ← g.count i
      some (g.put c (some (if undone.toUInt32 < minUndone then .scan t (i + 1) i undone.toUInt32
        else .scan t (i + 1) minIndex minUndone)))
    else g.addAt c t (UInt32.ofNat minIndex)
  | .add t k => (g.thread k (.increment 0)).map fun g => g.put c (some (.adding t k))
  | .adding t k => (g.thread k (.push 0)).map fun g =>
    { g with group.threads_ := g.group.threads_.modify k (· ++ [t]) }.put c none
  | .sum i ret =>
    if i < g.num then do
      let undone ← g.count i
      some (g.put c (some (.sum (i + 1) (ret + undone))))
    else some (g.put c (some (.returned ret)))
  | .returned _ => some (g.put c none)
  | .stopping i =>
    if i < g.num then (g.thread i .stop).map fun g => g.put c (some (.joining i))
    else some (g.put c none)
  | .joining i => do
    let s ← g.threads_[i]?
    if s.worker = .ended ∨ s.worker = .idle then some (g.put c (some (.stopping (i + 1))))
    else none

end State

/-- A thread `c` begins a call or goes on with it, and a task thread makes a piece by itself. -/
inductive Act (Task : Type)
  | start (c : ℕ)
  | add (c : ℕ) (t : Task) (rand : Int32)
  | addAt (c : ℕ) (t : Task) (index : UInt32)
  | numOfUndoneTask (c : ℕ)
  | destroy (c : ℕ)
  | go (c : ℕ)
  | worker (k : ℕ)
  | clock (k t : ℕ)

def step (g : State Task) : Act Task → Option (State Task)
  | .start c => if g.free c then some (g.put c (some (.starting 0))) else none
  | .add c t rand =>
    if g.free c then { g with handed := g.handed ++ [t] }.add c t rand else none
  | .addAt c t index =>
    if g.free c then { g with handed := g.handed ++ [t] }.addAt c t index else none
  | .numOfUndoneTask c =>
    if g.free c then some (g.put c (some (.sum 0 0))) else none
  | .destroy c =>
    if g.free c then some (g.put c (some (.stopping 0))) else none
  | .go c => do
    let call ← g.calls[c]?
    g.go c (← call)
  | .worker k => g.thread k .worker
  | .clock k t => g.thread k (.clock t)

def run (numOfThread : UInt32) (strategy : InnerDispatchStrategy) (callers : ℕ)
    (acts : List (Act Task)) : Option (State Task) :=
  Runs.exec step (init numOfThread strategy callers) acts

end Libchef.GroupCallsModel
