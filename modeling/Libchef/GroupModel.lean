import Libchef.Base.Runs
import Mathlib.Algebra.Order.Ring.Nat

/-!
The thread group, as `chef_thread_group.hpp` has it.

Of each of its task threads it has the tasks that were given to it, in order. What `rand` and
the counts of undone tasks are at the moment of a call is given with the call.
-/

namespace Libchef.GroupModel

inductive InnerDispatchStrategy
  | roundRobin
  | random
  | idle
  deriving DecidableEq

structure ThreadGroup (Task : Type) where
  numOfThread_ : UInt32
  strategy_ : InnerDispatchStrategy
  threads_ : List (List Task)
  roundRobinIndex_ : UInt32

variable {Task : Type}

def make (numOfThread : UInt32) (strategy : InnerDispatchStrategy) : ThreadGroup Task :=
  ⟨numOfThread, strategy, List.replicate numOfThread.toNat [], 0⟩

/-- The index and the count of undone tasks of a thread with the fewest of them. -/
def minUndone (undone : ℕ → UInt64) (numOfThread : UInt32) : ℕ × UInt32 :=
  (List.range' 1 (numOfThread.toNat - 1)).foldl
    (fun m i => if (undone i).toUInt32 < m.2 then (i, (undone i).toUInt32) else m)
    (0, (undone 0).toUInt32)

/-- The index that `add` without one goes on with. -/
def index (g : ThreadGroup Task) (rand : Int32) (undone : ℕ → UInt64) : UInt32 :=
  match g.strategy_ with
  | .roundRobin => g.roundRobinIndex_
  | .random => rand.toUInt32
  | .idle => UInt32.ofNat (minUndone undone g.numOfThread_).1

/-- The thread for an index, `none` where the remainder is undefined. -/
def thread (g : ThreadGroup Task) (index : UInt32) : Option ℕ :=
  if g.numOfThread_ = 0 then none else some (index % g.numOfThread_).toNat

/-- `add` with an index. -/
def addAt (g : ThreadGroup Task) (t : Task) (index : UInt32) : Option (ThreadGroup Task) := do
  let i ← thread g index
  if i < g.threads_.length then some { g with threads_ := g.threads_.modify i (· ++ [t]) }
  else none

/-- `add` without an index. -/
def add (g : ThreadGroup Task) (t : Task) (rand : Int32) (undone : ℕ → UInt64) :
    Option (ThreadGroup Task) :=
  addAt { g with roundRobinIndex_ := match g.strategy_ with
    | .roundRobin => g.roundRobinIndex_ + 1
    | .random | .idle => g.roundRobinIndex_ } t (index g rand undone)

inductive Op (Task : Type)
  | add (t : Task) (rand : Int32) (undone : ℕ → UInt64)
  | addAt (t : Task) (index : UInt32)

def step (g : ThreadGroup Task) : Op Task → Option (ThreadGroup Task)
  | .add t rand undone => add g t rand undone
  | .addAt t index => addAt g t index

def run (numOfThread : UInt32) (strategy : InnerDispatchStrategy) (ops : List (Op Task)) :
    Option (ThreadGroup Task) :=
  Runs.exec step (make numOfThread strategy) ops

end Libchef.GroupModel
