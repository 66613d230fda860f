import Mathlib.Logic.Function.Basic
import Libchef.Base.Runs
import Libchef.Base.RecordLock
import Libchef.Base.Decimal
import Libchef.StringsModel

/-!
Daemons, as `chef_daemon_op.hpp` has them, on one pidfile.

Processes call `start`. A step is one system call of one of them, or the end of a process;
whether the system call succeeds is part of the step.
-/

namespace Libchef.DaemonModel

open Libchef.RecordLock Libchef.StringsModel

/-- What `exist` makes of the bytes that it has read; `none` is a read past its buffer. -/
def pidOf (bytes : Str) : Option ℤ :=
  let buf := bytes ++ List.replicate (64 - bytes.length) 0
  let text := buf.takeWhile fun c => c ≠ 0 ∧ c ≠ chr '\n'
  if text.length = 64 then none else some (Decimal.atoi text)

/-- The line that `write` puts into the file. -/
def line (pid : ℕ) : Str := Decimal.print pid ++ [chr '\n']

/-- The places of a process: outside of `start`, in `exist`, in `start` after it, in `write`,
and after `start`. Since it looked at the file, a process knows how many times the file had been
truncated then; this number is not in the source. -/
inductive Place
  | unborn
  | idle
  | start
  | opened
  | read (bytes : Str) (seen : ℕ)
  | closed (bytes : Str) (seen : ℕ)
  | checked (seen : ℕ)
  | forked (seen : ℕ)
  | truncated
  | locked
  | written (complete : Bool)
  | returned
  | dead
  deriving DecidableEq

namespace Place

def live : Place → Bool
  | .unborn | .dead => false
  | _ => true

/-- In a call of `start`. -/
def calling : Place → Bool
  | .unborn | .idle | .returned | .dead => false
  | _ => true

/-- How many times the file had been truncated when the process looked at it. -/
def seen : Place → ℕ
  | .read _ n | .closed _ n | .checked n | .forked n => n
  | _ => 0

end Place

/-- `truncs` lists the processes that have truncated the file, in order. -/
structure State where
  place : ℕ → Place
  file : Option Str
  lock : Lock ℕ
  truncs : List ℕ

def init (file : Option Str) : State := ⟨fun _ => .unborn, file, .free, []⟩

namespace State

variable (s : State) (p : ℕ)

def put (t : Place) : State := { s with place := Function.update s.place p t }

/-- The end of a process, which closes its descriptors. -/
def exit : State := { s.put p .dead with lock := s.lock.release p }

/-- A process id that was never in use. -/
def Fresh : Prop := 0 < p ∧ p < 2 ^ 31 ∧ s.place p = .unborn

instance : Decidable (s.Fresh p) := inferInstanceAs (Decidable (_ ∧ _ ∧ _))

/-! ### `exist` -/

def existOpen (ok : Bool) : Option State :=
  if ok then if s.file = none then none else some (s.put p .opened)
  else some (s.put p (.checked s.truncs.length))

def existRead (ok : Bool) : Option State :=
  if ok then s.file.map fun f => s.put p (.read (f.take 64) s.truncs.length)
  else some (s.put p (.checked s.truncs.length))

def existClose (bytes : Str) (seen : ℕ) : State := s.put p (.closed bytes seen)

/-- `kill(pid, 0)`, for which the process id has to be positive. -/
def existKill (bytes : Str) (seen : ℕ) : Option State :=
  (pidOf bytes).map fun pid =>
    if pid ≤ 0 ∨ (s.place pid.toNat).live = false then s.put p (.checked seen) else s.exit p

/-! ### `daemon` -/

/-- The call goes on in a new process, the old one ends. -/
def daemon (seen : ℕ) : Option ℕ → Option State
  | some child => if s.Fresh child then some ((s.put child (.forked seen)).exit p) else none
  | none => some (s.exit p)

/-! ### `write` -/

/-- `open` with `O_TRUNC`. -/
def writeOpen (ok : Bool) : State :=
  if ok then { s.put p .truncated with file := some [], truncs := s.truncs ++ [p] } else s.exit p

/-- `lockf` with `F_TLOCK`, which fails where another process has the lock. -/
def writeLock (ok : Bool) : Option State :=
  if ok then (s.lock.request p).map fun l => { s.put p .locked with lock := l }
  else some (s.exit p)

/-- `::write`, which writes the first `n` bytes of the line over the start of the file. -/
def writeLine (n : ℕ) : Option State :=
  if n ≤ (line p).length then
    some { s.put p (.written (n = (line p).length)) with
      file := some ((line p).take n ++ (s.file.getD []).drop n) }
  else none

def writeClose (complete : Bool) : State :=
  if complete then { s.put p .returned with lock := s.lock.release p } else s.exit p

end State

inductive Act
  | spawn (p : ℕ)
  | call (p : ℕ)
  | existOpen (p : ℕ) (ok : Bool)
  | existRead (p : ℕ) (ok : Bool)
  | existClose (p : ℕ)
  | existKill (p : ℕ)
  | daemon (p : ℕ) (child : Option ℕ)
  | writeOpen (p : ℕ) (ok : Bool)
  | writeLock (p : ℕ) (ok : Bool)
  | writeLine (p : ℕ) (n : ℕ)
  | writeClose (p : ℕ)
  | die (p : ℕ)

def step (s : State) : Act → Option State
  | .spawn p => if s.Fresh p then some (s.put p .idle) else none
  | .call p => if s.place p = .idle then some (s.put p .start) else none
  | .existOpen p ok => if s.place p = .start then s.existOpen p ok else none
  | .existRead p ok => if s.place p = .opened then s.existRead p ok else none
  | .existClose p =>
    match s.place p with
    | .read bytes seen => some (s.existClose p bytes seen)
    | _ => none
  | .existKill p =>
    match s.place p with
    | .closed bytes seen => s.existKill p bytes seen
    | _ => none
  | .daemon p child =>
    match s.place p with
    | .checked seen => s.daemon p seen child
    | _ => none
  | .writeOpen p ok =>
    match s.place p with
    | .forked _ => some (s.writeOpen p ok)
    | _ => none
  | .writeLock p ok => if s.place p = .truncated then s.writeLock p ok else none
  | .writeLine p n => if s.place p = .locked then s.writeLine p n else none
  | .writeClose p =>
    match s.place p with
    | .written complete => some (s.writeClose p complete)
    | _ => none
  | .die p => if (s.place p).live then some (s.exit p) else none

def run (file : Option Str) (acts : List Act) : Option State := Runs.exec step (init file) acts

@[simp] lemma State.put_place {s : State} {p q : ℕ} {t : Place} :
    (s.put p t).place q = if q = p then t else s.place q := Function.update_apply ..

@[simp] lemma State.exit_place {s : State} {p q : ℕ} :
    (s.exit p).place q = if q = p then .dead else s.place q := State.put_place

end Libchef.DaemonModel
