import Libchef.Base.Lines
import Libchef.StringsModel

/-!
Running a command, as `chef_os_exec_op.hpp` has it.

The command is what it prints and how it ends. `fgets` writes into a buffer of a fixed size that
is kept from one round to the next.
-/

namespace Libchef.ExecModel

open Libchef.Lines Libchef.StringsModel

def maxLen : ℕ := 16384

/-- `fgets(line, MAX_LEN, fp)`: the buffer after it and what is left of the stream. It fails at
the end of the stream. -/
def fgets (line stream : Str) : Option (Str × Str) :=
  if stream = [] then none
  else
    let chunk := takeLine lf (maxLen - 1) stream
    some (chunk ++ 0 :: line.drop (chunk.length + 1), stream.drop chunk.length)

lemma fgets_length {line stream line' rest : Str} (h : fgets line stream = some (line', rest)) :
    rest.length < stream.length := by
  unfold fgets at h
  split_ifs at h with hs
  cases h
  have hpos : 0 < (takeLine lf (maxLen - 1) stream).length :=
    List.length_pos_iff.mpr (takeLine_ne_nil lf 16382 hs)
  have := List.length_pos_iff.mpr hs
  rw [List.length_drop]
  omega

/-- The end of the line is overwritten. `strlen(line) - 1` is a `size_t`, and an access outside
the buffer is `none`. -/
def cutNewline (line : Str) : Option Str :=
  let rend := ((cStr line).length + 2 ^ 64 - 1) % 2 ^ 64
  ((line)[rend]?).map fun c => if c = lf then line.set rend 0 else line

/-- The loop of `run_command` over `fgets`. -/
def readLoop (line stream : Str) (outputLines : Option (List Str)) : Option (Option (List Str)) :=
  match _h : fgets line stream with
  | none => some outputLines
  | some (line, rest) =>
    match cutNewline line with
    | none => none
    | some line => readLoop line rest (outputLines.map (· ++ [cStr line]))
termination_by stream.length
decreasing_by exact fgets_length _h

/-- What `run_command` returns, and what its outputs hold then. -/
structure Outcome where
  ret : Bool
  outputLines : Option (List Str)
  exitStatus : Option ℤ
deriving DecidableEq

/-- `run_command`. What `popen` gives is the stream that the command prints, or nothing, and
`pclose` gives the status of the command or -1. An output that is not asked for is `none`. -/
def runCommand (popen : Option Str) (pclose : ℤ) (outputLines : Option (List Str))
    (exitStatus : Option ℤ) : Option Outcome :=
  match popen with
  | none => some ⟨false, outputLines, exitStatus⟩
  | some stream =>
    match readLoop (List.replicate maxLen 0) stream outputLines with
    | none => none
    | some outputLines =>
      let es := pclose
      if es = -1 then some ⟨false, outputLines, exitStatus⟩
      else some ⟨true, outputLines, exitStatus.map fun _ => es⟩

end Libchef.ExecModel
