import Libchef.Base.Decimal
import Libchef.Base.Disk
import Libchef.Base.Ordered
import Libchef.Base.Runs
import Libchef.StringsModel

/-!
Dumping counts to a file, as `chef_count_dump.hpp` does it.

A step is one call of `dump2disk`: what it reads, the time and the counts, and how the system
calls go, the write and the rename, are part of the step. The calls are made one after another,
by the thread of the dumper and at last by its destructor.
-/

namespace Libchef.DumpModel

open Libchef.StringsModel Libchef.Ordered Libchef.Disk

inductive DumpType
  | overwrite
  | append
  deriving DecidableEq

structure Dumper where
  numPerLine_ : UInt32
  filename_ : Str
  type_ : DumpType

/-- The time as `asctime` gives it, the counts, and how the write and the rename go. -/
structure Call where
  asctime : Str
  tag2count : OrderedMap Str Int64
  write : Write
  renamed : Bool

/-- The loop of `styled_stringify`, with the number of the next count. -/
def styledLoop (numPerLine_ : UInt32) (size : ℕ) : UInt32 → List (Str × Int64) → Str
  | _, [] => []
  | count, (tag, n) :: l =>
    tag ++ lit [':', ' '] ++ Decimal.printInt n.toInt ++
      (if count % numPerLine_ = 0 ∨ count.toNat = size then lit ['\n'] else lit [' ', '|', ' ']) ++
      styledLoop numPerLine_ size (count + 1) l

def rule : Str := List.replicate 42 (chr '-') ++ lit ['\n']

/-- `write_file`, and what it returns. That a write which is cut short is seen by `fwrite` is an
assumption: where the text has only been buffered and `fclose` fails, the real one returns 0. -/
def writeFile (files : Contents Str UInt8) (filename content : Str) (append : Bool) (w : Write) :
    Contents Str UInt8 × ℤ :=
  if filename = [] ∨ content = [] then (files, -1)
  else (Disk.write files filename content append w, if w.complete content then 0 else -1)

/-- `filepath_op::rename`, and what it returns. -/
def renameFile (files : Contents Str UInt8) (src dst : Str) (renamed : Bool) :
    Contents Str UInt8 × ℤ :=
  if src = [] ∨ dst = [] then (files, -1)
  else (Disk.rename files src dst renamed, if renamed ∧ (files src).isSome then 0 else -1)

/-- In `dumped` are the texts of the calls so far. -/
structure State where
  files : Contents Str UInt8
  dumped : List Str

def init (files : Contents Str UInt8) : State := ⟨files, []⟩

namespace Dumper

variable (d : Dumper)

/-- It divides by `num_per_line_` where there is a count. -/
def styledStringify (tag2count : OrderedMap Str Int64) : Option Str :=
  if d.numPerLine_ = 0 ∧ tag2count.size ≠ 0 then none
  else some (styledLoop d.numPerLine_ tag2count.size 1 tag2count.entries)

/-- The text of a dump. -/
def text (c : Call) : Option Str := do
  let styled ← d.styledStringify c.tag2count
  some (rule ++ lit ['c', 'h', 'e', 'f', ' ', 'c', 'o', 'u', 'n', 't', ' ', 'd', 'u', 'm', 'p',
    ' ', '-', ' '] ++ c.asctime ++ lit ['-', '-', '-', '-', '\n', '\n'] ++ styled ++ rule)

/-- The name of the file that is written before it is renamed. -/
def tmp : Str := d.filename_ ++ lit ['.', 't', 'm', 'p']

def dump2disk (s : State) (c : Call) : Option State := do
  let text ← d.text c
  match d.type_ with
  | .overwrite =>
    let files := (writeFile s.files d.tmp text false c.write).1
    some ⟨(renameFile files d.tmp d.filename_ c.renamed).1, s.dumped ++ [text]⟩
  | .append =>
    let text := text ++ lit ['\n', '\n']
    some ⟨(writeFile s.files d.filename_ text true c.write).1, s.dumped ++ [text]⟩

def run (files : Contents Str UInt8) (calls : List Call) : Option State :=
  Runs.exec d.dump2disk (init files) calls

end Dumper

end Libchef.DumpModel
