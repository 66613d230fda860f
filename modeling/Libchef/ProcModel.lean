import Libchef.Base.Istream
import Libchef.FilepathModel

/-!
The memory a process uses, as `chef_this_process_op.hpp` reads it from `/proc/self/stat`.

The members that an extraction fails to set keep the values they have.
-/

namespace Libchef.ProcModel

open Libchef.Istream Libchef.StringsModel

structure ProcStat where
  stringDummy_ : Str
  chDummy_ : UInt8
  int32Dummy_ : ℤ
  int64Dummy_ : ℤ
  virtKbytes_ : ℤ
  resKbytes_ : ℤ
  deriving DecidableEq

/-- The conversion of an `int64_t` to an `int32_t`. -/
def toInt32 (n : ℤ) : ℤ := (BitVec.ofInt 32 n).toInt

/-- The members after the extractions in `parse`, and `vsize` and `res`. -/
structure Extracted where
  members : ProcStat
  vsize : ℤ
  res : ℤ
  deriving DecidableEq

/-- The extractions in `parse`. -/
def extractAll (d : ProcStat) (content : Str) : Extracted :=
  let pid := extract readInt32 (d.int32Dummy_, ⟨cStr content, false⟩)
  let comm := extract readWord (d.stringDummy_, pid.2)
  let state := extract readChar (d.chDummy_, comm.2)
  let ints := (extract readInt32)^[6] (pid.1, state.2)
  let longs := (extract readInt64)^[13] (d.int64Dummy_, ints.2)
  let vsize := extract readInt64 (0, longs.2)
  let res := extract readInt64 (0, vsize.2)
  let last := extract readInt64 (longs.1, res.2)
  { members :=
      { d with
        stringDummy_ := comm.1
        chDummy_ := state.1
        int32Dummy_ := ints.1
        int64Dummy_ := last.1 }
    vsize := vsize.1
    res := res.1 }

/-- `proc_stat::parse`. A product out of the range of an `int64_t` is `none`. -/
def parse (d : ProcStat) (content : Str) (pageSize : ℤ) : Option ProcStat :=
  let e := extractAll d content
  let resKbytes := e.res * pageSize.tdiv 1024
  if -2 ^ 63 ≤ resKbytes ∧ resKbytes < 2 ^ 63 then
    some { e.members with
      virtKbytes_ := toInt32 (e.vsize.tdiv 1024), resKbytes_ := toInt32 resKbytes }
  else none

structure MemInfo where
  virtKbytes : ℤ
  resKbytes : ℤ
  deriving DecidableEq

/-- `obtain_mem_info`, with what `/proc/self/stat` holds and the `proc_stat` it begins with. -/
def obtainMemInfo (d : ProcStat) (stat : Option Str) (pageSize : ℤ) (mi : Option MemInfo) :
    Option (Bool × Option MemInfo) :=
  match mi with
  | none => some (false, none)
  | some _ =>
    (parse d (FilepathModel.readFile stat 65535) pageSize).map fun ps =>
      (true, some ⟨ps.virtKbytes_, ps.resKbytes_⟩)

end Libchef.ProcModel
