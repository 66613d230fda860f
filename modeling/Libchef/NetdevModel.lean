import Libchef.Base.Istream
import Libchef.FilepathModel

/-!
The bytes that went through a network interface, as `chef_this_machine_op.hpp` reads them from
`/proc/net/dev`.
-/

namespace Libchef.NetdevModel

open Libchef.Text Libchef.Istream Libchef.StringsModel

structure Netdev where
  inBytes_ : ℕ
  outBytes_ : ℕ
  deriving DecidableEq

def Netdev.init : Netdev := ⟨0, 0⟩

/-- How much of the file is read. -/
def contentSize : ℕ := 65535

/-- What stands behind the name of an interface. -/
def colonSpace : Str := lit [':', ' ']

/-- `netdev::parse`, and the members after it. It begins with whatever is in `dummy`. -/
def parse (nd : Netdev) (dummy : ℤ) (file : Option Str) (interface : Str) : Bool × Netdev :=
  let content := FilepathModel.readFile file contentSize
  if content = [] then (false, nd)
  else
    let key := interface ++ colonSpace
    match find content key 0 with
    | none => (false, nd)
    | some pos =>
      let ss := ⟨cStr (content.drop (pos + key.length)), false⟩
      let inBytes := extract readUInt64 (nd.inBytes_, ss)
      let dummies := (extract readInt64)^[7] (dummy, inBytes.2)
      let outBytes := extract readUInt64 (nd.outBytes_, dummies.2)
      (true, ⟨inBytes.1, outBytes.1⟩)

/-- `net_interface_bytes`. An output that is not asked for is `none`. -/
def netInterfaceBytes (dummy : ℤ) (file : Option Str) (interface : Str)
    (inBytes outBytes : Option ℕ) : Bool × Option ℕ × Option ℕ :=
  match parse .init dummy file interface with
  | (false, _) => (false, inBytes, outBytes)
  | (true, nd) => (true, inBytes.map fun _ => nd.inBytes_, outBytes.map fun _ => nd.outBytes_)

end Libchef.NetdevModel
