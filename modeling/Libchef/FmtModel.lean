import Libchef.StringsModel

/-!
Formatting a string, as `chef_fmt_op.hpp` does it.

An argument is the text that `<<` writes of it.
-/

namespace Libchef.FmtModel

open Libchef.Text Libchef.StringsModel

def placeholder : Str := lit ['{', '}']

/-- `format` of one argument, which changes the string. -/
def formatOne (fmt val : Str) : Str :=
  match find fmt placeholder 0 with
  | some pos => replaceAt fmt pos 2 val
  | none => fmt

/-- `format` of the arguments one after another. -/
def formatAll (fmt : Str) : List Str → Str
  | [] => fmt
  | val :: args => formatAll (formatOne fmt val) args

/-- `format`, which reads the format as a C string. -/
def format (fmt : Str) (args : List Str) : Str :=
  let res := cStr fmt
  if args.length = 0 then res else formatAll res args

end Libchef.FmtModel
