import Libchef.Base.Decimal
import Libchef.StringsModel

/-!
Parsing a URL into its parts, as `chef_url.hpp` does it.
-/

namespace Libchef.UrlModel

open Libchef.StringsModel

structure UrlContext where
  url_ : Str
  scheme_ : Str
  stdhost_ : Str
  host_ : Str
  originPort_ : ℤ
  pathWithRawQuery_ : Str
  path_ : Str
  pathWithoutLastItem_ : Str
  lastItemOfPath_ : Str
  rawQuery_ : Str
  deriving DecidableEq

/-- `parse`, which writes into a context and returns zero. -/
def parse (url : Str) (ctx : UrlContext) : UrlContext × ℤ :=
  let ctx := { ctx with url_ := url }
  let (_, scheme, str) := cut url (lit [':', '/', '/'])
  let ctx := { ctx with scheme_ := scheme }
  let (_, stdhost, str) := cut str (lit ['/'])
  let ctx := { ctx with stdhost_ := stdhost }
  let (_, host, port) := cut ctx.stdhost_ (lit [':'])
  let ctx := { ctx with host_ := host }
  let ctx := if port ≠ [] then { ctx with originPort_ := Decimal.atoi port } else ctx
  let ctx := { ctx with pathWithRawQuery_ := lit ['/'] ++ str }
  let (_, path, query) := cut ctx.pathWithRawQuery_ (lit ['?'])
  let ctx := { ctx with path_ := path, rawQuery_ := query }
  let (_, before, last) := cutLast ctx.path_ (lit ['/'])
  let ctx := { ctx with pathWithoutLastItem_ := before, lastItemOfPath_ := last }
  let ctx := { ctx with
    pathWithoutLastItem_ := trimPrefix ctx.pathWithoutLastItem_ (lit ['/']) }
  (ctx, 0)

end Libchef.UrlModel
