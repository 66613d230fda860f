import Libchef.Base.Decimal
import Libchef.Base.Ordered
import Libchef.StringsModel

/-!
The cookies of a response, as `chef_http_op_impl.hpp` reads them.

libcurl gives a linked list of strings. A string is what stands up to its NUL, and the pointer into
the list is the entries from it on.
-/

namespace Libchef.HttpModel

open Libchef.StringsModel Libchef.Ordered

def whitespace : Str := lit [' ', '\t', '\n', '\r'] ++ [0x0b, 0x0c]

structure ResponseCookie where
  name_ : Str
  value_ : Str
  hostname_ : Str
  isIncludeSubdomains_ : Bool
  path_ : Str
  isSecure_ : Bool
  expiryEpochTime_ : ℤ
  deriving DecidableEq

def cookieAttrs (entry : Str) : List Str := splitAny (cStr entry) whitespace true

def true_ : Str := lit ['T', 'R', 'U', 'E']

/-- The cookie of an entry with seven fields. -/
def cookieOf (entry : Str) : Option ResponseCookie :=
  match cookieAttrs entry with
  | [hostname, subdomains, path, secure, expiry, name, value] =>
    some
      { name_ := name
        value_ := value
        hostname_ := hostname
        isIncludeSubdomains_ := subdomains = true_
        path_ := path
        isSecure_ := secure = true_
        expiryEpochTime_ := Decimal.strtol (cStr expiry) }
  | _ => none

/-- `cs_cookies_dup`, and `resp.cookies_`. -/
structure LoopState where
  csCookiesDup : List Str
  cookies_ : OrderedMap Str ResponseCookie

/-- A round of the loop in `get_or_post` over the cookies. There is none at the end of the list. -/
def cookieRound (st : LoopState) : Option LoopState :=
  match st.csCookiesDup with
  | [] => none
  | entry :: next =>
    match cookieOf entry with
    | none => some st -- `continue`, with the pointer where it is
    | some rc => some ⟨next, st.cookies_.insert rc.name_ rc⟩

def cookieRounds : ℕ → LoopState → Option LoopState
  | 0, st => some st
  | n + 1, st => (cookieRounds n st).bind cookieRound

/-- The loop, for as many rounds as there is fuel. -/
def cookieLoop : ℕ → LoopState → Option (OrderedMap Str ResponseCookie)
  | 0, _ => none
  | fuel + 1, st =>
    match cookieRound st with
    | none => some st.cookies_
    | some st => cookieLoop fuel st

end Libchef.HttpModel
