import Libchef.Base.Text
import Mathlib.Data.Finset.Insert
import Mathlib.Data.List.TakeWhile

/-!
Strings and their operations, as `chef_strings_op.hpp` has them.

A string is its bytes. A `char` is signed: its value is that of its bits in two's complement,
and arithmetic promotes it to an `int`.
-/

namespace Libchef.StringsModel

open Libchef.Text

/-- `std::string`. -/
abbrev Str := List UInt8

/-- The `char` of a character literal. -/
def chr (c : Char) : UInt8 := UInt8.ofNat c.toNat

/-- The text of a string literal. -/
def lit (cs : List Char) : Str := cs.map chr

lemma lit_singleton (c : Char) : lit [c] = [chr c] := rfl

def hexdigitsUpper : Str :=
  lit ['0', '1', '2', '3', '4', '5', '6', '7', '8', '9', 'A', 'B', 'C', 'D', 'E', 'F']

def hexdigits : Str :=
  lit ['0', '1', '2', '3', '4', '5', '6', '7', '8', '9', 'a', 'b', 'c', 'd', 'e', 'f',
    'A', 'B', 'C', 'D', 'E', 'F']

/-- What a C function reads of `s.c_str()`. -/
def cStr (s : Str) : Str := s.takeWhile (· ≠ 0)

lemma cStr_eq_self {s : Str} : cStr s = s ↔ 0 ∉ s := by
  rw [cStr, List.takeWhile_eq_self_iff]
  simp only [ne_eq, decide_not, Bool.not_eq_true', decide_eq_false_iff_not]
  exact ⟨fun h hm => h 0 hm rfl, fun h x hx he => h (he ▸ hx)⟩

lemma cStr_append {a : Str} (h : 0 ∉ a) (b : Str) : cStr (a ++ b) = a ++ cStr b := by
  refine List.takeWhile_append_of_pos fun c hc => ?_
  simp only [ne_eq, decide_not, Bool.not_eq_true', decide_eq_false_iff_not]
  exact fun h0 => h (h0 ▸ hc)

/-- `s.substr(pos, n)`, for `pos` up to the length. -/
def substr (s : Str) (pos n : ℕ) : Str := (s.drop pos).take n

/-! ### Splitting and joining -/

/-- The loop of `split`, from position `l` on. -/
def splitLoop (s sep : Str) (hsep : sep ≠ []) (keepEmptyStrings : Bool) (l : ℕ) : List Str :=
  match _h : find s sep l with
  | some r =>
    (if l ≠ r ∨ keepEmptyStrings then [substr s l (r - l)] else []) ++
      splitLoop s sep hsep keepEmptyStrings (r + sep.length)
  | none => if l < s.length ∨ keepEmptyStrings then [s.drop l] else []
termination_by s.length - l
decreasing_by
  obtain ⟨hl, hat, -⟩ := find_eq_some.mp _h
  have := hat.add_le
  have := List.length_pos_iff.mpr hsep
  omega

/-- `split` with a string for a separator. -/
def split (s sep : Str) (keepEmptyStrings : Bool) : List Str :=
  if s = [] then []
  else if hsep : sep = [] then [s]
  else splitLoop s sep hsep keepEmptyStrings 0

/-- The loop of `split_any`, from position `l` on. -/
def splitAnyLoop (s charlist : Str) (keepEmptyStrings : Bool) (l : ℕ) : List Str :=
  match _h : findFirstOf s charlist l with
  | some r =>
    (if l ≠ r ∨ keepEmptyStrings then [substr s l (r - l)] else []) ++
      splitAnyLoop s charlist keepEmptyStrings (r + 1)
  | none => if l < s.length ∨ keepEmptyStrings then [s.drop l] else []
termination_by s.length - l
decreasing_by
  obtain ⟨hl, ⟨c, -, hc⟩, -⟩ := findFirstOf_eq_some.mp _h
  have := (List.getElem?_eq_some_iff.mp hc).1
  omega

def splitAny (s charlist : Str) (keepEmptyStrings : Bool) : List Str :=
  if s = [] then []
  else if charlist = [] then [s]
  else splitAnyLoop s charlist keepEmptyStrings 0

/-- `std::getline`: the item and what is left of the stream. It fails at the end of the stream. -/
def getline (ss : Str) (sep : UInt8) : Option (Str × Str) :=
  if ss = [] then none
  else some (ss.takeWhile (· ≠ sep), (ss.dropWhile (· ≠ sep)).tail)

lemma getline_length {ss item rest : Str} {sep : UInt8}
    (h : getline ss sep = some (item, rest)) : rest.length < ss.length := by
  unfold getline at h
  split_ifs at h with hs
  cases h
  have := (ss.dropWhile_sublist (· ≠ sep)).length_le
  have := List.length_pos_iff.mpr hs
  rw [List.length_tail]
  omega

/-- The loop over `getline` in `split` with a character for a separator. -/
def getlineLoop (sep : UInt8) (keepEmptyStrings : Bool) (ss : Str) : List Str :=
  match _h : getline ss sep with
  | some (item, rest) =>
    (if !keepEmptyStrings && item.isEmpty then [] else [item]) ++
      getlineLoop sep keepEmptyStrings rest
  | none => []
termination_by ss.length
decreasing_by exact getline_length _h

/-- `split` with a character for a separator. -/
def splitByChar (s : Str) (sep : UInt8) (keepEmptyStrings splitOnce : Bool) : List Str :=
  if s = [] then []
  else if splitOnce then
    match find s [sep] 0 with
    | none => [s]
    | some pos =>
      if pos = 0 then (if keepEmptyStrings then [[]] else []) ++ [s.drop 1]
      else if pos = s.length - 1 then
        [substr s 0 (s.length - 1)] ++ if keepEmptyStrings then [[]] else []
      else [substr s 0 pos, s.drop (pos + 1)]
  else
    getlineLoop sep keepEmptyStrings s ++
      if keepEmptyStrings && s.getLast? = some sep then [[]] else []

def cr : UInt8 := chr '\r'

def lf : UInt8 := chr '\n'

/-- The loop of `splitlines`: the line begins at `l`, and `r` is read next. A read outside the
string is `none`. -/
def splitlinesLoop (s : Str) (keepEnds : Bool) (ret : List Str) (l r : ℕ) : Option (List Str) :=
  if r = s.length then some (ret ++ if l < r then [substr s l (r - l)] else [])
  else
    match _h : s[r]? with
    | none => none
    | some ch =>
      if ch = cr then
        let item := substr s l (r - l) ++ if keepEnds then [cr] else []
        if r + 1 = s.length then splitlinesLoop s keepEnds (ret ++ [item]) (r + 1) (r + 1)
        else
          match s[r + 1]? with
          | none => none
          | some next =>
            if next = lf then
              splitlinesLoop s keepEnds (ret ++ [item ++ if keepEnds then [lf] else []]) (r + 2)
                (r + 2)
            else splitlinesLoop s keepEnds (ret ++ [item]) (r + 1) (r + 1)
      else if ch = lf then
        splitlinesLoop s keepEnds (ret ++ [substr s l (r - l) ++ if keepEnds then [lf] else []])
          (r + 1) (r + 1)
      else splitlinesLoop s keepEnds ret l (r + 1)
termination_by s.length - r
decreasing_by all_goals
  have := (List.getElem?_eq_some_iff.mp _h).1
  omega

def splitlines (s : Str) (keepEnds : Bool) : Option (List Str) :=
  if s = [] then some [] else splitlinesLoop s keepEnds [] 0 0

/-- The loop of `join`, with what it has put together so far. -/
def joinLoop (sep : Str) : List Str → Str → Str
  | [], ret => ret
  | [x], ret => ret ++ x
  | x :: y :: ss, ret => joinLoop sep (y :: ss) (ret ++ (x ++ sep))

def join (ss : List Str) (sep : Str) : Str :=
  match ss with
  | [] => []
  | [x] => x
  | ss => joinLoop sep ss []

/-! ### Cutting and trimming -/

/-- `cut`: whether `sep` was found, and what goes to `before` and to `after`. Both are read off
`s` before `after` is written, which may be `s` itself. -/
def cut (s sep : Str) : Bool × Str × Str :=
  match find s sep 0 with
  | none => (false, s, [])
  | some pos => (true, s.take pos, s.drop (pos + sep.length))

def cutLast (s sep : Str) : Bool × Str × Str :=
  match rfind s sep with
  | none => (false, s, [])
  | some pos => (true, s.take pos, s.drop (pos + sep.length))

def hasPrefix (s pre : Str) : Bool :=
  if s = [] ∨ pre = [] then false
  else pre.length ≤ s.length ∧ substr s 0 pre.length = pre

def trimPrefix (s pre : Str) : Str := if hasPrefix s pre then s.drop pre.length else s

/-- The loop of `trim_left`, from position `pos` on; `none` is a read outside the string. -/
def trimLeftLoop (s charlist : Str) (pos : ℕ) : Option ℕ :=
  if pos < s.length then do
    if (← s[pos]?) ∉ charlist then some pos else trimLeftLoop s charlist (pos + 1)
  else some pos
termination_by s.length - pos

/-- `trim_left`; `none` is also a `substr` from past the end. -/
def trimLeft (s charlist : Str) : Option Str :=
  if s = [] ∨ charlist = [] then some s
  else do
    let pos ← trimLeftLoop s charlist 0
    if pos ≤ s.length then some (s.drop pos) else none

/-- The loop of `trim_right`, from position `pos` down. At the front it leaves with `-1`, which
is a `size_t`. -/
def trimRightLoop (s charlist : Str) : (pos : ℕ) → Option ℕ
  | 0 => do if (← s[0]?) ∉ charlist then some 0 else some (2 ^ 64 - 1)
  | pos + 1 => do
    if (← s[pos + 1]?) ∉ charlist then some (pos + 1) else trimRightLoop s charlist pos

def trimRight (s charlist : Str) : Option Str :=
  if s = [] ∨ charlist = [] then some s
  else do
    let pos ← trimRightLoop s charlist (s.length - 1)
    some (substr s 0 ((pos + 1) % 2 ^ 64))

/-! ### Counting and replacing -/

/-- The loop of `contains_all` over `charlist`. -/
def containsAllLoop (hash : Finset UInt8) : Str → Bool
  | [] => true
  | c :: charlist => if c ∉ hash then false else containsAllLoop hash charlist

def containsAll (s charlist : Str) : Bool :=
  if s = [] ∨ charlist = [] ∨ s.length < charlist.length then false
  else containsAllLoop (s.foldl (fun hash c => insert c hash) ∅) charlist

/-- The loop of `count`, from position `pos` on; `none` is an `int` that overflows. -/
def countLoop (s target : Str) (htarget : target ≠ []) (count pos : ℕ) : Option ℕ :=
  match _h : find s target pos with
  | none => some count
  | some found =>
    if count + 1 < 2 ^ 31 then
      if found + target.length ≥ s.length then some (count + 1)
      else countLoop s target htarget (count + 1) (found + target.length)
    else none
termination_by s.length - pos
decreasing_by
  obtain ⟨hpos, hat, -⟩ := find_eq_some.mp _h
  have := hat.add_le
  have := List.length_pos_iff.mpr htarget
  omega

def count (s target : Str) : Option ℕ :=
  if s = target then some 1
  else if s = [] then some 0
  else if htarget : target = [] then some 0
  else countLoop s target htarget 0 0

/-- The loop of `replace`, from position `l` on, with what it has put together so far. -/
def replaceLoop (s target replacement : Str) (htarget : target ≠ []) (ret : Str) (l : ℕ) : Str :=
  match _h : find s target l with
  | some r =>
    replaceLoop s target replacement htarget (ret ++ substr s l (r - l) ++ replacement)
      (r + target.length)
  | none => if l < s.length then ret ++ s.drop l else ret
termination_by s.length - l
decreasing_by
  obtain ⟨hl, hat, -⟩ := find_eq_some.mp _h
  have := hat.add_le
  have := List.length_pos_iff.mpr htarget
  omega

def replace (s target replacement : Str) : Str :=
  if s = [] then s
  else if htarget : target = [] then s
  else replaceLoop s target replacement htarget [] 0

/-- `ret.replace(pos, n, str)`. -/
def replaceAt (ret : Str) (pos n : ℕ) (str : Str) : Str :=
  ret.take pos ++ str ++ ret.drop (pos + n)

def replaceFirst (s target replacement : Str) : Str :=
  if s = [] ∨ target = [] then s
  else
    match find s target 0 with
    | none => s
    | some pos => replaceAt s pos target.length (cStr replacement)

def replaceLast (s target replacement : Str) : Str :=
  if s = [] ∨ target = [] then s
  else
    match rfind s target with
    | none => s
    | some pos => replaceAt s pos target.length (cStr replacement)

/-! ### Wrapping -/

/-- What stands before a piece: an end of line, unless it is the first piece. -/
def wrapEol (eol : Str) (first : Bool) (ret : Str) : Str := if first then ret else ret ++ eol

/-- The loop of `text_flow_wrap` over a line that is too long, from `start` on, where `len` is
left. It runs out of fuel where it goes on for ever. -/
def wrapLoop (line : Str) (width : ℕ) (eol : Str) :
    (fuel start len : ℕ) → (first : Bool) → (ret : Str) → Option (ℕ × ℕ × Bool × Str)
  | 0, _, _, _, _ => none
  | fuel + 1, start, len, first, ret =>
    if len > width then
      wrapLoop line width eol fuel (start + width) (len - width) false
        (wrapEol eol first ret ++ substr line start width)
    else some (start, len, first, ret)

/-- What `text_flow_wrap` does with one line, to the flag and the text. -/
def wrapLine (width : ℕ) (eol : Str) (fuel : ℕ) (st : Bool × Str) (line : Str) :
    Option (Bool × Str) :=
  if line.length > width then do
    let (start, len, first, ret) ← wrapLoop line width eol fuel 0 line.length st.1 st.2
    if len ≠ 0 then some (false, wrapEol eol first ret ++ substr line start width)
    else some (first, ret)
  else some (false, wrapEol eol st.1 st.2 ++ line)

def textFlowWrap (fuel : ℕ) (src : Str) (width : ℕ) (eol : Str) : Option Str :=
  ((split src eol true).foldlM (wrapLine width eol fuel) (true, [])).map Prod.snd

/-! ### URL encoding -/

/-- The value of a `char`. -/
def value (c : UInt8) : ℤ := c.toBitVec.toInt

/-- A `char` promoted to an `int`. -/
def promote (c : UInt8) : BitVec 32 := c.toBitVec.signExtend 32

/-- `s[i]` with an `int` for an index, which is converted to an unsigned `size_t`. The index may
be the length; past it there is nothing to read. -/
def charAt (s : Str) (i : BitVec 32) : Option UInt8 :=
  let pos := (i.signExtend 64).toNat
  if pos = s.length then some 0 else s[pos]?

/-- The characters `url_encode` leaves as they are. -/
def plain (ch : UInt8) : Bool :=
  (value ch ≥ value (chr 'A') ∧ value ch ≤ value (chr 'Z')) ∨
  (value ch ≥ value (chr 'a') ∧ value ch ≤ value (chr 'z')) ∨
  (value ch ≥ value (chr '0') ∧ value ch ≤ value (chr '9')) ∨
  ch = chr '-' ∨ ch = chr '_' ∨ ch = chr '.' ∨ ch = chr '~'

/-- What one round of the loop of `url_encode` appends; `none` is a read outside the digits. -/
def encodeChar (ch : UInt8) : Option Str :=
  if plain ch then some [ch]
  else if ch = chr ' ' then some [chr '+']
  else do
    let hi ← charAt hexdigitsUpper ((promote ch).sshiftRight 4)
    let lo ← charAt hexdigitsUpper (promote ch &&& 15)
    some [chr '%', hi, lo]

/-- The loop of `url_encode`. -/
def encodeLoop : Str → Option Str
  | [] => some []
  | ch :: s => do
    let e ← encodeChar ch
    let es ← encodeLoop s
    some (e ++ es)

def urlEncode (s : Str) : Option Str := if s = [] then some s else encodeLoop s

def unhex (ch : UInt8) : UInt8 :=
  if value ch ≥ value (chr '0') ∧ value ch ≤ value (chr '9') then ch - chr '0'
  else if value ch ≥ value (chr 'a') ∧ value ch ≤ value (chr 'z') then ch - chr 'a' + 10
  else if value ch ≥ value (chr 'A') ∧ value ch ≤ value (chr 'Z') then ch - chr 'A' + 10
  else 0

/-- The `char` that two hex digits stand for. -/
def unhexPair (hi lo : UInt8) : UInt8 :=
  UInt8.ofBitVec (((promote (unhex hi) <<< 4) ||| promote (unhex lo)).truncate 8)

/-- The loop of `url_decode`; `none` is its early return of an empty string. -/
def decodeLoop : Str → Option Str
  | [] => some []
  | ch :: s =>
    if ch = chr '%' then
      match s with
      | hi :: lo :: s =>
        if hi ∈ hexdigits ∧ lo ∈ hexdigits then (decodeLoop s).map (unhexPair hi lo :: ·)
        else none
      | _ => none
    else if ch = chr '+' then (decodeLoop s).map (chr ' ' :: ·)
    else (decodeLoop s).map (ch :: ·)

def urlDecode (s : Str) : Str := if s = [] then s else (decodeLoop s).getD []

/-- The loop of `url_decode` as it reads the string by index, from `i` on, with what it has
decoded so far. A read outside the string is `none`. -/
def decodeLoopAt (s : Str) (i : ℕ) (result : Str) : Option Str :=
  if _h : i < s.length then
    match s[i]? with
    | none => none
    | some ch =>
      if ch = chr '%' then
        if i + 2 ≥ s.length then some []
        else do
          let hi ← s[i + 1]?
          if hi ∉ hexdigits then some []
          else
            let lo ← s[i + 2]?
            if lo ∉ hexdigits then some []
            else decodeLoopAt s (i + 3) (result ++ [unhexPair hi lo])
      else if ch = chr '+' then decodeLoopAt s (i + 1) (result ++ [chr ' '])
      else decodeLoopAt s (i + 1) (result ++ [ch])
  else some result
termination_by s.length - i

def urlDecodeAt (s : Str) : Option Str := if s = [] then some s else decodeLoopAt s 0 []

end Libchef.StringsModel
