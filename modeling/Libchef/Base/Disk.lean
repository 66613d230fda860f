import Mathlib.Data.List.Basic
import Mathlib.Logic.Function.Basic

/-!
Files by name, whose writes and renames may fail.

A write may leave any first part of a text; a rename is done as a whole or not at all. A file is
replaced by way of another one: what it holds afterwards is what that one was left with.
-/

namespace Libchef.Disk

variable {N α : Type*} [DecidableEq N]

/-- What each file holds, `none` where there is no file. -/
abbrev Contents (N α : Type*) := N → Option (List α)

/-- How a write goes: the file is not opened, or so many elements of the text are written. -/
inductive Write
  | refused
  | wrote (n : ℕ)
  deriving DecidableEq

variable (d : Contents N α) (src dst : N) (text : List α)

/-- The file after a write of a text, over what it holds or at the end of it. -/
def write (append : Bool) : Write → Contents N α
  | .refused => d
  | .wrote n =>
    Function.update d src (some ((if append then (d src).getD [] else []) ++ text.take n))

/-- The text has been written in full. -/
def Write.complete (w : Write) (text : List α) : Bool :=
  match w with
  | .refused => false
  | .wrote n => text.length ≤ n

/-- A rename is refused also where there is no such file. -/
def rename (done : Bool) : Contents N α :=
  if done ∧ (d src).isSome then Function.update (Function.update d src none) dst (d src) else d

/-- What a file holds after a write over it. -/
def left (w : Write) : Option (List α) :=
  match w with
  | .refused => d src
  | .wrote n => some (text.take n)

lemma write_self (w : Write) : write d src text false w src = left d src text w := by
  cases w with
  | refused => rfl
  | wrote n => simp [write, left]

lemma write_of_ne {x : N} (hx : x ≠ src) (append : Bool) (w : Write) :
    write d src text append w x = d x := by
  cases w with
  | refused => rfl
  | wrote n => exact Function.update_of_ne hx ..

lemma rename_dst (done : Bool) :
    rename d src dst done dst = if done ∧ (d src).isSome then d src else d dst := by
  unfold rename
  split_ifs
  · exact Function.update_self ..
  · rfl

/-- **Replacing a file by way of another one.** -/
theorem rename_write_dst (h : src ≠ dst) (w : Write) (done : Bool) :
    rename (write d src text false w) src dst done dst =
      if done ∧ (left d src text w).isSome then left d src text w else d dst := by
  rw [rename_dst, write_self, write_of_ne d src text h.symm]

end Libchef.Disk
