import Libchef.Base.Decimal
import Libchef.StringsModel

/-!
Containers as text, as `chef_stringify_stl.hpp` has them.

A container is the list of its elements, in the order of its iterators. Which overload of
`stringify_stl_one_` the compiler takes for the elements is known from their type.
-/

namespace Libchef.StringifyModel

open Libchef.Decimal Libchef.StringsModel

/-- `stringify_stl_one_style`. -/
structure OneStyle where
  delimiterWholePrefix_ : Str := lit ['[']
  delimiterItemPrefix_ : Str := []
  delimiterItemSuffix_ : Str := []
  delimiterItemSep_ : Str := lit [',']
  delimiterWholeSuffix_ : Str := lit [']']

/-- `stringify_stl_two_style`. -/
structure TwoStyle where
  delimiterWholePrefix_ : Str := lit ['\x7b']
  delimiterKeyPrefix_ : Str := []
  delimiterKeySuffix_ : Str := []
  delimiterKvSep_ : Str := lit [':']
  delimiterValuePrefix_ : Str := []
  delimiterValueSuffix_ : Str := []
  delimiterItemSep_ : Str := lit [',']
  delimiterWholeSuffix_ : Str := lit ['\x7d']

def STYLE_ONE_DEFAULT : OneStyle := ⟨lit ['['], [], [], lit [','], lit [']']⟩

def STYLE_ONE_BEAUTY : OneStyle :=
  ⟨lit ['[', '\n'], lit [' ', ' ', '\x22'], lit ['\x22'], lit [',', '\n'], lit ['\n', ']']⟩

def STYLE_TWO_DEFAULT : TwoStyle :=
  ⟨lit ['\x7b'], [], [], lit [':'], [], [], lit [','], lit ['\x7d']⟩

def STYLE_TWO_BEAUTY : TwoStyle :=
  ⟨lit ['\x7b', '\n'], lit [' ', ' ', '\x22'], lit ['\x22'], lit [':', ' '], [], [],
    lit [',', '\n'], lit ['\n', '\x7d']⟩

/-! ### The loops -/

section Template

variable {α β σ : Type} (one : α → Str)

/-- An item between its marks. -/
def item (style : OneStyle) (x : α) : Str :=
  style.delimiterItemPrefix_ ++ one x ++ style.delimiterItemSuffix_

/-- The loop of the template `stringify_stl_one_`. -/
def oneLoop (style : OneStyle) : α → List α → Str
  | x, [] => item one style x
  | x, y :: val => item one style x ++ style.delimiterItemSep_ ++ oneLoop style y val

/-- The template `stringify_stl_one_`. -/
def stringifyOne (style : OneStyle) : List α → Str
  | [] => []
  | x :: val =>
    style.delimiterWholePrefix_ ++ oneLoop one style x val ++ style.delimiterWholeSuffix_

/-- A key and its value between their marks. -/
def entry (value : β → Str) (style : TwoStyle) (kv : α × β) : Str :=
  style.delimiterKeyPrefix_ ++ one kv.1 ++ style.delimiterKeySuffix_ ++ style.delimiterKvSep_ ++
    style.delimiterValuePrefix_ ++ value kv.2 ++ style.delimiterValueSuffix_

/-- The loop of `stringify_stl_two_`. -/
def twoLoop (value : β → Str) (style : TwoStyle) : α × β → List (α × β) → Str
  | x, [] => entry one value style x
  | x, y :: val => entry one value style x ++ style.delimiterItemSep_ ++ twoLoop value style y val

/-- `stringify_stl_two_`. -/
def stringifyTwo (value : β → Str) (style : TwoStyle) : List (α × β) → Str
  | [] => []
  | x :: val =>
    style.delimiterWholePrefix_ ++ twoLoop one value style x val ++ style.delimiterWholeSuffix_

/-- A container without iterators: what is in front, and what `pop` leaves. -/
structure Adaptor (σ α : Type) where
  take : σ → Option (α × σ)
  size : σ → ℕ
  size_lt : ∀ {s t : σ} {x : α}, take s = some (x, t) → size t < size s

/-- The loop of `CHEF_STRINGIFY_STL_NONITERATIVE`. -/
def noniterativeLoop (A : Adaptor σ α) (style : OneStyle) (x : α) (val : σ) : Str :=
  match _h : A.take val with
  | none => item one style x
  | some (y, rest) =>
    item one style x ++ style.delimiterItemSep_ ++ noniterativeLoop A style y rest
termination_by A.size val
decreasing_by exact A.size_lt _h

/-- `CHEF_STRINGIFY_STL_NONITERATIVE`. -/
def stringifyNoniterative (A : Adaptor σ α) (style : OneStyle) (val : σ) : Str :=
  match A.take val with
  | none => []
  | some (x, rest) =>
    style.delimiterWholePrefix_ ++ noniterativeLoop one A style x rest ++
      style.delimiterWholeSuffix_

end Template

/-! ### What is pushed and popped -/

section Adaptors

variable {α : Type}

/-- `std::stack`, with the top at the end. -/
def stack : Adaptor (List α) α where
  take s := s.getLast?.map fun x => (x, s.dropLast)
  size := List.length
  size_lt := by
    intro s t x h
    obtain ⟨y, hy, heq⟩ := Option.map_eq_some_iff.mp h
    obtain ⟨rfl, rfl⟩ := Prod.mk.inj heq
    have hne : s ≠ [] := by
      rintro rfl
      cases hy
    rw [List.length_dropLast]
    exact Nat.sub_lt (List.length_pos_of_ne_nil hne) Nat.one_pos

def queue : Adaptor (List α) α where
  take s := s.head?.map fun x => (x, s.tail)
  size := List.length
  size_lt := by
    intro s t x h
    obtain ⟨y, hy, heq⟩ := Option.map_eq_some_iff.mp h
    obtain ⟨rfl, rfl⟩ := Prod.mk.inj heq
    obtain ⟨l, rfl⟩ := List.head?_eq_some_iff.mp hy
    exact Nat.lt_succ_self _

/-- `std::priority_queue`: what is in front is one of the greatest. -/
def priorityQueue [LinearOrder α] : Adaptor (List α) α where
  take s := s.max?.map fun x => (x, s.erase x)
  size := List.length
  size_lt := by
    intro s t x h
    obtain ⟨y, hy, heq⟩ := Option.map_eq_some_iff.mp h
    obtain ⟨rfl, rfl⟩ := Prod.mk.inj heq
    have hmem : y ∈ s := List.max?_mem hy
    rw [List.length_erase_of_mem hmem]
    exact Nat.sub_lt (List.length_pos_of_mem hmem) Nat.one_pos

end Adaptors

/-! ### The overloads -/

/-- The widths of the integers. -/
inductive Width
  | w8 | w16 | w32 | w64

def Width.bits : Width → ℕ
  | w8 => 8
  | w16 => 16
  | w32 => 32
  | w64 => 64

/-- The types of elements, without the floating point types. -/
inductive Elem
  | uint (w : Width)
  | int (w : Width)
  | string
  | container (elem : Elem)

/-- Their values. -/
def Elem.Val : Elem → Type
  | uint w => Fin (2 ^ w.bits)
  | int w => {i : ℤ // -2 ^ (w.bits - 1) ≤ i ∧ i < 2 ^ (w.bits - 1)}
  | string => Str
  | container elem => List elem.Val

/-- `stringify_stl_one_` for these: `std::to_string` for integers, and the template with the default
style for containers. -/
def stringifyStlOne : (elem : Elem) → elem.Val → Str
  | .uint _, val => print val.val
  | .int _, val => printInt val.val
  | .string, s => s
  | .container elem, val => stringifyOne (stringifyStlOne elem) STYLE_ONE_DEFAULT val

/-- `stringify_stl` for one of the sequences and sets. -/
def stringifyStl (elem : Elem) (style : OneStyle) (val : List elem.Val) : Str :=
  stringifyOne (stringifyStlOne elem) style val

/-- `stringify_stl` for one of the maps. -/
def stringifyStlMap (key value : Elem) (style : TwoStyle) (val : List (key.Val × value.Val)) :
    Str :=
  stringifyTwo (stringifyStlOne key) (stringifyStlOne value) style val

end Libchef.StringifyModel
