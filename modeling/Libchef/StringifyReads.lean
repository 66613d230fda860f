import Libchef.Base.Legible
import Libchef.StringifyModel
import Mathlib.Order.Fin.Basic

/-!
What the text of a container tells: for a style whose marks differ, and elements without these
marks, all of it.
-/

namespace Libchef.StringifyReads

open Libchef.Decimal Libchef.Legible Libchef.StringsModel Libchef.StringifyModel

/-! ### Styles -/

section Styles

variable {α β : Type} {one : α → Str} {value : β → Str}

/-- What can follow an element. -/
def oneEnds (style : OneStyle) : Set UInt8 :=
  {c | (style.delimiterItemSuffix_ ++ style.delimiterItemSep_).head? = some c ∨
    (style.delimiterItemSuffix_ ++ style.delimiterWholeSuffix_).head? = some c}

/-- What can follow a key. -/
def keyEnds (style : TwoStyle) : Set UInt8 :=
  {c | (style.delimiterKeySuffix_ ++ style.delimiterKvSep_).head? = some c}

/-- What can follow a value. -/
def valueEnds (style : TwoStyle) : Set UInt8 :=
  {c | (style.delimiterValueSuffix_ ++ style.delimiterItemSep_).head? = some c ∨
    (style.delimiterValueSuffix_ ++ style.delimiterWholeSuffix_).head? = some c}

/-- What is no part of a number nor a left bracket. -/
def Mark (c : UInt8) : Prop := isDigit c = false ∧ c ≠ byte '-' ∧ c ≠ chr '['

instance : DecidablePred Mark := fun _ => inferInstanceAs (Decidable (_ ∧ _ ∧ _))

/-- Separators that are told from what closes. -/
structure Separates (left sep right : Str) : Prop where
  left_ne : left ≠ []
  sep_ne : sep ≠ []
  right_ne : right ≠ []
  differ : sep.head? ≠ right.head?

/-- The marks of the style can be told from each other and from elements. -/
structure OneClear (style : OneStyle) : Prop extends Separates style.delimiterWholePrefix_
    style.delimiterItemSep_ style.delimiterWholeSuffix_ where
  mark : ∀ c ∈ oneEnds style, Mark c

structure TwoClear (style : TwoStyle) : Prop extends Separates style.delimiterWholePrefix_
    style.delimiterItemSep_ style.delimiterWholeSuffix_ where
  kvSep_ne : style.delimiterKvSep_ ≠ []
  keyMark : ∀ c ∈ keyEnds style, Mark c
  valueMark : ∀ c ∈ valueEnds style, Mark c

lemma oneLoop_eq (style : OneStyle) (x : α) (val : List α) :
    oneLoop one style x val = sepBy (item one style) style.delimiterItemSep_ x val := by
  induction val generalizing x with
  | nil => rfl
  | cons y val ih => rw [oneLoop, ih, sepBy]

lemma stringifyOne_eq (style : OneStyle) (val : List α) :
    stringifyOne one style val = bracketed (item one style) style.delimiterWholePrefix_
      style.delimiterItemSep_ style.delimiterWholeSuffix_ val := by
  cases val with
  | nil => rfl
  | cons x val => rw [stringifyOne, oneLoop_eq, bracketed]

lemma twoLoop_eq (style : TwoStyle) (x : α × β) (val : List (α × β)) :
    twoLoop one value style x val =
      sepBy (entry one value style) style.delimiterItemSep_ x val := by
  induction val generalizing x with
  | nil => rfl
  | cons y val ih => rw [twoLoop, ih, sepBy]

lemma stringifyTwo_eq (style : TwoStyle) (val : List (α × β)) :
    stringifyTwo one value style val = bracketed (entry one value style)
      style.delimiterWholePrefix_ style.delimiterItemSep_ style.delimiterWholeSuffix_ val := by
  cases val with
  | nil => rfl
  | cons x val => rw [stringifyTwo, twoLoop_eq, bracketed]

/-- The first letters of a separator and of what closes. -/
def heads (sep right : Str) : Set UInt8 := {c | sep.head? = some c ∨ right.head? = some c}

lemma Separates.closes {left sep right : Str} (h : Separates left sep right) :
    Closes (heads sep right) sep right := by
  obtain ⟨c, s, rfl⟩ := List.exists_cons_of_ne_nil h.sep_ne
  obtain ⟨d, r, rfl⟩ := List.exists_cons_of_ne_nil h.right_ne
  exact ⟨⟨c, .inl rfl, rfl⟩, ⟨d, .inr rfl, rfl⟩, h.differ⟩

lemma follows_suffix (suffix : Str) {sep right u : Str} (h : Follows (heads sep right) u) :
    Follows {c | (suffix ++ sep).head? = some c ∨ (suffix ++ right).head? = some c}
      (suffix ++ u) := by
  cases suffix with
  | nil => exact h
  | cons c suffix => exact follows_cons.mpr (.inl rfl)

lemma item_readable {P : α → Prop} {style : OneStyle} (h : Readable (oneEnds style) P one) :
    Readable (heads style.delimiterItemSep_ style.delimiterWholeSuffix_) P (item one style) :=
  h.marked _ fun _ hu => follows_suffix _ hu

lemma entry_readable {P : α → Prop} {Q : β → Prop} {style : TwoStyle} (hs : TwoClear style)
    (hk : Readable (keyEnds style) P one) (hv : Readable (valueEnds style) Q value) :
    Readable (heads style.delimiterItemSep_ style.delimiterWholeSuffix_)
      (fun kv : α × β => P kv.1 ∧ Q kv.2) (entry one value style) := by
  have hne : style.delimiterKeySuffix_ ++ style.delimiterKvSep_ ≠ [] :=
    List.append_ne_nil_of_right_ne_nil _ hs.kvSep_ne
  obtain ⟨c, marks, hmarks⟩ := List.exists_cons_of_ne_nil hne
  -- whatever follows the marks after a key
  have hkey (u : Str) : Follows (keyEnds style)
      (style.delimiterKeySuffix_ ++ style.delimiterKvSep_ ++ style.delimiterValuePrefix_ ++ u) := by
    rw [hmarks]
    exact follows_cons.mpr (show _ = _ by rw [hmarks]; rfl)
  have hmarked : Readable Set.univ P fun a => style.delimiterKeyPrefix_ ++ one a ++
      (style.delimiterKeySuffix_ ++ style.delimiterKvSep_ ++ style.delimiterValuePrefix_) :=
    hk.marked style.delimiterKeyPrefix_ fun u _ => hkey u
  have hpair := hmarked.pair
    (hv.marked [] fun _ hu => follows_suffix style.delimiterValueSuffix_ hu)
    fun _ _ _ _ => fun _ _ => Set.mem_univ _
  have hentry : entry one value style = fun kv : α × β =>
      style.delimiterKeyPrefix_ ++ one kv.1 ++
        (style.delimiterKeySuffix_ ++ style.delimiterKvSep_ ++ style.delimiterValuePrefix_) ++
        ([] ++ value kv.2 ++ style.delimiterValueSuffix_) := by
    funext kv
    simp only [entry, List.append_assoc, List.nil_append]
  rw [hentry]
  exact hpair

lemma stringifyOne_readable {P : α → Prop} {style : OneStyle} (hs : OneClear style)
    (h : Readable (oneEnds style) P one) {ends : Set UInt8}
    (hends : ∀ c ∈ style.delimiterWholePrefix_.head?, c ∉ ends) :
    Readable ends (fun val : List α => ∀ x ∈ val, P x) (stringifyOne one style) := by
  obtain ⟨c, left, hleft⟩ := List.exists_cons_of_ne_nil hs.left_ne
  have hhead : style.delimiterWholePrefix_.head? = some c := by rw [hleft]; rfl
  rw [show stringifyOne one style = _ from funext (stringifyOne_eq style)]
  exact (item_readable h).brackets hs.closes ⟨c, hends c hhead, hhead⟩

lemma stringifyTwo_readable {P : α → Prop} {Q : β → Prop} {style : TwoStyle} (hs : TwoClear style)
    (hk : Readable (keyEnds style) P one) (hv : Readable (valueEnds style) Q value) :
    Readable ∅ (fun val : List (α × β) => ∀ x ∈ val, P x.1 ∧ Q x.2)
      (stringifyTwo one value style) := by
  obtain ⟨c, left, hleft⟩ := List.exists_cons_of_ne_nil hs.left_ne
  rw [show stringifyTwo one value style = _ from funext (stringifyTwo_eq style)]
  exact (entry_readable hs hk hv).brackets hs.closes ⟨c, id, by rw [hleft]; rfl⟩

end Styles

/-! ### Elements -/

/-- The strings inside a value have none of the marks that can follow them. -/
def Admits (ends : Set UInt8) : (elem : Elem) → elem.Val → Prop
  | .string, (s : Str) => ∀ c ∈ s, c ∉ ends
  | .container elem, (val : List elem.Val) => ∀ x ∈ val, Admits (oneEnds STYLE_ONE_DEFAULT) elem x
  | _, _ => True

/-- **The styles of the source** are clear. -/
theorem clear_default : OneClear STYLE_ONE_DEFAULT where
  left_ne := by decide
  sep_ne := by decide
  right_ne := by decide
  differ := by decide
  mark := by rintro c (h | h) <;> cases h <;> decide

theorem clear_beauty : OneClear STYLE_ONE_BEAUTY where
  left_ne := by decide
  sep_ne := by decide
  right_ne := by decide
  differ := by decide
  mark := by rintro c (h | h) <;> cases h <;> decide

theorem clear_two_default : TwoClear STYLE_TWO_DEFAULT where
  left_ne := by decide
  sep_ne := by decide
  right_ne := by decide
  differ := by decide
  kvSep_ne := by decide
  keyMark := by rintro c h; cases h; decide
  valueMark := by rintro c (h | h) <;> cases h <;> decide

theorem clear_two_beauty : TwoClear STYLE_TWO_BEAUTY where
  left_ne := by decide
  sep_ne := by decide
  right_ne := by decide
  differ := by decide
  kvSep_ne := by decide
  keyMark := by rintro c h; cases h; decide
  valueMark := by rintro c (h | h) <;> cases h <;> decide

/-- **The overloads**: containers in containers of any depth. -/
lemma stringifyStlOne_readable (elem : Elem) {ends : Set UInt8} (h : ∀ c ∈ ends, Mark c) :
    Readable ends (Admits ends elem) (stringifyStlOne elem) := by
  induction elem generalizing ends with
  | uint w =>
    refine readable_of_notMem (fun a b _ _ hab => Fin.ext (print_inj hab)) fun a _ c hc he => ?_
    exact ne_of_mem_print hc (h c he).1 rfl
  | int w =>
    refine readable_of_notMem (fun a b _ _ hab => Subtype.ext (printInt_inj hab))
      fun a _ c hc he => ?_
    exact notMem_printInt (h c he).1 (h c he).2.1 a.val hc
  | string => exact readable_of_notMem (fun a b _ _ hab => hab) fun a ha => ha
  | container elem ih =>
    refine stringifyOne_readable clear_default (ih clear_default.mark) fun c hc he => ?_
    cases hc
    exact (h _ he).2.2 rfl

/-- **One text, one container**: nested to any depth, in any clear style. -/
theorem stringify_stl_injOn {style : OneStyle} (hs : OneClear style) (elem : Elem) :
    Set.InjOn (stringifyStl elem style) {val | ∀ x ∈ val, Admits (oneEnds style) elem x} := by
  intro val hval val' hval' h
  have hread : Readable ∅ (fun val => ∀ x ∈ val, Admits (oneEnds style) elem x)
      (stringifyStl elem style) :=
    stringifyOne_readable hs (stringifyStlOne_readable elem hs.mark) fun _ _ => id
  exact hread.injOn hval hval' h

theorem stringify_stl_injOn_empties :
    stringifyStl (.container (.int .w32)) STYLE_ONE_BEAUTY [[], []] ≠
      stringifyStl (.container (.int .w32)) STYLE_ONE_BEAUTY [[]] := by
  intro h
  have heq := stringify_stl_injOn clear_beauty (.container (.int .w32))
    (by simp [Admits]) (by simp [Admits]) h
  cases heq

/-- A string with a mark is read as two. -/
example : stringifyStl .string STYLE_ONE_DEFAULT [lit ['a', ',', 'b']] =
    stringifyStl .string STYLE_ONE_DEFAULT [lit ['a'], lit ['b']] := rfl

/-- **One text, one map.** -/
theorem stringify_stl_map_injOn {style : TwoStyle} (hs : TwoClear style) (key value : Elem) :
    Set.InjOn (stringifyStlMap key value style) {val | ∀ kv ∈ val,
      Admits (keyEnds style) key kv.1 ∧ Admits (valueEnds style) value kv.2} := by
  intro val hval val' hval' h
  have hread := stringifyTwo_readable hs (stringifyStlOne_readable key hs.keyMark)
    (stringifyStlOne_readable value hs.valueMark)
  exact hread.injOn hval hval' h

theorem stringify_stl_map_injOn_lists :
    stringifyStlMap .string (.container (.int .w8)) STYLE_TWO_BEAUTY [(lit ['a'], [])] ≠
      stringifyStlMap .string (.container (.int .w8)) STYLE_TWO_BEAUTY [(lit ['b'], [])] := by
  intro h
  have hkey {k : Str} (hk : chr '\x22' ∉ k) : Admits (keyEnds STYLE_TWO_BEAUTY) .string k := by
    intro c hc hend
    cases hend
    exact hk hc
  have heq := stringify_stl_map_injOn clear_two_beauty .string (.container (.int .w8))
    (fun kv hkv => by
      cases List.mem_singleton.mp hkv
      exact ⟨hkey (by decide), by simp [Admits]⟩)
    (fun kv hkv => by
      cases List.mem_singleton.mp hkv
      exact ⟨hkey (by decide), by simp [Admits]⟩) h
  cases heq

/-! ### Stacks and queues -/

section Noniterative

variable {α σ : Type}

/-- What is popped, one after another. -/
def drain (A : Adaptor σ α) (s : σ) : List α :=
  match _h : A.take s with
  | none => []
  | some (x, t) => x :: drain A t
termination_by A.size s
decreasing_by exact A.size_lt _h

lemma drain_none {A : Adaptor σ α} {s : σ} (h : A.take s = none) : drain A s = [] := by
  rw [drain]
  split <;> simp_all

lemma drain_some {A : Adaptor σ α} {s t : σ} {x : α} (h : A.take s = some (x, t)) :
    drain A s = x :: drain A t := by
  rw [drain]
  split <;> simp_all

lemma noniterativeLoop_eq (one : α → Str) (A : Adaptor σ α) (style : OneStyle) (x : α) (s : σ) :
    noniterativeLoop one A style x s = oneLoop one style x (drain A s) := by
  induction s using drain.induct A generalizing x with
  | case1 s h =>
    rw [drain_none h, noniterativeLoop, oneLoop]
    split <;> simp_all
  | case2 s y t h ih =>
    rw [drain_some h, noniterativeLoop, oneLoop, ← ih]
    split <;> simp_all

lemma stringifyNoniterative_eq (one : α → Str) (A : Adaptor σ α) (style : OneStyle) (s : σ) :
    stringifyNoniterative one A style s = stringifyOne one style (drain A s) := by
  rw [stringifyNoniterative]
  rcases h : A.take s with _ | ⟨x, t⟩
  · rw [drain_none h, stringifyOne]
  · rw [drain_some h, stringifyOne, ← noniterativeLoop_eq]

lemma drain_stack (s : List α) : drain stack s = s.reverse := by
  induction s using List.reverseRecOn with
  | nil => exact drain_none rfl
  | append_singleton s x ih =>
    have htake : stack.take (s ++ [x]) = some (x, s) := by simp [stack]
    rw [drain_some htake, ih, List.reverse_append]
    rfl

lemma drain_queue (s : List α) : drain queue s = s := by
  induction s with
  | nil => exact drain_none rfl
  | cons x s ih => rw [drain_some (t := s) rfl, ih]

lemma drain_priorityQueue [LinearOrder α] (s : List α) :
    (drain priorityQueue s).Perm s ∧ (drain priorityQueue s).Pairwise (· ≥ ·) := by
  induction s using drain.induct (priorityQueue (α := α)) with
  | case1 s h =>
    have hs : s = [] := by simpa [priorityQueue] using h
    rw [drain_none h, hs]
    exact ⟨List.Perm.nil, List.Pairwise.nil⟩
  | case2 s x t h ih =>
    obtain ⟨hperm, hsort⟩ := ih
    obtain ⟨y, hy, heq⟩ := Option.map_eq_some_iff.mp h
    obtain ⟨rfl, rfl⟩ := Prod.mk.inj heq
    have hmem : y ∈ s := List.max?_mem hy
    rw [drain_some h]
    refine ⟨(hperm.cons y).trans (List.perm_cons_erase hmem).symm, ?_⟩
    refine List.pairwise_cons.mpr ⟨fun z hz => ?_, hsort⟩
    exact (List.max?_eq_some_iff.mp hy).2 z (List.mem_of_mem_erase (hperm.mem_iff.mp hz))

end Noniterative

/-- **What is pushed and popped**: the text of a stack or of a queue tells the elements in their
order, and that of a priority queue tells which elements it has, and how often. -/
theorem stringify_noniterative_iff {style : OneStyle} (hs : OneClear style) (elem : Elem)
    [LinearOrder elem.Val] {s t : List elem.Val}
    (hadm : ∀ x ∈ s ++ t, Admits (oneEnds style) elem x) :
    let text := stringifyNoniterative (σ := List elem.Val) (stringifyStlOne elem)
    (text stack style s = text stack style t ↔ s = t) ∧
      (text queue style s = text queue style t ↔ s = t) ∧
      (text priorityQueue style s = text priorityQueue style t ↔ s.Perm t) := by
  intro text
  have hl : ∀ x ∈ s, Admits (oneEnds style) elem x := fun x hx =>
    hadm x (List.mem_append_left t hx)
  have hr : ∀ x ∈ t, Admits (oneEnds style) elem x := fun x hx =>
    hadm x (List.mem_append_right s hx)
  have hiff {A : Adaptor (List elem.Val) elem.Val} (hA : ∀ s, (drain A s).Perm s) :
      text A style s = text A style t ↔ drain A s = drain A t := by
    simp only [text, stringifyNoniterative_eq]
    refine ⟨fun h => stringify_stl_injOn hs elem ?_ ?_ h, congrArg _⟩
    · exact fun x hx => hl x ((hA s).mem_iff.mp hx)
    · exact fun x hx => hr x ((hA t).mem_iff.mp hx)
  refine ⟨?_, ?_, ?_⟩
  · rw [hiff fun s => (drain_stack s) ▸ List.reverse_perm s, drain_stack, drain_stack,
      List.reverse_inj]
  · rw [hiff fun s => List.Perm.of_eq (drain_queue s), drain_queue, drain_queue]
  · rw [hiff fun s => (drain_priorityQueue s).1]
    obtain ⟨hps, hss⟩ := drain_priorityQueue s
    obtain ⟨hpt, hst⟩ := drain_priorityQueue t
    refine ⟨fun h => hps.symm.trans (h ▸ hpt), fun h => ?_⟩
    exact (hps.trans (h.trans hpt.symm)).eq_of_pairwise (fun _ _ _ _ hab hba => le_antisymm hba hab)
      hss hst

instance (w : Width) : LinearOrder (Elem.uint w).Val := inferInstanceAs (LinearOrder (Fin _))

theorem stringify_noniterative_iff_three :
    stringifyNoniterative (stringifyStlOne (.uint .w8)) priorityQueue STYLE_ONE_DEFAULT
        ([1, 3, 2] : List (Fin 256)) =
      stringifyNoniterative (stringifyStlOne (.uint .w8)) priorityQueue STYLE_ONE_DEFAULT
        ([3, 2, 1] : List (Fin 256)) :=
  (stringify_noniterative_iff clear_default (.uint .w8) (s := ([1, 3, 2] : List (Fin 256)))
    (t := ([3, 2, 1] : List (Fin 256))) fun _ _ => trivial).2.2.mpr
    (show List.Perm ([1, 3, 2] : List (Fin 256)) [3, 2, 1] by decide)

end Libchef.StringifyReads
