import Libchef.SkipAssign
import Libchef.Base.Runs
import Libchef.Base.Slots
import Mathlib.Data.List.Induction
import Mathlib.Logic.Equiv.Basic

/-!
The tail of a skip list, and the iteration that starts there.

The insertion and the erasure of a node keep the tail at the last node. `swap` leaves each
list the tail it had, and `clear` leaves the tail at a node it deletes. A run keeps the
reverse iterations right as long as it does none of that where it shows.
-/

namespace Libchef.SkipReverse

open Libchef.SkipModel Libchef.SkipWholeModel Libchef.SkipRep Libchef.SkipInsert
open Libchef.SkipLoose Libchef.SkipAssign Libchef.Chain Libchef.Ordered Libchef.Runs
open Libchef.Slots

variable {K V : Type}

/-! ### The two iterations -/

/-- The reverse iteration mirrors the forward one: the tail is the last node that the forward
iteration visits, null if there is none, and from there the nodes come in reverse order. -/
def Mirrors (H : Heap K V) (s : Skiplist) : Prop :=
  ∃ first l, begin_ H s = some first ∧ Visits (incr H) first l ∧ s.tail_ = l.getLast? ∧
    Visits (rincr H) (rbegin s) l.reverse

lemma visits_unique {incr : Option Ptr → Option (Option Ptr)} {iter : Option Ptr}
    {l l' : List Ptr} (h : Visits incr iter l) (h' : Visits incr iter l') : l = l' := by
  induction l generalizing iter l' with
  | nil =>
    cases l' with
    | nil => rfl
    | cons p l' => exact absurd (h.symm.trans h'.1) (by simp)
  | cons p l ih =>
    obtain ⟨h₁, i₁, e₁, h⟩ := h
    cases l' with
    | nil => exact absurd (h'.symm.trans h₁) (by simp)
    | cons q l' =>
      obtain ⟨h₂, i₂, e₂, h'⟩ := h'
      obtain rfl : p = q := Option.some.inj (h₁.symm.trans h₂)
      obtain rfl : i₁ = i₂ := Option.some.inj (e₁.symm.trans e₂)
      rw [ih h h']

section Iterations

variable {H : Heap K V} {s : Skiplist} {es A B : List (Entry K V)} {e : Entry K V}
  {L : ℕ → List Ptr}

lemma visits_forward (h : Loose H s (A ++ B) L) :
    Visits (incr H) ((B.head?).map Entry.ptr) (B.map Entry.ptr) := by
  induction B generalizing A with
  | nil => rfl
  | cons e B ih =>
    refine ⟨rfl, _, h.incr_eq, ih (A := A ++ [e]) ?_⟩
    rwa [List.append_assoc]

lemma rincr_eq (h : Loose H s (A ++ e :: B) L) :
    rincr H (some e.ptr) = some ((A.getLast?).map Entry.ptr) := by
  have hl : HasLevel H e.ptr 0 := h.hasLevel (by simp) (h.pos e (by simp))
  have hlink := h.linked_zero
  rw [List.map_append, List.map_cons] at hlink
  have hprev := hlink.prev_mem
  rcases List.eq_nil_or_concat A with rfl | ⟨A', a, rfl⟩
  · have hh : HasLevel H s.head_ 0 := h.hasLevel_head (by decide)
    simp [rincr, level_eq hl, hprev, level_eq hh, h.headPrev]
  · have ha : HasLevel H a.ptr 0 := h.hasLevel (by simp) (h.pos a (by simp))
    rw [List.concat_eq_append, List.map_append, List.append_assoc] at hlink
    have hprev' := hlink.prev_mem
    simp [rincr, level_eq hl, hprev, level_eq ha, hprev']

lemma visits_backward (h : Loose H s (A ++ B) L) :
    Visits (rincr H) ((A.getLast?).map Entry.ptr) (A.map Entry.ptr).reverse := by
  induction A using List.reverseRecOn generalizing B with
  | nil => rfl
  | append_singleton A a ih =>
    rw [List.append_assoc, List.singleton_append] at h
    rw [List.getLast?_concat, List.map_append, List.reverse_append]
    exact ⟨rfl, _, rincr_eq h, ih h⟩

/-- **The tail decides.** -/
theorem mirrors_iff (h : Loose H s es L) : Mirrors H s ↔ Tail s es := by
  have hforward : Visits (incr H) ((es.head?).map Entry.ptr) (es.map Entry.ptr) :=
    visits_forward (A := []) h
  have hlast : (es.map Entry.ptr).getLast? = (es.getLast?).map Entry.ptr := List.getLast?_map
  constructor
  · rintro ⟨first, l, hb, hv, ht, -⟩
    rw [h.begin_eq] at hb
    cases hb
    rw [Tail, ht, visits_unique hv hforward, hlast]
  · intro ht
    refine ⟨_, es.map Entry.ptr, h.begin_eq, hforward, ht.trans hlast.symm, ?_⟩
    rw [rbegin, show s.tail_ = _ from ht]
    exact visits_backward (B := []) (by rwa [List.append_nil])

end Iterations

/-! ### Several lists -/

variable [LinearOrder K] (C : KeyCompare K)

/-- The lists of the store with their entries, no two of them sharing a node. -/
structure Inv (t : Store K V) (es : ℕ → List (Entry K V)) : Prop where
  unused : ∀ p, t.heap.brk ≤ p → t.heap.node p = none
  good : ∀ l s, t.lists[l]? = some s → Good t.heap s (es l)
  apart : ∀ l x s s', l ≠ x → t.lists[l]? = some s → t.lists[x]? = some s' →
    ∀ p ∈ foot s' (es x), p ∉ foot s (es l)

/-- Every tail is at the last node of its list. -/
def Tails (t : Store K V) (es : ℕ → List (Entry K V)) : Prop :=
  ∀ l s, t.lists[l]? = some s → Tail s (es l)

/-- Every list of the store can be walked backwards. -/
def AllMirror (t : Store K V) : Prop := ∀ s ∈ t.lists, Mirrors t.heap s

section Stores

variable {t : Store K V} {es : ℕ → List (Entry K V)} {l x : ℕ} {s s' : Skiplist}
  {H : Heap K V} {e : List (Entry K V)}

lemma allMirror_iff (h : Inv t es) : AllMirror t ↔ Tails t es := by
  constructor
  · intro hm l s hl
    obtain ⟨L, hloose⟩ := (h.good l s hl).loose
    exact (mirrors_iff hloose).mp (hm s (List.mem_of_getElem? hl))
  · intro ht s hs
    obtain ⟨l, hl⟩ := List.mem_iff_getElem?.mp hs
    obtain ⟨L, hloose⟩ := (h.good l s hl).loose
    exact (mirrors_iff hloose).mpr (ht l s hl)

/-- One list is put in the place `l`, the others stay. -/
lemma Inv.put (h : Inv t es) {ss : List Skiplist}
    (hss : ∀ j s₁, ss[j]? = some s₁ → j = l ∧ s₁ = s' ∨ j ≠ l ∧ t.lists[j]? = some s₁)
    (hgood : Good H s' e)
    (hother : ∀ x s₁, x ≠ l → t.lists[x]? = some s₁ →
      Good H s₁ (es x) ∧ ∀ p ∈ foot s₁ (es x), p ∉ foot s' e) :
    Inv ⟨H, ss⟩ (Function.update es l e) := by
  refine ⟨?_, fun j s₁ hj => ?_, fun i j s₁ s₂ hij hi hj p hp => ?_⟩
  · obtain ⟨L, hloose⟩ := hgood.loose
    exact hloose.unused
  · rcases hss j s₁ hj with ⟨rfl, rfl⟩ | ⟨hne, hj⟩
    · rw [Function.update_self]
      exact hgood
    · rw [Function.update_of_ne hne]
      exact (hother j s₁ hne hj).1
  · rcases hss i s₁ hi with ⟨rfl, rfl⟩ | ⟨hi', hi₁⟩ <;>
      rcases hss j s₂ hj with ⟨rfl, rfl⟩ | ⟨hj', hj₁⟩
    · exact absurd rfl hij
    · rw [Function.update_of_ne hj'] at hp
      rw [Function.update_self]
      exact (hother j s₂ hj' hj₁).2 p hp
    · rw [Function.update_self] at hp
      rw [Function.update_of_ne hi']
      exact fun hp' => (hother i s₁ hi' hi₁).2 p hp' hp
    · rw [Function.update_of_ne hj'] at hp
      rw [Function.update_of_ne hi']
      exact h.apart i j s₁ s₂ hij hi₁ hj₁ p hp

omit [LinearOrder K] in
lemma Tails.put (ht : Tails t es) {ss : List Skiplist}
    (hss : ∀ j s₁, ss[j]? = some s₁ → j = l ∧ s₁ = s' ∨ j ≠ l ∧ t.lists[j]? = some s₁)
    (hs : Tail s' e) : Tails ⟨H, ss⟩ (Function.update es l e) := by
  intro j s₁ hj
  rcases hss j s₁ hj with ⟨rfl, rfl⟩ | ⟨hne, hj⟩
  · rwa [Function.update_self]
  · rw [Function.update_of_ne hne]
    exact ht j s₁ hj

lemma Inv.set (h : Inv t es) (hl : t.lists[l]? = some s) (hm : Moves t.heap s (es l) H s' e) :
    Inv ⟨H, t.lists.set l s'⟩ (Function.update es l e) := by
  refine h.put (fun j s₁ => getElem?_set_some) hm.good fun x s₁ hne hx => ?_
  obtain ⟨L, hloose⟩ := (h.good x s₁ hx).loose
  obtain ⟨hloose', hd⟩ := hm.other hloose (h.apart l x s s₁ hne.symm hl hx)
  exact ⟨⟨⟨L, hloose'⟩, (h.good x s₁ hx).asc⟩, hd⟩

omit [LinearOrder K] in
/-- The tails are then right just when the tail of that list is. -/
lemma tails_set (ht : Tails t es) (hl : t.lists[l]? = some s) :
    Tails ⟨H, t.lists.set l s'⟩ (Function.update es l e) ↔ Tail s' e := by
  have hlt : l < t.lists.length := (List.getElem?_eq_some_iff.mp hl).1
  refine ⟨fun h => ?_, fun h => ht.put (fun j s₁ => getElem?_set_some) h⟩
  have := h l s' (by simp [hlt])
  rwa [Function.update_self] at this

lemma Inv.construct [Inhabited K] [Inhabited V] (h : Inv t es) (ht : Tails t es) :
    Inv ⟨(make t.heap).1, t.lists ++ [(make t.heap).2]⟩ (Function.update es t.lists.length []) ∧
      Tails ⟨(make t.heap).1, t.lists ++ [(make t.heap).2]⟩
        (Function.update es t.lists.length []) := by
  obtain ⟨hnew, hframe⟩ := make_loose h.unused
  refine ⟨h.put (fun j s₁ => getElem?_snoc_some) ⟨⟨_, hnew⟩, asc_nil⟩ fun x s₁ _ hx => ?_,
    ht.put (fun j s₁ => getElem?_snoc_some) rfl⟩
  obtain ⟨L, hloose⟩ := (h.good x s₁ hx).loose
  refine ⟨⟨⟨L, hloose.frame hframe hnew.unused (by simp)⟩, (h.good x s₁ hx).asc⟩, ?_⟩
  intro p hp hp'
  have hbrk : p = t.heap.brk := List.mem_singleton.mp hp'
  exact absurd (hloose.foot_lt hp) (hbrk ▸ Nat.lt_irrefl _)

/-! ### Swapping -/

omit [LinearOrder K] in
lemma swap_lists (hl : t.lists[l]? = some s) (hx : t.lists[x]? = some s') {j : ℕ} {s₁ : Skiplist}
    (hj : ((t.lists.set l (swap s s').1).set x (swap s s').2)[j]? = some s₁) :
    ∃ s₀ tail, t.lists[Equiv.swap l x j]? = some s₀ ∧ s₁ = { s₀ with tail_ := tail } := by
  rcases getElem?_set_some hj with ⟨rfl, rfl⟩ | ⟨hjx, hj⟩
  · exact ⟨s, s'.tail_, by rwa [Equiv.swap_apply_right], rfl⟩
  · rcases getElem?_set_some hj with ⟨rfl, rfl⟩ | ⟨hjl, hj⟩
    · exact ⟨s', s.tail_, by rwa [Equiv.swap_apply_left], rfl⟩
    · exact ⟨s₁, s₁.tail_, by rwa [Equiv.swap_apply_of_ne_of_ne hjl hjx], rfl⟩

lemma Inv.swap (h : Inv t es) (hl : t.lists[l]? = some s) (hx : t.lists[x]? = some s') :
    Inv ⟨t.heap, (t.lists.set l (swap s s').1).set x (swap s s').2⟩ (es ∘ Equiv.swap l x) := by
  refine ⟨h.unused, fun j s₁ hj => ?_, fun i j s₁ s₂ hij hi hj => ?_⟩
  · obtain ⟨s₀, tail, hj₀, rfl⟩ := swap_lists hl hx hj
    obtain ⟨L, hloose⟩ := (h.good _ _ hj₀).loose
    exact ⟨⟨L, hloose.withTail tail⟩, (h.good _ _ hj₀).asc⟩
  · obtain ⟨s₀, tail, hi₀, rfl⟩ := swap_lists hl hx hi
    obtain ⟨s₀', tail', hj₀, rfl⟩ := swap_lists hl hx hj
    exact h.apart _ _ s₀ s₀' ((Equiv.swap l x).injective.ne hij) hi₀ hj₀

omit [LinearOrder K] in
/-- Two lists without a node in common have the same last node only if both are empty. -/
lemma last_apart {A B : List (Entry K V)} (hd : ∀ p ∈ foot s' B, p ∉ foot s A)
    (he : (A.getLast?).map Entry.ptr = (B.getLast?).map Entry.ptr) : A = [] ∧ B = [] := by
  rcases List.eq_nil_or_concat A with rfl | ⟨A', a, rfl⟩ <;>
    rcases List.eq_nil_or_concat B with rfl | ⟨B', b, rfl⟩
  · exact ⟨rfl, rfl⟩
  · simp at he
  · simp at he
  · have hp : a.ptr = b.ptr := by simpa using he
    exact absurd (by simp [foot, hp]) (hd b.ptr (by simp [foot]))

/-! ### Steps -/

/-- The lists an action names are there, and the positions it names are positions of its list.
Only distinct lists are assigned. -/
def Valid (t : Store K V) : Act K V → Prop
  | .construct => True
  | .op l op _ => ∃ s ∈ t.lists[l]?, OpValid s op
  | .clear l => l < t.lists.length
  | .swap l x => l < t.lists.length ∧ x < t.lists.length
  | .assign l x _ => l < t.lists.length ∧ x < t.lists.length ∧ l ≠ x

/-- No list loses elements by `clear` or to an empty list assigned, and lists are swapped only
where both are empty. -/
def Keeps (t : Store K V) : Act K V → Prop
  | .clear l => ∀ s ∈ t.lists[l]?, size s = 0
  | .swap l x => l = x ∨ ∀ s ∈ t.lists[l]?, ∀ s' ∈ t.lists[x]?, size s = 0 ∧ size s' = 0
  | .assign l x _ => ∀ s ∈ t.lists[l]?, ∀ s' ∈ t.lists[x]?, size s' = 0 → size s = 0
  | _ => True

lemma tails_swap (h : Inv t es) (ht : Tails t es) (hl : t.lists[l]? = some s)
    (hx : t.lists[x]? = some s') :
    Tails ⟨t.heap, (t.lists.set l (swap s s').1).set x (swap s s').2⟩ (es ∘ Equiv.swap l x) ↔
      l = x ∨ size s = 0 ∧ size s' = 0 := by
  have hltx : x < t.lists.length := (List.getElem?_eq_some_iff.mp hx).1
  have hltl : l < t.lists.length := (List.getElem?_eq_some_iff.mp hl).1
  by_cases hlx : l = x
  · subst hlx
    obtain rfl : s = s' := Option.some.inj (hl.symm.trans hx)
    refine iff_of_true (fun j s₁ hj => ?_) (Or.inl rfl)
    rw [Function.comp_apply, Equiv.swap_self, Equiv.refl_apply]
    rcases getElem?_set_some hj with ⟨rfl, rfl⟩ | ⟨hne, hj⟩
    · exact ht j s hl
    · rcases getElem?_set_some hj with ⟨rfl, rfl⟩ | ⟨-, hj⟩
      · exact ht j s hl
      · exact ht j s₁ hj
  · rw [or_iff_right hlx, (h.good l s hl).size_eq_zero, (h.good x s' hx).size_eq_zero]
    constructor
    · intro ht'
      -- the list at `l` now has the nodes of the other and the tail it had
      have hnew := ht' l (swap s s').1 (by simp [Ne.symm hlx, hltl])
      rw [Function.comp_apply, Equiv.swap_apply_left] at hnew
      have hold := ht l s hl
      exact last_apart (h.apart l x s s' hlx hl hx) (hold.symm.trans hnew)
    · rintro ⟨hes, hes'⟩ j s₁ hj
      have htl := ht l s hl
      have htx := ht x s' hx
      rw [hes] at htl
      rw [hes'] at htx
      rcases getElem?_set_some hj with ⟨rfl, rfl⟩ | ⟨hjx, hj⟩
      · rw [Function.comp_apply, Equiv.swap_apply_right, hes]
        exact htx
      · rcases getElem?_set_some hj with ⟨rfl, rfl⟩ | ⟨hjl, hj⟩
        · rw [Function.comp_apply, Equiv.swap_apply_left, hes']
          exact htl
        · rw [Function.comp_apply, Equiv.swap_apply_of_ne_of_ne hjl hjx]
          exact ht j s₁ hj

/-- **One step.** It can be taken, and the tails are right after it just when it keeps them. -/
theorem step_spec [Inhabited K] [Inhabited V] (h : Inv t es) (ht : Tails t es) (a : Act K V)
    (hv : Valid t a) :
    ∃ t' es', step C t a = some t' ∧ Inv t' es' ∧ (Keeps t a ↔ Tails t' es') := by
  cases a with
  | construct =>
    obtain ⟨hi, ht'⟩ := h.construct ht
    exact ⟨_, _, rfl, hi, iff_of_true trivial ht'⟩
  | op l op gen =>
    obtain ⟨s, hl, hop⟩ := hv
    obtain ⟨H', s', e', he, hm, htail⟩ := exec_done C (h.good l s hl) (ht l s hl) op gen hop
    exact ⟨_, _, by simp [step, Option.mem_def.mp hl, he], h.set hl hm,
      iff_of_true trivial ((tails_set ht hl).mpr htail)⟩
  | clear l =>
    obtain ⟨s, hl⟩ : ∃ s, t.lists[l]? = some s := ⟨_, List.getElem?_eq_getElem hv⟩
    have hg := h.good l s hl
    obtain ⟨H', he, hm⟩ := clear_moves hg
    refine ⟨_, _, by simp [step, hl, he], h.set hl hm, ?_⟩
    have hk : Keeps t (.clear l) ↔ size s = 0 := by simp [Keeps, hl]
    rw [hk, hg.size_eq_zero, tails_set ht hl]
    have htail : s.tail_ = _ := ht l s hl
    simp [Tail, cleared, htail]
  | swap l x =>
    obtain ⟨s, hl⟩ : ∃ s, t.lists[l]? = some s := ⟨_, List.getElem?_eq_getElem hv.1⟩
    obtain ⟨s', hx⟩ : ∃ s, t.lists[x]? = some s := ⟨_, List.getElem?_eq_getElem hv.2⟩
    refine ⟨_, _, by simp [step, hl, hx], h.swap hl hx, ?_⟩
    rw [tails_swap h ht hl hx]
    simp [Keeps, hl, hx]
  | assign l x gens =>
    obtain ⟨s, hl⟩ : ∃ s, t.lists[l]? = some s := ⟨_, List.getElem?_eq_getElem hv.1⟩
    obtain ⟨s', hx⟩ : ∃ s, t.lists[x]? = some s := ⟨_, List.getElem?_eq_getElem hv.2.1⟩
    have hg := h.good l s hl
    have hg' := h.good x s' hx
    obtain ⟨H', s₁, e₁, he, hm, hkv, hnil, hcons⟩ :=
      assign_moves C hg hg' (h.apart l x s s' hv.2.2 hl hx) gens
    refine ⟨_, _, by simp [step, hl, hx, he], h.set hl hm, ?_⟩
    have hk : Keeps t (.assign l x gens) ↔ (size s' = 0 → size s = 0) := by simp [Keeps, hl, hx]
    rw [hk, hg.size_eq_zero, hg'.size_eq_zero, tails_set ht hl]
    by_cases hex : es x = []
    · have htail : s.tail_ = _ := ht l s hl
      have he₁ : e₁ = [] := by
        rw [hex] at hkv
        exact List.map_eq_nil_iff.mp hkv
      simp [hex, he₁, Tail, hnil hex, htail]
    · exact iff_of_true (fun h0 => absurd h0 hex) (hcons hex)

end Stores

/-! ### Runs -/

instance (s : Skiplist) : DecidablePred (OpValid (K := K) (V := V) s)
  | .insert _ | .index _ | .eraseKey _ => .isTrue trivial
  | .eraseAt position => inferInstanceAs (Decidable (position < size s))
  | .eraseRange first last => inferInstanceAs (Decidable (first ≤ last ∧ last ≤ size s))

instance (t : Store K V) : DecidablePred (Valid t)
  | .construct => .isTrue trivial
  | .op l op _ => inferInstanceAs (Decidable (∃ s ∈ t.lists[l]?, OpValid s op))
  | .clear l => inferInstanceAs (Decidable (l < t.lists.length))
  | .swap l x => inferInstanceAs (Decidable (l < t.lists.length ∧ x < t.lists.length))
  | .assign l x _ =>
    inferInstanceAs (Decidable (l < t.lists.length ∧ x < t.lists.length ∧ l ≠ x))

lemma empty_inv : Inv (Store.empty : Store K V) (fun _ => []) ∧
    Tails (Store.empty : Store K V) (fun _ => []) :=
  ⟨⟨fun _ _ => rfl, fun l s h => by simp [Store.empty] at h,
    fun l x s s' _ h => by simp [Store.empty] at h⟩, fun l s h => by simp [Store.empty] at h⟩

/-- **When the reverse iteration mirrors the forward one.** A run in which no list with elements
is cleared or assigned an empty list, and no two lists are swapped unless both are empty, comes
to its end. In every state of a run, every list can be walked backwards if and only if the run
is one of these. -/
theorem mirrored_iff_keeps [Inhabited K] [Inhabited V] {acts : List (Act K V)}
    (hv : Along (step C) Valid Store.empty acts) :
    (Along (step C) Keeps Store.empty acts → ∃ t, Runs.exec (step C) Store.empty acts = some t) ∧
      (Along (step C) Keeps Store.empty acts ↔ Always (step C) AllMirror Store.empty acts) := by
  have hstart : ∃ es, Inv (Store.empty : Store K V) es ∧ Tails Store.empty es := ⟨_, empty_inv⟩
  constructor
  · intro hk
    obtain ⟨t, he, -⟩ := exec_of_along (I := fun t => ∃ es, Inv t es ∧ Tails t es)
      (fun t a ⟨es, h, ht⟩ ha hka => by
        obtain ⟨t', es', he, hi, hkeeps⟩ := step_spec C h ht a ha
        exact ⟨t', he, es', hi, hkeeps.mp hka⟩) hstart hv hk
    exact ⟨t, he⟩
  · refine along_iff_always (I := fun t => ∃ es, Inv t es ∧ Tails t es)
      (fun t ⟨es, h, ht⟩ => (allMirror_iff h).mpr ht) (fun t a ⟨es, h, ht⟩ ha => ?_) hstart hv
    obtain ⟨t', es', he, hi, hkeeps⟩ := step_spec C h ht a ha
    exact ⟨t', he, hkeeps.trans (allMirror_iff hi).symm, fun hka => ⟨es', hi, hkeeps.mp hka⟩⟩

/-- A run over two lists: elements go in and out, and the list is assigned to another. -/
theorem mirrored_iff_keeps_assign :
    let acts : List (Act ℕ ℕ) := [.construct, .construct, .op 0 (.insert (2, 20)) fun _ => 1,
      .op 0 (.index 1) fun _ => 1, .op 0 (.eraseKey 2) fun _ => 1, .assign 1 0 fun _ _ => 1]
    (Along (step (defaultComparator ℕ)) Keeps Store.empty acts →
        ∃ t, Runs.exec (step (defaultComparator ℕ)) Store.empty acts = some t) ∧
      (Along (step (defaultComparator ℕ)) Keeps Store.empty acts ↔
        Always (step (defaultComparator ℕ)) AllMirror Store.empty acts) :=
  mirrored_iff_keeps (defaultComparator ℕ) (by decide)

/-- An element is inserted and the list is cleared: the list is empty, and its tail is the node
that was deleted. -/
theorem not_mirrored :
    let acts : List (Act ℕ ℕ) := [.construct, .op 0 (.insert (1, 10)) fun _ => 1, .clear 0]
    Along (step (defaultComparator ℕ)) Valid Store.empty acts ∧
      ∃ t, Runs.exec (step (defaultComparator ℕ)) Store.empty acts = some t ∧ ¬ AllMirror t := by
  refine ⟨by decide, _, rfl, ?_⟩
  intro h
  obtain ⟨first, l, hb, hv, ht, -⟩ := h _ (List.mem_singleton.mpr rfl)
  cases hb
  cases l with
  | nil => cases ht
  | cons p l => cases hv.1

/-- Swapped with an empty list, a list takes its element along and leaves its tail. -/
example : (Runs.exec (step (defaultComparator ℕ)) Store.empty [.construct, .construct,
    .op 0 (.insert (1, 10)) fun _ => 1, .swap 0 1]).map
      (fun t : Store ℕ ℕ => t.lists.map fun s => (size s, s.tail_)) =
    some [(0, some 2), (1, none)] := rfl

end Libchef.SkipReverse
