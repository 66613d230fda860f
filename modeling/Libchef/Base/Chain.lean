import Mathlib.Data.List.Basic
import Mathlib.Data.List.Nodup
import Mathlib.Data.List.Lemmas

/-!
Doubly linked chains.

A chain is read off two pointer fields, `nx` for the next cell and `pv` for the previous
one. It starts at a cell `a`, runs through the cells of a list and leaves to `z`, which is
`none` for a chain ended by a null pointer. The two surgeries are the ones every linked
list makes: a cell put in after another, and a cell taken out.
-/

namespace Libchef.Chain

variable {P : Type*}

/-- From `a` the fields lead through `l`, back pointers included, and then to `z`. -/
def Linked (nx pv : P → Option P) : P → List P → Option P → Prop
  | a, [], z => nx a = z
  | a, b :: l, z => nx a = some b ∧ pv b = some a ∧ Linked nx pv b l z

/-- The last cell of a chain from `a` through `l`. -/
def last : P → List P → P
  | a, [] => a
  | _, b :: l => last b l

@[simp] lemma last_nil (a : P) : last a [] = a := rfl
@[simp] lemma last_cons (a b : P) (l : List P) : last a (b :: l) = last b l := rfl

lemma last_append (a : P) (l₁ l₂ : List P) : last a (l₁ ++ l₂) = last (last a l₁) l₂ := by
  induction l₁ generalizing a with
  | nil => rfl
  | cons b l ih => simp [ih]

@[simp] lemma last_concat (a b : P) (l : List P) : last a (l ++ [b]) = b := by
  simp [last_append]

lemma last_mem (a : P) (l : List P) : last a l ∈ a :: l := by
  induction l generalizing a with
  | nil => simp
  | cons b l ih => exact List.mem_cons_of_mem _ (ih b)

lemma last_eq_getLast? (a : P) (l : List P) : last a l = l.getLast?.getD a := by
  rcases List.eq_nil_or_concat l with rfl | ⟨l, b, rfl⟩
  · rfl
  · simp

variable {nx pv nx' pv' : P → Option P}

@[simp] lemma linked_nil {a : P} {z : Option P} : Linked nx pv a [] z ↔ nx a = z := Iff.rfl
@[simp] lemma linked_cons {a b : P} {l : List P} {z : Option P} :
    Linked nx pv a (b :: l) z ↔ nx a = some b ∧ pv b = some a ∧ Linked nx pv b l z := Iff.rfl

lemma linked_append {a b : P} {l₁ l₂ : List P} {z : Option P} :
    Linked nx pv a (l₁ ++ b :: l₂) z ↔
      Linked nx pv a l₁ (some b) ∧ pv b = some (last a l₁) ∧ Linked nx pv b l₂ z := by
  induction l₁ generalizing a with
  | nil => simp
  | cons c l ih => simp [ih, and_assoc]

lemma Linked.drop {a : P} {l₁ l₂ : List P} {z : Option P} (h : Linked nx pv a (l₁ ++ l₂) z) :
    Linked nx pv (last a l₁) l₂ z := by
  induction l₁ generalizing a with
  | nil => exact h
  | cons b l ih => exact ih h.2.2

lemma Linked.next {a : P} {l m : List P} (h : Linked nx pv a (l ++ m) none) :
    nx (last a l) = m.head? := by
  have h' := h.drop
  cases m with
  | nil => exact h'
  | cons b l => exact h'.1

lemma Linked.next_mem {a n : P} {l₁ l₂ : List P} (h : Linked nx pv a (l₁ ++ n :: l₂) none) :
    nx n = l₂.head? := by
  rw [List.append_cons] at h
  simpa using h.next

lemma Linked.prev_mem {a n : P} {l₁ l₂ : List P} {z : Option P}
    (h : Linked nx pv a (l₁ ++ n :: l₂) z) : pv n = some (last a l₁) :=
  (linked_append.mp h).2.1

lemma Linked.prev_of_next {a p q : P} {l : List P} (h : Linked nx pv a l none) (hp : p ∈ a :: l)
    (hn : nx p = some q) : q ∈ l ∧ pv q = some p := by
  induction l generalizing a with
  | nil =>
    rw [List.mem_singleton.mp hp] at hn
    exact absurd (hn.symm.trans h) (by simp)
  | cons b l ih =>
    obtain ⟨h1, h2, h3⟩ := h
    rcases List.mem_cons.mp hp with rfl | hp
    · obtain rfl : b = q := Option.some.inj (h1.symm.trans hn)
      exact ⟨List.mem_cons_self, h2⟩
    · obtain ⟨hq, hpv⟩ := ih h3 hp
      exact ⟨List.mem_cons_of_mem _ hq, hpv⟩

lemma Linked.next_of_prev {a p q : P} {l : List P} {z : Option P} (h : Linked nx pv a l z)
    (hq : q ∈ l) (hp : pv q = some p) : p ∈ a :: l ∧ nx p = some q := by
  induction l generalizing a with
  | nil => simp at hq
  | cons b l ih =>
    obtain ⟨h1, h2, h3⟩ := h
    rcases List.mem_cons.mp hq with rfl | hq
    · obtain rfl : a = p := Option.some.inj (h2.symm.trans hp)
      exact ⟨List.mem_cons_self, h1⟩
    · obtain ⟨hm, hn⟩ := ih h3 hq
      exact ⟨List.mem_cons_of_mem _ hm, hn⟩

lemma Linked.congr {a : P} {l : List P} {z : Option P} (h : Linked nx pv a l z)
    (hn : ∀ p ∈ a :: l, nx' p = nx p) (hp : ∀ p ∈ l, pv' p = pv p) : Linked nx' pv' a l z := by
  induction l generalizing a with
  | nil => simpa [hn a (by simp)] using h
  | cons b l ih =>
    obtain ⟨h1, h2, h3⟩ := h
    refine ⟨by rw [hn a (by simp), h1], by rw [hp b (by simp), h2], ?_⟩
    exact ih h3 (fun p hm => hn p (List.mem_cons_of_mem _ hm))
      (fun p hm => hp p (List.mem_cons_of_mem _ hm))

/-- Two chains of one pair of fields that start at the same cell and end with a null pointer
run through the same cells. -/
lemma Linked.unique {a : P} {l₁ l₂ : List P} (h₁ : Linked nx pv a l₁ none)
    (h₂ : Linked nx pv a l₂ none) : l₁ = l₂ := by
  induction l₁ generalizing a l₂ with
  | nil =>
    cases l₂ with
    | nil => rfl
    | cons c l => exact absurd (h₁.symm.trans h₂.1) (by simp)
  | cons b l ih =>
    cases l₂ with
    | nil => exact absurd (h₂.symm.trans h₁.1) (by simp)
    | cons c l' =>
      have hbc : b = c := Option.some.inj (h₁.1.symm.trans h₂.1)
      subst hbc
      rw [ih h₁.2.2 h₂.2.2]

/-! ### Surgery -/

section Surgery

variable [DecidableEq P]

/-- The pointer field `pv` with its value at `q` set to `p`; as it was if `q` is null. -/
def setAt (pv : P → Option P) (q p : Option P) : P → Option P :=
  match q with
  | none => pv
  | some q => Function.update pv q p

@[simp] lemma setAt_none (pv : P → Option P) (p : Option P) : setAt pv none p = pv := rfl
@[simp] lemma setAt_some (pv : P → Option P) (q : P) (p : Option P) :
    setAt pv (some q) p = Function.update pv q p := rfl

lemma setAt_of_ne {q p : Option P} {x : P} (h : q ≠ some x) : setAt pv q p x = pv x := by
  cases q with
  | none => rfl
  | some q => exact Function.update_of_ne (fun hx => h (by rw [hx])) _ _

/-- **A cell put in.** `n` goes in after the last cell of `l₁`. -/
lemma Linked.insert {a n : P} {l₁ l₂ : List P} (h : Linked nx pv a (l₁ ++ l₂) none)
    (hd : (a :: (l₁ ++ l₂)).Nodup) (hn : n ∉ a :: (l₁ ++ l₂)) :
    Linked (Function.update (Function.update nx n l₂.head?) (last a l₁) (some n))
      (setAt (Function.update pv n (some (last a l₁))) l₂.head? (some n))
      a (l₁ ++ n :: l₂) none := by
  induction l₁ generalizing a with
  | nil =>
    have hna : n ≠ a := fun e => hn (by simp [e])
    cases l₂ with
    | nil => simp [hna]
    | cons q l =>
      have hqn : q ≠ n := fun e => hn (by simp [e])
      obtain ⟨h1, h2, h3⟩ := h
      refine ⟨by simp, by simp [hqn.symm], by simp [hna], by simp, ?_⟩
      -- past the new cell nothing changed
      simp only [List.nil_append, List.nodup_cons, List.mem_cons, not_or] at hd hn
      refine h3.congr (fun p hp => ?_) (fun p hp => ?_)
      · have hpa : p ≠ a := by rintro rfl; simp_all
        have hpn : p ≠ n := by rintro rfl; simp_all
        simp [hpa, hpn]
      · have hpq : p ≠ q := by rintro rfl; simp_all
        have hpn : p ≠ n := by rintro rfl; simp_all
        simp [hpq, hpn]
  | cons b l ih =>
    obtain ⟨h1, h2, h3⟩ := h
    simp only [List.cons_append, List.nodup_cons, List.mem_cons, List.mem_append, not_or] at hd hn
    have hlast : last b l ∈ b :: l := last_mem b l
    have hal : a ≠ last b l := by
      intro e
      rw [← e] at hlast
      simp only [List.mem_cons] at hlast
      tauto
    refine ⟨?_, ?_, ih h3 ?_ ?_⟩
    · rw [last_cons, Function.update_of_ne hal, Function.update_of_ne (Ne.symm hn.1), h1]
    · have hhead : l₂.head? ≠ some b := by
        intro e
        have := List.mem_of_mem_head? e
        tauto
      rw [setAt_of_ne hhead, Function.update_of_ne (Ne.symm hn.2.1), h2]
    · simp only [List.nodup_cons, List.mem_append, not_or]; tauto
    · simp only [List.mem_cons, List.mem_append, not_or]; tauto

/-- **A cell taken out.** -/
lemma Linked.erase {a n : P} {l₁ l₂ : List P} (h : Linked nx pv a (l₁ ++ n :: l₂) none)
    (hd : (a :: (l₁ ++ n :: l₂)).Nodup) :
    Linked (Function.update nx (last a l₁) l₂.head?)
      (setAt pv l₂.head? (some (last a l₁))) a (l₁ ++ l₂) none := by
  induction l₁ generalizing a with
  | nil =>
    obtain ⟨-, -, h3⟩ := h
    cases l₂ with
    | nil => simp
    | cons q l =>
      obtain ⟨h4, h5, h6⟩ := h3
      refine ⟨by simp, by simp, ?_⟩
      simp only [List.nil_append, List.nodup_cons, List.mem_cons, not_or] at hd
      refine h6.congr (fun p hp => ?_) (fun p hp => ?_)
      · have hpa : p ≠ a := by rintro rfl; simp_all
        simp [hpa]
      · have hpq : p ≠ q := by rintro rfl; simp_all
        simp [hpq]
  | cons b l ih =>
    obtain ⟨h1, h2, h3⟩ := h
    simp only [List.cons_append, List.nodup_cons, List.mem_cons, List.mem_append, not_or] at hd
    have hlast : last b l ∈ b :: l := last_mem b l
    have hal : a ≠ last b l := by
      intro e
      rw [← e] at hlast
      simp only [List.mem_cons] at hlast
      tauto
    refine ⟨?_, ?_, ih h3 ?_⟩
    · rw [last_cons, Function.update_of_ne hal, h1]
    · have hhead : l₂.head? ≠ some b := by
        intro e
        have := List.mem_of_mem_head? e
        tauto
      rw [setAt_of_ne hhead, h2]
    · simp only [List.nodup_cons, List.mem_append, List.mem_cons, not_or]; tauto

end Surgery

end Libchef.Chain
