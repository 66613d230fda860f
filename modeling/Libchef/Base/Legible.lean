import Mathlib.Data.List.TakeWhile
import Mathlib.Data.Set.Basic

/-!
Texts that can be read off: written in a row with others, they still tell their values and where
they end.

What may come after a text is known by its first letter. Pairs of readable texts, and lists of them
between brackets, can be read off again.
-/

namespace Libchef.Legible

variable {α β γ : Type*}

/-- What comes next is one of the ends, or nothing. -/
def Follows (ends : Set γ) (u : List γ) : Prop := ∀ c ∈ u.head?, c ∈ ends

/-- The texts of the values with `P` can be read off, if one of the ends follows. -/
def Readable (ends : Set γ) (P : α → Prop) (f : α → List γ) : Prop :=
  ∀ ⦃a b : α⦄, P a → P b → ∀ ⦃u v : List γ⦄, Follows ends u → Follows ends v →
    f a ++ u = f b ++ v → a = b ∧ u = v

variable {ends ends' : Set γ} {P Q : α → Prop} {f : α → List γ}

lemma follows_nil : Follows ends [] := fun _ h => absurd h (by simp)

lemma follows_cons {c : γ} {u : List γ} : Follows ends (c :: u) ↔ c ∈ ends := by
  simp [Follows]

lemma Readable.injOn (h : Readable ends P f) {a b : α} (ha : P a) (hb : P b) (hab : f a = f b) :
    a = b :=
  (h ha hb follows_nil follows_nil (by rw [hab])).1

lemma readable_of_notMem (hinj : ∀ a b, P a → P b → f a = f b → a = b)
    (hends : ∀ a, P a → ∀ c ∈ f a, c ∉ ends) : Readable ends P f := by
  classical
  have hread {a : α} (ha : P a) {u : List γ} (hu : Follows ends u) :
      (f a ++ u).takeWhile (fun c => decide (c ∉ ends)) = f a := by
    rw [List.takeWhile_append_of_pos fun c hc => decide_eq_true (hends a ha c hc)]
    cases u with
    | nil => simp
    | cons c u =>
      rw [List.takeWhile_cons, if_neg (by simpa using follows_cons.mp hu), List.append_nil]
  intro a b ha hb u v hu hv h
  have hab : f a = f b := by rw [← hread ha hu, h, hread hb hv]
  exact ⟨hinj a b ha hb hab, List.append_cancel_left (hab ▸ h)⟩

lemma Readable.marked (h : Readable ends P f) (pre : List γ) {post : List γ}
    (hpost : ∀ u, Follows ends' u → Follows ends (post ++ u)) :
    Readable ends' P fun a => pre ++ f a ++ post := by
  intro a b ha hb u v hu hv hab
  simp only [List.append_assoc] at hab
  obtain ⟨rfl, hrest⟩ := h ha hb (hpost u hu) (hpost v hv) (List.append_cancel_left hab)
  exact ⟨rfl, List.append_cancel_left hrest⟩

lemma Readable.pair {R : β → Prop} {g : β → List γ} (hf : Readable ends P f)
    (hg : Readable ends' R g) (hnext : ∀ b u, R b → Follows ends' u → Follows ends (g b ++ u)) :
    Readable ends' (fun p : α × β => P p.1 ∧ R p.2) fun p => f p.1 ++ g p.2 := by
  rintro ⟨a, b⟩ ⟨a', b'⟩ ⟨ha, hb⟩ ⟨ha', hb'⟩ u v hu hv h
  simp only [List.append_assoc] at h
  obtain ⟨rfl, hrest⟩ := hf ha ha' (hnext b u hb hu) (hnext b' v hb' hv) h
  obtain ⟨rfl, huv⟩ := hg hb hb' hu hv hrest
  exact ⟨rfl, huv⟩

/-! ### Lists -/

variable (f) in
/-- The texts of one value and others, with a separator between them. -/
def sepBy (sep : List γ) : α → List α → List γ
  | a, [] => f a
  | a, b :: l => f a ++ sep ++ sepBy sep b l

variable (f) in
/-- A list between brackets. Nothing stands for an empty one. -/
def bracketed (left sep right : List γ) : List α → List γ
  | [] => []
  | a :: l => left ++ sepBy f sep a l ++ right

variable {left sep right : List γ}

/-- What separates texts and what closes them. -/
structure Closes (ends : Set γ) (sep right : List γ) : Prop where
  sep_head : ∃ c ∈ ends, sep.head? = some c
  right_head : ∃ c ∈ ends, right.head? = some c
  differ : sep.head? ≠ right.head?

lemma follows_of_head {l : List γ} (h : ∃ c ∈ ends, l.head? = some c) (u : List γ) :
    Follows ends (l ++ u) := by
  obtain ⟨c, hc, hl⟩ := h
  obtain ⟨l, rfl⟩ := List.head?_eq_some_iff.mp hl
  exact follows_cons.mpr hc

lemma Closes.ne (h : Closes ends sep right) (u v : List γ) : sep ++ u ≠ right ++ v := by
  obtain ⟨c, -, hc⟩ := h.sep_head
  obtain ⟨d, -, hd⟩ := h.right_head
  have hdiffer := h.differ
  intro heq
  have hhead := congrArg List.head? heq
  rw [List.head?_append, List.head?_append, hc, hd] at hhead
  rw [hc, hd] at hdiffer
  exact hdiffer hhead

lemma sepBy_readable (hf : Readable ends P f) (hc : Closes ends sep right) {a b : α}
    {l l' : List α} (hl : ∀ x ∈ a :: l, P x) (hl' : ∀ x ∈ b :: l', P x) {u v : List γ}
    (h : sepBy f sep a l ++ right ++ u = sepBy f sep b l' ++ right ++ v) :
    a :: l = b :: l' ∧ u = v := by
  have ha := hl a List.mem_cons_self
  have hb := hl' b List.mem_cons_self
  induction l generalizing a b l' with
  | nil =>
    cases l' with
    | nil =>
      simp only [sepBy, List.append_assoc] at h
      obtain ⟨rfl, hrest⟩ :=
        hf ha hb (follows_of_head hc.right_head u) (follows_of_head hc.right_head v) h
      exact ⟨rfl, List.append_cancel_left hrest⟩
    | cons b' l' =>
      simp only [sepBy, List.append_assoc] at h
      obtain ⟨-, hrest⟩ :=
        hf ha hb (follows_of_head hc.right_head u) (follows_of_head hc.sep_head _) h
      exact absurd hrest.symm (hc.ne _ _)
  | cons a' l ih =>
    cases l' with
    | nil =>
      simp only [sepBy, List.append_assoc] at h
      obtain ⟨-, hrest⟩ :=
        hf ha hb (follows_of_head hc.sep_head _) (follows_of_head hc.right_head v) h
      exact absurd hrest (hc.ne _ _)
    | cons b' l' =>
      simp only [sepBy, List.append_assoc] at h
      obtain ⟨rfl, hrest⟩ :=
        hf ha hb (follows_of_head hc.sep_head _) (follows_of_head hc.sep_head _) h
      have htail {x : α} {k : List α} (hk : ∀ y ∈ a :: x :: k, P y) : ∀ y ∈ x :: k, P y :=
        fun y hy => hk y (List.mem_cons_of_mem a hy)
      obtain ⟨heq, huv⟩ := ih (htail hl) (htail hl')
        (by simpa only [List.append_assoc] using List.append_cancel_left hrest)
        (hl a' (by simp)) (hl' b' (by simp))
      exact ⟨congrArg (a :: ·) heq, huv⟩

/-- **Lists of readable texts** are readable, even without any text for an empty one, where no left
bracket follows. -/
lemma Readable.brackets (hf : Readable ends P f) (hc : Closes ends sep right)
    (hleft : ∃ c ∉ ends', left.head? = some c) :
    Readable ends' (fun l : List α => ∀ x ∈ l, P x) (bracketed f left sep right) := by
  obtain ⟨c, hne, hleft⟩ := hleft
  obtain ⟨left', rfl⟩ := List.head?_eq_some_iff.mp hleft
  -- a bracket does not follow
  have hempty (a : α) (l : List α) {u v : List γ} (hu : Follows ends' u)
      (h : u = bracketed f (c :: left') sep right (a :: l) ++ v) : False := by
    rw [h] at hu
    exact hne (follows_cons.mp hu)
  intro l l' hl hl' u v hu hv h
  cases l with
  | nil =>
    cases l' with
    | nil => exact ⟨rfl, h⟩
    | cons b l' => exact (hempty b l' hu h).elim
  | cons a l =>
    cases l' with
    | nil => exact (hempty a l hv h.symm).elim
    | cons b l' =>
      simp only [bracketed, List.append_assoc] at h
      exact sepBy_readable hf hc hl hl'
        (by simpa only [List.append_assoc] using List.append_cancel_left h)

end Libchef.Legible
