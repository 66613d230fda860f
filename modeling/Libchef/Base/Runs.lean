import Mathlib.Data.List.Basic

/-!
Runs of a system that takes one step after another.

A system is given by what an action makes of a state, `none` where the action cannot be
taken. A run is a list of actions; a condition on steps holds along it when each step
satisfies it.
-/

namespace Libchef.Runs

variable {σ α τ : Type*} {next : σ → α → Option σ} {ok : σ → α → Prop}

/-- The state after the actions. -/
def exec (next : σ → α → Option σ) (s : σ) (acts : List α) : Option σ := acts.foldlM next s

/-- Every step of the run satisfies the condition. -/
def Along (next : σ → α → Option σ) (ok : σ → α → Prop) : σ → List α → Prop
  | _, [] => True
  | s, a :: acts => ok s a ∧ ∀ s', next s a = some s' → Along next ok s' acts

instance instDecidableAlong [∀ s a, Decidable (ok s a)] : ∀ s acts, Decidable (Along next ok s acts)
  | _, [] => inferInstanceAs (Decidable True)
  | s, a :: acts =>
    have (s' : σ) : Decidable (Along next ok s' acts) := instDecidableAlong s' acts
    inferInstanceAs (Decidable (ok s a ∧ ∀ s' ∈ next s a, Along next ok s' acts))

lemma exec_cons {s : σ} {a : α} {acts : List α} :
    exec next s (a :: acts) = (next s a).bind fun s' => exec next s' acts := by
  simp [exec, List.foldlM_cons]

lemma exec_cons_some {s s' : σ} {a : α} {acts : List α} :
    exec next s (a :: acts) = some s' ↔ ∃ s₁, next s a = some s₁ ∧ exec next s₁ acts = some s' := by
  rw [exec_cons, Option.bind_eq_some_iff]

lemma exec_append {s : σ} {acts acts' : List α} :
    exec next s (acts ++ acts') = (exec next s acts).bind fun s' => exec next s' acts' := by
  simp [exec, List.foldlM_append]

/-- **The invariant rule**: what a step that satisfies the condition keeps, a run along which
it holds keeps. -/
theorem exec_invariant {P : σ → Prop}
    (hstep : ∀ s a s', P s → ok s a → next s a = some s' → P s') {s s' : σ} {acts : List α}
    (hs : P s) (hok : Along next ok s acts) (he : exec next s acts = some s') : P s' := by
  induction acts generalizing s with
  | nil =>
    cases he
    exact hs
  | cons a acts ih =>
    obtain ⟨s₁, h₁, he⟩ := exec_cons_some.mp he
    exact ih (hstep s a s₁ hs hok.1 h₁) (hok.2 s₁ h₁) he

/-- The invariant rule for a system that can always take its next step. -/
theorem exec_total {P : σ → Prop} (hstep : ∀ s a, P s → ∃ s', next s a = some s' ∧ P s') {s : σ}
    (hs : P s) (acts : List α) : ∃ s', exec next s acts = some s' ∧ P s' := by
  induction acts generalizing s with
  | nil => exact ⟨s, rfl, hs⟩
  | cons a acts ih =>
    obtain ⟨s₁, h₁, hs₁⟩ := hstep s a hs
    obtain ⟨s', he, hs'⟩ := ih hs₁
    exact ⟨s', exec_cons_some.mpr ⟨s₁, h₁, he⟩, hs'⟩

lemma along_true (s : σ) (acts : List α) : Along next (fun _ _ => True) s acts := by
  induction acts generalizing s with
  | nil => trivial
  | cons a acts ih => exact ⟨trivial, fun s' _ => ih s'⟩

lemma along_of_forall {ok : α → Prop} {s : σ} {acts : List α} (h : ∀ a ∈ acts, ok a) :
    Along next (fun _ a => ok a) s acts := by
  induction acts generalizing s with
  | nil => trivial
  | cons a acts ih => exact ⟨h a (by simp), fun s' _ => ih fun b hb => h b (by simp [hb])⟩

lemma Along.and {ok' : σ → α → Prop} {s : σ} {acts : List α} (h : Along next ok s acts)
    (h' : Along next ok' s acts) : Along next (fun s a => ok s a ∧ ok' s a) s acts := by
  induction acts generalizing s with
  | nil => trivial
  | cons a acts ih => exact ⟨⟨h.1, h'.1⟩, fun s₁ h₁ => ih (h.2 s₁ h₁) (h'.2 s₁ h₁)⟩

lemma Along.imp {ok' : σ → α → Prop} (himp : ∀ s a, ok s a → ok' s a) {s : σ} {acts : List α}
    (h : Along next ok s acts) : Along next ok' s acts := by
  induction acts generalizing s with
  | nil => trivial
  | cons a acts ih => exact ⟨himp s a h.1, fun s₁ h₁ => ih (h.2 s₁ h₁)⟩

/-- The invariant rule without a condition. -/
theorem exec_invariant' {P : σ → Prop} (hstep : ∀ s a s', P s → next s a = some s' → P s')
    {s s' : σ} {acts : List α} (hs : P s) (he : exec next s acts = some s') : P s' :=
  exec_invariant (fun s a s' h _ => hstep s a s' h) hs
    (along_true s acts) he

/-- An invariant that gives a second condition gives it along the run. -/
theorem along_of_invariant {P : σ → Prop} {ok' : σ → α → Prop}
    (hstep : ∀ s a s', P s → ok s a → next s a = some s' → P s')
    (himp : ∀ s a, P s → ok' s a) {s : σ} {acts : List α} (hs : P s)
    (hok : Along next ok s acts) : Along next ok' s acts := by
  induction acts generalizing s with
  | nil => trivial
  | cons a acts ih =>
    exact ⟨himp s a hs, fun s₁ h₁ => ih (hstep s a s₁ hs hok.1 h₁) (hok.2 s₁ h₁)⟩

lemma along_append {s s₁ : σ} {acts acts' : List α} (hok : Along next ok s (acts ++ acts'))
    (he : exec next s acts = some s₁) : Along next ok s₁ acts' := by
  induction acts generalizing s with
  | nil =>
    cases he
    exact hok
  | cons a acts ih =>
    obtain ⟨s₂, h₂, he⟩ := exec_cons_some.mp he
    exact ih (hok.2 s₂ h₂) he

lemma Along.left {s : σ} {acts acts' : List α} (hok : Along next ok s (acts ++ acts')) :
    Along next ok s acts := by
  induction acts generalizing s with
  | nil => trivial
  | cons a acts ih => exact ⟨hok.1, fun s₁ h₁ => ih (hok.2 s₁ h₁)⟩

lemma Along.append {s s₁ : σ} {acts acts' : List α} (hok : Along next ok s acts)
    (he : exec next s acts = some s₁) (hok' : Along next ok s₁ acts') :
    Along next ok s (acts ++ acts') := by
  induction acts generalizing s with
  | nil =>
    cases he
    exact hok'
  | cons a acts ih =>
    obtain ⟨s₂, h₂, he⟩ := exec_cons_some.mp he
    refine ⟨hok.1, fun s₃ h₃ => ?_⟩
    rw [h₂] at h₃
    cases h₃
    exact ih (hok.2 s₂ h₂) he

/-- Where the condition does not hold along a run, there is a first step that fails it. -/
theorem exists_first_of_not_along {s s' : σ} {acts : List α} (he : exec next s acts = some s')
    (hn : ¬ Along next ok s acts) :
    ∃ acts₁ a acts₂ s₁ s₂, acts = acts₁ ++ a :: acts₂ ∧ Along next ok s acts₁ ∧
      exec next s acts₁ = some s₁ ∧ ¬ ok s₁ a ∧ next s₁ a = some s₂ ∧
      exec next s₂ acts₂ = some s' := by
  induction acts generalizing s with
  | nil => exact absurd trivial hn
  | cons a acts ih =>
    obtain ⟨s₁, e₁, e⟩ := exec_cons_some.mp he
    have hstep {l : List α} (hl : Along next ok s₁ l) : ∀ s₂, next s a = some s₂ →
        Along next ok s₂ l := fun s₂ e₂ => by
      rw [e₁] at e₂
      cases e₂
      exact hl
    by_cases hok : ok s a
    · obtain ⟨l₁, b, l₂, s₂, s₃, hl, h₀, h₁, h₂, h₃, h₄⟩ := ih e fun ha => hn ⟨hok, hstep ha⟩
      exact ⟨a :: l₁, b, l₂, s₂, s₃, by rw [hl, List.cons_append], ⟨hok, hstep h₀⟩,
        exec_cons_some.mpr ⟨s₁, e₁, h₁⟩, h₂, h₃, h₄⟩
    · exact ⟨[], a, acts, s, s₁, rfl, trivial, rfl, hok, e₁, e⟩

/-- Some step of such a run fails the condition. -/
theorem exists_step_of_not_along {s s' : σ} {acts : List α} (he : exec next s acts = some s')
    (hn : ¬ Along next ok s acts) :
    ∃ acts₁ a acts₂ s₁ s₂, acts = acts₁ ++ a :: acts₂ ∧ exec next s acts₁ = some s₁ ∧
      ¬ ok s₁ a ∧ next s₁ a = some s₂ ∧ exec next s₂ acts₂ = some s' := by
  obtain ⟨l₁, a, l₂, s₁, s₂, hl, -, h⟩ := exists_first_of_not_along he hn
  exact ⟨l₁, a, l₂, s₁, s₂, hl, h⟩

/-- **The refinement rule**: a system whose steps succeed and follow a reference, as long as
they satisfy the condition, follows it through a run. -/
theorem exec_refines {R : σ → τ → Prop} {ref : τ → α → τ}
    (hstep : ∀ s t a, R s t → ok s a → ∃ s', next s a = some s' ∧ R s' (ref t a)) {s : σ} {t : τ}
    {acts : List α} (hs : R s t) (hok : Along next ok s acts) :
    ∃ s', exec next s acts = some s' ∧ R s' (acts.foldl ref t) := by
  induction acts generalizing s t with
  | nil => exact ⟨s, rfl, hs⟩
  | cons a acts ih =>
    obtain ⟨s₁, e₁, h₁⟩ := hstep s t a hs hok.1
    obtain ⟨s', e', h'⟩ := ih h₁ (hok.2 s₁ e₁)
    exact ⟨s', exec_cons_some.mpr ⟨s₁, e₁, e'⟩, h'⟩

/-! ### What happens in a run -/

section Observe

variable {β : Type*} (next) (obs : σ → α → Option β)

/-- What is seen of the steps of a run, in order. -/
def observe : σ → List α → List β
  | _, [] => []
  | s, a :: acts =>
    (obs s a).toList ++ match next s a with
      | none => []
      | some s' => observe s' acts

variable {next obs}

/-- The invariant rule for a state together with what has been seen so far. -/
theorem exec_observe {P : σ → List β → Prop}
    (hstep : ∀ s a s' seen, P s seen → ok s a → next s a = some s' →
      P s' (seen ++ (obs s a).toList)) {s s' : σ} {acts : List α} {seen : List β}
    (hs : P s seen) (hok : Along next ok s acts) (he : exec next s acts = some s') :
    P s' (seen ++ observe next obs s acts) := by
  induction acts generalizing s seen with
  | nil =>
    cases he
    rwa [observe, List.append_nil]
  | cons a acts ih =>
    obtain ⟨s₁, h₁, he⟩ := exec_cons_some.mp he
    have := ih (hstep s a s₁ seen hs hok.1 h₁) (hok.2 s₁ h₁) he
    rw [List.append_assoc] at this
    rwa [observe, h₁]

end Observe

/-! ### How long a run is -/

/-- **The ranking rule**: where no step puts the rank up but those that `q` counts, by `c` at
most, and those that `p` counts bring it down, a run has no more of these than its first rank and
the others give. -/
theorem exec_rank {P : σ → Prop} {rank : σ → ℕ} {p q : α → Bool} {c : ℕ}
    (hstep : ∀ s a s', P s → next s a = some s' →
      P s' ∧ rank s' + (if p a then 1 else 0) ≤ rank s + c * if q a then 1 else 0)
    {s s' : σ} {acts : List α} (hs : P s) (he : exec next s acts = some s') :
    rank s' + acts.countP p ≤ rank s + c * acts.countP q := by
  induction acts generalizing s with
  | nil =>
    cases he
    exact Nat.le_refl _
  | cons a acts ih =>
    obtain ⟨s₁, h₁, he⟩ := exec_cons_some.mp he
    obtain ⟨hs₁, hle⟩ := hstep s a s₁ hs h₁
    have hrest := ih hs₁ he
    rw [List.countP_cons, List.countP_cons, Nat.mul_add]
    omega

/-! ### Every state of a run -/

/-- Every state the run comes to, the first and the last one included, satisfies `P`. -/
def Always (next : σ → α → Option σ) (P : σ → Prop) (s : σ) (acts : List α) : Prop :=
  ∀ acts₁ acts₂ s', acts = acts₁ ++ acts₂ → exec next s acts₁ = some s' → P s'

variable {P : σ → Prop}

lemma always_nil {s : σ} : Always next P s [] ↔ P s := by
  constructor
  · intro h
    exact h [] [] s rfl rfl
  · intro h acts₁ acts₂ s' hs he
    obtain ⟨rfl, -⟩ := List.append_eq_nil_iff.mp hs.symm
    cases he
    exact h

lemma always_cons {s s₁ : σ} {a : α} {acts : List α} (h₁ : next s a = some s₁) :
    Always next P s (a :: acts) ↔ P s ∧ Always next P s₁ acts := by
  constructor
  · intro h
    refine ⟨h [] (a :: acts) s rfl rfl, fun acts₁ acts₂ s' hs he => ?_⟩
    exact h (a :: acts₁) acts₂ s' (by rw [hs, List.cons_append])
      (exec_cons_some.mpr ⟨s₁, h₁, he⟩)
  · rintro ⟨h0, h⟩ acts₁ acts₂ s' hs he
    cases acts₁ with
    | nil =>
      cases he
      exact h0
    | cons b acts₁ =>
      obtain ⟨rfl, rfl⟩ := List.cons.inj hs
      obtain ⟨s₂, h₂, he⟩ := exec_cons_some.mp he
      rw [h₁] at h₂
      cases h₂
      exact h acts₁ acts₂ s' rfl he

/-- The invariant rule for every state of a run. -/
theorem Along.always (hstep : ∀ s a s', P s → ok s a → next s a = some s' → P s') {s : σ}
    {acts : List α} (hok : Along next ok s acts) (hs : P s) : Always next P s acts := by
  rintro acts₁ acts₂ s' rfl he
  exact exec_invariant hstep hs hok.left he

/-- **The exact condition**: if every valid step can be taken, and leads from an invariant that
gives `P` to `P` just when it satisfies the condition, and then to the invariant again, then
the states of a valid run all satisfy `P` just when its steps all satisfy the condition. -/
theorem along_iff_always {I : σ → Prop} {valid : σ → α → Prop} (hI : ∀ s, I s → P s)
    (hstep : ∀ s a, I s → valid s a →
      ∃ s', next s a = some s' ∧ (ok s a ↔ P s') ∧ (ok s a → I s'))
    {s : σ} (hs : I s) {acts : List α} (hv : Along next valid s acts) :
    Along next ok s acts ↔ Always next P s acts := by
  induction acts generalizing s with
  | nil => exact ⟨fun _ => always_nil.mpr (hI s hs), fun _ => trivial⟩
  | cons a acts ih =>
    obtain ⟨s₁, h₁, hP, hs₁⟩ := hstep s a hs hv.1
    have hfirst : Always next P s₁ acts → P s₁ := fun h => h [] acts s₁ rfl rfl
    rw [always_cons h₁]
    constructor
    · rintro ⟨hok, hrest⟩
      exact ⟨hI s hs, (ih (hs₁ hok) (hv.2 s₁ h₁)).mp (hrest s₁ h₁)⟩
    · rintro ⟨-, hrest⟩
      have hok : ok s a := hP.mpr (hfirst hrest)
      refine ⟨hok, fun s₂ h₂ => ?_⟩
      rw [h₁] at h₂
      cases h₂
      exact (ih (hs₁ hok) (hv.2 s₁ h₁)).mpr hrest

/-- The exact condition for a run that has been taken to its end. -/
theorem along_iff_always_of_exec {I : σ → Prop} (hI : ∀ s, I s → P s)
    (hstep : ∀ s a s', I s → next s a = some s' → (ok s a ↔ P s') ∧ (ok s a → I s'))
    {s s' : σ} (hs : I s) {acts : List α} (he : exec next s acts = some s') :
    Along next ok s acts ↔ Always next P s acts := by
  have hvalid : Along next (fun s a => (next s a).isSome) s acts := by
    clear hs
    induction acts generalizing s with
    | nil => trivial
    | cons a acts ih =>
      obtain ⟨s₁, h₁, he⟩ := exec_cons_some.mp he
      refine ⟨Option.isSome_iff_exists.mpr ⟨s₁, h₁⟩, fun s₂ h₂ => ?_⟩
      rw [h₁] at h₂
      cases h₂
      exact ih he
  refine along_iff_always hI (fun s a h hv => ?_) hs hvalid
  obtain ⟨s₁, h₁⟩ := Option.isSome_iff_exists.mp hv
  exact ⟨s₁, h₁, hstep s a s₁ h h₁⟩

/-- Such a run comes to its end. -/
theorem exec_of_along {I : σ → Prop} {valid : σ → α → Prop}
    (hstep : ∀ s a, I s → valid s a → ok s a → ∃ s', next s a = some s' ∧ I s') {s : σ}
    (hs : I s) {acts : List α} (hv : Along next valid s acts) (hok : Along next ok s acts) :
    ∃ s', exec next s acts = some s' ∧ I s' := by
  induction acts generalizing s with
  | nil => exact ⟨s, rfl, hs⟩
  | cons a acts ih =>
    obtain ⟨s₁, h₁, hs₁⟩ := hstep s a hs hv.1 hok.1
    obtain ⟨s', he, hs'⟩ := ih hs₁ (hv.2 s₁ h₁) (hok.2 s₁ h₁)
    exact ⟨s', exec_cons_some.mpr ⟨s₁, h₁, he⟩, hs'⟩

end Libchef.Runs
