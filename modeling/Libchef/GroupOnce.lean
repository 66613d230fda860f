import Libchef.GroupSteps
import Libchef.Base.Slots

/-!
A thread group executes every task at most once.

A task that was handed to the group is in one call or was given to one thread, whatever calls and
threads run at the same time; and a thread executes the tasks it was given in their order. Tasks
that one thread adds with one index are executed in the order in which it added them.
-/

namespace Libchef.GroupOnce

open Libchef.GroupCallsModel Libchef.GroupSteps Libchef.Slots

variable {Task : Type} {g g' : State Task} {a : Act Task}

/-- The tasks of the calls that have not handed them on. -/
def pending (g : State Task) : List Task := g.calls.filterMap (·.bind Call.task)

/-- Every task is in one place. -/
structure Inv (g : State Task) : Prop where
  length : g.group.threads_.length = g.threads_.length
  serves : ∀ (k : ℕ) tasks s, g.group.threads_[k]? = some tasks → g.threads_[k]? = some s →
    Serves tasks s
  perm : g.handed.Perm (pending g ++ g.group.threads_.flatten)

/-! ### A step -/

lemma pending_set {c : ℕ} {old : Option (Call Task)} (new : Option (Call Task))
    (hc : g.calls[c]? = some old) :
    ∃ rest, (pending g).Perm ((old.bind Call.task).toList ++ rest) ∧
      ((g.calls.set c new).filterMap (·.bind Call.task)).Perm
        ((new.bind Call.task).toList ++ rest) :=
  ⟨_, filterMap_perm hc, filterMap_set_perm hc⟩

lemma turns_task {c : ℕ} {old new : Option (Call Task)} (h : Turns g c a old new) :
    new.bind Call.task = old.bind Call.task := by
  cases h with
  | scan hi hs => split_ifs <;> rfl
  | _ => rfl

lemma drives_task {k : ℕ} {b : TaskModel.Act} {old new : Option (Call Task)}
    (h : Drives k b old new) : new.bind Call.task = old.bind Call.task := by
  cases h <;> rfl

lemma begins_task {c : ℕ} {t : Task} {call : Call Task} {i : UInt32}
    (h : Begins g c t a call i) : call.task = some t := by
  cases h <;> rfl

lemma pending_same {c : ℕ} {old new : Option (Call Task)} (hc : g.calls[c]? = some old)
    (ht : new.bind Call.task = old.bind Call.task) :
    ((g.calls.set c new).filterMap (·.bind Call.task)).Perm (pending g) := by
  obtain ⟨rest, h₁, h₂⟩ := pending_set new hc
  exact h₂.trans (ht ▸ h₁.symm)

lemma drives_keep {k : ℕ} {b : TaskModel.Act} {old new : Option (Call Task)}
    (h : Drives k b old new) : (∀ i, b ≠ .push i) ∧ ∀ d, b = .increment d → d = 0 := by
  cases h <;> simp

lemma Inv.works (h : Inv g) {k : ℕ} {b : TaskModel.Act} {s s' : TaskModel.State}
    (hb : ∀ i, b ≠ .push i) (hd : ∀ d, b = .increment d → d = 0) (hw : Works g k b s s') :
    ∀ (j : ℕ) tasks s₁, g.group.threads_[j]? = some tasks →
      (g.threads_.set k s')[j]? = some s₁ → Serves tasks s₁ := by
  intro j tasks s₁ hj hs₁
  rcases getElem?_set_some hs₁ with ⟨rfl, rfl⟩ | ⟨-, hs₁⟩
  · exact (h.serves j tasks s hj hw.before).keep hb hd hw.piece
  · exact h.serves j tasks s₁ hj hs₁

/-- **Every step keeps every task in one place.** -/
theorem Inv.step (h : Inv g) (e : step g a = some g') : Inv g' := by
  cases piece_of_step e with
  | @begins c t a call i hc hb =>
    obtain ⟨rest, h₁, h₂⟩ := pending_set (some call) hc
    rw [Option.bind_some, begins_task hb] at h₂
    refine ⟨h.length, h.serves, ?_⟩
    calc List.Perm (g.handed ++ [t]) (t :: g.handed) := List.perm_append_singleton t g.handed
      List.Perm _ (t :: (rest ++ g.group.threads_.flatten)) :=
        (h.perm.trans (h₁.append_right _)).cons t
      List.Perm _ _ := (h₂.append_right g.group.threads_.flatten).symm
  | turns hc ht =>
    exact ⟨h.length, h.serves, h.perm.trans ((pending_same hc (turns_task ht)).symm.append_right _)⟩
  | drives hc hd hw =>
    obtain ⟨hpush, hzero⟩ := drives_keep hd
    exact ⟨by simpa [State.put] using h.length, h.works hpush hzero hw,
      h.perm.trans ((pending_same hc (drives_task hd)).symm.append_right _)⟩
  | @pushes c k t s s' hc hw =>
    have hlt : k < g.group.threads_.length :=
      h.length ▸ (List.getElem?_eq_some_iff.mp hw.before).1
    obtain ⟨rest, h₁, h₂⟩ := pending_set none hc
    refine ⟨by simpa [State.put] using h.length, fun j tasks s₁ hj hs₁ => ?_, ?_⟩
    · rw [State.put, List.getElem?_modify] at hj
      rcases getElem?_set_some hs₁ with ⟨rfl, rfl⟩ | ⟨hne, hs₁⟩
      · obtain ⟨tasks₀, h₀, rfl⟩ := Option.map_eq_some_iff.mp hj
        rw [if_pos rfl]
        exact (h.serves j tasks₀ s h₀ hw.before).push t hw.piece
      · exact h.serves j tasks s₁ (by simpa [Ne.symm hne] using hj) hs₁
    · calc List.Perm g.handed (t :: rest ++ g.group.threads_.flatten) :=
          h.perm.trans (h₁.append_right _)
        List.Perm _ (rest ++ t :: g.group.threads_.flatten) := List.perm_middle.symm
        List.Perm _ (rest ++ (g.group.threads_.modify k (· ++ [t])).flatten) :=
          (flatten_modify_perm hlt).symm.append_left rest
        List.Perm _ _ := (h₂.append_right _).symm
  | alone hb hw =>
    refine ⟨by simpa using h.length, h.works ?_ ?_ hw, h.perm⟩ <;>
      rcases hb with ⟨rfl, -⟩ | ⟨t, rfl, -⟩ <;> simp

/-! ### Every run -/

lemma flatten_replicate_nil (n : ℕ) : (List.replicate n ([] : List Task)).flatten = [] := by
  induction n with
  | zero => rfl
  | succ n ih => rw [List.replicate_succ, List.flatten_cons, ih, List.nil_append]

lemma inv_init (n : UInt32) (strategy : GroupModel.InnerDispatchStrategy) (callers : ℕ) :
    Inv (init n strategy callers : State Task) where
  length := by simp [init, GroupModel.make]
  serves := fun k tasks s ht hs => by
    have hnil : tasks = [] := (List.mem_replicate.mp (List.mem_of_getElem? ht)).2
    have hinit : s = TaskModel.init .asap := (List.mem_replicate.mp (List.mem_of_getElem? hs)).2
    rw [hnil, hinit]
    exact ⟨⟨[], rfl⟩, by simp [TaskModel.init], by simp [TaskModel.init], rfl⟩
  perm := by
    have hnone : pending (init n strategy callers : State Task) = [] := by
      rw [pending, init, List.filterMap_eq_nil_iff]
      intro x hx
      rw [(List.mem_replicate.mp hx).2]
      rfl
    rw [hnone, init, GroupModel.make, flatten_replicate_nil]
    exact List.Perm.refl []

lemma run_inv {n : UInt32} {strategy : GroupModel.InnerDispatchStrategy} {callers : ℕ}
    {acts : List (Act Task)} (e : run n strategy callers acts = some g) : Inv g :=
  Runs.exec_invariant' (P := Inv) (fun _ _ _ h e₁ => h.step e₁) (inv_init n strategy callers) e

/-- What the threads have executed, all together. -/
def executed (g : State Task) : List Task :=
  (List.zipWith executedBy g.group.threads_ g.threads_).flatten

lemma flatten_zipWith_sublist {α β : Type} {f : List α → β → List α} {ls : List (List α)}
    {l : List β} (h : ∀ (k : ℕ) x y, ls[k]? = some x → l[k]? = some y → (f x y).Sublist x) :
    (List.zipWith f ls l).flatten.Sublist ls.flatten := by
  induction ls generalizing l with
  | nil => exact List.Sublist.refl _
  | cons x ls ih =>
    cases l with
    | nil => exact List.nil_sublist _
    | cons y l =>
      rw [List.zipWith_cons_cons, List.flatten_cons, List.flatten_cons]
      exact (h 0 x y rfl rfl).append (ih fun k x' y' hx hy => h (k + 1) x' y' hx hy)

/-- **Every task once.** Whatever calls of the group and pieces of its threads are made, in any
order: each task handed to the group is in one call or was given to one thread; each thread makes
a run of a task thread and has executed the first of its tasks, in their order; and all threads
together have executed no task more often than it was handed to the group. -/
theorem group_executes_once {n : UInt32} {strategy : GroupModel.InnerDispatchStrategy}
    {callers : ℕ} {acts : List (Act Task)} (e : run n strategy callers acts = some g) :
    g.handed.Perm (pending g ++ g.group.threads_.flatten) ∧
      (∀ (k : ℕ) tasks s, g.group.threads_[k]? = some tasks → g.threads_[k]? = some s →
        (∃ acts', TaskModel.run .asap acts' = some s) ∧ executedBy tasks s <+: tasks ∧
          (executedBy tasks s).length = s.hist.executed.length) ∧
      (executed g).Subperm g.handed := by
  have h := run_inv e
  have hfirst (k : ℕ) (tasks : List Task) (s : TaskModel.State)
      (hk : g.group.threads_[k]? = some tasks) (hs : g.threads_[k]? = some s) :
      executedBy tasks s <+: tasks := by
    rw [(h.serves k tasks s hk hs).executedBy_eq]
    exact List.take_prefix _ _
  refine ⟨h.perm, fun k tasks s hk hs => ?_, ?_⟩
  · have hserves := h.serves k tasks s hk hs
    refine ⟨hserves.reached, hfirst k tasks s hk hs, ?_⟩
    rw [hserves.executedBy_eq, List.length_take, min_eq_left hserves.executed_le]
  · have hsub : (executed g).Sublist g.group.threads_.flatten :=
      flatten_zipWith_sublist fun k tasks s hk hs => (hfirst k tasks s hk hs).sublist
    exact (hsub.trans (List.sublist_append_right _ _)).subperm.trans h.perm.symm.subperm

/-- Two calls at the same time, with two threads, one of which has executed its task. -/
abbrev twoCalls : List (Act ℕ) :=
  [.start 0, .go 0, .go 0, .go 0, .add 0 7 0, .add 1 8 0, .go 1, .go 0, .go 0, .worker 0, .go 1] ++
    List.replicate 6 (.worker 0)

theorem group_executes_once_two :
    ∃ g, run 2 .roundRobin 2 twoCalls = some g ∧ executed g = [7] ∧
      g.handed.Perm (pending g ++ g.group.threads_.flatten) ∧
      (∀ (k : ℕ) tasks s, g.group.threads_[k]? = some tasks → g.threads_[k]? = some s →
        (∃ acts', TaskModel.run .asap acts' = some s) ∧ executedBy tasks s <+: tasks ∧
          (executedBy tasks s).length = s.hist.executed.length) ∧
      (executed g).Subperm g.handed := by
  have h : (run 2 .roundRobin 2 twoCalls).map executed = some [7] := by decide
  obtain ⟨g, e, hx⟩ := Option.map_eq_some_iff.mp h
  exact ⟨g, e, hx, group_executes_once e⟩

/-! ### Tasks of one kind -/

section Kinds

variable (p : Task → Bool) (c k : ℕ)

/-- The tasks of a kind are added by the thread `c`, with an index of the task thread `k`. -/
def Routed (g : State Task) : Act Task → Prop
  | .addAt c' t index => p t = true → c' = c ∧ GroupModel.thread g.group index = some k
  | .add _ t _ => p t = false
  | _ => True

instance (g : State Task) : DecidablePred (Routed p c k g)
  | .addAt c' t index =>
    inferInstanceAs (Decidable (p t = true → c' = c ∧ GroupModel.thread g.group index = some k))
  | .add _ t _ => inferInstanceAs (Decidable (p t = false))
  | .start _ | .numOfUndoneTask _ | .destroy _ | .go _ | .worker _ | .clock _ _ =>
    .isTrue trivial

/-- The tasks of the kind that the task thread `j` was given. -/
def given (tasks : List (List Task)) (j : ℕ) : List Task := (tasks[j]?.getD []).filter p

/-- The task of the kind that the thread `c` is about to give. -/
def giving (calls : List (Option (Call Task))) (c : ℕ) : List Task :=
  (calls[c]?.join.bind Call.task).toList.filter p

/-- Where the tasks of the kind are. -/
structure Line (g : State Task) : Prop where
  only : ∀ (c' : ℕ) call t, g.calls[c']? = some (some call) → call.task = some t → p t = true →
    c' = c ∧ (call = .add t k ∨ call = .adding t k)
  others : ∀ j ≠ k, given p g.group.threads_ j = []
  order : given p g.group.threads_ k ++ giving p g.calls c = g.handed.filter p

variable {p c k}

lemma giving_set {l : List (Option (Call Task))} {i : ℕ} {old new : Option (Call Task)}
    (hi : l[i]? = some old) : giving p (l.set i new) c =
      if i = c then (new.bind Call.task).toList.filter p else giving p l c := by
  unfold giving
  split_ifs with hic
  · subst hic
    rw [List.getElem?_set_self (List.getElem?_eq_some_iff.mp hi).1]
    rfl
  · rw [List.getElem?_set_ne hic]

lemma giving_same {l : List (Option (Call Task))} {i : ℕ} {old new : Option (Call Task)}
    (hi : l[i]? = some old) (ht : new.bind Call.task = old.bind Call.task) :
    giving p (l.set i new) c = giving p l c := by
  rw [giving_set hi]
  split_ifs with hic
  · subst hic
    rw [ht, giving, hi]
    rfl
  · rfl

lemma given_modify {ls : List (List Task)} {i j : ℕ} {t : Task} (hi : i < ls.length) :
    given p (ls.modify i (· ++ [t])) j =
      if i = j then given p ls j ++ [t].filter p else given p ls j := by
  unfold given
  rw [List.getElem?_modify]
  split_ifs with hij
  · subst hij
    rw [List.getElem?_eq_getElem hi]
    simp [List.filter_append]
  · simp

lemma turns_not_adding {c' : ℕ} {call : Call Task} {new : Option (Call Task)}
    (h : Turns g c' a (some call) new) (t : Task) (k : ℕ) :
    call ≠ .add t k ∧ call ≠ .adding t k := by
  cases h <;> simp

/-- **Every step keeps the tasks of the kind in line.** -/
theorem Line.step (h : Line p c k g) (hi : Inv g) (hok : Routed p c k g a)
    (e : step g a = some g') : Line p c k g' := by
  cases piece_of_step e with
  | @begins c' t _ call i hc hb =>
    have htask := begins_task hb
    have hroute : p t = true → c' = c ∧ call = .add t k := by
      intro ht
      cases hb with
      | addAt hk =>
        obtain ⟨hcc, hk'⟩ := hok ht
        exact ⟨hcc, by rw [hk] at hk'; cases hk'; rfl⟩
      | _ => exact absurd ht (by simp [show p t = false from hok])
    refine ⟨fun c₁ call₁ t₁ h₁ ht₁ hp₁ => ?_, h.others, ?_⟩
    · rcases getElem?_set_some h₁ with ⟨rfl, hcall⟩ | ⟨-, h₁⟩
      · cases hcall
        rw [htask] at ht₁
        cases ht₁
        exact (hroute hp₁).imp id Or.inl
      · exact h.only c₁ call₁ t₁ h₁ ht₁ hp₁
    · rw [List.filter_append, ← h.order, List.append_assoc, giving_set hc, Option.bind_some, htask]
      split_ifs with hcc
      · subst hcc
        simp [giving, hc]
      · have hp : p t = false := by
          by_contra hp
          exact hcc (hroute (by simpa using hp)).1
        simp [hp]
  | @turns c' _ old new hc ht =>
    have htask := turns_task ht
    refine ⟨fun c₁ call₁ t₁ h₁ ht₁ hp₁ => ?_, h.others, ?_⟩
    · rcases getElem?_set_some h₁ with ⟨rfl, rfl⟩ | ⟨-, h₁⟩
      · -- such a call is past its choice already
        obtain ⟨call, rfl, hcall⟩ := Option.bind_eq_some_iff.mp (htask.symm.trans ht₁)
        obtain ⟨hadd, hadding⟩ := turns_not_adding ht t₁ k
        exact absurd (h.only c₁ call t₁ hc hcall hp₁).2 (not_or.mpr ⟨hadd, hadding⟩)
      · exact h.only c₁ call₁ t₁ h₁ ht₁ hp₁
    · show given p g.group.threads_ k ++ giving p (g.calls.set c' new) c = _
      rw [giving_same hc htask]
      exact h.order
  | @drives c' k' b s s' old new hc hd hw =>
    refine ⟨fun c₁ call₁ t₁ h₁ ht₁ hp₁ => ?_, h.others, ?_⟩
    · rcases getElem?_set_some h₁ with ⟨rfl, hnew⟩ | ⟨-, h₁⟩
      · cases hd with
        | increment =>
          cases hnew
          cases ht₁
          obtain ⟨hcc, hcall⟩ := h.only c₁ _ t₁ hc rfl hp₁
          simp only [Call.add.injEq, true_and, reduceCtorEq, or_false] at hcall
          exact ⟨hcc, Or.inr (by rw [hcall])⟩
        | _ => cases hnew; cases ht₁
      · exact h.only c₁ call₁ t₁ h₁ ht₁ hp₁
    · show given p g.group.threads_ k ++ giving p (g.calls.set c' new) c = _
      rw [giving_same hc (drives_task hd)]
      exact h.order
  | @pushes c' k' t s s' hc hw =>
    have hlt : k' < g.group.threads_.length :=
      hi.length ▸ (List.getElem?_eq_some_iff.mp hw.before).1
    have honly : p t = true → c' = c ∧ k' = k := by
      intro hp
      simpa using h.only c' _ t hc rfl hp
    refine ⟨fun c₁ call₁ t₁ h₁ ht₁ hp₁ => ?_, fun j hj => ?_, ?_⟩
    · rcases getElem?_set_some h₁ with ⟨rfl, hnew⟩ | ⟨-, h₁⟩
      · cases hnew
      · exact h.only c₁ call₁ t₁ h₁ ht₁ hp₁
    · show given p (g.group.threads_.modify k' (· ++ [t])) j = []
      rw [given_modify hlt, h.others j hj]
      split_ifs with hkj
      · have hp : p t = false := by
          by_contra hp
          exact hj (hkj ▸ (honly (by simpa using hp)).2)
        simp [hp]
      · rfl
    · show given p (g.group.threads_.modify k' (· ++ [t])) k ++ giving p (g.calls.set c' none) c =
        g.handed.filter p
      have hgiving : c' = c → giving p g.calls c = [t].filter p := by
        rintro rfl
        simp [giving, hc, Call.task]
      rw [given_modify hlt, giving_set hc, ← h.order]
      by_cases hp : p t = true
      · obtain ⟨hcc, hkk⟩ := honly hp
        rw [if_pos hkk, if_pos hcc, hgiving hcc]
        simp
      · have hnil : [t].filter p = [] := by simp [hp]
        rw [hnil] at hgiving ⊢
        rw [List.append_nil, ite_self]
        split_ifs with hcc
        · rw [hgiving hcc]
          rfl
        · rfl
  | alone hb hw => exact ⟨h.only, h.others, h.order⟩

lemma given_replicate_nil (n j : ℕ) : given p (List.replicate n []) j = [] := by
  unfold given
  rw [List.getElem?_replicate]
  split_ifs <;> rfl

lemma giving_replicate_none (callers : ℕ) : giving p (List.replicate callers none) c = [] := by
  unfold giving
  rw [List.getElem?_replicate]
  split_ifs <;> rfl

lemma line_init (n : UInt32) (strategy : GroupModel.InnerDispatchStrategy) (callers : ℕ) :
    Line p c k (init n strategy callers : State Task) where
  only := fun c' call t h => by
    have hnone := (List.mem_replicate.mp (List.mem_of_getElem? h)).2
    cases hnone
  others := fun j _ => given_replicate_nil n.toNat j
  order := by
    show given p (List.replicate n.toNat []) k ++ giving p (List.replicate callers none) c = []
    rw [given_replicate_nil, giving_replicate_none, List.append_nil]

/-- **Tasks of one kind are executed in order.** Where one thread adds all tasks of a kind, with
indices of one task thread, no other task thread executes any of them, and that one executes them
in the order in which they were added, whatever else is added and whoever adds it. -/
theorem same_index_in_order {n : UInt32} {strategy : GroupModel.InnerDispatchStrategy}
    {callers : ℕ} {acts : List (Act Task)}
    (hok : Runs.Along step (Routed p c k) (init n strategy callers) acts)
    (e : run n strategy callers acts = some g) (j : ℕ) {tasks : List Task}
    {s : TaskModel.State} (hj : g.group.threads_[j]? = some tasks)
    (hs : g.threads_[j]? = some s) :
    (j ≠ k → (executedBy tasks s).filter p = []) ∧
      (j = k → (executedBy tasks s).filter p <+: g.handed.filter p) := by
  have hline : Inv g ∧ Line p c k g := Runs.exec_invariant (P := fun g => Inv g ∧ Line p c k g)
    (fun g a g' h hok e₁ => ⟨h.1.step e₁, h.2.step h.1 hok e₁⟩)
    ⟨inv_init n strategy callers, line_init n strategy callers⟩ hok e
  have hfirst : (executedBy tasks s).filter p <+: given p g.group.threads_ j := by
    rw [given, hj, Option.getD_some, (hline.1.serves j tasks s hj hs).executedBy_eq]
    exact (List.take_prefix _ _).filter p
  refine ⟨fun hne => ?_, fun hjk => ?_⟩
  · rw [hline.2.others j hne] at hfirst
    exact List.prefix_nil.mp hfirst
  · subst hjk
    exact hfirst.trans ⟨_, hline.2.order⟩

end Kinds

/-- The even tasks come from one thread, with an index of the second task thread. -/
abbrev evens : List (Act ℕ) :=
  [.start 0, .go 0, .go 0, .go 0, .addAt 0 2 5, .add 1 7 0, .go 0, .go 1, .go 0, .addAt 0 4 1,
    .go 1, .go 0, .go 0] ++ List.replicate 6 (.worker 1)

theorem same_index_in_order_evens :
    Runs.Along step (Routed (· % 2 == 0) 0 1) (init 2 .roundRobin 2) evens ∧
      ∃ g, run 2 .roundRobin 2 evens = some g ∧ executed g = [2] ∧
        ∀ (j : ℕ) (tasks : List ℕ) (s : TaskModel.State), g.group.threads_[j]? = some tasks →
          g.threads_[j]? = some s →
            (j ≠ 1 → (executedBy tasks s).filter (· % 2 == 0) = []) ∧
              (j = 1 →
                (executedBy tasks s).filter (· % 2 == 0) <+: g.handed.filter (· % 2 == 0)) := by
  have hok : Runs.Along step (Routed (· % 2 == 0) 0 1) (init 2 .roundRobin 2) evens := by
    decide
  have h : (run 2 .roundRobin 2 evens).map executed = some [2] := by decide
  obtain ⟨g, e, hx⟩ := Option.map_eq_some_iff.mp h
  exact ⟨hok, g, e, hx, fun j tasks s hj hs => same_index_in_order hok e j hj hs⟩

end Libchef.GroupOnce
