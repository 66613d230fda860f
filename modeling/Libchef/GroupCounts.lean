import Libchef.GroupOnce
import Libchef.TaskStop
import Mathlib.Algebra.BigOperators.Group.Finset.Piecewise
import Mathlib.Algebra.Order.BigOperators.Group.Finset

/-!
What a call that reads the counts of a thread group gets.

The counts are read one after the other while the threads go on. The sum is off by no more than
the tasks that are added meanwhile; and the thread that `add` chooses as the idle one is the first
with the fewest undone tasks, each thread at a moment of the call.
-/

namespace Libchef.GroupCounts

open Libchef.GroupCallsModel Libchef.GroupSteps Libchef.GroupOnce Libchef.TaskCount
open Libchef.Slots

variable {Task : Type} {g g' : State Task} {a : Act Task}

/-! ### Undone tasks -/

section Threads

variable {s s' : TaskModel.State} {b : TaskModel.Act}

/-- A piece of the worker adds nothing to the undone tasks. -/
lemma piece_undone (h : Counted s) (hs : TaskSteps.Shape s) (hp : TaskSteps.Piece s s') :
    undone s' ≤ undone s := by
  have hl := hs.here
  unfold TaskSteps.Local at hl
  cases hp with
  | collect hw =>
    rw [hw] at hl
    exact (undone_collect hw hl.2).le
  | done hw => exact (TaskStop.undone_pop h (Or.inl ⟨hw, rfl⟩)).ge.trans' (Nat.le_succ _)
  | flushDone hw => exact (TaskStop.undone_pop h (Or.inr ⟨hw, rfl⟩)).ge.trans' (Nat.le_succ _)
  | defferredDone hw => simp [undone, later, hw]
  | clear hw => simp [undone, later, hw, Ordered.Multimap.empty]
  | wake hw hm next hn => rcases hn with rfl | rfl <;> simp [undone, later, hw]
  | final hw hm =>
    unfold TaskModel.State.final
    cases s.releaseMode_ <;> simp [undone, later, hw]
  | flushed hw hc =>
    unfold TaskModel.State.afterFlush
    cases s.releaseMode_ <;> simp [undone, later, hw]
  | _ hw =>
    simp [undone, later, hw, TaskModel.State.unlock, TaskModel.State.call]

lemma undone_step (h : Counted s) (hs : TaskSteps.Shape s) (e : TaskModel.step s b = some s') :
    undone s' ≤ undone s + if TaskStop.isIncrement b then 1 else 0 := by
  cases b with
  | increment d => exact (TaskStop.undone_increment e).1.le
  | push i => exact (TaskStop.undone_of_push hs e).1.le
  | worker => exact piece_undone h hs (TaskSteps.piece_of_step e)
  | start =>
    obtain ⟨hw, rfl⟩ := TaskSteps.start_some e
    simp [undone, later, hw]
  | stop =>
    obtain ⟨-, rfl⟩ := TaskSteps.stop_some e
    simp [undone, later]
  | clock t =>
    obtain ⟨-, rfl⟩ := TaskSteps.clock_some e
    simp [undone, later]

end Threads

/-! ### The threads of the group -/

/-- The undone tasks of the thread `k`. -/
def undoneAt (g : State Task) (k : ℕ) : ℕ := (g.threads_[k]?.map undone).getD 0

/-- The undone tasks of all threads. -/
def total (g : State Task) : ℕ := ∑ k ∈ Finset.range g.num, undoneAt g k

/-- The thread that an increment of `add` is one of, if the step is one. -/
def increments (g : State Task) : Act Task → Option ℕ
  | .go c =>
    match g.calls[c]? with
    | some (some (.add _ k)) => some k
    | _ => none
  | _ => none

lemma undoneAt_some {k : ℕ} {s : TaskModel.State} (h : g.threads_[k]? = some s) :
    undoneAt g k = undone s := by
  simp [undoneAt, h]

lemma undoneAt_works (h : Inv g) {k : ℕ} {b : TaskModel.Act} {s s' : TaskModel.State}
    (hw : Works g k b s s') (j : ℕ) :
    (((g.threads_.set k s')[j]?).map undone).getD 0 ≤
      undoneAt g j + if TaskStop.isIncrement b ∧ k = j then 1 else 0 := by
  have hlt := (List.getElem?_eq_some_iff.mp hw.before).1
  by_cases hkj : k = j
  · subst hkj
    obtain ⟨tasks, ht⟩ : ∃ tasks, g.group.threads_[k]? = some tasks :=
      ⟨_, List.getElem?_eq_getElem (h.length ▸ hlt)⟩
    have hs := h.serves k tasks s ht hw.before
    have hle := undone_step hs.counted hs.once.shape hw.piece
    rw [List.getElem?_set_self hlt, undoneAt_some hw.before]
    simpa using hle
  · rw [List.getElem?_set_ne hkj, if_neg (fun hand => hkj hand.2)]
    exact le_rfl

lemma undoneAt_step (h : Inv g) (e : step g a = some g') (j : ℕ) :
    undoneAt g' j ≤ undoneAt g j + if increments g a = some j then 1 else 0 := by
  cases piece_of_step e with
  | begins hc hb => exact Nat.le_add_right _ _
  | turns hc ht => exact Nat.le_add_right _ _
  | drives hc hd hw =>
    refine (undoneAt_works h hw j).trans (Nat.add_le_add_left ?_ _)
    cases hd with
    | increment => simp [increments, hc, TaskStop.isIncrement]
    | _ => simp [TaskStop.isIncrement]
  | pushes hc hw =>
    refine (undoneAt_works h hw j).trans (Nat.add_le_add_left ?_ _)
    simp [TaskStop.isIncrement]
  | alone hb hw =>
    refine (undoneAt_works h hw j).trans (Nat.add_le_add_left ?_ _)
    rcases hb with ⟨rfl, -⟩ | ⟨t, rfl, -⟩ <;> simp [TaskStop.isIncrement]

lemma group_step (e : step g a = some g') :
    g'.group.numOfThread_ = g.group.numOfThread_ ∧ g'.group.strategy_ = g.group.strategy_ := by
  cases piece_of_step e <;> exact ⟨rfl, rfl⟩

/-! ### The sum -/

section Sum

variable (c : ℕ) (U : ℕ → ℕ)

/-- A call that has added the counts of the first `i` of `n` threads up to `ret`. -/
def Sums (n i : ℕ) (ret : UInt64) (call : Option (Call Task)) : Prop :=
  call = some (.sum i ret) ∨ i = n ∧ call = some (.returned ret)

/-- `ret` is the sum of numbers that are near the undone tasks of the first `i` threads, of which
there were `U` first, with the increments of `seen` since. -/
def Near (g : State Task) (seen : List ℕ) (i : ℕ) (ret : UInt64) : Prop :=
  ∃ r : ℕ → ℕ, ret = UInt64.ofNat (∑ k ∈ Finset.range i, r k) ∧
    ∀ k < i, r k ≤ U k + seen.count k ∧ undoneAt g k ≤ r k + seen.count k

structure Summing (n : ℕ) (g : State Task) (seen : List ℕ) : Prop where
  inv : Inv g
  num : g.num = n
  undone : ∀ k, undoneAt g k ≤ U k + seen.count k
  sum : ∀ i ret call, g.calls[c]? = some call → Sums n i ret call → i ≤ n ∧ Near U g seen i ret

variable {c U}

lemma count_append (seen : List ℕ) (o : Option ℕ) (k : ℕ) :
    (seen ++ o.toList).count k = seen.count k + if o = some k then 1 else 0 := by
  cases o with
  | none => simp
  | some j =>
    rw [List.count_append, Option.toList_some, List.count_singleton]
    simp

lemma Near.step {seen : List ℕ} {i : ℕ} {ret : UInt64} (hn : Near U g seen i ret) (h : Inv g)
    (e : step g a = some g') : Near U g' (seen ++ (increments g a).toList) i ret := by
  obtain ⟨r, hr, hle⟩ := hn
  refine ⟨r, hr, fun k hk => ?_⟩
  have hstep := undoneAt_step h e k
  rw [count_append]
  have := hle k hk
  omega

lemma Summing.call {n : ℕ} {seen : List ℕ} (h : Summing c U n g seen) (e : step g a = some g')
    {c' : ℕ} {new : Option (Call Task)} (hset : g'.calls = g.calls.set c' new)
    (hnew : c' = c → ∀ i ret, ¬ Sums n i ret new) :
    ∀ i ret call, g'.calls[c]? = some call → Sums n i ret call →
      i ≤ n ∧ Near U g' (seen ++ (increments g a).toList) i ret := by
  intro i ret call hc hs
  rw [hset] at hc
  rcases getElem?_set_some hc with ⟨hcc, rfl⟩ | ⟨-, hc⟩
  · exact absurd hs (hnew hcc.symm i ret)
  · obtain ⟨hi, hn⟩ := h.sum i ret call hc hs
    exact ⟨hi, hn.step h.inv e⟩

/-- The next count is read. -/
lemma Summing.read {n : ℕ} {seen : List ℕ} (h : Summing c U n g seen) {j : ℕ} {ret : UInt64}
    (hj : j < g.num) {s : TaskModel.State} (hs : g.threads_[j]? = some s)
    (hn : Near U g seen j ret) : Near U g seen (j + 1) (ret + s.numOfUndoneTask_) := by
  obtain ⟨r, rfl, hle⟩ := hn
  have hlt := (List.getElem?_eq_some_iff.mp hs).1
  obtain ⟨tasks, ht⟩ : ∃ tasks, g.group.threads_[j]? = some tasks :=
    ⟨_, List.getElem?_eq_getElem (h.inv.length ▸ hlt)⟩
  have hcount := (h.inv.serves j tasks s ht hs).counted.count
  refine ⟨Function.update r j (undoneAt g j), ?_, fun k hk => ?_⟩
  · have hsum : ∑ k ∈ Finset.range j, Function.update r j (undoneAt g j) k =
        ∑ k ∈ Finset.range j, r k := Finset.sum_congr rfl fun k hk =>
      Function.update_of_ne (Finset.mem_range.mp hk).ne _ _
    rw [Finset.sum_range_succ, hsum, Function.update_self, undoneAt_some hs, UInt64.ofNat_add,
      hcount]
  · rcases Nat.lt_succ_iff_lt_or_eq.mp hk with hk | rfl
    · rw [Function.update_of_ne hk.ne]
      exact hle k hk
    · rw [Function.update_self]
      exact ⟨h.undone k, Nat.le_add_right _ _⟩

/-- **A step while the sum is being made.** -/
theorem Summing.step {n : ℕ} {seen : List ℕ} (h : Summing c U n g seen)
    (hok : a ≠ .numOfUndoneTask c) (e : step g a = some g') :
    Summing c U n g' (seen ++ (increments g a).toList) := by
  have hinv := h.inv.step e
  have hnum : g'.num = n := by
    rw [State.num, (group_step e).1]
    exact h.num
  have hundone (k : ℕ) : undoneAt g' k ≤ U k + (seen ++ (increments g a).toList).count k := by
    rw [count_append]
    have h₁ := undoneAt_step h.inv e k
    have h₂ := h.undone k
    omega
  refine ⟨hinv, hnum, hundone, ?_⟩
  cases piece_of_step e with
  | @begins c' t _ call i hc hb =>
    refine h.call e rfl fun _ j ret => ?_
    cases hb <;> simp [Sums]
  | @turns c' _ old new hc ht =>
    by_cases hcc : c' = c
    · subst hcc
      cases ht with
      | sum => exact absurd rfl hok
      | @summed j ret hj =>
        obtain ⟨hjn, hn⟩ := h.sum j ret _ hc (Or.inl rfl)
        obtain rfl : j = n := hjn.antisymm (h.num ▸ hj)
        intro i ret' call hc' hs
        rcases getElem?_set_some hc' with ⟨-, rfl⟩ | ⟨hne, -⟩
        · obtain ⟨rfl, hret⟩ : i = j ∧ ret = ret' := by simpa [Sums] using hs
          exact ⟨le_rfl, hret ▸ hn.step h.inv e⟩
        · exact absurd rfl hne
      | @read j ret hj s hs =>
        obtain ⟨hjn, hn⟩ := h.sum j ret _ hc (Or.inl rfl)
        intro i ret' call hc' hs'
        rcases getElem?_set_some hc' with ⟨-, rfl⟩ | ⟨hne, -⟩
        · obtain ⟨rfl, rfl⟩ : j + 1 = i ∧ ret + s.numOfUndoneTask_ = ret' := by
            simpa [Sums] using hs'
          exact ⟨h.num ▸ hj, (h.read hj hs hn).step h.inv e⟩
        · exact absurd rfl hne
      | scan hi hs =>
        refine h.call e rfl fun _ j ret => ?_
        split_ifs <;> simp [Sums]
      | _ => exact h.call e rfl fun _ j ret => by simp [Sums]
    · exact h.call e rfl fun hcc' => absurd hcc' hcc
  | @drives c' k b s s' old new hc hd hw =>
    refine h.call e rfl fun _ j ret => ?_
    cases hd <;> simp [Sums]
  | pushes hc hw => exact h.call e rfl fun _ j ret => by simp [Sums]
  | alone hb hw =>
    intro i ret call hc hs
    obtain ⟨hi, hn⟩ := h.sum i ret call hc hs
    exact ⟨hi, hn.step h.inv e⟩

lemma sum_count_le (n : ℕ) (l : List ℕ) : ∑ k ∈ Finset.range n, l.count k ≤ l.length := by
  induction l with
  | nil => simp
  | cons j l ih =>
    have hone : ∑ k ∈ Finset.range n, (if j = k then 1 else 0) ≤ 1 := by
      rw [Finset.sum_ite_eq]
      split_ifs <;> omega
    simp only [List.count_cons, beq_iff_eq, Finset.sum_add_distrib, List.length_cons]
    omega

lemma result_some {ret : UInt64} (h : g.result c = some ret) :
    g.calls[c]? = some (some (.returned ret)) := by
  unfold State.result at h
  split at h
  · next hc =>
    cases h
    exact hc
  · cases h

lemma summing_first (h : Inv g) {g₁ : State Task} (e : step g (.numOfUndoneTask c) = some g₁) :
    Summing c (undoneAt g) g.num g₁ [] := by
  have hinv := h.step e
  simp only [step] at e
  split_ifs at e with hc
  cases e
  refine ⟨hinv, rfl, fun k => Nat.le_add_right _ _, fun i ret call hc' hs => ?_⟩
  rcases getElem?_set_some hc' with ⟨-, rfl⟩ | ⟨hne, -⟩
  · obtain ⟨rfl, rfl⟩ : 0 = i ∧ 0 = ret := by simpa [Sums] using hs
    exact ⟨Nat.zero_le _, fun _ => 0, rfl, fun k hk => absurd hk (Nat.not_lt_zero k)⟩
  · exact absurd rfl hne

/-- **The sum is off by the additions meanwhile.** Whatever the threads do while
`num_of_undone_task` reads their counts, what it returns lies between the numbers of undone tasks
when it returns and when it was called, up to the number of tasks added in between. -/
theorem num_of_undone_task_near {n : UInt32} {strategy : GroupModel.InnerDispatchStrategy}
    {callers : ℕ} {acts rest : List (Act Task)} {g₁ : State Task} {ret : UInt64}
    (e : run n strategy callers acts = some g)
    (hcall : step g (.numOfUndoneTask c) = some g₁) (e' : Runs.exec step g₁ rest = some g')
    (hone : .numOfUndoneTask c ∉ rest) (hret : g'.result c = some ret) :
    ∃ m, ret = UInt64.ofNat m ∧
      m ≤ total g + (Runs.observe step increments g₁ rest).length ∧
      total g' ≤ m + (Runs.observe step increments g₁ rest).length := by
  have hok : Runs.Along step (fun _ a => a ≠ .numOfUndoneTask c) g₁ rest :=
    Runs.along_of_forall fun a ha => fun hac => hone (hac ▸ ha)
  have hlast : Summing c (undoneAt g) g.num g' ([] ++ Runs.observe step increments g₁ rest) :=
    Runs.exec_observe (P := Summing c (undoneAt g) g.num)
      (fun g a g' seen h hok e₁ => h.step hok e₁) (summing_first (run_inv e) hcall) hok e'
  rw [List.nil_append] at hlast
  obtain ⟨-, r, hr, hle⟩ := hlast.sum g.num ret _ (result_some hret) (Or.inr ⟨rfl, rfl⟩)
  have hcount := sum_count_le g.num (Runs.observe step increments g₁ rest)
  refine ⟨_, hr, ?_, ?_⟩
  · calc ∑ k ∈ Finset.range g.num, r k
        ≤ ∑ k ∈ Finset.range g.num,
            (undoneAt g k + (Runs.observe step increments g₁ rest).count k) :=
          Finset.sum_le_sum fun k hk => (hle k (Finset.mem_range.mp hk)).1
      _ ≤ total g + (Runs.observe step increments g₁ rest).length := by
          rw [Finset.sum_add_distrib]
          exact Nat.add_le_add_left hcount _
  · calc total g'
        ≤ ∑ k ∈ Finset.range g.num,
            (r k + (Runs.observe step increments g₁ rest).count k) := by
          rw [total, hlast.num]
          exact Finset.sum_le_sum fun k hk => (hle k (Finset.mem_range.mp hk)).2
      _ ≤ _ := by
          rw [Finset.sum_add_distrib]
          exact Nat.add_le_add_left hcount _

/-- A task is added and another one executed while the counts of two threads are read. -/
abbrev busy : List (Act ℕ) :=
  [.go 0, .addAt 1 8 0, .go 1, .go 1, .go 0, .worker 0, .worker 0, .go 0]

theorem num_of_undone_task_near_busy :
    ∃ g g₁ g', run 2 .roundRobin 2 [.start 0, .go 0, .go 0, .go 0, .addAt 0 7 1, .go 0, .go 0] =
        some g ∧ step g (.numOfUndoneTask 0) = some g₁ ∧ Runs.exec step g₁ busy = some g' ∧
      .numOfUndoneTask 0 ∉ busy ∧ g'.result 0 = some 1 ∧
      ∃ m, (1 : UInt64) = UInt64.ofNat m ∧
        m ≤ total g + (Runs.observe step increments g₁ busy).length ∧
        total g' ≤ m + (Runs.observe step increments g₁ busy).length := by
  have h : ((run 2 .roundRobin 2 [.start 0, .go 0, .go 0, .go 0, .addAt 0 7 1, .go 0,
      .go 0]).bind fun g => (step g (.numOfUndoneTask 0)).bind fun g₁ =>
        (Runs.exec step g₁ busy).bind fun g' => g'.result 0) = some 1 := by decide
  obtain ⟨g, e, h⟩ := Option.bind_eq_some_iff.mp h
  obtain ⟨g₁, e₁, h⟩ := Option.bind_eq_some_iff.mp h
  obtain ⟨g', e', hret⟩ := Option.bind_eq_some_iff.mp h
  have hone : Act.numOfUndoneTask 0 ∉ busy := by simp [busy]
  exact ⟨g, g₁, g', e, e₁, e', hone, hret, num_of_undone_task_near e e₁ e' hone hret⟩

end Sum

/-! ### The idle thread -/

section Idle

variable (c : ℕ) (N : UInt32)

/-- The states that a run passes on its way. -/
def passed (g : State Task) (acts : List (Act Task)) : List (State Task) :=
  Runs.observe step (fun g _ => some g) g acts

/-- The choice among the first `i` threads. -/
def minTo (undone : ℕ → UInt64) (i : ℕ) : ℕ × UInt32 :=
  (List.range' 1 (i - 1)).foldl
    (fun m j => if (undone j).toUInt32 < m.2 then (j, (undone j).toUInt32) else m)
    (0, (undone 0).toUInt32)

/-- The counts of the first `i` threads, each of a state that was passed. -/
def Read (seen : List (State Task)) (i : ℕ) (undone : ℕ → UInt64) : Prop :=
  ∀ j < i, ∃ g₂ ∈ seen, g₂.count j = some (undone j)

/-- The first of `n` threads with the fewest tasks. -/
structure FirstFewest (undone : ℕ → UInt32) (n k : ℕ) : Prop where
  lt : k < n
  least : ∀ i < n, undone k ≤ undone i
  first : ∀ i < k, undone k < undone i

/-- What a call of `add` has found out so far. -/
def Found (seen : List (State Task)) : Call Task → Prop
  | .scan _ i m u => 1 ≤ i ∧ i - 1 ≤ N.toNat - 1 ∧
    ∃ undone, Read seen i undone ∧ minTo undone i = (m, u)
  | .add _ k => ∃ undone, Read seen N.toNat undone ∧
    FirstFewest (fun j => (undone j).toUInt32) N.toNat k
  | _ => True

structure Choosing (g : State Task) (seen : List (State Task)) : Prop where
  num : g.group.numOfThread_ = N
  found : ∀ call, g.calls[c]? = some (some call) → Found N seen call

variable {c N}

lemma minTo_congr {undone undone' : ℕ → UInt64} {i : ℕ} (hi : 1 ≤ i)
    (h : ∀ j < i, undone j = undone' j) : minTo undone i = minTo undone' i := by
  unfold minTo
  rw [h 0 hi]
  refine List.foldl_ext _ _ _ fun m j hj => ?_
  have hlt := (List.mem_range'_1.mp hj).2
  rw [h j (by omega)]

lemma minTo_succ {undone : ℕ → UInt64} {i : ℕ} (hi : 1 ≤ i) :
    minTo undone (i + 1) = if (undone i).toUInt32 < (minTo undone i).2 then
      (i, (undone i).toUInt32) else minTo undone i := by
  obtain ⟨j, rfl⟩ : ∃ j, i = j + 1 := ⟨i - 1, by omega⟩
  simp only [minTo, Nat.add_sub_cancel, List.range'_1_concat, List.foldl_append,
    List.foldl_cons, List.foldl_nil, Nat.add_comm 1 j]

/-- The choice is the first one with the fewest. -/
lemma minTo_spec (undone : ℕ → UInt64) {i : ℕ} (hi : 1 ≤ i) :
    FirstFewest (fun j => (undone j).toUInt32) i (minTo undone i).1 ∧
      (minTo undone i).2 = (undone (minTo undone i).1).toUInt32 := by
  induction i, hi using Nat.le_induction with
  | base =>
    refine ⟨⟨Nat.zero_lt_one, fun j hj => ?_, fun j hj => absurd hj (Nat.not_lt_zero j)⟩, rfl⟩
    rw [Nat.lt_one_iff.mp hj]
    exact UInt32.le_refl _
  | succ i hi ih =>
    obtain ⟨⟨hlt, hleast, hfirst⟩, hu⟩ := ih
    rw [minTo_succ hi, hu]
    split_ifs with hless
    · refine ⟨⟨Nat.lt_succ_self i, fun j hj => ?_, fun j hj => ?_⟩, rfl⟩
      · rcases Nat.lt_succ_iff_lt_or_eq.mp hj with hj | rfl
        · exact UInt32.le_trans (UInt32.le_of_lt hless) (hleast j hj)
        · exact UInt32.le_refl _
      · exact UInt32.lt_of_lt_of_le hless (hleast j hj)
    · refine ⟨⟨Nat.lt_succ_of_lt hlt, fun j hj => ?_, hfirst⟩, hu⟩
      rcases Nat.lt_succ_iff_lt_or_eq.mp hj with hj | rfl
      · exact hleast j hj
      · exact UInt32.not_lt.mp hless

lemma Read.mono {seen : List (State Task)} {i : ℕ} {undone : ℕ → UInt64}
    (h : Read seen i undone) (g : State Task) : Read (seen ++ [g]) i undone := by
  intro j hj
  obtain ⟨g₂, hg₂, hc⟩ := h j hj
  exact ⟨g₂, List.mem_append_left _ hg₂, hc⟩

lemma Found.mono {seen : List (State Task)} {call : Call Task} (h : Found N seen call)
    (g : State Task) : Found N (seen ++ [g]) call := by
  cases call with
  | scan t i m u =>
    obtain ⟨h1, hle, undone, hr, hm⟩ := h
    exact ⟨h1, hle, undone, hr.mono g, hm⟩
  | add t k =>
    obtain ⟨undone, hr, hk⟩ := h
    exact ⟨undone, hr.mono g, hk⟩
  | _ => trivial

/-- The next count is compared. -/
lemma Found.scan {seen : List (State Task)} {t : Task} {i m : ℕ} {u : UInt32}
    (h : Found N seen (.scan t i m u)) (hN : g.group.numOfThread_ = N) (hi : i < g.num)
    {s : TaskModel.State} (hs : g.threads_[i]? = some s) :
    Found N (seen ++ [g]) (if s.numOfUndoneTask_.toUInt32 < u then
      .scan t (i + 1) i s.numOfUndoneTask_.toUInt32 else .scan t (i + 1) m u) := by
  obtain ⟨h1, hle, undone, hr, hm⟩ := h
  have hiN : i < N.toNat := hN ▸ hi
  have hread : Read (seen ++ [g]) (i + 1) (Function.update undone i s.numOfUndoneTask_) := by
    intro j hj
    rcases Nat.lt_succ_iff_lt_or_eq.mp hj with hj | rfl
    · rw [Function.update_of_ne hj.ne]
      exact hr.mono g j hj
    · rw [Function.update_self]
      exact ⟨g, List.mem_append_right _ (List.mem_singleton_self g), by simp [State.count, hs]⟩
  have hold : minTo (Function.update undone i s.numOfUndoneTask_) i = (m, u) := by
    rw [← hm]
    exact minTo_congr h1 fun j hj => Function.update_of_ne hj.ne _ _
  have hnew : minTo (Function.update undone i s.numOfUndoneTask_) (i + 1) = _ := minTo_succ h1
  rw [hold, Function.update_self] at hnew
  split_ifs with hlt
  · rw [if_pos hlt] at hnew
    exact ⟨by omega, by omega, _, hread, hnew⟩
  · rw [if_neg hlt] at hnew
    exact ⟨by omega, by omega, _, hread, hnew⟩

/-- The choice is made. -/
lemma Found.choose {seen : List (State Task)} {t : Task} {i m k : ℕ} {u : UInt32}
    (h : Found N seen (.scan t i m u)) (hN : g.group.numOfThread_ = N) (hi : g.num ≤ i)
    (hk : GroupModel.thread g.group (UInt32.ofNat m) = some k) :
    Found N (seen ++ [g]) (.add t k) := by
  obtain ⟨h1, hle, undone, hr, hm⟩ := h
  have hiN : N.toNat ≤ i := hN ▸ hi
  unfold GroupModel.thread at hk
  rw [hN] at hk
  split_ifs at hk with h0
  have hpos : 0 < N.toNat := Nat.pos_of_ne_zero fun hz => h0 (UInt32.toNat_inj.mp hz)
  obtain rfl : i = N.toNat := by omega
  obtain ⟨hfewest, -⟩ := minTo_spec undone h1
  rw [hm] at hfewest
  -- the index is that of a thread, so that the remainder is the index
  have hlt := hfewest.lt
  have hk' : m = k := by
    rw [← Option.some.inj hk, UInt32.toNat_mod, UInt32.toNat_ofNat_of_lt' (hlt.trans N.toNat_lt),
      Nat.mod_eq_of_lt hlt]
  exact ⟨undone, hr.mono g, hk' ▸ hfewest⟩

/-- A thread that is in a call does not begin another one. -/
def Stays (c : ℕ) : Act Task → Prop
  | .add c' _ _ | .addAt c' _ _ => c' ≠ c
  | _ => True

/-- **A step while the thread is being chosen.** -/
theorem Choosing.step {seen : List (State Task)} (h : Choosing c N g seen) (hok : Stays c a)
    (e : step g a = some g') : Choosing c N g' (seen ++ [g]) := by
  refine ⟨(group_step e).1.trans h.num, fun call hcall => ?_⟩
  have hother (hc : g.calls[c]? = some (some call)) : Found N (seen ++ [g]) call :=
    (h.found call hc).mono g
  cases piece_of_step e with
  | @begins c' t _ call' i hc hb =>
    rcases getElem?_set_some hcall with ⟨rfl, -⟩ | ⟨-, hc⟩
    · cases hb <;> exact absurd rfl hok
    · exact hother hc
  | @turns c' _ old new hc ht =>
    rcases getElem?_set_some hcall with ⟨rfl, hnew⟩ | ⟨-, hc⟩
    · cases ht with
      | scan hi hs =>
        cases hnew
        exact (h.found _ hc).scan h.num hi hs
      | choose hi hk =>
        cases hnew
        exact (h.found _ hc).choose h.num hi hk
      | _ => cases hnew <;> trivial
    · exact hother hc
  | @drives c' k b s s' old new hc hd hw =>
    rcases getElem?_set_some hcall with ⟨rfl, hnew⟩ | ⟨-, hc⟩
    · cases hd <;> cases hnew <;> trivial
    · exact hother hc
  | pushes hc hw =>
    rcases getElem?_set_some hcall with ⟨-, hnew⟩ | ⟨-, hc⟩
    · cases hnew
    · exact hother hc
  | alone hb hw => exact hother hcall

lemma choosing_first (hs : g.group.strategy_ = .idle) {t : Task} {rand : Int32} {g₁ : State Task}
    (e : step g (.add c t rand) = some g₁) : Choosing c g.group.numOfThread_ g₁ [g] := by
  cases piece_of_step e with
  | begins hc hb =>
    refine ⟨rfl, fun call hcall => ?_⟩
    cases hb with
    | @idle rand _ s h0 =>
      rcases getElem?_set_some hcall with ⟨-, hnew⟩ | ⟨hne, -⟩
      · cases hnew
        refine ⟨le_rfl, Nat.zero_le _, fun _ => s.numOfUndoneTask_, fun j hj => ?_, rfl⟩
        obtain rfl : j = 0 := Nat.lt_one_iff.mp hj
        exact ⟨g, List.mem_singleton_self g, by simp [State.count, h0]⟩
      · exact absurd rfl hne
    | roundRobin hs' => rw [hs] at hs'; cases hs'
    | random hs' => rw [hs] at hs'; cases hs'
  | turns hc ht => cases ht
  | alone hb hw => rcases hb with ⟨-, hb⟩ | ⟨t, -, hb⟩ <;> cases hb

lemma chosen_some {k : ℕ} (h : g.chosen c = some k) :
    ∃ t, g.calls[c]? = some (some (.add t k)) := by
  unfold State.chosen at h
  split at h
  · next t k hc =>
    cases h
    exact ⟨t, hc⟩
  · cases h

/-- **The idle thread has the fewest tasks.** With the idle strategy, whatever the threads do
while `add` looks for a thread, it chooses the first one with the fewest undone tasks among
counts that the threads had in the course of the call. -/
theorem idle_has_fewest (hs : g.group.strategy_ = .idle) {t : Task} {rand : Int32}
    {g₁ : State Task} {rest : List (Act Task)} {k : ℕ}
    (hcall : step g (.add c t rand) = some g₁) (e' : Runs.exec step g₁ rest = some g')
    (hone : ∀ a ∈ rest, Stays c a) (hret : g'.chosen c = some k) :
    ∃ undone : ℕ → UInt64, FirstFewest (fun i => (undone i).toUInt32) g.num k ∧
      ∀ i < g.num, ∃ g₂ ∈ passed g (.add c t rand :: rest), g₂.count i = some (undone i) := by
  have hok : Runs.Along step (fun _ a => Stays c a) g₁ rest := Runs.along_of_forall hone
  have hstep (N : UInt32) (g : State Task) (a : Act Task) (g' : State Task)
      (seen : List (State Task)) (h : Choosing c N g seen) (hok : Stays c a)
      (e₁ : step g a = some g') : Choosing c N g' (seen ++ (some g).toList) := h.step hok e₁
  have hlast : Choosing c g.group.numOfThread_ g' ([g] ++ passed g₁ rest) :=
    Runs.exec_observe (hstep _) (choosing_first hs hcall) hok e'
  obtain ⟨t', hc⟩ := chosen_some hret
  obtain ⟨undone, hread, hk⟩ := hlast.found _ hc
  refine ⟨undone, hk, fun i hi => ?_⟩
  rw [passed, Runs.observe, hcall]
  exact hread i hi

/-- The first thread has two tasks when its count is read and none when the choice is made. -/
abbrev late : List (Act ℕ) := List.replicate 12 (.worker 0) ++ [.go 1, .go 1]

theorem idle_has_fewest_late :
    ∃ g g₁ g', run 2 .idle 2 [.start 0, .go 0, .go 0, .go 0, .addAt 0 7 0, .go 0, .go 0,
        .addAt 0 8 0, .go 0, .go 0] = some g ∧ g.group.strategy_ = .idle ∧
      step g (.add 1 9 0) = some g₁ ∧ Runs.exec step g₁ late = some g' ∧
      (∀ a ∈ late, Stays 1 a) ∧ g'.chosen 1 = some 1 ∧
      ∃ undone : ℕ → UInt64, FirstFewest (fun i => (undone i).toUInt32) g.num 1 ∧
        ∀ i < g.num, ∃ g₂ ∈ passed g (.add 1 9 0 :: late), g₂.count i = some (undone i) := by
  have h : ((run 2 .idle 2 [.start 0, .go 0, .go 0, .go 0, .addAt 0 7 0, .go 0, .go 0,
      .addAt 0 8 0, .go 0, .go 0]).bind fun g => (step g (.add 1 9 0)).bind fun g₁ =>
        (Runs.exec step g₁ late).bind fun g' =>
          if g.group.strategy_ = .idle then g'.chosen 1 else none) = some 1 := by decide
  obtain ⟨g, e, h⟩ := Option.bind_eq_some_iff.mp h
  obtain ⟨g₁, e₁, h⟩ := Option.bind_eq_some_iff.mp h
  obtain ⟨g', e', h⟩ := Option.bind_eq_some_iff.mp h
  split_ifs at h with hs
  have hone : ∀ a ∈ late, Stays 1 a := by simp [late, Stays]
  exact ⟨g, g₁, g', e, hs, e₁, e', hone, h, idle_has_fewest hs e₁ e' hone h⟩

end Idle

end Libchef.GroupCounts
