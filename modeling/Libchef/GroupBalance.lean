import Libchef.GroupModel
import Libchef.Base.Turns

/-!
Round-robin dispatch for any number of calls.

The index is a `uint32_t` that wraps around, and the thread is its remainder. The threads take
turns as long as it has not wrapped, and for ever where their number divides `2 ^ 32`. Elsewhere
the first threads have two turns more than the last ones as soon as it has.
-/

namespace Libchef.GroupBalance

open Libchef.GroupModel Libchef.Turns

variable {Task : Type} {n : UInt32} {g g' : ThreadGroup Task} {op : Op Task}

/-- What is seen of a call: the thread the task goes to, and whether the group chose it. -/
structure Dispatch (Task : Type) where
  thread : ℕ
  task : Task
  chosen : Bool

def dispatch (g : ThreadGroup Task) : Op Task → Option (Dispatch Task)
  | .add t rand undone => (thread g (index g rand undone)).map fun i => ⟨i, t, true⟩
  | .addAt t index => (thread g index).map fun i => ⟨i, t, false⟩

def dispatches (n : UInt32) (ops : List (Op Task)) : List (Dispatch Task) :=
  Runs.observe step dispatch (make n .roundRobin) ops

/-- The threads that the tasks added without an index go to. -/
def chosen (ds : List (Dispatch Task)) : List ℕ := (ds.filter Dispatch.chosen).map Dispatch.thread

/-- The tasks that go to a thread. -/
def tasksOf (ds : List (Dispatch Task)) (i : ℕ) : List Task :=
  (ds.filter (·.thread = i)).map Dispatch.task

/-- The call is one of `add` without an index. -/
def Op.unindexed : Op Task → Bool
  | .add _ _ _ => true
  | .addAt _ _ => false

/-! ### One call -/

structure Formed (n : UInt32) (g : ThreadGroup Task) : Prop where
  num : g.numOfThread_ = n
  strategy : g.strategy_ = .roundRobin
  length : g.threads_.length = n.toNat

/-- What a call does: the task goes to the thread, and the index moves on if it chose it. -/
structure Gives (n : UInt32) (g : ThreadGroup Task) (op : Op Task) (d : Dispatch Task)
    (g' : ThreadGroup Task) : Prop where
  formed : Formed n g'
  threads : g'.threads_ = g.threads_.modify d.thread (· ++ [d.task])
  chosen : d.chosen = Op.unindexed op
  turn : d.chosen = true → d.thread = g.roundRobinIndex_.toNat % n.toNat ∧
    g'.roundRobinIndex_ = g.roundRobinIndex_ + 1
  keep : d.chosen = false → g'.roundRobinIndex_ = g.roundRobinIndex_

lemma addAt_eq (hn : n ≠ 0) (h : Formed n g) (t : Task) (index : UInt32) :
    addAt g t index =
      some { g with threads_ := g.threads_.modify (index.toNat % n.toNat) (· ++ [t]) } := by
  have hlt : (index % n).toNat < g.threads_.length := by
    rw [h.length, UInt32.toNat_mod]
    exact Nat.mod_lt _ (Nat.pos_of_ne_zero fun h0 => hn (UInt32.toNat_inj.mp h0))
  rw [addAt, thread, h.num, if_neg hn, Option.bind_eq_bind, Option.bind_some, if_pos hlt,
    UInt32.toNat_mod]

/-- **A call.** -/
theorem step_gives (hn : n ≠ 0) (h : Formed n g) (op : Op Task) :
    ∃ d g', dispatch g op = some d ∧ step g op = some g' ∧ Gives n g op d g' := by
  cases op with
  | add t rand undone =>
    have hf : Formed n { g with roundRobinIndex_ := g.roundRobinIndex_ + 1 } :=
      ⟨h.num, h.strategy, h.length⟩
    have hs : step g (.add t rand undone) =
        addAt { g with roundRobinIndex_ := g.roundRobinIndex_ + 1 } t g.roundRobinIndex_ := by
      simp only [step, add, index, h.strategy]
    refine ⟨⟨g.roundRobinIndex_.toNat % n.toNat, t, true⟩, _, ?_, hs.trans (addAt_eq hn hf t _), ?_⟩
    · simp [dispatch, thread, index, h.strategy, h.num, hn, UInt32.toNat_mod]
    · exact ⟨⟨h.num, h.strategy, by rw [List.length_modify, h.length]⟩, rfl, rfl,
        fun _ => ⟨rfl, rfl⟩, fun hc => by cases hc⟩
  | addAt t index =>
    refine ⟨⟨index.toNat % n.toNat, t, false⟩, _, ?_, addAt_eq hn h t index, ?_⟩
    · simp [dispatch, thread, h.num, hn, UInt32.toNat_mod]
    · exact ⟨⟨h.num, h.strategy, by rw [List.length_modify, h.length]⟩, rfl, rfl,
        fun hc => (by cases hc), fun _ => rfl⟩

/-! ### Any number of calls -/

lemma chosen_cons (d : Dispatch Task) (ds : List (Dispatch Task)) :
    chosen (d :: ds) = if d.chosen then d.thread :: chosen ds else chosen ds := by
  unfold chosen
  rw [List.filter_cons]
  split_ifs <;> rfl

lemma tasksOf_snoc (ds : List (Dispatch Task)) (d : Dispatch Task) (i : ℕ) :
    tasksOf (ds ++ [d]) i =
      if d.thread = i then tasksOf ds i ++ [d.task] else tasksOf ds i := by
  unfold tasksOf
  rw [List.filter_append, List.map_append, List.filter_singleton]
  split_ifs <;> simp_all

lemma formed_make (n : UInt32) : Formed n (make n .roundRobin : ThreadGroup Task) :=
  ⟨rfl, rfl, List.length_replicate⟩

/-- The turns from any index on. -/
lemma chosen_observe (hn : n ≠ 0) (h : Formed n g) (ops : List (Op Task)) :
    chosen (Runs.observe step dispatch g ops) = (List.range (ops.countP Op.unindexed)).map
      fun k => (g.roundRobinIndex_.toNat + k) % 2 ^ 32 % n.toNat := by
  induction ops generalizing g with
  | nil => rfl
  | cons op ops ih =>
    obtain ⟨d, g', hd, hs, hg⟩ := step_gives hn h op
    have hrest := ih hg.formed
    rw [Runs.observe, hd, hs, Option.toList_some, List.singleton_append, chosen_cons, hrest]
    cases hc : Op.unindexed op with
    | true =>
      obtain ⟨ht, hi⟩ := hg.turn (hg.chosen.trans hc)
      rw [hg.chosen, hc, if_pos rfl, ht, List.countP_cons_of_pos hc, List.range_succ_eq_map,
        List.map_cons, List.map_map, hi, UInt32.toNat_add]
      congr 1
      · rw [Nat.add_zero, Nat.mod_eq_of_lt g.roundRobinIndex_.toNat_lt]
      · refine List.map_congr_left fun k _ => ?_
        rw [Function.comp_apply, Nat.mod_add_mod, Nat.succ_eq_add_one, Nat.add_assoc,
          Nat.add_comm k 1]
        rfl
    | false =>
      rw [hg.chosen, hc, if_neg Bool.false_ne_true, List.countP_cons_of_neg (by simp [hc]),
        hg.keep (hg.chosen.trans hc)]

lemma chosen_dispatches (hn : n ≠ 0) (ops : List (Op Task)) :
    chosen (dispatches n ops) = wrapped n.toNat (2 ^ 32) (ops.countP Op.unindexed) := by
  rw [dispatches, chosen_observe hn (formed_make n)]
  refine List.map_congr_left fun k _ => ?_
  show (0 + k) % _ % _ = _
  rw [Nat.zero_add]

/-- Every thread is given the tasks that go to it, in order. -/
lemma run_threads (hn : n ≠ 0) (ops : List (Op Task)) :
    ∃ g, run n .roundRobin ops = some g ∧
      ∀ i < n.toNat, g.threads_[i]? = some (tasksOf (dispatches n ops) i) := by
  have hmake : Formed n (make n .roundRobin : ThreadGroup Task) := formed_make n
  obtain ⟨g, he, -⟩ := Runs.exec_total (P := Formed n) (fun g op h => by
    obtain ⟨d, g', -, hs, hg⟩ := step_gives hn h op
    exact ⟨g', hs, hg.formed⟩) hmake ops
  have hobs : Formed n g ∧ ∀ i < n.toNat,
      g.threads_[i]? = some (tasksOf ([] ++ dispatches n ops) i) := Runs.exec_observe
    (P := fun g ds => Formed n g ∧ ∀ i < n.toNat, g.threads_[i]? = some (tasksOf ds i))
    (fun g op g' ds h _ hs => ?_)
    ⟨hmake, fun i hi => ?_⟩ (Runs.along_true _ ops) he
  · exact ⟨g, he, hobs.2⟩
  · obtain ⟨d, g₁, hd, hs₁, hg⟩ := step_gives hn h.1 op
    obtain rfl : g' = g₁ := Option.some.inj (hs.symm.trans hs₁)
    refine ⟨hg.formed, fun i hi => ?_⟩
    rw [hd, Option.toList_some, tasksOf_snoc, hg.threads, List.getElem?_modify, h.2 i hi]
    split_ifs <;> rfl
  · exact List.getElem?_replicate_of_lt hi

/-- The turns are in order, and no thread has had two more than another. -/
structure Fair (n : UInt32) (turns : List ℕ) : Prop where
  balanced : Balanced n.toNat turns
  cyclic : Cyclic n.toNat turns

/-- **When dispatch is fair.** The threads are given the tasks that go to them, and in the course
of any calls those that the group chooses take turns, so that no thread has two tasks more than
another, if and only if the number of threads divides `2 ^ 32` or the calls without an index are
`2 ^ 32` at most. -/
theorem fair_iff (hn : n ≠ 0) (ops : List (Op Task)) :
    (∃ g, run n .roundRobin ops = some g ∧
      ∀ i < n.toNat, g.threads_[i]? = some (tasksOf (dispatches n ops) i)) ∧
    ((∀ ops₁ ops₂, ops = ops₁ ++ ops₂ → Fair n (chosen (dispatches n ops₁))) ↔
      n.toNat ∣ 2 ^ 32 ∨ ops.countP Op.unindexed ≤ 2 ^ 32) := by
  refine ⟨run_threads hn ops, fun h => ?_, ?_⟩
  · by_contra hno
    push Not at hno
    refine not_cyclic_wrapped hno.1 (by norm_num) hno.2 ?_
    rw [← chosen_dispatches hn]
    exact (h ops [] (List.append_nil ops).symm).cyclic
  · rintro h ops₁ ops₂ rfl
    have hle : n.toNat ∣ 2 ^ 32 ∨ ops₁.countP Op.unindexed ≤ 2 ^ 32 := by
      refine h.imp_right fun hle => ?_
      rw [List.countP_append] at hle
      exact (Nat.le_add_right _ _).trans hle
    rw [chosen_dispatches hn, wrapped_eq_turns hle]
    exact ⟨balanced_turns, cyclic_turns⟩

/-- Two tasks with an index and without one. -/
theorem fair_iff_two :
    let ops : List (Op ℕ) := [.add 7 0 fun _ => 0, .addAt 8 5]
    (∃ g, run 3 .roundRobin ops = some g ∧
      ∀ i < (3 : UInt32).toNat, g.threads_[i]? = some (tasksOf (dispatches 3 ops) i)) ∧
    ((∀ ops₁ ops₂, ops = ops₁ ++ ops₂ → Fair 3 (chosen (dispatches 3 ops₁))) ↔
      (3 : UInt32).toNat ∣ 2 ^ 32 ∨ ops.countP Op.unindexed ≤ 2 ^ 32) :=
  fair_iff (by decide) _

/-- One call more than the index can count, for three threads. -/
theorem not_fair :
    let ops : List (Op ℕ) := List.replicate (2 ^ 32 + 1) (.add 0 0 fun _ => 0)
    ¬ Balanced 3 (chosen (dispatches 3 ops)) ∧ ¬ Cyclic 3 (chosen (dispatches 3 ops)) := by
  intro ops
  have hcount : ops.countP Op.unindexed = 2 ^ 32 + 1 := by
    rw [List.countP_replicate]
    exact if_pos rfl
  have hno : ¬ 3 ∣ 2 ^ 32 := by norm_num
  rw [chosen_dispatches (by decide), hcount]
  exact ⟨not_balanced_wrapped (by norm_num) hno, not_cyclic_wrapped hno (by norm_num) (by norm_num)⟩

end Libchef.GroupBalance
