import Libchef.WeightFair

/-!
The total weight of a weight selector.

It is kept modulo `2 ^ 32`, through additions and choices alike, so it is the sum of the
weights as long as that sum is a `uint32_t` itself.
-/

namespace Libchef.WeightTotal

open Libchef.Ordered Libchef.WeightModel Libchef.WeightFair

variable {T : Type} [LinearOrder T] {ws ws' : WeightSelector T} {ops : List (Op T)}

/-- The weights in `item2weight_initial_` together. -/
def sum (ws : WeightSelector T) : ℤ := (ws.item2weightInitial_.entries.map Prod.snd).sum

/-- `choice_one` returns false. -/
def ReturnsFalse (ws : WeightSelector T) : Prop := ∃ ws', choiceOne ws = some (none, ws')

/-- The total is the sum of the weights, and no choice is made just where they are all zero. -/
structure TotalTrue (ws : WeightSelector T) : Prop where
  total : (ws.totalWeight_ : ℤ) = sum ws
  false_iff : ReturnsFalse ws ↔ ∀ e ∈ ws.item2weightInitial_.entries, e.2 = 0

/-- The additions of a run. -/
def adds : List (Op T) → List (T × UInt32)
  | [] => []
  | .add item weight :: ops => (item, weight) :: adds ops
  | .choiceOne :: ops => adds ops

lemma returnsFalse_iff : ReturnsFalse ws ↔ ws.totalWeight_ = 0 := by
  unfold ReturnsFalse choiceOne
  split_ifs with h
  · exact iff_of_true ⟨ws, rfl⟩ h
  · refine iff_of_false ?_ h
    rintro ⟨ws', he⟩
    obtain ⟨iter, -, he⟩ := Option.bind_eq_some_iff.mp he
    cases he

lemma choiceOne_keeps {item : Option T} (h : choiceOne ws = some (item, ws')) :
    ws'.totalWeight_ = ws.totalWeight_ ∧ ws'.item2weightInitial_ = ws.item2weightInitial_ := by
  unfold choiceOne at h
  split_ifs at h
  · cases h
    exact ⟨rfl, rfl⟩
  · obtain ⟨iter, -, he⟩ := Option.bind_eq_some_iff.mp h
    cases he
    exact ⟨rfl, rfl⟩

/-- Choices do not matter to the weights and their total. -/
lemma exec_adds {b : WeightSelector T} (ht : ws.totalWeight_ = b.totalWeight_)
    (hi : ws.item2weightInitial_ = b.item2weightInitial_)
    (h : Runs.exec step ws ops = some ws') :
    ws'.totalWeight_ = ((adds ops).foldl (fun ws a => add ws a.1 a.2) b).totalWeight_ ∧
      ws'.item2weightInitial_ =
        ((adds ops).foldl (fun ws a => add ws a.1 a.2) b).item2weightInitial_ := by
  induction ops generalizing ws b with
  | nil =>
    cases h
    exact ⟨ht, hi⟩
  | cons op ops ih =>
    obtain ⟨ws₁, h₁, h⟩ := Runs.exec_cons_some.mp h
    cases op with
    | add item weight =>
      cases h₁
      exact ih (by simp only [add, ht, hi]) (by simp only [add, hi]) h
    | choiceOne =>
      obtain ⟨⟨item, ws₂⟩, hc, rfl⟩ := Option.map_eq_some_iff.mp h₁
      obtain ⟨ht₁, hi₁⟩ := choiceOne_keeps hc
      exact ih (ht₁.trans ht) (hi₁.trans hi) h

/-- **The weights after a run**, and the total modulo `2 ^ 32`. -/
theorem run_total (h : run ops = some ws) :
    ws.totalWeight_ = total (adds ops) % 2 ^ 32 ∧
      ws.item2weightInitial_ = (weights (adds ops)).mapVals fun _ w => (w : ℤ) := by
  obtain ⟨ht, hi⟩ := exec_adds rfl rfl h
  obtain ⟨hbt, hbi, -⟩ := build_eq (adds ops)
  exact ⟨ht.trans hbt, hi.trans hbi⟩

lemma sum_eq (h : run ops = some ws) : sum ws = total (adds ops) := by
  rw [sum, (run_total h).2, total, Nat.cast_list_sum, List.map_map]
  simp only [OrderedMap.mapVals, List.map_map]
  rfl

/-- **When the total is the true total**: if and only if the weights last added for the items
add up to less than `2 ^ 32`. -/
theorem totalTrue_iff (h : run ops = some ws) : TotalTrue ws ↔ total (adds ops) < 2 ^ 32 := by
  obtain ⟨ht, hi⟩ := run_total h
  have hsum := sum_eq h
  constructor
  · intro htrue
    have hmod : total (adds ops) % 2 ^ 32 < 2 ^ 32 := Nat.mod_lt _ (by decide)
    have := htrue.total
    omega
  · intro hlt
    rw [Nat.mod_eq_of_lt hlt] at ht
    refine ⟨by rw [ht, hsum], ?_⟩
    rw [returnsFalse_iff, ht, total, List.sum_eq_zero_iff, hi]
    simp only [OrderedMap.mapVals, List.forall_mem_map, Nat.cast_eq_zero]

/-- Two weights, the choice between them, and a weight that changes. -/
theorem totalTrue_iff_change :
    ∃ ws, run [.add 0 2, .add 1 3, .choiceOne, .add 0 4294967290] = some ws ∧
      (TotalTrue ws ↔ total (adds [.add 0 2, .add 1 3, .choiceOne, .add 0 4294967290]) < 2 ^ 32) :=
  ⟨_, rfl, totalTrue_iff (show run [Op.add 0 2, .add 1 3, .choiceOne, .add 0 4294967290] = some _
    from rfl)⟩

/-- Two weights that add up to `2 ^ 32`: the total is zero, and no choice is made. -/
theorem not_totalTrue :
    ∃ ws, run [.add 0 4294967295, .add 1 1] = some ws ∧ ReturnsFalse ws ∧ ¬ TotalTrue ws := by
  refine ⟨_, rfl, ⟨_, rfl⟩, fun h => ?_⟩
  have := h.total
  revert this
  decide

end Libchef.WeightTotal
