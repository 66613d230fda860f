import Libchef.WeightTotal
import Libchef.Base.Cups

/-!
The search for the greatest current weight, in any history of additions and choices.

The search starts from a fixed value and leaves out what is not above it. Where the weights
change between choices, all current weights can come to lie below that value. They never go
far in either direction: one that is chosen is above the value, and a choice takes from the
fullest what it gives to all of them.
-/

namespace Libchef.WeightScan

open Libchef.Ordered Libchef.WeightModel Libchef.WeightFair Libchef.WeightTotal Libchef.Cups
open Libchef.Runs

variable {T : Type} [LinearOrder T] {ws ws' : WeightSelector T} {x y item : T} {weight : UInt32}

/-! ### The weights of an item -/

/-- The value the search starts from. -/
abbrev currentMax : ℤ := -0xFFFFFFF

/-- `item2weight_current_[x]`, for an item in the maps. -/
def current (ws : WeightSelector T) (x : T) : ℤ := (ws.item2weightCurrent_.get? x).getD 0

/-- The items that can be chosen at all. -/
def weighted (ws : WeightSelector T) : Finset T :=
  ws.item2weightInitial_.keys.toFinset.filter fun x => 0 < ws.initial x

lemma mem_weighted : x ∈ weighted ws ↔ 0 < ws.initial x := by
  rw [weighted, Finset.mem_filter, List.mem_toFinset, OrderedMap.mem_keys,
    and_iff_right_of_imp]
  intro h
  by_contra hn
  rw [Option.not_isSome_iff_eq_none] at hn
  rw [WeightSelector.initial, hn] at h
  exact lt_irrefl _ h

lemma initial_add : (add ws item weight).initial x =
    if x = item then (weight.toNat : ℤ) else ws.initial x := by
  simp only [WeightSelector.initial, add, OrderedMap.get?_insert]
  split_ifs <;> rfl

lemma current_add : current (add ws item weight) x =
    if x = item then (weight.toNat : ℤ) else current ws x := by
  simp only [current, add, OrderedMap.get?_insert]
  split_ifs <;> rfl

lemma sum_add : sum (add ws item weight) + ws.initial item = sum ws + weight.toNat :=
  sum_upsert ws.item2weightInitial_.asc

@[simp] lemma initial_rotate : (rotate ws item).initial x = ws.initial x := rfl

lemma current_rotate : current (rotate ws item) x =
    if (ws.item2weightCurrent_.get? x).isSome then
      int64 ((if x = item then int64 (current ws x - ws.totalWeight_) else current ws x) +
        ws.initial x)
    else 0 := by
  simp only [current, rotate, OrderedMap.get?_mapVals]
  cases ws.item2weightCurrent_.get? x <;> rfl

/-! ### How far the current weights go -/

/-- What holds of a weight selector as long as the weights add up to a `uint32_t`. -/
structure Inv (ws : WeightSelector T) : Prop where
  total : (ws.totalWeight_ : ℤ) = sum ws
  lt : sum ws < 2 ^ 32
  nonneg : ∀ x, 0 ≤ ws.initial x
  zero : ∀ x, ws.initial x = 0 → current ws x = 0
  gt : ∀ x, -2 ^ 33 < current ws x
  leveled : Leveled (2 ^ 32) (2 ^ 32) (weighted ws) (current ws)

lemma sum_weighted (h : ∀ x, 0 ≤ ws.initial x) : ∑ x ∈ weighted ws, ws.initial x = sum ws := by
  have hall : sum ws = ∑ x ∈ ws.item2weightInitial_.keys.toFinset, ws.initial x := by
    rw [List.sum_toFinset _ OrderedMap.nodup_keys, sum, OrderedMap.keys, List.map_map]
    refine congrArg List.sum (List.map_congr_left fun e he => ?_)
    simp [WeightSelector.initial, OrderedMap.get?_eq_some.mpr he]
  rw [hall, weighted]
  refine Finset.sum_filter_of_ne fun x _ hx => lt_of_le_of_ne (h x) (Ne.symm hx)

lemma card_weighted (h : ∀ x, 0 ≤ ws.initial x) : ((weighted ws).card : ℤ) ≤ sum ws := by
  rw [← sum_weighted h, Finset.card_eq_sum_ones, Nat.cast_sum]
  exact Finset.sum_le_sum fun x hx => by exact_mod_cast mem_weighted.mp hx

lemma Inv.card_le (h : ∀ x, 0 ≤ ws.initial x) (hlt : sum ws < 2 ^ 32) :
    (weighted ws).card ≤ 2 ^ 32 := by
  have := card_weighted h
  omega

lemma Inv.current_lt (h : Inv ws) (x : T) : current ws x < 2 ^ 40 := by
  rcases (h.nonneg x).lt_or_eq with hpos | h0
  · have := h.leveled.le (mem_weighted.mpr hpos) (n := 32) le_rfl
    norm_num at this
    omega
  · rw [h.zero x h0.symm]
    norm_num

lemma Inv.initial_le (h : Inv ws) (x : T) : ws.initial x ≤ ws.totalWeight_ := by
  rcases (h.nonneg x).lt_or_eq with hpos | h0
  · rw [h.total, ← sum_weighted h.nonneg]
    exact Finset.single_le_sum (f := ws.initial) (fun y _ => h.nonneg y) (mem_weighted.mpr hpos)
  · rw [← h0]
    positivity

lemma Inv.total_lt (h : Inv ws) : ws.totalWeight_ < 2 ^ 32 := by
  have h1 := h.total
  have h2 := h.lt
  omega

/-! ### A choice -/

/-- The item the search ends at. -/
structure Chosen (ws : WeightSelector T) (x : T) : Prop where
  pos : 0 < ws.initial x
  gt : currentMax < current ws x
  max : ∀ y, 0 < ws.initial y → current ws y ≤ current ws x

lemma mem_current (h : 0 < ws.initial x) : (x, current ws x) ∈ ws.item2weightCurrent_.entries := by
  have hsome : (ws.item2weightCurrent_.get? x).isSome := by
    rw [← ws.sameItems, ← OrderedMap.mem_keys]
    exact List.mem_toFinset.mp (Finset.mem_filter.mp (mem_weighted.mpr h)).1
  obtain ⟨v, hv⟩ := Option.isSome_iff_exists.mp hsome
  rw [← OrderedMap.get?_eq_some, current, hv]
  rfl

lemma choiceOne_cases (h0 : ws.totalWeight_ ≠ 0) :
    (choiceOne ws = none ∧ ∀ x, 0 < ws.initial x → current ws x ≤ currentMax) ∨
      ∃ x, choiceOne ws = some (some x, rotate ws x) ∧ Chosen ws x := by
  rw [choiceOne, if_neg h0]
  rcases scanMax_cases ws.initial ws.item2weightCurrent_.entries currentMax none with
    ⟨hs, hle⟩ | ⟨⟨x, v⟩, he, hs, hpos, hgt, hle⟩
  · exact Or.inl ⟨by rw [hs]; rfl, fun x hx => hle _ (mem_current hx) hx⟩
  · have hv : current ws x = v := by
      rw [current, OrderedMap.get?_eq_some.mpr he]
      rfl
    exact Or.inr ⟨x, by rw [hs]; rfl, hpos, hv ▸ hgt, fun y hy => hv ▸ hle _ (mem_current hy) hy⟩

/-- No value overflows. -/
lemma Inv.current_rotate (h : Inv ws) (hx : Chosen ws x) (y : T) :
    current (rotate ws x) y =
      current ws y + ws.initial y - if y = x then (ws.totalWeight_ : ℤ) else 0 := by
  rw [WeightScan.current_rotate]
  have hlow := h.gt y
  have hhigh := h.current_lt y
  have hpos := h.nonneg y
  have hle := h.initial_le y
  have htotal := h.total_lt
  split_ifs with hsome hyx hyx
  · rw [int64_eq (x := current ws y - _) (by omega) (by omega), int64_eq (by omega) (by omega)]
    ring
  · rw [int64_eq (by omega) (by omega), sub_zero]
  · -- the item chosen is in the maps
    rw [hyx] at hsome
    have := OrderedMap.get?_eq_some.mpr (mem_current hx.pos)
    rw [this] at hsome
    exact absurd rfl hsome
  · have hc : current ws y = 0 := by
      rw [current, Option.not_isSome_iff_eq_none.mp hsome]
      rfl
    have hi : ws.initial y = 0 := by
      rw [← ws.sameItems, Option.not_isSome_iff_eq_none] at hsome
      rw [WeightSelector.initial, hsome]
      rfl
    rw [hc, hi]
    rfl

/-! ### Every step keeps the bounds -/

lemma Inv.add (h : Inv ws) (hlt : sum (add ws item weight) < 2 ^ 32) :
    Inv (add ws item weight) := by
  have hsum : sum (WeightModel.add ws item weight) + ws.initial item = sum ws + weight.toNat :=
    sum_add
  have hnonneg : ∀ x, 0 ≤ (WeightModel.add ws item weight).initial x := fun x => by
    rw [initial_add]
    split_ifs
    · positivity
    · exact h.nonneg x
  have hpos : 0 ≤ sum (WeightModel.add ws item weight) := by
    rw [← sum_weighted hnonneg]
    exact Finset.sum_nonneg fun x _ => hnonneg x
  have hw : (weight.toNat : ℤ) < 2 ^ 32 := by exact_mod_cast weight.toNat_lt
  refine ⟨?_, hlt, hnonneg, fun x hx => ?_, fun x => ?_, ?_⟩
  · have huint {v : ℤ} (hv : v = sum (WeightModel.add ws item weight)) :
        (uint32 v : ℤ) = sum (WeightModel.add ws item weight) := by
      unfold uint32
      omega
    have htotal := h.total
    simp only [WeightModel.add]
    cases hg : ws.item2weightInitial_.get? item with
    | none =>
      have h0 : ws.initial item = 0 := by rw [WeightSelector.initial, hg]; rfl
      exact huint (by omega)
    | some old =>
      have h0 : ws.initial item = old := by rw [WeightSelector.initial, hg]; rfl
      exact huint (by omega)
  · rw [initial_add] at hx
    rw [current_add]
    split_ifs at hx ⊢
    · exact hx
    · exact h.zero x hx
  · rw [current_add]
    split_ifs
    · omega
    · exact h.gt x
  · refine h.leveled.set (x := item) (fun x hx => ?_) (Inv.card_le hnonneg hlt) ?_ fun x hne => ?_
    · rw [mem_weighted, initial_add] at hx
      rw [Finset.mem_insert, mem_weighted]
      split_ifs at hx with hxi
      · exact Or.inl hxi
      · exact Or.inr hx
    · rw [current_add, if_pos rfl]
      exact_mod_cast hw.le
    · rw [current_add, if_neg hne]

lemma Inv.rotate (h : Inv ws) (hx : Chosen ws x) : Inv (rotate ws x) := by
  refine ⟨h.total, h.lt, h.nonneg, fun y hy => ?_, fun y => ?_, ?_⟩
  · rw [initial_rotate] at hy
    have hne : y ≠ x := fun he => by
      have := hx.pos
      rw [he] at hy
      omega
    rw [h.current_rotate hx, if_neg hne, h.zero y hy, hy]
    rfl
  · have htotal := h.total_lt
    have hpos := h.nonneg y
    have hlow := h.gt y
    rw [h.current_rotate hx]
    split_ifs with hyx
    · have hgt : -0xFFFFFFF < current ws x := hx.gt
      rw [hyx] at hpos ⊢
      omega
    · omega
  · show Leveled _ _ (weighted ws) _
    have hsum := sum_weighted h.nonneg
    refine h.leveled.round (w := ws.initial) (mem_weighted.mpr hx.pos)
      (fun y hy => hx.max y (mem_weighted.mp hy)) (fun y _ => h.nonneg y) ?_ fun y _ => ?_
    · have := h.lt
      rw [hsum]
      exact_mod_cast this.le
    · rw [h.current_rotate hx, hsum, h.total]

/-! ### When the search finds an item -/

/-- `choice_one` returns true with an item of positive weight, unless the total is zero. -/
def Found (ws : WeightSelector T) : Prop :=
  ws.totalWeight_ ≠ 0 → ∃ x ws', choiceOne ws = some (some x, ws') ∧ 0 < ws.initial x

/-- The weights never add up to more than a `uint32_t`. -/
def Small (ws : WeightSelector T) : Op T → Prop
  | .add item weight => sum (add ws item weight) < 2 ^ 32
  | .choiceOne => True

instance (ws : WeightSelector T) : DecidablePred (Small ws)
  | .add item weight => inferInstanceAs (Decidable (sum (add ws item weight) < 2 ^ 32))
  | .choiceOne => .isTrue trivial

/-- An item may be given the weight zero only where all others have that weight or one of them
can be chosen; a choice may be made only where two items will be above the start of the search
once their weights are added, or one of them even with the total taken from it. -/
def Keeps (ws : WeightSelector T) : Op T → Prop
  | .add item weight => weight ≠ 0 ∨ (∀ x ≠ item, ws.initial x = 0) ∨
      ∃ x ≠ item, 0 < ws.initial x ∧ currentMax < current ws x
  | .choiceOne => ws.totalWeight_ = 0 ∨
      (∃ x y, x ≠ y ∧ (0 < ws.initial x ∧ currentMax < current ws x + ws.initial x) ∧
        0 < ws.initial y ∧ currentMax < current ws y + ws.initial y) ∨
      ∃ x, 0 < ws.initial x ∧ currentMax < current ws x + ws.initial x - ws.totalWeight_

lemma Inv.total_eq_zero (h : Inv ws) : ws.totalWeight_ = 0 ↔ ∀ x, ws.initial x = 0 := by
  constructor
  · intro h0 x
    have h1 := h.initial_le x
    have h2 := h.nonneg x
    omega
  · intro h0
    have htotal := h.total
    rw [← sum_weighted h.nonneg, Finset.sum_eq_zero fun x _ => h0 x] at htotal
    exact_mod_cast htotal

lemma found_iff (h : Inv ws) : Found ws ↔
    (∀ x, ws.initial x = 0) ∨ ∃ x, 0 < ws.initial x ∧ currentMax < current ws x := by
  rw [← h.total_eq_zero]
  by_cases h0 : ws.totalWeight_ = 0
  · exact iff_of_true (fun hne => absurd h0 hne) (Or.inl h0)
  rw [or_iff_right h0]
  rcases choiceOne_cases h0 with ⟨hnone, hle⟩ | ⟨x, hsome, hx⟩
  · refine iff_of_false (fun hf => ?_) fun ⟨x, hpos, hgt⟩ => absurd (hle x hpos) (not_le.mpr hgt)
    obtain ⟨x, ws', he, -⟩ := hf h0
    rw [hnone] at he
    cases he
  · exact iff_of_true (fun _ => ⟨x, _, hsome, hx.pos⟩) ⟨x, hx.pos, hx.gt⟩

lemma keeps_add_iff (h : Inv ws) (hlt : Small ws (.add item weight)) :
    Keeps ws (.add item weight) ↔ Found (add ws item weight) := by
  rw [found_iff (h.add hlt)]
  simp only [initial_add, current_add, Keeps]
  by_cases hw : weight = 0
  · -- the item itself can no longer be chosen
    subst hw
    rw [or_iff_right (not_not.mpr rfl)]
    refine or_congr ⟨fun hz x => ?_, fun hz x hx => ?_⟩
      ⟨fun ⟨x, hx, hp⟩ => ⟨x, ?_⟩, fun ⟨x, hp⟩ => ?_⟩
    · split_ifs with hx
      · rfl
      · exact hz x hx
    · simpa [hx] using hz x
    · simpa [hx] using hp
    · by_cases hx : x = item
      · simp [hx] at hp
      · exact ⟨x, hx, by simpa [hx] using hp⟩
  · have hpos : 0 < weight.toNat := by
      refine Nat.pos_of_ne_zero fun h0 => hw ?_
      exact UInt32.toNat_inj.mp h0
    refine iff_of_true (Or.inl hw) (Or.inr ⟨item, ?_⟩)
    simp only [if_true]
    unfold currentMax
    omega

lemma keeps_choice_iff (h : Inv ws) (hx : Chosen ws x) (h0 : ws.totalWeight_ ≠ 0) :
    Keeps ws .choiceOne ↔ Found (rotate ws x) := by
  have hposx := hx.pos
  rw [found_iff (h.rotate hx), or_iff_right fun hz => hposx.ne' (hz x)]
  simp only [h.current_rotate hx, initial_rotate, Keeps, or_iff_right h0]
  constructor
  · rintro (⟨y, z, hne, ⟨hy, hgy⟩, hz, hgz⟩ | ⟨y, hy, hgy⟩)
    · -- one of the two is not the item chosen
      by_cases hyx : y = x
      · have hzx : z ≠ x := fun he => hne (hyx.trans he.symm)
        exact ⟨z, hz, by rwa [if_neg hzx, sub_zero]⟩
      · exact ⟨y, hy, by rwa [if_neg hyx, sub_zero]⟩
    · refine ⟨y, hy, ?_⟩
      split_ifs <;> omega
  · rintro ⟨y, hy, hgy⟩
    split_ifs at hgy with hyx
    · exact Or.inr ⟨y, hy, hgy⟩
    · have hgx := hx.gt
      exact Or.inl ⟨y, x, hyx, ⟨hy, by omega⟩, hposx, by omega⟩

/-- **One step.** It can be taken, and the search finds an item after it just when it keeps
one to be found. -/
theorem step_found (h : Inv ws) (hf : Found ws) {op : Op T} (hs : Small ws op) :
    ∃ ws', step ws op = some ws' ∧ Inv ws' ∧ (Keeps ws op ↔ Found ws') := by
  cases op with
  | add item weight => exact ⟨_, rfl, h.add hs, keeps_add_iff h hs⟩
  | choiceOne =>
    by_cases h0 : ws.totalWeight_ = 0
    · exact ⟨ws, by simp [step, choiceOne, h0], h, iff_of_true (Or.inl h0) hf⟩
    · rcases choiceOne_cases h0 with ⟨hnone, -⟩ | ⟨x, hsome, hx⟩
      · obtain ⟨x, ws', he, -⟩ := hf h0
        rw [hnone] at he
        cases he
      · exact ⟨rotate ws x, by rw [step, hsome]; rfl, h.rotate hx, keeps_choice_iff h hx h0⟩

lemma inv_make : Inv (make : WeightSelector T) ∧ Found (make : WeightSelector T) := by
  have hempty : weighted (make : WeightSelector T) = ∅ :=
    Finset.eq_empty_of_forall_notMem fun x hx => lt_irrefl _ (mem_weighted.mp hx)
  refine ⟨⟨rfl, ?_, fun x => le_rfl, fun x _ => rfl, fun x => ?_, ?_⟩, fun h0 => absurd rfl h0⟩
  · show (0 : ℤ) < 2 ^ 32
    norm_num
  · show (-2 ^ 33 : ℤ) < 0
    norm_num
  · rw [hempty]
    exact leveled_empty

/-- **When the search finds an item.** As long as the weights add up to less than `2 ^ 32`, it
does in every state of a run if and only if the steps of the run keep one to be found. -/
theorem found_iff_keeps {ops : List (Op T)} (hs : Along step Small make ops) :
    (Along step Keeps make ops → ∃ ws, run ops = some ws) ∧
      (Along step Keeps make ops ↔ Always step Found make ops) := by
  have hstep : ∀ (ws : WeightSelector T) op, Inv ws ∧ Found ws → Small ws op →
      ∃ ws', step ws op = some ws' ∧ (Keeps ws op ↔ Found ws') ∧
        (Keeps ws op → Inv ws' ∧ Found ws') := by
    intro ws op ⟨h, hf⟩ hs
    obtain ⟨ws', he, h', hiff⟩ := step_found h hf hs
    exact ⟨ws', he, hiff, fun hk => ⟨h', hiff.mp hk⟩⟩
  refine ⟨fun hk => ?_, along_iff_always (fun _ h => h.2) hstep inv_make hs⟩
  obtain ⟨ws, he, -⟩ := exec_of_along (I := fun ws => Inv ws ∧ Found ws) (fun ws op h hs hk => by
    obtain ⟨ws', he, -, hi⟩ := hstep ws op h hs
    exact ⟨ws', he, hi hk⟩) inv_make hs hk
  exact ⟨ws, he⟩

/-- An item is taken out in the middle of a round. -/
theorem found_iff_keeps_out :
    let ops : List (Op ℕ) := [.add 0 2, .add 1 1, .choiceOne, .add 0 0, .choiceOne]
    (Along step Keeps make ops → ∃ ws, run ops = some ws) ∧
      (Along step Keeps make ops ↔ Always step Found make ops) :=
  found_iff_keeps (by decide)

/-- Of three items with large weights one is chosen, and the others are taken out: what was
taken from the one that is left puts it below the start of the search. -/
theorem search_fails :
    let ops : List (Op ℕ) := [.add 0 1400000000, .add 1 1400000000, .add 2 1400000000, .choiceOne,
      .add 1 0, .add 2 0]
    Along step Small make ops ∧ ∃ ws, run ops = some ws ∧ ¬ Found ws := by
  refine ⟨by decide, _, rfl, fun h => ?_⟩
  obtain ⟨x, ws', he, -⟩ := h (by decide)
  cases he

end Libchef.WeightScan
