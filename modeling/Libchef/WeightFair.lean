import Libchef.WeightModel
import Libchef.Base.SmoothRobin
import Mathlib.Algebra.BigOperators.Group.List.Basic
import Mathlib.Algebra.Order.Field.Basic
import Mathlib.Data.Rat.Cast.Order

/-!
The weight selector is a smooth weighted round robin.

As long as nothing is added, the current weights are the credits of the round robin; they
never leave the range of an `int64_t`, and the search for the greatest one never comes out
empty.
-/

namespace Libchef.WeightFair

open Libchef.Ordered Libchef.WeightModel Libchef.SmoothRobin

variable {T : Type} [LinearOrder T]

/-! ### Adding -/

/-- What a sequence of additions binds: to each item the weight it was last added with. -/
def weights (adds : List (T × UInt32)) : OrderedMap T ℕ :=
  adds.foldl (fun m a => m.insert a.1 a.2.toNat) .empty

/-- The weight of an item. -/
def weight (adds : List (T × UInt32)) (x : T) : ℕ := ((weights adds).get? x).getD 0

/-- The weight of all items together. -/
def total (adds : List (T × UInt32)) : ℕ := ((weights adds).entries.map Prod.snd).sum

/-- A weight selector that a sequence of additions was made to. -/
def build (adds : List (T × UInt32)) : WeightSelector T :=
  adds.foldl (fun ws a => add ws a.1 a.2) make

lemma weights_concat (adds : List (T × UInt32)) (a : T × UInt32) :
    weights (adds ++ [a]) = (weights adds).insert a.1 a.2.toNat := by
  simp [weights]

lemma total_concat (adds : List (T × UInt32)) (a : T × UInt32) :
    total (adds ++ [a]) + weight adds a.1 = total adds + a.2.toNat := by
  rw [total, weights_concat]
  exact sum_upsert (weights adds).asc

lemma total_eq (adds : List (T × UInt32)) :
    total adds = ∑ x ∈ (weights adds).keys.toFinset, weight adds x := by
  rw [List.sum_toFinset _ OrderedMap.nodup_keys, total, OrderedMap.keys, List.map_map]
  refine congrArg List.sum (List.map_congr_left fun e he => ?_)
  simp [weight, OrderedMap.get?_eq_some.mpr he]

lemma uint32_eq {x : ℤ} {n : ℕ} (h : (x - n) % 2 ^ 32 = 0) : uint32 x = n % 2 ^ 32 := by
  unfold uint32
  omega

/-- After the additions both maps hold the weights, and the total is kept modulo `2 ^ 32`. -/
lemma build_eq (adds : List (T × UInt32)) :
    (build adds).totalWeight_ = total adds % 2 ^ 32 ∧
      (build adds).item2weightInitial_ = (weights adds).mapVals (fun _ w => (w : ℤ)) ∧
      (build adds).item2weightCurrent_ = (weights adds).mapVals (fun _ w => (w : ℤ)) := by
  induction adds using List.reverseRecOn with
  | nil => exact ⟨rfl, rfl, rfl⟩
  | append_singleton adds a ih =>
    obtain ⟨ht, hi, hc⟩ := ih
    have hb : build (adds ++ [a]) = add (build adds) a.1 a.2 := by simp [build]
    have hins : ((weights adds).mapVals fun _ w => (w : ℤ)).insert a.1 (a.2.toNat : ℤ) =
        (weights (adds ++ [a])).mapVals fun _ w => (w : ℤ) := by
      refine OrderedMap.ext_get? fun x => ?_
      by_cases hx : x = a.1 <;> simp [weights_concat, hx]
    refine ⟨?_, ?_, ?_⟩
    · have hsum := total_concat adds a
      unfold weight at hsum
      rw [hb]
      simp only [add, hi, OrderedMap.get?_mapVals]
      cases hg : (weights adds).get? a.1 with
      | none =>
        simp only [hg, Option.getD_none] at hsum
        exact uint32_eq (by rw [ht]; omega)
      | some old =>
        simp only [hg, Option.getD_some] at hsum
        show uint32 (_ - (old : ℤ) + _) = _
        exact uint32_eq (by rw [ht]; omega)
    · rw [hb]
      show (build adds).item2weightInitial_.insert _ _ = _
      rw [hi, hins]
    · rw [hb]
      show (build adds).item2weightCurrent_.insert _ _ = _
      rw [hc, hins]

/-! ### The search for the greatest value -/

omit [LinearOrder T] in
lemma scanMax_cases (initial : T → ℤ) (l : List (T × ℤ)) (m : ℤ) (it : Option (T × ℤ)) :
    (scanMax initial l m it = it ∧ ∀ e ∈ l, 0 < initial e.1 → e.2 ≤ m) ∨
      ∃ e ∈ l, scanMax initial l m it = some e ∧ 0 < initial e.1 ∧ m < e.2 ∧
        ∀ e' ∈ l, 0 < initial e'.1 → e'.2 ≤ e.2 := by
  induction l generalizing m it with
  | nil => exact Or.inl ⟨rfl, by simp⟩
  | cons a l ih =>
    unfold scanMax
    split_ifs with h
    · right
      rcases ih a.2 (some a) with ⟨hs, hle⟩ | ⟨e, he, hs, hpos, hlt, hle⟩
      · refine ⟨a, by simp, hs, h.2, h.1, fun e' he' hp => ?_⟩
        rcases List.mem_cons.mp he' with rfl | he'
        · exact le_rfl
        · exact hle e' he' hp
      · refine ⟨e, by simp [he], hs, hpos, h.1.trans hlt, fun e' he' hp => ?_⟩
        rcases List.mem_cons.mp he' with rfl | he'
        · exact hlt.le
        · exact hle e' he' hp
    · have ha : 0 < initial a.1 → a.2 ≤ m := fun hp => not_lt.mp fun hlt => h ⟨hlt, hp⟩
      rcases ih m it with ⟨hs, hle⟩ | ⟨e, he, hs, hpos, hlt, hle⟩
      · refine Or.inl ⟨hs, fun e' he' hp => ?_⟩
        rcases List.mem_cons.mp he' with rfl | he'
        · exact ha hp
        · exact hle e' he' hp
      · refine Or.inr ⟨e, by simp [he], hs, hpos, hlt, fun e' he' hp => ?_⟩
        rcases List.mem_cons.mp he' with rfl | he'
        · exact (ha hp).trans hlt.le
        · exact hle e' he' hp

/-! ### A choice is a round -/

section Rounds

variable {adds : List (T × UInt32)} {ws : WeightSelector T} {l : List T}

/-- The weight selector is where the round robin is after the choices `l`. -/
structure Follows (adds : List (T × UInt32)) (ws : WeightSelector T) (l : List T) : Prop where
  totalWeight : ws.totalWeight_ = total adds
  initial : ws.item2weightInitial_ = (weights adds).mapVals fun _ w => (w : ℤ)
  current : ∃ c, Schedule (weights adds).keys.toFinset (weight adds) l c ∧
    ∀ x, ws.item2weightCurrent_.get? x = ((weights adds).get? x).map fun _ => c x

lemma follows_build (h : total adds < 2 ^ 32) : Follows adds (build adds) [] := by
  obtain ⟨ht, hi, hc⟩ := build_eq adds
  refine ⟨by rw [ht, Nat.mod_eq_of_lt h], hi, _, .start, fun x => ?_⟩
  rw [hc, OrderedMap.get?_mapVals]
  cases hx : (weights adds).get? x <;> simp [weight, hx]

lemma int64_eq {x : ℤ} (h : -2 ^ 63 ≤ x) (h' : x < 2 ^ 63) : int64 x = x := by
  unfold int64
  rw [Int.bmod_eq_of_le] <;> omega

lemma mem_items {x : T} :
    x ∈ (weights adds).keys.toFinset ↔ (weights adds).get? x = some (weight adds x) := by
  rw [List.mem_toFinset, OrderedMap.mem_keys, weight]
  cases (weights adds).get? x <;> simp

lemma credit_range (hlt : total adds < 2 ^ 32) {c : T → ℤ}
    (hs : Schedule (weights adds).keys.toFinset (weight adds) l c) {x : T}
    (hx : x ∈ (weights adds).keys.toFinset) : -2 ^ 32 < c x ∧ c x < 2 ^ 63 := by
  have hle := hs.credit_le hx
  rw [← total_eq] at hle
  have hsq : (total adds : ℤ) ^ 2 ≤ (2 ^ 32 - 1) ^ 2 := by
    have : (total adds : ℤ) ≤ 2 ^ 32 - 1 := by omega
    exact pow_le_pow_left₀ (by positivity) this 2
  refine ⟨?_, by omega⟩
  rcases Nat.eq_zero_or_pos (weight adds x) with h0 | h0
  · rw [hs.credit_zero h0]; norm_num
  · have hgt := hs.credit_gt hx h0
    rw [← total_eq] at hgt
    omega

/-- **The search finds an item a round may choose.** -/
lemma scanMax_greatest (h : Follows adds ws l) (hpos : 0 < total adds) {c : T → ℤ}
    (hs : Schedule (weights adds).keys.toFinset (weight adds) l c)
    (hc : ∀ x, ws.item2weightCurrent_.get? x = ((weights adds).get? x).map fun _ => c x) :
    ∃ x, scanMax ws.initial ws.item2weightCurrent_.entries (-0xFFFFFFF) none = some (x, c x) ∧
      Greatest (weights adds).keys.toFinset (weight adds) c x := by
  have hinit : ∀ x, ws.initial x = weight adds x := fun x => by
    rw [WeightSelector.initial, h.initial, OrderedMap.get?_mapVals, weight]
    cases (weights adds).get? x <;> simp
  have hmem : ∀ x v, (x, v) ∈ ws.item2weightCurrent_.entries ↔
      x ∈ (weights adds).keys.toFinset ∧ v = c x := fun x v => by
    rw [← OrderedMap.get?_eq_some, hc, List.mem_toFinset, OrderedMap.mem_keys]
    cases (weights adds).get? x <;> simp [eq_comm]
  rcases scanMax_cases ws.initial ws.item2weightCurrent_.entries (-0xFFFFFFF) none with
    ⟨-, hle⟩ | ⟨⟨x, v⟩, he, hscan, hp, -, hle⟩
  · -- some credit is positive, since the credits add up to the total
    exfalso
    have hsum := hs.sum_credit
    rw [← total_eq] at hsum
    obtain ⟨y, hy, hcy⟩ := Finset.exists_lt_of_sum_lt (s := (weights adds).keys.toFinset)
      (f := fun _ => (0 : ℤ)) (g := c) (by rw [hsum]; simpa using hpos)
    have hwy : 0 < weight adds y := Nat.pos_of_ne_zero fun h0 => by
      rw [hs.credit_zero h0] at hcy
      exact lt_irrefl _ hcy
    have := hle (y, c y) ((hmem y _).mpr ⟨hy, rfl⟩) (by rw [hinit]; exact_mod_cast hwy)
    have hcy' : (0 : ℤ) < c y := hcy
    simp only at this
    omega
  · obtain ⟨hx, rfl⟩ := (hmem x v).mp he
    refine ⟨x, hscan, hx, ?_, fun y hy hwy => ?_⟩
    · rw [hinit] at hp; exact_mod_cast hp
    · exact hle (y, c y) ((hmem y _).mpr ⟨hy, rfl⟩) (by rw [hinit]; exact_mod_cast hwy)

/-- **A call of `choice_one` is a round**: it returns true, and no value overflows. -/
theorem choiceOne_follows (h : Follows adds ws l) (hpos : 0 < total adds)
    (hlt : total adds < 2 ^ 32) :
    ∃ x ws', choiceOne ws = some (some x, ws') ∧ Follows adds ws' (x :: l) := by
  obtain ⟨c, hs, hc⟩ := h.current
  obtain ⟨x, hscan, hg⟩ := scanMax_greatest h hpos hs hc
  refine ⟨x, rotate ws x, by rw [choiceOne, if_neg (by rw [h.totalWeight]; omega), hscan]; rfl,
    h.totalWeight, h.initial, _, hs.choose hg, fun y => ?_⟩
  have hcx := hs.credit_pos hg
  have hrx := credit_range hlt hs hg.mem
  rw [rotate, OrderedMap.get?_mapVals, OrderedMap.get?_mapVals, hc]
  cases hy : (weights adds).get? y with
  | none => rfl
  | some v =>
    have hwy : weight adds y = v := by simp [weight, hy]
    have hry := credit_range hlt (hs.choose hg) (mem_items.mpr (hwy ▸ hy))
    have hinit : ws.initial y = v := by
      rw [WeightSelector.initial, h.initial, OrderedMap.get?_mapVals, hy]; rfl
    simp only [charge, ← total_eq, hwy] at hry
    simp only [Option.map_some, charge, ← total_eq, hinit, h.totalWeight, hwy, Option.some.injEq]
    split_ifs at hry ⊢ with hyx
    · subst hyx
      rw [int64_eq (x := c y - total adds) (by omega) (by omega), int64_eq (by omega) (by omega)]
      ring
    · rw [int64_eq (by omega) (by omega)]
      ring

/-- **Every call returns true**, and a run of calls is a run of rounds. -/
theorem choices_follows (h : Follows adds ws l) (hpos : 0 < total adds)
    (hlt : total adds < 2 ^ 32) (n : ℕ) :
    ∃ items ws', choices n ws = some (items, ws') ∧ items.length = n ∧
      Follows adds ws' (items.reverse ++ l) := by
  induction n generalizing ws l with
  | zero => exact ⟨[], ws, rfl, rfl, h⟩
  | succ n ih =>
    obtain ⟨x, ws₁, e₁, h₁⟩ := choiceOne_follows h hpos hlt
    obtain ⟨items, ws₂, e₂, hn, h₂⟩ := ih h₁
    exact ⟨x :: items, ws₂, by simp [choices, e₁, e₂], by simp [hn], by simpa using h₂⟩

lemma choices_add (n m : ℕ) {items : List T} {ws' : WeightSelector T}
    (h : choices n ws = some (items, ws')) :
    choices (n + m) ws = (choices m ws').map fun r => (items ++ r.1, r.2) := by
  induction n generalizing ws items with
  | zero =>
    cases h
    simp
  | succ n ih =>
    simp only [choices, Option.bind_eq_bind, Option.bind_eq_some_iff, Prod.exists] at h
    obtain ⟨_, ws₁, e₁, x, rfl, items', ws₂, e₂, he⟩ := h
    cases he
    rw [Nat.succ_add]
    simp only [choices, e₁, ih e₂, Option.bind_eq_bind, Option.bind_some]
    cases choices m ws' <;> rfl

lemma count_weight_zero (h : Follows adds ws l) {x : T} (hx : weight adds x = 0) : x ∉ l := by
  obtain ⟨c, hs, -⟩ := h.current
  exact fun hm => by
    have := (hs.mem hm).2
    omega

lemma mem_of_weight {x : T} (hx : weight adds x ≠ 0) : x ∈ (weights adds).keys.toFinset := by
  rw [mem_items, weight] at *
  cases hg : (weights adds).get? x <;> simp_all

/-- After a whole period the weight selector is as it was. -/
lemma follows_period (h : Follows adds ws l) (hpos : 0 < total adds) (hlt : total adds < 2 ^ 32)
    (hl : l.length = total adds) :
    ws.item2weightCurrent_ = ws.item2weightInitial_ ∧ ws = build adds := by
  obtain ⟨c, hs, hc⟩ := h.current
  have hcur : ws.item2weightCurrent_ = (weights adds).mapVals fun _ w => (w : ℤ) := by
    refine OrderedMap.ext_get? fun x => ?_
    rw [hc, OrderedMap.get?_mapVals]
    cases hx : (weights adds).get? x with
    | none => rfl
    | some v =>
      have hw : weight adds x = v := by simp [weight, hx]
      have hcx := hs.credit_eq (by rw [← total_eq]; exact hpos) (k := 1)
        (by rw [hl, one_mul, total_eq]) (mem_items.mpr (hw ▸ hx))
      simp [hcx, hw]
  obtain ⟨ht₀, hi₀, hc₀⟩ := build_eq adds
  have ht : ws.totalWeight_ = (build adds).totalWeight_ := by
    rw [h.totalWeight, ht₀, Nat.mod_eq_of_lt hlt]
  have hi : ws.item2weightInitial_ = (build adds).item2weightInitial_ := h.initial.trans hi₀.symm
  have hcc : ws.item2weightCurrent_ = (build adds).item2weightCurrent_ := hcur.trans hc₀.symm
  refine ⟨hcur.trans h.initial.symm, ?_⟩
  cases hw : ws
  cases hb : build adds
  simp only [hw, hb] at ht hi hcc
  subst ht hi hcc
  rfl

end Rounds

/-- **The weight selector is exactly fair.** All calls return true, no item is ever ahead of
its share by a whole choice, and after as many calls as the weights add up to every item has
been returned as often as it weighs and the schedule starts again. -/
theorem choices_fair (adds : List (T × UInt32)) (hpos : 0 < total adds)
    (hlt : total adds < 2 ^ 32) (n : ℕ) :
    ∃ items ws, choices n (build adds) = some (items, ws) ∧ items.length = n ∧
      (∀ x, (items.count x : ℚ) < n * weight adds x / total adds + 1) ∧
      (∀ x, weight adds x = 0 → x ∉ items) ∧
      (n = total adds → (∀ x, items.count x = weight adds x) ∧
        ws.item2weightCurrent_ = ws.item2weightInitial_ ∧
        ∀ m, choices (n + m) (build adds) =
          (choices m (build adds)).map fun r => (items ++ r.1, r.2)) := by
  obtain ⟨items, ws, e, hn, h⟩ := choices_follows (follows_build hlt) hpos hlt n
  rw [List.append_nil] at h
  have hzero : ∀ x, weight adds x = 0 → x ∉ items := fun x hx => by
    simpa using count_weight_zero h hx
  obtain ⟨c, hs, -⟩ := h.current
  have hW : 0 < ∑ x ∈ (weights adds).keys.toFinset, weight adds x := by rwa [← total_eq]
  refine ⟨items, ws, e, hn, fun x => ?_, hzero, fun hnt => ⟨fun x => ?_, ?_, fun m => ?_⟩⟩
  · have hq : (0 : ℚ) < total adds := by exact_mod_cast hpos
    rw [div_add_one hq.ne', lt_div_iff₀ hq]
    by_cases hx : weight adds x = 0
    · simpa [hx, List.count_eq_zero.mpr (hzero x hx)] using hpos
    · have hlt := hs.count_lt (mem_of_weight hx) hW
      rw [← total_eq, List.count_reverse, List.length_reverse, hn] at hlt
      rw [mul_comm]
      exact_mod_cast hlt
  · by_cases hx : weight adds x = 0
    · rw [hx, List.count_eq_zero.mpr (hzero x hx)]
    · have hc := hs.count_eq hW (k := 1)
        (by rw [List.length_reverse, hn, hnt, one_mul, total_eq]) (mem_of_weight hx)
      rwa [List.count_reverse, one_mul] at hc
  · exact (follows_period h hpos hlt (by rw [List.length_reverse, hn, hnt])).1
  · rw [choices_add n m e,
      (follows_period h hpos hlt (by rw [List.length_reverse, hn, hnt])).2]

/-- Three items with the weights 2, 1 and 4 over one period. -/
theorem choices_fair_seven :
    (0 < total [(0, 2), (1, 1), (2, 4)] ∧ total [(0, 2), (1, 1), (2, 4)] < 2 ^ 32) ∧
      ∃ items ws, choices 7 (build [(0, 2), (1, 1), (2, 4)]) = some (items, ws) ∧
        ∀ x, items.count x = weight [(0, 2), (1, 1), (2, 4)] x := by
  have hpos : 0 < total [(0, 2), (1, 1), (2, 4)] := by decide
  have hlt : total [(0, 2), (1, 1), (2, 4)] < 2 ^ 32 := by decide
  obtain ⟨items, ws, e, -, -, -, h⟩ := choices_fair [(0, 2), (1, 1), (2, 4)] hpos hlt 7
  exact ⟨⟨hpos, hlt⟩, items, ws, e, (h (by decide)).1⟩

example : (choices 7 (build [(0, 2), (1, 1), (2, 4)])).map Prod.fst =
    some [2, 0, 2, 1, 2, 0, 2] := by decide

end Libchef.WeightFair
