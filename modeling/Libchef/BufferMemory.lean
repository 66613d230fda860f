import Libchef.BufferRun

/-!
How much memory a buffer holds.

It starts with its initial capacity, doubles it when bytes do not fit, as often as needed and
no oftener, and goes back to the initial capacity where `erase` or `clear` find that it holds
more than its shrink capacity and no longer needs it.
-/

namespace Libchef.BufferMemory

open Libchef.Alloc Libchef.Slots Libchef.BufferModel Libchef.BufferFifo Libchef.BufferRun

variable {w : ℕ}

/-- The capacity is the initial one, doubled some number of times. -/
def Doubled (b : Buffer) : Prop := ∃ k, b.capacity_ = b.initCapacity_ * 2 ^ k

/-- `reserve` takes a new allocation just when the bytes do not fit, and the least doubling of
the capacity in which they do. -/
structure Reserves (w : ℕ) (b : Buffer) (len : ℕ) (b' : Buffer) : Prop where
  moves : b'.data_ ≠ b.data_ ↔ b.capacity_ < readableSize w b + len
  least : ∃ j, b'.capacity_ = b.capacity_ * 2 ^ j ∧ readableSize w b + len ≤ b'.capacity_ ∧
    ∀ i, readableSize w b + len ≤ b.capacity_ * 2 ^ i → j ≤ i
  init_eq : b'.initCapacity_ = b.initCapacity_
  shrink_eq : b'.shrinkCapacity_ = b.shrinkCapacity_

/-- What a buffer does with memory in the state it is in. -/
structure Policy (w : ℕ) (H : Memory) (b : Buffer) : Prop where
  doubled : Doubled b
  allocated : H.size b.data_ = some b.capacity_
  enough : readableSize w b ≤ b.capacity_
  reserve : ∀ len, NoWrap w b (readableSize w b) len →
    ∃ H' b', reserve w H b len = some (H', b') ∧ Reserves w b len b'
  erase : ∀ len ≤ readableSize w b, ∃ H' b', erase w H b len = some (H', b') ∧
    readableSize w b' = readableSize w b - len ∧
    (b'.shrinkCapacity_ < b'.capacity_ → b'.initCapacity_ ≤ readableSize w b')
  clear : ∃ H' b', clear H b = some (H', b') ∧ b'.capacity_ ≤ b'.shrinkCapacity_

/-- The buffer is constructed with an initial capacity within its shrink capacity. -/
def Bounded (w : ℕ) : Op → Prop
  | .make initCapacity shrinkCapacity => initCapacity ≤ shrinkCapacity
  | .makeData data => data.length * 2 < 2 ^ w
  | _ => True

/-! ### Single operations -/

section Specs

variable {H H' : Memory} {b b' : Buffer} {q : List UInt8} {len : ℕ}

theorem reserve_reserves (h : Holds w H b q) (hn : NoWrap w b q.length len) :
    ∃ H' b', reserve w H b len = some (H', b') ∧ Reserves w b len b' := by
  obtain ⟨H', b', e, hh, -, -⟩ := reserve_spec h hn
  refine ⟨H', b', e, ?_⟩
  have hle := h.write_le
  have hread := h.read_le
  have hcap := h.cap_lt
  have hql := h.length
  have hr := h.readable
  have hroom : sub w b.capacity_ b.writeIndex_ = b.capacity_ - b.writeIndex_ := sub_eq hle hcap
  have hfit {b' : Buffer} (hd : b'.data_ = b.data_) (hc : b'.capacity_ = b.capacity_)
      (hi : b'.initCapacity_ = b.initCapacity_) (hs : b'.shrinkCapacity_ = b.shrinkCapacity_)
      (hneed : readableSize w b + len ≤ b.capacity_) : Reserves w b len b' :=
    ⟨iff_of_false (fun hne => hne hd) (Nat.not_lt.mpr hneed),
      ⟨0, by rw [pow_zero, Nat.mul_one, hc], by rwa [hc], fun i _ => Nat.zero_le i⟩, hi, hs⟩
  rw [reserve] at e
  split_ifs at e with h1 h2
  · cases e
    exact hfit rfl rfl rfl rfl (by omega)
  · obtain ⟨H₁, -, e⟩ := Option.bind_eq_some_iff.mp e
    cases e
    rw [hroom, add_eq (by omega)] at h2
    exact hfit rfl rfl rfl rfl (by omega)
  · obtain ⟨j, hj, hjw⟩ := hn
    rw [hroom, add_eq (by omega)] at h2
    have hjlt : j < w := by
      refine (Nat.pow_lt_pow_iff_right (by decide : 1 < 2)).mp (lt_of_le_of_lt ?_ hjw)
      exact Nat.le_mul_of_pos_left _ h.cap_pos
    obtain ⟨i, hg, hneed, -, hleast⟩ := grow_eq hj hjw (show j < w + 1 by omega)
    obtain ⟨cap, hg', e⟩ := Option.bind_eq_some_iff.mp e
    rw [hr, add_eq (by omega), hg] at hg'
    obtain rfl := Option.some.inj hg'
    obtain ⟨H₁, -, e⟩ := Option.bind_eq_some_iff.mp e
    obtain ⟨H₂, -, e⟩ := Option.bind_eq_some_iff.mp e
    have hnone : H.block H.brk = none := H.fresh H.brk le_rfl
    cases e
    obtain ⟨l, hl, -⟩ := h.block
    rw [← hr] at hneed hleast
    refine ⟨iff_of_true (fun he => ?_) (by omega), ⟨i, rfl, hneed, hleast⟩, rfl, rfl⟩
    rw [show H.brk = b.data_ from he, hl] at hnone
    cases hnone

/-- The shrink capacity is at least the initial one. -/
structure Planned (b : Buffer) : Prop where
  doubled : Doubled b
  le_shrink : b.initCapacity_ ≤ b.shrinkCapacity_

lemma planned_init {b : Buffer} (hc : b.capacity_ = b.initCapacity_)
    (hle : b.initCapacity_ ≤ b.shrinkCapacity_) : Planned b :=
  ⟨⟨0, by rw [pow_zero, Nat.mul_one, hc]⟩, hle⟩

/-- The memory a buffer holds does not change. -/
structure Alike (b b' : Buffer) : Prop where
  capacity : b'.capacity_ = b.capacity_
  init : b'.initCapacity_ = b.initCapacity_
  shrink : b'.shrinkCapacity_ = b.shrinkCapacity_

lemma Planned.alike (h : Planned b) (ha : Alike b b') : Planned b' := by
  obtain ⟨k, hk⟩ := h.doubled
  exact ⟨⟨k, by rw [ha.capacity, ha.init, hk]⟩, by rw [ha.init, ha.shrink]; exact h.le_shrink⟩

lemma Planned.reserve (h : Planned b) (hr : Reserves w b len b') : Planned b' := by
  obtain ⟨k, hk⟩ := h.doubled
  obtain ⟨j, hj, -⟩ := hr.least
  refine ⟨⟨k + j, ?_⟩, by rw [hr.init_eq, hr.shrink_eq]; exact h.le_shrink⟩
  rw [hj, hk, hr.init_eq, pow_add, Nat.mul_assoc]

theorem erase_policy (h : Holds w H b q) (hp : Planned b) (hlen : len ≤ q.length) :
    ∃ H' b', erase w H b len = some (H', b') ∧ readableSize w b' = readableSize w b - len ∧
      (b'.shrinkCapacity_ < b'.capacity_ → b'.initCapacity_ ≤ readableSize w b') ∧ Planned b' := by
  obtain ⟨H', b', e, hh, -⟩ := erase_spec h hlen
  have hsize : readableSize w b' = readableSize w b - len := by
    rw [hh.readable, h.readable, List.length_drop]
  have hdrop := (h.drop hlen).readable
  have h1 := h.length
  have h2 := h.write_le
  have h3 := h.cap_lt
  have hread := h.read_le
  refine ⟨H', b', e, hsize, ?_⟩
  rw [erase, sub_eq hread (by omega), if_pos (by omega), add_eq (by omega), shrink] at e
  split_ifs at e with hc
  · obtain ⟨H₁, -, e⟩ := Option.bind_eq_some_iff.mp e
    obtain ⟨H₂, -, e⟩ := Option.bind_eq_some_iff.mp e
    cases e
    exact ⟨fun hlt => absurd hp.le_shrink (Nat.not_le.mpr hlt), planned_init rfl hp.le_shrink⟩
  · cases e
    refine ⟨fun hlt => ?_, hp.alike ⟨rfl, rfl, rfl⟩⟩
    by_contra hn
    exact hc ⟨Nat.not_le.mp hn, hlt⟩

theorem clear_policy (h : Holds w H b q) (hp : Planned b) :
    ∃ H' b', clear H b = some (H', b') ∧ b'.capacity_ ≤ b'.shrinkCapacity_ ∧ Planned b' := by
  obtain ⟨H', b', e, -⟩ := clear_spec h
  refine ⟨H', b', e, ?_⟩
  rw [clear] at e
  split_ifs at e with hc
  · obtain ⟨H₁, -, e⟩ := Option.bind_eq_some_iff.mp e
    cases e
    exact ⟨hp.le_shrink, planned_init rfl hp.le_shrink⟩
  · cases e
    exact ⟨Nat.not_lt.mp hc, hp.alike ⟨rfl, rfl, rfl⟩⟩

/-- **The policy** of a buffer whose bytes and capacity are right. -/
theorem Planned.policy (hp : Planned b) (h : Holds w H b q) : Policy w H b where
  doubled := hp.doubled
  allocated := by
    obtain ⟨l, hl, hlen, -⟩ := h.block
    rw [Heap.size, hl, Option.map_some, hlen]
  enough := by
    have h1 := h.length
    have h2 := h.write_le
    rw [h.readable]
    omega
  reserve len hn := reserve_reserves h (h.readable ▸ hn)
  erase len hlen := by
    obtain ⟨H', b', e, hr, hs, -⟩ := erase_policy h hp (h.readable ▸ hlen)
    exact ⟨H', b', e, hr, hs⟩
  clear := by
    obtain ⟨H', b', e, hc, -⟩ := clear_policy h hp
    exact ⟨H', b', e, hc⟩

lemma append_planned (h : Holds w H b q) (hp : Planned b) {src : Source}
    (hn : NoWrap w b q.length len) (e : append w H b src len = some (H', b')) : Planned b' := by
  obtain ⟨H₁, b₁, e₁, hr⟩ := reserve_reserves h hn
  obtain ⟨⟨H₂, b₂⟩, e₂, e⟩ := Option.bind_eq_some_iff.mp e
  obtain ⟨H₃, -, e⟩ := Option.bind_eq_some_iff.mp e
  cases e
  cases e₁.symm.trans e₂
  exact (hp.reserve hr).alike ⟨rfl, rfl, rfl⟩

lemma fill_planned (h : Holds w H b q) (hp : Planned b) {n m : ℕ} {data : List UInt8}
    (hn : NoWrap w b q.length n) (e : fill w H b n data m = some (H', b')) : Planned b' := by
  obtain ⟨H₁, b₁, e₁, hr⟩ := reserve_reserves h hn
  obtain ⟨⟨H₂, b₂⟩, e₂, e⟩ := Option.bind_eq_some_iff.mp e
  obtain ⟨H₃, -, e⟩ := Option.bind_eq_some_iff.mp e
  obtain ⟨b₃, e₃, e⟩ := Option.bind_eq_some_iff.mp e
  cases e
  rw [seekWritePos] at e₃
  split_ifs at e₃
  cases e₃
  cases e₁.symm.trans e₂
  exact (hp.reserve hr).alike ⟨rfl, rfl, rfl⟩

end Specs

/-! ### Runs -/

section Runs

variable {t t' : Store} {qs : List (List UInt8)} {i : ℕ}

/-- All buffers hold a doubled capacity. -/
def AllPlanned (t : Store) : Prop := ∀ (i : ℕ) b, t.bufs[i]? = some b → Planned b

lemma AllPlanned.on (h : AllPlanned t) {f : Memory → Buffer → Option (Memory × Buffer)}
    (hf : ∀ b H' b', t.bufs[i]? = some b → f t.mem b = some (H', b') → Planned b → Planned b')
    (e : t.on i f = some t') : AllPlanned t' := by
  obtain ⟨b, hb, e⟩ := Option.bind_eq_some_iff.mp e
  obtain ⟨⟨H', b'⟩, e₁, e⟩ := Option.bind_eq_some_iff.mp e
  cases e
  intro j c hc
  rcases getElem?_set_some hc with ⟨-, rfl⟩ | ⟨-, hc⟩
  · exact hf b H' c hb e₁ (h i b hb)
  · exact h j c hc

lemma AllPlanned.push (h : AllPlanned t) {r : Memory × Buffer} (hr : Planned r.2) :
    AllPlanned (t.push r) := by
  intro j c hc
  rcases getElem?_snoc_some hc with ⟨-, rfl⟩ | ⟨-, hc⟩
  · exact hr
  · exact h j c hc

/-- **Every operation keeps to the plan.** -/
theorem exec_planned (ho : Owns w t qs) (h : AllPlanned t) {op : Op} (hv : Valid w t op)
    (hb : Bounded w op) (e : exec w t op = some t') : AllPlanned t' := by
  cases op with
  | make init shrinkCap =>
    cases e
    exact h.push (planned_init rfl hb)
  | makeData data =>
    obtain ⟨⟨H', b'⟩, e₁, e⟩ := Option.bind_eq_some_iff.mp e
    cases e
    refine h.push (append_planned (q := []) (holds_new _ hv.1 hv.2 hv.1 hv.2)
      (planned_init rfl ?_) ⟨0, by simp, by simpa using hv.2⟩ e₁)
    show data.length ≤ shl w data.length
    rw [shl_eq hb]
    omega
  | copy j =>
    obtain ⟨b, hj, e⟩ := Option.bind_eq_some_iff.mp e
    obtain ⟨⟨H', b'⟩, e₁, e⟩ := Option.bind_eq_some_iff.mp e
    cases e
    have hq := (ho.queue hj).2
    have hle := hq.length
    have hwrite := hq.write_le
    refine h.push (append_planned (q := [])
      (holds_new _ hq.init_pos hq.init_lt hq.cap_pos hq.cap_lt)
      ((h j b hj).alike ⟨rfl, rfl, rfl⟩) ⟨0, ?_, by simpa using hq.cap_lt⟩ e₁)
    rw [hq.readable, pow_zero, Nat.mul_one, List.length_nil]
    show 0 + _ ≤ b.capacity_
    omega
  | assign i j =>
    obtain ⟨b, other, hi, hj, hn⟩ := hv
    obtain ⟨other', hj', e⟩ := Option.bind_eq_some_iff.mp e
    cases hj.symm.trans hj'
    split_ifs at e
    · cases e
      exact h
    · refine h.on (fun c H' b' hc e hp => ?_) e
      cases hi.symm.trans hc
      exact append_planned (ho.queue hi).2.nil (hp.alike ⟨rfl, rfl, rfl⟩) hn e
  | append i data =>
    obtain ⟨b, hi, hn⟩ := hv
    refine h.on (f := fun H b => append w H b (.bytes data) data.length)
      (fun c H' b' hc e hp => ?_) e
    cases hi.symm.trans hc
    have hq := (ho.queue hi).2
    exact append_planned hq hp (hq.readable ▸ hn) e
  | reserve i len =>
    obtain ⟨b, hi, hn⟩ := hv
    refine h.on (f := fun H b => reserve w H b len) (fun c H' b' hc e hp => ?_) e
    cases hi.symm.trans hc
    have hq := (ho.queue hi).2
    obtain ⟨H₁, b₁, e₁, hr⟩ := reserve_reserves hq (hq.readable ▸ hn)
    cases e₁.symm.trans e
    exact hp.reserve hr
  | fill i n data m =>
    obtain ⟨b, hi, hn, -, -⟩ := hv
    refine h.on (f := fun H b => fill w H b n data m) (fun c H' b' hc e hp => ?_) e
    cases hi.symm.trans hc
    have hq := (ho.queue hi).2
    exact fill_planned hq hp (hq.readable ▸ hn) e
  | rollback i len =>
    refine h.on (f := fun H b => do some (H, ← seekWritePosRollback w b len))
      (fun c H' b' hc e hp => ?_) e
    obtain ⟨b₁, e₁, e⟩ := Option.bind_eq_some_iff.mp e
    cases e
    rw [seekWritePosRollback] at e₁
    split_ifs at e₁
    cases e₁
    exact hp.alike ⟨rfl, rfl, rfl⟩
  | erase i len =>
    obtain ⟨b, hi, hlen⟩ := hv
    refine h.on (f := fun H b => erase w H b len) (fun c H' b' hc e hp => ?_) e
    cases hi.symm.trans hc
    have hq := (ho.queue hi).2
    obtain ⟨H₁, b₁, e₁, -, -, hp₁⟩ := erase_policy hq hp (hq.readable ▸ hlen)
    cases e₁.symm.trans e
    exact hp₁
  | clear i =>
    refine h.on (fun c H' b' hc e hp => ?_) e
    obtain ⟨H₁, b₁, e₁, -, hp₁⟩ := clear_policy (ho.queue hc).2 hp
    cases e₁.symm.trans e
    exact hp₁
  | trimLeft i =>
    refine h.on (f := fun H b => do some (H, ← trimLeft w H b)) (fun c H' b' hc e hp => ?_) e
    obtain ⟨b₁, e₁, e⟩ := Option.bind_eq_some_iff.mp e
    obtain ⟨r, -, e₁⟩ := Option.bind_eq_some_iff.mp e₁
    cases e
    cases e₁
    exact hp.alike ⟨rfl, rfl, rfl⟩
  | trimRight i =>
    refine h.on (f := fun H b => do some (H, ← trimRight w H b)) (fun c H' b' hc e hp => ?_) e
    obtain ⟨b₁, e₁, e⟩ := Option.bind_eq_some_iff.mp e
    obtain ⟨u, -, e₁⟩ := Option.bind_eq_some_iff.mp e₁
    cases e
    cases e₁
    exact hp.alike ⟨rfl, rfl, rfl⟩

/-- **The memory policy.** In every run whose buffers are constructed with an initial capacity
within the shrink capacity, and whose sizes do not leave `LenType`, every buffer holds its
initial capacity doubled some number of times, never less than its readable bytes need;
`reserve` takes a new allocation just when it must, and the least doubling that does; `erase`
leaves more than the shrink capacity only to a buffer with the initial capacity in use, and
`clear` never. -/
theorem memory_policy {ops : List Op} (hv : ValidFrom w .empty ops)
    (hb : ∀ op ∈ ops, Bounded w op) :
    ∃ t, run w ops = some t ∧ ∀ b ∈ t.bufs, Policy w t.mem b := by
  have hstep : ∀ t qs op, Owns w t qs ∧ AllPlanned t → Valid w t op ∧ Bounded w op →
      ∃ t', exec w t op = some t' ∧ Owns w t' (refStep qs op) ∧ AllPlanned t' := by
    intro t qs op ⟨ho, hp⟩ ⟨hv, hb⟩
    obtain ⟨t', e, ho'⟩ := exec_owns ho hv
    exact ⟨t', e, ho', exec_planned ho hp hv hb e⟩
  have hstart : Owns w .empty [] ∧ AllPlanned .empty := by
    refine ⟨⟨rfl, by simp [Store.empty], by simp [Store.empty], fun p l hl => ?_⟩,
      by simp [AllPlanned, Store.empty]⟩
    simp [Store.empty, Heap.empty] at hl
  obtain ⟨t, e, ho, hp⟩ := Runs.exec_refines hstep hstart (hv.and (Runs.along_of_forall hb))
  refine ⟨t, e, fun b hb => ?_⟩
  obtain ⟨i, hi⟩ := List.mem_iff_getElem?.mp hb
  exact (hp i b hi).policy (ho.queue hi).2

/-- A buffer of four bytes that grows under five, and gives up two. -/
theorem memory_policy_grow :
    ∃ ops, ops = [Op.make 4 8, .append 0 [1, 2, 3, 4, 5], .erase 0 2] ∧
      ∃ t, run 64 ops = some t ∧ ∀ b ∈ t.bufs, Policy 64 t.mem b := by
  refine ⟨_, rfl, memory_policy ?_ fun op ho => ?_⟩
  · refine ⟨⟨by decide, by decide⟩, fun t₁ h₁ => ?_⟩
    cases h₁
    refine ⟨⟨_, rfl, 1, by decide, by decide⟩, fun t₂ h₂ => ?_⟩
    have e : exec 64 (Store.empty.push (make Heap.empty 4 8)) (.append 0 [1, 2, 3, 4, 5]) =
      some _ := rfl
    cases e.symm.trans h₂
    exact ⟨⟨_, rfl, by decide⟩, fun _ _ => trivial⟩
  · simp only [List.mem_cons, List.not_mem_nil, or_false] at ho
    rcases ho with rfl | rfl | rfl
    · show 4 ≤ 8
      decide
    all_goals trivial

end Runs

end Libchef.BufferMemory
