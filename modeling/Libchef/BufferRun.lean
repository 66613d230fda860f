import Libchef.BufferFifo
import Libchef.Base.Runs
import Libchef.Base.Slots

/-!
Runs over several buffers: every buffer stays the queue of its operations.
-/

namespace Libchef.BufferRun

open Libchef.Alloc Libchef.Slots Libchef.BufferModel Libchef.BufferFifo

variable {w : ℕ}

/-! ### The queues -/

/-- What an operation makes of the queue it changes. -/
def refEdit (qs : List (List UInt8)) : Op → List UInt8 → List UInt8
  | .assign _ j, _ => qs.getD j []
  | .append _ data, q => q ++ data
  | .fill _ _ data m, q => q ++ data.take m
  | .rollback _ len, q => q.take (q.length - len)
  | .erase _ len, q => q.drop len
  | .clear _, _ => []
  | .trimLeft _, q => q.dropWhile isspace
  | .trimRight _, q => q.rdropWhile isspace
  | _, q => q

/-- One operation on lists of bytes. -/
def refStep (qs : List (List UInt8)) (op : Op) : List (List UInt8) :=
  match op with
  | .make _ _ => qs ++ [[]]
  | .makeData data => qs ++ [data]
  | .copy j => qs ++ [qs.getD j []]
  | .assign i _ | .append i _ | .reserve i _ | .fill i _ _ _ | .rollback i _ | .erase i _
  | .clear i | .trimLeft i | .trimRight i => qs.set i (refEdit qs op (qs.getD i []))

def refRun (ops : List Op) : List (List UInt8) := ops.foldl refStep []

/-- What an operation requires of its caller, and that no capacity leaves `LenType`. -/
def Valid (w : ℕ) (t : Store) : Op → Prop
  | .make initCapacity _ => 1 ≤ initCapacity ∧ initCapacity < 2 ^ w
  | .makeData data => 1 ≤ data.length ∧ data.length < 2 ^ w
  | .copy j => j < t.bufs.length
  | .assign i j => ∃ b other, t.bufs[i]? = some b ∧ t.bufs[j]? = some other ∧
      NoWrap w b 0 (readableSize w other)
  | .append i data => ∃ b, t.bufs[i]? = some b ∧ NoWrap w b (readableSize w b) data.length
  | .reserve i len => ∃ b, t.bufs[i]? = some b ∧ NoWrap w b (readableSize w b) len
  | .fill i n data m => ∃ b, t.bufs[i]? = some b ∧ NoWrap w b (readableSize w b) n ∧
      data.length ≤ n ∧ m ≤ data.length
  | .rollback i len | .erase i len => ∃ b, t.bufs[i]? = some b ∧ len ≤ readableSize w b
  | .clear i | .trimLeft i | .trimRight i => i < t.bufs.length

def ValidFrom (w : ℕ) (t : Store) (ops : List Op) : Prop := Runs.Along (exec w) (Valid w) t ops

/-! ### The buffers and their queues -/

/-- Every buffer holds its queue, no two share an allocation, and no allocation is left over. -/
structure Owns (w : ℕ) (t : Store) (qs : List (List UInt8)) : Prop where
  length : t.bufs.length = qs.length
  holds : ∀ (i : ℕ) b q, t.bufs[i]? = some b → qs[i]? = some q → Holds w t.mem b q
  apart : ∀ (i j : ℕ) b b', t.bufs[i]? = some b → t.bufs[j]? = some b' →
    b.data_ = b'.data_ → i = j
  live : ∀ p l, t.mem.block p = some l → ∃ b ∈ t.bufs, b.data_ = p

section Steps

variable {t : Store} {qs : List (List UInt8)} {i : ℕ} {b : Buffer} {H' : Memory} {b' : Buffer}

lemma Owns.queue (h : Owns w t qs) (hb : t.bufs[i]? = some b) :
    qs[i]? = some (qs.getD i []) ∧ Holds w t.mem b (qs.getD i []) := by
  have hi : i < qs.length := h.length ▸ (List.getElem?_eq_some_iff.mp hb).1
  have hq : qs[i]? = some (qs.getD i []) := by
    rw [List.getD_eq_getElem?_getD, List.getElem?_eq_getElem hi, Option.getD_some]
  exact ⟨hq, h.holds i b _ hb hq⟩

/-- A change of one buffer. -/
lemma Owns.set (h : Owns w t qs) (hb : t.bufs[i]? = some b) {q' : List UInt8}
    (hh : Holds w H' b' q') (hf : Frame t.mem H' b.data_ b'.data_) :
    Owns w ⟨H', t.bufs.set i b'⟩ (qs.set i q') := by
  have hi : i < t.bufs.length := (List.getElem?_eq_some_iff.mp hb).1
  have hother : ∀ (j : ℕ) c q, j ≠ i → t.bufs[j]? = some c → qs[j]? = some q →
      c.data_ ≠ b'.data_ ∧ Holds w H' c q := fun j c q hj hc hq =>
    hf.holds (h.holds j c q hc hq) fun he => hj (h.apart j i c b hc hb he)
  have hneq : ∀ (j : ℕ) c, j ≠ i → t.bufs[j]? = some c → c.data_ ≠ b'.data_ := fun j c hj hc =>
    (hother j c _ hj hc (h.queue hc).1).1
  refine ⟨by simp [h.length], fun j c q hc hq => ?_, Apart.set h.apart hneq, fun p l hp => ?_⟩
  · by_cases hj : j = i
    · subst hj
      rw [List.getElem?_set_self hi] at hc
      rw [List.getElem?_set_self (h.length ▸ hi)] at hq
      cases hc
      cases hq
      exact hh
    · rw [List.getElem?_set_ne (Ne.symm hj)] at hc hq
      exact (hother j c q hj hc hq).2
  · by_cases hp' : p = b'.data_
    · exact ⟨b', List.mem_set hi b', hp'.symm⟩
    · have hpb : p ≠ b.data_ := by
        rintro rfl
        rcases hf.moved with he | ⟨-, hn⟩
        · exact hp' he.symm
        · rw [hn] at hp; cases hp
      obtain ⟨c, hc, hcp⟩ := h.live p l (hf.others p hpb hp' ▸ hp)
      obtain ⟨j, hj⟩ := List.mem_iff_getElem?.mp hc
      have hji : j ≠ i := by
        rintro rfl
        rw [hb] at hj
        cases hj
        exact hpb hcp.symm
      exact ⟨c, List.mem_iff_getElem?.mpr ⟨j, by rwa [List.getElem?_set_ne (Ne.symm hji)]⟩, hcp⟩

/-- A new buffer. -/
lemma Owns.push (h : Owns w t qs) {q' : List UInt8} (hh : Holds w H' b' q')
    (hf : Fresh t.mem H' b'.data_) : Owns w (t.push (H', b')) (qs ++ [q']) := by
  have hframe : Frame t.mem H' b'.data_ b'.data_ := ⟨fun r hr _ => hf.2 r hr, Or.inl rfl⟩
  have hneq : ∀ (j : ℕ) c, t.bufs[j]? = some c → c.data_ ≠ b'.data_ := fun j c hc he => by
    obtain ⟨l, hl, -, -⟩ := (h.queue hc).2.block
    rw [he, hf.1] at hl
    cases hl
  refine ⟨by simp [Store.push, h.length], fun j c q hc hq => ?_, Apart.snoc h.apart hneq,
    fun p l hp => ?_⟩
  · rcases getElem?_snoc_some hc with ⟨hj, rfl⟩ | ⟨hj, hc⟩ <;>
      rcases getElem?_snoc_some hq with ⟨hj', rfl⟩ | ⟨hj', hq⟩
    · exact hh
    · exact absurd (hj.trans h.length) hj'
    · exact absurd (hj'.trans h.length.symm) hj
    · exact (hframe.holds (h.holds j c q hc hq) (hneq j c hc)).2
  · by_cases hp' : p = b'.data_
    · exact ⟨b', by simp [Store.push], hp'.symm⟩
    · obtain ⟨c, hc, hcp⟩ := h.live p l (hf.2 p hp' ▸ hp)
      exact ⟨c, by simp [Store.push, hc], hcp⟩

lemma Owns.on (h : Owns w t qs) (hb : t.bufs[i]? = some b) {q' : List UInt8}
    {f : Memory → Buffer → Option (Memory × Buffer)}
    (hf : ∃ H' b', f t.mem b = some (H', b') ∧ Holds w H' b' q' ∧
      Frame t.mem H' b.data_ b'.data_) :
    ∃ t', t.on i f = some t' ∧ Owns w t' (qs.set i q') := by
  obtain ⟨H', b', e, hh, hfr⟩ := hf
  exact ⟨_, by simp [Store.on, hb, e], h.set hb hh hfr⟩

lemma Owns.on_index (h : Owns w t qs) (hb : t.bufs[i]? = some b) {q' : List UInt8}
    {f : Memory → Buffer → Option Buffer}
    (hf : ∃ b', f t.mem b = some b' ∧ b'.data_ = b.data_ ∧ Holds w t.mem b' q') :
    ∃ t', (t.on i fun H b => do some (H, ← f H b)) = some t' ∧ Owns w t' (qs.set i q') := by
  obtain ⟨b', e, hp, hh⟩ := hf
  exact h.on hb ⟨t.mem, b', by simp [e], hh, hp ▸ .rfl'⟩

/-- **Every operation acts on its queue.** -/
theorem exec_owns (h : Owns w t qs) {op : Op} (hv : Valid w t op) :
    ∃ t', exec w t op = some t' ∧ Owns w t' (refStep qs op) := by
  have hget : ∀ {i : ℕ}, i < t.bufs.length → ∃ b, t.bufs[i]? = some b := fun hi =>
    ⟨_, List.getElem?_eq_getElem hi⟩
  cases op with
  | make init shrinkCap =>
    obtain ⟨hh, hf⟩ := make_spec t.mem shrinkCap hv.1 hv.2
    exact ⟨_, rfl, h.push hh hf⟩
  | makeData data =>
    obtain ⟨H', b', e, hh, hf⟩ := makeData_spec t.mem hv.1 hv.2
    exact ⟨_, by simp only [exec, e, Option.bind_eq_bind, Option.bind_some], h.push hh hf⟩
  | copy j =>
    obtain ⟨b, hb⟩ := hget hv
    obtain ⟨H', b', e, hh, hf⟩ := copy_spec (h.queue hb).2
    exact ⟨_, by simp only [exec, hb, e, Option.bind_eq_bind, Option.bind_some], h.push hh hf⟩
  | assign i j =>
    obtain ⟨b, other, hb, ho, hn⟩ := hv
    have hq := (h.queue ho).2
    simp only [exec, ho, Option.bind_eq_bind, Option.bind_some, refStep, refEdit]
    split_ifs with hij
    · -- a self-assignment changes nothing, on either side
      subst hij
      have hset : qs.set i (qs.getD i []) = qs := by
        refine List.ext_getElem? fun k => ?_
        by_cases hk : k = i
        · subst hk
          have hlt := (List.getElem?_eq_some_iff.mp (h.queue hb).1).1
          rw [List.getElem?_set_self hlt, (h.queue hb).1]
        · rw [List.getElem?_set_ne (Ne.symm hk)]
      exact ⟨t, rfl, by rwa [hset]⟩
    · exact h.on hb (assign_spec (h.queue hb).2 hq
        (fun he => hij (h.apart j i other b ho hb he).symm) (hq.readable ▸ hn))
  | append i data =>
    obtain ⟨b, hb, hn⟩ := hv
    have hq := (h.queue hb).2
    have hbytes : Yields t.mem b.data_ data (.bytes data) := rfl
    exact h.on (f := fun H b => append w H b (.bytes data) data.length) hb
      (append_spec hq hbytes (hq.readable ▸ hn))
  | reserve i len =>
    obtain ⟨b, hb, hn⟩ := hv
    have hq := (h.queue hb).2
    obtain ⟨H', b', e, hh, hf, -⟩ := reserve_spec hq (hq.readable ▸ hn)
    exact h.on (f := fun H b => reserve w H b len) hb ⟨H', b', e, hh, hf⟩
  | fill i n data m =>
    obtain ⟨b, hb, hn, hd, hm⟩ := hv
    have hq := (h.queue hb).2
    exact h.on (f := fun H b => fill w H b n data m) hb
      (fill_spec hq hd hm (hq.readable ▸ hn))
  | rollback i len =>
    obtain ⟨b, hb, hlen⟩ := hv
    have hq := (h.queue hb).2
    exact h.on_index (f := fun _ b => seekWritePosRollback w b len) hb
      (rollback_spec hq (hq.readable ▸ hlen))
  | erase i len =>
    obtain ⟨b, hb, hlen⟩ := hv
    have hq := (h.queue hb).2
    exact h.on (f := fun H b => erase w H b len) hb
      (erase_spec hq (hq.readable ▸ hlen))
  | clear i =>
    obtain ⟨b, hb⟩ := hget hv
    exact h.on hb (clear_spec (h.queue hb).2)
  | trimLeft i =>
    obtain ⟨b, hb⟩ := hget hv
    exact h.on_index (f := trimLeft w) hb (trimLeft_spec (h.queue hb).2)
  | trimRight i =>
    obtain ⟨b, hb⟩ := hget hv
    exact h.on_index (f := trimRight w) hb (trimRight_spec (h.queue hb).2)

end Steps

/-- **A buffer is a queue of bytes.** No run of operations fails, and after it every buffer
has its indices in order, an allocation of its own of the size of its capacity, and between
the indices the bytes the same operations leave in a list. -/
theorem buffer_refines_queue (w : ℕ) (ops : List Op) (hv : ValidFrom w .empty ops) :
    ∃ t, run w ops = some t ∧ Owns w t (refRun ops) := by
  have h : Owns w .empty [] := ⟨rfl, by simp [Store.empty], by simp [Store.empty],
    fun p l hl => by simp [Store.empty, Heap.empty] at hl⟩
  have hstep : ∀ t q op, Owns w t q → Valid w t op →
      ∃ t', exec w t op = some t' ∧ Owns w t' (refStep q op) := fun _ _ _ h hv => exec_owns h hv
  exact Runs.exec_refines hstep h hv

/-- A buffer of four bytes that grows under five, and gives up two. -/
theorem buffer_refines_queue_grow :
    ∃ ops, ops = [Op.make 4 8, .append 0 [1, 2, 3, 4, 5], .erase 0 2] ∧
      ValidFrom 64 .empty ops ∧ ∃ t, run 64 ops = some t ∧ Owns 64 t [[3, 4, 5]] := by
  refine ⟨_, rfl, ?_⟩
  have hv : ValidFrom 64 .empty [Op.make 4 8, .append 0 [1, 2, 3, 4, 5], .erase 0 2] := by
    refine ⟨⟨by decide, by decide⟩, fun t₁ h₁ => ?_⟩
    cases h₁
    refine ⟨⟨_, rfl, 1, by decide, by decide⟩, fun t₂ h₂ => ?_⟩
    have e : exec 64 (Store.empty.push (make Heap.empty 4 8)) (.append 0 [1, 2, 3, 4, 5]) =
      some _ := rfl
    cases e.symm.trans h₂
    exact ⟨⟨_, rfl, by decide⟩, fun _ _ => trivial⟩
  exact ⟨hv, buffer_refines_queue 64 _ hv⟩

end Libchef.BufferRun
