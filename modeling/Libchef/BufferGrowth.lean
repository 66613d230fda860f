import Libchef.BufferFifo
import Libchef.Base.Runs
import Libchef.Base.Slots

/-!
The loop of `reserve` that doubles the capacity, and when it ends.

A capacity of zero stays zero however often it is doubled. A buffer has that capacity just
when it was constructed with it, or is a copy of such a buffer: no operation brings it about
and none repairs it. Sizes only are followed here, so nothing is asked of the bytes, and runs
whose sizes leave `LenType` on the way are covered too.
-/

namespace Libchef.BufferGrowth

open Libchef.Alloc Libchef.Slots Libchef.BufferModel Libchef.BufferFifo

variable {w : ℕ}

/-! ### The loop -/

lemma grow_zero {need : ℕ} (h : 0 < need) (fuel : ℕ) : grow w need fuel 0 = none := by
  induction fuel with
  | zero => rfl
  | succ fuel ih => rw [grow, if_pos h, shl, Nat.zero_mul, Nat.zero_mod, ih]

lemma grow_of_ge {need cap : ℕ} (h : need ≤ cap) (fuel : ℕ) :
    grow w need (fuel + 1) cap = some cap := by
  rw [grow, if_neg (Nat.not_lt.mpr h)]

/-- Where the loop ends, at whatever cost, the capacity is enough and still a `LenType`. -/
lemma need_le_of_grow {need fuel cap cap' : ℕ} (hw : cap < 2 ^ w)
    (h : grow w need fuel cap = some cap') : need ≤ cap' ∧ cap' < 2 ^ w := by
  induction fuel generalizing cap with
  | zero => cases h
  | succ fuel ih =>
    rw [grow] at h
    split_ifs at h with hlt
    · exact ih (Nat.mod_lt _ (by positivity)) h
    · cases h
      exact ⟨Nat.not_lt.mp hlt, hw⟩

lemma le_of_grow {need fuel cap cap' : ℕ} (hw : cap < 2 ^ w)
    (h : grow w need fuel cap = some cap') : cap ≤ cap' := by
  rcases Nat.lt_or_ge cap need with hlt | hge
  · exact hlt.le.trans (need_le_of_grow hw h).1
  · cases fuel with
    | zero => cases h
    | succ fuel =>
      rw [grow_of_ge hge] at h
      exact (Option.some.inj h).le

lemma grow_eq_zero {need fuel cap cap' : ℕ} (hw : cap < 2 ^ w)
    (h : grow w need fuel cap = some cap') : cap' = 0 ↔ cap = 0 := by
  refine ⟨fun h0 => Nat.le_zero.mp (h0 ▸ le_of_grow hw h), ?_⟩
  rintro rfl
  rcases Nat.eq_zero_or_pos need with rfl | hpos
  · cases fuel with
    | zero => cases h
    | succ fuel =>
      rw [grow_of_ge le_rfl] at h
      exact (Option.some.inj h).symm
  · rw [grow_zero hpos] at h
    cases h

/-- There is room for doubling until a need of half the range of `LenType` is met. -/
lemma exists_doubling {need cap : ℕ} (hcap : 1 ≤ cap) (hw : cap < 2 ^ w)
    (hneed : 2 * need ≤ 2 ^ w) : ∃ j, need ≤ cap * 2 ^ j ∧ cap * 2 ^ j < 2 ^ w := by
  have hex : ∃ j, need ≤ cap * 2 ^ j :=
    ⟨need, Nat.lt_two_pow_self.le.trans (Nat.le_mul_of_pos_left _ hcap)⟩
  refine ⟨Nat.find hex, Nat.find_spec hex, ?_⟩
  cases hj : Nat.find hex with
  | zero => simpa using hw
  | succ j =>
    have hlt : cap * 2 ^ j < need := Nat.not_le.mp (Nat.find_min hex (by omega))
    rw [pow_succ', Nat.mul_left_comm]
    omega

/-! ### What the operations do to sizes -/

/-- The buffer as far as its sizes go. -/
structure Formed (w : ℕ) (H : Memory) (b : Buffer) : Prop where
  init_lt : b.initCapacity_ < 2 ^ w
  cap_lt : b.capacity_ < 2 ^ w
  cap_eq_zero : b.capacity_ = 0 ↔ b.initCapacity_ = 0
  read_le : b.readIndex_ ≤ b.writeIndex_
  write_le : b.writeIndex_ ≤ b.capacity_
  size : H.size b.data_ = some b.capacity_

/-- The other allocations keep their sizes, and none of them is the new one. -/
def Shifts (H H' : Memory) (p p' : Ptr) : Prop :=
  ∀ r ≠ p, H.size r ≠ none → r ≠ p' ∧ H'.size r = H.size r

variable {H H' H'' : Memory} {b b' : Buffer} {p p' : Ptr} {len : ℕ}

lemma Shifts.of_size (h : H'.size = H.size) (p : Ptr) : Shifts H H' p p :=
  fun r hr _ => ⟨hr, by rw [h]⟩

lemma Shifts.then_size (h : Shifts H H' p p') (hs : H''.size = H'.size) : Shifts H H'' p p' := by
  intro r hr hn
  rw [hs]
  exact h r hr hn

lemma Formed.of_size (h : Formed w H b) (hs : H'.size = H.size) : Formed w H' b :=
  { h with size := by rw [hs, h.size] }

lemma Formed.readable (h : Formed w H b) : readableSize w b = b.writeIndex_ - b.readIndex_ :=
  sub_eq h.read_le (h.write_le.trans_lt h.cap_lt)

/-- The bytes moved to another allocation. -/
lemma Formed.realloc (h : Formed w H b) {cap : ℕ} (hcap : cap < 2 ^ w)
    (hzero : cap = 0 ↔ b.initCapacity_ = 0) (hle : readableSize w b ≤ cap) :
    ∃ H₁ H', (H.new cap).2.memcpy (H.new cap).1 0 b.data_ b.readIndex_ (readableSize w b) =
        some H₁ ∧ H₁.delete b.data_ = some H' ∧
      Formed w H' { b with
        capacity_ := cap, writeIndex_ := readableSize w b, readIndex_ := 0,
        data_ := (H.new cap).1 } ∧
      Shifts H H' b.data_ (H.new cap).1 := by
  have hread := h.readable
  have hrw := h.read_le
  have hwrite := h.write_le
  have hne : b.data_ ≠ (H.new cap).1 := fun he => by
    have hs := h.size
    rw [he, Heap.size_new_fst] at hs
    cases hs
  have hsrc : (H.new cap).2.size b.data_ = some b.capacity_ := by
    rw [Heap.size_new, if_neg hne, h.size]
  have hdst : (H.new cap).2.size (H.new cap).1 = some cap := by rw [Heap.size_new, if_pos rfl]
  obtain ⟨H₁, e₁⟩ := Heap.memcpy_eq_some (i := 0) hdst (by omega) hsrc
    (show b.readIndex_ + readableSize w b ≤ _ by omega) hne.symm
  have hs₁ := (Heap.size_memcpy e₁).1
  obtain ⟨H', e₂⟩ := Heap.delete_eq_some (hs₁ ▸ hsrc)
  have hs₂ := Heap.size_delete e₂
  refine ⟨H₁, H', e₁, e₂, ⟨h.init_lt, hcap, hzero, Nat.zero_le _, hle, ?_⟩, fun r hr hn => ?_⟩
  · rw [hs₂, if_neg hne.symm, hs₁, hdst]
  · have hr' : r ≠ (H.new cap).1 := by
      rintro rfl
      exact hn Heap.size_new_fst
    exact ⟨hr', by rw [hs₂, if_neg hr, hs₁, Heap.size_new, if_neg hr']⟩

/-- Where the loop ends, `reserve` does, and there is room then. -/
theorem reserve_formed (h : Formed w H b) {cap : ℕ}
    (hg : grow w (add w (readableSize w b) len) (w + 1) b.capacity_ = some cap) :
    ∃ H' b', reserve w H b len = some (H', b') ∧ Formed w H' b' ∧
      Shifts H H' b.data_ b'.data_ ∧
      (readableSize w b + len < 2 ^ w → len ≤ b'.capacity_ - b'.writeIndex_) := by
  have hread := h.readable
  have hrw := h.read_le
  have hwrite := h.write_le
  have hroom : sub w b.capacity_ b.writeIndex_ = b.capacity_ - b.writeIndex_ :=
    sub_eq hwrite h.cap_lt
  unfold reserve
  split_ifs with h1 h2
  · exact ⟨H, b, rfl, h, .of_size rfl _, fun _ => by omega⟩
  · obtain ⟨H', e⟩ := Heap.memmove_eq_some (i := 0) h.size (show 0 + readableSize w b ≤ _ by omega)
      h.size (show b.readIndex_ + readableSize w b ≤ _ by omega)
    have hs := (Heap.size_memmove e).1
    refine ⟨H', { b with writeIndex_ := readableSize w b, readIndex_ := 0 },
      by simp only [e, Option.bind_eq_bind, Option.bind_some], ?_, .of_size hs _, fun _ => ?_⟩
    · exact { h with
        read_le := Nat.zero_le _
        write_le := show readableSize w b ≤ b.capacity_ by omega
        size := by rw [hs, h.size] }
    · have hcap := h.cap_lt
      rw [hroom, add_eq (by omega)] at h2
      show len ≤ b.capacity_ - readableSize w b
      omega
  · have hle := le_of_grow h.cap_lt hg
    obtain ⟨hneed, hcw⟩ := need_le_of_grow h.cap_lt hg
    obtain ⟨H₁, H', e₁, e₂, hf, hs⟩ := h.realloc hcw
      ((grow_eq_zero h.cap_lt hg).trans h.cap_eq_zero) (show readableSize w b ≤ cap by omega)
    refine ⟨H', _, by simp only [hg, Option.bind_eq_bind, Option.bind_some, e₁, e₂], hf, hs,
      fun hlen => ?_⟩
    rw [add_eq hlen] at hneed
    show len ≤ cap - readableSize w b
    omega

lemma grow_of_reserve (h : Formed w H b) {r : Memory × Buffer}
    (e : reserve w H b len = some r) :
    ∃ cap, grow w (add w (readableSize w b) len) (w + 1) b.capacity_ = some cap := by
  have hread := h.readable
  have hrw := h.read_le
  have hwrite := h.write_le
  have hcap := h.cap_lt
  have hroom : sub w b.capacity_ b.writeIndex_ = b.capacity_ - b.writeIndex_ := sub_eq hwrite hcap
  have hneed : add w (readableSize w b) len ≤ readableSize w b + len := Nat.mod_le _ _
  rw [reserve] at e
  split_ifs at e with h1 h2
  · exact ⟨_, grow_of_ge (by omega) _⟩
  · rw [hroom, add_eq (by omega)] at h2
    exact ⟨_, grow_of_ge (by omega) _⟩
  · obtain ⟨cap, hg, -⟩ := Option.bind_eq_some_iff.mp e
    exact ⟨cap, hg⟩

/-- An operation that keeps a buffer in form, and the sizes of the other allocations. -/
def Keeps (w : ℕ) (f : Memory → Buffer → Option (Memory × Buffer)) : Prop :=
  ∀ H b H' b', Formed w H b → f H b = some (H', b') → Formed w H' b' ∧ Shifts H H' b.data_ b'.data_

lemma reserve_keeps (len : ℕ) : Keeps w fun H b => reserve w H b len := by
  intro H b H' b' h e
  obtain ⟨cap, hg⟩ := grow_of_reserve h e
  obtain ⟨H₁, b₁, e₁, hf, hs, -⟩ := reserve_formed h hg
  cases e.symm.trans e₁
  exact ⟨hf, hs⟩

lemma size_copyTo {src : Source} {i n : ℕ} (h : src.copyTo H p i n = some H') :
    H'.size = H.size ∧ ∃ m, H.size p = some m ∧ i + n ≤ m := by
  cases src with
  | bytes data =>
    rw [Source.copyTo] at h
    split_ifs at h with hn
    have := Heap.size_write h
    rwa [List.length_map, List.length_take_of_le hn] at this
  | cells q j => exact Heap.size_memcpy h

lemma Formed.advance (h : Formed w H b) (hlen : b.writeIndex_ + len ≤ b.capacity_) :
    Formed w H { b with writeIndex_ := add w b.writeIndex_ len } := by
  have hrw := h.read_le
  rw [add_eq (hlen.trans_lt h.cap_lt)]
  exact { h with
    read_le := show b.readIndex_ ≤ b.writeIndex_ + len by omega
    write_le := hlen }

lemma append_keeps (src : Source) (len : ℕ) : Keeps w fun H b => append w H b src len := by
  intro H b H' b' h e
  obtain ⟨⟨H₁, b₁⟩, e₁, e⟩ := Option.bind_eq_some_iff.mp e
  obtain ⟨H₂, e₂, e⟩ := Option.bind_eq_some_iff.mp e
  cases e
  obtain ⟨h₁, hs₁⟩ := reserve_keeps len H b H₁ b₁ h e₁
  obtain ⟨hs₂, n, hn, hle⟩ := size_copyTo e₂
  rw [h₁.size, Option.some.injEq] at hn
  exact ⟨(h₁.of_size hs₂).advance (hn ▸ hle), hs₁.then_size hs₂⟩

lemma fill_keeps (n : ℕ) (data : List UInt8) (m : ℕ) :
    Keeps w fun H b => fill w H b n data m := by
  intro H b H' b' h e
  obtain ⟨⟨H₁, b₁⟩, e₁, e⟩ := Option.bind_eq_some_iff.mp e
  obtain ⟨H₂, e₂, e⟩ := Option.bind_eq_some_iff.mp e
  obtain ⟨b₂, e₃, e⟩ := Option.bind_eq_some_iff.mp e
  cases e
  obtain ⟨h₁, hs₁⟩ := reserve_keeps n H b H₁ b₁ h e₁
  have hs₂ := (Heap.size_write e₂).1
  rw [seekWritePos, sub_eq h₁.write_le h₁.cap_lt] at e₃
  split_ifs at e₃ with hm
  cases e₃
  have hwrite := h₁.write_le
  exact ⟨(h₁.of_size hs₂).advance (by omega), hs₁.then_size hs₂⟩

lemma Formed.narrow (h : Formed w H b) {r u : ℕ} (hru : r ≤ u) (hu : u ≤ b.writeIndex_) :
    Formed w H { b with readIndex_ := r, writeIndex_ := u } :=
  { h with
    read_le := hru
    write_le := hu.trans h.write_le }

lemma rollback_keeps (len : ℕ) :
    Keeps w (fun H b => do some (H, ← seekWritePosRollback w b len)) := by
  intro H b H' b' h e
  obtain ⟨b₁, e₁, e⟩ := Option.bind_eq_some_iff.mp e
  cases e
  have hrw := h.read_le
  have hlt := h.write_le.trans_lt h.cap_lt
  rw [seekWritePosRollback, sub_eq hrw hlt] at e₁
  split_ifs at e₁ with hlen
  cases e₁
  rw [sub_eq (by omega) hlt]
  exact ⟨h.narrow (by omega) (Nat.sub_le _ _), .of_size rfl _⟩

lemma shrink_keeps : Keeps w (shrink w) := by
  intro H b H' b' h e
  rw [shrink] at e
  split_ifs at e with hc
  · obtain ⟨H₁, H₂, e₁, e₂, hf, hs⟩ := h.realloc h.init_lt Iff.rfl (le_of_lt hc.1)
    simp only [Option.bind_eq_bind, e₁, e₂, Option.bind_some, Option.some.injEq] at e
    cases e
    exact ⟨hf, hs⟩
  · cases e
    exact ⟨h, .of_size rfl _⟩

lemma erase_keeps (len : ℕ) : Keeps w fun H b => erase w H b len := by
  intro H b H' b' h e
  have hrw := h.read_le
  have hlt := h.write_le.trans_lt h.cap_lt
  simp only [erase, sub_eq hrw hlt] at e
  split_ifs at e with hlen
  rw [add_eq (by omega)] at e
  exact shrink_keeps H { b with readIndex_ := b.readIndex_ + len } H' b'
    (h.narrow (by omega) le_rfl) e

lemma clear_keeps : Keeps w clear := by
  intro H b H' b' h e
  rw [clear] at e
  split_ifs at e with hc
  · obtain ⟨H₁, e₁, e⟩ := Option.bind_eq_some_iff.mp e
    have e : some ((H₁.new b.initCapacity_).2, { b with
        readIndex_ := 0, writeIndex_ := 0, capacity_ := b.initCapacity_,
        data_ := (H₁.new b.initCapacity_).1 }) = some (H', b') := e
    obtain ⟨rfl, rfl⟩ := Prod.mk.inj (Option.some.inj e)
    have hs₁ := Heap.size_delete e₁
    refine ⟨⟨h.init_lt, h.init_lt, Iff.rfl, le_rfl, Nat.zero_le _, ?_⟩, fun r hr hn => ?_⟩
    · rw [Heap.size_new, if_pos rfl]
    · have hsize : H₁.size r = H.size r := by rw [hs₁, if_neg hr]
      have hr' : r ≠ (H₁.new b.initCapacity_).1 := by
        rintro rfl
        exact hn (hsize ▸ Heap.size_new_fst)
      exact ⟨hr', by rw [Heap.size_new, if_neg hr', hsize]⟩
  · cases e
    exact ⟨h.narrow le_rfl (Nat.zero_le _), .of_size rfl _⟩

lemma trimLeftLoop_bound {left r r' : ℕ} (hw : r + left < 2 ^ w)
    (e : trimLeftLoop w H p left r = some r') : r' ≤ r + left := by
  induction left generalizing r with
  | zero =>
    cases e
    exact le_rfl
  | succ left ih =>
    obtain ⟨ch, -, e⟩ := Option.bind_eq_some_iff.mp e
    split_ifs at e
    · rw [add_eq (by omega)] at e
      have := ih (by omega) e
      omega
    · cases e
      omega

lemma trimLeft_keeps : Keeps w (fun H b => do some (H, ← trimLeft w H b)) := by
  intro H b H' b' h e
  obtain ⟨b₁, e₁, e⟩ := Option.bind_eq_some_iff.mp e
  cases e
  obtain ⟨r, e₂, e₁⟩ := Option.bind_eq_some_iff.mp e₁
  cases e₁
  have hread := h.readable
  have hrw := h.read_le
  have hlt := h.write_le.trans_lt h.cap_lt
  have hr := trimLeftLoop_bound (by omega) e₂
  exact ⟨h.narrow (by omega) le_rfl, .of_size rfl _⟩

lemma trimRightLoop_bound {left u u' : ℕ} (hw : u < 2 ^ w) (hu : left ≤ u)
    (e : trimRightLoop w H p left u = some u') : u' ≤ u ∧ u ≤ u' + left := by
  induction left generalizing u with
  | zero =>
    cases e
    exact ⟨le_rfl, le_rfl⟩
  | succ left ih =>
    obtain ⟨ch, -, e⟩ := Option.bind_eq_some_iff.mp e
    split_ifs at e
    · rw [sub_eq (by omega) hw] at e
      have := ih (by omega) (by omega) e
      omega
    · cases e
      omega

lemma trimRight_keeps : Keeps w (fun H b => do some (H, ← trimRight w H b)) := by
  intro H b H' b' h e
  obtain ⟨b₁, e₁, e⟩ := Option.bind_eq_some_iff.mp e
  cases e
  obtain ⟨u, e₂, e₁⟩ := Option.bind_eq_some_iff.mp e₁
  cases e₁
  have hread := h.readable
  have hrw := h.read_le
  have hlt := h.write_le.trans_lt h.cap_lt
  have hu := trimRightLoop_bound hlt (by omega) e₂
  exact ⟨h.narrow (by omega) hu.1, .of_size rfl _⟩

/-! ### Runs -/

/-- Every buffer is in form, and no two share an allocation. -/
structure Sized (w : ℕ) (t : Store) : Prop where
  formed : ∀ (i : ℕ) b, t.bufs[i]? = some b → Formed w t.mem b
  apart : Apart Buffer.data_ t.bufs

/-- What the constructors are given are values of `LenType`. -/
def Fits (w : ℕ) : Op → Prop
  | .make initCapacity _ => initCapacity < 2 ^ w
  | .makeData data => data.length < 2 ^ w
  | _ => True

section Runs

variable {t t' : Store} {i : ℕ}

lemma Sized.size_ne_none (h : Sized w t) (hb : t.bufs[i]? = some b) :
    t.mem.size b.data_ ≠ none := by
  simp [(h.formed i b hb).size]

lemma Formed.shifts (h : Formed w H b) (hs : Shifts H H' p p') (hne : b.data_ ≠ p) :
    b.data_ ≠ p' ∧ Formed w H' b := by
  obtain ⟨hp', he⟩ := hs b.data_ hne (by simp [h.size])
  exact ⟨hp', { h with size := by rw [he, h.size] }⟩

lemma Sized.on (h : Sized w t) {f : Memory → Buffer → Option (Memory × Buffer)} (hf : Keeps w f)
    (e : t.on i f = some t') : Sized w t' := by
  obtain ⟨b, hb, e⟩ := Option.bind_eq_some_iff.mp e
  obtain ⟨⟨H', b'⟩, e₁, e⟩ := Option.bind_eq_some_iff.mp e
  cases e
  obtain ⟨hb', hs⟩ := hf t.mem b H' b' (h.formed i b hb) e₁
  have hother (j : ℕ) (c : Buffer) (hj : j ≠ i) (hc : t.bufs[j]? = some c) :=
    (h.formed j c hc).shifts hs fun he => hj (h.apart j i c b hc hb he)
  refine ⟨fun j c hc => ?_, h.apart.set fun j c hj hc => (hother j c hj hc).1⟩
  rcases getElem?_set_some hc with ⟨rfl, rfl⟩ | ⟨hj, hc⟩
  · exact hb'
  · exact (hother j c hj hc).2

lemma Sized.append_new (h : Sized w t) {init shrinkCap cap : ℕ} (hi : init < 2 ^ w)
    (hc : cap < 2 ^ w) (hz : cap = 0 ↔ init = 0) {src : Source}
    (e : append w (t.mem.new cap).2 ⟨init, shrinkCap, cap, 0, 0, (t.mem.new cap).1⟩ src len =
      some (H', b')) : Sized w (t.push (H', b')) := by
  have hnew : Formed w (t.mem.new cap).2 ⟨init, shrinkCap, cap, 0, 0, (t.mem.new cap).1⟩ :=
    ⟨hi, hc, hz, le_rfl, Nat.zero_le _, by rw [Heap.size_new, if_pos rfl]⟩
  obtain ⟨hb', hs⟩ := append_keeps src len _ _ H' b' hnew e
  have hother (j : ℕ) (c : Buffer) (hc : t.bufs[j]? = some c) :
      c.data_ ≠ b'.data_ ∧ Formed w H' c := by
    have hne : c.data_ ≠ (t.mem.new cap).1 := fun he =>
      h.size_ne_none hc (he ▸ Heap.size_new_fst)
    have hf := h.formed j c hc
    refine Formed.shifts { hf with size := ?_ } hs hne
    rw [Heap.size_new, if_neg hne, hf.size]
  refine ⟨fun j c hc => ?_, h.apart.snoc fun j c hc => (hother j c hc).1⟩
  rcases getElem?_snoc_some hc with ⟨-, rfl⟩ | ⟨-, hc⟩
  · exact hb'
  · exact (hother j c hc).2

lemma Sized.make (h : Sized w t) {init : ℕ} (shrinkCap : ℕ) (hi : init < 2 ^ w) :
    Sized w (t.push (make t.mem init shrinkCap)) := by
  have hne (j : ℕ) (c : Buffer) (hc : t.bufs[j]? = some c) : c.data_ ≠ (t.mem.new init).1 :=
    fun he => h.size_ne_none hc (he ▸ Heap.size_new_fst)
  refine ⟨fun j c hc => ?_, h.apart.snoc hne⟩
  rcases getElem?_snoc_some hc with ⟨-, rfl⟩ | ⟨-, hc⟩
  · exact ⟨hi, hi, Iff.rfl, le_rfl, Nat.zero_le _, by
      show (t.mem.new init).2.size (t.mem.new init).1 = _
      rw [Heap.size_new, if_pos rfl]; rfl⟩
  · have hf := h.formed j c hc
    refine { hf with size := ?_ }
    show (t.mem.new init).2.size c.data_ = _
    rw [Heap.size_new, if_neg (hne j c hc), hf.size]

/-- **Every operation keeps all buffers in form.** -/
theorem exec_sized (h : Sized w t) {op : Op} (hfit : Fits w op) (e : exec w t op = some t') :
    Sized w t' := by
  cases op with
  | make init shrinkCap =>
    cases e
    exact h.make shrinkCap hfit
  | makeData data =>
    obtain ⟨⟨H', b'⟩, e₁, e⟩ := Option.bind_eq_some_iff.mp e
    cases e
    exact h.append_new hfit hfit Iff.rfl e₁
  | copy j =>
    obtain ⟨b, hb, e⟩ := Option.bind_eq_some_iff.mp e
    obtain ⟨⟨H', b'⟩, e₁, e⟩ := Option.bind_eq_some_iff.mp e
    cases e
    have hf := h.formed j b hb
    exact h.append_new hf.init_lt hf.cap_lt hf.cap_eq_zero e₁
  | assign i j =>
    obtain ⟨other, -, e⟩ := Option.bind_eq_some_iff.mp e
    split_ifs at e
    · cases e
      exact h
    · refine h.on (fun H b H' b' hb e => ?_) e
      exact append_keeps _ _ H { b with readIndex_ := 0, writeIndex_ := 0 } H' b'
        (hb.narrow le_rfl (Nat.zero_le _)) e
  | append i data => exact h.on (append_keeps (.bytes data) data.length) e
  | reserve i len => exact h.on (reserve_keeps len) e
  | fill i n data m => exact h.on (fill_keeps n data m) e
  | rollback i len => exact h.on (rollback_keeps len) e
  | erase i len => exact h.on (erase_keeps len) e
  | clear i => exact h.on clear_keeps e
  | trimLeft i => exact h.on trimLeft_keeps e
  | trimRight i => exact h.on trimRight_keeps e

lemma run_sized {ops : List Op} (hfit : ∀ op ∈ ops, Fits w op) (e : run w ops = some t) :
    Sized w t := by
  have h : Sized w .empty := ⟨by simp [Store.empty], apart_nil _⟩
  have hstep : ∀ s op s', Sized w s → Fits w op → exec w s op = some s' → Sized w s' :=
    fun _ _ _ h hfit e => exec_sized h hfit e
  exact Runs.exec_invariant hstep h (Runs.along_of_forall hfit) e

end Runs

/-! ### When growth ends -/

/-- The loop that doubles the capacity for `len` more bytes comes to its end. -/
def LoopEnds (w : ℕ) (b : Buffer) (len : ℕ) : Prop :=
  ∃ fuel cap, grow w (add w (readableSize w b) len) fuel b.capacity_ = some cap

lemma Formed.grow_iff (h : Formed w H b) (hlen : 2 * (readableSize w b + len) ≤ 2 ^ w) :
    (b.initCapacity_ ≠ 0 ∨ len = 0 →
      ∃ cap, grow w (add w (readableSize w b) len) (w + 1) b.capacity_ = some cap) ∧
    (LoopEnds w b len → b.initCapacity_ ≠ 0 ∨ len = 0) := by
  have hread := h.readable
  have hwrite := h.write_le
  have hcap := h.cap_lt
  have hneed : add w (readableSize w b) len = readableSize w b + len := add_eq (by omega)
  rw [LoopEnds, hneed]
  constructor
  · rintro (hi | rfl)
    · have hpos : 1 ≤ b.capacity_ := Nat.pos_of_ne_zero fun h0 => hi (h.cap_eq_zero.mp h0)
      obtain ⟨j, hj, hjw⟩ := exists_doubling hpos hcap hlen
      have hjlt : j < w := by
        refine (Nat.pow_lt_pow_iff_right (by decide : 1 < 2)).mp (lt_of_le_of_lt ?_ hjw)
        exact Nat.le_mul_of_pos_left _ hpos
      obtain ⟨k, e, -⟩ := grow_eq hj hjw (show j < w + 1 by omega)
      exact ⟨_, e⟩
    · exact ⟨_, grow_of_ge (by omega) w⟩
  · rintro ⟨fuel, cap, e⟩
    by_contra hc
    obtain ⟨hi, hlen0⟩ := not_or.mp hc
    rw [h.cap_eq_zero.mpr (not_not.mp hi), grow_zero (by omega)] at e
    cases e

/-- **When growth ends.** After any run of operations, for any `len` with which the buffer
needs at most half the range of `LenType`: the loop comes to its end, and `reserve` and
`append` with it, if and only if the buffer's initial capacity is not zero or `len` is. -/
theorem growth_ends_iff {ops : List Op} {t : Store} {i : ℕ} (hfit : ∀ op ∈ ops, Fits w op)
    (e : run w ops = some t) (hb : t.bufs[i]? = some b)
    (hlen : 2 * (readableSize w b + len) ≤ 2 ^ w) :
    (LoopEnds w b len ↔ b.initCapacity_ ≠ 0 ∨ len = 0) ∧
    ((reserve w t.mem b len).isSome ↔ b.initCapacity_ ≠ 0 ∨ len = 0) ∧
    ∀ data : List UInt8, data.length = len →
      ((append w t.mem b (.bytes data) len).isSome ↔ b.initCapacity_ ≠ 0 ∨ len = 0) := by
  have hf := (run_sized hfit e).formed i b hb
  obtain ⟨hgrow, hback⟩ := hf.grow_iff hlen
  -- what comes back from `reserve` has been through the loop
  have hres {r : Memory × Buffer} (er : reserve w t.mem b len = some r) :
      b.initCapacity_ ≠ 0 ∨ len = 0 := by
    obtain ⟨cap, hg⟩ := grow_of_reserve hf er
    exact hback ⟨_, cap, hg⟩
  refine ⟨⟨hback, fun hc => ⟨w + 1, hgrow hc⟩⟩, ⟨fun hs => ?_, fun hc => ?_⟩,
    fun data hd => ⟨fun hs => ?_, fun hc => ?_⟩⟩
  · obtain ⟨r, er⟩ := Option.isSome_iff_exists.mp hs
    exact hres er
  · obtain ⟨cap, hg⟩ := hgrow hc
    obtain ⟨H', b', er, -⟩ := reserve_formed hf hg
    rw [er, Option.isSome_some]
  · obtain ⟨r, ea⟩ := Option.isSome_iff_exists.mp hs
    obtain ⟨r', er, -⟩ := Option.bind_eq_some_iff.mp ea
    exact hres er
  · obtain ⟨cap, hg⟩ := hgrow hc
    obtain ⟨H', b', er, hf', -, hroom⟩ := reserve_formed hf hg
    have hwrite := hf'.write_le
    have hfree := hroom (by have := Nat.two_pow_pos w; omega)
    have hfits : b'.writeIndex_ + ((data.take len).map some).length ≤ b'.capacity_ := by
      simp only [List.length_map, List.length_take]
      omega
    obtain ⟨H₂, ew⟩ := Heap.write_eq_some hf'.size hfits
    simp only [append, er, Option.bind_eq_bind, Option.bind_some, Source.copyTo,
      if_pos (Nat.le_of_eq hd.symm), ew, Option.isSome_some]

/-- A buffer of three bytes that is asked for four. -/
theorem growth_ends_iff_three : ∃ t b, run 64 [.make 3 8] = some t ∧ t.bufs[0]? = some b ∧
    ((LoopEnds 64 b 4 ↔ b.initCapacity_ ≠ 0 ∨ 4 = 0) ∧
    ((reserve 64 t.mem b 4).isSome ↔ b.initCapacity_ ≠ 0 ∨ 4 = 0) ∧
    ∀ data : List UInt8, data.length = 4 →
      ((append 64 t.mem b (.bytes data) 4).isSome ↔ b.initCapacity_ ≠ 0 ∨ 4 = 0)) := by
  refine ⟨_, _, rfl, rfl, growth_ends_iff (i := 0) (?_ : ∀ op ∈ [.make 3 8], Fits 64 op) rfl rfl ?_⟩
  · intro op ho
    rw [List.mem_singleton.mp ho]
    show 3 < 2 ^ 64
    decide
  · decide

/-- A buffer constructed with capacity zero is asked for one byte: the capacity is doubled for
ever. -/
theorem growth_never_ends : ∃ t b, run 64 [.make 0 1048576] = some t ∧ t.bufs[0]? = some b ∧
    readableSize 64 b + 1 ≤ 2 ^ 62 ∧
    (∀ fuel, grow 64 (add 64 (readableSize 64 b) 1) fuel b.capacity_ = none) ∧
    reserve 64 t.mem b 1 = none ∧ append 64 t.mem b (.bytes [7]) 1 = none :=
  ⟨_, _, rfl, rfl, by decide, grow_zero (by decide), rfl, rfl⟩

end Libchef.BufferGrowth
