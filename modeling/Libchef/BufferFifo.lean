import Libchef.BufferModel
import Mathlib.Data.List.DropRight
import Mathlib.Data.List.Forall2
import Mathlib.Tactic.Linarith

/-!
A buffer is a queue of bytes.

Each operation on a buffer that holds a queue succeeds, leaves it with the queue the same
operation makes of a list of bytes, and changes no allocation but its own.
-/

namespace Libchef.BufferFifo

open Libchef.Alloc Libchef.BufferModel

variable {w : ℕ}

/-- The buffer is well formed, its allocation is as large as its capacity, and between its
indices it holds the bytes of `q`. -/
structure Holds (w : ℕ) (H : Memory) (b : Buffer) (q : List UInt8) : Prop where
  init_pos : 1 ≤ b.initCapacity_
  init_lt : b.initCapacity_ < 2 ^ w
  cap_pos : 1 ≤ b.capacity_
  cap_lt : b.capacity_ < 2 ^ w
  read_le : b.readIndex_ ≤ b.writeIndex_
  write_le : b.writeIndex_ ≤ b.capacity_
  block : ∃ l, H.block b.data_ = some l ∧ l.length = b.capacity_ ∧
    window l b.readIndex_ (b.writeIndex_ - b.readIndex_) = q.map some

/-- The memory changes in one allocation only, which may move. -/
structure Frame (H H' : Memory) (p p' : Ptr) : Prop where
  others : ∀ r, r ≠ p → r ≠ p' → H'.block r = H.block r
  moved : p' = p ∨ H.block p' = none ∧ H'.block p = none

/-- Doubling the capacity until `len` more bytes fit does not leave `LenType`. -/
def NoWrap (w : ℕ) (b : Buffer) (used len : ℕ) : Prop :=
  ∃ j, used + len ≤ b.capacity_ * 2 ^ j ∧ b.capacity_ * 2 ^ j < 2 ^ w

/-- A source that is not the allocation at `p` yields the bytes `d`. -/
def Yields (H : Memory) (p : Ptr) (d : List UInt8) : Source → Prop
  | .bytes data => data = d
  | .cells r i => r ≠ p ∧ ∃ l, H.block r = some l ∧ i + d.length ≤ l.length ∧
      window l i d.length = d.map some

section Frames

variable {H H' H'' : Memory} {p p' : Ptr}

lemma Frame.rfl' : Frame H H p p := ⟨fun _ _ _ => rfl, Or.inl rfl⟩

lemma Frame.then_write (h : Frame H H' p p') (h' : ∀ r ≠ p', H''.block r = H'.block r) :
    Frame H H'' p p' := by
  refine ⟨fun r hp hp' => (h' r hp').trans (h.others r hp hp'), ?_⟩
  rcases h.moved with rfl | ⟨hn, ho⟩
  · exact Or.inl rfl
  · by_cases hpp : p' = p
    · exact Or.inl hpp
    · exact Or.inr ⟨hn, (h' p (Ne.symm hpp)).trans ho⟩

lemma Frame.block_ne (h : Frame H H' p p') {r : Ptr} {l : List (Option UInt8)}
    (hr : H.block r = some l) (hne : r ≠ p) : r ≠ p' ∧ H'.block r = some l := by
  have hp' : r ≠ p' := by
    rintro rfl
    rcases h.moved with rfl | ⟨hn, -⟩
    · exact hne rfl
    · rw [hn] at hr; cases hr
  exact ⟨hp', (h.others r hne hp').trans hr⟩

lemma Frame.holds (h : Frame H H' p p') {b : Buffer} {q : List UInt8} (hb : Holds w H b q)
    (hne : b.data_ ≠ p) : b.data_ ≠ p' ∧ Holds w H' b q := by
  obtain ⟨l, hl, hlen, hwin⟩ := hb.block
  obtain ⟨h1, h2⟩ := h.block_ne hl hne
  exact ⟨h1, { hb with block := ⟨l, h2, hlen, hwin⟩ }⟩

lemma Frame.yields (h : Frame H H' p p') {d : List UInt8} {src : Source}
    (hs : Yields H p d src) : Yields H' p' d src := by
  cases src with
  | bytes data => exact hs
  | cells r i =>
    obtain ⟨hne, l, hl, hlen, hwin⟩ := hs
    obtain ⟨h1, h2⟩ := h.block_ne hl hne
    exact ⟨h1, l, h2, hlen, hwin⟩

end Frames

section Specs

variable {H : Memory} {b : Buffer} {q : List UInt8}

lemma Holds.length (h : Holds w H b q) : q.length = b.writeIndex_ - b.readIndex_ := by
  obtain ⟨l, -, hlen, hwin⟩ := h.block
  have := congrArg List.length hwin
  have h1 := h.read_le
  have h2 := h.write_le
  rw [length_window (by omega), List.length_map] at this
  exact this.symm

lemma Holds.readable (h : Holds w H b q) : readableSize w b = q.length := by
  have h2 := h.write_le
  have h3 := h.cap_lt
  rw [readableSize, sub_eq h.read_le (by omega), h.length]

/-! ### Growing -/

/-- The loop ends with the least doubling that is enough. -/
lemma grow_eq {need cap j : ℕ} (hj : need ≤ cap * 2 ^ j) (hw : cap * 2 ^ j < 2 ^ w) {fuel : ℕ}
    (hf : j < fuel) :
    ∃ i, grow w need fuel cap = some (cap * 2 ^ i) ∧ need ≤ cap * 2 ^ i ∧ cap * 2 ^ i < 2 ^ w ∧
      ∀ i', need ≤ cap * 2 ^ i' → i ≤ i' := by
  induction j generalizing cap fuel with
  | zero =>
    obtain ⟨fuel, rfl⟩ := Nat.exists_eq_succ_of_ne_zero (Nat.ne_of_gt hf)
    rw [pow_zero, Nat.mul_one] at hj hw
    exact ⟨0, by rw [grow, if_neg (by omega), pow_zero, Nat.mul_one], by simpa using hj,
      by simpa using hw, fun i' _ => Nat.zero_le i'⟩
  | succ j ih =>
    obtain ⟨fuel, rfl⟩ := Nat.exists_eq_succ_of_ne_zero (Nat.ne_of_gt (Nat.zero_lt_of_lt hf))
    rw [pow_succ', ← Nat.mul_assoc] at hj hw
    have hle : cap * 2 ≤ cap * 2 * 2 ^ j := Nat.le_mul_of_pos_right _ (by positivity)
    have hsucc (i : ℕ) : cap * 2 ^ (i + 1) = cap * 2 * 2 ^ i := by rw [pow_succ', Nat.mul_assoc]
    rw [grow]
    split_ifs with hlt
    · rw [shl_eq (by omega)]
      obtain ⟨i, h1, h2, h3, h4⟩ := ih hj hw (show j < fuel by omega)
      refine ⟨i + 1, by rw [h1, hsucc], by rwa [hsucc], by rwa [hsucc], fun i' hi' => ?_⟩
      cases i' with
      | zero => exact absurd hi' (by omega)
      | succ i' => exact Nat.succ_le_succ (h4 i' (by rwa [← hsucc]))
    · exact ⟨0, by rw [pow_zero, Nat.mul_one], by omega, by omega, fun i' _ => Nat.zero_le i'⟩

lemma Holds.move (h : Holds w H b q) {H' : Memory} {p : Ptr} {cap : ℕ} {l : List (Option UInt8)}
    (hl : H'.block p = some l) (hlen : l.length = cap) (hq : q.length ≤ cap) (hpos : 1 ≤ cap)
    (hcap : cap < 2 ^ w) (hwin : window l 0 q.length = q.map some) :
    Holds w H' { b with
      capacity_ := cap, writeIndex_ := readableSize w b, readIndex_ := 0, data_ := p } q := by
  rw [h.readable]
  exact ⟨h.init_pos, h.init_lt, hpos, hcap, Nat.zero_le _, hq, l, hl, hlen, by simpa using hwin⟩

/-- The steps by which `reserve` and `erase` change allocations. -/
lemma Holds.realloc (h : Holds w H b q) {cap : ℕ} (hq : q.length ≤ cap) (hpos : 1 ≤ cap)
    (hcap : cap < 2 ^ w) :
    ∃ H₁ H', (H.new cap).2.memcpy (H.new cap).1 0 b.data_ b.readIndex_ (readableSize w b) =
        some H₁ ∧ H₁.delete b.data_ = some H' ∧
      Holds w H' { b with
        capacity_ := cap, writeIndex_ := readableSize w b, readIndex_ := 0,
        data_ := (H.new cap).1 } q ∧
      Frame H H' b.data_ (H.new cap).1 := by
  obtain ⟨l, hl, hlen, hwin⟩ := h.block
  have hle := h.write_le
  have hread := h.read_le
  have hql := h.length
  set p := (H.new cap).1 with hp
  have hnone : H.block p = none := Heap.block_new_fst
  have hne : b.data_ ≠ p := fun he => by rw [he, hnone] at hl; cases hl
  have hdst : (H.new cap).2.block p = some (List.replicate cap none) := by simp [hp]
  have hsrc : (H.new cap).2.block b.data_ = some l := by
    rw [Heap.block_new, if_neg hne, hl]
  obtain ⟨H₁, e₁, hb₁, ho₁⟩ := Heap.memcpy_spec (i := 0) (j := b.readIndex_) (n := q.length) hdst
    (by simpa using hq) hsrc (by omega) (Ne.symm hne)
  obtain ⟨H', e₂, hfree, ho₂⟩ := Heap.delete_spec ((ho₁ _ hne).trans hsrc)
  rw [hql, hwin] at hb₁
  refine ⟨H₁, H', by rw [h.readable]; exact e₁, e₂, ?_, ?_, Or.inr ⟨hnone, hfree⟩⟩
  · refine h.move ((ho₂ p (Ne.symm hne)).trans hb₁) ?_ hq hpos hcap ?_
    · rw [length_splice (by simpa using hq), List.length_replicate]
    · have hroom : 0 + (q.map some).length ≤
          (List.replicate cap (none : Option UInt8)).length := by simpa using hq
      have := window_splice hroom
      rwa [List.length_map] at this
  · intro r hr hr'
    rw [ho₂ r hr, ho₁ r hr', Heap.block_new, if_neg hr']

/-- **`reserve` keeps the queue and makes room**, whichever of its three ways it takes. -/
theorem reserve_spec (h : Holds w H b q) {len : ℕ} (hn : NoWrap w b q.length len) :
    ∃ H' b', reserve w H b len = some (H', b') ∧ Holds w H' b' q ∧
      Frame H H' b.data_ b'.data_ ∧ len ≤ b'.capacity_ - b'.writeIndex_ := by
  obtain ⟨l, hl, hlen, hwin⟩ := h.block
  have hle := h.write_le
  have hread := h.read_le
  have hcap := h.cap_lt
  have hql := h.length
  have hroom : sub w b.capacity_ b.writeIndex_ = b.capacity_ - b.writeIndex_ := sub_eq hle hcap
  have hfree : add w (sub w b.capacity_ b.writeIndex_) b.readIndex_ =
      b.capacity_ - q.length := by
    rw [hroom, add_eq (by omega)]
    omega
  unfold reserve
  split_ifs with h1 h2
  · exact ⟨H, b, rfl, h, .rfl', by omega⟩
  · -- the bytes move to the start
    rw [hfree] at h2
    obtain ⟨H', e, hb, ho⟩ := Heap.memmove_spec (i := 0) (j := b.readIndex_) (n := q.length) hl
      (by omega) hl (by omega)
    rw [hql, hwin] at hb
    have hbl : 0 + (q.map some).length ≤ l.length := by simp; omega
    have hmove := h.move hb (by rw [length_splice hbl, hlen]) (by omega) h.cap_pos hcap
      (by simpa using window_splice hbl)
    rw [← h.readable] at e
    refine ⟨H', _, by simp only [e, Option.bind_eq_bind, Option.bind_some], hmove,
      ⟨fun r hr _ => ho r hr, Or.inl rfl⟩, ?_⟩
    show len ≤ b.capacity_ - readableSize w b
    rw [h.readable]
    omega
  · -- the bytes move to a larger allocation
    obtain ⟨j, hj, hjw⟩ := hn
    have hjlt : j < w := by
      refine (Nat.pow_lt_pow_iff_right (by decide : 1 < 2)).mp (lt_of_le_of_lt ?_ hjw)
      exact Nat.le_mul_of_pos_left _ h.cap_pos
    obtain ⟨i, e, hneed, hcw, -⟩ := grow_eq hj hjw (show j < w + 1 by omega)
    have hcc : b.capacity_ ≤ b.capacity_ * 2 ^ i := Nat.le_mul_of_pos_right _ (by positivity)
    set cap := b.capacity_ * 2 ^ i
    have hneedLen : add w (readableSize w b) len = q.length + len := by
      rw [h.readable, add_eq (by omega)]
    obtain ⟨H₁, H', e₁, e₂, hh, hf⟩ := h.realloc (show q.length ≤ cap by omega)
      (h.cap_pos.trans hcc) hcw
    refine ⟨H', _, by rw [hneedLen, e]; simp only [Option.bind_eq_bind, Option.bind_some, e₁, e₂],
      hh, hf, ?_⟩
    show len ≤ cap - readableSize w b
    rw [h.readable]
    omega

/-! ### Writing -/

lemma Holds.write (h : Holds w H b q) {d : List UInt8}
    (hd : d.length ≤ b.capacity_ - b.writeIndex_) :
    ∃ H', H.write b.data_ b.writeIndex_ (d.map some) = some H' ∧
      (∀ r ≠ b.data_, H'.block r = H.block r) ∧
      ∀ m ≤ d.length, Holds w H' { b with writeIndex_ := b.writeIndex_ + m } (q ++ d.take m) := by
  obtain ⟨l, hl, hlen, hwin⟩ := h.block
  have hle := h.write_le
  have hread := h.read_le
  have hfit : b.writeIndex_ + (d.map some).length ≤ l.length := by rw [List.length_map]; omega
  obtain ⟨H', e, hb, ho⟩ := Heap.write_spec hl hfit
  refine ⟨H', e, ho, fun m hm => ?_⟩
  refine { h with
    read_le := show b.readIndex_ ≤ b.writeIndex_ + m by omega
    write_le := show b.writeIndex_ + m ≤ b.capacity_ by omega
    block := ⟨_, hb, (length_splice hfit).trans hlen, ?_⟩ }
  -- the queue lies before what was written, and the rest is the start of it
  show window _ b.readIndex_ (b.writeIndex_ + m - b.readIndex_) = _
  rw [show b.writeIndex_ + m - b.readIndex_ = b.writeIndex_ - b.readIndex_ + m by omega, window_add,
    window_splice_before hfit (by omega), hwin,
    show b.readIndex_ + (b.writeIndex_ - b.readIndex_) = b.writeIndex_ by omega,
    window_take (n := (d.map some).length) (by rwa [List.length_map]), window_splice hfit,
    List.map_append, List.map_take]

lemma copyTo_eq {p : Ptr} {d : List UInt8} {src : Source} (hs : Yields H p d src) (i : ℕ) :
    src.copyTo H p i d.length = H.write p i (d.map some) := by
  cases src with
  | bytes data =>
    obtain rfl : data = d := hs
    simp [Source.copyTo]
  | cells r j =>
    obtain ⟨hne, l, hl, hlen, hwin⟩ := hs
    rw [Source.copyTo, Heap.memcpy, if_neg fun hc => hne hc.1.symm, Heap.memmove,
      Heap.read_eq hl hlen, hwin]
    rfl

/-- **`append` puts the bytes at the end of the queue.** -/
theorem append_spec (h : Holds w H b q) {d : List UInt8} {src : Source}
    (hs : Yields H b.data_ d src) (hn : NoWrap w b q.length d.length) :
    ∃ H' b', append w H b src d.length = some (H', b') ∧ Holds w H' b' (q ++ d) ∧
      Frame H H' b.data_ b'.data_ := by
  obtain ⟨H₁, b₁, e₁, h₁, hf, hroom⟩ := reserve_spec h hn
  obtain ⟨H', e₂, ho, hw⟩ := h₁.write hroom
  have hadd : add w b₁.writeIndex_ d.length = b₁.writeIndex_ + d.length := by
    have h2 := h₁.write_le
    have h3 := h₁.cap_lt
    exact add_eq (by omega)
  refine ⟨H', { b₁ with writeIndex_ := b₁.writeIndex_ + d.length }, ?_, ?_, hf.then_write ho⟩
  · simp only [append, e₁, Option.bind_eq_bind, Option.bind_some, copyTo_eq (hf.yields hs), e₂,
      hadd]
  · simpa using hw d.length le_rfl

/-- **Writing in place**: what was written up to the new write position joins the queue. -/
theorem fill_spec (h : Holds w H b q) {n m : ℕ} {d : List UInt8} (hd : d.length ≤ n)
    (hm : m ≤ d.length) (hn : NoWrap w b q.length n) :
    ∃ H' b', fill w H b n d m = some (H', b') ∧ Holds w H' b' (q ++ d.take m) ∧
      Frame H H' b.data_ b'.data_ := by
  obtain ⟨H₁, b₁, e₁, h₁, hf, hroom⟩ := reserve_spec h hn
  obtain ⟨H', e₂, ho, hw⟩ := h₁.write (hd.trans hroom)
  have h2 := h₁.write_le
  have h3 := h₁.cap_lt
  refine ⟨H', { b₁ with writeIndex_ := b₁.writeIndex_ + m }, ?_, hw m hm, hf.then_write ho⟩
  have hseek : seekWritePos w b₁ m = some { b₁ with writeIndex_ := b₁.writeIndex_ + m } := by
    rw [seekWritePos, sub_eq h2 h3, if_pos (by omega), add_eq (by omega)]
  simp only [fill, e₁, Option.bind_eq_bind, Option.bind_some, e₂, hseek]

/-- **Rolling back** drops bytes from the end of the queue. -/
theorem rollback_spec (h : Holds w H b q) {len : ℕ} (hlen : len ≤ q.length) :
    ∃ b', seekWritePosRollback w b len = some b' ∧ b'.data_ = b.data_ ∧
      Holds w H b' (q.take (q.length - len)) := by
  have h1 := h.length
  have h2 := h.write_le
  have h3 := h.cap_lt
  have hread := h.read_le
  obtain ⟨l, hl, hll, hwin⟩ := h.block
  refine ⟨{ b with writeIndex_ := b.writeIndex_ - len }, ?_, rfl, { h with
    read_le := show b.readIndex_ ≤ b.writeIndex_ - len by omega
    write_le := show b.writeIndex_ - len ≤ b.capacity_ by omega
    block := ⟨l, hl, hll, ?_⟩ }⟩
  · rw [seekWritePosRollback, sub_eq hread (by omega), if_pos (by omega), sub_eq (by omega)
      (by omega)]
  · show window l b.readIndex_ (b.writeIndex_ - len - b.readIndex_) = _
    rw [window_take (n := b.writeIndex_ - b.readIndex_) (by omega), hwin, List.map_take, h1]
    congr 1
    omega

/-! ### Erasing -/

lemma Holds.drop (h : Holds w H b q) {len : ℕ} (hlen : len ≤ q.length) :
    Holds w H { b with readIndex_ := b.readIndex_ + len } (q.drop len) := by
  have h1 := h.length
  have hread := h.read_le
  obtain ⟨l, hl, hll, hwin⟩ := h.block
  refine { h with
    read_le := show b.readIndex_ + len ≤ b.writeIndex_ by omega
    block := ⟨l, hl, hll, ?_⟩ }
  show window l (b.readIndex_ + len) (b.writeIndex_ - (b.readIndex_ + len)) = _
  rw [Nat.sub_add_eq, window_drop, hwin, List.map_drop]

lemma shrink_spec (h : Holds w H b q) :
    ∃ H' b', shrink w H b = some (H', b') ∧ Holds w H' b' q ∧ Frame H H' b.data_ b'.data_ := by
  have hr := h.readable
  unfold shrink
  split_ifs with hc
  · have hlt : q.length < b.initCapacity_ := hr ▸ hc.1
    obtain ⟨H₁, H', e₁, e₂, hh, hf⟩ := h.realloc hlt.le h.init_pos h.init_lt
    exact ⟨H', _, by simp only [Option.bind_eq_bind, Option.bind_some, e₁, e₂], hh, hf⟩
  · exact ⟨H, b, rfl, h, .rfl'⟩

/-- **`erase` takes bytes from the head of the queue.** -/
theorem erase_spec (h : Holds w H b q) {len : ℕ} (hlen : len ≤ q.length) :
    ∃ H' b', erase w H b len = some (H', b') ∧ Holds w H' b' (q.drop len) ∧
      Frame H H' b.data_ b'.data_ := by
  have h1 := h.length
  have h2 := h.write_le
  have h3 := h.cap_lt
  have hread := h.read_le
  rw [erase, sub_eq hread (by omega), if_pos (by omega), add_eq (by omega)]
  exact shrink_spec (h.drop hlen)

lemma holds_new {H : Memory} (shrinkCap : ℕ) {init cap : ℕ} (hi : 1 ≤ init)
    (hw : init < 2 ^ w) (hc : 1 ≤ cap) (hcw : cap < 2 ^ w) :
    Holds w (H.new cap).2 ⟨init, shrinkCap, cap, 0, 0, (H.new cap).1⟩ [] :=
  ⟨hi, hw, hc, hcw, le_rfl, Nat.zero_le _, List.replicate cap none, by simp, by simp, by simp⟩

lemma Holds.nil (h : Holds w H b q) :
    Holds w H { b with readIndex_ := 0, writeIndex_ := 0 } [] := by
  obtain ⟨l, hl, hll, -⟩ := h.block
  exact { h with
    read_le := le_rfl
    write_le := Nat.zero_le _
    block := ⟨l, hl, hll, rfl⟩ }

/-- **`clear` empties the queue.** -/
theorem clear_spec (h : Holds w H b q) :
    ∃ H' b', clear H b = some (H', b') ∧ Holds w H' b' [] ∧ Frame H H' b.data_ b'.data_ := by
  unfold clear
  split_ifs with hc
  · obtain ⟨l, hl, -, -⟩ := h.block
    obtain ⟨H₁, e, hfree, ho⟩ := Heap.delete_spec hl
    have hnone : H₁.block (H₁.new b.initCapacity_).1 = none := Heap.block_new_fst
    refine ⟨_, _, by simp only [e, Option.bind_eq_bind, Option.bind_some]; rfl,
      holds_new _ h.init_pos h.init_lt h.init_pos h.init_lt, fun r hr hr' => ?_, ?_⟩
    · rw [Heap.block_new, if_neg hr', ho r hr]
    · by_cases hp : (H₁.new b.initCapacity_).1 = b.data_
      · exact Or.inl hp
      · refine Or.inr ⟨(ho _ hp).symm.trans hnone, ?_⟩
        rw [Heap.block_new, if_neg (Ne.symm hp), hfree]
  · exact ⟨H, _, rfl, h.nil, .rfl'⟩

/-! ### Trimming -/

lemma get_window {p : Ptr} {l : List (Option UInt8)} {r i : ℕ} {c : UInt8}
    (hl : H.block p = some l) (hwin : window l r q.length = q.map some) (hc : q[i]? = some c) :
    H.get p (r + i) = some c := by
  have hi : i < q.length := (List.getElem?_eq_some_iff.mp hc).1
  have := getElem?_window (l := l) (i := r) hi
  rw [hwin, List.getElem?_map, hc] at this
  simp [Heap.get, hl, ← this]

lemma trimLeftLoop_eq {p : Ptr} {l : List (Option UInt8)} {r : ℕ} (hl : H.block p = some l)
    (hwin : window l r q.length = q.map some) (hw : r + q.length < 2 ^ w) :
    ∃ k ≤ q.length, trimLeftLoop w H p q.length r = some (r + k) ∧
      q.drop k = q.dropWhile isspace := by
  induction q generalizing r with
  | nil => exact ⟨0, le_rfl, rfl, rfl⟩
  | cons c q ih =>
    have hget : H.get p r = some c := get_window (i := 0) hl hwin rfl
    rw [List.length_cons] at hw
    rw [List.length_cons, trimLeftLoop, hget]
    by_cases hs : isspace c
    · have hrest : window l (r + 1) q.length = q.map some := by
        have := window_drop (l := l) (i := r) (n := q.length + 1) (m := 1)
        rw [← List.length_cons, hwin] at this
        exact this
      obtain ⟨k, hk, e, hd⟩ := ih hrest (by omega)
      refine ⟨k + 1, by omega, ?_, ?_⟩
      · rw [add_eq (by omega)]
        simp only [Option.bind_eq_bind, Option.bind_some, hs, if_true, e, Option.some.injEq]
        omega
      · rw [List.drop_succ_cons, hd, List.dropWhile_cons_of_pos hs]
    · refine ⟨0, Nat.zero_le _, ?_, by rw [List.dropWhile_cons_of_neg hs]; rfl⟩
      simp [hs]

/-- **`trim_left` drops the leading spaces.** -/
theorem trimLeft_spec (h : Holds w H b q) :
    ∃ b', trimLeft w H b = some b' ∧ b'.data_ = b.data_ ∧
      Holds w H b' (q.dropWhile isspace) := by
  have h1 := h.length
  have h2 := h.write_le
  have h3 := h.cap_lt
  have hread := h.read_le
  obtain ⟨l, hl, -, hwin⟩ := h.block
  obtain ⟨k, hk, e, hd⟩ := trimLeftLoop_eq (w := w) hl (h1 ▸ hwin) (by omega)
  refine ⟨{ b with readIndex_ := b.readIndex_ + k }, ?_, rfl, hd ▸ h.drop hk⟩
  simp [trimLeft, h.readable, e]

lemma trimRightLoop_eq {p : Ptr} {l : List (Option UInt8)} {r : ℕ} (hl : H.block p = some l)
    (hwin : window l r q.length = q.map some) (hw : r + q.length < 2 ^ w) :
    ∃ k ≤ q.length, trimRightLoop w H p q.length (r + q.length) = some (r + q.length - k) ∧
      q.take (q.length - k) = q.rdropWhile isspace := by
  induction q using List.reverseRecOn with
  | nil => exact ⟨0, le_rfl, rfl, rfl⟩
  | append_singleton q c ih =>
    have hget : H.get p (r + q.length) = some c := get_window (i := q.length) hl hwin (by simp)
    have hlen : (q ++ [c]).length = q.length + 1 := by simp
    rw [hlen] at hw hwin ⊢
    rw [trimRightLoop, sub_eq (by omega) hw, show r + (q.length + 1) - 1 = r + q.length by omega,
      hget, List.rdropWhile_concat]
    by_cases hs : isspace c
    · have hrest : window l r q.length = q.map some := by
        rw [window_take (n := q.length + 1) (by omega), hwin, List.map_append]
        exact List.take_left' (by simp)
      obtain ⟨k, hk, e, hd⟩ := ih hrest (by omega)
      refine ⟨k + 1, by omega, ?_, ?_⟩
      · simp only [Option.bind_eq_bind, Option.bind_some, hs, if_true, e, Option.some.injEq]
        omega
      · rw [if_pos hs, ← hd, List.take_append_of_le_length (by omega)]
        congr 1
        omega
    · refine ⟨0, Nat.zero_le _, ?_, ?_⟩
      · simp [hs]
      · rw [if_neg hs, List.take_of_length_le (by simp)]

/-- **`trim_right` drops the trailing spaces.** -/
theorem trimRight_spec (h : Holds w H b q) :
    ∃ b', trimRight w H b = some b' ∧ b'.data_ = b.data_ ∧
      Holds w H b' (q.rdropWhile isspace) := by
  have h1 := h.length
  have h2 := h.write_le
  have h3 := h.cap_lt
  have hread := h.read_le
  obtain ⟨l, hl, -, hwin⟩ := h.block
  obtain ⟨k, hk, e, hd⟩ := trimRightLoop_eq (w := w) hl (h1 ▸ hwin) (by omega)
  obtain ⟨b', eb, hdata, hb'⟩ := rollback_spec h hk
  have hroll : b' = { b with writeIndex_ := b.writeIndex_ - k } := by
    rw [seekWritePosRollback, sub_eq hread (by omega), if_pos (by omega), sub_eq (by omega)
      (by omega)] at eb
    exact (Option.some.inj eb).symm
  refine ⟨b', ?_, hdata, hd ▸ hb'⟩
  rw [hroll, trimRight, h.readable]
  have hw : b.readIndex_ + q.length = b.writeIndex_ := by omega
  rw [hw] at e
  simp [e]

/-! ### Constructing and assigning -/

/-- A buffer comes into being, and no other allocation changes. -/
def Fresh (H H' : Memory) (p : Ptr) : Prop :=
  H.block p = none ∧ ∀ r ≠ p, H'.block r = H.block r

lemma Holds.yields (h : Holds w H b q) {p : Ptr} (hne : b.data_ ≠ p) :
    Yields H p q (.cells b.data_ b.readIndex_) := by
  have h1 := h.length
  have h2 := h.write_le
  have hread := h.read_le
  obtain ⟨l, hl, hll, hwin⟩ := h.block
  exact ⟨hne, l, hl, by omega, h1 ▸ hwin⟩

/-- **`make` constructs an empty buffer.** -/
theorem make_spec (H : Memory) {init : ℕ} (shrinkCap : ℕ) (hi : 1 ≤ init) (hw : init < 2 ^ w) :
    Holds w (make H init shrinkCap).1 (make H init shrinkCap).2 [] ∧
      Fresh H (make H init shrinkCap).1 (make H init shrinkCap).2.data_ :=
  ⟨holds_new _ hi hw hi hw, Heap.block_new_fst (n := init), fun _ hr => if_neg hr⟩

/-- A new allocation that some bytes are put into at once. -/
lemma append_new (shrinkCap : ℕ) {init cap : ℕ} (hi : 1 ≤ init) (hw : init < 2 ^ w)
    (hc : 1 ≤ cap) (hcw : cap < 2 ^ w) {d : List UInt8} (hd : d.length ≤ cap) {src : Source}
    (hs : Yields (H.new cap).2 (H.new cap).1 d src) :
    ∃ H' b', append w (H.new cap).2 ⟨init, shrinkCap, cap, 0, 0, (H.new cap).1⟩ src d.length =
        some (H', b') ∧ Holds w H' b' d ∧ Fresh H H' b'.data_ := by
  obtain ⟨H', b', e, hh, hf⟩ := append_spec (holds_new shrinkCap hi hw hc hcw) hs
    ⟨0, by simpa using hd, by simpa using hcw⟩
  have hnone : H.block (H.new cap).1 = none := Heap.block_new_fst
  refine ⟨H', b', e, hh, ?_, fun r hr => ?_⟩
  · rcases hf.moved with hp | ⟨hn, -⟩
    · rw [hp, hnone]
    · rw [Heap.block_new] at hn
      split_ifs at hn
      exact hn
  · by_cases hrp : r = (H.new cap).1
    · rcases hf.moved with hp | ⟨-, ho⟩
      · exact absurd (hrp.trans hp.symm) hr
      · rw [hrp, hnone]; exact ho
    · rw [hf.others r hrp hr, Heap.block_new, if_neg hrp]

/-- **A buffer constructed from data holds the data.** -/
theorem makeData_spec (H : Memory) {d : List UInt8} (hd : 1 ≤ d.length) (hw : d.length < 2 ^ w) :
    ∃ H' b', makeData w H d = some (H', b') ∧ Holds w H' b' d ∧ Fresh H H' b'.data_ :=
  append_new _ hd hw hd hw le_rfl rfl

/-- **A copy holds the same queue.** -/
theorem copy_spec (h : Holds w H b q) :
    ∃ H' b', copy w H b = some (H', b') ∧ Holds w H' b' q ∧ Fresh H H' b'.data_ := by
  have h1 := h.length
  have h2 := h.write_le
  obtain ⟨l, hl, -, -⟩ := h.block
  have hne : b.data_ ≠ (H.new b.capacity_).1 := fun he => by
    rw [he, Heap.block_new_fst] at hl; cases hl
  have hnew : Frame H (H.new b.capacity_).2 (H.new b.capacity_).1 (H.new b.capacity_).1 :=
    ⟨fun r hr _ => if_neg hr, Or.inl rfl⟩
  have hs := (hnew.holds h hne).2.yields hne
  have := append_new b.shrinkCapacity_ h.init_pos h.init_lt h.cap_pos h.cap_lt
    (by omega) hs
  rwa [← h.readable] at this

/-- **An assignment replaces the queue** by the one of the other buffer. -/
theorem assign_spec (h : Holds w H b q) {other : Buffer} {q' : List UInt8}
    (ho : Holds w H other q') (hne : other.data_ ≠ b.data_) (hn : NoWrap w b 0 q'.length) :
    ∃ H' b', assign w H b other = some (H', b') ∧ Holds w H' b' q' ∧
      Frame H H' b.data_ b'.data_ := by
  have := append_spec h.nil (ho.yields hne) hn
  rwa [← ho.readable] at this

end Specs

end Libchef.BufferFifo
