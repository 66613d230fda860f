import Mathlib.Algebra.Order.Ring.Nat
import Mathlib.Data.List.Basic
import Mathlib.Data.List.TakeDrop
import Mathlib.Tactic.Ring

/-!
A stream that is consumed in blocks of a fixed size.

A machine folds a compression function over the blocks and keeps what does not fill a block
yet. A message is padded to whole blocks by a mark, zeros and its length; two messages of one
value then give two inputs of the compression function of one value.
-/

namespace Libchef.Blocks

variable {σ α β : Type*}

/-! ### Element by element -/

section Absorb

variable (f : σ → List α → σ) (B : ℕ)

/-- One element more. A block that is full goes through `f`. -/
def push (s : σ × List α) (a : α) : σ × List α :=
  if s.2.length + 1 = B then (f s.1 (s.2 ++ [a]), []) else (s.1, s.2 ++ [a])

def absorb (s : σ × List α) (m : List α) : σ × List α := m.foldl (push f B) s

@[simp] lemma absorb_nil (s : σ × List α) : absorb f B s [] = s := rfl

@[simp] lemma absorb_cons (s : σ × List α) (a : α) (m : List α) :
    absorb f B s (a :: m) = absorb f B (push f B s a) m := rfl

lemma absorb_append (s : σ × List α) (u v : List α) :
    absorb f B s (u ++ v) = absorb f B (absorb f B s u) v := by
  simp [absorb, List.foldl_append]

lemma absorb_short {s : σ × List α} {m : List α} (h : s.2.length + m.length < B) :
    absorb f B s m = (s.1, s.2 ++ m) := by
  induction m generalizing s with
  | nil => simp
  | cons a m ih =>
    rw [List.length_cons] at h
    have hp : push f B s a = (s.1, s.2 ++ [a]) := if_neg (by omega)
    rw [absorb_cons, hp, ih (by simp only [List.length_append, List.length_singleton]; omega)]
    simp

lemma absorb_full {s : σ × List α} {m : List α} (hm : m ≠ []) (h : s.2.length + m.length = B) :
    absorb f B s m = (f s.1 (s.2 ++ m), []) := by
  obtain ⟨u, a, rfl⟩ := (List.eq_nil_or_concat' m).resolve_left hm
  rw [List.length_append, List.length_singleton] at h
  have hu : absorb f B s u = (s.1, s.2 ++ u) := absorb_short f B (by omega)
  rw [absorb_append, hu, absorb_cons, absorb_nil, push,
    if_pos (by rw [List.length_append]; omega), List.append_assoc]

lemma absorb_block {c : σ} {b : List α} (hB : 0 < B) (hb : b.length = B) (m : List α) :
    absorb f B (c, []) (b ++ m) = absorb f B (f c b, []) m := by
  have hne : b ≠ [] := List.length_pos_iff.mp (hb ▸ hB)
  rw [absorb_append, absorb_full f B hne (by rw [List.length_nil, hb, Nat.zero_add]),
    List.nil_append]

end Absorb

/-! ### Block by block -/

section Whole

variable (B : ℕ)

/-- The whole blocks of a stream. -/
def blocks (m : List α) : List (List α) :=
  (List.range (m.length / B)).map fun i => (m.drop (i * B)).take B

/-- What is left over after them. -/
def rest (m : List α) : List α := m.drop (m.length / B * B)

variable {B}

lemma blocks_short {m : List α} (h : m.length < B) : blocks B m = [] := by
  rw [blocks, Nat.div_eq_of_lt h]
  rfl

lemma rest_short {m : List α} (h : m.length < B) : rest B m = m := by
  rw [rest, Nat.div_eq_of_lt h, Nat.zero_mul, List.drop_zero]

lemma length_rest (hB : 0 < B) (m : List α) : (rest B m).length < B := by
  rw [rest, List.length_drop, ← Nat.mod_eq_sub_div_mul]
  exact Nat.mod_lt _ hB

lemma div_append {b : List α} (hB : 0 < B) (hb : b.length = B) (m : List α) :
    (b ++ m).length / B = m.length / B + 1 := by
  rw [List.length_append, hb, Nat.add_comm, Nat.add_div_right _ hB]

lemma blocks_append {b : List α} (hB : 0 < B) (hb : b.length = B) (m : List α) :
    blocks B (b ++ m) = b :: blocks B m := by
  rw [blocks, div_append hB hb, List.range_succ_eq_map, List.map_cons, List.map_map, blocks]
  congr 1
  · rw [Nat.zero_mul, List.drop_zero, ← hb, List.take_left]
  · refine List.map_congr_left fun i _ => ?_
    rw [Function.comp, Nat.succ_mul, Nat.add_comm, ← List.drop_drop, ← hb, List.drop_left]

lemma length_of_mem_blocks {m b : List α} (h : b ∈ blocks B m) : b.length = B := by
  obtain ⟨i, hi, rfl⟩ := List.mem_map.mp h
  have hlt : (i + 1) * B ≤ m.length :=
    (Nat.mul_le_mul_right B (List.mem_range.mp hi)).trans (Nat.div_mul_le_self m.length B)
  rw [Nat.succ_mul] at hlt
  rw [List.length_take, List.length_drop]
  omega

/-- Two machines that agree on every block agree on a stream. -/
lemma foldl_blocks {τ : Type*} {f : σ → List α → σ} {g : τ → List α → τ} {view : σ → τ}
    (h : ∀ c b, b.length = B → view (f c b) = g (view c) b) (m : List α) (c : σ) :
    view ((blocks B m).foldl f c) = (blocks B m).foldl g (view c) := by
  have hbs : ∀ b ∈ blocks B m, b.length = B := fun b hb => length_of_mem_blocks hb
  generalize blocks B m = bs at hbs ⊢
  induction bs generalizing c with
  | nil => rfl
  | cons b bs ih =>
    rw [List.foldl_cons, List.foldl_cons, ih _ fun b hb => hbs b (List.mem_cons_of_mem _ hb),
      h c b (hbs b List.mem_cons_self)]

lemma rest_append {b : List α} (hB : 0 < B) (hb : b.length = B) (m : List α) :
    rest B (b ++ m) = rest B m := by
  rw [rest, div_append hB hb, Nat.succ_mul, Nat.add_comm, ← List.drop_drop, ← hb, List.drop_left,
    rest]

/-- Induction on the blocks of a stream. -/
theorem block_induction {P : List α → Prop} (hB : 0 < B) (short : ∀ m, m.length < B → P m)
    (block : ∀ b m, b.length = B → P m → P (b ++ m)) (m : List α) : P m := by
  induction hn : m.length using Nat.strong_induction_on generalizing m with
  | _ n ih =>
    by_cases h : m.length < B
    · exact short m h
    · rw [← List.take_append_drop B m]
      refine block _ _ (by rw [List.length_take]; omega) (ih _ ?_ _ rfl)
      rw [List.length_drop]
      omega

/-- **Absorbing a stream** folds the function over its whole blocks. -/
theorem absorb_eq_blocks (f : σ → List α → σ) (hB : 0 < B) (c : σ) (m : List α) :
    absorb f B (c, []) m = ((blocks B m).foldl f c, rest B m) := by
  induction m using block_induction hB generalizing c with
  | short m h => rw [absorb_short f B (by simpa using h), blocks_short h, rest_short h]; rfl
  | block b m hb ih =>
    rw [absorb_block f B hB hb, ih, blocks_append hB hb, rest_append hB hb, List.foldl_cons]

lemma blocks_flatten (hB : 0 < B) (m : List α) : (blocks B m).flatten ++ rest B m = m := by
  induction m using block_induction hB with
  | short m h => rw [blocks_short h, rest_short h]; rfl
  | block b m hb ih =>
    rw [blocks_append hB hb, rest_append hB hb, List.flatten_cons, List.append_assoc, ih]

lemma rest_nil {m : List α} (h : B ∣ m.length) : rest B m = [] := by
  rw [rest, Nat.div_mul_cancel h, List.drop_length]

lemma flatten_blocks (hB : 0 < B) {m : List α} (h : B ∣ m.length) : (blocks B m).flatten = m := by
  have hm := blocks_flatten hB m
  rwa [rest_nil h, List.append_nil] at hm

lemma blocks_append_of_dvd (hB : 0 < B) {u : List α} (hu : B ∣ u.length) (v : List α) :
    blocks B (u ++ v) = blocks B u ++ blocks B v := by
  induction u using block_induction hB with
  | short u h =>
    have hu0 : u.length = 0 := Nat.eq_zero_of_dvd_of_lt hu h
    rw [blocks_short h, List.length_eq_zero_iff.mp hu0, List.nil_append, List.nil_append]
  | block a u ha ih =>
    rw [List.length_append, ha] at hu
    rw [List.append_assoc, blocks_append hB ha, blocks_append hB ha,
      ih ((Nat.dvd_add_right (dvd_refl B)).mp hu), List.cons_append]

lemma blocks_concat (hB : 0 < B) {m b : List α} (hm : B ∣ m.length) (hb : b.length = B) :
    blocks B (m ++ b) = blocks B m ++ [b] := by
  have h0 : blocks B ([] : List α) = [] := blocks_short hB
  have hbb := blocks_append hB hb []
  rw [List.append_nil, h0] at hbb
  rw [blocks_append_of_dvd hB hm, hbb]

lemma take_four (d : α) {block : List α} {t : ℕ} (h : 4 * t + 4 ≤ block.length) :
    (block.drop (t * 4)).take 4 =
      [block.getD (4 * t) d, block.getD (4 * t + 1) d, block.getD (4 * t + 2) d,
        block.getD (4 * t + 3) d] := by
  refine List.ext_getElem (by simp; omega) fun i h1 h2 => ?_
  rw [List.getElem_take, List.getElem_drop]
  simp only [List.length_cons, List.length_nil] at h2
  rcases i with _ | _ | _ | _ | i
  · simp [Nat.mul_comm t, List.getD_eq_getElem?_getD,
      List.getElem?_eq_getElem (show 4 * t < block.length by omega)]
  · simp [Nat.mul_comm t, List.getD_eq_getElem?_getD,
      List.getElem?_eq_getElem (show 4 * t + 1 < block.length by omega)]
  · simp [Nat.mul_comm t, List.getD_eq_getElem?_getD,
      List.getElem?_eq_getElem (show 4 * t + 2 < block.length by omega)]
  · simp [Nat.mul_comm t, List.getD_eq_getElem?_getD,
      List.getElem?_eq_getElem (show 4 * t + 3 < block.length by omega)]
  · omega

lemma blocks_flatMap {c : ℕ} {g : α → List β} (hB : 0 < B) (hc : 0 < c)
    (hg : ∀ a, (g a).length = c) (m : List α) :
    blocks (c * B) (m.flatMap g) = (blocks B m).map (List.flatMap g) := by
  have hlen (l : List α) : (l.flatMap g).length = c * l.length := by
    induction l with
    | nil => rfl
    | cons a l ih => rw [List.flatMap_cons, List.length_append, hg, ih, List.length_cons]; ring
  induction m using block_induction hB with
  | short m h =>
    rw [blocks_short (by rw [hlen]; exact Nat.mul_lt_mul_of_pos_left h hc), blocks_short h]
    rfl
  | block b m hb ih =>
    rw [List.flatMap_append, blocks_append (Nat.mul_pos hc hB) (by rw [hlen, hb]),
      blocks_append hB hb, ih, List.map_cons]

/-- Parts of one length, one after the other, are told apart. -/
lemma flatMap_injective {c : ℕ} {g : α → List β} (hc : 0 < c) (hg : ∀ a, (g a).length = c)
    (hinj : Function.Injective g) : Function.Injective (List.flatMap g) := by
  intro l
  induction l with
  | nil =>
    rintro (_ | ⟨a, l⟩) h
    · rfl
    · have := congrArg List.length h
      simp only [List.flatMap_nil, List.length_nil, List.flatMap_cons, List.length_append,
        hg] at this
      omega
  | cons a l ih =>
    rintro (_ | ⟨b, l'⟩) h
    · have := congrArg List.length h
      simp only [List.flatMap_nil, List.length_nil, List.flatMap_cons, List.length_append,
        hg] at this
      omega
    · rw [List.flatMap_cons, List.flatMap_cons] at h
      obtain ⟨h1, h2⟩ := List.append_inj h (by rw [hg, hg])
      rw [hinj h1, ih h2]

end Whole

/-! ### Padding -/

/-- How many zeros are between the mark and the length, which takes `L` places. -/
def zeros (B L n : ℕ) : ℕ := (B - (n + 1 + L) % B) % B

/-- What follows a message of length `n`. -/
def padding (B L : ℕ) (mark zero : α) (len : ℕ → List α) (n : ℕ) : List α :=
  mark :: (List.replicate (zeros B L n) zero ++ len n)

section Padding

variable {B L : ℕ} {mark zero : α} {len : ℕ → List α}

lemma length_padding (hlen : ∀ n, (len n).length = L) (n : ℕ) :
    (padding B L mark zero len n).length = zeros B L n + 1 + L := by
  rw [padding, List.length_cons, List.length_append, List.length_replicate, hlen]
  omega

lemma dvd_padded (hB : 0 < B) (hlen : ∀ n, (len n).length = L) (m : List α) :
    B ∣ (m ++ padding B L mark zero len m.length).length := by
  have hmod := Nat.mod_lt (m.length + 1 + L) hB
  have hdiv := Nat.mod_add_div (m.length + 1 + L) B
  rw [List.length_append, length_padding hlen, zeros]
  rcases Nat.eq_zero_or_pos ((m.length + 1 + L) % B) with h0 | hpos
  · rw [h0, Nat.sub_zero, Nat.mod_self, Nat.zero_add, ← Nat.add_assoc]
    exact Nat.dvd_of_mod_eq_zero h0
  · rw [Nat.mod_eq_of_lt (by omega)]
    refine ⟨(m.length + 1 + L) / B + 1, ?_⟩
    rw [Nat.mul_add, Nat.mul_one]
    omega

lemma len_suffix (m : List α) (n : ℕ) : len n <:+ m ++ padding B L mark zero len n :=
  ⟨m ++ mark :: List.replicate (zeros B L n) zero, by simp [padding]⟩

end Padding

/-! ### Collisions -/

/-- The inputs `f` is given along a stream of blocks. -/
def inputs (f : σ → β → σ) : σ → List β → List (σ × β)
  | _, [] => []
  | s, b :: bs => (s, b) :: inputs f (f s b) bs

/-- Two inputs on the way that differ, with the same value. -/
def Collide (f : σ → β → σ) (l l' : List (σ × β)) : Prop :=
  ∃ p ∈ l, ∃ q ∈ l', p ≠ q ∧ f p.1 p.2 = f q.1 q.2

section Collisions

variable {f : σ → β → σ}

lemma inputs_append (s : σ) (bs cs : List β) :
    inputs f s (bs ++ cs) = inputs f s bs ++ inputs f (bs.foldl f s) cs := by
  induction bs generalizing s with
  | nil => rfl
  | cons b bs ih => rw [List.cons_append, inputs, ih, inputs, List.cons_append, List.foldl_cons]

lemma collide_of_length {s t : σ} {bs cs : List β} (hl : bs.length = cs.length)
    (hne : (s, bs) ≠ (t, cs)) (h : bs.foldl f s = cs.foldl f t) :
    Collide f (inputs f s bs) (inputs f t cs) := by
  induction bs generalizing s t cs with
  | nil =>
    obtain rfl : cs = [] := List.length_eq_zero_iff.mp hl.symm
    exact absurd (congrArg (·, []) h) hne
  | cons b bs ih =>
    obtain ⟨c, cs, rfl⟩ := List.exists_cons_of_length_eq_add_one hl.symm
    by_cases he : (f s b, bs) = (f t c, cs)
    · obtain ⟨hv, rfl⟩ := Prod.mk.inj he
      refine ⟨(s, b), List.mem_cons_self, (t, c), List.mem_cons_self, fun hp => hne ?_, hv⟩
      obtain ⟨rfl, rfl⟩ := Prod.mk.inj hp
      rfl
    · obtain ⟨p, hp, q, hq, hpq⟩ := ih (by simpa using hl) he h
      exact ⟨p, List.mem_cons_of_mem _ hp, q, List.mem_cons_of_mem _ hq, hpq⟩

lemma collide_of_last {s t : σ} {bs cs : List β} {b c : β} (hbc : b ≠ c)
    (h : (bs ++ [b]).foldl f s = (cs ++ [c]).foldl f t) :
    Collide f (inputs f s (bs ++ [b])) (inputs f t (cs ++ [c])) := by
  refine ⟨(bs.foldl f s, b), ?_, (cs.foldl f t, c), ?_, fun hp => hbc (Prod.mk.inj hp).2, ?_⟩
  · rw [inputs_append]
    exact List.mem_append_right _ (by simp [inputs])
  · rw [inputs_append]
    exact List.mem_append_right _ (by simp [inputs])
  · simpa [List.foldl_append] using h

end Collisions

/-- **Strengthening**: where the length written at the end tells the length of the message, two
messages of one value give two inputs of the compression function of one value. -/
theorem padded_collide {f : σ → List α → σ} {B L : ℕ} {mark zero : α} {len : ℕ → List α}
    (hB : L ≤ B) (hB0 : 0 < B) (hlen : ∀ n, (len n).length = L) {iv : σ} {m m' : List α}
    (hinj : len m.length = len m'.length → m.length = m'.length) (hne : m ≠ m')
    (h : (blocks B (m ++ padding B L mark zero len m.length)).foldl f iv =
      (blocks B (m' ++ padding B L mark zero len m'.length)).foldl f iv) :
    Collide f (inputs f iv (blocks B (m ++ padding B L mark zero len m.length)))
      (inputs f iv (blocks B (m' ++ padding B L mark zero len m'.length))) := by
  by_cases hll : m.length = m'.length
  · -- as many blocks, which are not all the same
    have hd (n : List α) : B ∣ (n ++ padding B L mark zero len n.length).length :=
      dvd_padded hB0 hlen n
    refine collide_of_length ?_ (fun he => hne ?_) h
    · simp only [blocks, List.length_map, List.length_range, List.length_append, hll]
    · have hflat := congrArg List.flatten (Prod.mk.inj he).2
      rw [flatten_blocks hB0 (hd m), flatten_blocks hB0 (hd m'), hll] at hflat
      exact List.append_cancel_right hflat
  · -- the last blocks tell the lengths apart
    have hcut (n : List α) : ∃ u b, n ++ padding B L mark zero len n.length = u ++ b ∧
        B ∣ u.length ∧ b.length = B ∧ len n.length <:+ b := by
      have hd : B ∣ (n ++ padding B L mark zero len n.length).length := dvd_padded hB0 hlen n
      have hge : B ≤ (n ++ padding B L mark zero len n.length).length :=
        Nat.le_of_dvd (by rw [List.length_append, length_padding hlen]; omega) hd
      refine ⟨_, _, (List.take_append_drop
        ((n ++ padding B L mark zero len n.length).length - B) _).symm, ?_, ?_, ?_⟩
      · rw [List.length_take, Nat.min_eq_left (Nat.sub_le _ _)]
        exact Nat.dvd_sub hd (dvd_refl B)
      · rw [List.length_drop]
        omega
      · refine List.suffix_of_suffix_length_le (len_suffix n n.length) (List.drop_suffix _ _) ?_
        rw [List.length_drop, hlen]
        omega
    obtain ⟨u, b, hu, hud, hb, hsuf⟩ := hcut m
    obtain ⟨u', b', hu', hud', hb', hsuf'⟩ := hcut m'
    rw [hu, hu', blocks_concat hB0 hud hb, blocks_concat hB0 hud' hb'] at h ⊢
    refine collide_of_last (fun hbb => hll (hinj ?_)) h
    subst hbb
    exact (List.suffix_of_suffix_length_le hsuf hsuf' (by rw [hlen, hlen])).eq_of_length
      (by rw [hlen, hlen])

end Libchef.Blocks
