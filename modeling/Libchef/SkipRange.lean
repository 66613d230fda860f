import Libchef.SkipPlain

/-!
The range insertion into a list that has elements already.

The cache starts with no slot stored. A search stores slots on the levels of the node it
resumes from only, and where it meets its key on a level it stores neither the slot of that
level nor those below. So a node can be drawn higher than the slots reach; if none was read
before it was stored, the insertion ends with what inserting one by one ends with.
-/

namespace Libchef.SkipRange

open Libchef.SkipModel Libchef.SkipWholeModel Libchef.SkipRep Libchef.SkipFind Libchef.SkipInsert
open Libchef.SkipLoose Libchef.SkipResume Libchef.SkipAssign Libchef.SkipRefine Libchef.SkipPlain
open Libchef.Chain Libchef.Ordered Libchef.Runs

variable {K V : Type} [LinearOrder K] (C : KeyCompare K)

/-! ### What it should do -/

/-- `insert` for each element from `iter` to `last`, in order. -/
def insertEach (last : Option Ptr) : (fuel : ℕ) → (gens : ℕ → ℕ → ℕ) → Heap K V → Skiplist →
    (iter : Option Ptr) → Option (Heap K V × Skiplist)
  | 0, _, _, _, _ => none
  | fuel + 1, gens, H, s, iter =>
    if iter = last then some (H, s)
    else do
      let kv ← H.kv (← iter)
      let (H, s, _, _) ← insert C H s (gens 0) kv
      insertEach last fuel (fun n => gens (n + 1)) H s (← incr H iter)

/-- The range insertion comes to its end, which it does only if every slot it reads has been
stored, with the iteration and the size that inserting one by one ends with, whatever
heights are drawn there. -/
def RangeAgrees (H : Heap K V) (s : Skiplist) (fuel : ℕ) (gens : ℕ → ℕ → ℕ)
    (first last : Option Ptr) : Prop :=
  ∃ H₁ s₁, insertRangeEffective_ C fuel H s gens first last = some (H₁, s₁) ∧
    ∀ gens', ∃ H₂ s₂, insertEach C last fuel gens' H s first = some (H₂, s₂) ∧ Copies H₂ s₂ H₁ s₁

/-! ### Which slots are stored -/

/-- When the keys `ks` of the range are in, the node directly before `k` is the head, or one
that was in the list before and is on level `j`. -/
def Behind (es : List (Entry K V)) (ks : List K) (k : K) (j : ℕ) : Prop :=
  match (below Entry.key k es).getLast? with
  | none => ks = []
  | some e => (∀ k' ∈ ks, k' ≤ e.key) ∧ j < e.ht

/-- The search that follows those for `ks` has level `j`: it is the first one, or it resumes
from a node of that level. -/
def Resumes (es : List (Entry K V)) (ks : List K) (j : ℕ) : Prop :=
  match ks.getLast? with
  | none => True
  | some k => Behind es ks.dropLast k j

/-- The search for `k` that follows those for `ks` stores slot `j`: it does not meet the key on
that level. -/
def Stores (es : List (Entry K V)) (ks : List K) (k : K) (j : ℕ) : Prop :=
  (∀ e ∈ es, e.key = k → e.ht ≤ j) ∧ Resumes es ks j

/-- One of the searches for `ks` stores slot `j`. -/
def Stored (es : List (Entry K V)) (ks : List K) (j : ℕ) : Prop :=
  ∃ pre k post, ks = pre ++ k :: post ∧ Stores es pre k j

/-- If the key `k` that follows `ks` is a new one, the slots that its node is put in with are
stored, on the levels that were in use. `n` are the heights drawn. -/
def Fits (es : List (Entry K V)) (current : ℕ) (n : ℕ → ℕ) (ks : List K) (k : K) : Prop :=
  (∀ e ∈ es, e.key ≠ k) → ∀ j < current, j < n ks.length → Stored es (ks ++ [k]) j

/-- That holds for every key of the range `l`, which comes after `ks`. -/
def Served (es : List (Entry K V)) (current : ℕ) (n : ℕ → ℕ) (ks l : List K) : Prop :=
  ∀ pre k post, l = pre ++ k :: post → Fits es current n (ks ++ pre) k

section Stored

variable {es : List (Entry K V)} {ks : List K} {k : K} {j : ℕ}

lemma not_stored_nil : ¬ Stored es ([] : List K) j := by
  rintro ⟨pre, k, post, h, -⟩
  simp at h

lemma stored_concat : Stored es (ks ++ [k]) j ↔ Stored es ks j ∨ Stores es ks k j := by
  constructor
  · rintro ⟨pre, k', post, h, hs⟩
    rcases List.eq_nil_or_concat post with rfl | ⟨post, x, rfl⟩
    · obtain ⟨hks, hk⟩ := List.append_inj' h rfl
      obtain rfl : k = k' := List.head_eq_of_cons_eq hk
      exact Or.inr (hks ▸ hs)
    · rw [List.concat_eq_append, ← List.cons_append, ← List.append_assoc] at h
      exact Or.inl ⟨pre, k', post, (List.append_inj' h rfl).1, hs⟩
  · rintro (⟨pre, k', post, rfl, hs⟩ | hs)
    · exact ⟨pre, k', post ++ [k], by simp, hs⟩
    · exact ⟨ks, k, [], rfl, hs⟩

lemma served_cons {current : ℕ} {n : ℕ → ℕ} {l : List K} :
    Served es current n ks (k :: l) ↔
      Fits es current n ks k ∧ Served es current n (ks ++ [k]) l := by
  constructor
  · intro h
    refine ⟨by simpa using h [] k l rfl, fun pre x post hl => ?_⟩
    have := h (k :: pre) x post (by rw [hl, List.cons_append])
    rwa [← List.append_cons]
  · rintro ⟨h0, h⟩ pre x post hl
    cases pre with
    | nil =>
      cases hl
      simpa using h0
    | cons a pre =>
      cases hl
      rw [List.append_cons]
      exact h pre x post rfl

end Stored

/-! ### Between two rounds -/

/-- The state of the insertion when the keys `ks` are in. The list had the entries `os` and
`current` levels in use; it has the entries `es` now. -/
structure Middle (os : List (Entry K V)) (current : ℕ) (ks : List K) (H : Heap K V) (s : Skiplist)
    (es : List (Entry K V)) (pos : Option Ptr) (c : Cache) : Prop where
  asc : Asc Entry.key es
  levels : ∃ L, Loose H s es L ∧ ∀ k, (∀ k' ∈ ks, k' < k) → ∃ P, Tidy es L P k
  old : ∀ e ∈ os, e ∈ es
  new : ∀ e ∈ es, e ∈ os ∨
    e.key ∈ ks ∧ (∀ o ∈ os, o.key ≠ e.key) ∧ ∀ j < current, j < e.ht → (c j).isSome
  done : ∀ k ∈ ks, ∃ e ∈ es, e.key = k
  pos : (ks = [] ∧ pos = none ∧ s.currentHeight_ = current) ∨
    ∃ e ∈ es, ks.getLast? = some e.key ∧ pos = some e.ptr
  current_le : current ≤ s.currentHeight_
  place : ∀ j < s.currentHeight_, ∀ d, c j = some d → ∀ k, (∀ k' ∈ ks, k' < k) → Start s es k j d
  stored : ∀ j < current, (c j).isSome ↔ Stored os ks j
  raised : ∀ j, current ≤ j → j < s.currentHeight_ → (c j).isSome

variable {H H' : Heap K V} {s s' y : Skiplist} {os es ex : List (Entry K V)} {current : ℕ}
  {ks : List K} {pos : Option Ptr} {c : Cache} {k : K}

lemma middle_start (h : Rep H s es) : Middle es s.currentHeight_ [] H s es none Cache.fresh := by
  constructor
  case asc => exact h.asc
  case levels => exact ⟨_, h.loose, fun k _ => ⟨_, Tidy.of_asc h.asc k⟩⟩
  case old => exact fun _ => id
  case new => exact fun _ he => Or.inl he
  case done => simp
  case pos => exact Or.inl ⟨rfl, rfl, rfl⟩
  case current_le => exact le_rfl
  case place => exact fun j _ d hd => absurd hd (by simp [Cache.fresh])
  case stored => exact fun j _ => iff_of_false (by simp [Cache.fresh]) not_stored_nil
  case raised => exact fun j h1 h2 => absurd h2 (Nat.not_lt.mpr h1)

/-- Whether the node before the last one put in has a level with no slot stored yet: if it is
a new node it has not, since the slots it was put in with were stored. -/
lemma lt_reach_iff {A B : List (Entry K V)} {e : Entry K V} {j : ℕ}
    (h : Middle os current (ks ++ [e.key]) H s (A ++ e :: B) pos c) (hos : Asc Entry.key os)
    (hks : (ks ++ [e.key]).Pairwise (· < ·)) (hcur : current ≤ maxHeight_) (hj : j < current) :
    (c j).isSome ∨ (j < reach A ↔ Behind os ks e.key j) := by
  have hdone : ∀ k' ∈ ks, ∃ x ∈ A ++ e :: B, x.key = k' ∧ k' < e.key := by
    intro k' hk'
    obtain ⟨x, hx, hxk⟩ := h.done k' (List.mem_append_left _ hk')
    exact ⟨x, hx, hxk, (List.pairwise_append.mp hks).2.2 k' hk' e.key (by simp)⟩
  have hlow : ∀ x ∈ A ++ e :: B, x.key < e.key → x ∈ A := by
    intro x hx hxe
    rcases List.mem_append.mp hx with hx | hx
    · exact hx
    · rcases List.mem_cons.mp hx with rfl | hx
      · exact absurd hxe (lt_irrefl _)
      · exact absurd hxe ((asc_cons.mp (asc_append.mp h.asc).2.1).1 x hx).not_gt
  rcases List.eq_nil_or_concat A with rfl | ⟨A, a, rfl⟩
  · -- the last one is the first of the list
    have hnone : below Entry.key e.key os = [] := below_of_le fun o ho =>
      le_of_not_gt fun hlt => absurd (hlow o (h.old o ho) hlt) (by simp)
    have hnil : ks = [] := List.eq_nil_iff_forall_not_mem.mpr fun k' hk' => by
      obtain ⟨x, hx, rfl, hlt⟩ := hdone k' hk'
      exact absurd (hlow x hx hlt) (by simp)
    exact Or.inr (iff_of_true (by simpa using hj.trans_le hcur) (by simp [Behind, hnone, hnil]))
  rw [List.concat_eq_append] at h hdone hlow ⊢
  have hmax : ∀ x ∈ A ++ [a] ++ e :: B, x.key < e.key → x.key ≤ a.key := by
    intro x hx hxe
    rcases List.mem_append.mp (hlow x hx hxe) with hxA | hxa
    · exact ((asc_append.mp (asc_append.mp h.asc).1).2.2 x hxA a (by simp)).le
    · rw [List.mem_singleton.mp hxa]
  have hae : a.key < e.key := (asc_append.mp h.asc).2.2 a (by simp) e (by simp)
  rw [reach_concat]
  rcases h.new a (by simp) with hold | ⟨hmem, hnew, hslot⟩
  · have hlast := hos.getLast?_below hold hae fun o ho => hmax o (h.old o ho)
    have hle : ∀ k' ∈ ks, k' ≤ a.key := by
      intro k' hk'
      obtain ⟨x, hx, rfl, hlt⟩ := hdone k' hk'
      exact hmax x hx hlt
    exact Or.inr (by simp only [Behind, hlast]; exact (and_iff_right hle).symm)
  · by_cases hset : (c j).isSome
    · exact Or.inl hset
    refine Or.inr (iff_of_false (fun hja => hset (hslot j hj hja)) fun hb => ?_)
    have hak : a.key ∈ ks := by
      rcases List.mem_append.mp hmem with hm | hm
      · exact hm
      · exact absurd (List.mem_singleton.mp hm) hae.ne
    unfold Behind at hb
    split at hb
    · rw [hb] at hak
      simp at hak
    · next o ho =>
      obtain ⟨hoo, hoe⟩ := mem_below.mp (List.mem_of_getLast? ho)
      exact hnew o hoo (le_antisymm (hmax o (h.old o hoo) hoe) (hb.1 a.key hak))

/-- Where the next search starts. On a level with no slot stored yet, that is as the condition
says. -/
lemma find_middle (h : Middle os current ks H s es pos c) (hos : Asc Entry.key os)
    (hks : ks.Pairwise (· < ·)) (hk : ∀ k' ∈ ks, k' < k) (hcur : current ≤ maxHeight_) :
    ∃ i d, i ≤ maxHeight_ ∧ i ≠ 0 ∧ Start s es k (i - 1) d ∧
      find_ C H s s.fuel k pos none (some c) = descend C H k none s.fuel i d (some c) ∧
      ∀ j < current, (c j).isSome ∨ (j < i ↔ Resumes os ks j) := by
  obtain ⟨L, hl, -⟩ := h.levels
  rcases h.pos with ⟨rfl, rfl, rfl⟩ | ⟨e, he, hlast, rfl⟩
  · exact ⟨s.currentHeight_, s.head_, hl.current_le, Nat.pos_iff_ne_zero.mp hl.current_pos,
      start_head _, rfl, fun j hj => Or.inr (iff_of_true hj trivial)⟩
  obtain ⟨ks', rfl⟩ := List.getLast?_eq_some_iff.mp hlast
  have hek : e.key < k := hk e.key (by simp)
  obtain ⟨A, B, rfl⟩ := List.append_of_mem he
  have hA : ∀ a ∈ A, a ∈ A ++ e :: B := fun a ha => List.mem_append_left _ ha
  have hlow : ∀ a ∈ A, a.key < k := fun a ha =>
    ((asc_append.mp h.asc).2.2 a ha e (by simp)).trans hek
  obtain ⟨d, hst, hfind⟩ := find_behind C hl hlow (some c)
  refine ⟨reach A, d, reach_le hl hA, (reach_pos hl hA).ne', hst, hfind, fun j hj => ?_⟩
  rw [Resumes, List.getLast?_concat, List.dropLast_concat]
  exact lt_reach_iff h hos hks hcur hj

/-- What a search makes of the cache: it stores ends of the first parts of the levels, on the
levels that the condition names. -/
structure Searched (os : List (Entry K V)) (current : ℕ) (ks : List K) (k : K) (s : Skiplist)
    (P : ℕ → List Ptr) (c c' : Cache) : Prop where
  slot : ∀ j, c' j = c j ∨ c' j = some (last s.head_ (P j))
  stored : ∀ j < current, (c' j).isSome ↔ Stored os (ks ++ [k]) j

lemma Searched.isSome {P : ℕ → List Ptr} {c' : Cache} (h : Searched os current ks k s P c c')
    {j : ℕ} (hj : (c j).isSome) : (c' j).isSome := by
  rcases h.slot j with hc | hc
  · rwa [hc]
  · rw [hc]
    rfl

lemma Middle.mem_old (h : Middle os current ks H s es pos c) (hk : ∀ k' ∈ ks, k' < k)
    {e : Entry K V} (he : e ∈ es) (hek : e.key = k) : e ∈ os := by
  rcases h.new e he with hold | ⟨hmem, -⟩
  · exact hold
  · exact absurd (hk e.key hmem) (hek ▸ lt_irrefl _)

/-- **The search of a round**, whether the key is there or not. -/
lemma search_middle (h : Middle os current ks H s es pos c) (hos : Asc Entry.key os)
    (hks : ks.Pairwise (· < ·)) (hk : ∀ k' ∈ ks, k' < k) (hcur : current ≤ maxHeight_)
    {L P : ℕ → List Ptr} (hl : Loose H s es L) (ht : Tidy es L P k) :
    (∃ e ∈ es, e.key = k ∧ ∃ c', Searched os current ks k s P c c' ∧
      find_ C H s s.fuel k pos none (some c) = some (some e.ptr, some c')) ∨
    (∀ e ∈ es, e.key ≠ k) ∧ ∃ c', Searched os current ks k s P c c' ∧
      c' 0 = some (last s.head_ (P 0)) ∧
      find_ C H s s.fuel k pos none (some c) = some (none, some c') := by
  obtain ⟨i, d, hi, h0, hst, hfind, hstart⟩ := find_middle C h hos hks hk hcur
  -- a slot is stored where the level is resumed and the key is not met
  have hstored : ∀ {j : ℕ} {c' : Cache}, j < current →
      ((c' j).isSome ↔ ((∀ o ∈ os, o.key = k → o.ht ≤ j) ∧ j < i) ∨ (c j).isSome) →
      ((c' j).isSome ↔ Stored os (ks ++ [k]) j) := by
    intro j c' hj hc'
    rw [stored_concat, ← h.stored j hj, hc', Stores]
    rcases hstart j hj with hset | hiff
    · simp [hset]
    · rw [hiff, or_comm]
  by_cases hmem : ∃ e ∈ es, e.key = k
  · obtain ⟨e, he, hek⟩ := hmem
    obtain ⟨c', hd, hc'⟩ := ht.descend_present C hl h.asc hi h0 hst he hek c
    refine Or.inl ⟨e, he, hek, c', ⟨fun j => ?_, fun j hj => hstored hj ?_⟩, hfind.trans hd⟩
    · rw [hc']
      split_ifs
      · exact Or.inr rfl
      · exact Or.inl rfl
    · have hclear : (∀ o ∈ os, o.key = k → o.ht ≤ j) ↔ e.ht ≤ j := by
        refine ⟨fun hall => hall e (h.mem_old hk he hek) hek, fun hle o ho hok => ?_⟩
        rwa [h.asc.eq_of_key (h.old o ho) he (hok.trans hek.symm)]
      rw [hclear, hc']
      split_ifs with hcond
      · simp [hcond]
      · rw [or_iff_right hcond]
  · simp only [not_exists, not_and] at hmem
    have hd := ht.descend_absent C hl hi (fun _ => hst) hmem c
    refine Or.inr ⟨hmem, _, ⟨fun j => ?_, fun j hj => hstored hj ?_⟩,
      fill_slot c 0 (Nat.pos_of_ne_zero h0), hfind.trans hd⟩
    · by_cases hji : j < i
      · exact Or.inr (fill_slot c j hji)
      · exact Or.inl (by simp [fill, hji])
    · have hclear : ∀ o ∈ os, o.key = k → o.ht ≤ j := fun o ho hok =>
        absurd hok (hmem o (h.old o ho))
      rw [and_iff_right hclear]
      by_cases hji : j < i
      · simp [fill_slot c j hji, hji]
      · simp [fill, hji]

section Rounds

variable {L P : ℕ → List Ptr} {c' : Cache}

lemma Searched.start (hs : Searched os current ks k s P c c')
    (h : Middle os current ks H s es pos c) (hl : Loose H s es L) (ht : Tidy es L P k) {j : ℕ}
    (hj : j < s.currentHeight_) {d : Ptr}
    (hd : c' j = some d) {k' : K} (hks : ∀ x ∈ ks, x < k') (hk : k ≤ k') : Start s es k' j d := by
  rcases hs.slot j with hc | hc
  · exact h.place j hj d (hc ▸ hd) k' hks
  · obtain rfl : last s.head_ (P j) = d := Option.some.inj (hc.symm.trans hd)
    exact (ht.start hl j).above hk rfl fun _ => id

/-- A round whose key is there changes the cache only. -/
lemma Middle.present (h : Middle os current ks H s es pos c) (hl : Loose H s es L)
    (ht : Tidy es L P k) (hs : Searched os current ks k s P c c') {e : Entry K V} (he : e ∈ es)
    (hek : e.key = k) : Middle os current (ks ++ [k]) H s es (some e.ptr) c' := by
  have hlow : ∀ {k' : K}, (∀ x ∈ ks ++ [k], x < k') → (∀ x ∈ ks, x < k') ∧ k < k' :=
    fun hk' => ⟨fun x hx => hk' x (by simp [hx]), hk' k (by simp)⟩
  constructor
  case asc => exact h.asc
  case levels =>
    obtain ⟨L', hl', htidy⟩ := h.levels
    exact ⟨L', hl', fun k' hk' => htidy k' (hlow hk').1⟩
  case old => exact h.old
  case new =>
    intro x hx
    refine (h.new x hx).imp_right ?_
    rintro ⟨hmem, hnew, hslot⟩
    exact ⟨by simp [hmem], hnew, fun j hj hjx => hs.isSome (hslot j hj hjx)⟩
  case done =>
    intro k' hk'
    rcases List.mem_append.mp hk' with hk' | hk'
    · exact h.done k' hk'
    · exact ⟨e, he, hek.trans (List.mem_singleton.mp hk').symm⟩
  case pos => exact Or.inr ⟨e, he, by simp [hek], rfl⟩
  case current_le => exact h.current_le
  case place =>
    intro j hj d hd k' hk'
    exact hs.start h hl ht hj hd (hlow hk').1 (hlow hk').2.le
  case stored => exact hs.stored
  case raised => exact fun j h1 h2 => hs.isSome (h.raised j h1 h2)

/-- Where the slots cut the first parts of the levels of a new node, if they are stored. -/
lemma Searched.cut (hs : Searched os current ks k s P c c')
    (h : Middle os current ks H s es pos c) (hl : Loose H s es L) (ht : Tidy es L P k)
    (h0 : c' 0 = some (last s.head_ (P 0))) (hk : ∀ x ∈ ks, x < k) {n : ℕ}
    (hfits : ∀ j < current, j < n → (c' j).isSome) :
    ∃ p₁ p₂ : ℕ → List Ptr, (∀ j, P j = p₁ j ++ p₂ j) ∧ p₁ 0 = P 0 ∧
      ∀ j < s.currentHeight_, j < n → c' j = some (last s.head_ (p₁ j)) := by
  have hcut : ∀ j, ∃ p₁ p₂, P j = p₁ ++ p₂ ∧ (j = 0 → p₁ = P 0) ∧
      (j < s.currentHeight_ → j < n → c' j = some (last s.head_ p₁)) := by
    intro j
    by_cases hj0 : j = 0
    · subst hj0
      exact ⟨P 0, [], by simp, fun _ => rfl, fun _ _ => h0⟩
    by_cases hj : j < s.currentHeight_ ∧ j < n
    · have hsome : (c' j).isSome := by
        rcases Nat.lt_or_ge j current with hlt | hge
        · exact hfits j hlt hj.2
        · exact hs.isSome (h.raised j hge hj.1)
      obtain ⟨d, hd⟩ := Option.isSome_iff_exists.mp hsome
      obtain ⟨p₁, p₂, hp, hlast⟩ := ht.cut hl (hs.start h hl ht hj.1 hd hk le_rfl)
      exact ⟨p₁, p₂, hp, fun h => absurd h hj0, fun _ _ => hd.trans (congrArg some hlast.symm)⟩
    · exact ⟨[], P j, rfl, fun h => absurd h hj0, fun h1 h2 => absurd ⟨h1, h2⟩ hj⟩
  choose p₁ p₂ hp hzero hslot using hcut
  exact ⟨p₁, p₂, hp, hzero 0 rfl, hslot⟩

/-- **A round whose key is not there** puts the node in, if the slots of its levels are stored. -/
lemma Middle.insert {kv : K × V} (h : Middle os current ks H s es pos c) (hl : Loose H s es L)
    (ht : Tidy es L P kv.1) (hs : Searched os current ks kv.1 s P c c')
    (h0 : c' 0 = some (last s.head_ (P 0))) (hk : ∀ x ∈ ks, x < kv.1)
    (habs : ∀ e ∈ es, e.key ≠ kv.1) (gen : ℕ → ℕ)
    (hfits : ∀ j < current, j < randomHeight_ gen → (c' j).isSome) :
    let e : Entry K V := ⟨H.brk, randomHeight_ gen, kv⟩
    let es' := below Entry.key kv.1 es ++ e :: atLeast Entry.key kv.1 es
    ∃ H' s' c'', insertCached_ H s gen kv c' = some (H', s', H.brk, c'') ∧ Moves H s es H' s' es' ∧
      Middle os current (ks ++ [kv.1]) H' s' es' (some H.brk) c'' := by
  intro e es'
  obtain ⟨p₁, p₂, hp, hzero, hslot⟩ := hs.cut h hl ht h0 hk hfits
  have hsplit : ∀ j, L j = p₁ j ++ (p₂ j ++ lane j (atLeast Entry.key kv.1 es)) := fun j => by
    rw [ht j, hp j, List.append_assoc]
  obtain ⟨H', s', e', hcur, -, hm, hl'⟩ := insert_cut ⟨⟨L, hl⟩, h.asc⟩ hl gen kv habs hsplit
    (hzero.trans (ht.zero hl h.asc)) hslot
  obtain ⟨c'', hraise, hlow, hhigh⟩ := raise_spec s (randomHeight_le gen) c'
  have hmem : ∀ x, x ∈ es' ↔ x = e ∨ x ∈ es := by
    intro x
    rw [← h.asc.split kv.1]
    simp only [es', List.mem_append, List.mem_cons]
    tauto
  refine ⟨H', s', c'', by simp [insertCached_, hraise, e'], hm, ?_⟩
  have hkept : ∀ {j}, j < current → c'' j = c' j := fun hj => hlow _ (hj.trans_le h.current_le)
  constructor
  case asc => exact hm.good.asc
  case levels =>
    exact ⟨_, hl', fun k' hk' => ⟨_, ht.insert h.asc (e := e) rfl (hk' kv.1 (by simp)) p₁ p₂⟩⟩
  case old => exact fun x hx => (hmem x).mpr (Or.inr (h.old x hx))
  case new =>
    intro x hx
    rcases (hmem x).mp hx with rfl | hx
    · refine Or.inr ⟨by simp [e, Entry.key], fun o ho => habs o (h.old o ho), fun j hj hje => ?_⟩
      rw [hkept hj]
      exact hfits j hj hje
    · refine (h.new x hx).imp_right ?_
      rintro ⟨hmem, hnew, hset⟩
      refine ⟨by simp [hmem], hnew, fun j hj hjx => ?_⟩
      rw [hkept hj]
      exact hs.isSome (hset j hj hjx)
  case done =>
    intro k' hk'
    rcases List.mem_append.mp hk' with hk' | hk'
    · obtain ⟨x, hx, hxk⟩ := h.done k' hk'
      exact ⟨x, (hmem x).mpr (Or.inr hx), hxk⟩
    · exact ⟨e, (hmem e).mpr (Or.inl rfl), (List.mem_singleton.mp hk').symm⟩
  case pos => exact Or.inr ⟨e, (hmem e).mpr (Or.inl rfl), by simp [e, Entry.key], rfl⟩
  case current_le => exact hcur ▸ h.current_le.trans (le_max_left _ _)
  case place =>
    intro j hj d hd k' hk'
    rcases Nat.lt_or_ge j s.currentHeight_ with hlt | hge
    · rw [hlow j hlt] at hd
      have hst := hs.start h hl ht hlt hd (fun x hx => hk' x (by simp [hx])) (hk' kv.1 (by simp)).le
      exact hst.above le_rfl hm.head fun x hx => (hmem x).mpr (Or.inr hx)
    · rw [hcur, lt_max_iff, or_iff_right (Nat.not_lt.mpr hge)] at hj
      rw [hhigh j hge hj, Option.some.injEq] at hd
      exact Or.inl (hd.symm.trans hm.head.symm)
  case stored =>
    intro j hj
    rw [hkept hj]
    exact hs.stored j hj
  case raised =>
    intro j h1 hj
    rcases Nat.lt_or_ge j s.currentHeight_ with hlt | hge
    · rw [hlow j hlt]
      exact hs.isSome (h.raised j h1 hlt)
    · rw [hcur, lt_max_iff, or_iff_right (Nat.not_lt.mpr hge)] at hj
      rw [hhigh j hge hj]
      rfl

lemma fits_iff (hs : Searched os current ks k s P c c') (habs : ∀ o ∈ os, o.key ≠ k) {n : ℕ → ℕ} :
    Fits os current n ks k ↔ ∀ j < current, j < n ks.length → (c' j).isSome := by
  rw [Fits, forall_prop_of_true habs]
  exact forall₂_congr fun j hj => by rw [hs.stored j hj]

end Rounds

/-! ### All rounds -/

omit [LinearOrder K] in
lemma insertCached_none (s : Skiplist) (gen : ℕ → ℕ) (kv : K × V) {j : ℕ}
    (hj : j < s.currentHeight_) (hjn : j < randomHeight_ gen) (hc : c j = none) :
    insertCached_ H s gen kv c = none := by
  obtain ⟨c', hraise, -⟩ := raise_spec s (randomHeight_le gen) c
  simp [insertCached_, hraise, insert_none s gen kv hj hjn hc]

omit [LinearOrder K] in
lemma ne_last {Q R T : List (Entry K V)} {x : Entry K V} {L : ℕ → List Ptr}
    (h : Loose H y (Q ++ (x :: R ++ T)) L) : some x.ptr ≠ (T.head?).map Entry.ptr := by
  intro heq
  obtain ⟨t, ht, htx⟩ := Option.map_eq_some_iff.mp heq.symm
  have hmem : x.ptr ∈ T.map Entry.ptr := htx ▸ List.mem_map_of_mem (List.mem_of_mem_head? ht)
  have hnd := (List.nodup_cons.mp h.nodup).2
  rw [List.map_append, List.cons_append, List.map_cons, List.map_append] at hnd
  exact (List.nodup_cons.mp (List.nodup_append.mp hnd).2.1).1 (List.mem_append_right _ hmem)

/-- The bindings of the elements, put in one by one. -/
def insertAll (m : OrderedMap K V) (R : List (Entry K V)) : OrderedMap K V :=
  R.foldl (fun m r => m.insertNew r.key r.kv.2) m

/-- **The range insertion** comes to its end if and only if every slot it reads is stored, and
ends with the bindings put in one by one. -/
theorem insertRange_middle {Q R T : List (Entry K V)} {L : ℕ → List Ptr}
    (hy : Loose H y (Q ++ (R ++ T)) L) (hks : (ks ++ R.map Entry.key).Pairwise (· < ·))
    (hd : ∀ p ∈ foot y (Q ++ (R ++ T)), p ∉ foot s es)
    (h : Middle os current ks H s es pos c) (hos : Asc Entry.key os) (hcur : current ≤ maxHeight_)
    {fuel : ℕ} (hf : R.length < fuel) {n : ℕ → ℕ} {gens : ℕ → ℕ → ℕ}
    (hg : ∀ i, randomHeight_ (gens i) = n (ks.length + i)) {m : OrderedMap K V}
    (hm : es.map Entry.kv = m.entries) :
    let r := insertRange C ((T.head?).map Entry.ptr) fuel gens H s
      (((R ++ T).head?).map Entry.ptr) pos c
    (Served os current n ks (R.map Entry.key) → ∃ H' s' es', r = some (H', s') ∧ Good H' s' es' ∧
      es'.map Entry.kv = (insertAll m R).entries) ∧
    (¬ Served os current n ks (R.map Entry.key) → r = none) := by
  intro r
  induction R generalizing H s es Q ks pos c fuel gens m with
  | nil =>
    obtain ⟨fuel, rfl⟩ : ∃ f, fuel = f + 1 := ⟨fuel - 1, by omega⟩
    obtain ⟨L', hl, -⟩ := h.levels
    refine ⟨fun _ => ⟨H, s, es, by simp [r, insertRange], ⟨⟨L', hl⟩, h.asc⟩, hm⟩, fun hn => ?_⟩
    exact absurd (fun pre k post hl => by simp at hl) hn
  | cons x R ih =>
    obtain ⟨fuel, rfl⟩ : ∃ f, fuel = f + 1 := ⟨fuel - 1, by omega⟩
    obtain ⟨hks₀, -, hlow⟩ := List.pairwise_append.mp hks
    have hk : ∀ k' ∈ ks, k' < x.key := fun k' hk' => hlow k' hk' x.key (by simp)
    obtain ⟨L', hl, htidy⟩ := h.levels
    obtain ⟨P, ht⟩ := htidy x.key hk
    have hkv : H.kv x.ptr = some x.kv := kv_of_hdr (hy.node x (by simp))
    have hne := ne_last hy
    have hfuel : R.length < fuel := by simpa using hf
    rw [List.cons_append] at hy hd
    have hks₁ : (ks ++ [x.key] ++ R.map Entry.key).Pairwise (· < ·) := by simpa using hks
    have hg₁ : ∀ i, randomHeight_ (gens (i + 1)) = n ((ks ++ [x.key]).length + i) := fun i => by
      rw [hg, List.length_append, List.length_singleton]
      congr 1
      omega
    rw [List.map_cons, served_cons]
    rcases search_middle C h hos hks₀ hk hcur hl ht with
      ⟨e, he, hek, c', hs, hfind⟩ | ⟨habs, c', hs, h0, hfind⟩
    · -- the key is there
      have hm₁ : es.map Entry.kv = (m.insertNew x.key x.kv.2).entries :=
        hek ▸ insertNew_present h.asc he x.kv.2 hm
      have hfits : Fits os current n ks x.key := fun habs =>
        absurd hek (habs e (h.mem_old hk he hek))
      have hround := insertRange_present C gens hne hkv hfind hy.incr_eq fuel
      rw [List.append_cons] at hy hd
      have hrest := ih hy hks₁ hd (h.present hl ht hs he hek) hfuel hg₁ hm₁
      rw [and_iff_right hfits]
      simp only [r, List.cons_append, List.head?_cons, Option.map_some, hround]
      exact hrest
    have hfits : Fits os current n ks x.key ↔
        ∀ j < current, j < randomHeight_ (gens 0) → (c' j).isSome := by
      rw [fits_iff hs fun o ho => habs o (h.old o ho), hg 0, Nat.add_zero]
    by_cases hall : ∀ j < current, j < randomHeight_ (gens 0) → (c' j).isSome
    · -- it is not, and the slots are stored
      obtain ⟨H₁, s₁, c₁, e₁, hmoves, hmid⟩ := h.insert hl ht hs h0 hk habs (gens 0) hall
      obtain ⟨hy₁, hd₁⟩ := hmoves.other hy hd
      have hround := insertRange_new C hne hkv hfind e₁ hy₁.incr_eq fuel
      rw [List.append_cons] at hy₁ hd₁
      have hbind := insertNew_absent h.asc habs (e := ⟨H.brk, randomHeight_ (gens 0), x.kv⟩) rfl hm
      have hrest := ih hy₁ hks₁ hd₁ hmid hfuel hg₁ hbind
      rw [and_iff_right (hfits.mpr hall)]
      simp only [r, List.cons_append, List.head?_cons, Option.map_some, hround]
      exact hrest
    · -- a slot is read that was never stored
      refine ⟨fun hserved => absurd (hfits.mp hserved.1) hall, fun _ => ?_⟩
      simp only [not_forall, Option.not_isSome_iff_eq_none] at hall
      obtain ⟨j, hj, hjn, hnone⟩ := hall
      have hins := insertCached_none (H := H) s (gens 0) x.kv (hj.trans_le h.current_le) hjn hnone
      exact insertRange_stuck C hne hkv hfind hins fuel

/-! ### One by one -/

lemma insert_plain (h : Rep H s es) {m : OrderedMap K V} (hm : es.map Entry.kv = m.entries)
    (gen : ℕ → ℕ) (val : K × V) :
    ∃ H' s' p b es', insert C H s gen val = some (H', s', p, b) ∧ Moves H s es H' s' es' ∧
      Rep H' s' es' ∧ es'.map Entry.kv = (m.insertNew val.1 val.2).entries := by
  obtain ⟨H₁, s₁, p, b, e₁, href⟩ := insert_step C h hm gen val
  obtain ⟨H', s', es', e', hmoves, -⟩ := insert_done C ⟨⟨_, h.loose⟩, h.asc⟩ h.tail gen val
  rw [e₁] at e'
  cases e'
  obtain ⟨hr, hm₁⟩ := rep_of_refines hmoves.good href
  exact ⟨H₁, s₁, p, b, es', e₁, hmoves, hr, hm₁⟩

/-- Inserting one by one ends with the bindings of the elements put in. -/
theorem insertEach_rep {Q R T : List (Entry K V)} {L : ℕ → List Ptr}
    (hy : Loose H y (Q ++ (R ++ T)) L) (hd : ∀ p ∈ foot y (Q ++ (R ++ T)), p ∉ foot s es)
    (h : Rep H s es) {fuel : ℕ} (hf : R.length < fuel) (gens : ℕ → ℕ → ℕ) {m : OrderedMap K V}
    (hm : es.map Entry.kv = m.entries) :
    ∃ H' s' es', insertEach C ((T.head?).map Entry.ptr) fuel gens H s
        (((R ++ T).head?).map Entry.ptr) = some (H', s') ∧ Rep H' s' es' ∧
      es'.map Entry.kv = (insertAll m R).entries := by
  induction R generalizing H s es Q fuel gens m with
  | nil =>
    obtain ⟨fuel, rfl⟩ : ∃ f, fuel = f + 1 := ⟨fuel - 1, by omega⟩
    exact ⟨H, s, es, by simp [insertEach], h, hm⟩
  | cons x R ih =>
    obtain ⟨fuel, rfl⟩ : ∃ f, fuel = f + 1 := ⟨fuel - 1, by omega⟩
    obtain ⟨H₁, s₁, p, b, es₁, e₁, hmoves, h₁, hm₁⟩ := insert_plain C h hm (gens 0) x.kv
    have hkv : H.kv x.ptr = some x.kv := kv_of_hdr (hy.node x (by simp))
    have hne := ne_last hy
    obtain ⟨hy₁, hd₁⟩ := hmoves.other hy hd
    have hincr := Loose.incr_eq (A := Q) (B := R ++ T) hy₁
    rw [List.cons_append, List.append_cons] at hy₁ hd₁
    obtain ⟨H', s', es', e', hr, hm'⟩ := ih hy₁ hd₁ h₁ (show R.length < fuel by simpa using hf)
      (fun n => gens (n + 1)) hm₁
    refine ⟨H', s', es', ?_, hr, hm'⟩
    simp only [List.cons_append, List.head?_cons, Option.map_some, insertEach, hne, if_false, hkv,
      e₁, hincr, Option.bind_eq_bind, Option.bind_some]
    exact e'

/-! ### Two lists of a program -/

/-- The condition decides, in any memory with the two lists. -/
lemma rangeAgrees_of_rep (hs : Rep H s es) {Q R T : List (Entry K V)}
    (hy : Rep H y (Q ++ (R ++ T))) (hd : ∀ p ∈ foot y (Q ++ (R ++ T)), p ∉ foot s es) {fuel : ℕ}
    (hf : R.length < fuel) (gens : ℕ → ℕ → ℕ) :
    RangeAgrees C H s fuel gens (((R ++ T).head?).map Entry.ptr) ((T.head?).map Entry.ptr) ↔
      Served es s.currentHeight_ (fun u => randomHeight_ (gens u)) [] (R.map Entry.key) := by
  have hasc : ([] ++ R.map Entry.key).Pairwise (· < ·) :=
    List.pairwise_map.mpr (asc_append.mp (asc_append.mp hy.asc).2.1).1
  have hg : ∀ u, randomHeight_ (gens u) = randomHeight_ (gens (([] : List K).length + u)) :=
    fun u => by rw [List.length_nil, Nat.zero_add]
  let m : OrderedMap K V := ⟨es.map Entry.kv, List.pairwise_map.mpr hs.asc⟩
  obtain ⟨hserved, hstuck⟩ := insertRange_middle C hy.loose hasc hd (middle_start hs) hs.asc
    hs.current_le hf (n := fun u => randomHeight_ (gens u)) hg (m := m) rfl
  constructor
  · rintro ⟨H₁, s₁, e₁, -⟩
    by_contra hnot
    exact absurd (e₁.symm.trans (hstuck hnot)) (by simp)
  · intro hall
    obtain ⟨H₁, s₁, es₁, e₁, ⟨⟨L₁, hl₁⟩, -⟩, hm₁⟩ := hserved hall
    refine ⟨H₁, s₁, e₁, fun gens' => ?_⟩
    obtain ⟨H₂, s₂, es₂, e₂, hr₂, hm₂⟩ := insertEach_rep C hy.loose hd hs hf gens' (m := m) rfl
    exact ⟨H₂, s₂, e₂, copies_of_entries hr₂.loose hl₁ (hm₁.trans hm₂.symm)⟩

/-- The elements of a list between two positions. -/
def slice (ex : List (Entry K V)) (i j : ℕ) : List (Entry K V) := (ex.drop i).take (j - i)

omit [LinearOrder K] in
lemma slice_append {i j : ℕ} (hij : i ≤ j) : slice ex i j ++ ex.drop j = ex.drop i := by
  have hj : ex.drop j = (ex.drop i).drop (j - i) := by rw [List.drop_drop, Nat.add_sub_cancel' hij]
  rw [slice, hj, List.take_append_drop]

/-- **When a range is inserted as one by one.** In a store whose lists were made by operations on
elements, the insertion into a list of a range of another one agrees with inserting its elements
one by one if and only if every slot it needs is stored. -/
theorem rangeAgrees_iff [Inhabited K] [Inhabited V] {acts : List (Act K V)} {t : Store K V}
    {l x : ℕ} (hp : Along (step C) PlainStep Store.empty acts)
    (e : Runs.exec (step C) Store.empty acts = some t) (hl : t.lists[l]? = some s)
    (hx : t.lists[x]? = some y) (hlx : l ≠ x) {i j : ℕ} (hij : i ≤ j) (hj : j ≤ size y)
    {fuel : ℕ} (hf : j - i < fuel) (gens : ℕ → ℕ → ℕ) :
    ∃ es ex first last, Rep t.heap s es ∧ Rep t.heap y ex ∧ iterAt t.heap y i = some first ∧
      iterAt t.heap y j = some last ∧
      (RangeAgrees C t.heap s fuel gens first last ↔
        Served es s.currentHeight_ (fun u => randomHeight_ (gens u)) []
          ((slice ex i j).map Entry.key)) := by
  obtain ⟨ess, h⟩ := run_plain C hp e
  have hs := h.rep l s hl
  have hy := h.rep x y hx
  have hd := h.inv.apart l x s y hlx hl hx
  rw [size, hy.num] at hj
  refine ⟨ess l, ess x, _, _, hs, hy, hy.loose.iterAt_eq (hij.trans hj), hy.loose.iterAt_eq hj, ?_⟩
  have hparts : (ess x).take i ++ (slice (ess x) i j ++ (ess x).drop j) = ess x := by
    rw [slice_append hij, List.take_append_drop]
  have hfirst : (ess x)[i]? = (slice (ess x) i j ++ (ess x).drop j).head? := by
    rw [slice_append hij, List.head?_drop]
  rw [hfirst, ← List.head?_drop]
  rw [← hparts] at hy hd
  exact rangeAgrees_of_rep C hs hy hd ((List.length_take_le ..).trans_lt hf) gens

/-- A list of the elements 1 and 2, the second of height two, and a list of 2 and 3. -/
def overlapping : List (Act ℕ ℕ) :=
  [.construct, .op 0 (.insert (1, 10)) fun _ => 1, .op 0 (.insert (2, 20)) fun i => i,
    .construct, .op 1 (.insert (2, 21)) fun _ => 1, .op 1 (.insert (3, 30)) fun _ => 1]

/-- The second list put into the first, with a height of one for the new node. -/
theorem rangeAgrees_iff_overlapping :
    let C := defaultComparator ℕ
    let gens : ℕ → ℕ → ℕ := fun _ _ => 1
    ∃ t s y, Runs.exec (step C) Store.empty overlapping = some t ∧ t.lists[0]? = some s ∧
      t.lists[1]? = some y ∧ ∃ es ex first last, Rep t.heap s es ∧ Rep t.heap y ex ∧
        iterAt t.heap y 0 = some first ∧ iterAt t.heap y 2 = some last ∧
        (RangeAgrees C t.heap s 3 gens first last ↔
          Served es s.currentHeight_ (fun u => randomHeight_ (gens u)) []
            ((slice ex 0 2).map Entry.key)) :=
  ⟨_, _, _, rfl, rfl, rfl, rangeAgrees_iff (l := 0) (x := 1) (defaultComparator ℕ)
    (show Along _ PlainStep Store.empty overlapping by decide) rfl rfl rfl (by decide) (by decide)
    (by decide) (by decide) _⟩

/-- With a height of two: the key 2 is met on level `1`, so slot `1` is not stored, and the node
of 3 is put in with it. -/
theorem not_rangeAgrees :
    let C := defaultComparator ℕ
    let gens : ℕ → ℕ → ℕ := fun _ i => i
    ∃ t s y first last, Along (step C) PlainStep Store.empty overlapping ∧
      Runs.exec (step C) Store.empty overlapping = some t ∧ t.lists[0]? = some s ∧
      t.lists[1]? = some y ∧ iterAt t.heap y 0 = some first ∧ iterAt t.heap y 2 = some last ∧
      insertRangeEffective_ C 3 t.heap s gens first last = none ∧
      ¬ RangeAgrees C t.heap s 3 gens first last := by
  refine ⟨_, _, _, _, _, by decide, rfl, rfl, rfl, rfl, rfl, rfl, ?_⟩
  rintro ⟨H₁, s₁, e₁, -⟩
  cases show none = some (H₁, s₁) from e₁

end Libchef.SkipRange
