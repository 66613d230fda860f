import Libchef.SkipFind
import Libchef.SkipInsert
import Libchef.SkipErase

/-!
The operations on the elements of a list, whatever the order of its higher levels.

A copied list can have levels out of key order. That does no harm to level `0`: a walk on any
level goes past nodes below the key only, so the search comes down on level `0` at a place
below the key and ends there as it should. Each operation is described by what it makes of
the entries, and by the memory it leaves alone.
-/

namespace Libchef.SkipLoose

open Libchef.SkipModel Libchef.SkipRep Libchef.SkipFind Libchef.SkipInsert Libchef.SkipErase
open Libchef.Chain Libchef.Ordered

variable {K V : Type} [LinearOrder K] (C : KeyCompare K)

/-! ### A walk along a level in any order -/

lemma scan_loose (k : K) (d : Ptr) (l : List (Entry K V)) :
    (∃ e ∈ l, e.key = k ∧ scan k none d l = .found e.ptr) ∨
      ∃ l₁ l₂, l = l₁ ++ l₂ ∧ scan k none d l = .stop (last d (l₁.map Entry.ptr)) ∧
        (∀ e ∈ l₁, e.key < k) ∧ ∀ e ∈ l₂.head?, k < e.key := by
  induction l generalizing d with
  | nil => exact Or.inr ⟨[], [], rfl, rfl, by simp, by simp⟩
  | cons e l ih =>
    rcases lt_trichotomy e.key k with hlt | heq | hgt
    · have hstep : scan k none d (e :: l) = scan k none e.ptr l := by
        simp [scan, hlt.ne, hlt.not_gt]
      rcases ih e.ptr with ⟨x, hx, hk, hs⟩ | ⟨l₁, l₂, rfl, hs, h₁, h₂⟩
      · exact Or.inl ⟨x, by simp [hx], hk, hstep.trans hs⟩
      · refine Or.inr ⟨e :: l₁, l₂, rfl, hstep.trans hs, fun x hx => ?_, h₂⟩
        rcases List.mem_cons.mp hx with rfl | hx
        · exact hlt
        · exact h₁ x hx
    · exact Or.inl ⟨e, by simp, heq, by simp [scan, heq]⟩
    · exact Or.inr ⟨[], e :: l, rfl, by simp [scan, hgt, hgt.ne'], by simp, by simpa using hgt⟩

omit [LinearOrder K] in
lemma exists_entries {P : Entry K V → Prop} {ps : List Ptr}
    (h : ∀ p ∈ ps, ∃ e, P e ∧ e.ptr = p) :
    ∃ l : List (Entry K V), l.map Entry.ptr = ps ∧ ∀ e ∈ l, P e := by
  induction ps with
  | nil => exact ⟨[], rfl, by simp⟩
  | cons p ps ih =>
    obtain ⟨e, he, rfl⟩ := h p (by simp)
    obtain ⟨l, rfl, hl⟩ := ih fun q hq => h q (by simp [hq])
    exact ⟨e :: l, rfl, by simpa using ⟨he, hl⟩⟩

section Search

variable {H : Heap K V} {s : Skiplist} {es : List (Entry K V)} {L : ℕ → List Ptr} {k : K}

omit [LinearOrder K] in
lemma level_entries (h : Loose H s es L) (i : ℕ) :
    ∃ l, l.map Entry.ptr = L i ∧ (∀ e ∈ l, e ∈ es ∧ i < e.ht) ∧ (i = 0 → l = es) := by
  by_cases hi : i = 0
  · subst hi
    exact ⟨es, h.zero.symm, fun e he => ⟨he, h.pos e he⟩, fun _ => rfl⟩
  · obtain ⟨l, hl, hm⟩ := exists_entries (P := fun e => e ∈ es ∧ i < e.ht) fun p hp => by
      obtain ⟨e, he, hlt, hp⟩ := h.mem_level.mp hp
      exact ⟨e, ⟨he, hlt⟩, hp⟩
    exact ⟨l, hl, hm, fun h0 => absurd h0 hi⟩

/-- A walk from a place of its level ends at the node with the key or at such a place; on level `0`
it ends where it should. -/
lemma walk_loose (h : Loose H s es L) (ha : Asc Entry.key es) {i : ℕ} (hi : i < maxHeight_)
    {d : Ptr} (hd : Start s es k i d) :
    (∃ e ∈ es, e.key = k ∧ walk C H k none i s.fuel d = some (.found e.ptr)) ∨
      ∃ d', walk C H k none i s.fuel d = some (.stop d') ∧ Start s es k i d' ∧
        (i = 0 → (∀ e ∈ es, e.key ≠ k) ∧
          d' = last s.head_ ((below Entry.key k es).map Entry.ptr)) := by
  obtain ⟨l, hl, hm, hzero⟩ := level_entries h i
  obtain ⟨l₁, l₂, rfl, hlast, hlow, hlink⟩ := hd.cut h hi hl fun e he => (hm e he).1
  have hm₂ : ∀ e ∈ l₂, e ∈ es ∧ i < e.ht := fun e he => hm e (List.mem_append_right l₁ he)
  have hlen : l₂.length < s.fuel := by
    refine h.length_level_lt (i := i) ?_
    rw [← hl, List.map_append]
    exact List.sublist_append_right ..
  have hw : walk C H k none i s.fuel d = some (scan k none d l₂) :=
    walk_eq_scan C hlink (hd.hasLevel h hi)
      (fun e he => ⟨h.node e (hm₂ e he).1, (hm₂ e he).2⟩) hlen
  rcases scan_loose k d l₂ with ⟨e, he, hk, hs⟩ | ⟨m₁, m₂, rfl, hs, h₁, h₂⟩
  · exact Or.inl ⟨e, (hm₂ e he).1, hk, by rw [hw, hs]⟩
  · refine Or.inr ⟨_, by rw [hw, hs], ?_, ?_⟩
    · rcases List.eq_nil_or_concat m₁ with rfl | ⟨m, e, rfl⟩
      · exact hd
      · have he : e ∈ m.concat e ++ m₂ := by simp
        exact Or.inr ⟨e, (hm₂ e he).1, by simp, (hm₂ e he).2, h₁ e (by simp)⟩
    · intro h0
      have hes := hzero h0
      rw [← List.append_assoc] at hes
      rw [← hes] at ha ⊢
      obtain ⟨ha₁, ha₂, -⟩ := asc_append.mp ha
      have hlt : ∀ e ∈ l₁ ++ m₁, e.key < k := by
        intro e he
        rcases List.mem_append.mp he with he | he
        · exact (asc_append.mp ha₁).1.lt_of_getLast hlow e he
        · exact h₁ e he
      have hgt := ha₂.lt_of_head h₂
      refine ⟨fun e he => ?_, ?_⟩
      · rcases List.mem_append.mp he with he | he
        · exact (hlt e he).ne
        · exact (hgt e he).ne'
      · rw [below_eq_left hlt fun e he => (hgt e he).le, List.map_append, last_append, hlast]

/-! ### The search -/

/-- **The search** ends at the node with the key; if there is none, it has gone through every
level and put a place of each level in the cache. -/
lemma descend_loose (h : Loose H s es L) (ha : Asc Entry.key es) {i : ℕ} (hi : i ≤ maxHeight_)
    {d : Ptr} (hd : i ≠ 0 → Start s es k (i - 1) d) (cache : Option Cache) :
    (∃ e ∈ es, e.key = k ∧ ∃ cache', cache'.isSome = cache.isSome ∧
      descend C H k none s.fuel i d cache = some (some e.ptr, cache')) ∨
    ∃ f : ℕ → Ptr, descend C H k none s.fuel i d cache = some (none, cache.map (fill f i)) ∧
      (∀ j < i, Start s es k j (f j)) ∧
      (i ≠ 0 → (∀ e ∈ es, e.key ≠ k) ∧
        f 0 = last s.head_ ((below Entry.key k es).map Entry.ptr)) := by
  induction i generalizing d cache with
  | zero =>
    have hid : fill (fun _ => s.head_) 0 = id := by funext c j; simp [fill]
    exact Or.inr ⟨fun _ => s.head_, by simp [descend, hid], fun j hj => absurd hj (by omega),
      fun h0 => absurd rfl h0⟩
  | succ i ih =>
    rcases walk_loose C h ha (show i < maxHeight_ by omega) (hd (by omega)) with
      ⟨e, he, hk, hw⟩ | ⟨d', hw, hd', hzero⟩
    · exact Or.inl ⟨e, he, hk, cache, rfl, by simp [descend, hw]⟩
    · have hgo : descend C H k none s.fuel (i + 1) d cache =
          descend C H k none s.fuel i d' (cache.map fun c => Function.update c i (some d')) := by
        cases cache with
        | none => simp [descend, hw]
        | some c => simp [descend, hw, Cache.put, show i < maxHeight_ by omega]
      rw [hgo]
      rcases ih (by omega) (fun _ => hd'.mono (by omega))
        (cache.map fun c => Function.update c i (some d')) with
        ⟨e, he, hk, c', hs, hc⟩ | ⟨f, hf, hplace, hf0⟩
      · exact Or.inl ⟨e, he, hk, c', by simpa using hs, hc⟩
      · refine Or.inr ⟨Function.update f i d', ?_, fun j hj => ?_, fun _ => ?_⟩
        · rw [hf, Option.map_map]
          congr 2
          cases cache <;> simp [fill_update]
        · rcases Nat.lt_succ_iff_lt_or_eq.mp hj with hlt | rfl
          · rw [Function.update_of_ne hlt.ne]
            exact hplace j hlt
          · rwa [Function.update_self]
        · by_cases h0 : i = 0
          · subst h0
            rw [Function.update_self]
            exact hzero rfl
          · rw [Function.update_of_ne (Ne.symm h0)]
            exact hf0 h0

end Search

/-! ### One list -/

/-- A list with these entries, in key order on level `0`. -/
structure Good (H : Heap K V) (s : Skiplist) (es : List (Entry K V)) : Prop where
  loose : ∃ L, Loose H s es L
  asc : Asc Entry.key es

lemma Good.size_eq_zero {H : Heap K V} {s : Skiplist} {es : List (Entry K V)} (h : Good H s es) :
    size s = 0 ↔ es = [] := by
  obtain ⟨L, hl⟩ := h.loose
  rw [size, hl.num, List.length_eq_zero_iff]

/-- The tail is the last of the entries, null if there is none. -/
def Tail (s : Skiplist) (es : List (Entry K V)) : Prop := s.tail_ = (es.getLast?).map Entry.ptr

/-- What an operation on one list makes of it. All other nodes in memory stay as they were. -/
structure Moves (H : Heap K V) (s : Skiplist) (es : List (Entry K V)) (H' : Heap K V)
    (s' : Skiplist) (es' : List (Entry K V)) : Prop where
  good : Good H' s' es'
  head : s'.head_ = s.head_
  frame : Frame (foot s es) H H'
  foot : ∀ p ∈ foot s' es', p ∈ foot s es ∨ H.brk ≤ p

/-- Every level keeps its nodes in their order, and may get others between them. -/
def Grows (H : Heap K V) (s : Skiplist) (H' : Heap K V) (s' : Skiplist) : Prop :=
  ∀ i < maxHeight_, ∀ ps, Linked (next H i) (prev H i) s.head_ ps none →
    ∃ ps', Linked (next H' i) (prev H' i) s'.head_ ps' none ∧ List.Sublist ps ps'

section Moves

variable {H H' H'' : Heap K V} {s s' s'' : Skiplist} {es es' es'' : List (Entry K V)} {k : K}

omit [LinearOrder K] in
lemma Grows.refl (H : Heap K V) (s : Skiplist) : Grows H s H s :=
  fun _ _ ps h => ⟨ps, h, List.Sublist.refl ps⟩

omit [LinearOrder K] in
lemma Grows.trans (h : Grows H s H' s') (h' : Grows H' s' H'' s'') : Grows H s H'' s'' := by
  intro i hi ps hps
  obtain ⟨ps', hps', hsub⟩ := h i hi ps hps
  obtain ⟨ps'', hps'', hsub'⟩ := h' i hi ps' hps'
  exact ⟨ps'', hps'', hsub.trans hsub'⟩

omit [LinearOrder K] in
lemma grows_of_loose {L L' : ℕ → List Ptr} (h : Loose H s es L) (h' : Loose H' s' es' L')
    (hL : ∀ i, List.Sublist (L i) (L' i)) : Grows H s H' s' := by
  intro i hi ps hps
  rw [hps.unique (h.linked i hi)]
  exact ⟨L' i, h'.linked i hi, hL i⟩

lemma Moves.refl (h : Good H s es) : Moves H s es H s es :=
  ⟨h, rfl, Frame.refl _ _, fun _ => Or.inl⟩

lemma Moves.trans (h : Moves H s es H' s' es') (h' : Moves H' s' es' H'' s'' es'') :
    Moves H s es H'' s'' es'' := by
  refine ⟨h'.good, h'.head.trans h.head, h.frame.trans h'.frame h.foot, fun p hp => ?_⟩
  rcases h'.foot p hp with hp | hp
  · exact h.foot p hp
  · exact Or.inr (h.frame.brk.trans hp)

lemma Moves.other (h : Moves H s es H' s' es') {x : Skiplist} {ex : List (Entry K V)}
    {L : ℕ → List Ptr} (hx : Loose H x ex L) (hd : ∀ p ∈ SkipRep.foot x ex, p ∉ SkipRep.foot s es) :
    Loose H' x ex L ∧ ∀ p ∈ SkipRep.foot x ex, p ∉ SkipRep.foot s' es' := by
  obtain ⟨L', hl'⟩ := h.good.loose
  refine ⟨hx.frame h.frame hl'.unused hd, fun p hp hp' => ?_⟩
  rcases h.foot p hp' with hp' | hp'
  · exact hd p hp hp'
  · exact absurd (hx.foot_lt hp) (Nat.not_lt.mpr hp')

/-- A cache that fits the key: the slots in use name places of their levels, and slot `0` the
last node below the key. -/
structure Slots (s : Skiplist) (es : List (Entry K V)) (k : K) (cache : Cache) : Prop where
  place : ∀ j < s.currentHeight_, ∃ d, cache j = some d ∧ Start s es k j d
  zero : cache 0 = some (last s.head_ ((below Entry.key k es).map Entry.ptr))

lemma find_good (h : Good H s es) (k : K) :
    (∃ e ∈ es, e.key = k ∧ find C H s k = some (some e.ptr)) ∨
      (∀ e ∈ es, e.key ≠ k) ∧ find C H s k = some none := by
  obtain ⟨L, hl⟩ := h.loose
  rcases descend_loose C (k := k) hl h.asc hl.current_le (fun _ => start_head _) none with
    ⟨e, he, hk, c, -, hd⟩ | ⟨f, hd, -, h0⟩
  · exact Or.inl ⟨e, he, hk, by simp [find, find_, hd]⟩
  · have habs := (h0 (Nat.pos_iff_ne_zero.mp hl.current_pos)).1
    exact Or.inr ⟨habs, by simp [find, find_, hd]⟩

lemma findCached_good (h : Good H s es) (k : K) :
    (∃ e ∈ es, e.key = k ∧ ∃ c, findCached C H s k = some (some e.ptr, c)) ∨
      (∀ e ∈ es, e.key ≠ k) ∧ ∃ c, findCached C H s k = some (none, c) ∧ Slots s es k c := by
  obtain ⟨L, hl⟩ := h.loose
  rcases descend_loose C (k := k) hl h.asc hl.current_le (fun _ => start_head _)
    (some Cache.fresh) with ⟨e, he, hk, c, hs, hd⟩ | ⟨f, hd, hplace, h0⟩
  · obtain ⟨c, rfl⟩ := Option.isSome_iff_exists.mp hs
    exact Or.inl ⟨e, he, hk, c, by simp [findCached, find_, hd]⟩
  · obtain ⟨habs, hf0⟩ := h0 (Nat.pos_iff_ne_zero.mp hl.current_pos)
    refine Or.inr ⟨habs, _, by simp [findCached, find_, hd]; rfl, fun j hj => ?_, ?_⟩
    · exact ⟨f j, fill_slot _ j hj, hplace j hj⟩
    · rw [fill_slot _ 0 hl.current_pos, hf0]

/-- **`insert_` of an absent key**, with what it makes of every level: it cuts each of them
where the cache points, on level `0` at the key. -/
theorem insert_cut (h : Good H s es) {L : ℕ → List Ptr} (hl : Loose H s es L) (gen : ℕ → ℕ)
    (kv : K × V) (hk : ∀ e ∈ es, e.key ≠ kv.1) {cache : Cache} {l₁ l₂ : ℕ → List Ptr}
    (hsplit : ∀ j, L j = l₁ j ++ l₂ j) (hzero : l₁ 0 = (below Entry.key kv.1 es).map Entry.ptr)
    (hslot : ∀ j < s.currentHeight_, j < randomHeight_ gen →
      cache j = some (last s.head_ (l₁ j))) :
    let es' := below Entry.key kv.1 es ++
      ⟨H.brk, randomHeight_ gen, kv⟩ :: atLeast Entry.key kv.1 es
    ∃ H' s', insert_ H s gen kv cache = some (H', s', H.brk) ∧
      s'.currentHeight_ = max s.currentHeight_ (randomHeight_ gen) ∧
      s'.tail_ = (if atLeast Entry.key kv.1 es = [] then some H.brk else s.tail_) ∧
      Moves H s es H' s' es' ∧ Loose H' s' es' fun j =>
        if j < randomHeight_ gen then l₁ j ++ H.brk :: l₂ j else L j := by
  intro es'
  have hes := h.asc.split kv.1
  have hl' : Loose H s (below Entry.key kv.1 es ++ atLeast Entry.key kv.1 es) L := by
    rw [hes]
    exact hl
  obtain ⟨H', s', e', hhead, hcur, htail, hloose, hframe⟩ :=
    insert_loose hl' gen kv hsplit hzero hslot
  refine ⟨H', s', e', hcur, htail, ⟨⟨⟨_, hloose⟩, ?_⟩, hhead, by rwa [hes] at hframe,
    fun p hp => ?_⟩, hloose⟩
  · exact h.asc.insert (a := (⟨H.brk, randomHeight_ gen, kv⟩ : Entry K V)) hk
  · rw [← hes]
    simp only [es', foot, hhead, List.map_append, List.map_cons, List.mem_cons,
      List.mem_append] at hp ⊢
    rcases hp with hp | hp | hp | hp
    · exact Or.inl (Or.inl hp)
    · exact Or.inl (Or.inr (Or.inl hp))
    · exact Or.inr hp.ge
    · exact Or.inl (Or.inr (Or.inr hp))

/-- **`insert_` of an absent key** puts its node in key order on level `0`. -/
theorem insert_moves (h : Good H s es) (gen : ℕ → ℕ) (kv : K × V) (hk : ∀ e ∈ es, e.key ≠ kv.1)
    {cache : Cache} (hc : Slots s es kv.1 cache) :
    ∃ H' s', insert_ H s gen kv cache = some (H', s', H.brk) ∧
      s'.currentHeight_ = max s.currentHeight_ (randomHeight_ gen) ∧
      s'.tail_ = (if atLeast Entry.key kv.1 es = [] then some H.brk else s.tail_) ∧
      Grows H s H' s' ∧ Moves H s es H' s' (below Entry.key kv.1 es ++
        ⟨H.brk, randomHeight_ gen, kv⟩ :: atLeast Entry.key kv.1 es) := by
  obtain ⟨L, hl⟩ := h.loose
  -- where each slot cuts its level
  have hcut : ∀ j, ∃ l₁ l₂, L j = l₁ ++ l₂ ∧
      (j < s.currentHeight_ → cache j = some (last s.head_ l₁)) ∧
      (j = 0 → l₁ = (below Entry.key kv.1 es).map Entry.ptr) := by
    intro j
    by_cases h0 : j = 0
    · subst h0
      exact ⟨_, (atLeast Entry.key kv.1 es).map Entry.ptr,
        by rw [hl.zero, ← List.map_append, h.asc.split], fun _ => hc.zero, fun _ => rfl⟩
    by_cases hj : j < s.currentHeight_
    · obtain ⟨d, hd, hplace⟩ := hc.place j hj
      obtain ⟨l, hlj, hm, -⟩ := level_entries hl j
      obtain ⟨l₁, l₂, rfl, hlast, -⟩ := hplace.cut hl (hj.trans_le hl.current_le) hlj
        fun e he => (hm e he).1
      exact ⟨l₁.map Entry.ptr, l₂.map Entry.ptr, by rw [← hlj, List.map_append],
        fun _ => by rw [hd, hlast], fun hj0 => absurd hj0 h0⟩
    · exact ⟨[], L j, rfl, fun hj' => absurd hj' hj, fun hj0 => absurd hj0 h0⟩
  choose l₁ l₂ hsplit hslot hzero using hcut
  obtain ⟨H', s', e', hcur, htail, hm, hloose⟩ :=
    insert_cut h hl gen kv hk hsplit (hzero 0 rfl) fun j hj _ => hslot j hj
  refine ⟨H', s', e', hcur, htail, grows_of_loose hl hloose fun j => ?_, hm⟩
  split_ifs
  · rw [hsplit j]
    exact (List.sublist_cons_self H.brk (l₂ j)).append_left (l₁ j)
  · exact List.Sublist.refl (L j)

/-- **`erase_`** takes its node out. -/
theorem erase_moves {A B : List (Entry K V)} {e : Entry K V} (h : Good H s (A ++ e :: B))
    (ht : Tail s (A ++ e :: B)) :
    ∃ H' s', erase_ H s e.ptr = some (H', s') ∧ Moves H s (A ++ e :: B) H' s' (A ++ B) ∧
      Tail s' (A ++ B) := by
  obtain ⟨L, hl⟩ := h.loose
  obtain ⟨H', s', e', hhead, htail, hloose, hframe⟩ := erase_loose hl ht
  have hsub : List.Sublist (A ++ B) (A ++ e :: B) :=
    (List.sublist_append_right [e] B).append_left A
  refine ⟨H', s', e', ⟨⟨⟨_, hloose⟩, h.asc.sublist hsub⟩, hhead, hframe, fun p hp => ?_⟩, htail⟩
  rw [foot, hhead] at hp
  exact Or.inl (((hsub.map Entry.ptr).cons_cons s.head_).subset hp)

omit [LinearOrder K] in
lemma Tail.insert {A B : List (Entry K V)} (ht : Tail s (A ++ B)) (e : Entry K V)
    (ht' : s'.tail_ = if B = [] then some e.ptr else s.tail_) : Tail s' (A ++ e :: B) :=
  ht'.trans (tail_insert ht e)

/-! ### The operations on elements -/

/-- The operation leaves a list with some entries, and the tail at the last of them. -/
def Done (H : Heap K V) (s : Skiplist) (es : List (Entry K V)) (r : Option (Heap K V × Skiplist)) :
    Prop :=
  ∃ H' s' es', r = some (H', s') ∧ Moves H s es H' s' es' ∧ Tail s' es'

/-- The positions the operation names are positions of the list. -/
def OpValid (s : Skiplist) : Op K V → Prop
  | .eraseAt position => position < size s
  | .eraseRange first last => first ≤ last ∧ last ≤ size s
  | _ => True

lemma insert_absent_done (h : Good H s es) (ht : Tail s es) (gen : ℕ → ℕ) (kv : K × V)
    (hk : ∀ e ∈ es, e.key ≠ kv.1) {cache : Cache} (hc : Slots s es kv.1 cache) :
    ∃ H' s' es', insert_ H s gen kv cache = some (H', s', H.brk) ∧ Moves H s es H' s' es' ∧
      Tail s' es' := by
  obtain ⟨H', s', e', -, htail, -, hm⟩ := insert_moves h gen kv hk hc
  refine ⟨H', s', _, e', hm, Tail.insert (s := s) ?_ _ htail⟩
  rwa [h.asc.split]

lemma insert_done (h : Good H s es) (ht : Tail s es) (gen : ℕ → ℕ) (val : K × V) :
    Done H s es ((insert C H s gen val).map fun r => (r.1, r.2.1)) := by
  rcases findCached_good C h val.1 with ⟨e, -, -, c, hc⟩ | ⟨hk, c, hc, hs⟩
  · exact ⟨H, s, es, by simp [SkipModel.insert, hc], Moves.refl h, ht⟩
  · obtain ⟨H', s', es', e', hm, ht'⟩ := insert_absent_done h ht gen val hk hs
    exact ⟨H', s', es', by simp [SkipModel.insert, hc, e'], hm, ht'⟩

lemma index_done [Inhabited V] (h : Good H s es) (ht : Tail s es) (gen : ℕ → ℕ) (k : K) :
    Done H s es ((index C H s gen k).map fun r => (r.1, r.2.1)) := by
  rcases findCached_good C h k with ⟨e, -, -, c, hc⟩ | ⟨hk, c, hc, hs⟩
  · exact ⟨H, s, es, by simp [index, hc], Moves.refl h, ht⟩
  · obtain ⟨H', s', es', e', hm, ht'⟩ := insert_absent_done h ht gen (k, default) hk hs
    exact ⟨H', s', es', by simp [index, hc, e'], hm, ht'⟩

lemma eraseKey_done (h : Good H s es) (ht : Tail s es) (k : K) :
    Done H s es ((eraseKey C H s k).map fun r => (r.1, r.2.1)) := by
  rcases find_good C h k with ⟨e, he, -, hf⟩ | ⟨-, hf⟩
  · obtain ⟨A, B, rfl⟩ := List.append_of_mem he
    obtain ⟨H', s', e', hm, ht'⟩ := erase_moves h ht
    exact ⟨H', s', _, by simp [eraseKey, hf, e'], hm, ht'⟩
  · exact ⟨H, s, es, by simp [eraseKey, hf], Moves.refl h, ht⟩

lemma eraseAt_done (h : Good H s es) (ht : Tail s es) {i : ℕ} (hi : i < size s) :
    Done H s es (do eraseAt C H s (← iterAt H s i)) := by
  obtain ⟨L, hl⟩ := h.loose
  have hlt : i < es.length := hl.num ▸ hi
  have hkv := kv_of_hdr (hl.node es[i] (List.getElem_mem hlt))
  obtain ⟨H', s', es', e', hd⟩ := eraseKey_done C h ht es[i].key
  obtain ⟨⟨H₁, s₁, n⟩, hr, hr'⟩ := Option.map_eq_some_iff.mp e'
  cases hr'
  refine ⟨H₁, s₁, es', ?_, hd⟩
  simp [hl.iterAt_eq hlt.le, List.getElem?_eq_getElem hlt, eraseAt, hkv, hr]

lemma eraseRange_done (h : Good H s es) (ht : Tail s es) {i j : ℕ} (hij : i ≤ j)
    (hj : j ≤ size s) :
    Done H s es (do eraseRange (← iterAt H s j) s.fuel H s (← iterAt H s i)) := by
  obtain ⟨L, hl⟩ := h.loose
  obtain ⟨H', s', e', hm, ht'⟩ := eraseRange_at
    (P := fun H' s' es' => Moves H s es H' s' es' ∧ Tail s' es') (fun h => h.1.good.loose)
    (fun ⟨hm, ht⟩ => by
      obtain ⟨H₁, s₁, e₁, hm₁, ht₁⟩ := erase_moves hm.good ht
      exact ⟨H₁, s₁, e₁, hm.trans hm₁, ht₁⟩)
    ⟨Moves.refl h, ht⟩ hij (hl.num ▸ hj)
  exact ⟨H', s', _, e', hm, ht'⟩

/-- **An operation on elements.** -/
theorem exec_done [Inhabited V] (h : Good H s es) (ht : Tail s es) (op : Op K V) (gen : ℕ → ℕ)
    (hv : OpValid s op) : Done H s es (exec C (H, s) (op, gen)) := by
  have hbind {α : Type} (r : Option (Heap K V × Skiplist × α)) :
      (do let (H, s, _) ← r; some (H, s)) = r.map fun r => (r.1, r.2.1) := by
    cases r <;> rfl
  cases op with
  | insert val =>
    have := insert_done C h ht gen val
    rwa [← hbind] at this
  | index k =>
    have := index_done C h ht gen k
    rwa [← hbind] at this
  | eraseKey k =>
    have := eraseKey_done C h ht k
    rwa [← hbind] at this
  | eraseAt position => exact eraseAt_done C h ht hv
  | eraseRange first last => exact eraseRange_done h ht hv.1 hv.2

end Moves

end Libchef.SkipLoose
