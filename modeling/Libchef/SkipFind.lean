import Libchef.SkipRep

/-!
The search of a skip list.

A walk along one level reads the level as a list, so it is a scan of that list. A search
that starts on a level at the head, or at a node of that level below the key, ends at the
node with the key if there is one; otherwise it leaves in the cache, on every level it went
through, the last node below the key.
-/

namespace Libchef.SkipFind

open Libchef.SkipModel Libchef.SkipRep Libchef.Chain Libchef.Ordered

variable {K V : Type} [LinearOrder K] (C : KeyCompare K)

/-! ### A walk along one level -/

/-- The walk of `find_` on a level whose remaining entries are given. -/
def scan (k : K) (epos : Option Ptr) : Ptr → List (Entry K V) → Walk
  | d, [] => .stop d
  | d, e :: l =>
    if epos = some e.ptr then .stop d
    else if e.key = k then .found e.ptr
    else if k < e.key then .stop d
    else scan k epos e.ptr l

lemma walk_eq_scan {H : Heap K V} {k : K} {epos : Option Ptr} {i : ℕ} {l : List (Entry K V)}
    {d : Ptr} {fuel : ℕ} (hl : Linked (next H i) (prev H i) d (l.map Entry.ptr) none)
    (hd : HasLevel H d i)
    (hn : ∀ e ∈ l, hdr H e.ptr = some (e.kv, e.ht, e.ht) ∧ i < e.ht) (hf : l.length < fuel) :
    walk C H k epos i fuel d = some (scan k epos d l) := by
  induction l generalizing d fuel with
  | nil =>
    obtain ⟨fuel, rfl⟩ : ∃ f, fuel = f + 1 := ⟨fuel - 1, by simp at hf; omega⟩
    have hz : next H i d = none := hl
    simp [walk, level_eq hd, hz, scan]
  | cons e l ih =>
    obtain ⟨fuel, rfl⟩ : ∃ f, fuel = f + 1 := ⟨fuel - 1, by simp at hf; omega⟩
    obtain ⟨h1, -, h3⟩ := hl
    obtain ⟨hh, hi⟩ := hn e (by simp)
    have hrest := ih h3 ⟨_, _, _, hh, hi⟩ (fun e' he' => hn e' (by simp [he']))
      (show l.length < fuel by simpa using hf)
    have h0 : C.cmp k e.kv.1 = 0 ↔ e.key = k := (C.eq_iff _ _).trans eq_comm
    have h1' : C.cmp k e.kv.1 < 0 ↔ k < e.key := C.lt_iff _ _
    simp only [walk, level_eq hd, h1, Option.bind_eq_bind, Option.bind_some, kv_of_hdr hh, scan,
      h0, h1', hrest]
    split_ifs <;> rfl

lemma scan_break {k : K} {epos : Option Ptr} {l₁ l₂ : List (Entry K V)} (d : Ptr)
    (h₁ : ∀ e ∈ l₁, e.key < k ∧ epos ≠ some e.ptr)
    (h₂ : ∀ e ∈ l₂.head?, epos = some e.ptr ∨ k < e.key) :
    scan k epos d (l₁ ++ l₂) = .stop (last d (l₁.map Entry.ptr)) := by
  induction l₁ generalizing d with
  | nil =>
    cases l₂ with
    | nil => rfl
    | cons e l =>
      rcases h₂ e rfl with he | he
      · simp [scan, he]
      · simp [scan, he, he.ne']
  | cons e l ih =>
    obtain ⟨hlt, hne⟩ := h₁ e (by simp)
    simp only [List.cons_append, scan, hne, hlt.ne, hlt.not_gt, if_false, List.map_cons, last_cons]
    exact ih e.ptr fun e' h' => h₁ e' (by simp [h'])

lemma scan_hit {l₁ l₂ : List (Entry K V)} {e : Entry K V} (d : Ptr)
    (h₁ : ∀ x ∈ l₁, x.key < e.key) : scan e.key none d (l₁ ++ e :: l₂) = .found e.ptr := by
  induction l₁ generalizing d with
  | nil => simp [scan]
  | cons x l ih =>
    have hlt := h₁ x (by simp)
    simp only [List.cons_append, scan, reduceCtorEq, if_false, hlt.ne, hlt.not_gt]
    exact ih x.ptr fun y hy => h₁ y (by simp [hy])

lemma scan_stop {k : K} {l : List (Entry K V)} (d : Ptr) (ha : Asc Entry.key l)
    (hk : ∀ e ∈ l, e.key ≠ k) :
    scan k none d l = .stop (last d ((below Entry.key k l).map Entry.ptr)) := by
  conv_lhs => rw [← ha.split k]
  refine scan_break d (fun e he => ⟨(mem_below.mp he).2, by simp⟩) fun e he => Or.inr ?_
  obtain ⟨hm, hle⟩ := mem_atLeast.mp (List.mem_of_mem_head? he)
  exact lt_of_le_of_ne hle (hk e hm).symm

lemma scan_found {k : K} {l : List (Entry K V)} (d : Ptr) (ha : Asc Entry.key l)
    {e : Entry K V} (he : e ∈ l) (hk : e.key = k) : scan k none d l = .found e.ptr := by
  obtain ⟨l₁, l₂, rfl⟩ := List.append_of_mem he
  obtain ⟨-, -, hlt⟩ := asc_append.mp ha
  subst hk
  exact scan_hit d fun x hx => hlt x hx e (by simp)

lemma scan_epos {k : K} {l : List (Entry K V)} {p : Ptr} (d : Ptr)
    (hp : ∀ e ∈ l, e.ptr = p → k < e.key) : scan k (some p) d l = scan k none d l := by
  induction l generalizing d with
  | nil => rfl
  | cons e l ih =>
    have hrest := ih e.ptr fun e' h' => hp e' (by simp [h'])
    by_cases he : e.ptr = p
    · have hlt := hp e (by simp) he
      simp [scan, he, hlt, hlt.ne']
    · simp only [scan, Option.some.injEq, Ne.symm he, reduceCtorEq, if_false, hrest]

/-- A walk ends at a node with the key, or at a node of the level. -/
lemma scan_cases (k : K) (epos : Option Ptr) (d : Ptr) (l : List (Entry K V)) :
    (∃ e ∈ l, e.key = k ∧ scan k epos d l = .found e.ptr) ∨
      ∃ d', scan k epos d l = .stop d' ∧ (d' = d ∨ ∃ e ∈ l, e.ptr = d') := by
  induction l generalizing d with
  | nil => exact Or.inr ⟨d, rfl, Or.inl rfl⟩
  | cons e l ih =>
    simp only [scan]
    split_ifs with h1 h2 h3
    · exact Or.inr ⟨d, rfl, Or.inl rfl⟩
    · exact Or.inl ⟨e, by simp, h2, rfl⟩
    · exact Or.inr ⟨d, rfl, Or.inl rfl⟩
    · rcases ih e.ptr with ⟨e', he', hk', hs⟩ | ⟨d', hs, rfl | ⟨e', he', hp⟩⟩
      · exact Or.inl ⟨e', by simp [he'], hk', hs⟩
      · exact Or.inr ⟨_, hs, Or.inr ⟨e, by simp, rfl⟩⟩
      · exact Or.inr ⟨_, hs, Or.inr ⟨e', by simp [he'], hp⟩⟩

/-! ### The levels of a list -/

/-- The last node of level `i` below `k`, or the head. -/
def pred (s : Skiplist) (es : List (Entry K V)) (k : K) (i : ℕ) : Ptr :=
  last s.head_ (lane i (below Entry.key k es))

/-- A place on level `i` where a search for `k` can go on: the head, or a node below `k`. -/
def Start (s : Skiplist) (es : List (Entry K V)) (k : K) (i : ℕ) (d : Ptr) : Prop :=
  d = s.head_ ∨ ∃ e ∈ es, e.ptr = d ∧ i < e.ht ∧ e.key < k

variable {H : Heap K V} {s : Skiplist} {es : List (Entry K V)} {k : K}

lemma start_head (i : ℕ) : Start s es k i s.head_ := Or.inl rfl

lemma Start.mono {i j : ℕ} {d : Ptr} (h : Start s es k i d) (hj : j ≤ i) : Start s es k j d := by
  rcases h with rfl | ⟨e, he, hp, hi, hk⟩
  · exact Or.inl rfl
  · exact Or.inr ⟨e, he, hp, hj.trans_lt hi, hk⟩

lemma Start.above {s' : Skiplist} {es' : List (Entry K V)} {k' : K} {i : ℕ} {d : Ptr}
    (h : Start s es k i d) (hk : k ≤ k') (hhead : s'.head_ = s.head_) (hes : ∀ e ∈ es, e ∈ es') :
    Start s' es' k' i d := by
  rcases h with rfl | ⟨e, he, hp, hi, hek⟩
  · exact Or.inl hhead.symm
  · exact Or.inr ⟨e, hes e he, hp, hi, hek.trans_le hk⟩

lemma start_pred (i : ℕ) : Start s es k i (pred s es k i) := by
  rcases List.mem_cons.mp (last_mem s.head_ (lane i (below Entry.key k es))) with h | h
  · exact Or.inl h
  · obtain ⟨e, he, hi, hp⟩ := mem_lane.mp h
    obtain ⟨hm, hk⟩ := mem_below.mp he
    exact Or.inr ⟨e, hm, hp, hi, hk⟩

/-- The entries of level `i`. -/
abbrev level (i : ℕ) (es : List (Entry K V)) : List (Entry K V) := es.filter fun e => i < e.ht

lemma below_level (i : ℕ) : below Entry.key k (level i es) = level i (below Entry.key k es) := by
  simp only [below, List.filter_filter, Bool.and_comm]

lemma Start.cut {L : ℕ → List Ptr} (h : Loose H s es L) {i : ℕ} (hi : i < maxHeight_) {d : Ptr}
    (hd : Start s es k i d) {l : List (Entry K V)} (hl : l.map Entry.ptr = L i)
    (hm : ∀ e ∈ l, e ∈ es) :
    ∃ l₁ l₂, l = l₁ ++ l₂ ∧ last s.head_ (l₁.map Entry.ptr) = d ∧
      (∀ e ∈ l₁.getLast?, e.key < k) ∧
      Linked (next H i) (prev H i) d (l₂.map Entry.ptr) none := by
  have hlink := h.linked i hi
  rw [← hl] at hlink
  rcases hd with rfl | ⟨e, he, rfl, hei, hek⟩
  · exact ⟨[], l, rfl, rfl, by simp, hlink⟩
  · have hp : e.ptr ∈ l.map Entry.ptr := hl ▸ h.mem_level.mpr ⟨e, he, hei, rfl⟩
    obtain ⟨x, hx, hxp⟩ := List.mem_map.mp hp
    rw [h.eq_of_ptr (hm x hx) he hxp] at hx
    obtain ⟨l₁, l₂, rfl⟩ := List.append_of_mem hx
    refine ⟨l₁ ++ [e], l₂, by simp, by simp, by simpa using hek, ?_⟩
    rw [List.append_cons, List.map_append] at hlink
    simpa using hlink.drop

lemma Start.rest (h : Rep H s es) {i : ℕ} (hi : i < maxHeight_) {d : Ptr}
    (hd : Start s es k i d) :
    ∃ l₁ l₂, level i es = l₁ ++ l₂ ∧ last s.head_ (l₁.map Entry.ptr) = d ∧
      (∀ e ∈ l₁, e.key < k) ∧ Linked (next H i) (prev H i) d (l₂.map Entry.ptr) none := by
  obtain ⟨l₁, l₂, hs, hlast, hlow, hlink⟩ := hd.cut h.loose hi (l := level i es) rfl
    fun e he => List.mem_of_mem_filter he
  have hasc : Asc Entry.key (l₁ ++ l₂) := hs ▸ h.asc.filter _
  exact ⟨l₁, l₂, hs, hlast, (asc_append.mp hasc).1.lt_of_getLast hlow, hlink⟩

lemma level_node (h : Rep H s es) {i : ℕ} {e : Entry K V} (he : e ∈ level i es) :
    hdr H e.ptr = some (e.kv, e.ht, e.ht) ∧ i < e.ht := by
  simp only [level, List.mem_filter, decide_eq_true_eq] at he
  exact ⟨h.node e he.1, he.2⟩

lemma Start.hasLevel {L : ℕ → List Ptr} (h : Loose H s es L) {i : ℕ} (hi : i < maxHeight_) {d : Ptr}
    (hd : Start s es k i d) : HasLevel H d i := by
  rcases hd with rfl | ⟨e, he, rfl, hei, -⟩
  · exact h.hasLevel_head hi
  · exact h.hasLevel he hei

lemma length_level_lt (h : Rep H s es) {i : ℕ} {l₁ l₂ : List (Entry K V)}
    (hs : level i es = l₁ ++ l₂) : l₂.length < s.fuel := by
  have h1 : (level i es).length ≤ es.length := List.length_filter_le ..
  rw [hs, List.length_append] at h1
  unfold Skiplist.fuel
  rw [h.num]
  omega

lemma pred_eq {i : ℕ} {d : Ptr} {l₁ l₂ : List (Entry K V)} (hs : level i es = l₁ ++ l₂)
    (hlast : last s.head_ (l₁.map Entry.ptr) = d) (hlow : ∀ e ∈ l₁, e.key < k) :
    pred s es k i = last d ((below Entry.key k l₂).map Entry.ptr) := by
  have hp : lane i (below Entry.key k es) =
      l₁.map Entry.ptr ++ (below Entry.key k l₂).map Entry.ptr := by
    show (level i (below Entry.key k es)).map Entry.ptr = _
    rw [← below_level, hs, below_append, below_of_lt hlow, List.map_append]
  rw [pred, hp, last_append, hlast]

/-- A walk from such a place stops at the last node of the level below an absent key. -/
lemma walk_stop (h : Rep H s es) {i : ℕ} (hi : i < maxHeight_) {d : Ptr}
    (hd : Start s es k i d) (hk : ∀ e ∈ level i es, e.key ≠ k) :
    walk C H k none i s.fuel d = some (.stop (pred s es k i)) := by
  obtain ⟨l₁, l₂, hs, hlast, hlow, hlink⟩ := hd.rest h hi
  have hasc : Asc Entry.key (l₁ ++ l₂) := hs ▸ h.asc.filter _
  rw [walk_eq_scan C hlink (hd.hasLevel h.loose hi)
    (fun e he => level_node h (hs ▸ List.mem_append_right _ he)) (length_level_lt h hs),
    scan_stop d (asc_append.mp hasc).2.1 fun e he => hk e (hs ▸ List.mem_append_right _ he),
    pred_eq hs hlast hlow]

lemma walk_found (h : Rep H s es) {i : ℕ} (hi : i < maxHeight_) {d : Ptr}
    (hd : Start s es k i d) {e : Entry K V} (he : e ∈ level i es) (hk : e.key = k) :
    walk C H k none i s.fuel d = some (.found e.ptr) := by
  obtain ⟨l₁, l₂, hs, -, hlow, hlink⟩ := hd.rest h hi
  have hasc : Asc Entry.key (l₁ ++ l₂) := hs ▸ h.asc.filter _
  have hm : e ∈ l₂ := by
    rcases List.mem_append.mp (hs ▸ he) with h' | h'
    · exact absurd hk (hlow e h').ne
    · exact h'
  rw [walk_eq_scan C hlink (hd.hasLevel h.loose hi)
    (fun e he => level_node h (hs ▸ List.mem_append_right _ he)) (length_level_lt h hs),
    scan_found d (asc_append.mp hasc).2.1 hm hk]

/-! ### The descent -/

/-- A cache with the slots below `i` set. -/
def fill (f : ℕ → Ptr) (i : ℕ) (c : Cache) : Cache := fun j => if j < i then some (f j) else c j

lemma fill_update (f : ℕ → Ptr) (i : ℕ) (d : Ptr) (c : Cache) :
    fill f i (Function.update c i (some d)) = fill (Function.update f i d) (i + 1) c := by
  funext j
  rcases lt_trichotomy j i with h | rfl | h
  · simp [fill, h, Nat.lt_succ_of_lt h, h.ne]
  · simp [fill]
  · simp [fill, Nat.not_lt.mpr h.le, Nat.not_lt.mpr h, h.ne']

lemma fill_put (f : ℕ → Ptr) (i : ℕ) (c : Cache) :
    fill f i (Function.update c i (some (f i))) = fill f (i + 1) c := by
  rw [fill_update, Function.update_eq_self]

lemma fill_slot {f : ℕ → Ptr} {i : ℕ} (c : Cache) (j : ℕ) (hj : j < i) :
    fill f i c j = some (f j) := by
  simp [fill, hj]

/-- **The search for an absent key** goes through every level and fills the cache. -/
lemma descend_absent (h : Rep H s es) {i : ℕ} (hi : i ≤ maxHeight_) {d : Ptr}
    (hd : i ≠ 0 → Start s es k (i - 1) d) (hk : ∀ e ∈ es, e.key ≠ k) (cache : Option Cache) :
    descend C H k none s.fuel i d cache = some (none, cache.map (fill (pred s es k) i)) := by
  induction i generalizing d cache with
  | zero =>
    have hid : fill (pred s es k) 0 = id := by funext c j; simp [fill]
    simp [descend, hid]
  | succ i ih =>
    have hw := walk_stop C h (i := i) (by omega) (hd (by omega))
      fun e he => hk e (List.mem_of_mem_filter he)
    have hnext : i ≠ 0 → Start s es k (i - 1) (pred s es k i) :=
      fun _ => (start_pred i).mono (by omega)
    cases cache with
    | none => simp [descend, hw, ih (by omega) hnext]
    | some c =>
      simp [descend, hw, Cache.put, show i < maxHeight_ by omega, ih (by omega) hnext, fill_put]

/-- **The search for a key that is there** ends at its node. -/
lemma descend_present (h : Rep H s es) {i : ℕ} (hi : i ≤ maxHeight_) {d : Ptr}
    (hd : Start s es k (i - 1) d) (h0 : i ≠ 0) {e : Entry K V} (he : e ∈ es) (hk : e.key = k)
    (cache : Option Cache) :
    ∃ cache', descend C H k none s.fuel i d cache = some (some e.ptr, cache') ∧
      cache'.isSome = cache.isSome := by
  induction i generalizing d cache with
  | zero => exact absurd rfl h0
  | succ i ih =>
    by_cases hei : i < e.ht
    · have hw := walk_found C h (i := i) (by omega) hd (by simp [he, hei]) hk
      exact ⟨cache, by simp [descend, hw], rfl⟩
    · -- the node does not reach this level: the walk stops and the search goes on below
      have hlev : ∀ e' ∈ level i es, e'.key ≠ k := by
        intro e' he' hk'
        have heq := h.asc.eq_of_key (List.mem_of_mem_filter he') he (hk'.trans hk.symm)
        rw [heq] at he'
        exact hei (level_node h he').2
      have hw := walk_stop C h (i := i) (by omega) hd hlev
      have hi0 : i ≠ 0 := by have := h.pos e he; omega
      have hnext : Start s es k (i - 1) (pred s es k i) := (start_pred i).mono (by omega)
      cases cache with
      | none =>
        obtain ⟨c', hc', hs⟩ := ih (by omega) hnext hi0 none
        exact ⟨c', by simp [descend, hw, hc'], hs⟩
      | some c =>
        obtain ⟨c', hc', hs⟩ := ih (by omega) hnext hi0
          (some (Function.update c i (some (pred s es k i))))
        exact ⟨c', by simp [descend, hw, Cache.put, show i < maxHeight_ by omega, hc'], hs⟩

/-! ### The searches of the interface -/

/-- **`find`** returns the node with the key, or the end. -/
theorem find_eq (h : Rep H s es) (k : K) :
    find C H s k = some ((es.find? fun e => e.key = k).map Entry.ptr) := by
  cases hf : es.find? fun e => e.key = k with
  | none =>
    have habs : ∀ e ∈ es, e.key ≠ k := by simpa using hf
    simp [find, find_, descend_absent C h h.current_le (fun _ => start_head _) habs]
  | some e =>
    obtain ⟨c, hc, -⟩ := descend_present C h h.current_le (start_head _)
      (Nat.pos_iff_ne_zero.mp h.current_pos) (List.mem_of_find?_eq_some hf)
      (by simpa using List.find?_some hf) none
    simp [find, find_, hc]

lemma findCached_absent (h : Rep H s es) (hk : ∀ e ∈ es, e.key ≠ k) :
    findCached C H s k = some (none, fill (pred s es k) s.currentHeight_ Cache.fresh) := by
  simp [findCached, find_, descend_absent C h h.current_le (fun _ => start_head _) hk]

lemma findCached_present (h : Rep H s es) {e : Entry K V} (he : e ∈ es) (hk : e.key = k) :
    ∃ c, findCached C H s k = some (some e.ptr, c) := by
  obtain ⟨c, hc, hs⟩ := descend_present C h h.current_le (start_head _)
    (Nat.pos_iff_ne_zero.mp h.current_pos) he hk (some Cache.fresh)
  obtain ⟨c, rfl⟩ := Option.isSome_iff_exists.mp hs
  exact ⟨c, by simp [findCached, find_, hc]⟩

end Libchef.SkipFind
