import Libchef.SkipRep

/-!
Putting a node into a skip list.

Each level has its own pointer fields, so the loop of `insert_` puts the new node into every
level it reaches, behind the node the cache names there, and leaves the other levels alone.
That holds wherever the cache points; where it points at the predecessors of the key, the
invariant is kept.
-/

namespace Libchef.SkipInsert

open Libchef.SkipModel Libchef.SkipRep Libchef.Chain Libchef.Ordered

variable {K V : Type}

/-! ### The new node -/

lemma new_hdr (H : Heap K V) (n : Node K V) :
    hdr (H.new n).2 =
      Function.update (hdr H) H.brk (some (n.kv_, n.height_, n.levels_.length)) := by
  funext p
  by_cases hp : p = H.brk
  · subst hp; simp [hdr, Heap.new]
  · simp [hdr, Heap.new, hp]

lemma new_level {H : Heap K V} (hb : H.node H.brk = none) (ht : ℕ) (kv : K × V) :
    next (H.new (Node.make ht kv)).2 = next H ∧ prev (H.new (Node.make ht kv)).2 = prev H := by
  have hlev : ∀ i,
      (Node.make ht kv).levels_[i]? = if i < ht then some LevelItem.null else none := by
    intro i
    simp [Node.make, List.getElem?_replicate]
  constructor <;> funext i p <;> by_cases hp : p = H.brk
  · subst hp
    simp only [next, Heap.level, Heap.new, Function.update_self, Option.bind_some, hlev, hb]
    split_ifs <;> rfl
  · simp [next, Heap.level, Heap.new, hp]
  · subst hp
    simp only [prev, Heap.level, Heap.new, Function.update_self, Option.bind_some, hlev, hb]
    split_ifs <;> rfl
  · simp [prev, Heap.level, Heap.new, hp]

/-! ### Linking -/

/-- The `next_` fields of a level once `nn` is in behind `cn`. -/
def insNext (f : Ptr → Option Ptr) (nn cn : Ptr) : Ptr → Option Ptr :=
  Function.update (Function.update f nn (f cn)) cn (some nn)

/-- The `prev_` fields then. -/
def insPrev (f g : Ptr → Option Ptr) (nn cn : Ptr) : Ptr → Option Ptr :=
  setAt (Function.update g nn (some cn)) (f cn) (some nn)

lemma insNext_of_ne {f : Ptr → Option Ptr} {nn cn p : Ptr} (hn : p ≠ nn) (hc : p ≠ cn) :
    insNext f nn cn p = f p := by
  rw [insNext, Function.update_of_ne hc, Function.update_of_ne hn]

lemma insPrev_of_ne {f g : Ptr → Option Ptr} {nn cn p : Ptr} (hn : p ≠ nn)
    (hq : f cn ≠ some p) : insPrev f g nn cn p = g p := by
  rw [insPrev, setAt_of_ne hq, Function.update_of_ne hn]

lemma linkAt_spec {H : Heap K V} {nn cn : Ptr} {i : ℕ} (hnn : HasLevel H nn i)
    (hcn : HasLevel H cn i) (hne : nn ≠ cn) (hq : ∀ q, next H i cn = some q → HasLevel H q i) :
    ∃ H', linkAt H nn cn i = some H' ∧ Same H H' ∧
      (∀ j ≠ i, next H' j = next H j ∧ prev H' j = prev H j) ∧
      next H' i = insNext (next H i) nn cn ∧ prev H' i = insPrev (next H i) (prev H i) nn cn := by
  obtain ⟨H1, e1, s1, p1, n1, n1i⟩ := setNext_spec (next H i cn) hnn
  obtain ⟨H2, e2, s2, n2, p2, p2i⟩ := setPrev_spec (some cn) (s1.hasLevel.mpr hnn)
  have hcn2 : HasLevel H2 cn i := s2.hasLevel.mpr (s1.hasLevel.mpr hcn)
  have hread : next H2 i cn = next H i cn := by
    rw [n2, n1i, Function.update_of_ne hne.symm]
  obtain ⟨H3, e3, s3, n3, p3, p3i⟩ := setPrevIf_spec (p := next H i cn) (some nn)
    fun q hx => s2.hasLevel.mpr (s1.hasLevel.mpr (hq q hx))
  obtain ⟨H4, e4, s4, p4, n4, n4i⟩ := setNext_spec (some nn) (s3.hasLevel.mpr hcn2)
  refine ⟨H4, ?_, ((s1.trans s2).trans s3).trans s4, fun j hj => ⟨?_, ?_⟩, ?_, ?_⟩
  · simp only [linkAt, level_eq hcn, Option.bind_eq_bind, Option.bind_some, e1, e2, level_eq hcn2,
      hread, e3, e4]
  · rw [n4 j hj, n3, n2, n1 j hj]
  · rw [p4, p3 j hj, p2 j hj, p1]
  · rw [n4i, n3, n2, n1i]; rfl
  · rw [p4, p3i, p2i, p1]; rfl

lemma link_spec {H : Heap K V} {nn : Ptr} {cache : Cache} {c : ℕ → Ptr} {i : ℕ}
    (hc : ∀ j < i, cache j = some (c j)) (hnn : ∀ j < i, HasLevel H nn j)
    (hcn : ∀ j < i, HasLevel H (c j) j) (hne : ∀ j < i, nn ≠ c j)
    (hq : ∀ j < i, ∀ q, next H j (c j) = some q → HasLevel H q j) :
    ∃ H', link H nn cache i = some H' ∧ Same H H' ∧
      (∀ j, i ≤ j → next H' j = next H j ∧ prev H' j = prev H j) ∧
      ∀ j < i, next H' j = insNext (next H j) nn (c j) ∧
        prev H' j = insPrev (next H j) (prev H j) nn (c j) := by
  induction i generalizing H with
  | zero => exact ⟨H, rfl, Same.refl _, fun _ _ => ⟨rfl, rfl⟩, fun j hj => absurd hj (by omega)⟩
  | succ i ih =>
    obtain ⟨H1, e1, s1, o1, n1, p1⟩ := linkAt_spec (hnn i (by omega)) (hcn i (by omega))
      (hne i (by omega)) (hq i (by omega))
    -- the levels below are as they were
    obtain ⟨H2, e2, s2, o2, l2⟩ := ih (H := H1) (fun j hj => hc j (by omega))
      (fun j hj => s1.hasLevel.mpr (hnn j (by omega)))
      (fun j hj => s1.hasLevel.mpr (hcn j (by omega))) (fun j hj => hne j (by omega))
      (fun j hj q hx => s1.hasLevel.mpr (hq j (by omega) q (by rwa [(o1 j (by omega)).1] at hx)))
    refine ⟨H2, by simp [link, hc i (by omega), e1, e2], s1.trans s2, fun j hj => ?_,
      fun j hj => ?_⟩
    · rw [(o2 j (by omega)).1, (o2 j (by omega)).2]
      exact o1 j (by omega)
    · rcases Nat.lt_succ_iff_lt_or_eq.mp hj with hj' | rfl
      · have := l2 j hj'
        rwa [(o1 j (by omega)).1, (o1 j (by omega)).2] at this
      · rw [(o2 j le_rfl).1, (o2 j le_rfl).2]
        exact ⟨n1, p1⟩

lemma cacheHead_spec {head : Ptr} {current : ℕ} (cache : Cache) {i : ℕ} (hi : i ≤ maxHeight_) :
    cacheHead head current cache i =
      some fun j => if current ≤ j ∧ j < i then some head else cache j := by
  induction i generalizing cache with
  | zero => simp [cacheHead]
  | succ i ih =>
    by_cases hc : current ≤ i
    · simp only [cacheHead, hc, if_true, Cache.put, show i < maxHeight_ by omega,
        Option.bind_eq_bind, Option.bind_some]
      rw [ih _ (by omega)]
      congr 1
      funext j
      rcases lt_trichotomy j i with hj | rfl | hj
      · simp [hj, Nat.lt_succ_of_lt hj, hj.ne]
      · simp [hc]
      · simp [Nat.not_lt.mpr hj.le, show ¬ j < i + 1 by omega, hj.ne']
    · have : ∀ j, ¬ (current ≤ j ∧ j < i + 1) := by omega
      simp only [cacheHead, hc, if_false, this]

/-- A new list: its head is a new node, with no entry on any level. -/
lemma make_loose [Inhabited K] [Inhabited V] {H : Heap K V}
    (hu : ∀ p, H.brk ≤ p → H.node p = none) :
    Loose (make H).1 (make H).2 ([] : List (Entry K V)) (fun _ => []) ∧
      Frame [] H (make H).1 := by
  have hhdr : hdr (make H).1 =
      Function.update (hdr H) H.brk (some (default, maxHeight_, maxHeight_)) := by
    simp [make, new_hdr, Node.make]
  obtain ⟨hn, hp⟩ : next (make H).1 = next H ∧ prev (make H).1 = prev H :=
    new_level (hu _ le_rfl) _ _
  have hnull : ∀ i, next H i H.brk = none ∧ prev H i H.brk = none := fun i => by
    simp [next, prev, Heap.level, hu _ le_rfl]
  refine ⟨?_, Nat.le_succ _, fun p hp _ => ?_, fun p _ _ i => by rw [hn], fun p _ _ i => by rw [hp]⟩
  · constructor
    case unused =>
      intro p hp
      have hlt : H.brk < p := hp
      have hnone : hdr (make H).1 p = none := by
        rw [hhdr, Function.update_of_ne hlt.ne']
        simp [hdr, hu p hlt.le]
      simpa [hdr] using hnone
    case head => exact ⟨default, by rw [hhdr]; exact Function.update_self ..⟩
    case headPrev =>
      intro i
      rw [hp]
      exact (hnull i).2
    case node => simp
    case pos => simp
    case nodup => simp [foot]
    case lanes => exact fun _ => .refl _
    case zero => rfl
    case linked =>
      intro i _
      rw [hn]
      exact (hnull i).1
    case le_current => simp
    case current_pos => exact le_rfl
    case current_le => exact Nat.le_of_ble_eq_true rfl
    case current => exact Or.inl rfl
    case num => rfl
  · rw [hhdr, Function.update_of_ne hp.ne]

variable {H : Heap K V} {s : Skiplist} {es : List (Entry K V)} {L : ℕ → List Ptr}

lemma level_nil (h : Loose H s es L) {j : ℕ} (hj : s.currentHeight_ ≤ j) : L j = [] := by
  refine List.eq_nil_iff_forall_not_mem.mpr fun p hp => ?_
  obtain ⟨e, he, hlt, -⟩ := h.mem_level.mp hp
  have := h.le_current e he
  omega

lemma raise_spec (s : Skiplist) {ht : ℕ} (hle : ht ≤ maxHeight_) (cache : Cache) :
    ∃ cache', raise s ht cache = some (cache', max s.currentHeight_ ht) ∧
      (∀ j < s.currentHeight_, cache' j = cache j) ∧
      ∀ j, s.currentHeight_ ≤ j → j < ht → cache' j = some s.head_ := by
  by_cases hgt : ht > s.currentHeight_
  · refine ⟨_, by rw [raise, if_pos hgt, cacheHead_spec cache hle, max_eq_right hgt.le]; rfl,
      fun j hj => ?_, fun j hj hj' => ?_⟩
    · simp [Nat.not_le.mpr hj]
    · simp [hj, hj']
  · exact ⟨cache, by rw [raise, if_neg hgt, max_eq_left (not_lt.mp hgt)], fun _ _ => rfl,
      fun j hj hj' => absurd (hj.trans_lt hj') hgt⟩

lemma hasLevel_new (h : Loose H s es L) (n : Node K V) {p : Ptr} {i : ℕ} (hp : HasLevel H p i) :
    HasLevel (H.new n).2 p i ∧ p ≠ H.brk := by
  obtain ⟨kv, a, b, hp, hi⟩ := hp
  have hne : p ≠ H.brk := (h.lt_brk (by simp [hp])).ne
  exact ⟨⟨kv, a, b, by rw [new_hdr, Function.update_of_ne hne, hp], hi⟩, hne⟩

lemma linked_insert (h : Loose H s es L) {j : ℕ} (hj : j < maxHeight_) {l₁ l₂ : List Ptr}
    (hl : L j = l₁ ++ l₂) {n : Ptr} (hn : n ∉ s.head_ :: L j) :
    insPrev (next H j) (prev H j) n (last s.head_ l₁) s.head_ = none ∧
      Linked (insNext (next H j) n (last s.head_ l₁))
        (insPrev (next H j) (prev H j) n (last s.head_ l₁)) s.head_ (l₁ ++ n :: l₂) none := by
  have hlink := h.linked j hj
  have hnd := h.nodup_level j
  rw [hl] at hlink hnd hn
  rw [insNext, insPrev, hlink.next]
  refine ⟨?_, Linked.insert hlink hnd hn⟩
  have hq : l₂.head? ≠ some s.head_ := by
    intro hq
    have := List.mem_of_mem_head? hq
    simp only [List.nodup_cons, List.mem_append] at hnd
    tauto
  have hh : s.head_ ≠ n := fun he => hn (by simp [he])
  rw [setAt_of_ne hq, Function.update_of_ne hh, h.headPrev]

/-- After `raise` the slots of all levels of the new node are set: a level not used before is
empty, and its slot is the head. -/
lemma raise_slots (h : Loose H s es L) {ht : ℕ} (hle : ht ≤ maxHeight_) {cache : Cache}
    {l₁ l₂ : ℕ → List Ptr} (hl : ∀ j, L j = l₁ j ++ l₂ j)
    (hc : ∀ j < s.currentHeight_, j < ht → cache j = some (last s.head_ (l₁ j))) :
    ∃ cache', raise s ht cache = some (cache', max s.currentHeight_ ht) ∧
      ∀ j < ht, cache' j = some (last s.head_ (l₁ j)) := by
  obtain ⟨cache', hcache', hlow, hhigh⟩ := raise_spec s hle cache
  refine ⟨cache', hcache', fun j hj => ?_⟩
  rcases Nat.lt_or_ge j s.currentHeight_ with hlt | hge
  · rw [hlow j hlt, hc j hlt hj]
  · have hnil := level_nil h hge
    rw [hl j] at hnil
    rw [hhigh j hge hj, (List.append_eq_nil_iff.mp hnil).1]
    rfl

lemma level_cut (h : Loose H s es L) {j : ℕ} (hj : j < maxHeight_) {l₁ l₂ : List Ptr}
    (hl : L j = l₁ ++ l₂) :
    last s.head_ l₁ ∈ s.head_ :: L j ∧ next H j (last s.head_ l₁) = l₂.head? ∧
      ∀ q, l₂.head? = some q → q ∈ L j := by
  have hlink := h.linked j hj
  have hlast := last_mem s.head_ l₁
  rw [hl] at hlink ⊢
  refine ⟨?_, hlink.next, fun q hq => List.mem_append_right l₁ (List.mem_of_mem_head? hq)⟩
  simp only [List.mem_cons, List.mem_append] at hlast ⊢
  tauto

/-- The loop of `insert_`: the new node, in the heap already, goes in on each of its levels. -/
lemma link_links (h : Loose H s es L) {ht : ℕ} (hle : ht ≤ maxHeight_) (kv : K × V)
    {cache : Cache} {l₁ l₂ : ℕ → List Ptr} (hl : ∀ j, L j = l₁ j ++ l₂ j)
    (hc : ∀ j < ht, cache j = some (last s.head_ (l₁ j))) :
    ∃ H', link (H.new (Node.make ht kv)).2 H.brk cache ht = some H' ∧
      hdr H' = Function.update (hdr H) H.brk (some (kv, ht, ht)) ∧ H'.brk = H.brk + 1 ∧
      (∀ j, ht ≤ j → next H' j = next H j ∧ prev H' j = prev H j) ∧
      ∀ j < ht, next H' j = insNext (next H j) H.brk (last s.head_ (l₁ j)) ∧
        prev H' j = insPrev (next H j) (prev H j) H.brk (last s.head_ (l₁ j)) := by
  set H0 := (H.new (Node.make ht kv)).2 with hH0
  have hhdr0 : hdr H0 = Function.update (hdr H) H.brk (some (kv, ht, ht)) := by
    rw [hH0, new_hdr]; simp [Node.make]
  obtain ⟨hn0, hp0⟩ : next H0 = next H ∧ prev H0 = prev H := new_level (h.unused _ le_rfl) ht kv
  have hold : ∀ j < ht, ∀ p ∈ s.head_ :: L j, HasLevel H0 p j ∧ p ≠ H.brk := fun j hj p hp =>
    hasLevel_new h _ (h.cell (hj.trans_le hle) hp).1
  have hcut := fun j (hj : j < ht) => level_cut h (hj.trans_le hle) (hl j)
  have hnew : ∀ j < ht, HasLevel H0 H.brk j := fun j hj =>
    ⟨kv, ht, ht, by rw [hhdr0, Function.update_self], hj⟩
  obtain ⟨H', e', s', o', l'⟩ := link_spec hc hnew
    (fun j hj => (hold j hj _ (hcut j hj).1).1) (fun j hj => (hold j hj _ (hcut j hj).1).2.symm)
    (fun j hj q hq => by
      rw [hn0, (hcut j hj).2.1] at hq
      exact (hold j hj q (List.mem_cons_of_mem _ ((hcut j hj).2.2 q hq))).1)
  rw [hn0, hp0] at l' o'
  exact ⟨H', e', by rw [s'.hdr, hhdr0], by rw [s'.brk]; rfl, o', l'⟩

lemma link_none {H : Heap K V} {nn : Ptr} {cache : Cache} {i j : ℕ} (hj : j < i)
    (hc : cache j = none) : link H nn cache i = none := by
  induction i generalizing H with
  | zero => omega
  | succ i ih =>
    rcases Nat.lt_succ_iff_lt_or_eq.mp hj with hlt | rfl
    · cases hci : cache i with
      | none => simp [link, hci]
      | some d => simp [link, hci, ih hlt]
    · simp [link, hc]

/-- `insert_` reads the slots of all levels of the new node. -/
lemma insert_none (s : Skiplist) (gen : ℕ → ℕ) (kv : K × V) {cache : Cache} {j : ℕ}
    (hj : j < s.currentHeight_) (hjn : j < randomHeight_ gen) (hc : cache j = none) :
    insert_ H s gen kv cache = none := by
  obtain ⟨cache', hraise, hlow, -⟩ := raise_spec s (randomHeight_le gen) cache
  simp [insert_, hraise, link_none hjn ((hlow j hj).trans hc)]

/-- **The new node on every level.** Wherever the cache points on the levels of the node that
are in use, that is where the node goes in. -/
theorem insert_links (h : Loose H s es L) (gen : ℕ → ℕ) (kv : K × V) {cache : Cache}
    {l₁ l₂ : ℕ → List Ptr} (hl : ∀ j, L j = l₁ j ++ l₂ j)
    (hc : ∀ j < s.currentHeight_, j < randomHeight_ gen →
      cache j = some (last s.head_ (l₁ j))) :
    ∃ H', insert_ H s gen kv cache = some (H', ⟨max s.currentHeight_ (randomHeight_ gen),
        s.elementNum_ + 1, if l₂ 0 = [] then some H.brk else s.tail_, s.head_⟩, H.brk) ∧
      hdr H' = Function.update (hdr H) H.brk (some (kv, randomHeight_ gen, randomHeight_ gen)) ∧
      H'.brk = H.brk + 1 ∧
      (∀ j, randomHeight_ gen ≤ j → next H' j = next H j ∧ prev H' j = prev H j) ∧
      (∀ j < randomHeight_ gen, prev H' j s.head_ = none ∧
        Linked (next H' j) (prev H' j) s.head_ (l₁ j ++ H.brk :: l₂ j) none) ∧
      Frame (foot s es) H H' := by
  set ht := randomHeight_ gen with hht
  have hpos : 1 ≤ ht := randomHeight_pos gen
  have hle : ht ≤ maxHeight_ := randomHeight_le gen
  have hlev : ∀ j < ht, j < maxHeight_ := fun j hj => hj.trans_le hle
  obtain ⟨cache', hcache', hslot⟩ := raise_slots h hle hl hc
  obtain ⟨H', e', hhdr, hbrk, o', l'⟩ := link_links h hle kv hl hslot
  have hlink : ∀ j < ht, prev H' j s.head_ = none ∧
      Linked (next H' j) (prev H' j) s.head_ (l₁ j ++ H.brk :: l₂ j) none := by
    intro j hj
    rw [(l' j hj).1, (l' j hj).2]
    refine linked_insert h (hlev j hj) (hl j) fun hb => ?_
    exact (hasLevel_new h (Node.make ht kv) (h.cell (hlev j hj) hb).1).2 rfl
  refine ⟨H', ?_, hhdr, hbrk, o', hlink, ⟨hbrk ▸ Nat.le_succ _, fun p hp _ => ?_,
    fun p hp hpF j => ?_, fun p hp hpF j => ?_⟩⟩
  · -- the values the call returns
    set H0 := (H.new (Node.make ht kv)).2
    have hnew : H.new (Node.make ht kv) = (H.brk, H0) := rfl
    have hzero : HasLevel H' H.brk 0 := ⟨kv, ht, ht, by rw [hhdr, Function.update_self], hpos⟩
    have htail : next H' 0 H.brk = (l₂ 0).head? := (hlink 0 hpos).2.next_mem
    simp only [insert_, ← hht, hcache', hnew, e', level_eq hzero, htail, Option.bind_eq_bind,
      Option.bind_some]
    cases l₂ 0 <;> simp
  · rw [hhdr, Function.update_of_ne hp.ne]
  · rcases Nat.lt_or_ge j ht with hlt | hge
    · have hpc : p ≠ last s.head_ (l₁ j) := by
        rintro rfl
        exact hpF (h.cell (hlev j hlt) (level_cut h (hlev j hlt) (hl j)).1).2
      rw [(l' j hlt).1, insNext_of_ne hp.ne hpc]
    · rw [(o' j hge).1]
  · rcases Nat.lt_or_ge j ht with hlt | hge
    · obtain ⟨-, hnext, hmem⟩ := level_cut h (hlev j hlt) (hl j)
      have hq : next H j (last s.head_ (l₁ j)) ≠ some p := fun hq =>
        hpF (h.mem_foot (hmem p (hnext ▸ hq)))
      rw [(l' j hlt).2, insPrev_of_ne hp.ne hq]
    · rw [(o' j hge).2]

/-- **`insert_` between two parts of the list.** The node goes in between them on level `0`,
and where the cache points on the others. -/
theorem insert_loose {A B : List (Entry K V)} (h : Loose H s (A ++ B) L) (gen : ℕ → ℕ)
    (kv : K × V) {cache : Cache} {l₁ l₂ : ℕ → List Ptr} (hl : ∀ j, L j = l₁ j ++ l₂ j)
    (h0 : l₁ 0 = A.map Entry.ptr)
    (hc : ∀ j < s.currentHeight_, j < randomHeight_ gen →
      cache j = some (last s.head_ (l₁ j))) :
    ∃ H' s', insert_ H s gen kv cache = some (H', s', H.brk) ∧ s'.head_ = s.head_ ∧
      s'.currentHeight_ = max s.currentHeight_ (randomHeight_ gen) ∧
      s'.tail_ = (if B = [] then some H.brk else s.tail_) ∧
      Loose H' s' (A ++ ⟨H.brk, randomHeight_ gen, kv⟩ :: B)
        (fun j => if j < randomHeight_ gen then l₁ j ++ H.brk :: l₂ j else L j) ∧
      Frame (foot s (A ++ B)) H H' := by
  obtain ⟨H', e', hhdr, hbrk, hout, hin, hframe⟩ := insert_links h gen kv hl hc
  have h0' : l₂ 0 = B.map Entry.ptr := by
    have := h.zero
    rw [hl 0, h0, List.map_append] at this
    exact List.append_cancel_left this
  have htail : (if l₂ 0 = [] then some H.brk else s.tail_) =
      if B = [] then some H.brk else s.tail_ := by simp [h0']
  refine ⟨H', _, e', rfl, rfl, htail, ?_, hframe⟩
  set ht := randomHeight_ gen with hht
  have hpos : 1 ≤ ht := randomHeight_pos gen
  have hle : ht ≤ maxHeight_ := randomHeight_le gen
  have hmem : ∀ e, e ∈ A ++ ⟨H.brk, ht, kv⟩ :: B ↔ e = ⟨H.brk, ht, kv⟩ ∨ e ∈ A ++ B := by
    intro e
    simp only [List.mem_append, List.mem_cons]
    tauto
  have hne : ∀ e ∈ A ++ B, e.ptr ≠ H.brk := fun e he => (h.lt_brk (by simp [h.node e he])).ne
  have hhead : s.head_ ≠ H.brk := by
    obtain ⟨kv', hk'⟩ := h.head
    exact (h.lt_brk (by simp [hk'])).ne
  constructor
  case unused =>
    intro p hp
    have hlt : H.brk < p := by rw [hbrk] at hp; exact hp
    have hnone : hdr H' p = none := by
      rw [hhdr, Function.update_of_ne hlt.ne']
      simp [hdr, h.unused p hlt.le]
    simpa [hdr] using hnone
  case head =>
    obtain ⟨kv', hk'⟩ := h.head
    exact ⟨kv', by rw [hhdr, Function.update_of_ne hhead, hk']⟩
  case headPrev =>
    intro i
    by_cases hi : i < ht
    · exact (hin i hi).1
    · rw [(hout i (not_lt.mp hi)).2, h.headPrev]
  case node =>
    intro e he
    rcases (hmem e).mp he with rfl | he
    · rw [hhdr, Function.update_self]
    · rw [hhdr, Function.update_of_ne (hne e he), h.node e he]
  case pos =>
    intro e he
    rcases (hmem e).mp he with rfl | he
    · exact hpos
    · exact h.pos e he
  case nodup =>
    have hperm : (s.head_ :: (A ++ (⟨H.brk, ht, kv⟩ : Entry K V) :: B).map Entry.ptr).Perm
        (H.brk :: s.head_ :: (A ++ B).map Entry.ptr) := by
      simp only [List.map_append, List.map_cons]
      exact (List.perm_middle.cons _).trans (List.Perm.swap ..)
    refine hperm.nodup_iff.mpr (List.nodup_cons.mpr ⟨?_, h.nodup⟩)
    simp only [List.mem_cons, List.mem_map, not_or, not_exists, not_and]
    exact ⟨hhead.symm, hne⟩
  case lanes =>
    intro j
    have hperm := h.lanes j
    by_cases hj : j < ht
    · rw [if_pos hj, lane_append, lane_cons_of_lt B (e := ⟨H.brk, ht, kv⟩) hj]
      rw [hl j, lane_append] at hperm
      exact List.perm_middle.trans ((hperm.cons _).trans List.perm_middle.symm)
    · rwa [if_neg hj, lane_append, lane_cons_of_le B (e := ⟨H.brk, ht, kv⟩) (not_lt.mp hj),
        ← lane_append]
  case zero =>
    rw [if_pos (Nat.lt_of_lt_of_le Nat.zero_lt_one hpos), h0, h0', List.map_append, List.map_cons]
  case linked =>
    intro i hi
    by_cases hlt : i < ht
    · rw [if_pos hlt]
      exact (hin i hlt).2
    · rw [if_neg hlt, (hout i (not_lt.mp hlt)).1, (hout i (not_lt.mp hlt)).2]
      exact h.linked i hi
  case le_current =>
    intro e he
    rcases (hmem e).mp he with rfl | he
    · exact le_max_right _ _
    · exact (h.le_current e he).trans (le_max_left _ _)
  case current_pos => exact h.current_pos.trans (le_max_left _ _)
  case current_le => exact max_le h.current_le hle
  case current =>
    rcases le_total ht s.currentHeight_ with hcmp | hcmp
    · rcases h.current with h1 | ⟨e, he, hce⟩
      · exact Or.inl (by simp only; omega)
      · exact Or.inr ⟨e, (hmem e).mpr (Or.inr he), by simp only; omega⟩
    · exact Or.inr ⟨_, (hmem _).mpr (Or.inl rfl), by simp only; omega⟩
  case num =>
    simp only [h.num, List.length_append, List.length_cons]
    omega

lemma tail_insert {A B : List (Entry K V)} {t : Option Ptr}
    (ht : t = ((A ++ B).getLast?).map Entry.ptr) (e : Entry K V) :
    (if B = [] then some e.ptr else t) = ((A ++ e :: B).getLast?).map Entry.ptr := by
  by_cases hB : B = []
  · simp [hB]
  · obtain ⟨b, hb⟩ : ∃ b, B.getLast? = some b := ⟨_, List.getLast?_eq_some_getLast hB⟩
    rw [if_neg hB, ht, List.getLast?_append, List.getLast?_append, List.getLast?_cons]
    simp [hb]

variable [LinearOrder K]

/-- **`insert_` of an absent key** behind its predecessors keeps the invariant. -/
theorem insert_rep (h : Rep H s es) (gen : ℕ → ℕ) (kv : K × V) {cache : Cache}
    (hk : ∀ e ∈ es, e.key ≠ kv.1)
    (hc : ∀ j < s.currentHeight_,
      cache j = some (last s.head_ (lane j (below Entry.key kv.1 es)))) :
    ∃ H' s', insert_ H s gen kv cache = some (H', s', H.brk) ∧
      Rep H' s' (below Entry.key kv.1 es ++
        ⟨H.brk, randomHeight_ gen, kv⟩ :: atLeast Entry.key kv.1 es) := by
  set A := below Entry.key kv.1 es with hA
  set B := atLeast Entry.key kv.1 es with hB
  have hes : A ++ B = es := h.asc.split kv.1
  have hloose : Loose H s (A ++ B) fun j => lane j es := by rw [hes]; exact h.loose
  have hpos : ∀ e ∈ A, 0 < e.ht := fun e he => h.pos e (hes ▸ List.mem_append_left B he)
  obtain ⟨H', s', e', -, -, htail, hl, -⟩ := insert_loose hloose gen kv
    (fun j => by rw [← hes, lane_append]) (lane_zero hpos) fun j hj _ => hc j hj
  refine ⟨H', s', e', ?_⟩
  set e : Entry K V := ⟨H.brk, randomHeight_ gen, kv⟩ with he
  have hlane : (fun j => if j < randomHeight_ gen then lane j A ++ H.brk :: lane j B
      else lane j es) = fun j => lane j (A ++ e :: B) := by
    funext j
    split_ifs with hj
    · rw [lane_append, lane_cons_of_lt B (e := e) hj]
    · rw [lane_append, lane_cons_of_le B (e := e) (not_lt.mp hj), ← lane_append, hes]
  rw [hlane] at hl
  exact hl.rep (h.asc.insert (a := e) hk)
    (htail.trans (tail_insert (by rw [hes]; exact h.tail) e))

end Libchef.SkipInsert
