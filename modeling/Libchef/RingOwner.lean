import Mathlib.Logic.Equiv.List
import Libchef.RingModel
import Libchef.Base.Circle

/-!
Who owns a key of the consistent hash.

The positions on the ring are those of the virtual nodes of the nodes that are there, whatever
happened before. The owner of a key is the node at the position that comes after the key's.
-/

namespace Libchef.RingOwner

open Libchef.Ordered Libchef.StringsModel Libchef.RingModel

variable {T : Type} {P : Params T} {c : ConsistentHash T} {ops : List (Op T)} {S : Set T}
  {node n m key : T} {i j p : ℕ}

/-! ### The virtual nodes -/

/-- The nodes of `S` are printed differently, and their virtual nodes are hashed differently. -/
structure Distinct (P : Params T) (S : Set T) : Prop where
  print : Set.InjOn P.print S
  hash : Set.InjOn P.hashString {s | ∃ n ∈ S, ∃ i < P.virtualMultis, P.hks n i = s}

/-- A node and its number can be read off the text of a virtual node. -/
lemma hks_inj (h : P.hks n i = P.hks m j) : P.print n = P.print m ∧ i = j := by
  have hrev : (Decimal.print i).reverse ++ (lit ['_', '_'] ++ (P.print n).reverse) =
      (Decimal.print j).reverse ++ (lit ['_', '_'] ++ (P.print m).reverse) := by
    have := congrArg List.reverse h
    simpa [Params.hks, lit] using this
  have htake (k : ℕ) (s : Str) : ((Decimal.print k).reverse ++ (lit ['_', '_'] ++ s)).takeWhile
      Decimal.isDigit = (Decimal.print k).reverse := by
    rw [List.takeWhile_append_of_pos fun c hc =>
      ((Decimal.print_spec k).1 c (List.mem_reverse.mp hc)).1]
    simp [lit, show Decimal.isDigit (chr '_') = false by decide]
  have hdig := congrArg (List.takeWhile Decimal.isDigit) hrev
  rw [htake, htake, List.reverse_inj] at hdig
  rw [hdig] at hrev
  have hprint := List.append_cancel_left (List.append_cancel_left hrev)
  exact ⟨List.reverse_inj.mp hprint, Decimal.print_inj hdig⟩

lemma Distinct.eq_of_hv (h : Distinct P S) (hn : n ∈ S) (hm : m ∈ S)
    (hi : i < P.virtualMultis) (hj : j < P.virtualMultis) (he : P.hv n i = P.hv m j) : n = m :=
  h.print hn hm (hks_inj (h.hash ⟨n, hn, i, hi, rfl⟩ ⟨m, hm, j, hj, rfl⟩ he)).1

/-! ### The positions -/

/-- A virtual node of `n` stands at `p`. -/
def StandsAt (P : Params T) (n : T) (p : HashResult) : Prop := ∃ i < P.virtualMultis, P.hv n i = p

instance : Decidable (StandsAt P n p) :=
  inferInstanceAs (Decidable (∃ i < P.virtualMultis, P.hv n i = p))

lemma Distinct.standsAt_unique (h : Distinct P S) (hn : n ∈ S) (hm : m ∈ S)
    (hp : StandsAt P n p) (hp' : StandsAt P m p) : n = m := by
  obtain ⟨i, hi, rfl⟩ := hp
  obtain ⟨j, hj, he⟩ := hp'
  exact h.eq_of_hv hn hm hi hj he.symm

/-- The ring holds the positions of the nodes that are there, and no others. -/
def Exact (P : Params T) (c : ConsistentHash T) : Prop :=
  ∀ p n, c.pos2node_.get? p = some n ↔ n ∈ c.nodes_ ∧ StandsAt P n p

/-- What holds of a ring in use with the nodes `S`. -/
structure Good (P : Params T) (S : Set T) (c : ConsistentHash T) : Prop where
  exact : Exact P c
  subset : ↑c.nodes_ ⊆ S

lemma good_empty : Good P S (⟨∅, .empty⟩ : ConsistentHash T) :=
  ⟨fun p n => by simp [OrderedMap.get?, OrderedMap.empty, lookup], by simp⟩

lemma Good.mem_entries (h : Good P S c) :
    (p, n) ∈ c.pos2node_.entries ↔ n ∈ c.nodes_ ∧ StandsAt P n p := by
  rw [← OrderedMap.get?_eq_some, h.exact]

lemma Good.eq {c' : ConsistentHash T} {S' : Set T} (h : Good P S c) (h' : Good P S' c')
    (hn : c'.nodes_ = c.nodes_) : c' = c := by
  obtain ⟨nodes, pos⟩ := c
  obtain ⟨nodes', pos'⟩ := c'
  obtain rfl : nodes' = nodes := hn
  have hpos : pos' = pos := OrderedMap.ext_get? fun p => Option.ext fun n => by
    rw [h'.exact p n, h.exact p n]
  rw [hpos]

lemma foldl_get? {upd : OrderedMap HashResult T → HashResult → OrderedMap HashResult T}
    {v : Option T} (hupd : ∀ m k, (upd m k).get? p = if p = k then v else m.get? p)
    (f : ℕ → HashResult) (l : List ℕ) (m : OrderedMap HashResult T) :
    (l.foldl (fun m i => upd m (f i)) m).get? p =
      if ∃ i ∈ l, f i = p then v else m.get? p := by
  induction l generalizing m with
  | nil => simp
  | cons i l ih =>
    rw [List.foldl_cons, ih, hupd]
    by_cases h : ∃ i ∈ l, f i = p
    · rw [if_pos h, if_pos (by simp [h])]
    · by_cases hi : p = f i
      · simp [hi]
      · simp [h, hi, Ne.symm hi]

lemma exists_range {f : ℕ → HashResult} {v : ℕ} :
    (∃ i ∈ List.range v, f i = p) ↔ ∃ i < v, f i = p := by
  simp only [List.mem_range]

variable [DecidableEq T]

lemma addNode_get? (h : node ∉ c.nodes_) : (addNode P c node).pos2node_.get? p =
    if StandsAt P node p then some node else c.pos2node_.get? p := by
  have hupd (m : OrderedMap HashResult T) (k : HashResult) :
      (m.insert k node).get? p = if p = k then some node else m.get? p := OrderedMap.get?_insert
  rw [addNode, if_neg h, foldl_get? hupd (P.hv node)]
  exact if_congr exists_range rfl rfl

lemma delNode_get? (h : c.nodes_ ≠ ∅) : (delNode P c node).pos2node_.get? p =
    if StandsAt P node p then none else c.pos2node_.get? p := by
  have hupd (m : OrderedMap HashResult T) (k : HashResult) :
      (m.erase k).get? p = if p = k then none else m.get? p := OrderedMap.get?_erase
  rw [delNode, if_neg h, foldl_get? hupd (P.hv node)]
  exact if_congr exists_range rfl rfl

/-! ### Every operation keeps the positions exact -/

lemma Good.addNode (hd : Distinct P S) (h : Good P S c) (hn : node ∈ S) :
    Good P S (addNode P c node) := by
  by_cases hmem : node ∈ c.nodes_
  · rwa [RingModel.addNode, if_pos hmem]
  have hnodes : (RingModel.addNode P c node).nodes_ = insert node c.nodes_ := by
    rw [RingModel.addNode, if_neg hmem]
  refine ⟨fun p n => ?_, fun n hx => ?_⟩
  · rw [addNode_get? hmem, hnodes, Finset.mem_insert]
    split_ifs with hp
    · refine ⟨fun he => ?_, fun ⟨hin, hs⟩ => ?_⟩
      · obtain rfl := Option.some.inj he
        exact ⟨Or.inl rfl, hp⟩
      · have hnS : n ∈ S := hin.elim (fun e => e ▸ hn) fun hc => h.subset hc
        rw [hd.standsAt_unique hn hnS hp hs]
    · rw [h.exact]
      refine and_congr_left fun hs => ⟨Or.inr, fun hin => hin.resolve_left ?_⟩
      rintro rfl
      exact hp hs
  · rw [hnodes, Finset.mem_coe, Finset.mem_insert] at hx
    exact hx.elim (fun e => e ▸ hn) fun hc => h.subset hc

lemma Good.delNode (hd : Distinct P S) (h : Good P S c) (hn : node ∈ S) :
    Good P S (delNode P c node) := by
  by_cases hempty : c.nodes_ = ∅
  · rwa [RingModel.delNode, if_pos hempty]
  have hnodes : (RingModel.delNode P c node).nodes_ = c.nodes_.erase node := by
    rw [RingModel.delNode, if_neg hempty]
  refine ⟨fun p n => ?_, fun n hx => ?_⟩
  · rw [delNode_get? hempty, hnodes, Finset.mem_erase]
    split_ifs with hp
    · refine ⟨nofun, fun ⟨⟨hne, hin⟩, hs⟩ => ?_⟩
      exact absurd (hd.standsAt_unique (h.subset hin) hn hs hp) hne
    · rw [h.exact]
      refine ⟨fun ⟨hin, hs⟩ => ⟨⟨?_, hin⟩, hs⟩, fun ⟨⟨_, hin⟩, hs⟩ => ⟨hin, hs⟩⟩
      rintro rfl
      exact hp hs
  · rw [hnodes, Finset.mem_coe] at hx
    exact h.subset (Finset.mem_of_mem_erase hx)

/-- The nodes an operation names. -/
def named : Op T → Set T
  | .addNode n | .delNode n => {n}
  | .clearAllNodes => ∅

lemma Good.exec {op : Op T} (hd : Distinct P S) (h : Good P S c) (hop : named op ⊆ S) :
    Good P S (exec P c op) := by
  cases op with
  | addNode n => exact h.addNode hd (hop rfl)
  | delNode n => exact h.delNode hd (hop rfl)
  | clearAllNodes => exact good_empty

/-- The nodes the operations name. -/
def involved (ops : List (Op T)) : Set T := {n | ∃ op ∈ ops, n ∈ named op}

lemma good_foldl (hd : Distinct P S) (hops : involved ops ⊆ S) (h : Good P S c) :
    Good P S (ops.foldl (exec P) c) := by
  induction ops generalizing c with
  | nil => exact h
  | cons op ops ih =>
    refine ih (fun n ⟨o, ho, hn⟩ => hops ⟨o, List.mem_cons_of_mem _ ho, hn⟩) (h.exec hd ?_)
    exact fun n hn => hops ⟨op, List.mem_cons_self .., hn⟩

lemma good_run (hd : Distinct P S) (hops : involved ops ⊆ S) : Good P S (run P ops) :=
  good_foldl hd hops good_empty

/-! ### The owner of a key -/

/-- `p` is the position that comes after `hv`: the smallest above it, or the smallest of all
where there is none above it. -/
def IsNext (P : Params T) (nodes : Finset T) (hv p : HashResult) : Prop :=
  (hv < p ∧ ∀ m ∈ nodes, ∀ q, StandsAt P m q → hv < q → p ≤ q) ∨
    (∀ m ∈ nodes, ∀ q, StandsAt P m q → q ≤ hv) ∧ ∀ m ∈ nodes, ∀ q, StandsAt P m q → p ≤ q

/-- The node that stands at the position after `hv`. -/
def Owns (P : Params T) (nodes : Finset T) (hv : HashResult) (n : T) : Prop :=
  n ∈ nodes ∧ ∃ p, StandsAt P n p ∧ IsNext P nodes hv p

omit [DecidableEq T] in
lemma Good.owns (h : Good P S c) {hv : HashResult} {e : HashResult × T}
    (hs : c.pos2node_.IsSuccessor hv e) : Owns P c.nodes_ hv e.2 := by
  obtain ⟨hin, hstand⟩ := h.mem_entries.mp hs.mem
  refine ⟨hin, e.1, hstand, ?_⟩
  have hall (m : T) (hm : m ∈ c.nodes_) (q : HashResult) (hq : StandsAt P m q) :
      (q, m) ∈ c.pos2node_.entries := h.mem_entries.mpr ⟨hm, hq⟩
  rcases hs.first with ⟨hlt, hmin⟩ | ⟨hle, hmin⟩
  · exact Or.inl ⟨hlt, fun m hm q hq => hmin (q, m) (hall m hm q hq)⟩
  · exact Or.inr ⟨fun m hm q hq => hle (q, m) (hall m hm q hq),
      fun m hm q hq => hmin (q, m) (hall m hm q hq)⟩

lemma choiceOneNode_empty (h : c.nodes_ = ∅) : choiceOneNode P c key = some none := by
  rw [choiceOneNode, if_pos h]

lemma choiceOneNode_eq (h : c.nodes_ ≠ ∅) :
    choiceOneNode P c key = (c.pos2node_.successor (P.hashKey key)).map fun e => some e.2 := by
  simp only [choiceOneNode, if_neg h, OrderedMap.successor]
  cases c.pos2node_.entries.find? fun iter => P.hashKey key < iter.1 with
  | none => cases c.pos2node_.entries.head? <;> rfl
  | some iter => rfl

lemma choiceOneNode_of_isSuccessor {e : HashResult × T} (h : c.nodes_ ≠ ∅)
    (hs : c.pos2node_.IsSuccessor (P.hashKey key) e) :
    choiceOneNode P c key = some (some e.2) := by
  rw [choiceOneNode_eq h, OrderedMap.successor_eq_some.mpr hs]
  rfl

lemma exists_isSuccessor (h : choiceOneNode P c key = some (some n)) :
    c.nodes_ ≠ ∅ ∧ ∃ p, c.pos2node_.IsSuccessor (P.hashKey key) (p, n) := by
  have hne : c.nodes_ ≠ ∅ := fun he => by
    rw [choiceOneNode_empty he] at h
    cases h
  rw [choiceOneNode_eq hne] at h
  obtain ⟨e, he, heq⟩ := Option.map_eq_some_iff.mp h
  obtain rfl := Option.some.inj heq
  exact ⟨hne, e.1, OrderedMap.isSuccessor_successor he⟩

/-- **A node that is there answers.** The virtual nodes are what the ring is not empty for. -/
lemma Good.choiceOneNode (h : Good P S c) (hvm : 1 ≤ P.virtualMultis) (hne : c.nodes_ ≠ ∅)
    (key : T) : ∃ n, choiceOneNode P c key = some (some n) ∧ Owns P c.nodes_ (P.hashKey key) n := by
  obtain ⟨m, hm⟩ := Finset.nonempty_iff_ne_empty.mpr hne
  have hmem : (P.hv m 0, m) ∈ c.pos2node_.entries := h.mem_entries.mpr ⟨hm, 0, hvm, rfl⟩
  obtain ⟨e, he⟩ := OrderedMap.successor_isSome (k := P.hashKey key) (List.ne_nil_of_mem hmem)
  have hs := OrderedMap.isSuccessor_successor he
  exact ⟨e.2, choiceOneNode_of_isSuccessor hne hs, h.owns hs⟩

/-- **Of two rings the larger answers like the smaller** wherever its answer is a node of the
smaller. -/
lemma Good.choice_of_subset {c' : ConsistentHash T} (h : Good P S c) (h' : Good P S c')
    (hsub : c.nodes_ ⊆ c'.nodes_) (hc : RingModel.choiceOneNode P c' key = some (some n))
    (hn : n ∈ c.nodes_) : RingModel.choiceOneNode P c key = some (some n) := by
  obtain ⟨-, p, hs⟩ := exists_isSuccessor hc
  have hentries : c.pos2node_.entries ⊆ c'.pos2node_.entries := fun e he => by
    obtain ⟨hin, hst⟩ := h.mem_entries.mp he
    exact h'.mem_entries.mpr ⟨hsub hin, hst⟩
  have hmem : (p, n) ∈ c.pos2node_.entries :=
    h.mem_entries.mpr ⟨hn, (h'.mem_entries.mp hs.mem).2⟩
  exact choiceOneNode_of_isSuccessor (Finset.ne_empty_of_mem hn) (hs.of_subset hentries hmem)

lemma addNode_nodes : (addNode P c node).nodes_ = insert node c.nodes_ := by
  unfold addNode
  split_ifs with h
  · exact (Finset.insert_eq_of_mem h).symm
  · rfl

lemma delNode_nodes : (delNode P c node).nodes_ = c.nodes_.erase node := by
  unfold delNode
  split_ifs with h
  · simp [h]
  · rfl

/-- A new node takes keys, and nothing else happens to them. -/
lemma Good.choice_addNode (hd : Distinct P S) (h : Good P S c) (hn : node ∈ S)
    (hvm : 1 ≤ P.virtualMultis) :
    RingModel.choiceOneNode P (RingModel.addNode P c node) key = some (some node) ∨
      RingModel.choiceOneNode P (RingModel.addNode P c node) key =
        RingModel.choiceOneNode P c key := by
  have h' := h.addNode hd hn
  have hnodes : (RingModel.addNode P c node).nodes_ = insert node c.nodes_ := addNode_nodes
  obtain ⟨n, hc, ho⟩ := h'.choiceOneNode hvm (by rw [hnodes]; simp) key
  rw [hnodes] at ho
  rcases Finset.mem_insert.mp ho.1 with rfl | hin
  · exact Or.inl hc
  · right
    rw [hc, h.choice_of_subset h' (by rw [hnodes]; exact Finset.subset_insert ..) hc hin]

lemma Good.choice_delNode (hd : Distinct P S) (h : Good P S c) (hn : node ∈ S)
    (hvm : 1 ≤ P.virtualMultis)
    (hk : RingModel.choiceOneNode P c key ≠ some (some node)) :
    RingModel.choiceOneNode P (RingModel.delNode P c node) key =
      RingModel.choiceOneNode P c key := by
  by_cases hempty : c.nodes_ = ∅
  · rw [RingModel.delNode, if_pos hempty]
  have hnodes : (RingModel.delNode P c node).nodes_ = c.nodes_.erase node := delNode_nodes
  obtain ⟨n, hc, ho⟩ := h.choiceOneNode hvm hempty key
  have hne : n ≠ node := fun he => hk (he ▸ hc)
  rw [hc]
  refine (h.delNode hd hn).choice_of_subset h ?_ hc ?_ <;> rw [hnodes]
  · exact Finset.erase_subset ..
  · exact Finset.mem_erase.mpr ⟨hne, ho.1⟩

/-! ### The consistent hash -/

/-- **The ring depends on its nodes only.** After any operations the positions are those of the
nodes that are there, so that histories that end with the same nodes answer alike; the answer
is the node at the position after the key's; a new node is the answer to what it changes, and a
node that leaves was. -/
theorem run_ring (hvm : 1 ≤ P.virtualMultis) (hd : Distinct P (involved ops)) :
    (∀ p n, (run P ops).pos2node_.get? p = some n ↔
      n ∈ (run P ops).nodes_ ∧ ∃ i < P.virtualMultis, P.hv n i = p) ∧
    (∀ ops', Distinct P (involved ops') → (run P ops').nodes_ = (run P ops).nodes_ →
      ∀ key, choiceOneNode P (run P ops') key = choiceOneNode P (run P ops) key) ∧
    (∀ key, ((run P ops).nodes_ = ∅ → choiceOneNode P (run P ops) key = some none) ∧
      ((run P ops).nodes_ ≠ ∅ → ∃ n, choiceOneNode P (run P ops) key = some (some n) ∧
        Owns P (run P ops).nodes_ (P.hashKey key) n)) ∧
    (∀ node, (addNode P (run P ops) node).nodes_ = insert node (run P ops).nodes_ ∧
      (Distinct P (insert node (involved ops)) → ∀ key,
        choiceOneNode P (addNode P (run P ops) node) key = some (some node) ∨
        choiceOneNode P (addNode P (run P ops) node) key = choiceOneNode P (run P ops) key)) ∧
    (∀ node, (delNode P (run P ops) node).nodes_ = (run P ops).nodes_.erase node ∧
      (Distinct P (insert node (involved ops)) → ∀ key,
        choiceOneNode P (run P ops) key ≠ some (some node) →
        choiceOneNode P (delNode P (run P ops) node) key = choiceOneNode P (run P ops) key)) := by
  have hg := good_run hd subset_rfl
  have hg' {node : T} (hd' : Distinct P (insert node (involved ops))) :
      Good P (insert node (involved ops)) (run P ops) := good_run hd' (Set.subset_insert ..)
  refine ⟨hg.exact, fun ops' hd' hn key => ?_, fun key => ⟨choiceOneNode_empty, ?_⟩,
    fun node => ⟨addNode_nodes, fun hd' key => ?_⟩,
    fun node => ⟨delNode_nodes, fun hd' key hk => ?_⟩⟩
  · rw [hg.eq (good_run hd' subset_rfl) hn]
  · exact fun hne => hg.choiceOneNode hvm hne key
  · exact (hg' hd').choice_addNode hd' (Set.mem_insert ..) hvm
  · exact (hg' hd').choice_delNode hd' (Set.mem_insert ..) hvm hk

/-- A hash of texts without collisions. -/
def code (s : Str) : HashResult := Encodable.encode (s.map UInt8.toNat)

lemma code_injective : Function.Injective code := fun s t h => by
  have hmap : s.map UInt8.toNat = t.map UInt8.toNat := Encodable.encode_injective h
  exact List.map_injective_iff.mpr (fun _ _ h => UInt8.toNat_inj.mp h) hmap

/-- Numbers for nodes, with two virtual nodes each. -/
def numbers : Params ℕ where
  virtualMultis := 2
  print := Decimal.print
  hashString := code
  hashKey := id

lemma distinct_numbers (S : Set ℕ) : Distinct numbers S :=
  ⟨fun _ _ _ _ h => Decimal.print_inj h, fun _ _ _ _ h => code_injective h⟩

/-- Two histories with the same nodes at the end. -/
theorem run_ring_numbers :
    choiceOneNode numbers (run numbers [.addNode 7]) 5 =
      choiceOneNode numbers (run numbers [.addNode 1, .addNode 7, .delNode 1]) 5 :=
  (run_ring (by decide) (distinct_numbers (involved [.addNode 1, .addNode 7, .delNode 1]))).2.1
    [.addNode 7] (distinct_numbers _) rfl 5

/-- The doubles 1.0000001 and 1.0000002. -/
inductive Close
  | lower
  | upper
  deriving DecidableEq

/-- `operator<<` prints both of them as 1. -/
def close : Params Close where
  virtualMultis := 1
  print _ := lit ['1']
  hashString := code
  hashKey
    | .lower => 5
    | .upper => 6

/-- Their virtual nodes have one text, though no two texts are hashed alike: the order in which
the nodes are added decides who is there. -/
theorem run_close :
    1 ≤ close.virtualMultis ∧ Function.Injective close.hashString ∧
      (run close [.addNode .lower, .addNode .upper]).nodes_ =
        (run close [.addNode .upper, .addNode .lower]).nodes_ ∧
      choiceOneNode close (run close [.addNode .lower, .addNode .upper]) .lower =
        some (some .upper) ∧
      choiceOneNode close (run close [.addNode .upper, .addNode .lower]) .lower =
        some (some .lower) :=
  ⟨by decide, code_injective, by decide, by decide, by decide⟩

end Libchef.RingOwner
