import Libchef.RingOwner
import Libchef.Base.Runs

/-!
The consistent hash where virtual nodes are hashed alike.

Every position in use belongs to a node that is there, whatever the hash functions do. A node
that leaves takes all positions its own virtual nodes are hashed to, those of other nodes too.
-/

namespace Libchef.RingPlaces

open Libchef.Ordered Libchef.StringsModel Libchef.RingModel Libchef.RingOwner Libchef.Runs

variable {T : Type} [DecidableEq T] {P : Params T} {c : ConsistentHash T} {node : T}

def step (P : Params T) (c : ConsistentHash T) (op : Op T) : Option (ConsistentHash T) :=
  some (exec P c op)

/-- The nodes have all their positions, and every key is answered with one of them. -/
structure Served (P : Params T) (c : ConsistentHash T) : Prop where
  present : ∀ m ∈ c.nodes_, ∀ i < P.virtualMultis, (c.pos2node_.get? (P.hv m i)).isSome
  nonempty : c.nodes_ ≠ ∅ → c.pos2node_.entries ≠ []
  answers : c.nodes_ ≠ ∅ → ∀ key, ∃ n ∈ c.nodes_, choiceOneNode P c key = some (some n)

/-- The node to be deleted shares no position with another that is there. -/
def Spares (P : Params T) (c : ConsistentHash T) : Op T → Prop
  | .delNode node => ∀ m ∈ c.nodes_, m ≠ node → ∀ i < P.virtualMultis, ¬ StandsAt P node (P.hv m i)
  | _ => True

/-- Where there is a node in `pos2node_`, it is one of the nodes, at a position of its own. -/
def Owned (P : Params T) (c : ConsistentHash T) : Prop :=
  ∀ p n, c.pos2node_.get? p = some n → n ∈ c.nodes_ ∧ StandsAt P n p

/-- The nodes have all their positions. -/
def Present (P : Params T) (c : ConsistentHash T) : Prop :=
  ∀ m ∈ c.nodes_, ∀ i < P.virtualMultis, (c.pos2node_.get? (P.hv m i)).isSome

omit [DecidableEq T] in
lemma owned_empty : Owned P (⟨∅, .empty⟩ : ConsistentHash T) := fun p n h => by
  simp [OrderedMap.get?, OrderedMap.empty, lookup] at h

lemma Owned.addNode (h : Owned P c) : Owned P (addNode P c node) := by
  by_cases hmem : node ∈ c.nodes_
  · rwa [RingModel.addNode, if_pos hmem]
  intro p n hp
  rw [addNode_get? hmem] at hp
  rw [addNode_nodes]
  split_ifs at hp with hs
  · obtain rfl := Option.some.inj hp
    exact ⟨Finset.mem_insert_self .., hs⟩
  · exact ⟨Finset.mem_insert_of_mem (h p n hp).1, (h p n hp).2⟩

lemma Owned.delNode (h : Owned P c) : Owned P (delNode P c node) := by
  by_cases hempty : c.nodes_ = ∅
  · rwa [RingModel.delNode, if_pos hempty]
  intro p n hp
  rw [delNode_get? hempty] at hp
  rw [delNode_nodes]
  split_ifs at hp with hs
  obtain ⟨hin, hn⟩ := h p n hp
  refine ⟨Finset.mem_erase.mpr ⟨?_, hin⟩, hn⟩
  rintro rfl
  exact hs hn

lemma Owned.exec (h : Owned P c) (op : Op T) : Owned P (exec P c op) := by
  cases op with
  | addNode n => exact h.addNode
  | delNode n => exact h.delNode
  | clearAllNodes => exact owned_empty

/-! ### What is left of the positions -/

lemma Present.addNode (h : Present P c) : Present P (addNode P c node) := by
  by_cases hmem : node ∈ c.nodes_
  · rwa [RingModel.addNode, if_pos hmem]
  intro m hm i hi
  rw [addNode_get? hmem]
  split_ifs with hs
  · rfl
  · rw [addNode_nodes] at hm
    rcases Finset.mem_insert.mp hm with rfl | hm
    · exact absurd ⟨i, hi, rfl⟩ hs
    · exact h m hm i hi

/-- A deletion takes a position of another node just when the two share one. -/
lemma present_delNode_iff (h : Present P c) :
    Present P (delNode P c node) ↔ Spares P c (.delNode node) := by
  by_cases hempty : c.nodes_ = ∅
  · rw [RingModel.delNode, if_pos hempty]
    exact iff_of_true h fun m hm => by simp [hempty] at hm
  constructor
  · intro h' m hm hne i hi hs
    have := h' m (by rw [delNode_nodes]; exact Finset.mem_erase.mpr ⟨hne, hm⟩) i hi
    rw [delNode_get? hempty, if_pos hs] at this
    cases this
  · intro hs m hm i hi
    rw [delNode_nodes] at hm
    obtain ⟨hne, hm⟩ := Finset.mem_erase.mp hm
    rw [delNode_get? hempty, if_neg (hs m hm hne i hi)]
    exact h m hm i hi

lemma present_exec_iff (h : Present P c) (op : Op T) : Present P (exec P c op) ↔ Spares P c op := by
  cases op with
  | addNode n => exact iff_of_true h.addNode trivial
  | delNode n => exact present_delNode_iff h
  | clearAllNodes => exact iff_of_true (fun m hm => absurd hm (Finset.notMem_empty m)) trivial

lemma served_iff (hvm : 1 ≤ P.virtualMultis) (ho : Owned P c) : Served P c ↔ Present P c := by
  refine ⟨Served.present, fun h => ?_⟩
  have hentry (hne : c.nodes_ ≠ ∅) : c.pos2node_.entries ≠ [] := by
    obtain ⟨m, hm⟩ := Finset.nonempty_iff_ne_empty.mpr hne
    obtain ⟨n, hn⟩ := Option.isSome_iff_exists.mp (h m hm 0 hvm)
    exact List.ne_nil_of_mem (OrderedMap.get?_eq_some.mp hn)
  refine ⟨h, hentry, fun hne key => ?_⟩
  obtain ⟨e, he⟩ := OrderedMap.successor_isSome (k := P.hashKey key) (hentry hne)
  have hs := OrderedMap.isSuccessor_successor he
  exact ⟨e.2, (ho e.1 e.2 (OrderedMap.get?_eq_some.mpr hs.mem)).1,
    choiceOneNode_of_isSuccessor hne hs⟩

/-- **When live nodes keep their places.** In every state of a run the nodes have all their
positions, and every key is answered with one of them, if and only if no node is deleted that
shares a position with another that is there. -/
theorem served_iff_spares (hvm : 1 ≤ P.virtualMultis) (ops : List (Op T)) :
    Along (step P) (Spares P) .make ops ↔ Always (step P) (Served P) .make ops := by
  have hvalid : Along (step P) (fun _ _ => True) .make ops := along_true ..
  refine along_iff_always (I := fun c => Owned P c ∧ Present P c)
    (fun c h => (served_iff hvm h.1).mpr h.2) (fun c op h _ => ?_)
    ⟨owned_empty, fun m hm => absurd hm (Finset.notMem_empty m)⟩ hvalid
  have ho : Owned P (exec P c op) := h.1.exec op
  have hiff := present_exec_iff h.2 op
  exact ⟨_, rfl, hiff.symm.trans (served_iff hvm ho).symm, fun hs => ⟨ho, hiff.mpr hs⟩⟩

instance (P : Params T) (c : ConsistentHash T) : DecidablePred (Spares P c)
  | .addNode _ | .clearAllNodes => .isTrue trivial
  | .delNode node => inferInstanceAs
      (Decidable (∀ m ∈ c.nodes_, m ≠ node → ∀ i < P.virtualMultis, ¬ StandsAt P node (P.hv m i)))

/-- Nodes whose virtual nodes are all hashed alike. -/
def alike : Params ℕ := ⟨1, Decimal.print, fun _ => 0, id⟩

/-- A node takes the place of another and leaves again. -/
theorem served_iff_spares_alike :
    Along (step alike) (Spares alike) .make [.addNode 1, .addNode 2, .delNode 2] ↔
      Always (step alike) (Served alike) .make [.addNode 1, .addNode 2, .delNode 2] :=
  served_iff_spares (by decide) _

/-- The node that is left has no place on the ring, and the search for one reads through the
end of the empty map. -/
theorem not_served :
    ∃ c, Runs.exec (step alike) .make [.addNode 1, .addNode 2, .delNode 2] = some c ∧
      c.nodes_ = {1} ∧ choiceOneNode alike c 1 = none ∧ ¬ Served alike c := by
  refine ⟨_, rfl, by decide, rfl, fun h => ?_⟩
  exact h.nonempty (by decide) rfl

end Libchef.RingPlaces
