import Mathlib.Data.List.Basic
import Mathlib.Data.List.TakeWhile
import Mathlib.Data.List.Perm.Basic
import Mathlib.Order.Lattice

/-!
Ordered multimaps as lists of bindings with ascending keys.

A new binding goes behind those with the same key, so that bindings of one key stand in the
order of their insertion.
-/

namespace Libchef.Ordered

variable {K V : Type*} [LinearOrder K]

@[ext]
structure Multimap (K V : Type*) [LinearOrder K] where
  entries : List (K × V)
  sorted : entries.Pairwise fun a b => a.1 ≤ b.1

/-- The binding put behind those with keys up to its own. -/
def insertAfter (k : K) (v : V) : List (K × V) → List (K × V)
  | [] => [(k, v)]
  | e :: l => if k < e.1 then (k, v) :: e :: l else e :: insertAfter k v l

lemma insertAfter_split {k : K} {v : V} {l : List (K × V)}
    (h : l.Pairwise fun a b => a.1 ≤ b.1) :
    ∃ l₁ l₂, l = l₁ ++ l₂ ∧ insertAfter k v l = l₁ ++ (k, v) :: l₂ ∧ (∀ e ∈ l₁, e.1 ≤ k) ∧
      ∀ e ∈ l₂, k < e.1 := by
  induction l with
  | nil => exact ⟨[], [], rfl, rfl, by simp, by simp⟩
  | cons e l ih =>
    obtain ⟨he, hl⟩ := List.pairwise_cons.mp h
    rw [insertAfter]
    split_ifs with hk
    · refine ⟨[], e :: l, rfl, rfl, by simp, fun e' h' => ?_⟩
      rcases List.mem_cons.mp h' with rfl | h'
      · exact hk
      · exact lt_of_lt_of_le hk (he e' h')
    · obtain ⟨l₁, l₂, h₁, h₂, hle, hlt⟩ := ih hl
      refine ⟨e :: l₁, l₂, by rw [h₁]; rfl, by rw [h₂]; rfl, fun e' h' => ?_, hlt⟩
      rcases List.mem_cons.mp h' with rfl | h'
      · exact not_lt.mp hk
      · exact hle e' h'

namespace Multimap

variable (m : Multimap K V) (k : K)

def empty : Multimap K V := ⟨[], List.Pairwise.nil⟩

def insert (v : V) : Multimap K V where
  entries := insertAfter k v m.entries
  sorted := by
    obtain ⟨l₁, l₂, h₁, h₂, hle, hlt⟩ := insertAfter_split (k := k) (v := v) m.sorted
    have hs := m.sorted
    rw [h₁] at hs
    obtain ⟨hs₁, hs₂, hs₁₂⟩ := List.pairwise_append.mp hs
    rw [h₂]
    refine List.pairwise_append.mpr
      ⟨hs₁, List.pairwise_cons.mpr ⟨fun e he => le_of_lt (hlt e he), hs₂⟩, fun a ha b hb => ?_⟩
    rcases List.mem_cons.mp hb with rfl | hb
    · exact hle a ha
    · exact hs₁₂ a ha b hb

/-- The bindings a walk from the beginning passes before it meets a key above `k`. -/
def upTo : List (K × V) := m.entries.takeWhile fun e => e.1 ≤ k

/-- The multimap without these bindings. -/
def eraseUpTo : Multimap K V where
  entries := m.entries.dropWhile fun e => e.1 ≤ k
  sorted := m.sorted.sublist (List.dropWhile_sublist _)

variable {m k}

lemma insert_split (v : V) :
    ∃ l₁ l₂, m.entries = l₁ ++ l₂ ∧ (m.insert k v).entries = l₁ ++ (k, v) :: l₂ ∧
      (∀ e ∈ l₁, e.1 ≤ k) ∧ ∀ e ∈ l₂, k < e.1 :=
  insertAfter_split m.sorted

lemma insert_perm (v : V) : (m.insert k v).entries.Perm ((k, v) :: m.entries) := by
  obtain ⟨l₁, l₂, h₁, h₂, -, -⟩ := insert_split (m := m) (k := k) v
  rw [h₁, h₂]
  exact List.perm_middle

lemma upTo_append : m.upTo k ++ (m.eraseUpTo k).entries = m.entries :=
  List.takeWhile_append_dropWhile

lemma le_of_mem_upTo {e : K × V} (h : e ∈ m.upTo k) : e.1 ≤ k := by
  simpa using List.mem_takeWhile_imp h

lemma lt_of_mem_eraseUpTo {e : K × V} (h : e ∈ (m.eraseUpTo k).entries) : k < e.1 := by
  obtain ⟨l, hl⟩ := m
  change e ∈ l.dropWhile _ at h
  induction l with
  | nil => simp at h
  | cons a l ih =>
    obtain ⟨ha, hl'⟩ := List.pairwise_cons.mp hl
    by_cases hak : a.1 ≤ k
    · rw [List.dropWhile_cons_of_pos (by simpa using hak)] at h
      exact ih hl' h
    · rw [List.dropWhile_cons_of_neg (by simpa using hak)] at h
      rcases List.mem_cons.mp h with rfl | h
      · exact not_le.mp hak
      · exact lt_of_lt_of_le (not_le.mp hak) (ha e h)

end Multimap

end Libchef.Ordered
