import Libchef.TaskSteps
import Mathlib.Data.List.Nodup

/-!
Every task at most once, immediate tasks in order, and nothing early left behind.

A task that was added is in one place: executed, collected, in `tasks_` or deferred. What the
release mode promises comes from the last collection, which takes place after the exit flag
was stored and under the mutex.
-/

namespace Libchef.TaskOnce

open Libchef.TaskModel Libchef.TaskSteps

/-- A task that was added without a delay. -/
def immediate (t : Task) : Bool := t.defferredTimeMs = 0

/-- Where the tasks are. -/
structure Once (s : State) : Prop where
  shape : Shape s
  seq : s.hist.added.map Task.seq = List.range s.hist.added.length
  perm : s.hist.added.Perm (s.hist.executed ++ (collected s ++ (s.tasks_ ++ defferred s)))
  order : (s.hist.executed ++ (collected s ++ s.tasks_)).filter immediate =
    s.hist.added.filter immediate

section Once

variable {s s' : State} {a : Act}

lemma Once.nodup (h : Once s) : s.hist.added.Nodup :=
  List.Nodup.of_map Task.seq (h.seq ▸ List.nodup_range)

lemma Once.seq_lt (h : Once s) {t : Task} (ht : t ∈ s.hist.added) :
    t.seq < s.hist.added.length := by
  have := List.mem_map_of_mem (f := Task.seq) ht
  rwa [h.seq, List.mem_range] at this

lemma once_init (rm : ReleaseMode) : Once (init rm) :=
  ⟨shape_init rm, rfl, by simp [init, collected, defferred, Ordered.Multimap.empty], rfl⟩

lemma filter_immediate_nil {l : List Task} (h : ∀ t ∈ l, t.defferredTimeMs ≠ 0) :
    l.filter immediate = [] :=
  List.filter_eq_nil_iff.mpr fun t ht => by simpa [immediate] using h t ht

/-- **No step loses, doubles or reorders a task.** -/
theorem Once.step (h : Once s) (hs : TaskModel.step s a = some s') : Once s' := by
  have hshape := h.shape.step hs
  cases step_effect h.shape hs with
  | still e =>
    refine ⟨hshape, by rw [e.added]; exact h.seq, ?_, ?_⟩
    · rw [e.added, e.executed, e.collected, e.tasks, e.defferred]
      exact h.perm
    · rw [e.added, e.executed, e.collected, e.tasks]
      exact h.order
  | collects hw e =>
    obtain ⟨l, hc, hd, -⟩ := e.due
    have hperm := h.perm
    have horder := h.order
    rw [e.empty, List.nil_append] at hperm horder
    refine ⟨hshape, by rw [e.added]; exact h.seq, ?_, ?_⟩
    · rw [e.added, e.executed, hc, e.tasks, List.nil_append, List.append_assoc, ← hd]
      exact hperm
    · have hl : l.filter immediate = [] := filter_immediate_nil fun t ht =>
        h.shape.defferred_ne (hd ▸ List.mem_append_left _ ht)
      rw [e.added, e.executed, hc, e.tasks, ← horder]
      simp [hl]
  | calls t hc e =>
    rcases e.next with ⟨h₁, h₂⟩ | ⟨h₁, h₂, h₃, -⟩
    · have hperm := h.perm
      have horder := h.order
      rw [h₁] at hperm horder
      refine ⟨hshape, by rw [e.added]; exact h.seq, ?_, ?_⟩
      · rw [e.added, e.executed, e.tasks, h₂]
        simpa using hperm
      · rw [e.added, e.executed, e.tasks, ← horder]
        simp
    · have hperm := h.perm
      have horder := h.order
      have ht : immediate t = false := by
        have := h.shape.defferred_ne (t := t) (by rw [h₃]; simp)
        simpa [immediate] using this
      rw [h₁, h₃] at hperm
      rw [h₁] at horder
      refine ⟨hshape, by rw [e.added]; exact h.seq, ?_, ?_⟩
      · rw [e.added, e.executed, e.tasks, h₂]
        refine hperm.trans ?_
        simp only [List.nil_append, List.append_assoc]
        exact List.Perm.append_left _ List.perm_middle
      · rw [e.added, e.executed, e.tasks, h₂, ← horder]
        simp [ht]
  | pushes t e =>
    have hseq : (s.hist.added ++ [t]).map Task.seq = List.range (s.hist.added ++ [t]).length := by
      rw [List.map_append, h.seq, List.length_append, List.length_singleton, List.range_succ,
        List.map_singleton, e.seq]
    by_cases h0 : t.defferredTimeMs = 0
    · obtain ⟨ht, hd⟩ := e.immediate h0
      refine ⟨hshape, by rw [e.added]; exact hseq, ?_, ?_⟩
      · rw [e.added, e.executed, e.collected, ht, hd]
        refine (h.perm.append_right [t]).trans ?_
        simp only [List.append_assoc]
        refine List.Perm.append_left _ (List.Perm.append_left _ (List.Perm.append_left _ ?_))
        exact List.perm_append_comm
      · rw [e.added, e.executed, e.collected, ht, List.filter_append s.hist.added,
          ← h.order]
        simp
    · obtain ⟨ht, l₁, l₂, hd, hd', -, -⟩ := e.late h0
      refine ⟨hshape, by rw [e.added]; exact hseq, ?_, ?_⟩
      · rw [e.added, e.executed, e.collected, ht, hd']
        refine (h.perm.append_right [t]).trans ?_
        rw [hd]
        simp only [List.append_assoc]
        refine List.Perm.append_left _ (List.Perm.append_left _ (List.Perm.append_left _
          (List.Perm.append_left _ ?_)))
        exact List.perm_append_comm
      · have hf : immediate t = false := by simpa [immediate] using h0
        rw [e.added, e.executed, e.collected, ht, List.filter_append s.hist.added,
          ← h.order]
        simp [hf]

lemma Once.executed_nodup (h : Once s) : s.hist.executed.Nodup :=
  (List.nodup_append.mp (h.perm.nodup_iff.mp h.nodup)).1

lemma Once.executed_prefix (h : Once s) :
    s.hist.executed.filter immediate <+: s.hist.added.filter immediate := by
  rw [← h.order, List.filter_append]
  exact List.prefix_append _ _

end Once

end Libchef.TaskOnce
