import Libchef.StringsModel

/-!
Containing all characters of a list.

The characters of the string are put in a set, and each of the list is looked up there. Before
that a list that is longer than the string is turned away, which is wrong where it names some
characters more than once.
-/

namespace Libchef.StringsContains

open Libchef.StringsModel

variable {s charlist : Str}

lemma mem_foldl_insert (s : Str) (hash : Finset UInt8) (c : UInt8) :
    c ∈ s.foldl (fun hash c => insert c hash) hash ↔ c ∈ hash ∨ c ∈ s := by
  induction s generalizing hash with
  | nil => simp
  | cons d s ih => simp [ih, or_assoc, or_left_comm]

lemma containsAllLoop_iff (hash : Finset UInt8) (charlist : Str) :
    containsAllLoop hash charlist = true ↔ ∀ c ∈ charlist, c ∈ hash := by
  induction charlist with
  | nil => simp [containsAllLoop]
  | cons c charlist ih =>
    rw [containsAllLoop, List.forall_mem_cons]
    split_ifs with h
    · rw [ih]
      simp [h]
    · simp [h]

lemma loop_chars_iff (s charlist : Str) :
    containsAllLoop (s.foldl (fun hash c => insert c hash) ∅) charlist = true ↔
      ∀ c ∈ charlist, c ∈ s := by
  rw [containsAllLoop_iff]
  simp [mem_foldl_insert]

lemma containsAll_iff (hs : s ≠ []) (hc : charlist ≠ []) : containsAll s charlist = true ↔
    charlist.length ≤ s.length ∧ ∀ c ∈ charlist, c ∈ s := by
  unfold containsAll
  split_ifs with h
  · have hlen : s.length < charlist.length := by simpa [hs, hc] using h
    simp [Nat.not_le.mpr hlen]
  · rw [loop_chars_iff]
    simp only [hs, hc, false_or, not_lt] at h
    simp [h]

/-- The list is no longer than the string, unless a character of it is not in the string. -/
def Fits (s charlist : Str) : Prop := charlist.length ≤ s.length ∨ ∃ c ∈ charlist, c ∉ s

lemma containsAll_iff_of_fits (hs : s ≠ []) (hc : charlist ≠ []) :
    (containsAll s charlist = true ↔ ∀ c ∈ charlist, c ∈ s) ↔ Fits s charlist := by
  rw [containsAll_iff hs hc, Fits]
  by_cases hall : ∀ c ∈ charlist, c ∈ s
  · have hno : ¬ ∃ c ∈ charlist, c ∉ s := by simpa using hall
    simp only [hno, or_false, iff_true_intro hall, and_true, iff_true]
  · have hsome : ∃ c ∈ charlist, c ∉ s := by simpa using hall
    simp [hsome, hall]

lemma containsAll_eq_loop_iff : containsAll s charlist =
      containsAllLoop (s.foldl (fun hash c => insert c hash) ∅) charlist ↔
    (containsAll s charlist = true ↔ ∀ c ∈ charlist, c ∈ s) := by
  rw [← loop_chars_iff, Bool.eq_iff_iff]

/-- Two lists of the same characters have the same answer just where both fit or none does. -/
lemma containsAll_congr_iff {charlist' : Str} (hs : s ≠ []) (hc : charlist ≠ [])
    (hsame : ∀ c, c ∈ charlist' ↔ c ∈ charlist) : containsAll s charlist = containsAll s charlist' ↔
      (Fits s charlist ↔ Fits s charlist') := by
  have hc' : charlist' ≠ [] := by
    rintro rfl
    obtain ⟨c, w, rfl⟩ := List.exists_cons_of_ne_nil hc
    simpa using hsame c
  rw [Bool.eq_iff_iff, containsAll_iff hs hc, containsAll_iff hs hc', Fits, Fits]
  simp only [hsame]
  by_cases hall : ∀ c ∈ charlist, c ∈ s
  · have hno : ¬ ∃ c ∈ charlist, c ∉ s := by simpa using hall
    simp only [hno, or_false, iff_true_intro hall, and_true]
  · have hsome : ∃ c ∈ charlist, c ∉ s := by simpa using hall
    simp [hsome, hall]

/-- **When the answer is that of inclusion**: where the list fits. There the length test changes
nothing, and between lists that fit only the set of characters counts. -/
theorem includes_iff (hs : s ≠ []) (hc : charlist ≠ []) :
    ((containsAll s charlist = true ↔ ∀ c ∈ charlist, c ∈ s) ↔ Fits s charlist) ∧
    (containsAll s charlist = containsAllLoop (s.foldl (fun hash c => insert c hash) ∅) charlist ↔
      Fits s charlist) ∧
    ∀ charlist', (∀ c, c ∈ charlist' ↔ c ∈ charlist) →
      (containsAll s charlist = containsAll s charlist' ↔ (Fits s charlist ↔ Fits s charlist')) :=
  ⟨containsAll_iff_of_fits hs hc, containsAll_eq_loop_iff.trans (containsAll_iff_of_fits hs hc),
    fun _ => containsAll_congr_iff hs hc⟩

/-- A list that is as long as the string. -/
theorem includes_iff_letters : containsAll (lit ['a', 'b']) (lit ['b', 'a']) = true ↔
    ∀ c ∈ lit ['b', 'a'], c ∈ lit ['a', 'b'] :=
  (includes_iff (by decide) (by decide)).1.mpr (Or.inl le_rfl)

/-- The letter that the list names twice is in the string. -/
theorem twice_not_contained : ¬ (containsAll (lit ['a']) (lit ['a', 'a']) = true ↔
    ∀ c ∈ lit ['a', 'a'], c ∈ lit ['a']) := by
  intro h
  have htrue := h.mpr (by simp [lit])
  revert htrue
  decide

end Libchef.StringsContains
