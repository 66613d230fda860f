import Libchef.TagCountModel

/-!
The modes of a counter of tags.

Either kind of counter holds the count of each of its tags that the calls so far come to. The
atomic one has the tags that were added; the plain one has every tag that was counted, so on the
tags that were added they agree.
-/

namespace Libchef.TagCountModes

open Libchef.StringsModel Libchef.Ordered Libchef.TagCountModel

/-- The tags of a call that adds tags. -/
def tagsOf : Add → List Str
  | .addTag tag => [tag]
  | .addTags tags => tags

def added (adds : List Add) : List Str := adds.flatMap tagsOf

/-- What becomes of the count of the tag of a call. -/
def change : Op → Option (Str × (ℤ → ℤ))
  | .increment tag => some (tag, fun n => n + 1)
  | .decrement tag => some (tag, fun n => n - 1)
  | .addCount tag num => some (tag, fun n => n + num.toInt)
  | .delCount tag num => some (tag, fun n => n - num.toInt)
  | .setCount tag num => some (tag, fun _ => num.toInt)
  | .getTagCount _ => none
  | .getTagsCount => none

/-- The counts after a call. -/
def apply (n : Str → ℤ) (op : Op) : Str → ℤ :=
  match change op with
  | some (tag, f) => Function.update n tag (f (n tag))
  | none => n

/-- The count of each tag: what it was set to, or 0, and what was added since. -/
def tally (ops : List Op) : Str → ℤ := ops.foldl apply fun _ => 0

def Fits (n : ℤ) : Prop := -2 ^ 63 ≤ n ∧ n < 2 ^ 63

/-- The counts stay in the range of an `int64_t`. -/
def InRange (ops : List Op) : Prop := ∀ k tag, Fits (tally (ops.take k) tag)

def tagOf : Op → Option Str
  | .increment tag => some tag
  | .decrement tag => some tag
  | .addCount tag _ => some tag
  | .delCount tag _ => some tag
  | .setCount tag _ => some tag
  | .getTagCount tag => some tag
  | .getTagsCount => none

/-- What a call on a tag returns whose count is `n`. -/
def reply (n : ℤ) : Op → Res
  | .getTagCount _ => .count true (some (Int64.ofInt n))
  | _ => .done true

/-- What a call on a tag returns that an atomic counter does not have. -/
def refusal : Op → Res
  | .getTagCount _ => .count false none
  | _ => .done false

/-- What an atomic counter and a plain one return for a call after the calls `pre`. -/
structure Agree (tags : List Str) (pre : List Op) (op : Op) (ra rp : Res) : Prop where
  onTag : ∀ tag ∈ tags, tagOf op = some tag → ra = reply (tally pre tag) op ∧ rp = ra
  onAll : op = .getTagsCount → ∃ ma mp, ra = .counts ma ∧ rp = .counts mp ∧
    (∀ tag ∈ tags, ma.get? tag = some (Int64.ofInt (tally pre tag)) ∧ mp.get? tag = ma.get? tag) ∧
    ((∀ o ∈ pre, ∀ tag, tagOf o = some tag → tag ∈ tags) → mp = ma)

/-- A counter to which tags have been added, after some calls. -/
def after (type : MultiTagCounterType) (adds : List Add) (ops : List Op) :
    Option MultiTagCounter :=
  (start type adds).bind fun c => run c ops

variable {type : MultiTagCounterType} {tags : List Str} {n : Str → ℤ} {c : MultiTagCounter}
  {tag : Str} {op : Op} {f : ℤ → ℤ}

/-- The map that the counter counts in. -/
def countsOf (c : MultiTagCounter) : OrderedMap Str Int64 :=
  if c.type_ = .atomic then c.tag2atomicCount_ else c.tag2count_

/-- The counter has these tags, with these counts, and is not locked. -/
structure Holds (type : MultiTagCounterType) (tags : List Str) (n : Str → ℤ)
    (c : MultiTagCounter) : Prop where
  type_eq : c.type_ = type
  unlocked : c.mutex_ = false
  get : ∀ tag, (countsOf c).get? tag = if tag ∈ tags then some (Int64.ofInt (n tag)) else none

/-! ### Counts in a range -/

lemma toInt64_of_fits {n : ℤ} (h : Fits n) : toInt64 n = some (Int64.ofInt n) := if_pos h

lemma toInt_ofInt {n : ℤ} (h : Fits n) : (Int64.ofInt n).toInt = n :=
  Int64.toInt_ofInt_of_le h.1 h.2

/-- The functions that change a count do it in either way. -/
lemma step_of_change (h : change op = some (tag, f)) :
    ∃ (atomic : Int64 → Int64) (plain : Int64 → Option Int64),
      (∀ c, op.step c = (c.update atomic plain tag).map (Prod.map .done id)) ∧
      (∀ n, atomic (Int64.ofInt n) = Int64.ofInt (f n)) ∧
      (∀ n, Fits n → Fits (f n) → plain (Int64.ofInt n) = some (Int64.ofInt (f n))) := by
  have hplain {g : ℤ → ℤ} (m : ℤ) (hm : Fits m) (hg : Fits (g m)) :
      toInt64 (g (Int64.ofInt m).toInt) = some (Int64.ofInt (g m)) := by
    rw [toInt_ofInt hm]
    exact toInt64_of_fits hg
  cases op with
  | increment t =>
    obtain ⟨rfl, rfl⟩ := Prod.mk.inj (Option.some.inj h)
    exact ⟨_, _, fun c => rfl, fun n => (Int64.ofInt_add n 1).symm, hplain⟩
  | decrement t =>
    obtain ⟨rfl, rfl⟩ := Prod.mk.inj (Option.some.inj h)
    exact ⟨_, _, fun c => rfl, fun n => (Int64.ofInt_sub n 1).symm, hplain⟩
  | addCount t num =>
    obtain ⟨rfl, rfl⟩ := Prod.mk.inj (Option.some.inj h)
    exact ⟨_, _, fun c => rfl, fun n => by rw [Int64.ofInt_add, Int64.ofInt_toInt], hplain⟩
  | delCount t num =>
    obtain ⟨rfl, rfl⟩ := Prod.mk.inj (Option.some.inj h)
    exact ⟨_, _, fun c => rfl, fun n => by rw [Int64.ofInt_sub, Int64.ofInt_toInt], hplain⟩
  | setCount t num =>
    obtain ⟨rfl, rfl⟩ := Prod.mk.inj (Option.some.inj h)
    exact ⟨_, _, fun c => rfl, fun n => (Int64.ofInt_toInt num).symm,
      fun n _ _ => by rw [Int64.ofInt_toInt]⟩
  | getTagCount t => cases h
  | getTagsCount => cases h

/-! ### One call -/

lemma lock_unlocked (h : c.mutex_ = false) : ∃ l, c.lockIfNeeded = some l ∧
    l.tag2count_ = c.tag2count_ ∧ l.unlockIfNeeded = c ∧
    ∀ m, MultiTagCounter.unlockIfNeeded { l with tag2count_ := m } =
      { c with tag2count_ := m } := by
  obtain ⟨type, mp, ma, locked⟩ := c
  obtain rfl : locked = false := h
  cases type <;> exact ⟨_, rfl, rfl, rfl, fun m => rfl⟩

lemma Holds.insert (h : Holds type tags n c) {c' : MultiTagCounter} (v : ℤ)
    (htype : c'.type_ = c.type_) (hlock : c'.mutex_ = c.mutex_)
    (hmap : countsOf c' = (countsOf c).insert tag (Int64.ofInt v)) :
    Holds type (tag :: tags) (Function.update n tag v) c' := by
  refine ⟨htype.trans h.type_eq, hlock.trans h.unlocked, fun x => ?_⟩
  rw [hmap, OrderedMap.get?_insert]
  by_cases hx : x = tag
  · rw [if_pos hx, if_pos (hx ▸ List.mem_cons_self), hx, Function.update_self]
  · rw [if_neg hx, h.get, Function.update_of_ne hx]
    simp [hx]

lemma Holds.congr (h : Holds type tags n c) {tags' : List Str} {n' : Str → ℤ}
    (htags : ∀ tag, tag ∈ tags' ↔ tag ∈ tags) (hn : ∀ tag ∈ tags, n' tag = n tag) :
    Holds type tags' n' c := by
  refine ⟨h.type_eq, h.unlocked, fun tag => ?_⟩
  rw [h.get]
  by_cases ht : tag ∈ tags
  · rw [if_pos ht, if_pos ((htags tag).mpr ht), hn tag ht]
  · rw [if_neg ht, if_neg fun h => ht ((htags tag).mp h)]

lemma countsOf_atomic (h : c.type_ = .atomic) : countsOf c = c.tag2atomicCount_ := if_pos h

lemma countsOf_plain (h : c.type_ ≠ .atomic) : countsOf c = c.tag2count_ := if_neg h

lemma Holds.addTag (h : Holds type tags (fun _ => 0) c) (tag : Str) :
    ∃ c', c.addTag tag = some c' ∧ Holds type (tag :: tags) (fun _ => 0) c' := by
  have hzero : Function.update (fun _ => 0) tag 0 = (fun _ => 0 : Str → ℤ) :=
    Function.update_eq_self tag _
  rw [← hzero]
  by_cases ha : c.type_ = .atomic
  · refine ⟨_, if_pos ha, h.insert 0 rfl rfl ?_⟩
    rw [countsOf_atomic ha]
    exact if_pos ha
  · obtain ⟨l, hl, hcount, -, hunlock⟩ := lock_unlocked h.unlocked
    refine ⟨{ c with tag2count_ := c.tag2count_.insert tag 0 }, ?_, h.insert 0 rfl rfl ?_⟩
    · rw [MultiTagCounter.addTag, if_neg ha, hl, ← hunlock, ← hcount]
      rfl
    · rw [countsOf_plain ha]
      exact if_neg ha

lemma Holds.addTags (h : Holds type tags (fun _ => 0) c) (ts : List Str) :
    ∃ c', c.addTags ts = some c' ∧ Holds type (tags ++ ts) (fun _ => 0) c' := by
  induction ts generalizing c tags with
  | nil => exact ⟨c, rfl, by rwa [List.append_nil]⟩
  | cons tag ts ih =>
    obtain ⟨c₁, hc₁, h₁⟩ := h.addTag tag
    obtain ⟨c', hc', h'⟩ := ih h₁
    refine ⟨c', ?_, h'.congr (fun x => by simp [or_left_comm]) fun _ _ => rfl⟩
    rw [MultiTagCounter.addTags, List.foldlM_cons, hc₁]
    exact hc'

/-- After all tags have been added. -/
lemma start_holds (type : MultiTagCounterType) (adds : List Add) :
    ∃ c, start type adds = some c ∧ Holds type (added adds) (fun _ => 0) c := by
  have hrun {c : MultiTagCounter} {tags : List Str} (h : Holds type tags (fun _ => 0) c) :
      ∃ c', adds.foldlM Add.step c = some c' ∧ Holds type (tags ++ added adds) (fun _ => 0) c' := by
    induction adds generalizing c tags with
    | nil => exact ⟨c, rfl, by rwa [added, List.flatMap_nil, List.append_nil]⟩
    | cons a adds ih =>
      obtain ⟨c₁, hc₁, h₁⟩ : ∃ c₁, a.step c = some c₁ ∧
          Holds type (tags ++ tagsOf a) (fun _ => 0) c₁ := by
        cases a with
        | addTag tag =>
          obtain ⟨c₁, hc₁, h₁⟩ := h.addTag tag
          exact ⟨c₁, hc₁, h₁.congr (fun x => by simp [tagsOf, or_comm]) fun _ _ => rfl⟩
        | addTags ts => exact h.addTags ts
      obtain ⟨c', hc', h'⟩ := ih h₁
      refine ⟨c', ?_, ?_⟩
      · rw [List.foldlM_cons, hc₁]
        exact hc'
      · rwa [added, List.flatMap_cons, ← List.append_assoc]
  have hinit : Holds type [] (fun _ => 0) (.init type) := by
    refine ⟨rfl, rfl, fun tag => ?_⟩
    rw [if_neg List.not_mem_nil]
    unfold countsOf
    split_ifs <;> rfl
  exact hrun hinit

/-- A call that changes a count, on an atomic counter with that tag. -/
lemma step_atomic (h : Holds .atomic tags n c) (hop : change op = some (tag, f))
    (htag : tag ∈ tags) :
    ∃ c', op.step c = some (.done true, c') ∧ Holds .atomic tags (apply n op) c' := by
  obtain ⟨atomic, plain, hstep, hatomic, -⟩ := step_of_change hop
  have ha : c.type_ = .atomic := h.type_eq
  have hget : c.tag2atomicCount_.get? tag = some (Int64.ofInt (n tag)) := by
    rw [← countsOf_atomic ha, h.get, if_pos htag]
  have hholds : Holds .atomic (tag :: tags) (apply n op)
      { c with
        tag2atomicCount_ := c.tag2atomicCount_.insert tag (atomic (Int64.ofInt (n tag))) } := by
    rw [apply, hop]
    refine h.insert _ rfl rfl ?_
    rw [countsOf_atomic ha, hatomic]
    exact if_pos ha
  refine ⟨_, ?_, hholds.congr (fun x => ?_) fun _ _ => rfl⟩
  · rw [hstep, MultiTagCounter.update, if_pos ha, hget]
    rfl
  · simp only [List.mem_cons, iff_or_self]
    rintro rfl
    exact htag

/-- A call that changes a count, on a plain counter. -/
lemma step_plain (htype : type ≠ .atomic) (h : Holds type tags n c)
    (hzero : ∀ tag ∉ tags, n tag = 0) (hop : change op = some (tag, f)) (hfits : Fits (n tag))
    (hfits' : Fits (apply n op tag)) :
    ∃ c', op.step c = some (.done true, c') ∧ Holds type (tag :: tags) (apply n op) c' := by
  obtain ⟨atomic, plain, hstep, -, hplain⟩ := step_of_change hop
  have ha : c.type_ ≠ .atomic := h.type_eq ▸ htype
  have hget : (c.tag2count_.get? tag).getD 0 = Int64.ofInt (n tag) := by
    rw [← countsOf_plain ha, h.get]
    split_ifs with ht
    · rfl
    · rw [hzero tag ht]; rfl
  rw [apply, hop] at hfits'
  simp only [Function.update_self] at hfits'
  obtain ⟨l, hl, hcount, -, hunlock⟩ := lock_unlocked h.unlocked
  refine ⟨{ c with tag2count_ := c.tag2count_.insert tag (Int64.ofInt (f (n tag))) }, ?_, ?_⟩
  · rw [hstep, MultiTagCounter.update, if_neg ha, hl, ← hunlock, ← hcount]
    simp only [Option.bind_eq_bind, Option.bind_some, hcount, hget, hplain _ hfits hfits']
    rfl
  · rw [apply, hop]
    refine h.insert _ rfl rfl ?_
    rw [countsOf_plain ha]
    exact if_neg ha

lemma step_getTagCount (h : Holds type tags n c) (tag : Str) :
    (Op.getTagCount tag).step c = some
      (if tag ∈ tags then .count true (some (Int64.ofInt (n tag))) else .count false none, c) := by
  by_cases ha : c.type_ = .atomic
  · have hget := h.get tag
    rw [countsOf_atomic ha] at hget
    simp only [Op.step, MultiTagCounter.getTagCount, if_pos ha, hget]
    split_ifs <;> rfl
  · have hget := h.get tag
    rw [countsOf_plain ha] at hget
    obtain ⟨l, hl, hcount, hsame, -⟩ := lock_unlocked h.unlocked
    simp only [Op.step, MultiTagCounter.getTagCount, if_neg ha, hl, Option.bind_eq_bind,
      Option.bind_some, hcount, hget]
    split_ifs <;> simp [hsame]

lemma step_getTagsCount (h : Holds type tags n c) :
    Op.getTagsCount.step c = some (.counts (countsOf c), c) := by
  by_cases ha : c.type_ = .atomic
  · rw [countsOf_atomic ha, Op.step, MultiTagCounter.getTagsCount, if_pos ha,
      OrderedMap.foldl_insert_entries]
    rfl
  · obtain ⟨l, hl, hcount, hsame, -⟩ := lock_unlocked h.unlocked
    rw [countsOf_plain ha, Op.step, MultiTagCounter.getTagsCount, if_neg ha, hl]
    simp [hcount, hsame]

/-- A call on a tag that an atomic counter does not have. -/
lemma step_refused (h : Holds .atomic tags n c) (hop : tagOf op = some tag) (htag : tag ∉ tags) :
    op.step c = some (refusal op, c) := by
  have ha : c.type_ = .atomic := h.type_eq
  have hget : c.tag2atomicCount_.get? tag = none := by
    rw [← countsOf_atomic ha, h.get, if_neg htag]
  cases hc : change op with
  | none =>
    cases op with
    | getTagCount t =>
      obtain rfl := Option.some.inj hop
      rw [step_getTagCount h, if_neg htag]
      rfl
    | getTagsCount => cases hop
    | _ => cases hc
  | some p =>
    obtain ⟨t, f⟩ := p
    obtain ⟨atomic, plain, hstep, -⟩ := step_of_change hc
    obtain ⟨rfl, hrefuse⟩ : t = tag ∧ refusal op = .done false := by
      cases op <;> cases hc <;> cases hop <;> exact ⟨rfl, rfl⟩
    rw [hstep, MultiTagCounter.update, if_pos ha, hget, hrefuse]
    rfl

/-! ### All calls -/

/-- The tags of a plain counter after a call. -/
def grow (tags : List Str) (op : Op) : List Str :=
  match change op with
  | some (tag, _) => tag :: tags
  | none => tags

lemma apply_of_ne {x : Str} (h : ∀ t g, change op = some (t, g) → t ≠ x) (n : Str → ℤ) :
    apply n op x = n x := by
  unfold apply
  cases hc : change op with
  | none => rfl
  | some p => exact Function.update_of_ne (h p.1 p.2 hc).symm _ _

lemma apply_of_none (h : change op = none) (n : Str → ℤ) : apply n op = n := by
  rw [apply, h]

lemma read_total (h : Holds type tags n c) (hc : change op = none) :
    ∃ r, op.step c = some (r, c) ∧
      (∀ tag ∈ tags, tagOf op = some tag → r = reply (n tag) op) ∧
      (op = .getTagsCount → r = .counts (countsOf c)) := by
  cases op with
  | getTagCount t =>
    refine ⟨_, step_getTagCount h t, fun tag htag ht => ?_, by simp⟩
    obtain rfl := Option.some.inj ht
    rw [if_pos htag]
    rfl
  | getTagsCount => exact ⟨_, step_getTagsCount h, by simp [tagOf], fun _ => rfl⟩
  | _ => cases hc

/-- What an atomic counter makes of a call. -/
lemma atomic_total (h : Holds .atomic tags n c) (op : Op) :
    ∃ r c', op.step c = some (r, c') ∧ Holds .atomic tags (apply n op) c' ∧
      (∀ tag ∈ tags, tagOf op = some tag → r = reply (n tag) op) ∧
      (op = .getTagsCount → r = .counts (countsOf c)) := by
  cases hc : change op with
  | none =>
    obtain ⟨r, hstep, hread⟩ := read_total h hc
    exact ⟨r, c, hstep, (apply_of_none hc n).symm ▸ h, hread⟩
  | some p =>
    obtain ⟨t, f⟩ := p
    have hdone : ∀ m, reply m op = .done true ∧ tagOf op = some t ∧ refusal op = .done false ∧
        op ≠ .getTagsCount := by
      intro m
      cases op <;> cases hc <;> simp [reply, tagOf, refusal]
    obtain ⟨-, htag, -, hne⟩ := hdone 0
    by_cases ht : t ∈ tags
    · obtain ⟨c', hstep, h'⟩ := step_atomic h hc ht
      exact ⟨_, c', hstep, h', fun tag _ _ => (hdone _).1.symm, fun he => absurd he hne⟩
    · refine ⟨_, c, step_refused h htag ht, h.congr (fun _ => Iff.rfl) fun x hx => ?_,
        fun tag hm he => ?_, fun he => absurd he hne⟩
      · refine apply_of_ne (fun t' g ht' => ?_) n
        rintro rfl
        rw [hc] at ht'
        cases ht'
        exact ht hx
      · rw [htag] at he
        exact absurd (Option.some.inj he ▸ hm) ht

/-- What a plain counter makes of a call. -/
lemma plain_total (htype : type ≠ .atomic) (h : Holds type tags n c)
    (hzero : ∀ tag ∉ tags, n tag = 0) (hfits : ∀ tag, Fits (n tag))
    (hfits' : ∀ tag, Fits (apply n op tag)) :
    ∃ r c', op.step c = some (r, c') ∧ Holds type (grow tags op) (apply n op) c' ∧
      (∀ tag ∈ tags, tagOf op = some tag → r = reply (n tag) op) ∧
      (op = .getTagsCount → r = .counts (countsOf c)) := by
  cases hc : change op with
  | none =>
    obtain ⟨r, hstep, hread⟩ := read_total h hc
    rw [apply_of_none hc, grow, hc]
    exact ⟨r, c, hstep, h, hread⟩
  | some p =>
    obtain ⟨t, f⟩ := p
    obtain ⟨c', hstep, h'⟩ := step_plain htype h hzero hc (hfits t) (hfits' t)
    have hdone : ∀ m, reply m op = .done true ∧ op ≠ .getTagsCount := by
      intro m
      cases op <;> cases hc <;> simp [reply]
    rw [grow, hc]
    exact ⟨_, c', hstep, h', fun tag _ _ => (hdone _).1.symm, fun he => absurd he (hdone 0).2⟩

lemma run_cons {c₁ : MultiTagCounter} {r : Res} (h : op.step c = some (r, c₁)) (ops : List Op) :
    run c (op :: ops) = run c₁ ops := by
  rw [run, List.foldlM_cons, h]
  rfl

/-- **An atomic counter holds what its calls come to.** -/
theorem atomic_run (h : Holds .atomic tags n c) (ops : List Op) :
    ∃ c', run c ops = some c' ∧ Holds .atomic tags (ops.foldl apply n) c' := by
  induction ops generalizing c n with
  | nil => exact ⟨c, rfl, h⟩
  | cons op ops ih =>
    obtain ⟨r, c₁, hstep, h₁, -⟩ := atomic_total h op
    obtain ⟨c', hrun, h'⟩ := ih h₁
    exact ⟨c', (run_cons hstep ops).trans hrun, h'⟩

lemma grow_zero (hzero : ∀ tag ∉ tags, n tag = 0) : ∀ tag ∉ grow tags op, apply n op tag = 0 := by
  intro x hx
  rw [apply_of_ne, hzero x]
  · intro hm
    unfold grow at hx
    split at hx
    · exact hx (List.mem_cons_of_mem _ hm)
    · exact hx hm
  · rintro t g hc rfl
    rw [grow, hc] at hx
    exact hx List.mem_cons_self

/-- **So does a plain one, in range.** -/
theorem plain_run (htype : type ≠ .atomic) (h : Holds type tags n c)
    (hzero : ∀ tag ∉ tags, n tag = 0) {ops : List Op}
    (hfits : ∀ k tag, Fits ((ops.take k).foldl apply n tag)) :
    ∃ c', run c ops = some c' ∧ Holds type (ops.foldl grow tags) (ops.foldl apply n) c' ∧
      ∀ tag ∉ ops.foldl grow tags, ops.foldl apply n tag = 0 := by
  induction ops generalizing c n tags with
  | nil => exact ⟨c, rfl, h, hzero⟩
  | cons op ops ih =>
    obtain ⟨r, c₁, hstep, h₁, -⟩ :=
      plain_total htype h hzero (fun tag => hfits 0 tag) (fun tag => hfits 1 tag)
    obtain ⟨c', hrun, h'⟩ := ih h₁ (grow_zero hzero) fun k tag => hfits (k + 1) tag
    exact ⟨c', (run_cons hstep ops).trans hrun, h'⟩

lemma subset_grow (tags : List Str) (ops : List Op) : tags ⊆ ops.foldl grow tags := by
  induction ops generalizing tags with
  | nil => exact List.Subset.refl _
  | cons op ops ih =>
    refine List.Subset.trans (fun x hx => ?_) (ih (grow tags op))
    unfold grow
    split
    · exact List.mem_cons_of_mem _ hx
    · exact hx

lemma tagOf_of_change (h : change op = some (tag, f)) : tagOf op = some tag := by
  cases op <;> cases h <;> rfl

/-- Calls on some tags make no other one. -/
lemma grow_subset {all : List Str} {ops : List Op} (htags : tags ⊆ all)
    (h : ∀ op ∈ ops, ∀ tag, tagOf op = some tag → tag ∈ all) : ops.foldl grow tags ⊆ all := by
  induction ops generalizing tags with
  | nil => exact htags
  | cons op ops ih =>
    obtain ⟨hop, hrest⟩ := List.forall_mem_cons.mp h
    refine ih ?_ hrest
    unfold grow
    split
    · next t g hc => exact List.cons_subset.mpr ⟨hop t (tagOf_of_change hc), htags⟩
    · exact htags

/-- **The modes agree**: on the tags that were added an atomic counter and a plain one return the
same, which is what the calls before come to; and an atomic counter refuses a call on another tag
and stays as it is. -/
theorem modes_agree (htype : type ≠ .atomic) (adds : List Add) (pre : List Op) (op : Op) :
    (InRange (pre ++ [op]) → ∃ a p ra rp a' p',
      after .atomic adds pre = some a ∧ after type adds pre = some p ∧
      op.step a = some (ra, a') ∧ op.step p = some (rp, p') ∧
      Agree (added adds) pre op ra rp) ∧
    ∀ tag ∉ added adds, tagOf op = some tag → ∃ a, after .atomic adds pre = some a ∧
      op.step a = some (refusal op, a) := by
  obtain ⟨a₀, ha₀, hholds₀⟩ := start_holds .atomic adds
  obtain ⟨a, ha, hatomic⟩ := atomic_run hholds₀ pre
  have hafter : after .atomic adds pre = some a := by rw [after, ha₀]; exact ha
  refine ⟨fun hrange => ?_, fun tag htag hop => ⟨a, hafter, step_refused hatomic hop htag⟩⟩
  obtain ⟨p₀, hp₀, hplain₀⟩ := start_holds type adds
  have hfits (k : ℕ) (hk : k ≤ pre.length) (tag : Str) : Fits (tally (pre.take k) tag) := by
    have := hrange k tag
    rwa [List.take_append_of_le_length hk] at this
  have hpre (k : ℕ) (tag : Str) : Fits (tally (pre.take k) tag) := by
    rcases Nat.le_total k pre.length with hk | hk
    · exact hfits k hk tag
    · have := hfits pre.length le_rfl tag
      rwa [List.take_of_length_le hk, ← List.take_length (l := pre)]
  obtain ⟨p, hp, hplain, hzero⟩ := plain_run htype hplain₀ (fun _ _ => rfl) hpre
  have hlast (tag : Str) : Fits (apply (tally pre) op tag) := by
    have := hrange (pre.length + 1) tag
    rwa [← List.length_singleton (a := op), ← List.length_append, List.take_length, tally,
      List.foldl_append] at this
  have hsub := subset_grow (added adds) pre
  obtain ⟨ra, a', hstepa, -, htaga, halla⟩ := atomic_total hatomic op
  obtain ⟨rp, p', hstepp, -, htagp, hallp⟩ := plain_total htype hplain hzero
    (fun tag => by simpa [tally] using hpre pre.length tag) hlast
  refine ⟨a, p, ra, rp, a', p', hafter, by rw [after, hp₀]; exact hp, hstepa, hstepp, ?_, ?_⟩
  · intro tag htag hop
    have hra := htaga tag htag hop
    exact ⟨hra, (htagp tag (hsub htag) hop).trans hra.symm⟩
  · intro hall
    refine ⟨_, _, halla hall, hallp hall, fun tag htag => ?_, fun honly => ?_⟩
    · rw [hatomic.get, hplain.get, if_pos htag, if_pos (hsub htag)]
      exact ⟨rfl, rfl⟩
    · refine OrderedMap.ext_get? fun tag => ?_
      have hiff : tag ∈ pre.foldl grow (added adds) ↔ tag ∈ added adds :=
        ⟨fun h => grow_subset (List.Subset.refl _) honly h, fun h => hsub h⟩
      rw [hatomic.get, hplain.get]
      simp only [hiff]

lemma inRange_calls : InRange
    [.setCount (lit ['a']) 5, .increment (lit ['b']), .getTagCount (lit ['a'])] := by
  intro k tag
  rcases k with _ | _ | _ | k
  · rw [List.take_zero, tally, List.foldl_nil]
    exact ⟨by decide, by decide⟩
  all_goals
    simp only [List.take_succ_cons, List.take_zero, List.take_nil, tally, List.foldl_cons,
      List.foldl_nil, apply, change, Function.update_apply]
    split_ifs <;> exact ⟨by decide, by decide⟩

theorem modes_agree_calls : ∃ a p ra rp a' p',
    after .atomic [.addTags [lit ['a']]] [.setCount (lit ['a']) 5, .increment (lit ['b'])] =
      some a ∧
    after .mutex [.addTags [lit ['a']]] [.setCount (lit ['a']) 5, .increment (lit ['b'])] =
      some p ∧
    (Op.getTagCount (lit ['a'])).step a = some (ra, a') ∧
    (Op.getTagCount (lit ['a'])).step p = some (rp, p') ∧
    Agree (added [.addTags [lit ['a']]]) [.setCount (lit ['a']) 5, .increment (lit ['b'])]
      (.getTagCount (lit ['a'])) ra rp :=
  (modes_agree (by decide) [.addTags [lit ['a']]] [.setCount (lit ['a']) 5, .increment (lit ['b'])]
    (.getTagCount (lit ['a']))).1 inRange_calls

end Libchef.TagCountModes
