import Libchef.DebugMutexModel

/-!
The books of the debug mutexes raise no false alarm.

Between two pieces of a call the books and the owners of the mutexes disagree, so what is kept is
a relation between the place of a thread and its stage with every mutex: whether it is booked as
waiting, is booked as holding, and is the owner. A piece of a call moves one thread to its next
place and changes its stage with one mutex.
-/

namespace Libchef.DebugMutexAlarm

open Libchef.StringsModel Libchef.Ordered Libchef.DebugMutexModel

variable {M : Type*} {uk : M → Str} {d : Manager} {tid t : ℤ} {m x : M}

/-! ### What the manager is told -/

inductive Event
  | beforeAcquireLock
  | afterAcquireLock
  | afterUnlock
  deriving DecidableEq

/-- The call of the manager that a step makes, with its thread and its mutex. -/
def event (s : State M) : Act M → Option (ℤ × M × Event)
  | .piece tid _ =>
    match s.thread tid with
    | .beforeAcquire m _ => some (tid, m, .beforeAcquireLock)
    | .afterAcquire m _ => some (tid, m, .afterAcquireLock)
    | .afterUnlock m _ => some (tid, m, .afterUnlock)
    | _ => none
  | _ => none

/-- How often there has been an event. -/
def times (e : Event) (seen : List (ℤ × M × Event)) : ℕ := seen.countP fun x => x.2.2 = e

variable {seen : List (ℤ × M × Event)} {e e' : Event}

lemma times_snoc : times e (seen ++ [(tid, m, e')]) = times e seen + if e' = e then 1 else 0 := by
  simp [times, List.countP_append, List.countP_singleton]

/-! ### The books -/

lemma key_inj {a b : Str} (h : key a t = key b tid) : a = b ∧ t = tid := by
  have hsep (i : ℤ) : chr '_' ∉ Decimal.printInt i :=
    Decimal.notMem_printInt (by decide) (by decide) i
  obtain ⟨ha, ht⟩ := Text.append_cons_inj (hsep t) (hsep tid) h
  exact ⟨ha, Decimal.printInt_inj ht⟩

lemma key_eq_iff (huk : Function.Injective uk) :
    key (uk x) t = key (uk m) tid ↔ t = tid ∧ x = m := by
  constructor
  · intro h
    obtain ⟨hx, ht⟩ := key_inj h
    exact ⟨ht, huk hx⟩
  · rintro ⟨rfl, rfl⟩
    rfl

section Manager

variable {u : Str} {srcinfo : Str} {now : Fin 3 → UInt64}

lemma beforeAcquireLock_eq (hw : (d.waitAcquireContainer_.get? (key u tid)).isSome = false)
    (hh : (d.holdContainer_.get? (key u tid)).isSome = false) :
    d.beforeAcquireLock u tid srcinfo now =
      { d with
        printThread_ := true
        bacquireCount_ := d.bacquireCount_ + 1
        waitAcquireContainer_ := d.waitAcquireContainer_.insert (key u tid) ⟨now 2, srcinfo⟩ } := by
  simp only [Manager.beforeAcquireLock, Manager.startPrintTmpDebugIfNeeded, Manager.errorIf, hw, hh,
    Bool.false_eq_true, if_false]

lemma afterAcquireLock_eq (hw : (d.waitAcquireContainer_.get? (key u tid)).isSome = true)
    (hh : (d.holdContainer_.get? (key u tid)).isSome = false) :
    d.afterAcquireLock u tid srcinfo now =
      { d with
        printThread_ := true
        aacquireCount_ := d.aacquireCount_ + 1
        waitAcquireContainer_ := d.waitAcquireContainer_.erase (key u tid)
        holdContainer_ := d.holdContainer_.insert (key u tid) ⟨now 2, srcinfo⟩ } := by
  rw [← Option.not_isNone, Bool.not_eq_true'] at hw
  simp only [Manager.afterAcquireLock, Manager.startPrintTmpDebugIfNeeded, Manager.errorIf, hw, hh,
    Bool.false_eq_true, if_false]

lemma afterUnlock_eq (hw : (d.waitAcquireContainer_.get? (key u tid)).isSome = false)
    (hh : (d.holdContainer_.get? (key u tid)).isSome = true) :
    d.afterUnlock u tid srcinfo now =
      { d with
        printThread_ := true
        aunlockCount_ := d.aunlockCount_ + 1
        holdContainer_ := d.holdContainer_.erase (key u tid) } := by
  rw [← Option.not_isNone, Bool.not_eq_true'] at hh
  simp only [Manager.afterUnlock, Manager.startPrintTmpDebugIfNeeded, Manager.errorIf, hw, hh,
    Bool.false_eq_true, if_false]

/-- No line has been printed, the counters count the events modulo `2 ^ 64`, and the sizes of the
books are the differences. -/
structure Counted (d : Manager) (seen : List (ℤ × M × Event)) : Prop where
  log : d.log = []
  before : d.bacquireCount_ = UInt64.ofNat (times .beforeAcquireLock seen)
  after : d.aacquireCount_ = UInt64.ofNat (times .afterAcquireLock seen)
  unlock : d.aunlockCount_ = UInt64.ofNat (times .afterUnlock seen)
  waits : times .beforeAcquireLock seen =
    times .afterAcquireLock seen + d.waitAcquireContainer_.size
  holds : times .afterAcquireLock seen = times .afterUnlock seen + d.holdContainer_.size

namespace Counted

variable (h : Counted d seen)
include h

lemma beforeAcquireLock (hw : (d.waitAcquireContainer_.get? (key u tid)).isSome = false)
    (hh : (d.holdContainer_.get? (key u tid)).isSome = false) :
    Counted (d.beforeAcquireLock u tid srcinfo now) (seen ++ [(tid, m, .beforeAcquireLock)]) := by
  rw [beforeAcquireLock_eq hw hh]
  have hsize := OrderedMap.size_insert (v := (⟨now 2, srcinfo⟩ : Item)) (by simpa using hw)
  have := h.waits
  constructor <;> simp only [times_snoc, h.log, h.before, h.after, h.unlock, hsize, reduceCtorEq,
    if_true, if_false, Nat.add_zero, UInt64.ofNat_add, UInt64.reduceOfNat]
  · omega
  · exact h.holds

lemma afterAcquireLock (hw : (d.waitAcquireContainer_.get? (key u tid)).isSome = true)
    (hh : (d.holdContainer_.get? (key u tid)).isSome = false) :
    Counted (d.afterAcquireLock u tid srcinfo now) (seen ++ [(tid, m, .afterAcquireLock)]) := by
  rw [afterAcquireLock_eq hw hh]
  have hsize := OrderedMap.size_insert (v := (⟨now 2, srcinfo⟩ : Item)) (by simpa using hh)
  have herase := OrderedMap.size_erase hw
  have := h.waits
  have := h.holds
  constructor <;> simp only [times_snoc, h.log, h.before, h.after, h.unlock, hsize, reduceCtorEq,
    if_true, if_false, Nat.add_zero, UInt64.ofNat_add, UInt64.reduceOfNat]
  · omega
  · omega

lemma afterUnlock (hw : (d.waitAcquireContainer_.get? (key u tid)).isSome = false)
    (hh : (d.holdContainer_.get? (key u tid)).isSome = true) :
    Counted (d.afterUnlock u tid srcinfo now) (seen ++ [(tid, m, .afterUnlock)]) := by
  rw [afterUnlock_eq hw hh]
  have herase := OrderedMap.size_erase hh
  have := h.holds
  constructor <;> simp only [times_snoc, h.log, h.before, h.after, h.unlock, reduceCtorEq,
    if_true, if_false, Nat.add_zero, UInt64.ofNat_add, UInt64.reduceOfNat]
  · exact h.waits
  · omega

lemma ordered (hlt : times .beforeAcquireLock seen < 2 ^ 64) :
    d.aunlockCount_ ≤ d.aacquireCount_ ∧ d.aacquireCount_ ≤ d.bacquireCount_ ∧
      d.bacquireCount_.toNat = d.aacquireCount_.toNat + d.waitAcquireContainer_.size ∧
      d.aacquireCount_.toNat = d.aunlockCount_.toNat + d.holdContainer_.size := by
  have hw := h.waits
  have hh := h.holds
  rw [UInt64.le_iff_toNat_le, UInt64.le_iff_toNat_le, h.before, h.after, h.unlock,
    UInt64.toNat_ofNat', UInt64.toNat_ofNat', UInt64.toNat_ofNat']
  omega

end Counted

end Manager

/-! ### Threads and mutexes -/

/-- Where a thread is with a mutex: whether the books have it as waiting and as holding, and
whether it is the owner. -/
structure Stage where
  waits : Bool
  holds : Bool
  owns : Bool

/-- No call of the thread is under way with the mutex. -/
def Settled (g : Stage) : Prop := g.waits = false ∧ g.holds = g.owns

/-- The mutex that the call of a thread is about, and the stage it has come to. -/
def during : Thread M → Option (M × Stage)
  | .idle => none
  | .beforeAcquire m _ => some (m, ⟨false, false, false⟩)
  | .coreLock m _ => some (m, ⟨true, false, false⟩)
  | .afterAcquire m _ => some (m, ⟨true, false, true⟩)
  | .coreUnlock m _ => some (m, ⟨false, true, true⟩)
  | .afterUnlock m _ => some (m, ⟨false, true, false⟩)

/-- The stage of a thread at `p` with the mutex `m` is `g`. -/
def Fits (p : Thread M) (m : M) (g : Stage) : Prop :=
  (∀ g', during p = some (m, g') → g = g') ∧ ((∀ g', during p ≠ some (m, g')) → Settled g)

/-- A thread at `p` is in no call about another mutex than `m`. -/
def About (p : Thread M) (m : M) : Prop := ∀ y ∈ during p, y.1 = m

variable {p p' : Thread M} {g g' : Stage}

lemma fits_other (hp : About p m) (hx : x ≠ m) : Fits p x g ↔ Settled g := by
  have hnone (g' : Stage) : during p ≠ some (x, g') := fun h => hx (hp _ h)
  exact ⟨fun h => h.2 hnone, fun h => ⟨fun g' h' => absurd h' (hnone g'), fun _ => h⟩⟩

lemma fits_self (h : during p = some (m, g)) : Fits p m g := by
  refine ⟨fun g' h' => ?_, fun h' => absurd h (h' g)⟩
  rw [h] at h'
  exact (Prod.mk.inj (Option.some.inj h')).2

lemma about_self (h : during p = some (m, g)) : About p m := by
  intro y hy
  rw [h] at hy
  exact (congrArg Prod.fst (Option.some.inj hy)).symm

lemma about_idle : About .idle m := fun _ h => by cases h

lemma Fits.eq (h : Fits p m g) (hp : during p = some (m, g')) : g = g' := h.1 g' hp

lemma fits_idle : Fits .idle m g ↔ Settled g :=
  ⟨fun h => h.2 (by simp [during]), fun h => ⟨by simp [during], fun _ => h⟩⟩

variable [DecidableEq M] {s s' : State M}

def stage (uk : M → Str) (s : State M) (tid : ℤ) (m : M) : Stage where
  waits := (s.dmm_.waitAcquireContainer_.get? (key (uk m) tid)).isSome
  holds := (s.dmm_.holdContainer_.get? (key (uk m) tid)).isSome
  owns := s.owns tid m

/-- One thread goes to another place, and its stage with one mutex changes. -/
structure Moves (uk : M → Str) (s s' : State M) (tid : ℤ) (m : M) (p : Thread M) (g : Stage) :
    Prop where
  thread : s'.thread = Function.update s.thread tid p
  stage : ∀ t x, stage uk s' t x = if t = tid ∧ x = m then g else stage uk s t x

/-- Every thread fits its place. -/
def AllFit (uk : M → Str) (s : State M) : Prop := ∀ t x, Fits (s.thread t) x (stage uk s t x)

lemma AllFit.moves (h : AllFit uk s) (hm : Moves uk s s' tid m p g)
    (ht : About (s.thread tid) m) (hp : About p m) (hg : Fits p m g) : AllFit uk s' := by
  intro t x
  rw [hm.thread, hm.stage]
  by_cases htid : t = tid
  · subst htid
    rw [Function.update_self]
    by_cases hx : x = m
    · subst hx
      rwa [if_pos ⟨rfl, rfl⟩]
    · rw [if_neg fun hc => hx hc.2, fits_other hp hx]
      exact (fits_other ht hx).mp (h t x)
  · rw [Function.update_of_ne htid, if_neg fun hc => htid hc.1]
    exact h t x

/-! ### The pieces of a call -/

section Pieces

variable {srcinfo : Str} {now : Fin 3 → UInt64} {b : Bool}

lemma moves_goto : Moves uk s (s.goto tid p) tid m p (stage uk s tid m) := by
  refine ⟨rfl, fun t x => ?_⟩
  split_ifs with h
  · obtain ⟨rfl, rfl⟩ := h
    rfl
  · rfl

lemma moves_books {d' : Manager} {w : Bool} {h : Bool}
    (hw : ∀ t x, (d'.waitAcquireContainer_.get? (key (uk x) t)).isSome =
      if t = tid ∧ x = m then w else (stage uk s t x).waits)
    (hh : ∀ t x, (d'.holdContainer_.get? (key (uk x) t)).isSome =
      if t = tid ∧ x = m then h else (stage uk s t x).holds) :
    Moves uk s ({ s with dmm_ := d' }.goto tid p) tid m p ⟨w, h, s.owns tid m⟩ := by
  refine ⟨rfl, fun t x => ?_⟩
  show Stage.mk _ _ (s.owns t x) = _
  rw [State.goto, hw, hh]
  split_ifs with hc
  · obtain ⟨rfl, rfl⟩ := hc
    rfl
  · rfl

lemma moves_beforeAcquireLock (huk : Function.Injective uk)
    (hg : stage uk s tid m = ⟨false, false, b⟩) :
    Moves uk s ({ s with dmm_ := s.dmm_.beforeAcquireLock (uk m) tid srcinfo now }.goto tid p)
      tid m p ⟨true, false, b⟩ := by
  obtain ⟨hw, hh, rfl⟩ := Stage.mk.inj hg
  rw [beforeAcquireLock_eq hw hh]
  refine moves_books (fun t x => ?_) fun t x => ?_
  · simp only [OrderedMap.get?_insert, key_eq_iff huk]
    split_ifs <;> rfl
  · split_ifs with hc
    · rw [hc.1, hc.2]
      exact hh
    · rfl

lemma moves_afterAcquireLock (huk : Function.Injective uk)
    (hg : stage uk s tid m = ⟨true, false, b⟩) :
    Moves uk s ({ s with dmm_ := s.dmm_.afterAcquireLock (uk m) tid srcinfo now }.goto tid p)
      tid m p ⟨false, true, b⟩ := by
  obtain ⟨hw, hh, rfl⟩ := Stage.mk.inj hg
  rw [afterAcquireLock_eq hw hh]
  refine moves_books (fun t x => ?_) fun t x => ?_
  · simp only [OrderedMap.get?_erase, key_eq_iff huk]
    split_ifs <;> rfl
  · simp only [OrderedMap.get?_insert, key_eq_iff huk]
    split_ifs <;> rfl

lemma moves_afterUnlock (huk : Function.Injective uk)
    (hg : stage uk s tid m = ⟨false, true, b⟩) :
    Moves uk s ({ s with dmm_ := s.dmm_.afterUnlock (uk m) tid srcinfo now }.goto tid p)
      tid m p ⟨false, false, b⟩ := by
  obtain ⟨hw, hh, rfl⟩ := Stage.mk.inj hg
  rw [afterUnlock_eq hw hh]
  refine moves_books (fun t x => ?_) fun t x => ?_
  · split_ifs with hc
    · rw [hc.1, hc.2]
      exact hw
    · rfl
  · simp only [OrderedMap.get?_erase, key_eq_iff huk]
    split_ifs <;> rfl

/-- A mutex is never locked more than once. -/
def Once (s : State M) : Prop := ∀ m tid n, s.core_ m = some (tid, n) → n = 1

lemma Once.update (h : Once s) {o : Option ℤ} :
    Once { s with core_ := Function.update s.core_ m (o.map fun tid => (tid, 1)) } := by
  intro x t n hx
  by_cases hm : x = m
  · subst hm
    simp only [Function.update_self, Option.map_eq_some_iff, Prod.mk.injEq] at hx
    obtain ⟨_, -, -, rfl⟩ := hx
    rfl
  · exact h x t n (by simpa [Function.update_of_ne hm] using hx)

/-- The owner of one mutex changes, from or to a thread. -/
lemma moves_core {o : Option ℤ} {w h b b' : Bool} (hg : stage uk s tid m = ⟨w, h, b⟩)
    (hb : o.any (· = tid) = b') (ho : ∀ t ≠ tid, t ∉ o ∧ s.owns t m = false) :
    Moves uk s
      ({ s with core_ := Function.update s.core_ m (o.map fun tid => (tid, 1)) }.goto tid p)
      tid m p ⟨w, h, b'⟩ := by
  obtain ⟨rfl, rfl, rfl⟩ := Stage.mk.inj hg
  refine ⟨rfl, fun t x => ?_⟩
  show Stage.mk _ _ ((Function.update s.core_ m _ x).any _) = _
  by_cases hx : x = m
  · subst hx
    rw [Function.update_self, Option.any_map]
    by_cases ht : t = tid
    · subst ht
      rw [if_pos ⟨rfl, rfl⟩, ← hb]
      rfl
    · obtain ⟨hto, hown⟩ := ho t ht
      have hany : o.any (· = t) = false := by
        cases o with
        | none => rfl
        | some i => exact decide_eq_false fun hi => hto (congrArg some hi)
      rw [if_neg fun hc => ht hc.1, stage, hown, ← hany]
      rfl
  · rw [Function.update_of_ne hx, if_neg fun hc => hx hc.2]
    rfl

lemma lockCore_some (hs : s.owns tid m = false) (h : s.lockCore tid m = some s') :
    s.core_ m = none ∧ s' = { s with core_ := Function.update s.core_ m (some (tid, 1)) } := by
  unfold State.lockCore at h
  cases hc : s.core_ m with
  | none =>
    rw [hc] at h
    exact ⟨rfl, (Option.some.inj h).symm⟩
  | some c =>
    rw [State.owns, hc] at hs
    simp only [hc, Option.any_some, decide_eq_false_iff_not] at h hs
    rw [if_neg hs] at h
    cases h

lemma unlockCore_some (h1 : Once s) (h : s.unlockCore tid m = some s') :
    s.core_ m = some (tid, 1) ∧ s' = { s with core_ := Function.update s.core_ m none } := by
  unfold State.unlockCore at h
  cases hc : s.core_ m with
  | none =>
    rw [hc] at h
    cases h
  | some c =>
    obtain ⟨o, n⟩ := c
    obtain rfl := h1 m o n hc
    simp only [hc, if_true] at h
    split_ifs at h with ho
    exact ⟨by rw [ho], (Option.some.inj h).symm⟩

end Pieces

/-! ### Runs -/

/-- The last event of a thread with a mutex. -/
def lastOf (tid : ℤ) (m : M) (seen : List (ℤ × M × Event)) : Option Event :=
  (seen.filter fun x => x.1 = tid ∧ x.2.1 = m).getLast?.map fun x => x.2.2

lemma lastOf_snoc : lastOf t x (seen ++ [(tid, m, e)]) =
    if t = tid ∧ x = m then some e else lastOf t x seen := by
  unfold lastOf
  rw [List.filter_append]
  by_cases h : t = tid ∧ x = m
  · obtain ⟨rfl, rfl⟩ := h
    simp
  · have hne : ¬ (tid = t ∧ m = x) := fun hc => h ⟨hc.1.symm, hc.2.symm⟩
    rw [if_neg h, List.filter_singleton, decide_eq_false hne]
    simp

/-- The books say what the last event of a thread with a mutex was. -/
def Booked (g : Stage) (last : Option Event) : Prop :=
  (g.waits = true ↔ last = some .beforeAcquireLock) ∧
    (g.holds = true ↔ last = some .afterAcquireLock)

/-- What is kept as long as the threads are disciplined. -/
structure Sound (uk : M → Str) (s : State M) (seen : List (ℤ × M × Event)) : Prop where
  fit : AllFit uk s
  once : Once s
  counted : Counted s.dmm_ seen
  booked : ∀ t x, Booked (stage uk s t x) (lastOf t x seen)

/-- No thread locks a mutex that it is the owner of, or unlocks one that it is not. -/
def Disciplined (s : State M) : Act M → Prop
  | .lock tid m _ => s.owns tid m = false
  | .unlock tid m _ => s.owns tid m = true
  | .piece _ _ => True

instance : DecidableRel (Disciplined (M := M))
  | _, .lock _ _ _ | _, .unlock _ _ _ => inferInstanceAs (Decidable (_ = _))
  | _, .piece _ _ => isTrue trivial

lemma booked_silent (h : ∀ t x, Booked (stage uk s t x) (lastOf t x seen))
    (hm : Moves uk s s' tid m p g) (hw : g.waits = (stage uk s tid m).waits)
    (hh : g.holds = (stage uk s tid m).holds) (t : ℤ) (x : M) :
    Booked (stage uk s' t x) (lastOf t x seen) := by
  rw [hm.stage]
  split_ifs with hc
  · rw [hc.1, hc.2, Booked, hw, hh]
    exact h tid m
  · exact h t x

lemma booked_told (h : ∀ t x, Booked (stage uk s t x) (lastOf t x seen))
    (hm : Moves uk s s' tid m p g) (hg : Booked g (some e)) (t : ℤ) (x : M) :
    Booked (stage uk s' t x) (lastOf t x (seen ++ [(tid, m, e)])) := by
  rw [hm.stage, lastOf_snoc]
  split_ifs with hc
  · exact hg
  · exact h t x

namespace Sound

lemma silent (h : Sound uk s seen) (hm : Moves uk s s' tid m p g) (ht : About (s.thread tid) m)
    (hp : during p = some (m, g)) (hw : g.waits = (stage uk s tid m).waits)
    (hh : g.holds = (stage uk s tid m).holds) (hd : s'.dmm_ = s.dmm_) (h1 : Once s') :
    Sound uk s' seen :=
  ⟨h.fit.moves hm ht (about_self hp) (fits_self hp), h1, hd ▸ h.counted,
    booked_silent h.booked hm hw hh⟩

lemma told (h : Sound uk s seen) (hm : Moves uk s s' tid m p g) (ht : About (s.thread tid) m)
    (hp : About p m) (hg : Fits p m g) (hb : Booked g (some e)) (h1 : Once s')
    (hc : Counted s'.dmm_ (seen ++ [(tid, m, e)])) : Sound uk s' (seen ++ [(tid, m, e)]) :=
  ⟨h.fit.moves hm ht hp hg, h1, hc, booked_told h.booked hm hb⟩

lemma goto (h : Sound uk s seen) (ht : s.thread tid = .idle)
    (hp : during p = some (m, stage uk s tid m)) : Sound uk (s.goto tid p) seen :=
  h.silent moves_goto (ht ▸ about_idle) hp rfl rfl rfl h.once

lemma stage_idle (h : Sound uk s seen) (ht : s.thread tid = .idle) {b : Bool}
    (hb : s.owns tid m = b) : stage uk s tid m = ⟨false, b, b⟩ := by
  obtain ⟨hw, hh⟩ : Settled (stage uk s tid m) := fits_idle.mp (ht ▸ h.fit tid m)
  have ho : (stage uk s tid m).owns = b := hb
  show Stage.mk (stage uk s tid m).waits (stage uk s tid m).holds (stage uk s tid m).owns = _
  rw [hw, hh, ho]

lemma piece (huk : Function.Injective uk) (h : Sound uk s seen) {now : Fin 3 → UInt64}
    (e : step uk s (.piece tid now) = some s') :
    Sound uk s' (seen ++ (event s (.piece tid now)).toList) := by
  simp only [step] at e
  cases ht : s.thread tid with
  | idle =>
    rw [ht] at e
    cases e
  | beforeAcquire m srcinfo =>
    have hd : during (s.thread tid) = some (m, ⟨false, false, false⟩) := by rw [ht]; rfl
    have hg := (h.fit tid m).eq hd
    obtain ⟨hw, hh, -⟩ := Stage.mk.inj hg
    have hp : during (.coreLock m srcinfo) = some (m, ⟨true, false, false⟩) := rfl
    simp only [event, ht, Option.toList_some]
    rw [ht] at e
    cases e
    exact h.told (moves_beforeAcquireLock huk hg) (about_self hd) (about_self hp) (fits_self hp)
      (by simp [Booked]) h.once (h.counted.beforeAcquireLock hw hh)
  | coreLock m srcinfo =>
    have hd : during (s.thread tid) = some (m, ⟨true, false, false⟩) := by rw [ht]; rfl
    have hg := (h.fit tid m).eq hd
    have hp : during (.afterAcquire m srcinfo) = some (m, ⟨true, false, true⟩) := rfl
    simp only [event, ht, Option.toList_none, List.append_nil]
    rw [ht] at e
    obtain ⟨s₁, e₁, rfl⟩ := Option.map_eq_some_iff.mp e
    obtain ⟨hc, rfl⟩ := lockCore_some (Stage.mk.inj hg).2.2 e₁
    refine h.silent (moves_core (o := some tid) hg (by simp) fun t ht => ⟨?_, ?_⟩) (about_self hd)
      hp (by rw [hg]) (by rw [hg]) rfl (h.once.update (o := some tid))
    · exact fun hi => ht (Option.some.inj hi).symm
    · rw [State.owns, hc]
      rfl
  | afterAcquire m srcinfo =>
    have hd : during (s.thread tid) = some (m, ⟨true, false, true⟩) := by rw [ht]; rfl
    have hg := (h.fit tid m).eq hd
    obtain ⟨hw, hh, -⟩ := Stage.mk.inj hg
    simp only [event, ht, Option.toList_some]
    rw [ht] at e
    cases e
    exact h.told (moves_afterAcquireLock huk hg) (about_self hd) about_idle
      (fits_idle.mpr ⟨rfl, rfl⟩) (by simp [Booked]) h.once (h.counted.afterAcquireLock hw hh)
  | coreUnlock m srcinfo =>
    have hd : during (s.thread tid) = some (m, ⟨false, true, true⟩) := by rw [ht]; rfl
    have hg := (h.fit tid m).eq hd
    have hp : during (.afterUnlock m srcinfo) = some (m, ⟨false, true, false⟩) := rfl
    simp only [event, ht, Option.toList_none, List.append_nil]
    rw [ht] at e
    obtain ⟨s₁, e₁, rfl⟩ := Option.map_eq_some_iff.mp e
    obtain ⟨hc, rfl⟩ := unlockCore_some h.once e₁
    refine h.silent (moves_core (o := none) hg rfl fun t ht => ⟨nofun, ?_⟩) (about_self hd)
      hp (by rw [hg]) (by rw [hg]) rfl (h.once.update (o := none))
    rw [State.owns, hc]
    exact decide_eq_false fun hi => ht hi.symm
  | afterUnlock m srcinfo =>
    have hd : during (s.thread tid) = some (m, ⟨false, true, false⟩) := by rw [ht]; rfl
    have hg := (h.fit tid m).eq hd
    obtain ⟨hw, hh, -⟩ := Stage.mk.inj hg
    simp only [event, ht, Option.toList_some]
    rw [ht] at e
    cases e
    exact h.told (moves_afterUnlock huk hg) (about_self hd) about_idle
      (fits_idle.mpr ⟨rfl, rfl⟩) (by simp [Booked]) h.once (h.counted.afterUnlock hw hh)

lemma step (huk : Function.Injective uk) (h : Sound uk s seen) {a : Act M}
    (hok : Disciplined s a) (e : step uk s a = some s') :
    Sound uk s' (seen ++ (event s a).toList) := by
  cases a with
  | lock tid m srcinfo =>
    cases ht : s.thread tid with
    | idle =>
      simp only [DebugMutexModel.step, ht] at e
      cases e
      simpa [event] using h.goto ht (by rw [h.stage_idle ht hok]; rfl)
    | _ => simp [DebugMutexModel.step, ht] at e
  | unlock tid m srcinfo =>
    cases ht : s.thread tid with
    | idle =>
      simp only [DebugMutexModel.step, ht] at e
      cases e
      simpa [event] using h.goto ht (by rw [h.stage_idle ht hok]; rfl)
    | _ => simp [DebugMutexModel.step, ht] at e
  | piece tid now => exact h.piece huk e

end Sound

lemma sound_init (uk : M → Str) : Sound uk init [] where
  fit _ _ := fits_idle.mpr ⟨rfl, rfl⟩
  once _ _ _ h := by cases h
  counted := ⟨rfl, rfl, rfl, rfl, rfl, rfl⟩
  booked _ _ := by simp [Booked, stage, init, lastOf, OrderedMap.empty, OrderedMap.get?, lookup]

def events (uk : M → Str) (acts : List (Act M)) : List (ℤ × M × Event) :=
  Runs.observe (step uk) event init acts

lemma run_sound (huk : Function.Injective uk) {acts : List (Act M)}
    (hok : Runs.Along (step uk) Disciplined init acts) (e : run uk acts = some s) :
    Sound uk s (events uk acts) := by
  show Sound uk s ([] ++ Runs.observe (step uk) event init acts)
  exact Runs.exec_observe (P := Sound uk) (fun _ _ _ _ h ha hs => h.step huk ha hs) (sound_init uk)
    hok e

/-- There has been no alarm, and the books and the counters say what has happened. -/
structure Accurate (uk : M → Str) (d : Manager) (seen : List (ℤ × M × Event)) : Prop where
  log : d.log = []
  holds : ∀ tid m, (d.holdContainer_.get? (key (uk m) tid)).isSome = true ↔
    lastOf tid m seen = some .afterAcquireLock
  waits : ∀ tid m, (d.waitAcquireContainer_.get? (key (uk m) tid)).isSome = true ↔
    lastOf tid m seen = some .beforeAcquireLock
  waiting : d.bacquireCount_ - d.aacquireCount_ = UInt64.ofNat d.waitAcquireContainer_.size
  holding : d.aacquireCount_ - d.aunlockCount_ = UInt64.ofNat d.holdContainer_.size
  ordered : times .beforeAcquireLock seen < 2 ^ 64 →
    d.aunlockCount_ ≤ d.aacquireCount_ ∧ d.aacquireCount_ ≤ d.bacquireCount_ ∧
      d.bacquireCount_.toNat = d.aacquireCount_.toNat + d.waitAcquireContainer_.size ∧
      d.aacquireCount_.toNat = d.aunlockCount_.toNat + d.holdContainer_.size

/-- **No false alarm.** However the pieces of the calls interleave, as long as no thread locks a
mutex that it holds or unlocks one that it does not hold, no line with `[ERROR]` is printed, the
books have a thread as holding and as waiting exactly between its calls of the manager, and the
differences of the counters are the sizes of the books, modulo `2 ^ 64`. -/
theorem no_false_alarm (huk : Function.Injective uk) {acts : List (Act M)}
    (hok : Runs.Along (step uk) Disciplined init acts) (e : run uk acts = some s) :
    Accurate uk s.dmm_ (events uk acts) := by
  have h := run_sound huk hok e
  have hc := h.counted
  refine ⟨hc.log, fun tid m => (h.booked tid m).2, fun tid m => (h.booked tid m).1, ?_, ?_,
    hc.ordered⟩
  · rw [hc.before, hc.after, hc.waits, UInt64.ofNat_add, UInt64.add_comm, UInt64.add_sub_cancel]
  · rw [hc.after, hc.unlock, hc.holds, UInt64.ofNat_add, UInt64.add_comm, UInt64.add_sub_cancel]

/-- A mutex is locked and unlocked. -/
def lockUnlock (tid : ℤ) (m : M) : List (Act M) :=
  [.lock tid m []] ++ List.replicate 3 (.piece tid fun _ => 0) ++ [.unlock tid m []] ++
    List.replicate 2 (.piece tid fun _ => 0)

/-- What the manager makes of that. -/
def told (u : Str) (tid : ℤ) (d : Manager) : Manager :=
  ((d.beforeAcquireLock u tid [] fun _ => 0).afterAcquireLock u tid [] fun _ => 0).afterUnlock
    u tid [] fun _ => 0

lemma exec_lockUnlock (ht : s.thread tid = .idle) (hc : s.core_ m = none) :
    Runs.exec (step uk) s (lockUnlock tid m) = some { s with dmm_ := told (uk m) tid s.dmm_ } := by
  simp [Runs.exec, lockUnlock, step, State.piece, State.goto, State.lockCore, State.unlockCore,
    List.replicate, ht, hc, told]

lemma along_lockUnlock (ht : s.thread tid = .idle) (hc : s.core_ m = none) :
    Runs.Along (step uk) Disciplined s (lockUnlock tid m) := by
  simp [Runs.Along, Disciplined, lockUnlock, step, State.piece, State.goto, State.lockCore,
    State.owns, List.replicate, ht, hc]

/-- The mutexes of a program. -/
def mutexes (second : Bool) : Str := lit (if second then "MUTEX2" else "MUTEX1").toList

lemma mutexes_injective : Function.Injective mutexes := by
  have hne : mutexes false ≠ mutexes true := by decide
  intro a b h
  cases a <;> cases b
  · rfl
  · exact absurd h hne
  · exact absurd h.symm hne
  · rfl

/-- Thread 2 waits for the mutex that thread 1 holds. Thread 1 locks the other one meanwhile, and
waits for it in its turn. -/
def contend : List (Act Bool) :=
  let go (tid : ℤ) : Act Bool := .piece tid fun _ => 0
  [.lock 1 false [], go 1, .lock 2 false [], go 2, go 1, go 1, .lock 1 true [], go 1, go 1, go 1,
    .unlock 1 false [], go 1, go 2, go 1, go 2, .lock 1 false [], go 1]

theorem no_false_alarm_two : ∃ s, run mutexes contend = some s ∧
    s.core_ false = some (2, 1) ∧ s.core_ true = some (1, 1) ∧
    Accurate mutexes s.dmm_ (events mutexes contend) := by
  have hok : Runs.Along (step mutexes) Disciplined init contend := by decide
  exact ⟨_, rfl, rfl, rfl, no_false_alarm mutexes_injective hok rfl⟩

/-! ### A run in which a counter wraps around -/

section Counts

variable (d : Manager) (u : Str) (tid : ℤ) (srcinfo : Str) (now : Fin 3 → UInt64)

@[simp] lemma errorIf_bacquireCount_ {met : Bool} {text : String} {time : UInt64} :
    (d.errorIf u tid srcinfo met text time).bacquireCount_ = d.bacquireCount_ := by
  unfold Manager.errorIf
  split_ifs <;> rfl

@[simp] lemma errorIf_aacquireCount_ {met : Bool} {text : String} {time : UInt64} :
    (d.errorIf u tid srcinfo met text time).aacquireCount_ = d.aacquireCount_ := by
  unfold Manager.errorIf
  split_ifs <;> rfl

lemma beforeAcquireLock_counts :
    (d.beforeAcquireLock u tid srcinfo now).bacquireCount_ = d.bacquireCount_ + 1 ∧
      (d.beforeAcquireLock u tid srcinfo now).aacquireCount_ = d.aacquireCount_ := by
  simp [Manager.beforeAcquireLock, Manager.startPrintTmpDebugIfNeeded]

lemma afterAcquireLock_counts :
    (d.afterAcquireLock u tid srcinfo now).bacquireCount_ = d.bacquireCount_ ∧
      (d.afterAcquireLock u tid srcinfo now).aacquireCount_ = d.aacquireCount_ + 1 := by
  simp [Manager.afterAcquireLock, Manager.startPrintTmpDebugIfNeeded]

lemma afterUnlock_counts :
    (d.afterUnlock u tid srcinfo now).bacquireCount_ = d.bacquireCount_ ∧
      (d.afterUnlock u tid srcinfo now).aacquireCount_ = d.aacquireCount_ := by
  simp [Manager.afterUnlock, Manager.startPrintTmpDebugIfNeeded]

end Counts

lemma exec_lockUnlocks (uk : M → Str) (ht : s.thread tid = .idle) (hc : s.core_ m = none) (n : ℕ) :
    Runs.exec (step uk) s (List.replicate n (lockUnlock tid m)).flatten =
        some { s with dmm_ := (told (uk m) tid)^[n] s.dmm_ } ∧
      Runs.Along (step uk) Disciplined s (List.replicate n (lockUnlock tid m)).flatten := by
  induction n generalizing s with
  | zero => exact ⟨rfl, trivial⟩
  | succ n ih =>
    have he : Runs.exec (step uk) s (lockUnlock tid m) = _ := exec_lockUnlock ht hc
    obtain ⟨he', ha'⟩ := ih (s := { s with dmm_ := told (uk m) tid s.dmm_ }) ht hc
    rw [List.replicate_succ, List.flatten_cons]
    refine ⟨?_, (along_lockUnlock ht hc).append he ha'⟩
    rw [Runs.exec_append, he, Option.bind_some, he', Function.iterate_succ_apply]

lemma told_counts (u : Str) (tid : ℤ) (d : Manager) :
    (told u tid d).bacquireCount_ = d.bacquireCount_ + 1 ∧
      (told u tid d).aacquireCount_ = d.aacquireCount_ + 1 := by
  constructor
  · rw [told, (afterUnlock_counts ..).1, (afterAcquireLock_counts ..).1,
      (beforeAcquireLock_counts ..).1]
  · rw [told, (afterUnlock_counts ..).2, (afterAcquireLock_counts ..).2,
      (beforeAcquireLock_counts ..).2]

lemma told_iterate_counts {u : Str} (tid : ℤ) (n : ℕ) (hb : d.bacquireCount_ = 0)
    (ha : d.aacquireCount_ = 0) :
    ((told u tid)^[n] d).bacquireCount_ = UInt64.ofNat n ∧
      ((told u tid)^[n] d).aacquireCount_ = UInt64.ofNat n := by
  induction n with
  | zero => exact ⟨hb, ha⟩
  | succ n ih =>
    rw [Function.iterate_succ_apply', (told_counts ..).1, (told_counts ..).2, ih.1, ih.2,
      UInt64.ofNat_add]
    exact ⟨rfl, rfl⟩

lemma exec_lock (uk : M → Str) (ht : s.thread tid = .idle) :
    Runs.exec (step uk) s [.lock tid m [], .piece tid fun _ => 0] =
      some (State.goto { s with dmm_ := s.dmm_.beforeAcquireLock (uk m) tid [] fun _ => 0 } tid
        (.coreLock m [])) := by
  simp [Runs.exec, step, State.piece, State.goto, ht]

/-- The one mutex of a program. -/
def mutex1 (_ : Unit) : Str := lit "MUTEX1".toList

/-- `bacquire_count_` wraps around where the mutex is locked for the `2 ^ 64`th time. -/
theorem counts_wrap : Function.Injective mutex1 ∧ ∃ acts s,
    Runs.Along (step mutex1) Disciplined init acts ∧ run mutex1 acts = some s ∧
      ¬ s.dmm_.aacquireCount_ ≤ s.dmm_.bacquireCount_ := by
  let s₀ : State Unit := init
  obtain ⟨he, ha⟩ := exec_lockUnlocks mutex1 (s := s₀) (rfl : s₀.thread 1 = .idle)
    (rfl : s₀.core_ () = none) (2 ^ 64 - 1)
  obtain ⟨hb, hc⟩ := told_iterate_counts (u := mutex1 ()) (d := s₀.dmm_) 1 (2 ^ 64 - 1) rfl rfl
  revert he hb hc
  generalize (told (mutex1 ()) 1)^[2 ^ 64 - 1] s₀.dmm_ = d
  intro he hb hc
  let s₁ : State Unit := { s₀ with dmm_ := d }
  let again : List (Act Unit) := [.lock 1 () [], .piece 1 fun _ => 0]
  have hok : Runs.Along (step mutex1) Disciplined s₁ again :=
    ⟨rfl, fun _ _ => ⟨trivial, fun _ _ => trivial⟩⟩
  obtain ⟨s₂, e₂, hd⟩ : ∃ s₂, Runs.exec (step mutex1) s₁ again = some s₂ ∧
      s₂.dmm_ = d.beforeAcquireLock (mutex1 ()) 1 [] fun _ => 0 := ⟨_, exec_lock mutex1 rfl, rfl⟩
  refine ⟨fun _ _ _ => rfl, _ ++ again, s₂, ha.append he hok, ?_, ?_⟩
  · rw [run, Runs.exec_append, he]
    exact e₂
  · rw [hd, (beforeAcquireLock_counts ..).1, (beforeAcquireLock_counts ..).2, hb, hc]
    decide

end Libchef.DebugMutexAlarm
