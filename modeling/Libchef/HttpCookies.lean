import Libchef.HttpModel

/-!
The loop over the cookies of a response.

A round either takes the cookie of an entry and goes on to the next one, or leaves everything as it
is. So the loop ends if and only if each entry has seven fields, and then it has kept every cookie.
-/

namespace Libchef.HttpCookies

open Libchef.StringsModel Libchef.Ordered Libchef.HttpModel

variable {entry : Str} {entries : List Str} {cookies : OrderedMap Str ResponseCookie}

/-- The cookie of the last entry with this name. -/
def lastCookie (entries : List Str) (name : Str) : Option ResponseCookie :=
  (entries.filterMap cookieOf).reverse.find? fun rc => rc.name_ = name

/-- What the loop is for: it goes through the entries one by one and ends, and keeps of each name
the last cookie; a name without one keeps what it had. -/
structure Settles (entries : List Str) (cookies : OrderedMap Str ResponseCookie) : Prop where
  visits : ∀ i ≤ entries.length,
    (cookieRounds i ⟨entries, cookies⟩).map LoopState.csCookiesDup = some (entries.drop i)
  ends : ∃ fuel res, cookieLoop fuel ⟨entries, cookies⟩ = some res ∧
    ∀ name, res.get? name = (lastCookie entries name).or (cookies.get? name)

lemma cookieOf_isSome : (cookieOf entry).isSome ↔ (cookieAttrs entry).length = 7 := by
  unfold cookieOf
  constructor
  · intro h
    split at h
    · next he => rw [he]; rfl
    · cases h
  · intro h
    obtain ⟨a, b, c, d, e, f, g, he⟩ :
        ∃ a b c d e f g, cookieAttrs entry = [a, b, c, d, e, f, g] := by
      match cookieAttrs entry, h with
      | [a, b, c, d, e, f, g], _ => exact ⟨a, b, c, d, e, f, g, rfl⟩
    rw [he]
    rfl

/-! ### A round -/

lemma cookieRound_some {rc : ResponseCookie} (h : cookieOf entry = some rc) :
    cookieRound ⟨entry :: entries, cookies⟩ = some ⟨entries, cookies.insert rc.name_ rc⟩ := by
  simp only [cookieRound, h]

lemma cookieRound_none (h : cookieOf entry = none) :
    cookieRound ⟨entry :: entries, cookies⟩ = some ⟨entry :: entries, cookies⟩ := by
  simp only [cookieRound, h]

lemma cookieLoop_stuck {st : LoopState} (h : cookieRound st = some st) (fuel : ℕ) :
    cookieLoop fuel st = none := by
  induction fuel with
  | zero => rfl
  | succ fuel ih => rw [cookieLoop, h]; exact ih

lemma cookieRounds_succ (n : ℕ) (st : LoopState) :
    cookieRounds (n + 1) st = (cookieRound st).bind (cookieRounds n) := by
  induction n with
  | zero =>
    rw [cookieRounds, cookieRounds, Option.bind_some]
    cases cookieRound st <;> rfl
  | succ n ih => rw [cookieRounds, ih, Option.bind_assoc]; rfl

/-! ### All rounds -/

lemma lastCookie_cons {rc : ResponseCookie} (h : cookieOf entry = some rc) (name : Str) :
    lastCookie (entry :: entries) name =
      (lastCookie entries name).or (if rc.name_ = name then some rc else none) := by
  unfold lastCookie
  rw [List.filterMap_cons_some h, List.reverse_cons, List.find?_append]
  by_cases hn : rc.name_ = name <;> simp [hn]

/-- An entry that is not a cookie is never passed. -/
lemma attrs_of_ends {fuel : ℕ} {res : OrderedMap Str ResponseCookie}
    (h : cookieLoop fuel ⟨entries, cookies⟩ = some res) :
    ∀ entry ∈ entries, (cookieAttrs entry).length = 7 := by
  induction entries generalizing fuel cookies with
  | nil => simp
  | cons entry entries ih =>
    cases fuel with
    | zero => cases h
    | succ fuel =>
      cases hc : cookieOf entry with
      | none =>
        rw [cookieLoop_stuck (cookieRound_none hc)] at h
        cases h
      | some rc =>
        rw [cookieLoop, cookieRound_some hc] at h
        exact List.forall_mem_cons.mpr ⟨cookieOf_isSome.mp (by rw [hc]; rfl), ih h⟩

lemma settles_of_attrs (h : ∀ entry ∈ entries, (cookieAttrs entry).length = 7)
    (cookies : OrderedMap Str ResponseCookie) : Settles entries cookies := by
  induction entries generalizing cookies with
  | nil =>
    refine ⟨fun i hi => ?_, 1, cookies, rfl, fun name => rfl⟩
    obtain rfl := Nat.le_zero.mp hi
    rfl
  | cons entry entries ih =>
    obtain ⟨hentry, hrest⟩ := List.forall_mem_cons.mp h
    obtain ⟨rc, hc⟩ := Option.isSome_iff_exists.mp (cookieOf_isSome.mpr hentry)
    obtain ⟨hvisits, fuel, res, hloop, hres⟩ := ih hrest (cookies.insert rc.name_ rc)
    refine ⟨fun i hi => ?_, fuel + 1, res, ?_, fun name => ?_⟩
    · cases i with
      | zero => rfl
      | succ i =>
        rw [cookieRounds_succ, cookieRound_some hc]
        exact hvisits i (Nat.le_of_succ_le_succ hi)
    · rw [cookieLoop, cookieRound_some hc]
      exact hloop
    · rw [hres, lastCookie_cons hc, OrderedMap.get?_insert]
      by_cases hn : rc.name_ = name
      · rw [if_pos hn, if_pos hn.symm]
        cases lastCookie entries name <;> rfl
      · rw [if_neg hn, if_neg (Ne.symm hn), Option.or_none]

/-- **The loop over the cookies ends, and keeps them, exactly if each entry has seven fields.** -/
theorem cookies_settle_iff (entries : List Str) (cookies : OrderedMap Str ResponseCookie) :
    Settles entries cookies ↔ ∀ entry ∈ entries, (cookieAttrs entry).length = 7 := by
  constructor
  · intro h
    obtain ⟨fuel, res, hloop, -⟩ := h.ends
    exact attrs_of_ends hloop
  · exact fun h => settles_of_attrs h cookies

/-- A cookie whose value has a blank. -/
def blankValue : Str :=
  lit ['h', '\t', 'T', 'R', 'U', 'E', '\t', '/', '\t', 'T', 'R', 'U', 'E', '\t', '0', '\t',
    'n', '\t', 'a', ' ', 'b']

/-- It has eight fields, so that the loop does not get past it. -/
theorem cookies_blank_value :
    (∀ fuel, cookieLoop fuel ⟨[blankValue], .empty⟩ = none) ∧ ¬ Settles [blankValue] .empty := by
  have hseven : ¬ (cookieAttrs blankValue).length = 7 := by decide +kernel
  have hnone (fuel : ℕ) : cookieLoop fuel ⟨[blankValue], .empty⟩ = none :=
    Option.eq_none_iff_forall_ne_some.mpr fun res hloop =>
      hseven (attrs_of_ends hloop _ (List.mem_singleton_self _))
  refine ⟨hnone, fun h => ?_⟩
  obtain ⟨fuel, res, hloop, -⟩ := h.ends
  rw [hnone] at hloop
  cases hloop

end Libchef.HttpCookies
