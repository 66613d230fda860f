import Mathlib.Data.Finset.Card
import Mathlib.Data.List.Basic
import Mathlib.Data.List.Lex
import Mathlib.Data.List.Nodup
import Mathlib.Algebra.Order.Ring.Nat

/-!
Ordered maps as lists of bindings with strictly ascending keys.

The first part is about lists ascending by a key of their elements, whatever the elements
are: such a list is its elements below a key followed by the others, and a key singles out
at most one element. The second part is the ordered map itself, a list of bindings that
carries the proof that it is ascending.
-/

namespace Libchef.Ordered

variable {α K V : Type*} [LinearOrder K]

/-! ### Lists ascending by a key -/

section Ascending

variable {key : α → K} {l l₁ l₂ : List α} {k : K}

/-- The keys of the elements are strictly ascending. -/
def Asc (key : α → K) (l : List α) : Prop := l.Pairwise fun a b => key a < key b

/-- The elements with a key below `k`. -/
def below (key : α → K) (k : K) (l : List α) : List α := l.filter fun a => key a < k

/-- The elements with a key not below `k`. -/
def atLeast (key : α → K) (k : K) (l : List α) : List α := l.filter fun a => k ≤ key a

@[simp] lemma asc_nil : Asc key [] := List.Pairwise.nil

lemma asc_cons {a : α} : Asc key (a :: l) ↔ (∀ b ∈ l, key a < key b) ∧ Asc key l :=
  List.pairwise_cons

lemma asc_append : Asc key (l₁ ++ l₂) ↔
    Asc key l₁ ∧ Asc key l₂ ∧ ∀ a ∈ l₁, ∀ b ∈ l₂, key a < key b :=
  List.pairwise_append

lemma Asc.sublist (h : Asc key l₂) (hs : List.Sublist l₁ l₂) : Asc key l₁ :=
  List.Pairwise.sublist hs h

lemma Asc.filter (h : Asc key l) (p : α → Bool) : Asc key (l.filter p) :=
  h.sublist List.filter_sublist

lemma Asc.nodup (h : Asc key l) : l.Nodup :=
  List.Pairwise.imp (fun hlt he => absurd hlt (by rw [he]; exact lt_irrefl _)) h

lemma Asc.lt_of_getLast (h : Asc key l) (hk : ∀ a ∈ l.getLast?, key a < k) :
    ∀ a ∈ l, key a < k := by
  intro a ha
  rcases List.eq_nil_or_concat l with rfl | ⟨l₀, b, rfl⟩
  · simp at ha
  · have hb : key b < k := hk b (by simp)
    rw [List.concat_eq_append] at h ha
    rcases List.mem_append.mp ha with hm | hm
    · exact ((asc_append.mp h).2.2 a hm b (by simp)).trans hb
    · rw [List.mem_singleton.mp hm]
      exact hb

lemma Asc.lt_of_head (h : Asc key l) (hk : ∀ a ∈ l.head?, k < key a) : ∀ a ∈ l, k < key a := by
  intro a ha
  cases l with
  | nil => simp at ha
  | cons b l =>
    have hb : k < key b := hk b (by simp)
    rcases List.mem_cons.mp ha with rfl | hm
    · exact hb
    · exact hb.trans ((asc_cons.mp h).1 a hm)

lemma Asc.eq_of_key (h : Asc key l) {a b : α} (ha : a ∈ l) (hb : b ∈ l)
    (hk : key a = key b) : a = b := by
  induction l with
  | nil => simp at ha
  | cons c l ih =>
    obtain ⟨hc, hl⟩ := asc_cons.mp h
    rcases List.mem_cons.mp ha with rfl | ha' <;> rcases List.mem_cons.mp hb with rfl | hb'
    · rfl
    · exact absurd hk (ne_of_lt (hc b hb'))
    · exact absurd hk.symm (ne_of_lt (hc a ha'))
    · exact ih hl ha' hb'

@[simp] lemma mem_below {a : α} : a ∈ below key k l ↔ a ∈ l ∧ key a < k := by simp [below]
@[simp] lemma mem_atLeast {a : α} : a ∈ atLeast key k l ↔ a ∈ l ∧ k ≤ key a := by
  simp [atLeast]

lemma below_of_lt (h : ∀ a ∈ l, key a < k) : below key k l = l :=
  List.filter_eq_self.mpr fun a ha => by simpa using h a ha

lemma below_of_le (h : ∀ a ∈ l, k ≤ key a) : below key k l = [] :=
  List.filter_eq_nil_iff.mpr fun a ha => by simpa using h a ha

lemma atLeast_of_le (h : ∀ a ∈ l, k ≤ key a) : atLeast key k l = l :=
  List.filter_eq_self.mpr fun a ha => by simpa using h a ha

lemma atLeast_of_lt (h : ∀ a ∈ l, key a < k) : atLeast key k l = [] :=
  List.filter_eq_nil_iff.mpr fun a ha => by simpa using h a ha

lemma below_append : below key k (l₁ ++ l₂) = below key k l₁ ++ below key k l₂ :=
  List.filter_append ..

lemma atLeast_append : atLeast key k (l₁ ++ l₂) = atLeast key k l₁ ++ atLeast key k l₂ :=
  List.filter_append ..

lemma Asc.split (h : Asc key l) (k : K) : below key k l ++ atLeast key k l = l := by
  induction l with
  | nil => rfl
  | cons a l ih =>
    obtain ⟨ha, hl⟩ := asc_cons.mp h
    by_cases hk : key a < k
    · simp only [below, atLeast, List.filter_cons, hk, not_le.mpr hk, decide_true,
        decide_false, if_true, Bool.false_eq_true, if_false, List.cons_append] at ih ⊢
      rw [ih hl]
    · have hle : ∀ b ∈ a :: l, k ≤ key b := by
        intro b hb
        rcases List.mem_cons.mp hb with rfl | hb
        · exact not_lt.mp hk
        · exact (not_lt.mp hk).trans (ha b hb).le
      rw [below_of_le hle, atLeast_of_le hle, List.nil_append]

lemma Asc.insert (h : Asc key l) {a : α} (ha : ∀ b ∈ l, key b ≠ key a) :
    Asc key (below key (key a) l ++ a :: atLeast key (key a) l) := by
  have hasc := h
  rw [← h.split (key a)] at hasc
  obtain ⟨h1, h2, h3⟩ := asc_append.mp hasc
  refine asc_append.mpr ⟨h1, asc_cons.mpr ⟨fun b hb => ?_, h2⟩, fun c hc b hb => ?_⟩
  · obtain ⟨hb, hle⟩ := mem_atLeast.mp hb
    exact lt_of_le_of_ne hle (ha b hb).symm
  · rcases List.mem_cons.mp hb with rfl | hb
    · exact (mem_below.mp hc).2
    · exact h3 c hc b hb

/-- Where the elements of a first part are below `k` and the others are not, the first part
is what lies below `k`. -/
lemma below_eq_left (h₁ : ∀ a ∈ l₁, key a < k) (h₂ : ∀ a ∈ l₂, k ≤ key a) :
    below key k (l₁ ++ l₂) = l₁ := by
  rw [below_append, below_of_lt h₁, below_of_le h₂, List.append_nil]

lemma atLeast_eq_right (h₁ : ∀ a ∈ l₁, key a < k) (h₂ : ∀ a ∈ l₂, k ≤ key a) :
    atLeast key k (l₁ ++ l₂) = l₂ := by
  rw [atLeast_append, atLeast_of_lt h₁, atLeast_of_le h₂, List.nil_append]

lemma Asc.getLast?_below (h : Asc key l) {a : α} (ha : a ∈ l) (hk : key a < k)
    (hmax : ∀ b ∈ l, key b < k → key b ≤ key a) : (below key k l).getLast? = some a := by
  have hmem : a ∈ below key k l := mem_below.mpr ⟨ha, hk⟩
  rcases List.eq_nil_or_concat (below key k l) with hnil | ⟨l', b, hl⟩
  · simp [hnil] at hmem
  · have hb : b ∈ below key k l := by simp [hl]
    have hasc : Asc key (below key k l) := h.filter _
    rw [hl, List.concat_eq_append] at hasc hmem ⊢
    rw [List.getLast?_concat]
    rcases List.mem_append.mp hmem with hm | hm
    · have hlt := (asc_append.mp hasc).2.2 a hm b (by simp)
      exact absurd hlt (not_lt.mpr (hmax b (mem_below.mp hb).1 (mem_below.mp hb).2))
    · rw [List.mem_singleton.mp hm]

lemma Asc.atLeast_eq_cons (h : Asc key l) {a : α} (ha : a ∈ l) :
    ∃ r, atLeast key (key a) l = a :: r ∧ ∀ b ∈ r, key a < key b := by
  obtain ⟨l₁, l₂, rfl⟩ := List.append_of_mem ha
  obtain ⟨-, h₂, h₁₂⟩ := asc_append.mp h
  obtain ⟨ha₂, -⟩ := asc_cons.mp h₂
  refine ⟨l₂, atLeast_eq_right (fun b hb => h₁₂ b hb a (by simp)) fun b hb => ?_, ha₂⟩
  rcases List.mem_cons.mp hb with rfl | hb
  · exact le_rfl
  · exact (ha₂ b hb).le

end Ascending

/-! ### Ordered maps -/

/-- An ordered map: bindings in strictly ascending key order. -/
@[ext]
structure OrderedMap (K V : Type*) [LinearOrder K] where
  entries : List (K × V)
  asc : Asc Prod.fst entries

/-- Binds `k` to `f` of what it is bound to, in place. -/
def upsert (f : Option V → V) (k : K) : List (K × V) → List (K × V)
  | [] => [(k, f none)]
  | e :: l =>
    if k < e.1 then (k, f none) :: e :: l
    else if e.1 < k then e :: upsert f k l
    else (k, f (some e.2)) :: l

lemma mem_upsert_key {f : Option V → V} {k : K} {l : List (K × V)} {x : K} :
    (∃ e ∈ upsert f k l, e.1 = x) ↔ x = k ∨ ∃ e ∈ l, e.1 = x := by
  induction l with
  | nil => simp [upsert, eq_comm]
  | cons e l ih =>
    simp only [upsert]
    split_ifs with h1 h2
    · simp only [List.mem_cons, exists_eq_or_imp]; tauto
    · simp only [List.mem_cons, exists_eq_or_imp, ih]; tauto
    · have he : e.1 = k := le_antisymm (not_lt.mp h1) (not_lt.mp h2)
      simp only [List.mem_cons, exists_eq_or_imp, he]
      tauto

lemma asc_upsert {f : Option V → V} {k : K} {l : List (K × V)} (h : Asc Prod.fst l) :
    Asc Prod.fst (upsert f k l) := by
  induction l with
  | nil => simp [upsert, Asc]
  | cons e l ih =>
    obtain ⟨he, hl⟩ := asc_cons.mp h
    simp only [upsert]
    split_ifs with h1 h2
    · refine asc_cons.mpr ⟨fun b hb => ?_, h⟩
      rcases List.mem_cons.mp hb with rfl | hb
      · exact h1
      · exact h1.trans (he b hb)
    · refine asc_cons.mpr ⟨fun b hb => ?_, ih hl⟩
      rcases mem_upsert_key.mp ⟨b, hb, rfl⟩ with hbk | ⟨c, hc, hcb⟩
      · rw [hbk]; exact h2
      · rw [← hcb]; exact he c hc
    · have hek : e.1 = k := le_antisymm (not_lt.mp h1) (not_lt.mp h2)
      exact asc_cons.mpr ⟨fun b hb => by simpa [hek] using he b hb, hl⟩

lemma upsert_between {f : Option V → V} {k : K} {l₁ l₂ : List (K × V)}
    (h₁ : ∀ e ∈ l₁, e.1 < k) (h₂ : ∀ e ∈ l₂, k < e.1) :
    upsert f k (l₁ ++ l₂) = l₁ ++ (k, f none) :: l₂ := by
  induction l₁ with
  | nil =>
    cases l₂ with
    | nil => rfl
    | cons e l => simp [upsert, h₂ e (by simp)]
  | cons e l ih =>
    have he : e.1 < k := h₁ e (by simp)
    simp only [List.cons_append, upsert, he, he.not_gt, if_true, if_false]
    rw [ih fun e' h' => h₁ e' (by simp [h'])]

lemma upsert_hit {f : Option V → V} {k : K} {v : V} {l₁ l₂ : List (K × V)}
    (h₁ : ∀ e ∈ l₁, e.1 < k) :
    upsert f k (l₁ ++ (k, v) :: l₂) = l₁ ++ (k, f (some v)) :: l₂ := by
  induction l₁ with
  | nil => simp [upsert]
  | cons e l ih =>
    have he : e.1 < k := h₁ e (by simp)
    simp only [List.cons_append, upsert, he, he.not_gt, if_true, if_false]
    rw [ih fun e' h' => h₁ e' (by simp [h'])]

/-- The value a list binds to `k`. -/
def lookup (k : K) (l : List (K × V)) : Option V := (l.find? fun e => e.1 = k).map Prod.snd

lemma lookup_cons {k : K} {e : K × V} {l : List (K × V)} :
    lookup k (e :: l) = if e.1 = k then some e.2 else lookup k l := by
  by_cases h : e.1 = k <;> simp [lookup, h]

lemma lookup_eq_none {k : K} {l : List (K × V)} (h : ∀ e ∈ l, e.1 ≠ k) : lookup k l = none := by
  rw [lookup, List.find?_eq_none.mpr (by simpa using h)]
  rfl

lemma lookup_eq_some {k : K} {v : V} {l : List (K × V)} (h : Asc Prod.fst l) :
    lookup k l = some v ↔ (k, v) ∈ l := by
  induction l with
  | nil => simp [lookup]
  | cons e l ih =>
    obtain ⟨he, hl⟩ := asc_cons.mp h
    rw [lookup_cons, List.mem_cons]
    split_ifs with hk
    · subst hk
      refine ⟨fun hv => Or.inl (Prod.ext rfl (Option.some.inj hv).symm), fun hv => ?_⟩
      rcases hv with hv | hv
      · rw [← hv]
      · exact absurd (he _ hv) (lt_irrefl _)
    · rw [ih hl, or_iff_right fun hv => hk (congrArg Prod.fst hv).symm]

lemma lookup_upsert {f : Option V → V} {k x : K} {l : List (K × V)} (h : Asc Prod.fst l) :
    lookup x (upsert f k l) = if x = k then some (f (lookup k l)) else lookup x l := by
  induction l with
  | nil => simp [upsert, eq_comm, lookup]
  | cons e l ih =>
    obtain ⟨he, hl⟩ := asc_cons.mp h
    rw [upsert]
    by_cases h1 : k < e.1
    · have hnone : lookup k (e :: l) = none := lookup_eq_none fun e' h' => by
        rcases List.mem_cons.mp h' with rfl | h'
        · exact ne_of_gt h1
        · exact ne_of_gt (h1.trans (he e' h'))
      rw [if_pos h1, lookup_cons, hnone]
      simp only [eq_comm]
    by_cases h2 : e.1 < k
    · rw [if_neg h1, if_pos h2, lookup_cons, ih hl, lookup_cons, lookup_cons, if_neg h2.ne]
      by_cases hx : x = k
      · rw [if_pos hx, if_pos hx, if_neg (by rw [hx]; exact h2.ne)]
      · rw [if_neg hx, if_neg hx]
    · have hek : e.1 = k := le_antisymm (not_lt.mp h1) (not_lt.mp h2)
      rw [if_neg h1, if_neg h2, lookup_cons, lookup_cons, lookup_cons, hek, if_pos rfl]
      by_cases hx : x = k
      · rw [if_pos hx, if_pos hx.symm]
      · rw [if_neg hx, if_neg (Ne.symm hx), if_neg (Ne.symm hx)]

lemma sum_upsert {M : Type*} [AddCommMonoid M] {f : Option M → M} {k : K} {l : List (K × M)}
    (h : Asc Prod.fst l) :
    ((upsert f k l).map Prod.snd).sum + (lookup k l).getD 0 =
      (l.map Prod.snd).sum + f (lookup k l) := by
  induction l with
  | nil => simp [upsert, lookup]
  | cons e l ih =>
    obtain ⟨he, hl⟩ := asc_cons.mp h
    rw [upsert]
    by_cases h1 : k < e.1
    · have hnone : lookup k (e :: l) = none := lookup_eq_none fun e' h' => by
        rcases List.mem_cons.mp h' with rfl | h'
        · exact ne_of_gt h1
        · exact ne_of_gt (h1.trans (he e' h'))
      simp only [if_pos h1, hnone, List.map_cons, List.sum_cons, Option.getD_none]
      rw [add_zero, add_comm]
    by_cases h2 : e.1 < k
    · have := ih hl
      simp only [if_neg h1, if_pos h2, lookup_cons, if_neg h2.ne, List.map_cons, List.sum_cons]
      rw [add_assoc, this, add_assoc]
    · have hek : e.1 = k := le_antisymm (not_lt.mp h1) (not_lt.mp h2)
      simp only [if_neg h1, if_neg h2, lookup_cons, if_pos hek, List.map_cons, List.sum_cons,
        Option.getD_some]
      rw [add_right_comm, add_comm, add_comm (f _), add_assoc, add_comm (l.map _).sum,
        ← add_assoc, add_right_comm]

namespace OrderedMap

variable (m : OrderedMap K V) (k : K)

def empty : OrderedMap K V := ⟨[], asc_nil⟩

def size : ℕ := m.entries.length

def keys : List K := m.entries.map Prod.fst

/-- The value bound to `k`. -/
def get? : Option V := lookup k m.entries

/-- Binds `k` to `f` of what it is bound to. -/
def alter (f : Option V → V) : OrderedMap K V := ⟨upsert f k m.entries, asc_upsert m.asc⟩

/-- Binds `k` to `v`, whatever it was bound to. -/
def insert (v : V) : OrderedMap K V := m.alter k fun _ => v

/-- Binds `k` to `v` unless it is bound. -/
def insertNew (v : V) : OrderedMap K V := m.alter k fun o => o.getD v

/-- The same keys with other values. -/
def mapVals {W : Type*} (f : K → V → W) : OrderedMap K W :=
  ⟨m.entries.map fun e => (e.1, f e.1 e.2), List.pairwise_map.mpr (m.asc.imp id)⟩

/-- Keeps the bindings that satisfy `p`. -/
def filter (p : K × V → Bool) : OrderedMap K V := ⟨m.entries.filter p, m.asc.filter p⟩

/-- Removes the binding of `k`. -/
def erase : OrderedMap K V := m.filter fun e => e.1 ≠ k

/-- Removes the bindings from position `i` up to position `j`. -/
def eraseRange (i j : ℕ) : OrderedMap K V :=
  ⟨m.entries.take i ++ m.entries.drop (max i j), m.asc.sublist (by
    conv_rhs => rw [← List.take_append_drop i m.entries]
    exact (List.Sublist.refl _).append (List.drop_sublist_drop_left _ (le_max_left i j)))⟩

/-- The number of bindings with a key below `k`: the position of the first that is not. -/
def lowerRank : ℕ := m.entries.countP fun e => e.1 < k

/-- The number of bindings with a key up to `k`: the position of the first above it. -/
def upperRank : ℕ := m.entries.countP fun e => e.1 ≤ k

/-- The position of the binding of `k`, the size if there is none. -/
def findRank : ℕ := if (m.get? k).isNone then m.size else m.lowerRank k

variable {m k}

lemma get?_eq_some {v : V} : m.get? k = some v ↔ (k, v) ∈ m.entries := lookup_eq_some m.asc

@[simp] lemma get?_alter {f : Option V → V} {x : K} :
    (m.alter k f).get? x = if x = k then some (f (m.get? k)) else m.get? x :=
  lookup_upsert m.asc

@[simp] lemma get?_insert {v : V} {x : K} :
    (m.insert k v).get? x = if x = k then some v else m.get? x :=
  get?_alter

@[simp] lemma get?_erase {x : K} : (m.erase k).get? x = if x = k then none else m.get? x := by
  refine Option.ext fun v => ?_
  rw [get?_eq_some]
  show (x, v) ∈ m.entries.filter _ ↔ _
  by_cases hx : x = k
  · simp [hx]
  · simp [hx, get?_eq_some]

@[simp] lemma get?_mapVals {W : Type*} {f : K → V → W} :
    (m.mapVals f).get? k = (m.get? k).map (f k) := by
  obtain ⟨l, h⟩ := m
  show lookup k (l.map _) = (lookup k l).map (f k)
  clear h
  induction l with
  | nil => rfl
  | cons e l ih =>
    rw [List.map_cons, lookup_cons, lookup_cons, ih]
    by_cases hk : e.1 = k <;> simp [hk]

lemma mem_keys : k ∈ m.keys ↔ (m.get? k).isSome := by
  simp only [keys, List.mem_map, Prod.exists, Option.isSome_iff_exists, get?_eq_some]
  exact ⟨fun ⟨_, v, h, e⟩ => ⟨v, e ▸ h⟩, fun ⟨v, h⟩ => ⟨k, v, h, rfl⟩⟩

lemma nodup_keys : m.keys.Nodup := List.pairwise_map.mpr (m.asc.imp fun h => h.ne)

lemma card_keys : m.keys.toFinset.card = m.size := by
  rw [List.toFinset_card_of_nodup m.nodup_keys, keys, List.length_map, size]

lemma size_insert {v : V} (h : m.get? k = none) : (m.insert k v).size = m.size + 1 := by
  have hnew : k ∉ m.keys.toFinset := by simp [mem_keys, h]
  have hkeys : (m.insert k v).keys.toFinset = m.keys.toFinset.cons k hnew := by
    ext x
    by_cases hx : x = k <;> simp [mem_keys, hx]
  rw [← card_keys, hkeys, Finset.card_cons, card_keys]

lemma size_erase (h : (m.get? k).isSome) : (m.erase k).size + 1 = m.size := by
  have hold : k ∈ m.keys.toFinset := by simpa [mem_keys] using h
  have hkeys : (m.erase k).keys.toFinset = m.keys.toFinset.erase k := by
    ext x
    by_cases hx : x = k <;> simp [mem_keys, hx]
  rw [← card_keys, hkeys, Finset.card_erase_add_one hold, card_keys]

lemma ext_get? {m' : OrderedMap K V} (h : ∀ k, m.get? k = m'.get? k) : m = m' := by
  refine OrderedMap.ext (List.Perm.eq_of_pairwise
    (fun a b _ _ (hab : a.1 < b.1) hba => absurd hab (not_lt_of_gt hba)) m.asc m'.asc ?_)
  refine (List.perm_ext_iff_of_nodup m.asc.nodup m'.asc.nodup).mpr fun e => ?_
  rw [← get?_eq_some, ← get?_eq_some, h]

lemma get?_foldl_insert {l : List (K × V)} (hl : Asc Prod.fst l) (m : OrderedMap K V) (k : K) :
    (l.foldl (fun ret e => ret.insert e.1 e.2) m).get? k = (lookup k l).or (m.get? k) := by
  induction l generalizing m with
  | nil => rfl
  | cons e l ih =>
    obtain ⟨hlt, hrest⟩ := asc_cons.mp hl
    rw [List.foldl_cons, ih hrest, get?_insert, lookup_cons]
    by_cases he : e.1 = k
    · rw [if_pos he, if_pos he.symm, lookup_eq_none fun e' he' => (he ▸ hlt e' he').ne']
      rfl
    · rw [if_neg he, if_neg (Ne.symm he)]

lemma foldl_insert_entries (m : OrderedMap K V) :
    m.entries.foldl (fun ret e => ret.insert e.1 e.2) .empty = m :=
  ext_get? fun k => by
    rw [get?_foldl_insert m.asc]
    exact Option.or_none

end OrderedMap

/-- Bytes are ordered as the numbers they are. -/
instance instLinearOrderUInt8 : LinearOrder UInt8 where
  le_refl := UInt8.le_refl
  le_trans _ _ _ := UInt8.le_trans
  lt_iff_le_not_ge a b := by
    rw [UInt8.lt_iff_toNat_lt, UInt8.le_iff_toNat_le, UInt8.le_iff_toNat_le]
    omega
  le_antisymm _ _ := UInt8.le_antisymm
  le_total := UInt8.le_total
  toDecidableLE := inferInstance

end Libchef.Ordered
