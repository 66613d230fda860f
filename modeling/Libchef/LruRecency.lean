import Libchef.Base.Recency
import Libchef.LruModel

/-!
The LRU cache keeps the most recently used keys.

The list and the map together hold a list of bindings; the calls are the moves of that list
that bring a key to the front and drop the last binding beyond the capacity. From there on it
is a matter of histories.
-/

namespace Libchef.LruRecency

open Libchef.LruModel Libchef.Ordered Libchef.Recency

variable {K V : Type} [LinearOrder K]

/-! ### The list and the map -/

/-- The bindings of the other keys. -/
def without (k : K) (l : List (K × V)) : List (K × V) := l.filter fun x => x.1 ≠ k

/-- The nodes of the list hold the bindings, and the map refers to them. -/
structure Holds (list : KvList K V) (map : OrderedMap K Iter) (l : List (K × V)) : Prop where
  kvps : list.kvps = l
  keys : (l.map Prod.fst).Nodup
  iters : (list.nodes.map Node.iter).Nodup
  fresh : ∀ n ∈ list.nodes, n.iter < list.fresh
  map : ∀ k iter, map.get? k = some iter ↔ ∃ n ∈ list.nodes, n.kvp.1 = k ∧ n.iter = iter

namespace Holds

variable {list : KvList K V} {map : OrderedMap K Iter} {l : List (K × V)} {k : K} {iter : Iter}

lemma mem_iff (h : Holds list map l) {e : K × V} : e ∈ l ↔ ∃ n ∈ list.nodes, n.kvp = e := by
  rw [← h.kvps, KvList.kvps, List.mem_map]

lemma get?_isSome (h : Holds list map l) : (map.get? k).isSome ↔ k ∈ l.map Prod.fst := by
  rw [Option.isSome_iff_exists]
  simp only [h.map, List.mem_map, h.mem_iff]
  constructor
  · rintro ⟨_, n, hn, rfl, rfl⟩
    exact ⟨_, ⟨n, hn, rfl⟩, rfl⟩
  · rintro ⟨_, ⟨n, hn, rfl⟩, rfl⟩
    exact ⟨_, n, hn, rfl, rfl⟩

lemma iter_iff (h : Holds list map l) (hk : map.get? k = some iter) {n : Node K V}
    (hn : n ∈ list.nodes) : n.iter = iter ↔ n.kvp.1 = k := by
  obtain ⟨m, hm, rfl, rfl⟩ := (h.map k iter).mp hk
  constructor
  · intro he
    rw [List.inj_on_of_nodup_map h.iters hn hm he]
  · intro he
    have hn' := (h.map _ _).mpr ⟨n, hn, he, rfl⟩
    exact Option.some.inj (hn'.symm.trans hk)

lemma deref (h : Holds list map l) (hk : map.get? k = some iter) :
    ∃ v, list.deref iter = some (k, v) ∧ (k, v) ∈ l := by
  obtain ⟨m, hm, -, hi⟩ := (h.map k iter).mp hk
  have hsome : (list.nodes.find? fun n => n.iter = iter).isSome :=
    List.find?_isSome.mpr ⟨m, hm, by simpa using hi⟩
  obtain ⟨n, hn⟩ := Option.isSome_iff_exists.mp hsome
  have hmem := List.mem_of_find?_eq_some hn
  have hkey := (h.iter_iff hk hmem).mp (by simpa using List.find?_some hn)
  subst hkey
  exact ⟨n.kvp.2, by rw [KvList.deref, hn]; rfl, h.mem_iff.mpr ⟨n, hmem, rfl⟩⟩

/-- Without the key. -/
lemma erase (h : Holds list map l) (hk : map.get? k = some iter) :
    ∃ list', list.erase iter = some list' ∧
      Holds list' (map.erase k) (without k l) := by
  obtain ⟨v, hv, -⟩ := h.deref hk
  have hf : (list.nodes.filter fun n => n.iter ≠ iter) =
      list.nodes.filter fun n => n.kvp.1 ≠ k :=
    List.filter_congr fun n hn => by simp [h.iter_iff hk hn]
  have hsub : List.Sublist (list.nodes.filter fun n => n.iter ≠ iter) list.nodes :=
    List.filter_sublist
  refine ⟨{ list with nodes := list.nodes.filter fun n => n.iter ≠ iter },
    by rw [KvList.erase, hv]; rfl, ?_, ?_, h.iters.sublist (hsub.map _),
    fun n hn => h.fresh n (hsub.subset hn), fun x i => ?_⟩
  · rw [KvList.kvps, hf, ← h.kvps, KvList.kvps, without, List.filter_map]
    rfl
  · exact h.keys.sublist (List.filter_sublist.map _)
  · rw [OrderedMap.get?_erase, hf]
    by_cases hx : x = k
    · subst hx
      simp only [if_true, reduceCtorEq, false_iff, not_exists, not_and, List.mem_filter,
        decide_eq_true_eq]
      exact fun n hn hnx => absurd hnx hn.2
    · simp only [if_neg hx, h.map, List.mem_filter, decide_eq_true_eq]
      exact ⟨fun ⟨n, hn, hnx, hi⟩ => ⟨n, ⟨hn, hnx ▸ hx⟩, hnx, hi⟩,
        fun ⟨n, ⟨hn, _⟩, hnx, hi⟩ => ⟨n, hn, hnx, hi⟩⟩

/-- With a new key in front. -/
lemma pushFront (h : Holds list map l) (hk : k ∉ l.map Prod.fst) (v : V) :
    Holds (list.pushFront (k, v)) (map.insert k list.fresh) ((k, v) :: l) := by
  refine ⟨?_, List.nodup_cons.mpr ⟨hk, h.keys⟩, ?_, fun n hn => ?_, fun x i => ?_⟩
  · rw [KvList.kvps, KvList.pushFront, List.map_cons, ← h.kvps]
    rfl
  · refine List.nodup_cons.mpr ⟨fun hm => ?_, h.iters⟩
    obtain ⟨n, hn, he⟩ := List.mem_map.mp hm
    exact absurd he (h.fresh n hn).ne
  · rcases List.mem_cons.mp hn with rfl | hn
    · exact Nat.lt_succ_self _
    · exact Nat.lt_succ_of_lt (h.fresh n hn)
  · rw [OrderedMap.get?_insert, KvList.pushFront]
    simp only [List.mem_cons, exists_eq_or_imp]
    by_cases hx : x = k
    · subst hx
      rw [if_pos rfl, Option.some.injEq]
      refine ⟨fun he => Or.inl ⟨rfl, he⟩, ?_⟩
      rintro (⟨-, he⟩ | ⟨n, hn, hnk, -⟩)
      · exact he
      · exact absurd (List.mem_map.mpr ⟨_, h.mem_iff.mpr ⟨n, hn, rfl⟩, hnk⟩) hk
    · rw [if_neg hx, h.map]
      exact ⟨Or.inr, fun hc => hc.resolve_left fun he => hx he.1.symm⟩

/-- Without the binding at the back. -/
lemma popBack {e : K × V} (h : Holds list map (l ++ [e])) :
    list.back = some e ∧ Holds list.popBack (map.erase e.1) l := by
  obtain ⟨ns, n, hns⟩ : ∃ ns n, list.nodes = ns ++ [n] := by
    rcases List.eq_nil_or_concat list.nodes with hnil | ⟨ns, n, hns⟩
    · have := h.kvps
      simp [KvList.kvps, hnil] at this
    · exact ⟨ns, n, by rw [hns, List.concat_eq_append]⟩
  have hkvps := h.kvps
  rw [KvList.kvps, hns, List.map_append] at hkvps
  obtain ⟨hl, he⟩ := List.append_inj' hkvps rfl
  obtain rfl : n.kvp = e := by simpa using he
  have hkeys := h.keys
  rw [List.map_append, List.nodup_append] at hkeys
  have hiters := h.iters
  rw [hns, List.map_append, List.nodup_append] at hiters
  have hpop : list.popBack.nodes = ns := by simp [KvList.popBack, hns]
  refine ⟨by simp [KvList.back, hns], by rw [KvList.kvps, hpop, hl], hkeys.1,
    by rw [hpop]; exact hiters.1, fun m hm => h.fresh m ?_, fun x i => ?_⟩
  · rw [hpop] at hm
    rw [hns]
    exact List.mem_append_left _ hm
  · have hne : ∀ m ∈ ns, m.kvp.1 ≠ n.kvp.1 := fun m hm =>
      hkeys.2.2 _ (List.mem_map.mpr ⟨m.kvp, hl ▸ List.mem_map_of_mem hm, rfl⟩) _ (by simp)
    rw [OrderedMap.get?_erase, hpop]
    by_cases hx : x = n.kvp.1
    · subst hx
      simp only [if_true, reduceCtorEq, false_iff, not_exists, not_and]
      exact fun m hm hmk => absurd hmk (hne m hm)
    · rw [if_neg hx, h.map, hns]
      simp only [List.mem_append, List.mem_singleton]
      constructor
      · rintro ⟨m, hm | rfl, hmk, hi⟩
        · exact ⟨m, hm, hmk, hi⟩
        · exact absurd hmk.symm hx
      · rintro ⟨m, hm, hmk, hi⟩
        exact ⟨m, Or.inl hm, hmk, hi⟩

end Holds

/-! ### The calls on the bindings -/

/-- The cache holds the bindings, not more than it has room for. -/
structure Keeps (c : Lru K V) (cap : ℕ) (l : List (K × V)) : Prop where
  holds : Holds c.list_ c.map_ l
  capacity : c.capacity_ = cap
  length_le : l.length ≤ cap

/-- The binding in front of those with other keys, cut to the capacity. -/
def toFront (cap : ℕ) (e : K × V) (l : List (K × V)) : List (K × V) :=
  (e :: without e.1 l).take cap

variable {c : Lru K V} {cap : ℕ} {l : List (K × V)} {k : K}

lemma without_absent (hk : k ∉ l.map Prod.fst) : without k l = l := by
  refine List.filter_eq_self.mpr fun x hx => decide_eq_true fun he => hk ?_
  rw [← he]
  exact List.mem_map_of_mem hx

lemma not_mem_without : k ∉ (without k l).map Prod.fst := by
  simp [without]

lemma lookup_of_mem {v : V} (hl : (l.map Prod.fst).Nodup) (hm : (k, v) ∈ l) :
    lookup k l = some v := by
  induction l with
  | nil => cases hm
  | cons e l ih =>
    obtain ⟨he, hl⟩ := List.nodup_cons.mp hl
    rw [lookup_cons]
    rcases List.mem_cons.mp hm with rfl | hm
    · rw [if_pos rfl]
    · have hne : e.1 ≠ k := by
        rintro rfl
        exact he (List.mem_map.mpr ⟨_, hm, rfl⟩)
      rw [if_neg hne, ih hl hm]

lemma forget_spec (h : Keeps c cap l) (k : K) :
    ∃ list map, forget c k = some (list, map, decide (k ∉ l.map Prod.fst)) ∧
      Holds list map (without k l) := by
  unfold forget
  cases hk : c.map_.get? k with
  | none =>
    have hnot : k ∉ l.map Prod.fst := by
      rw [← h.holds.get?_isSome, hk]
      simp
    exact ⟨c.list_, c.map_, by simp [hnot], by rw [without_absent hnot]; exact h.holds⟩
  | some iter =>
    have hin : k ∈ l.map Prod.fst := by
      rw [← h.holds.get?_isSome, hk]
      simp
    obtain ⟨list, he, hr⟩ := h.holds.erase hk
    exact ⟨list, c.map_.erase k, by simp [he, hin], hr⟩

/-- **`put`** brings its binding to the front, and says whether the key was absent. -/
theorem put_spec (h : Keeps c cap l) (k : K) (v : V) :
    ∃ c', put c k v = some (c', decide (k ∉ l.map Prod.fst)) ∧
      Keeps c' cap (toFront cap (k, v) l) := by
  obtain ⟨list, map, hf, hr⟩ := forget_spec h k
  have hp := hr.pushFront not_mem_without v
  have hle : (without k l).length ≤ cap :=
    (List.length_filter_le _ l).trans h.length_le
  have hsize : (list.pushFront (k, v)).size = (without k l).length + 1 := by
    rw [KvList.size, ← List.length_map Node.kvp, ← KvList.kvps, hp.kvps, List.length_cons]
  unfold put toFront
  rw [hf]
  by_cases hc : (without k l).length + 1 > cap
  · -- one binding too many
    obtain ⟨m, e, hm⟩ : ∃ m e, (k, v) :: without k l = m ++ [e] :=
      ⟨_, _, (List.dropLast_append_getLast (List.cons_ne_nil _ _)).symm⟩
    have hlen : m.length = cap := by
      have := congrArg List.length hm
      simp only [List.length_cons, List.length_append, List.length_nil] at this
      omega
    rw [hm] at hp
    obtain ⟨hback, hpop⟩ := hp.popBack
    refine ⟨⟨cap, (list.pushFront (k, v)).popBack, (map.insert k list.fresh).erase e.1⟩, ?_, ?_,
      rfl, ?_⟩
    · have hbegin : (list.pushFront (k, v)).begin_ = some list.fresh := rfl
      simp [hbegin, hsize, h.capacity, hc, hback]
    · rw [hm, ← hlen, List.take_left]
      exact hpop
    · rw [hm, List.length_take]
      exact min_le_left _ _
  · refine ⟨⟨cap, list.pushFront (k, v), map.insert k list.fresh⟩, ?_, ?_, rfl, ?_⟩
    · have hbegin : (list.pushFront (k, v)).begin_ = some list.fresh := rfl
      simp [hbegin, hsize, h.capacity, hc]
    · rw [List.take_of_length_le (by simp only [List.length_cons]; omega)]
      exact hp
    · rw [List.length_take]
      exact min_le_left _ _

/-- **`get`** of a key that is there brings its binding to the front. -/
theorem get_spec (h : Keeps c cap l) (k : K) :
    ∃ c', LruModel.get c k = some (c', lookup k l) ∧
      Keeps c' cap (match lookup k l with | none => l | some v => toFront cap (k, v) l) := by
  unfold LruModel.get
  cases hk : c.map_.get? k with
  | none =>
    have hnot : k ∉ l.map Prod.fst := by
      rw [← h.holds.get?_isSome, hk]
      simp
    have hnone : lookup k l = none :=
      lookup_eq_none fun e he hek => hnot (hek ▸ List.mem_map_of_mem he)
    rw [hnone]
    exact ⟨c, rfl, h⟩
  | some iter =>
    obtain ⟨v, hd, hmem⟩ := h.holds.deref hk
    obtain ⟨list, he, hr⟩ := h.holds.erase hk
    have hp := hr.pushFront not_mem_without v
    have hsome : lookup k l = some v := lookup_of_mem h.holds.keys hmem
    have hmap : (c.map_.erase k).insert k list.fresh = c.map_.insert k list.fresh :=
      OrderedMap.ext_get? fun x => by
        by_cases hx : x = k <;> simp [hx]
    have hlen : (without k l).length < l.length :=
      List.length_filter_lt_length_iff_exists.mpr ⟨_, hmem, by simp⟩
    rw [hmap] at hp
    rw [hsome]
    refine ⟨⟨cap, list.pushFront (k, v), c.map_.insert k list.fresh⟩, ?_, ?_, rfl, ?_⟩
    · have hbegin : (list.pushFront (k, v)).begin_ = some list.fresh := rfl
      simp [hd, he, hbegin, h.capacity]
    · have := h.length_le
      simp only [toFront]
      rw [List.take_of_length_le (by rw [List.length_cons]; omega)]
      exact hp
    · simp only [toFront, List.length_take]
      exact min_le_left _ _

/-! ### Histories -/

/-- The key a call touches. -/
def touched : Call K V → Option K
  | .put k _ _ => some k
  | .get k (some _) => some k
  | .get _ none => none

/-- The keys that the calls touch, the newest first. -/
def touches (log : List (Call K V)) : List K := log.filterMap touched

/-- The value a call puts under `k`. -/
def putUnder (k : K) : Call K V → Option V
  | .put x v _ => if x = k then some v else none
  | .get _ _ => none

def lastPut (k : K) (log : List (Call K V)) : Option V := log.findSome? (putUnder k)

/-- The bindings are those of the most recently touched keys, as last put. -/
structure Recent (cap : ℕ) (log : List (Call K V)) (l : List (K × V)) : Prop where
  keys : l.map Prod.fst = (recent (touches log)).take cap
  value : ∀ e ∈ l, lastPut e.1 log = some e.2

variable {log : List (Call K V)}

lemma Recent.toFront (h : Recent cap log l) (hl : (l.map Prod.fst).Nodup) {call : Call K V}
    {v : V} (ht : touched call = some k) (hv : lastPut k (call :: log) = some v)
    (hother : ∀ x, x ≠ k → putUnder x call = none) :
    Recent cap (call :: log) (LruRecency.toFront cap (k, v) l) := by
  have hkeys : (without k l).map Prod.fst = (l.map Prod.fst).erase k := by
    rw [hl.erase_eq_filter, without, List.filter_map]
    congr 1
    exact List.filter_congr fun x _ => by by_cases hx : x.1 = k <;> simp [hx]
  refine ⟨?_, fun e he => ?_⟩
  · have htouches : touches (call :: log) = k :: touches log := by simp [touches, ht]
    rw [LruRecency.toFront, List.map_take, List.map_cons, hkeys, h.keys, htouches]
    exact take_recent_cons k (touches log) cap
  · rcases List.mem_cons.mp (List.mem_of_mem_take he) with rfl | he
    · exact hv
    · obtain ⟨he, hne⟩ := List.mem_filter.mp he
      have hnone := hother e.1 (by simpa using hne)
      simpa [lastPut, hnone] using h.value e he

/-- **One operation** keeps the most recent keys. -/
theorem step_keeps (h : Keeps c cap l) (hr : Recent cap log l) (op : Op K V) :
    ∃ c' log' l', step (c, log) op = some (c', log') ∧ Keeps c' cap l' ∧ Recent cap log' l' := by
  cases op with
  | put k v =>
    obtain ⟨c', hc, hk⟩ := put_spec h k v
    refine ⟨c', .put k v (k ∉ l.map Prod.fst) :: log, _, by simp [step, hc], hk, ?_⟩
    exact hr.toFront h.holds.keys rfl (by simp [lastPut, putUnder])
      fun x hx => if_neg (Ne.symm hx)
  | get k =>
    obtain ⟨c', hc, hk⟩ := get_spec h k
    refine ⟨c', .get k (lookup k l) :: log, _, by simp [step, hc], hk, ?_⟩
    cases hv : lookup k l with
    | none => exact ⟨hr.keys, hr.value⟩
    | some v =>
      obtain ⟨e, he, hek⟩ := Option.map_eq_some_iff.mp hv
      have hkey : e.1 = k := by simpa using List.find?_some he
      have hlast := hr.value e (List.mem_of_find?_eq_some he)
      rw [hkey, hek] at hlast
      exact hr.toFront h.holds.keys rfl hlast fun _ _ => rfl

lemma keeps_make (cap : ℕ) : Keeps (make cap : Lru K V) cap [] :=
  ⟨⟨rfl, List.nodup_nil, List.nodup_nil, by simp [make, KvList.empty], by
    simp [make, KvList.empty, OrderedMap.empty, OrderedMap.get?, lookup]⟩, rfl, Nat.zero_le _⟩

/-- Every run comes to its end. -/
theorem run_keeps (cap : ℕ) (ops : List (Op K V)) :
    ∃ c log l, run cap ops = some (c, log) ∧ Keeps c cap l ∧ Recent cap log l := by
  have hstep : ∀ (t : Lru K V × List (Call K V)) op,
      (∃ l, Keeps t.1 cap l ∧ Recent cap t.2 l) →
      ∃ t', step t op = some t' ∧ ∃ l, Keeps t'.1 cap l ∧ Recent cap t'.2 l := by
    rintro ⟨c, log⟩ op ⟨l, hk, hr⟩
    obtain ⟨c', log', l', hs, hk', hr'⟩ := step_keeps hk hr op
    exact ⟨_, hs, l', hk', hr'⟩
  have hinit : ∃ l, Keeps (make cap : Lru K V) cap l ∧ Recent cap ([] : List (Call K V)) l :=
    ⟨[], keeps_make cap, by simp [touches], by simp⟩
  obtain ⟨⟨c, log⟩, he, l, hk, hr⟩ := Runs.exec_total hstep (s := (make cap, [])) hinit ops
  exact ⟨c, log, l, he, hk, hr⟩

/-- What a cache with room for `cap` keys is after the calls. -/
structure LeastRecentlyUsed (cap : ℕ) (c : Lru K V) (log : List (Call K V)) : Prop where
  present : ∀ k, (c.map_.get? k).isSome ↔
    k ∈ touches log ∧ (since k (touches log)).toFinset.card < cap
  value : ∀ e ∈ getList c, lastPut e.1 log = some e.2
  order : ((getList c).map Prod.fst).Pairwise fun a b =>
    (touches log).idxOf a < (touches log).idxOf b
  nodup : ((getList c).map Prod.fst).Nodup
  keys : ∀ k, k ∈ (getList c).map Prod.fst ↔ (c.map_.get? k).isSome
  refers : ∀ k iter, c.map_.get? k = some iter → ∃ v, c.list_.deref iter = some (k, v)
  size : LruModel.size c ≤ cap
  put : ∀ k v, ∃ c', put c k v = some (c', (c.map_.get? k).isNone)
  get : ∀ k, ∃ c', LruModel.get c k =
    some (c', if (c.map_.get? k).isSome then lastPut k log else none)

/-- **The cache is least-recently-used.** After any run, a key is there if and only if it has
been touched and fewer distinct others than there is room for have been touched since. -/
theorem run_leastRecentlyUsed (cap : ℕ) (ops : List (Op K V)) :
    ∃ c log, run cap ops = some (c, log) ∧ LeastRecentlyUsed cap c log := by
  obtain ⟨c, log, l, he, hk, hr⟩ := run_keeps cap ops
  have hl : getList c = l := hk.holds.kvps
  refine ⟨c, log, he, ?_⟩
  constructor
  case present =>
    intro k
    rw [hk.holds.get?_isSome, hr.keys, mem_take_recent]
  case value => exact hl ▸ hr.value
  case order =>
    rw [hl, hr.keys]
    exact (pairwise_recent _).sublist (List.take_sublist _ _)
  case nodup => exact hl ▸ hk.holds.keys
  case keys =>
    intro k
    rw [hl, hk.holds.get?_isSome]
  case refers =>
    intro k iter hi
    obtain ⟨v, hv, -⟩ := hk.holds.deref hi
    exact ⟨v, hv⟩
  case size =>
    rw [LruModel.size, KvList.size, ← List.length_map Node.kvp, ← KvList.kvps, hk.holds.kvps]
    exact hk.length_le
  case put =>
    intro k v
    obtain ⟨c', hc, -⟩ := put_spec hk k v
    have habs : decide (k ∉ l.map Prod.fst) = (c.map_.get? k).isNone := by
      rw [Bool.eq_iff_iff, decide_eq_true_iff, ← hk.holds.get?_isSome]
      cases c.map_.get? k <;> simp
    exact ⟨c', by rw [hc, habs]⟩
  case get =>
    intro k
    obtain ⟨c', hc, -⟩ := get_spec hk k
    refine ⟨c', ?_⟩
    rw [hc]
    by_cases hin : k ∈ l.map Prod.fst
    · obtain ⟨e, hm, rfl⟩ := List.mem_map.mp hin
      rw [if_pos (hk.holds.get?_isSome.mpr hin), hr.value e hm, lookup_of_mem hk.holds.keys hm]
    · have hnone : lookup k l = none := lookup_eq_none fun e hm hek =>
        hin (List.mem_map.mpr ⟨e, hm, hek⟩)
      rw [if_neg fun hs => hin (hk.holds.get?_isSome.mp hs), hnone]

end Libchef.LruRecency
