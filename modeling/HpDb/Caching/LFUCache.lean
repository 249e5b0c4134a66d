import HpDb.Caching.Policy

/-!
# LFU cache (unnamed/part_009)

`LFUCache` keeps, for each use count `freq`, a `std::list<Node>` `freqList[freq]` of the
cached nodes with that count, most recently used first, a map `keyNode` from each key to the
iterator of its node, and `minFreq`. A `get` that finds the key and every `put` move the
key's node from `freqList[freq]` to the front of `freqList[freq + 1]`
(`updateFrequency`); a `put` of a new key into a full cache first drops the back of
`freqList[minFreq]`.

`Lfu` is the policy: the entries `(key, value, count)`, most recently used first, where
`count` is the number of calls on the key since the `put` that inserted it, that one
included. A new key in a full cache evicts the victim: of the entries of least count, the
least recently used. `Lfu.Valid` says what a run of `Lfu` keeps.

The class is modelled as the code writes it. The code reads `freqList` only through
`operator[]`, which gives the empty list for a count it has no list for, and `erase`, so
the map is the function from each count to its list, and `erase(f)` is the empty list at
`f`. A list's nodes each carry the id of their iterator, and an iterator is the count of
its list with that id. The `int`s `freq` and `minFreq` change only by `x++` (`incInt`). A
call with undefined behaviour (the back of an empty list, erasing an iterator from another
list, `x++` on `INT_MAX`) is `none`. A negative `cap` is left out: `capacity` is a `Nat`.

Results:
* `Lfu.valid_run`: every run of the policy from an empty cache is `Valid`.
* `Lfu.count_run`: the count of a cached key is the number of calls on it since the `put`
  that inserted it, after which it stayed cached.
* `LFUCache.refines`: for `capacity ≥ 1` and every sequence of at most `INT_MAX` calls, the
  class runs without undefined behaviour, returns what the policy returns, and holds the
  policy's entries: `freqList[f]` is the policy's entries of count `f` in the policy's
  order, and `minFreq` is their least count.
* `lfu_policy`: over every such call sequence, the class returns what `Lfu` returns; `get`
  returns the last value put for a cached key and `-1` otherwise; at most `capacity` keys
  are cached; and a `put` of a new key into a full cache evicts a key of least count, and
  of those the least recently used.
* `lfu_count_overflows`: one call more can be undefined: after `put(key, value)` and
  `2^31 - 2` calls `get(key)` the key's count is `INT_MAX`, and the next `get(key)`
  increments it.
-/

namespace HpDb.Caching

/-- The LFU policy: the capacity and the entries `(key, value, count)`, most recently used
    first. -/
structure Lfu where
  capacity : Nat
  entries : List (Int × Int × Nat)

namespace Lfu

/-- The cached keys, most recently used first. -/
def keys (c : Lfu) : List Int := c.entries.map (·.1)

/-- The key a new key evicts from a full cache: of the entries whose count is least, the
    last, least recently used. -/
def victim (c : Lfu) : Option Int :=
  ((c.entries.filter fun e => c.entries.all fun e' => e.2.2 ≤ e'.2.2).getLast?).map (·.1)

/-- A call on the cached key `key` of count `count`: its entry goes to the front with the
    value `value` and one more use. -/
def touch (c : Lfu) (key value : Int) (count : Nat) : Lfu :=
  { c with entries := (key, value, count + 1) :: c.entries.filter (·.1 ≠ key) }

/-- `get(key)`: the value, and the key used; `-1` if it is not cached. -/
def get (c : Lfu) (key : Int) : Int × Lfu :=
  match c.entries.lookup key with
  | some (value, count) => (value, c.touch key value count)
  | none => (-1, c)

/-- `put(key, value)`: a cached key is used with the new value; a new key enters with count
    `1`, and into a full cache after the victim leaves. -/
def put (c : Lfu) (key value : Int) : Lfu :=
  match c.entries.lookup key with
  | some (_, count) => c.touch key value count
  | none =>
    if c.capacity ≤ c.entries.length then
      { c with entries := (key, value, 1) :: c.entries.filter fun e => some e.1 ≠ c.victim }
    else { c with entries := (key, value, 1) :: c.entries }

/-- One call. -/
def step (c : Lfu) : Op → Option Int × Lfu
  | .get key => (some (c.get key).1, (c.get key).2)
  | .put key value => (none, c.put key value)

@[simp] theorem capacity_step (c : Lfu) (op : Op) : (c.step op).2.capacity = c.capacity := by
  cases op with
  | get key => simp only [step, get]; split <;> rfl
  | put key value => simp only [step, put]; split <;> (try split_ifs) <;> rfl

/-- What a run of the policy keeps, after the calls `ops`. -/
structure Valid (ops : List Op) (c : Lfu) : Prop where
  nodup : c.keys.Nodup
  length_le : c.entries.length ≤ c.capacity
  lastPut : ∀ k v n, (k, v, n) ∈ c.entries → lastPut ops k = some v
  recent : c.keys.Sublist (recency (ops.map Op.key))
  count_pos : ∀ e ∈ c.entries, 1 ≤ e.2.2
  count_le : ∀ e ∈ c.entries, e.2.2 ≤ ops.length

/-- A non-empty cache has a least count. -/
theorem exists_least_count {c : Lfu} (hne : c.entries ≠ []) :
    ∃ m, (∃ x ∈ c.entries, x.2.2 = m) ∧ ∀ x ∈ c.entries, m ≤ x.2.2 := by
  obtain ⟨m, hm⟩ : ∃ m, (c.entries.map (·.2.2)).min? = some m :=
    Option.ne_none_iff_exists'.mp (by rw [Ne, List.min?_eq_none_iff]; simpa using hne)
  obtain ⟨hmem, hle⟩ := List.min?_eq_some_iff'.mp hm
  exact ⟨m, List.mem_map.mp hmem, fun x hx => hle _ (List.mem_map_of_mem _ hx)⟩

/-- The victim is the last entry of least count `m`. -/
theorem victim_eq {c : Lfu} {m : Nat} (hm : ∃ x ∈ c.entries, x.2.2 = m)
    (hle : ∀ x ∈ c.entries, m ≤ x.2.2) :
    c.victim = ((c.entries.filter (·.2.2 = m)).getLast?).map (·.1) := by
  obtain ⟨y, hy, rfl⟩ := hm
  have hleast : c.entries.filter (fun e => c.entries.all fun e' => e.2.2 ≤ e'.2.2) =
      c.entries.filter (·.2.2 = y.2.2) := List.filter_congr fun x hx => by
    rw [Bool.eq_iff_iff, List.all_eq_true, decide_eq_true_eq]
    simp only [decide_eq_true_eq]
    exact ⟨fun h => le_antisymm (h y hy) (hle x hx), fun h e' he' => h ▸ hle e' he'⟩
  rw [victim, hleast]

/-- In a non-empty cache the victim is a cached key of least count, and every other key of
    that count was used after it. -/
theorem Valid.evict {ops : List Op} {c : Lfu} (h : c.Valid ops) (hne : c.entries ≠ []) :
    ∃ e v n, c.victim = some e ∧ (e, v, n) ∈ c.entries ∧ ∀ k v' n', (k, v', n') ∈ c.entries →
      n ≤ n' ∧ (n' = n → k ≠ e → [k, e].Sublist (recency (ops.map Op.key))) := by
  obtain ⟨m, ⟨y, hy, hym⟩, hle⟩ := exists_least_count hne
  set L := c.entries.filter (·.2.2 = m) with hL
  obtain ⟨⟨e, v, n⟩, hlast⟩ : ∃ x, L.getLast? = some x :=
    Option.ne_none_iff_exists'.mp fun hnone => by
      have hyL : y ∈ L := List.mem_filter.mpr ⟨hy, by simpa using hym⟩
      rw [List.getLast?_eq_none_iff.mp hnone] at hyL
      exact List.not_mem_nil _ hyL
  have hmemL := List.mem_of_getLast?_eq_some hlast
  obtain ⟨he, hn⟩ := List.mem_filter.mp hmemL
  simp only [decide_eq_true_eq] at hn
  subst hn
  have hLkeys : (L.map (·.1)).Sublist c.keys := (List.filter_sublist _).map _
  refine ⟨e, v, _, by rw [victim_eq ⟨y, hy, hym⟩ hle, hlast]; rfl, he, fun k v' n' hk => ⟨hle _ hk, ?_⟩⟩
  rintro rfl hke
  have hk' : (k, v', n') ∈ L.dropLast :=
    (mem_dropLast_iff (·.1) (h.nodup.sublist hLkeys) hlast).mpr ⟨List.mem_filter.mpr ⟨hk, by simp⟩, hke⟩
  refine List.Sublist.trans ?_ (hLkeys.trans h.recent)
  rw [← List.dropLast_append_getLast? _ hlast]
  exact ((List.singleton_sublist.mpr hk').append (List.Sublist.refl [(e, v, n')])).map (·.1)

theorem keys_filter (entries : List (Int × Int × Nat)) (key : Int) :
    (entries.filter (·.1 ≠ key)).map (·.1) = (entries.map (·.1)).filter (· ≠ key) := by
  rw [List.filter_map]; rfl

theorem keys_touch (c : Lfu) (key value : Int) (count : Nat) :
    (c.touch key value count).keys = key :: c.keys.filter (· ≠ key) := by
  rw [keys, touch, List.map_cons, keys_filter]; rfl

/-- The entries after a cached key is used. -/
theorem valid_touch {ops : List Op} {c : Lfu} (h : c.Valid ops) (op : Op) (value : Int)
    (count : Nat) (hmem : op.key ∈ c.keys) (hcount : count ≤ ops.length)
    (hput : lastPut (ops ++ [op]) op.key = some value)
    (hlast : ∀ k, k ≠ op.key → lastPut (ops ++ [op]) k = lastPut ops k) :
    Valid (ops ++ [op]) (c.touch op.key value count) := by
  refine ⟨?_, ?_, ?_, ?_, ?_, ?_⟩
  · rw [keys_touch]
    exact List.nodup_cons.mpr ⟨by simp, h.nodup.filter _⟩
  · have hlt : (c.entries.filter (·.1 ≠ op.key)).length < c.entries.length :=
      List.length_filter_lt_length_iff_exists.mpr (by simpa [keys] using hmem)
    have := h.length_le
    simp only [touch, List.length_cons]; omega
  · intro k v n hk
    rcases List.mem_cons.mp hk with hk | hk
    · cases hk; exact hput
    · have hk := List.mem_filter.mp hk
      rw [hlast k (by simpa using hk.2)]
      exact h.lastPut k v n hk.1
  · rw [keys_touch, List.map_append, List.map_singleton]
    exact sublist_recency_append h.recent _
  · intro e he
    rcases List.mem_cons.mp he with rfl | he
    · exact Nat.le_add_left 1 count
    · exact h.count_pos e (List.mem_filter.mp he).1
  · intro e he
    rw [List.length_append, List.length_singleton]
    rcases List.mem_cons.mp he with rfl | he
    · exact Nat.succ_le_succ hcount
    · exact (h.count_le e (List.mem_filter.mp he).1).trans (Nat.le_succ _)

/-- The entries after a new key enters in front of `kept`, a sublist of the entries. -/
theorem valid_insert {ops : List Op} {c : Lfu} (h : c.Valid ops) (key value : Int)
    (hnew : key ∉ c.keys) (kept : List (Int × Int × Nat)) (hkept : kept.Sublist c.entries)
    (hlen : kept.length + 1 ≤ c.capacity) :
    Valid (ops ++ [.put key value]) { c with entries := (key, value, 1) :: kept } := by
  have hsub : (kept.map (·.1)).Sublist c.keys := hkept.map _
  refine ⟨?_, by simpa using hlen, ?_, ?_, ?_, ?_⟩
  · exact List.nodup_cons.mpr ⟨fun hk => hnew (hsub.subset hk), h.nodup.sublist hsub⟩
  · intro k v n hk
    rcases List.mem_cons.mp hk with hk | hk
    · cases hk; simp [lastPut_append]
    · have hne : key ≠ k := fun he => hnew (he ▸ List.mem_map_of_mem (·.1) (hkept.subset hk))
      simp only [lastPut_append, if_neg hne]
      exact h.lastPut k v n (hkept.subset hk)
  · rw [keys, List.map_cons, List.map_append, List.map_singleton]
    refine List.Sublist.cons₂ key ?_ |>.trans (sublist_recency_append h.recent key)
    have hfilter : c.keys.filter (· ≠ key) = c.keys := List.filter_eq_self.mpr fun x hx =>
      decide_eq_true fun hxk : x = key => hnew (hxk ▸ hx)
    rw [hfilter]; exact hsub
  · intro e he
    rcases List.mem_cons.mp he with rfl | he
    · exact le_refl 1
    · exact h.count_pos e (hkept.subset he)
  · intro e he
    rw [List.length_append, List.length_singleton]
    rcases List.mem_cons.mp he with rfl | he
    · exact Nat.le_add_left 1 _
    · exact (h.count_le e (hkept.subset he)).trans (Nat.le_succ _)

theorem valid_step {ops : List Op} {c : Lfu} (hc : 1 ≤ c.capacity) (h : c.Valid ops) (op : Op) :
    Valid (ops ++ [op]) (c.step op).2 := by
  cases op with
  | get key =>
    simp only [step, get]
    cases hl : c.entries.lookup key with
    | none =>
      have hnew : key ∉ c.keys := lookup_eq_none_iff.mp hl
      exact ⟨h.nodup, h.length_le, fun k v n hk => by simpa [lastPut_append] using h.lastPut k v n hk,
        by simpa using sublist_recency_append_of_not_mem h.recent hnew, h.count_pos,
        fun e he => by simpa using (h.count_le e he).trans (Nat.le_succ _)⟩
    | some x =>
      obtain ⟨value, count⟩ := x
      exact valid_touch h (.get key) value count (List.mem_map_of_mem (·.1) (mem_of_lookup hl))
        (h.count_le _ (mem_of_lookup hl))
        (by simpa [lastPut_append] using h.lastPut _ _ _ (mem_of_lookup hl))
        fun k _ => by simp [lastPut_append]
  | put key value =>
    simp only [step, put]
    cases hl : c.entries.lookup key with
    | some x =>
      exact valid_touch h (.put key value) value x.2 (List.mem_map_of_mem (·.1) (mem_of_lookup hl))
        (h.count_le _ (mem_of_lookup hl)) (by simp [Op.key, lastPut_append]) fun k hk => by
          simp only [Op.key] at hk; simp [lastPut_append, Ne.symm hk]
    | none =>
      have hnew : key ∉ c.keys := lookup_eq_none_iff.mp hl
      split_ifs with hfull
      · obtain ⟨e, v, n, hv, he, -⟩ := h.evict fun hnil => by
          simp [hnil] at hfull; omega
        refine valid_insert h key value hnew _ (List.filter_sublist _) ?_
        have hlt : (c.entries.filter fun x => some x.1 ≠ c.victim).length < c.entries.length :=
          List.length_filter_lt_length_iff_exists.mpr ⟨_, he, by simp [hv]⟩
        have := h.length_le
        omega
      · exact valid_insert h key value hnew _ (List.Sublist.refl _) (by omega)

theorem valid_run (capacity : Nat) (hc : 1 ≤ capacity) (ops : List Op) :
    (runOps step ⟨capacity, []⟩ ops).2.Valid ops ∧
      (runOps step ⟨capacity, []⟩ ops).2.capacity = capacity := by
  induction ops using List.reverseRecOn with
  | nil =>
    exact ⟨⟨List.nodup_nil, Nat.zero_le _, (fun _ _ _ h => nomatch h), List.nil_sublist _,
      (fun _ h => nomatch h), fun _ h => nomatch h⟩, rfl⟩
  | append_singleton ops op ih =>
    rw [runOps_append]
    exact ⟨valid_step (hc.trans_eq ih.2.symm) ih.1 op, by rw [capacity_step, ih.2]⟩

/-! ### The count is the number of calls since the key was inserted -/

/-- Where an entry after a call comes from: an entry of another key, kept; the entry of the
    call's key, used once more; or the entry a `put` inserts with count `1`. -/
theorem mem_step {c : Lfu} {op : Op} {k v : Int} {n : Nat} (h : (k, v, n) ∈ (c.step op).2.entries) :
    (k ≠ op.key ∧ (k, v, n) ∈ c.entries) ∨ (k = op.key ∧ ∃ v₀ m, (k, v₀, m) ∈ c.entries ∧ n = m + 1) ∨
      (k ∉ c.keys ∧ n = 1 ∧ op = .put k v) := by
  have hkeep : ∀ key, key ∉ c.keys → (k, v, n) ∈ c.entries → k ≠ key := fun key hkey hk hkk =>
    hkey (hkk ▸ List.mem_map_of_mem (·.1) hk)
  have htouch : ∀ key value₀ value count, (key, (value₀, count)) ∈ c.entries →
      (k, v, n) ∈ (c.touch key value count).entries →
      (k ≠ key ∧ (k, v, n) ∈ c.entries) ∨ (k = key ∧ ∃ v₀ m, (k, v₀, m) ∈ c.entries ∧ n = m + 1) :=
    fun key value₀ value count hmem hk => by
      rcases List.mem_cons.mp hk with hk | hk
      · cases hk; exact .inr ⟨rfl, _, _, hmem, rfl⟩
      · obtain ⟨hk, hne⟩ := List.mem_filter.mp hk
        exact .inl ⟨by simpa using hne, hk⟩
  cases op with
  | get key =>
    simp only [step, get] at h
    cases hl : c.entries.lookup key with
    | none =>
      rw [hl] at h
      exact .inl ⟨hkeep key (lookup_eq_none_iff.mp hl) h, h⟩
    | some x =>
      rw [hl] at h
      exact (htouch key x.1 x.1 x.2 (mem_of_lookup hl) h).imp_right .inl
  | put key value =>
    simp only [step, put] at h
    cases hl : c.entries.lookup key with
    | some x =>
      rw [hl] at h
      exact (htouch key x.1 value x.2 (mem_of_lookup hl) h).imp_right .inl
    | none =>
      rw [hl] at h
      have hkey := lookup_eq_none_iff.mp hl
      have hins : ∀ kept : List (Int × Int × Nat), kept.Sublist c.entries →
          (k, v, n) ∈ (key, value, 1) :: kept →
          (k ≠ key ∧ (k, v, n) ∈ c.entries) ∨ (k ∉ c.keys ∧ n = 1 ∧ Op.put key value = .put k v) :=
        fun kept hkept hk => by
          rcases List.mem_cons.mp hk with hk | hk
          · cases hk; exact .inr ⟨hkey, rfl, rfl⟩
          · exact .inl ⟨hkeep key hkey (hkept.subset hk), hkept.subset hk⟩
      split_ifs at h
      · exact (hins _ (List.filter_sublist _) h).imp_right .inr
      · exact (hins _ (List.Sublist.refl _) h).imp_right .inr

/-- Calls after the insertion, one more of them. -/
theorem take_append_singleton {post : List Op} (op : Op) (i : Nat) :
    (post ++ [op]).take i = post.take i ∨ (post ++ [op]).take i = post ++ [op] := by
  rcases Nat.lt_or_ge post.length i with hi | hi
  · exact .inr (List.take_of_length_le (by simp; omega))
  · exact .inl (List.take_append_of_le_length hi)

/-- The count of a cached key is the number of calls on it since the `put` that inserted
    it, after which it stayed cached. -/
theorem count_run (capacity : Nat) (ops : List Op) {k v : Int} {n : Nat}
    (hk : (k, v, n) ∈ (runOps step ⟨capacity, []⟩ ops).2.entries) :
    ∃ pre v₀ post, ops = pre ++ .put k v₀ :: post ∧
      k ∉ (runOps step ⟨capacity, []⟩ pre).2.keys ∧
      (∀ i, k ∈ (runOps step ⟨capacity, []⟩ (pre ++ .put k v₀ :: post.take i)).2.keys) ∧
      n = (post.filter (·.key = k)).length + 1 := by
  induction ops using List.reverseRecOn generalizing v n with
  | nil => exact absurd hk (List.not_mem_nil _)
  | append_singleton ops op ih =>
    have hcached : k ∈ (runOps step ⟨capacity, []⟩ (ops ++ [op])).2.keys :=
      List.mem_map_of_mem (·.1) hk
    have hlater : ∀ pre v₀ post, ops = pre ++ .put k v₀ :: post →
        (∀ i, k ∈ (runOps step ⟨capacity, []⟩ (pre ++ .put k v₀ :: post.take i)).2.keys) →
        ∀ i, k ∈ (runOps step ⟨capacity, []⟩ (pre ++ .put k v₀ :: (post ++ [op]).take i)).2.keys :=
      fun pre v₀ post hops hin i => by
        rcases take_append_singleton op i with hi | hi
        · rw [hi]; exact hin i
        · rw [hi, ← List.cons_append, ← List.append_assoc, ← hops]; exact hcached
    rw [runOps_append] at hk
    rcases mem_step hk with ⟨hne, hold⟩ | ⟨rfl, v₀, m, hold, rfl⟩ | ⟨hnew, rfl, rfl⟩
    · obtain ⟨pre, v₀, post, hops, hpre, hin, hn⟩ := ih hold
      refine ⟨pre, v₀, post ++ [op], by simp [hops], hpre, hlater pre v₀ post hops hin, ?_⟩
      simp [hn, Ne.symm hne]
    · obtain ⟨pre, v₁, post, hops, hpre, hin, hn⟩ := ih hold
      refine ⟨pre, v₁, post ++ [op], by simp [hops], hpre, hlater pre v₁ post hops hin, ?_⟩
      simp [hn]
    · exact ⟨ops, v, [], rfl, hnew, fun i => by simpa using hcached, rfl⟩

end Lfu

/-! ## `LFUCache` of unnamed/part_009 -/

/-- `struct Node` (lines 7–10). Its `int freq` changes only by `incInt`, so it stays an `int`. -/
structure Node where
  key : Int
  value : Int
  freq : Int
  deriving DecidableEq, Repr

/-- `x++` on an `int`: undefined past `INT_MAX`. -/
def incInt (x : Int) : Option Int := if x < 2147483647 then some (x + 1) else none

theorem incInt_of_lt {x : Int} (h : x < 2147483647) : incInt x = some (x + 1) := if_pos h

/-- `class LFUCache` (lines 5–65). -/
structure LFUCache where
  capacity : Nat
  minFreq : Int
  /-- `keyNode`: `key ↦` the iterator of its node, as the count of its list and its id. -/
  keyNode : List (Int × (Int × Nat))
  /-- `freqList`: each count's `std::list<Node>`, each node with the id of its iterator. -/
  freqList : Int → List (Nat × Node)
  /-- The id of the next node. -/
  nextId : Nat

namespace LFUCache

/-- `LFUCache(cap)` (line 32). -/
def new (capacity : Nat) : LFUCache := ⟨capacity, 0, [], fun _ => [], 0⟩

/-- `updateFrequency(it)` (lines 16–29), for the entry `(key, it)` of `keyNode`; erasing an
    iterator from a list it is not in is undefined, and so are `minFreq++` (line 23) and
    `node.freq++` (line 26) past `INT_MAX`. -/
def updateFrequency (c : LFUCache) (key : Int) (it : Int × Nat) : Option LFUCache :=
  ((c.freqList it.1).lookup it.2).bind fun node =>
    if it.1 ≠ node.freq then none else
    let rest := (c.freqList node.freq).filter (·.1 ≠ it.2)
    let freqList := Function.update c.freqList node.freq rest
    (if rest.isEmpty ∧ c.minFreq = node.freq then incInt c.minFreq else some c.minFreq).bind
      fun minFreq => (incInt node.freq).map fun freq =>
        { c with
          minFreq := minFreq
          freqList := Function.update freqList freq ((c.nextId, { node with freq }) :: freqList freq)
          keyNode := modify c.keyNode key fun _ => (freq, c.nextId)
          nextId := c.nextId + 1 }

/-- `get(key)` (lines 34–41); `it->second->value` reads the node of the iterator. -/
def get (c : LFUCache) (key : Int) : Option (Int × LFUCache) :=
  if c.capacity = 0 then some (-1, c) else
  match c.keyNode.lookup key with
  | none => some (-1, c)
  | some it => ((c.freqList it.1).lookup it.2).bind fun node =>
    (c.updateFrequency key it).map fun c => (node.value, c)

/-- `it->second->value = value` (line 48). -/
def setValue (c : LFUCache) (it : Int × Nat) (value : Int) : LFUCache :=
  { c with freqList := Function.update c.freqList it.1 ((c.freqList it.1).map fun n =>
      if n.1 = it.2 then (n.1, { n.2 with value := value }) else n) }

/-- `put(key, value)` (lines 43–64); `freqList[minFreq].back()` of an empty list is
    undefined, and erasing the list that `pop_back` empties leaves the empty list. -/
def put (c : LFUCache) (key value : Int) : Option LFUCache :=
  if c.capacity = 0 then some c else
  match c.keyNode.lookup key with
  | some it => (c.setValue it value).updateFrequency key it
  | none => do
    let c ← if c.keyNode.length = c.capacity then
        (c.freqList c.minFreq).getLast?.map fun back =>
          { c with
            keyNode := c.keyNode.filter (·.1 ≠ back.2.key)
            freqList := Function.update c.freqList c.minFreq (c.freqList c.minFreq).dropLast }
      else some c
    pure { c with
      minFreq := 1
      freqList := Function.update c.freqList 1 ((c.nextId, ⟨key, value, 1⟩) :: c.freqList 1)
      keyNode := assign c.keyNode key (1, c.nextId)
      nextId := c.nextId + 1 }

/-- One call. -/
def step (c : LFUCache) : Op → Option (Option Int × LFUCache)
  | .get key => (c.get key).map fun r => (some r.1, r.2)
  | .put key value => (c.put key value).map fun c => (none, c)

/-- `updateFrequency` on the iterator `(n, id)` of a node of count `n`. -/
theorem updateFrequency_eq (c : LFUCache) (key : Int) {n id : Nat} {node : Node}
    (hl : (c.freqList n).lookup id = some node) (hf : node.freq = n) (hn : n < 2147483647) :
    c.updateFrequency key (n, id) = some { c with
      minFreq := if ((c.freqList n).filter (·.1 ≠ id)).isEmpty ∧ c.minFreq = n then c.minFreq + 1
        else c.minFreq
      freqList := Function.update (Function.update c.freqList n ((c.freqList n).filter (·.1 ≠ id)))
        (n + 1) ((c.nextId, { node with freq := n + 1 }) :: c.freqList (n + 1))
      keyNode := modify c.keyNode key fun _ => (n + 1, c.nextId)
      nextId := c.nextId + 1 } := by
  have hinc : incInt (n : Int) = some ((n : Int) + 1) := incInt_of_lt (by omega)
  have hmin : (if ((c.freqList n).filter (·.1 ≠ id)).isEmpty ∧ c.minFreq = n then incInt c.minFreq
      else some c.minFreq) = some (if ((c.freqList n).filter (·.1 ≠ id)).isEmpty ∧ c.minFreq = n
        then c.minFreq + 1 else c.minFreq) := by
    split_ifs with h
    · rw [h.2, hinc]
    · rfl
  simp only [updateFrequency, hl, Option.some_bind, hf, ne_eq, not_true_eq_false, if_false, hmin,
    hinc, Option.map_some']
  rw [hf, Function.update_noteq (show (n : Int) + 1 ≠ n by omega)]

theorem filter_setValue (l : List (Nat × Node)) (id : Nat) (value : Int) :
    (l.map fun n => if n.1 = id then (n.1, { n.2 with value := value }) else n).filter (·.1 ≠ id) =
      l.filter (·.1 ≠ id) := by
  induction l with
  | nil => rfl
  | cons x l ih =>
    by_cases hx : x.1 = id
    · rw [List.map_cons, if_pos hx, List.filter_cons_of_neg (by simpa using hx),
        List.filter_cons_of_neg (by simpa using hx), ih]
    · rw [List.map_cons, if_neg hx, List.filter_cons_of_pos (by simpa using hx),
        List.filter_cons_of_pos (by simpa using hx), ih]

theorem lookup_setValue {l : List (Nat × Node)} (hids : (l.map (·.1)).Nodup) {id : Nat}
    {node : Node} (hl : l.lookup id = some node) (value : Int) :
    (l.map fun n => if n.1 = id then (n.1, { n.2 with value := value }) else n).lookup id =
      some { node with value := value } := by
  refine lookup_of_mem ?_ (List.mem_map.mpr ⟨(id, node), mem_of_lookup hl, by simp⟩)
  rw [List.map_map]
  convert hids using 1
  exact List.map_congr_left fun x _ => by by_cases hx : x.1 = id <;> simp [hx]

/-- `put` of a cached key: `updateFrequency` after the value is set. -/
theorem setValue_updateFrequency (c : LFUCache) (key : Int) {n id : Nat} {node : Node}
    (hids : ((c.freqList n).map (·.1)).Nodup) (hl : (c.freqList n).lookup id = some node)
    (hf : node.freq = n) (hn : n < 2147483647) (value : Int) :
    (c.setValue (n, id) value).updateFrequency key (n, id) = some { c with
      minFreq := if ((c.freqList n).filter (·.1 ≠ id)).isEmpty ∧ c.minFreq = n then c.minFreq + 1
        else c.minFreq
      freqList := Function.update (Function.update c.freqList n ((c.freqList n).filter (·.1 ≠ id)))
        (n + 1) ((c.nextId, { node with value := value, freq := n + 1 }) :: c.freqList (n + 1))
      keyNode := modify c.keyNode key fun _ => (n + 1, c.nextId)
      nextId := c.nextId + 1 } := by
  have hl₁ : ((c.setValue (n, id) value).freqList n).lookup id = some { node with value := value } := by
    simp only [setValue, Function.update_same]; exact lookup_setValue hids hl value
  rw [updateFrequency_eq _ key hl₁ hf hn]
  simp only [setValue, Function.update_same, Function.update_idem, filter_setValue,
    Function.update_noteq (show (n : Int) + 1 ≠ n by omega)]

/-- The entries of count `f`, most recently used first, as the nodes of `freqList[f]`. -/
def nodesOf (entries : List (Int × Int × Nat)) (f : Int) : List Node :=
  (entries.filter fun e => (e.2.2 : Int) = f).map fun e => ⟨e.1, e.2.1, e.2.2⟩

theorem nodesOf_cons (e : Int × Int × Nat) (entries : List (Int × Int × Nat)) (f : Int) :
    nodesOf (e :: entries) f =
      if (e.2.2 : Int) = f then ⟨e.1, e.2.1, e.2.2⟩ :: nodesOf entries f else nodesOf entries f := by
  by_cases he : (e.2.2 : Int) = f <;> simp [nodesOf, List.filter_cons, he]

theorem nodesOf_filter (entries : List (Int × Int × Nat)) (key f : Int) :
    nodesOf (entries.filter (·.1 ≠ key)) f = (nodesOf entries f).filter (·.key ≠ key) := by
  simp only [nodesOf, List.filter_map, List.filter_filter]
  congr 2; funext e; exact Bool.and_comm _ _

theorem mem_nodesOf {entries : List (Int × Int × Nat)} {f : Int} {node : Node} :
    node ∈ nodesOf entries f ↔ ∃ e ∈ entries, (e.2.2 : Int) = f ∧ node = ⟨e.1, e.2.1, e.2.2⟩ := by
  simp only [nodesOf, List.mem_map, List.mem_filter, decide_eq_true_eq]
  exact ⟨fun ⟨e, ⟨he, hf⟩, hn⟩ => ⟨e, he, hf, hn.symm⟩, fun ⟨e, he, hf, hn⟩ => ⟨e, ⟨he, hf⟩, hn.symm⟩⟩

theorem nodup_keys_nodesOf {entries : List (Int × Int × Nat)} (hnd : (entries.map (·.1)).Nodup)
    (f : Int) : ((nodesOf entries f).map (·.key)).Nodup := by
  simp only [nodesOf, List.map_map]
  exact hnd.sublist ((List.filter_sublist _).map _)

/-- `c` holds the entries `a` of the policy, but for `minFreq`: `freqList[f]` has the nodes
    of the entries of count `f` in the policy's order, with distinct iterators below
    `nextId`, and `keyNode` gives each cached key the iterator of its node. -/
structure Agrees (c : LFUCache) (a : Lfu) : Prop where
  capacity : c.capacity = a.capacity
  lists : ∀ f, (c.freqList f).map (·.2) = nodesOf a.entries f
  ids : ∀ f, ((c.freqList f).map (·.1)).Nodup
  fresh : ∀ f n, n ∈ c.freqList f → n.1 < c.nextId
  keys : ∀ k, k ∈ c.keyNode.map (·.1) ↔ k ∈ a.keys
  keysNodup : (c.keyNode.map (·.1)).Nodup
  iter : ∀ k f it, c.keyNode.lookup k = some (f, it) →
    ∃ node, (it, node) ∈ c.freqList f ∧ node.key = k

/-- `c` holds the entries `a`, and `minFreq` is their least count. -/
structure Holds (c : LFUCache) (a : Lfu) extends Agrees c a : Prop where
  minFreq : a.entries ≠ [] →
    (∃ e ∈ a.entries, (e.2.2 : Int) = c.minFreq) ∧ ∀ e ∈ a.entries, c.minFreq ≤ e.2.2

section Holds

variable {c : LFUCache} {a : Lfu}

theorem Agrees.mem (h : c.Agrees a) {f : Int} {it : Nat} {node : Node} (hn : (it, node) ∈ c.freqList f) :
    ∃ e ∈ a.entries, (e.2.2 : Int) = f ∧ node = ⟨e.1, e.2.1, e.2.2⟩ :=
  mem_nodesOf.mp (h.lists f ▸ List.mem_map_of_mem (·.2) hn)

theorem Agrees.keysNodupAt (h : c.Agrees a) (hnd : a.keys.Nodup) (f : Int) :
    ((c.freqList f).map (·.2.key)).Nodup := by
  have := congrArg (List.map (·.key)) (h.lists f)
  rw [List.map_map] at this
  exact this ▸ nodup_keys_nodesOf hnd f

/-- The iterator of a cached key is the node of its entry. -/
theorem Agrees.entry (h : c.Agrees a) {key : Int} {it : Int × Nat}
    (hk : c.keyNode.lookup key = some it) :
    ∃ v n, (key, v, n) ∈ a.entries ∧ it.1 = n ∧ (c.freqList it.1).lookup it.2 = some ⟨key, v, n⟩ := by
  obtain ⟨node, hn, rfl⟩ := h.iter key it.1 it.2 hk
  obtain ⟨⟨k, v, n⟩, he, hf, rfl⟩ := h.mem hn
  exact ⟨v, n, he, hf.symm, lookup_of_mem (h.ids _) hn⟩

theorem Agrees.lookup_none (h : c.Agrees a) {key : Int} :
    c.keyNode.lookup key = none ↔ a.entries.lookup key = none := by
  rw [lookup_eq_none_iff, lookup_eq_none_iff, h.keys]; rfl

theorem Agrees.length (h : c.Agrees a) (hnd : a.keys.Nodup) : c.keyNode.length = a.entries.length := by
  have hp : (c.keyNode.map (·.1)).Perm a.keys :=
    (List.perm_ext_iff_of_nodup h.keysNodup hnd).mpr h.keys
  simpa [Lfu.keys] using hp.length_eq

/-- The node of `key` is in the list of its count only. -/
theorem Agrees.filter_key (h : c.Agrees a) (hnd : a.keys.Nodup) {key v : Int} {n : Nat}
    (he : (key, v, n) ∈ a.entries) {g : Int} (hg : g ≠ n) :
    (c.freqList g).filter (·.2.key ≠ key) = c.freqList g :=
  List.filter_eq_self.mpr fun x hx => decide_eq_true fun hkey => by
    obtain ⟨e, he', hf, hx2⟩ := h.mem hx
    have : e = (key, v, n) := List.inj_on_of_nodup_map hnd he' he (by rw [← hkey, hx2])
    exact hg (by rw [← hf, this])

theorem nodesOf_eq_nil {entries : List (Int × Int × Nat)} {f : Int} :
    nodesOf entries f = [] ↔ ∀ e ∈ entries, (e.2.2 : Int) ≠ f := by
  simp [nodesOf, List.filter_eq_nil_iff]

/-- The lists without the node of `key`, as the policy's entries without `key`. -/
theorem Agrees.map_filter_key (h : c.Agrees a) (key g : Int) :
    ((c.freqList g).filter (·.2.key ≠ key)).map (·.2) = nodesOf (a.entries.filter (·.1 ≠ key)) g := by
  rw [nodesOf_filter, ← h.lists g, List.filter_map]; rfl

/-- A node with the iterator `nextId` pushed in front of one list, when every list has
    distinct iterators below `nextId`: every list still has distinct iterators, all below
    `nextId + 1`. -/
theorem ids_push {L : Int → List (Nat × Node)} {nextId : Nat}
    (hids : ∀ f, ((L f).map (·.1)).Nodup) (hfresh : ∀ f n, n ∈ L f → n.1 < nextId)
    (f₀ : Int) (node : Node) :
    (∀ f, ((Function.update L f₀ ((nextId, node) :: L f₀) f).map (·.1)).Nodup) ∧
      ∀ f n, n ∈ Function.update L f₀ ((nextId, node) :: L f₀) f → n.1 < nextId + 1 := by
  refine ⟨fun f => ?_, fun f n hn => ?_⟩
  · rw [Function.update_apply]
    split_ifs
    · refine List.nodup_cons.mpr ⟨fun hin => ?_, hids _⟩
      obtain ⟨x, hx, hx1⟩ := List.mem_map.mp hin
      exact absurd (hx1 ▸ hfresh _ x hx) (Nat.lt_irrefl _)
    · exact hids f
  · rw [Function.update_apply] at hn
    split_ifs at hn
    · rcases List.mem_cons.mp hn with rfl | hn
      · exact Nat.lt_succ_self _
      · exact Nat.lt_succ_of_lt (hfresh _ n hn)
    · exact Nat.lt_succ_of_lt (hfresh f n hn)

/-- `updateFrequency` moves the node of `key` from the list of its count `n` to the front of
    the list of `n + 1`, with a new iterator, as the policy moves its entry to the front. -/
theorem Agrees.touch (h : c.Agrees a) (hnd : a.keys.Nodup) {key v : Int} {n : Nat}
    (he : (key, v, n) ∈ a.entries) (value minFreq : Int) :
    Agrees { c with
      minFreq := minFreq
      freqList := Function.update (fun g => (c.freqList g).filter (·.2.key ≠ key)) (n + 1)
        ((c.nextId, ⟨key, value, n + 1⟩) :: c.freqList (n + 1))
      keyNode := modify c.keyNode key fun _ => (n + 1, c.nextId)
      nextId := c.nextId + 1 } (a.touch key value n) := by
  rw [← h.filter_key hnd he (show (n : Int) + 1 ≠ n by omega)]
  have hkey : key ∈ a.keys := List.mem_map_of_mem (·.1) he
  have hsub : ∀ g, ((c.freqList g).filter (·.2.key ≠ key)).Sublist (c.freqList g) :=
    fun g => List.filter_sublist _
  obtain ⟨hids, hfresh⟩ := ids_push (fun g => (h.ids g).sublist ((hsub g).map _))
    (fun g x hx => h.fresh g x ((hsub g).subset hx)) (n + 1) ⟨key, value, n + 1⟩
  refine ⟨h.capacity, fun g => ?_, hids, hfresh, fun k => ?_,
    by dsimp only; rw [keys_modify]; exact h.keysNodup, fun k f it hk => ?_⟩
  · simp only [Lfu.touch, nodesOf_cons, Function.update_apply]
    split_ifs with hg hg' hg'
    · subst hg; rw [List.map_cons, h.map_filter_key, hg']
    · push_cast at hg'; exact absurd hg.symm hg'
    · push_cast at hg'; exact absurd hg'.symm hg
    · exact h.map_filter_key key g
  · dsimp only
    rw [keys_modify, h.keys, Lfu.keys_touch, List.mem_cons, List.mem_filter]
    by_cases hk : k = key
    · simp [hk, hkey]
    · simp [hk]
  · simp only [lookup_modify] at hk
    split_ifs at hk with hkk
    · obtain ⟨_, -, hl⟩ := Option.map_eq_some'.mp hk
      cases hl
      exact ⟨⟨key, value, n + 1⟩, by simp [Function.update_apply], hkk.symm⟩
    · obtain ⟨node, hn, rfl⟩ := h.iter k f it hk
      refine ⟨node, ?_, rfl⟩
      have hn' : (it, node) ∈ (c.freqList f).filter (·.2.key ≠ key) :=
        List.mem_filter.mpr ⟨hn, by simpa using hkk⟩
      simp only [Function.update_apply]
      split_ifs with hf
      · exact List.mem_cons_of_mem _ (hf ▸ hn')
      · exact hn'

/-- `updateFrequency` as a `get` and a `put` of a cached key run it: the node of `key`,
    of count `n` and id `id`, with the value `value`, leaves its list, and `minFreq` moves
    up if it left the list of `minFreq` empty. -/
theorem Holds.touch (h : c.Holds a) (hnd : a.keys.Nodup) {key v : Int} {n id : Nat}
    (he : (key, v, n) ∈ a.entries) (hid : (id, ⟨key, v, n⟩) ∈ c.freqList n) (value : Int) :
    Holds { c with
      minFreq := if ((c.freqList n).filter (·.1 ≠ id)).isEmpty ∧ c.minFreq = n then c.minFreq + 1
        else c.minFreq
      freqList := Function.update (Function.update c.freqList n ((c.freqList n).filter (·.1 ≠ id)))
        (n + 1) ((c.nextId, ⟨key, value, n + 1⟩) :: c.freqList (n + 1))
      keyNode := modify c.keyNode key fun _ => (n + 1, c.nextId)
      nextId := c.nextId + 1 } (a.touch key value n) := by
  have hrest : (c.freqList n).filter (·.1 ≠ id) = (c.freqList n).filter (·.2.key ≠ key) :=
    filter_id_eq_filter_key Node.key (h.ids n) (h.keysNodupAt hnd n) hid
  have hfil : Function.update c.freqList n ((c.freqList n).filter (·.2.key ≠ key)) =
      fun g => (c.freqList g).filter (·.2.key ≠ key) := by
    funext g
    by_cases hg : g = n
    · subst hg; exact Function.update_same _ _ _
    · rw [Function.update_noteq hg, h.filter_key hnd he hg]
  have hempty : ((c.freqList n).filter (·.2.key ≠ key)).isEmpty = true ↔
      ∀ e ∈ a.entries.filter (·.1 ≠ key), (e.2.2 : Int) ≠ n := by
    rw [List.isEmpty_iff, ← nodesOf_eq_nil, ← h.map_filter_key, List.map_eq_nil_iff]
  rw [hrest, hfil]
  refine ⟨h.toAgrees.touch hnd he value _, fun _ => ?_⟩
  obtain ⟨⟨e₀, he₀, hm₀⟩, hle⟩ := h.minFreq (List.ne_nil_of_mem he)
  have hvn : c.minFreq ≤ n := hle _ he
  simp only [Lfu.touch, List.mem_cons, List.mem_filter, decide_eq_true_eq]
  split_ifs with hcase
  · obtain ⟨hemp, hmn⟩ := hcase
    refine ⟨⟨_, .inl rfl, by push_cast; omega⟩, ?_⟩
    rintro e (rfl | ⟨he', hek⟩)
    · push_cast; omega
    · have := (hempty.mp hemp) e (List.mem_filter.mpr ⟨he', by simpa using hek⟩)
      have := hle e he'
      omega
  · refine ⟨?_, ?_⟩
    · by_cases hk₀ : e₀.1 = key
      · have he₀n : e₀ = (key, v, n) := List.inj_on_of_nodup_map hnd he₀ he hk₀
        subst he₀n
        have hne : ¬((c.freqList n).filter (·.2.key ≠ key)).isEmpty = true := fun hemp => hcase ⟨hemp, hm₀.symm⟩
        rw [hempty] at hne
        push_neg at hne
        obtain ⟨e, he', hen⟩ := hne
        exact ⟨e, .inr (by simpa using he'), hen.trans hm₀⟩
      · exact ⟨e₀, .inr ⟨he₀, hk₀⟩, hm₀⟩
    · rintro e (rfl | ⟨he', -⟩)
      · push_cast; omega
      · exact hle e he'

/-- `put` of a new key: its node in front of `freqList[1]` with a new iterator, and
    `minFreq = 1`, as the policy's new entry of count `1` in front. -/
theorem Agrees.insert (h : c.Agrees a) {key : Int} (hkey : key ∉ a.keys) (value : Int)
    (hpos : ∀ e ∈ a.entries, 1 ≤ e.2.2) :
    Holds { c with
      minFreq := 1
      freqList := Function.update c.freqList 1 ((c.nextId, ⟨key, value, 1⟩) :: c.freqList 1)
      keyNode := assign c.keyNode key (1, c.nextId)
      nextId := c.nextId + 1 } { a with entries := (key, value, 1) :: a.entries } := by
  have hkey' : key ∉ c.keyNode.map (·.1) := fun hk => hkey ((h.keys key).mp hk)
  obtain ⟨hids, hfresh⟩ := ids_push h.ids h.fresh 1 ⟨key, value, 1⟩
  refine ⟨⟨h.capacity, fun g => ?_, hids, hfresh, fun k => ?_, ?_,
    fun k f it hk => ?_⟩, fun _ => ⟨⟨_, List.mem_cons_self _ _, rfl⟩, fun e he => ?_⟩⟩
  · dsimp only
    rw [nodesOf_cons, Function.update_apply]
    by_cases hg : g = 1
    · subst hg; rw [if_pos rfl, List.map_cons, h.lists]; exact (if_pos rfl).symm
    · rw [if_neg hg, if_neg fun h' => hg h'.symm]; exact h.lists g
  · dsimp only
    rw [assign_of_not_mem hkey', List.map_append, List.mem_append, h.keys, Lfu.keys, Lfu.keys]
    simp [or_comm]
  · dsimp only
    rw [assign_of_not_mem hkey', List.map_append]
    exact h.keysNodup.append (List.nodup_singleton _) (List.disjoint_singleton.mpr hkey')
  · simp only [assign_of_not_mem hkey', lookup_append_of_not_mem hkey'] at hk
    split_ifs at hk with hkk
    · cases hk
      exact ⟨⟨key, value, 1⟩, by simp [Function.update_apply], hkk.symm⟩
    · obtain ⟨node, hn, rfl⟩ := h.iter k f it hk
      refine ⟨node, ?_, rfl⟩
      simp only [Function.update_apply]
      split_ifs with hf
      · exact List.mem_cons_of_mem _ (hf ▸ hn)
      · exact hn
  · rcases List.mem_cons.mp he with rfl | he
    · exact le_refl _
    · show (1 : Int) ≤ e.2.2; exact_mod_cast hpos e he

/-- In a non-empty cache, the back of `freqList[minFreq]` is the node of the policy's victim,
    and dropping it and its key drops the victim's entry. -/
theorem Holds.evict (h : c.Holds a) (hnd : a.keys.Nodup) (hne : a.entries ≠ []) :
    ∃ e back, a.victim = some e ∧ (c.freqList c.minFreq).getLast? = some back ∧ back.2.key = e ∧
      Agrees { c with
        keyNode := c.keyNode.filter (·.1 ≠ e)
        freqList := Function.update c.freqList c.minFreq (c.freqList c.minFreq).dropLast }
        { a with entries := a.entries.filter (·.1 ≠ e) } := by
  obtain ⟨⟨e₀, he₀, hm₀⟩, hle⟩ := h.minFreq hne
  set m := e₀.2.2
  have hleast : ∀ x ∈ a.entries, m ≤ x.2.2 := fun x hx => by have := hle x hx; omega
  have hnodes : nodesOf a.entries c.minFreq =
      (a.entries.filter (·.2.2 = m)).map fun e => (⟨e.1, e.2.1, e.2.2⟩ : Node) := by
    rw [nodesOf, ← hm₀]
    congr 1
    exact List.filter_congr fun x _ => by simp only [decide_eq_decide]; exact Int.ofNat_inj
  obtain ⟨x, hx⟩ : ∃ x, (a.entries.filter (·.2.2 = m)).getLast? = some x :=
    Option.ne_none_iff_exists'.mp fun hnone => by
      have hmem : e₀ ∈ a.entries.filter (·.2.2 = m) := List.mem_filter.mpr ⟨he₀, by simp [m]⟩
      rw [List.getLast?_eq_none_iff.mp hnone] at hmem
      exact List.not_mem_nil _ hmem
  have hlast : ((c.freqList c.minFreq).getLast?).map (·.2) = some ⟨x.1, x.2.1, x.2.2⟩ := by
    rw [← List.getLast?_map, h.lists, hnodes, List.getLast?_map, hx]; rfl
  obtain ⟨back, hback, hb⟩ := Option.map_eq_some'.mp hlast
  obtain ⟨hxmem, hxm⟩ := List.mem_filter.mp (List.mem_of_getLast?_eq_some hx)
  simp only [decide_eq_true_eq] at hxm
  have hxe : (x.1, x.2.1, x.2.2) ∈ a.entries := hxmem
  refine ⟨x.1, back, by rw [Lfu.victim_eq ⟨e₀, he₀, rfl⟩ hleast, hx]; rfl, hback, by rw [hb],
    h.capacity, fun g => ?_, fun g => ?_, fun g y hy => ?_, fun k => ?_, ?_, fun k f it hk => ?_⟩
  · simp only [Function.update_apply]
    split_ifs with hg
    · subst hg
      rw [List.map_dropLast, h.lists, nodesOf_filter,
        dropLast_eq_filter Node.key (nodup_keys_nodesOf hnd _) (by rw [← h.lists, List.getLast?_map, hback]; rfl)]
      simp only [hb]
    · rw [← h.map_filter_key, h.filter_key hnd hxe (by rw [hxm, hm₀]; exact hg), h.lists]
  · simp only [Function.update_apply]
    split_ifs
    · exact (h.ids _).sublist ((List.dropLast_sublist _).map _)
    · exact h.ids g
  · simp only [Function.update_apply] at hy
    split_ifs at hy
    · exact h.fresh _ y ((List.dropLast_sublist _).subset hy)
    · exact h.fresh g y hy
  · dsimp only
    rw [Lfu.keys_filter, Lfu.keys, Lfu.keys_filter, List.mem_filter, List.mem_filter, h.keys]; rfl
  · dsimp only
    rw [Lfu.keys_filter]
    exact h.keysNodup.filter _
  · simp only [lookup_filter_ne] at hk
    split_ifs at hk with hke
    obtain ⟨node, hn, rfl⟩ := h.iter k f it hk
    refine ⟨node, ?_, rfl⟩
    simp only [Function.update_apply]
    split_ifs with hf
    · subst hf
      exact (mem_dropLast_iff (·.2.key) (h.keysNodupAt hnd _) hback).mpr ⟨hn, by rw [hb]; exact hke⟩
    · exact hn

/-- `get` of a key not in the cache returns `-1`. -/
theorem Holds.step_get_miss (h : c.Holds a) (hc0 : c.capacity ≠ 0) {key : Int}
    (hk : c.keyNode.lookup key = none) :
    ∃ r, c.step (.get key) = some r ∧ r.1 = (a.step (.get key)).1 ∧
      r.2.Holds (a.step (.get key)).2 := by
  have ha : a.entries.lookup key = none := h.lookup_none.mp hk
  exact ⟨(some (-1), c), by simp [LFUCache.step, get, hc0, hk], by simp [Lfu.step, Lfu.get, ha],
    by simpa [Lfu.step, Lfu.get, ha] using h⟩

/-- `put` of a new key into a full cache evicts the policy's victim, then puts the key in
    front of `freqList[1]`. -/
theorem Holds.step_put_evict {ops : List Op} (h : c.Holds a) (hv : a.Valid ops)
    (hc : 1 ≤ a.capacity) {key value : Int} (hk : c.keyNode.lookup key = none)
    (hfull : c.keyNode.length = c.capacity) :
    ∃ r, c.step (.put key value) = some r ∧ r.1 = (a.step (.put key value)).1 ∧
      r.2.Holds (a.step (.put key value)).2 := by
  have hc0 : c.capacity ≠ 0 := by rw [h.capacity]; omega
  have ha : a.entries.lookup key = none := h.lookup_none.mp hk
  have hkey : key ∉ a.keys := lookup_eq_none_iff.mp ha
  have hlen : a.entries.length = a.capacity := by rw [← h.length hv.nodup, hfull, h.capacity]
  obtain ⟨e, back, hvict, hback, hbk, hA⟩ :=
    h.evict hv.nodup fun hnil => by simp [hnil] at hlen; omega
  have hkey₁ : key ∉ (a.entries.filter (·.1 ≠ e)).map (·.1) := fun hk' =>
    hkey (((List.filter_sublist _).map _).subset hk')
  obtain ⟨c', hc', hH⟩ : ∃ c', c.put key value = some c' ∧
      c'.Holds { a with entries := (key, value, 1) :: a.entries.filter (·.1 ≠ e) } :=
    ⟨_, by simp [put, hc0, hk, hfull, hback, hbk],
      hA.insert hkey₁ value fun e' he' => hv.count_pos e' (List.mem_filter.mp he').1⟩
  exact ⟨(none, c'), by simp [LFUCache.step, hc'], rfl,
    by simpa [Lfu.step, Lfu.put, ha, hvict, hlen] using hH⟩

/-- `put` of a new key into a cache with room puts it in front of `freqList[1]`. -/
theorem Holds.step_put_room {ops : List Op} (h : c.Holds a) (hv : a.Valid ops)
    (hc0 : c.capacity ≠ 0) {key value : Int} (hk : c.keyNode.lookup key = none)
    (hroom : c.keyNode.length ≠ c.capacity) :
    ∃ r, c.step (.put key value) = some r ∧ r.1 = (a.step (.put key value)).1 ∧
      r.2.Holds (a.step (.put key value)).2 := by
  have ha : a.entries.lookup key = none := h.lookup_none.mp hk
  have hroom' : ¬a.capacity ≤ a.entries.length := by
    have := h.length hv.nodup; have := hv.length_le; have := h.capacity; omega
  obtain ⟨c', hc', hH⟩ : ∃ c', c.put key value = some c' ∧
      c'.Holds { a with entries := (key, value, 1) :: a.entries } :=
    ⟨_, by simp [put, hc0, hk, hroom], h.toAgrees.insert (lookup_eq_none_iff.mp ha) value hv.count_pos⟩
  exact ⟨(none, c'), by simp [LFUCache.step, hc'], rfl,
    by simpa [Lfu.step, Lfu.put, ha, hroom'] using hH⟩

/-- A call on a cached key runs `updateFrequency` on it, after setting its value for a
    `put`. -/
theorem Holds.step_hit {ops : List Op} (h : c.Holds a) (hv : a.Valid ops) (hc0 : c.capacity ≠ 0)
    (hlen : ops.length < 2147483647) {op : Op} {it : Int × Nat}
    (hk : c.keyNode.lookup op.key = some it) :
    ∃ r, c.step op = some r ∧ r.1 = (a.step op).1 ∧ r.2.Holds (a.step op).2 := by
  obtain ⟨v, n, he, hn, hid⟩ := h.entry hk
  obtain ⟨f, id⟩ := it
  simp only at hn hid
  subst hn
  have hmax : n < 2147483647 := (hv.count_le _ he).trans_lt hlen
  have ha : a.entries.lookup op.key = some (v, n) := lookup_of_mem hv.nodup he
  cases op with
  | get key =>
    simp only [Op.key] at hk ha he hid
    obtain ⟨c', hc', hH⟩ : ∃ c', c.updateFrequency key (n, id) = some c' ∧
        c'.Holds (a.touch key v n) :=
      ⟨_, updateFrequency_eq c key hid rfl hmax, h.touch hv.nodup he (mem_of_lookup hid) v⟩
    exact ⟨(some v, c'), by simp [LFUCache.step, get, hc0, hk, hid, hc'],
      by simp [Lfu.step, Lfu.get, ha], by simpa [Lfu.step, Lfu.get, ha] using hH⟩
  | put key value =>
    simp only [Op.key] at hk ha he hid
    obtain ⟨c', hc', hH⟩ : ∃ c', (c.setValue (n, id) value).updateFrequency key (n, id) = some c' ∧
        c'.Holds (a.touch key value n) :=
      ⟨_, setValue_updateFrequency c key (h.ids _) hid rfl hmax value,
        h.touch hv.nodup he (mem_of_lookup hid) value⟩
    exact ⟨(none, c'), by simp [LFUCache.step, put, hc0, hk, hc'], rfl,
      by simpa [Lfu.step, Lfu.put, ha] using hH⟩

/-- Each call before the `2^31 - 1`-th returns what the policy returns, and keeps `Holds`. -/
theorem Holds.step {ops : List Op} (h : c.Holds a) (hv : a.Valid ops) (hc : 1 ≤ a.capacity)
    (hlen : ops.length < 2147483647) (op : Op) :
    ∃ r, c.step op = some r ∧ r.1 = (a.step op).1 ∧ r.2.Holds (a.step op).2 := by
  have hc0 : c.capacity ≠ 0 := by rw [h.capacity]; omega
  cases hk : c.keyNode.lookup op.key with
  | some it => exact h.step_hit hv hc0 hlen hk
  | none =>
    cases op with
    | get key => exact h.step_get_miss hc0 hk
    | put key value =>
      by_cases hfull : c.keyNode.length = c.capacity
      · exact h.step_put_evict hv hc hk hfull
      · exact h.step_put_room hv hc0 hk hfull

end Holds

/-- **part_009's `LFUCache` refines the policy.** For `capacity ≥ 1` and every sequence of at
    most `INT_MAX` calls, the class runs without undefined behaviour, returns what the policy
    returns, and holds the policy's entries: a count is at most the number of calls made, so
    no `freq++` passes `INT_MAX`. -/
theorem refines (capacity : Nat) (hc : 1 ≤ capacity) (ops : List Op)
    (hlen : ops.length ≤ 2147483647) :
    ∃ r, runOpsM step (new capacity) ops = some r ∧
      r.1 = (runOps Lfu.step ⟨capacity, []⟩ ops).1 ∧
      r.2.Holds (runOps Lfu.step ⟨capacity, []⟩ ops).2 := by
  obtain ⟨r, hr, hout, hR, -⟩ := runOpsM_sim_of_length_le (s := new capacity) (t := ⟨capacity, []⟩)
    step Lfu.step (fun ops c a => c.Holds a ∧ a.Valid ops ∧ a.capacity = capacity) 2147483647
    ⟨⟨⟨rfl, fun _ => rfl, fun _ => List.nodup_nil, (fun _ _ h => nomatch h), fun _ => Iff.rfl,
        List.nodup_nil, fun _ _ _ h => nomatch h⟩, fun h => absurd rfl h⟩,
      ⟨List.nodup_nil, Nat.zero_le _, (fun _ _ _ h => nomatch h), List.nil_sublist _,
        (fun _ h => nomatch h), fun _ h => nomatch h⟩, rfl⟩
    (fun ops c a op hops ⟨h, hv, hcap⟩ => by
      obtain ⟨r, hr, hout, hR⟩ := h.step hv (hcap ▸ hc) hops op
      exact ⟨r, hr, hout, hR, Lfu.valid_step (hcap ▸ hc) hv op, by simp [hcap]⟩) ops hlen
  exact ⟨r, hr, hout, hR⟩

end LFUCache

/-! ## The LFU policy of part_009 -/

theorem lfu_policy (capacity : Nat) (hc : 1 ≤ capacity) (ops : List Op)
    (hlen : ops.length ≤ 2147483647) :
    (∃ r, runOpsM LFUCache.step (LFUCache.new capacity) ops = some r ∧
      r.1 = (runOps Lfu.step ⟨capacity, []⟩ ops).1 ∧
      r.2.Holds (runOps Lfu.step ⟨capacity, []⟩ ops).2) ∧
    (∀ key, (((runOps Lfu.step ⟨capacity, []⟩ ops).2.get key).1 = -1 ∧
        key ∉ (runOps Lfu.step ⟨capacity, []⟩ ops).2.keys) ∨
      (key ∈ (runOps Lfu.step ⟨capacity, []⟩ ops).2.keys ∧
        lastPut ops key = some ((runOps Lfu.step ⟨capacity, []⟩ ops).2.get key).1)) ∧
    (runOps Lfu.step ⟨capacity, []⟩ ops).2.entries.length ≤ capacity ∧
    (∀ k v n, (k, v, n) ∈ (runOps Lfu.step ⟨capacity, []⟩ ops).2.entries →
      ∃ pre v₀ post, ops = pre ++ .put k v₀ :: post ∧
        k ∉ (runOps Lfu.step ⟨capacity, []⟩ pre).2.keys ∧
        (∀ i, k ∈ (runOps Lfu.step ⟨capacity, []⟩ (pre ++ .put k v₀ :: post.take i)).2.keys) ∧
        n = (post.filter (·.key = k)).length + 1) ∧
    ∀ key value, key ∉ (runOps Lfu.step ⟨capacity, []⟩ ops).2.keys →
      (runOps Lfu.step ⟨capacity, []⟩ ops).2.entries.length = capacity →
      ∃ e v n, (e, v, n) ∈ (runOps Lfu.step ⟨capacity, []⟩ ops).2.entries ∧
        ((runOps Lfu.step ⟨capacity, []⟩ ops).2.put key value).keys =
          key :: (runOps Lfu.step ⟨capacity, []⟩ ops).2.keys.filter (· ≠ e) ∧
        ∀ k v' n', (k, v', n') ∈ (runOps Lfu.step ⟨capacity, []⟩ ops).2.entries →
          n ≤ n' ∧ (n' = n → k ≠ e → [k, e].Sublist (recency (ops.map Op.key))) := by
  obtain ⟨hv, hcap⟩ := Lfu.valid_run capacity hc ops
  refine ⟨LFUCache.refines capacity hc ops hlen, fun key => ?_, hv.length_le.trans_eq hcap,
    fun k v n hk => Lfu.count_run capacity ops hk, fun key value hkey hfull => ?_⟩
  · cases hl : (runOps Lfu.step ⟨capacity, []⟩ ops).2.entries.lookup key with
    | none => exact .inl ⟨by simp [Lfu.get, hl], lookup_eq_none_iff.mp hl⟩
    | some x =>
      exact .inr ⟨List.mem_map_of_mem (·.1) (mem_of_lookup hl),
        by simpa [Lfu.get, hl] using hv.lastPut _ _ _ (mem_of_lookup hl)⟩
  · obtain ⟨e, v, n, hvict, he, hmin⟩ := hv.evict fun hnil => by simp [hnil] at hfull; omega
    refine ⟨e, v, n, he, ?_, hmin⟩
    rw [Lfu.put, lookup_eq_none_iff.mpr hkey, if_pos (by rw [hfull, hcap])]
    simp only [Lfu.keys, List.map_cons, hvict, ne_eq, Option.some.injEq]
    rw [List.filter_map]; rfl

/-- The calls of `main` (lines 67–82). -/
def lfuMainCalls : List Op :=
  [.put 1 1, .put 2 2, .get 1, .put 3 3, .get 2, .get 3, .put 4 4, .get 1, .get 3, .get 4]

/-- `put(3, 3)` evicts key 2, of count 1; `put(4, 4)` evicts key 1, of count 2 like key 3 but
    used before it. -/
example : (runOpsM LFUCache.step (LFUCache.new 2) lfuMainCalls).map (·.1) =
    some [none, none, some 1, none, some (-1), some 3, none, some (-1), some 3, some 4] := by
  decide


theorem lfu_policy_lfuMainCalls : 1 ≤ 2 ∧ lfuMainCalls.length ≤ 2147483647 ∧
    (∃ r, runOpsM LFUCache.step (LFUCache.new 2) lfuMainCalls = some r ∧
      r.1 = (runOps Lfu.step ⟨2, []⟩ lfuMainCalls).1 ∧
      r.2.Holds (runOps Lfu.step ⟨2, []⟩ lfuMainCalls).2) ∧
    (∀ key, (((runOps Lfu.step ⟨2, []⟩ lfuMainCalls).2.get key).1 = -1 ∧
        key ∉ (runOps Lfu.step ⟨2, []⟩ lfuMainCalls).2.keys) ∨
      (key ∈ (runOps Lfu.step ⟨2, []⟩ lfuMainCalls).2.keys ∧
        lastPut lfuMainCalls key = some ((runOps Lfu.step ⟨2, []⟩ lfuMainCalls).2.get key).1)) ∧
    (runOps Lfu.step ⟨2, []⟩ lfuMainCalls).2.entries.length ≤ 2 ∧
    (∀ k v n, (k, v, n) ∈ (runOps Lfu.step ⟨2, []⟩ lfuMainCalls).2.entries →
      ∃ pre v₀ post, lfuMainCalls = pre ++ .put k v₀ :: post ∧
        k ∉ (runOps Lfu.step ⟨2, []⟩ pre).2.keys ∧
        (∀ i, k ∈ (runOps Lfu.step ⟨2, []⟩ (pre ++ .put k v₀ :: post.take i)).2.keys) ∧
        n = (post.filter (·.key = k)).length + 1) ∧
    ∀ key value, key ∉ (runOps Lfu.step ⟨2, []⟩ lfuMainCalls).2.keys →
      (runOps Lfu.step ⟨2, []⟩ lfuMainCalls).2.entries.length = 2 →
      ∃ e v n, (e, v, n) ∈ (runOps Lfu.step ⟨2, []⟩ lfuMainCalls).2.entries ∧
        ((runOps Lfu.step ⟨2, []⟩ lfuMainCalls).2.put key value).keys =
          key :: (runOps Lfu.step ⟨2, []⟩ lfuMainCalls).2.keys.filter (· ≠ e) ∧
        ∀ k v' n', (k, v', n') ∈ (runOps Lfu.step ⟨2, []⟩ lfuMainCalls).2.entries →
          n ≤ n' ∧ (n' = n → k ≠ e → [k, e].Sublist (recency (lfuMainCalls.map Op.key))) :=
  ⟨by decide, by decide, lfu_policy 2 (by decide) lfuMainCalls (by decide)⟩

/-! ## A count past `INT_MAX` -/

namespace LFUCache

/-- The cache after `put(key, value)` and `m` calls `get(key)` from a new cache: the key's node,
    of count `m + 1`, alone in its list, with the iterator id `m`. -/
def single (capacity : Nat) (key value : Int) (m : Nat) : LFUCache :=
  ⟨capacity, ↑(m + 1), [(key, (↑(m + 1), m))],
    Function.update (fun _ => []) ↑(m + 1) [(m, ⟨key, value, ↑(m + 1)⟩)], m + 1⟩

theorem put_new (capacity : Nat) (hc : 1 ≤ capacity) (key value : Int) :
    (new capacity).put key value = some (single capacity key value 0) := by
  have hc0 : capacity ≠ 0 := by omega
  simp [put, new, single, hc0, Ne.symm hc0, assign]

/-- A `get` of the key moves its node one count up, and is undefined once the count is
    `INT_MAX`: `minFreq++` then passes it. -/
theorem get_single (capacity : Nat) (hc : 1 ≤ capacity) (key value : Int) (m : Nat) :
    (single capacity key value m).get key =
      if m + 1 < 2147483647 then some (value, single capacity key value (m + 1)) else none := by
  have hl : ((single capacity key value m).freqList ↑(m + 1)).lookup m =
      some ⟨key, value, ↑(m + 1)⟩ := by
    simp [single]
  have hc0 : (single capacity key value m).capacity ≠ 0 := by simp [single]; omega
  have hk : (single capacity key value m).keyNode.lookup key = some (↑(m + 1), m) := by simp [single]
  rw [get, if_neg hc0, hk]
  dsimp only
  rw [hl, Option.some_bind]
  by_cases h : m + 1 < 2147483647
  · rw [updateFrequency_eq _ key hl rfl h, if_pos h, Option.map_some']
    simp only [single, List.filter_cons, List.filter_nil, ne_eq, not_true_eq_false, decide_False,
      Function.update_same, List.isEmpty_nil, true_and, if_true, Bool.false_eq_true, ↓reduceIte,
      and_true, modify, List.map_cons, List.map_nil, Function.update_idem, Int.natCast_add,
      Int.ofNat_one]
    congr 3
    funext g
    simp only [Function.update_apply]
    split_ifs <;> first | rfl | omega
  · have hnone : incInt ((m : Int) + 1) = none := if_neg (by omega)
    rw [if_neg h, updateFrequency, hl]
    simp [single, hnone, Int.natCast_add]

/-- `put(key, value)`, then `m < INT_MAX` calls `get(key)`, each of which returns `value`. -/
theorem runOpsM_put_gets (capacity : Nat) (hc : 1 ≤ capacity) (key value : Int) :
    ∀ m, m < 2147483647 → runOpsM step (new capacity) (.put key value :: List.replicate m (.get key)) =
      some (none :: List.replicate m (some value), single capacity key value m)
  | 0, _ => by simp [runOpsM, step, put_new capacity hc]
  | m + 1, hm => by
    rw [List.replicate_succ', ← List.cons_append, runOpsM_append,
      runOpsM_put_gets capacity hc key value m (by omega)]
    simp [step, get_single capacity hc key value m, hm, List.replicate_succ']

end LFUCache

/-- **A key used `2^31` times overflows its count.** From a new cache of any capacity
    `≥ 1`, `put(key, value)` and `2^31 - 2` calls `get(key)` return what the policy returns
    and leave the key's node in the list of count `INT_MAX`; one more `get(key)` runs
    `minFreq++` and `node.freq++` on `INT_MAX`, which is undefined. -/
theorem lfu_count_overflows (capacity : Nat) (hc : 1 ≤ capacity) (key value : Int) :
    (runOpsM LFUCache.step (LFUCache.new capacity)
        (.put key value :: List.replicate 2147483646 (.get key))).map (fun r => (r.1, r.2.keyNode)) =
      some (none :: List.replicate 2147483646 (some value), [(key, (2147483647, 2147483646))]) ∧
    runOpsM LFUCache.step (LFUCache.new capacity)
      (.put key value :: List.replicate 2147483647 (.get key)) = none := by
  have h := LFUCache.runOpsM_put_gets capacity hc key value 2147483646 (by decide)
  have hs : (LFUCache.single capacity key value 2147483646).step (.get key) = none := by
    simp [LFUCache.step, LFUCache.get_single capacity hc]
  refine ⟨by rw [h]; rfl, ?_⟩
  rw [show 2147483647 = 2147483646 + 1 from rfl, List.replicate_succ', ← List.cons_append,
    runOpsM_append, h, Option.some_bind]
  exact (congrArg (Option.map _) hs).trans rfl

theorem lfu_count_overflows_two : 1 ≤ 2 ∧
    (runOpsM LFUCache.step (LFUCache.new 2)
        (.put 1 1 :: List.replicate 2147483646 (.get 1))).map (fun r => (r.1, r.2.keyNode)) =
      some (none :: List.replicate 2147483646 (some 1), [(1, (2147483647, 2147483646))]) ∧
    runOpsM LFUCache.step (LFUCache.new 2) (.put 1 1 :: List.replicate 2147483647 (.get 1)) = none :=
  ⟨by decide, lfu_count_overflows 2 (by decide) 1 1⟩

end HpDb.Caching
