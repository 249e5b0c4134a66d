import HpDb.Caching.Policy

/-!
# LRU caches (unnamed/part_010 and caching/tests/caching_tests.cpp)

Two classes named `LRUCache` implement the same policy. The one of part_010 keeps the keys
in `std::list<int> lruList`, most recently used first, and a map
`key ↦ (value, iterator into lruList)`; the one of caching_tests.cpp keeps
`std::list<std::pair<int, int>>` of entries and a map `key ↦ iterator`. Both move a key to
the front on every `get` that finds it and every `put`, and a `put` of a new key into a
full cache drops the back of the list.

`Lru` is the policy: the entries, most recently used first. `Lru.Valid` says what a run
of `Lru` keeps: each key once, at most `capacity` entries, each value the last one `put`,
and the keys in the order of their last use. Each class is modelled as the code writes it,
with a `std::list` as its nodes, each with the id of its iterator, and a `std::unordered_map`
as the list of its entries. A call with undefined behaviour (the back of an empty list)
is `none`.

Results:
* `Lru.valid_run`: every run of the policy from an empty cache is `Valid`.
* `LRUCache.refines`, `ListLRUCache.refines`: for `capacity ≥ 1` and every sequence of
  calls, each class runs without undefined behaviour, returns what the policy returns, and
  holds the policy's entries in the policy's order.
* `lru_policy`: both classes, over every call sequence, return what `Lru` returns; `get`
  returns the last value put for a cached key and `-1` otherwise; at most `capacity` keys
  are cached; and a `put` of a new key into a full cache evicts the last cached key in the
  order of last use.
-/

namespace HpDb.Caching

/-- The LRU policy: the capacity and the entries, most recently used first. -/
structure Lru where
  capacity : Nat
  entries : List (Int × Int)

namespace Lru

/-- The cached keys, most recently used first. -/
def keys (c : Lru) : List Int := c.entries.map (·.1)

/-- `get(key)`: the value, and the key moved to the front; `-1` if it is not cached. -/
def get (c : Lru) (key : Int) : Int × Lru :=
  match c.entries.lookup key with
  | some value => (value, { c with entries := (key, value) :: c.entries.filter (·.1 ≠ key) })
  | none => (-1, c)

/-- `put(key, value)`: the entry goes to the front; a new key in a full cache drops the
    back. -/
def put (c : Lru) (key value : Int) : Lru :=
  if key ∈ c.keys then { c with entries := (key, value) :: c.entries.filter (·.1 ≠ key) }
  else if c.capacity ≤ c.entries.length then
    { c with entries := (key, value) :: c.entries.dropLast }
  else { c with entries := (key, value) :: c.entries }

/-- One call. -/
def step (c : Lru) : Op → Option Int × Lru
  | .get key => (some (c.get key).1, (c.get key).2)
  | .put key value => (none, c.put key value)

@[simp] theorem capacity_step (c : Lru) (op : Op) : (c.step op).2.capacity = c.capacity := by
  cases op with
  | get key => simp only [step, get]; split <;> rfl
  | put key value => simp only [step, put]; split_ifs <;> rfl

/-- What a run of the policy keeps, after the calls `ops`. -/
structure Valid (ops : List Op) (c : Lru) : Prop where
  nodup : c.keys.Nodup
  length_le : c.entries.length ≤ c.capacity
  lastPut : ∀ k v, (k, v) ∈ c.entries → lastPut ops k = some v
  recent : c.keys.Sublist (recency (ops.map Op.key))

theorem keys_filter (entries : List (Int × Int)) (key : Int) :
    (entries.filter (·.1 ≠ key)).map (·.1) = (entries.map (·.1)).filter (· ≠ key) := by
  rw [List.filter_map]; rfl

/-- The entries after a key is used: the entry in front, the others in their order. -/
theorem valid_touch {ops : List Op} {c : Lru} (h : c.Valid ops) (op : Op) (value : Int)
    (hmem : op.key ∈ c.keys) (hput : lastPut (ops ++ [op]) op.key = some value)
    (hlast : ∀ k, k ≠ op.key → lastPut (ops ++ [op]) k = lastPut ops k) :
    Valid (ops ++ [op]) { c with entries := (op.key, value) :: c.entries.filter (·.1 ≠ op.key) } := by
  have hkeys : ((op.key, value) :: c.entries.filter (·.1 ≠ op.key)).map (·.1) =
      op.key :: c.keys.filter (· ≠ op.key) := by
    rw [List.map_cons, keys_filter]; rfl
  refine ⟨?_, ?_, ?_, ?_⟩
  · rw [keys, hkeys]
    exact List.nodup_cons.mpr ⟨by simp, h.nodup.filter _⟩
  · have hlt : (c.entries.filter (·.1 ≠ op.key)).length < c.entries.length :=
      List.length_filter_lt_length_iff_exists.mpr (by simpa [keys] using hmem)
    have := h.length_le
    simp only [List.length_cons]; omega
  · intro k v hk
    rcases List.mem_cons.mp hk with hk | hk
    · cases hk; exact hput
    · have hk := List.mem_filter.mp hk
      rw [hlast k (by simpa using hk.2)]
      exact h.lastPut k v hk.1
  · rw [keys, hkeys, List.map_append, List.map_singleton]
    exact sublist_recency_append h.recent _

/-- The entries after a new key is inserted in front of `kept`, a sublist of the entries. -/
theorem valid_insert {ops : List Op} {c : Lru} (h : c.Valid ops) (key value : Int)
    (hnew : key ∉ c.keys) (kept : List (Int × Int)) (hkept : kept.Sublist c.entries)
    (hlen : kept.length + 1 ≤ c.capacity) :
    Valid (ops ++ [.put key value]) { c with entries := (key, value) :: kept } := by
  have hsub : (kept.map (·.1)).Sublist c.keys := hkept.map _
  refine ⟨?_, by simpa using hlen, ?_, ?_⟩
  · exact List.nodup_cons.mpr ⟨fun hk => hnew (hsub.subset hk), h.nodup.sublist hsub⟩
  · intro k v hk
    rcases List.mem_cons.mp hk with hk | hk
    · cases hk; simp [lastPut_append]
    · have hne : key ≠ k := fun he => hnew (he ▸ List.mem_map_of_mem (·.1) (hkept.subset hk))
      simp only [lastPut_append, if_neg hne]
      exact h.lastPut k v (hkept.subset hk)
  · rw [List.map_append, List.map_singleton]
    refine List.Sublist.cons₂ key ?_ |>.trans (sublist_recency_append h.recent key)
    have hfilter : c.keys.filter (· ≠ key) = c.keys := List.filter_eq_self.mpr fun x hx =>
      decide_eq_true fun hxk : x = key => hnew (hxk ▸ hx)
    rw [hfilter]; exact hsub

theorem valid_step {ops : List Op} {c : Lru} (hc : 1 ≤ c.capacity) (h : c.Valid ops) (op : Op) :
    Valid (ops ++ [op]) (c.step op).2 := by
  cases op with
  | get key =>
    simp only [step, get]
    cases hl : c.entries.lookup key with
    | none =>
      have hnew : key ∉ c.keys := lookup_eq_none_iff.mp hl
      exact ⟨h.nodup, h.length_le, fun k v hk => by simpa [lastPut_append] using h.lastPut k v hk,
        by simpa using sublist_recency_append_of_not_mem h.recent hnew⟩
    | some value =>
      exact valid_touch h (.get key) value (List.mem_map_of_mem (·.1) (mem_of_lookup hl))
        (by simpa [lastPut_append] using h.lastPut _ _ (mem_of_lookup hl))
        fun k _ => by simp [lastPut_append]
  | put key value =>
    simp only [step, put]
    split_ifs with hmem hfull
    · exact valid_touch h (.put key value) value hmem (by simp [Op.key, lastPut_append])
        fun k hk => by simp only [Op.key] at hk; simp [lastPut_append, Ne.symm hk]
    · exact valid_insert h key value hmem _ (List.dropLast_sublist _)
        (by have := h.length_le; simp; omega)
    · exact valid_insert h key value hmem _ (List.Sublist.refl _) (by omega)

theorem valid_run (capacity : Nat) (hc : 1 ≤ capacity) (ops : List Op) :
    (runOps step ⟨capacity, []⟩ ops).2.Valid ops ∧ (runOps step ⟨capacity, []⟩ ops).2.capacity = capacity := by
  induction ops using List.reverseRecOn with
  | nil => exact ⟨⟨List.nodup_nil, Nat.zero_le _, (fun _ _ h => nomatch h), List.nil_sublist _⟩, rfl⟩
  | append_singleton ops op ih =>
    rw [runOps_append]
    exact ⟨valid_step (hc.trans_eq ih.2.symm) ih.1 op, by rw [capacity_step, ih.2]⟩

/-- In a full cache, a new key evicts the last key, and every other cached key was used
    after it. -/
theorem Valid.evict {ops : List Op} {c : Lru} (h : c.Valid ops) (hc : 1 ≤ c.capacity) {key : Int}
    (hkey : key ∉ c.keys) (hfull : c.entries.length = c.capacity) (value : Int) :
    ∃ e, c.keys.getLast? = some e ∧ (c.put key value).keys = key :: c.keys.dropLast ∧
      ∀ k ∈ c.keys, k ≠ e → [k, e].Sublist (recency (ops.map Op.key)) := by
  obtain ⟨e, he⟩ : ∃ e, c.keys.getLast? = some e := by
    cases he : c.keys.getLast? with
    | some e => exact ⟨e, rfl⟩
    | none =>
      have : c.entries = [] := List.map_eq_nil_iff.mp (List.getLast?_eq_none_iff.mp he)
      simp [this] at hfull; omega
  refine ⟨e, he, by rw [put, if_neg hkey, if_pos hfull.ge]; simp only [keys, List.map_cons,
    List.map_dropLast], fun k hk hke => ?_⟩
  have hk' : k ∈ c.keys.dropLast :=
    (mem_dropLast_iff id (by rw [List.map_id]; exact h.nodup) he).mpr ⟨hk, hke⟩
  have hsplit := List.dropLast_append_getLast? e he
  refine List.Sublist.trans ?_ h.recent
  rw [← hsplit]
  exact (List.singleton_sublist.mpr hk').append (List.Sublist.refl [e])

end Lru

/-! ## `LRUCache` of unnamed/part_010 -/

/-- `class LRUCache` of unnamed/part_010 (lines 5–66). -/
structure LRUCache where
  capacity : Nat
  /-- `std::list<int> lruList`: each node's iterator id and key. -/
  lruList : List (Nat × Int)
  /-- `cache`: `key ↦ (value, iterator into lruList)`. -/
  cache : List (Int × (Int × Nat))
  /-- The iterator id of the next node. -/
  nextId : Nat

namespace LRUCache

/-- `LRUCache(capacity)` (lines 25–27). -/
def new (capacity : Nat) : LRUCache := ⟨capacity, [], [], 0⟩

/-- `moveToFront(key)` (lines 17–21); `cache[key]` of a key not in `cache` is a default
    iterator, and erasing it is undefined. -/
def moveToFront (c : LRUCache) (key : Int) : Option LRUCache :=
  (c.cache.lookup key).map fun entry =>
    { c with lruList := (c.nextId, key) :: c.lruList.filter (·.1 ≠ entry.2),
             cache := modify c.cache key fun e => (e.1, c.nextId),
             nextId := c.nextId + 1 }

/-- `get(key)` (lines 30–37); `cache[key]` reads a key of `cache`. -/
def get (c : LRUCache) (key : Int) : Option (Int × LRUCache) :=
  if (c.cache.lookup key).isNone then some (-1, c)
  else (c.moveToFront key).map fun c => (((c.cache.lookup key).map (·.1)).getD 0, c)

/-- `put(key, value)` (lines 40–56); `lruList.back()` of an empty list is undefined. -/
def put (c : LRUCache) (key value : Int) : Option LRUCache :=
  if (c.cache.lookup key).isSome then
    { c with cache := modify c.cache key fun e => (value, e.2) }.moveToFront key
  else do
    let c ← if c.cache.length = c.capacity then
        c.lruList.getLast?.map fun back =>
          { c with lruList := c.lruList.dropLast, cache := c.cache.filter (·.1 ≠ back.2) }
      else some c
    pure { c with lruList := (c.nextId, key) :: c.lruList,
                  cache := assign c.cache key (value, c.nextId), nextId := c.nextId + 1 }

/-- One call. -/
def step (c : LRUCache) : Op → Option (Option Int × LRUCache)
  | .get key => (c.get key).map fun r => (some r.1, r.2)
  | .put key value => (c.put key value).map fun c => (none, c)

/-- `c` holds the entries `a` of the policy: the list has the policy's keys in its order,
    with distinct iterators below `nextId`, and the map gives each key its value and the
    iterator of its node. -/
structure Holds (c : LRUCache) (a : Lru) : Prop where
  capacity : c.capacity = a.capacity
  keys : c.lruList.map (·.2) = a.keys
  ids : (c.lruList.map (·.1)).Nodup
  fresh : ∀ n ∈ c.lruList, n.1 < c.nextId
  cacheKeys : (c.cache.map (·.1)).Nodup
  mem : ∀ k v it, (k, (v, it)) ∈ c.cache ↔ (it, k) ∈ c.lruList ∧ (k, v) ∈ a.entries

section Holds

variable {c : LRUCache} {a : Lru} {ops : List Op}

theorem Holds.mem_keys (h : c.Holds a) (k : Int) :
    k ∈ c.cache.map (·.1) ↔ k ∈ a.keys := by
  constructor
  · intro hk
    obtain ⟨⟨k', v, it⟩, hx, rfl⟩ := List.mem_map.mp hk
    exact List.mem_map_of_mem (·.1) ((h.mem _ _ _).mp hx).2
  · intro hk
    obtain ⟨⟨k', v⟩, hx, rfl⟩ := List.mem_map.mp hk
    have hk' : k' ∈ c.lruList.map (·.2) := by rw [h.keys]; exact List.mem_map_of_mem _ hx
    obtain ⟨⟨it, k''⟩, hn, rfl⟩ := List.mem_map.mp hk'
    exact List.mem_map_of_mem (·.1) ((h.mem k'' v it).mpr ⟨hn, hx⟩)

theorem Holds.length (h : c.Holds a) (hv : a.Valid ops) : c.cache.length = a.entries.length := by
  have hp : (c.cache.map (·.1)).Perm a.keys :=
    (List.perm_ext_iff_of_nodup h.cacheKeys hv.nodup).mpr h.mem_keys
  simpa [Lru.keys] using hp.length_eq

theorem Holds.lookup (h : c.Holds a) (hv : a.Valid ops) (k : Int) :
    (c.cache.lookup k).map (·.1) = a.entries.lookup k := by
  cases hc : c.cache.lookup k with
  | none =>
    have hk := lookup_eq_none_iff.mp hc
    rw [Option.map_none', eq_comm, lookup_eq_none_iff]
    exact fun hk' => hk ((h.mem_keys k).mpr hk')
  | some x =>
    have hx := ((h.mem k x.1 x.2).mp (mem_of_lookup hc)).2
    rw [Option.map_some', lookup_of_mem hv.nodup hx]

/-- A used key: its node goes to the front with a new iterator, the map gives it the
    value `value` and that iterator, and the policy's entry goes to the front. -/
theorem Holds.touch (h : c.Holds a) (hv : a.Valid ops) {key : Int} {it : Nat}
    (hit : (it, key) ∈ c.lruList) (value : Int) (cache : List (Int × (Int × Nat)))
    (hkeys : cache.map (·.1) = c.cache.map (·.1))
    (hmem : ∀ k x, (k, x) ∈ cache ↔ (k = key ∧ x = (value, c.nextId)) ∨ (k ≠ key ∧ (k, x) ∈ c.cache)) :
    Holds { c with lruList := (c.nextId, key) :: c.lruList.filter (·.1 ≠ it), cache := cache,
                   nextId := c.nextId + 1 }
      { a with entries := (key, value) :: a.entries.filter (·.1 ≠ key) } := by
  have hkeysnd : (c.lruList.map (·.2)).Nodup := h.keys ▸ hv.nodup
  have hfilter := filter_id_eq_filter_key id h.ids hkeysnd hit
  have hnode : ∀ it' k, (it', k) ∈ c.lruList → (it' = it ↔ k = key) := fun it' k hn =>
    ⟨fun he => (Prod.mk.inj (List.inj_on_of_nodup_map h.ids hn hit he)).2,
      fun he => (Prod.mk.inj (List.inj_on_of_nodup_map hkeysnd hn hit he)).1⟩
  refine ⟨h.capacity, ?_, ?_, ?_, hkeys ▸ h.cacheKeys, ?_⟩
  · have hmap : (c.lruList.filter (·.2 ≠ key)).map (·.2) = (c.lruList.map (·.2)).filter (· ≠ key) := by
      rw [List.filter_map]; rfl
    simp only [List.map_cons, hfilter, id, Lru.keys, Lru.keys_filter, hmap]
    rw [h.keys]; rfl
  · exact List.nodup_cons.mpr ⟨fun hn => by
      obtain ⟨n, hn, he⟩ := List.mem_map.mp hn
      exact absurd (he ▸ h.fresh n (List.mem_filter.mp hn).1) (Nat.lt_irrefl _),
      (h.ids.sublist ((List.filter_sublist _).map _))⟩
  · intro n hn
    rcases List.mem_cons.mp hn with rfl | hn
    · exact Nat.lt_succ_self _
    · exact Nat.lt_succ_of_lt (h.fresh n (List.mem_filter.mp hn).1)
  · intro k v it'
    rw [hmem]
    by_cases hk : k = key
    · subst hk
      have : ¬((it', k) ∈ c.lruList ∧ ¬it' = it) := fun hn => hn.2 ((hnode it' k hn.1).mpr rfl)
      simp [this, and_comm]
    · simp [hk, h.mem, Ne.symm hk]
      exact fun _ hn he => hk ((hnode it' k hn).mp he)

/-- `lruList.pop_back()` and `cache.erase(evictKey)`, and the policy's back dropped. -/
theorem Holds.removeBack (h : c.Holds a) (hv : a.Valid ops) {back : Nat × Int}
    (hback : c.lruList.getLast? = some back) :
    Holds { c with lruList := c.lruList.dropLast, cache := c.cache.filter (·.1 ≠ back.2) }
      { a with entries := a.entries.dropLast } := by
  have hkeysnd : (c.lruList.map (·.2)).Nodup := h.keys ▸ hv.nodup
  obtain ⟨e, he, hek⟩ : ∃ e, a.entries.getLast? = some e ∧ e.1 = back.2 := by
    have hk : a.keys.getLast? = some back.2 := by rw [← h.keys, List.getLast?_map, hback]; rfl
    rw [Lru.keys, List.getLast?_map] at hk
    exact Option.map_eq_some'.mp hk
  refine ⟨h.capacity, ?_, h.ids.sublist ((List.dropLast_sublist _).map _),
    fun n hn => h.fresh n ((List.dropLast_sublist _).subset hn),
    h.cacheKeys.sublist ((List.filter_sublist _).map _), fun k v it => ?_⟩
  · rw [List.map_dropLast, h.keys, Lru.keys, Lru.keys, List.map_dropLast]
  · rw [mem_dropLast_iff (·.2) hkeysnd hback, mem_dropLast_iff Prod.fst hv.nodup he,
      List.mem_filter, h.mem, hek]
    simp only [decide_eq_true_eq]
    tauto

/-- `lruList.push_front(key)` and `cache[key] = {value, lruList.begin()}` for a new key, and
    the policy's new entry in front. -/
theorem Holds.insert (h : c.Holds a) {key : Int} (hkey : key ∉ a.keys) (value : Int) :
    Holds { c with lruList := (c.nextId, key) :: c.lruList,
                   cache := assign c.cache key (value, c.nextId), nextId := c.nextId + 1 }
      { a with entries := (key, value) :: a.entries } := by
  have hcache : key ∉ c.cache.map (·.1) := fun hk => hkey ((h.mem_keys key).mp hk)
  have hnode : ∀ it, (it, key) ∉ c.lruList := fun it hn =>
    hkey (h.keys ▸ List.mem_map_of_mem (·.2) hn)
  have hentry : ∀ v, (key, v) ∉ a.entries := fun v hv => hkey (List.mem_map_of_mem (·.1) hv)
  refine ⟨h.capacity, by simp [h.keys, Lru.keys], ?_, ?_, ?_, fun k v it => ?_⟩
  · exact List.nodup_cons.mpr ⟨fun hn => by
      obtain ⟨n, hn, he⟩ := List.mem_map.mp hn
      exact absurd (he ▸ h.fresh n hn) (Nat.lt_irrefl _), h.ids⟩
  · intro n hn
    rcases List.mem_cons.mp hn with rfl | hn
    · exact Nat.lt_succ_self _
    · exact Nat.lt_succ_of_lt (h.fresh n hn)
  · rw [assign, lookup_eq_none_iff.mpr hcache, Option.isSome_none, if_neg Bool.false_ne_true,
      List.map_append, List.map_singleton]
    exact h.cacheKeys.append (List.nodup_singleton _) (List.disjoint_singleton.mpr hcache)
  · rw [mem_assign_of_not_mem hcache, h.mem]
    by_cases hk : k = key
    · subst hk; simp [hnode, hentry]; tauto
    · simp [hk]

theorem Holds.lookup_none (h : c.Holds a) (hv : a.Valid ops) {key : Int}
    (hl : c.cache.lookup key = none) : key ∉ a.keys := by
  rw [Lru.keys, ← lookup_eq_none_iff, ← h.lookup hv, hl]; rfl

/-- `get`: a miss returns `-1`; a hit moves the key's node to the front with a new
    iterator. -/
theorem Holds.step_get (h : c.Holds a) (hv : a.Valid ops) (key : Int) :
    ∃ r, c.step (.get key) = some r ∧ r.1 = (a.step (.get key)).1 ∧
      r.2.Holds (a.step (.get key)).2 := by
  cases hl : c.cache.lookup key with
  | none =>
    have ha : a.entries.lookup key = none := by rw [← h.lookup hv, hl]; rfl
    exact ⟨(some (-1), c), by simp [LRUCache.step, get, hl], by simp [Lru.step, Lru.get, ha],
      by simpa [Lru.step, Lru.get, ha] using h⟩
  | some x =>
    obtain ⟨v, it⟩ := x
    have hx := (h.mem key v it).mp (mem_of_lookup hl)
    have ha : a.entries.lookup key = some v := lookup_of_mem hv.nodup hx.2
    have hlook : (modify c.cache key fun e => (e.1, c.nextId)).lookup key = some (v, c.nextId) := by
      rw [lookup_modify, if_pos rfl, hl]; rfl
    refine ⟨(some v,
        { c with
          lruList := (c.nextId, key) :: c.lruList.filter (·.1 ≠ it)
          cache := modify c.cache key fun e => (e.1, c.nextId)
          nextId := c.nextId + 1 }),
      by simp [LRUCache.step, get, moveToFront, hl, hlook], ?_, ?_⟩
    · simp [Lru.step, Lru.get, ha]
    · simp only [Lru.step, Lru.get, ha]
      exact h.touch hv hx.1 v _ (keys_modify _ _ _) fun k x =>
        mem_modify_of_lookup h.cacheKeys hl _

/-- `put` of a cached key sets its value and moves its node to the front. -/
theorem Holds.step_put_cached (h : c.Holds a) (hv : a.Valid ops) {key value : Int}
    {x : Int × Nat} (hl : c.cache.lookup key = some x) :
    ∃ r, c.step (.put key value) = some r ∧ r.1 = (a.step (.put key value)).1 ∧
      r.2.Holds (a.step (.put key value)).2 := by
  obtain ⟨v, it⟩ := x
  have hx := (h.mem key v it).mp (mem_of_lookup hl)
  have hkey : key ∈ a.keys := List.mem_map_of_mem (·.1) hx.2
  have hl₁ : (modify c.cache key fun e => (value, e.2)).lookup key = some (value, it) := by
    rw [lookup_modify, if_pos rfl, hl]; rfl
  have hnd₁ := keys_modify c.cache key fun e => (value, e.2)
  refine ⟨(none,
      { c with
        lruList := (c.nextId, key) :: c.lruList.filter (·.1 ≠ it)
        cache := modify (modify c.cache key fun e => (value, e.2)) key fun e => (e.1, c.nextId)
        nextId := c.nextId + 1 }),
    by simp [LRUCache.step, put, moveToFront, hl, hl₁], rfl, ?_⟩
  simp only [Lru.step, Lru.put, if_pos hkey]
  refine h.touch hv hx.1 value _ ((keys_modify _ _ _).trans hnd₁) fun k x => ?_
  rw [mem_modify_of_lookup (hnd₁ ▸ h.cacheKeys) hl₁, mem_modify_of_lookup h.cacheKeys hl]
  by_cases hk : k = key <;> simp [hk]

/-- `put` of a new key into a full cache evicts the back, then puts the key in front. -/
theorem Holds.step_put_evict (h : c.Holds a) (hv : a.Valid ops) (hc : 1 ≤ a.capacity)
    {key value : Int} (hl : c.cache.lookup key = none) (hfull : c.cache.length = c.capacity) :
    ∃ r, c.step (.put key value) = some r ∧ r.1 = (a.step (.put key value)).1 ∧
      r.2.Holds (a.step (.put key value)).2 := by
  have hkey := h.lookup_none hv hl
  have hfull' : a.capacity ≤ a.entries.length := by
    rw [← h.length hv, ← h.capacity, hfull]
  obtain ⟨back, hb⟩ : ∃ back, c.lruList.getLast? = some back := by
    cases hb : c.lruList.getLast? with
    | some back => exact ⟨back, rfl⟩
    | none =>
      have hnil : a.keys = [] := by rw [← h.keys, List.getLast?_eq_none_iff.mp hb]; rfl
      simp only [Lru.keys, List.map_eq_nil_iff] at hnil
      simp [hnil] at hfull'; omega
  refine ⟨(none,
      { c with
        lruList := (c.nextId, key) :: c.lruList.dropLast
        cache := assign (c.cache.filter (·.1 ≠ back.2)) key (value, c.nextId)
        nextId := c.nextId + 1 }),
    by simp [LRUCache.step, put, hl, hfull, hb], rfl, ?_⟩
  simp only [Lru.step, Lru.put, if_neg hkey, if_pos hfull']
  exact (h.removeBack hv hb).insert (fun hk => hkey
    ((((List.dropLast_sublist _).map _).subset hk))) value

/-- `put` of a new key into a cache with room puts the key in front. -/
theorem Holds.step_put_room (h : c.Holds a) (hv : a.Valid ops) {key value : Int}
    (hl : c.cache.lookup key = none) (hroom : c.cache.length ≠ c.capacity) :
    ∃ r, c.step (.put key value) = some r ∧ r.1 = (a.step (.put key value)).1 ∧
      r.2.Holds (a.step (.put key value)).2 := by
  have hroom' : ¬a.capacity ≤ a.entries.length := by
    have := hv.length_le
    have := h.length hv
    have := h.capacity
    omega
  refine ⟨(none,
      { c with
        lruList := (c.nextId, key) :: c.lruList
        cache := assign c.cache key (value, c.nextId)
        nextId := c.nextId + 1 }),
    by simp [LRUCache.step, put, hl, hroom], rfl, ?_⟩
  simp only [Lru.step, Lru.put, if_neg (h.lookup_none hv hl), if_neg hroom']
  exact h.insert (h.lookup_none hv hl) value

/-- Each call returns what the policy returns, and keeps `Holds`. -/
theorem Holds.step (h : c.Holds a) (hv : a.Valid ops) (hc : 1 ≤ a.capacity) (op : Op) :
    ∃ r, c.step op = some r ∧ r.1 = (a.step op).1 ∧ r.2.Holds (a.step op).2 := by
  cases op with
  | get key => exact h.step_get hv key
  | put key value =>
    cases hl : c.cache.lookup key with
    | some x => exact h.step_put_cached hv hl
    | none =>
      by_cases hfull : c.cache.length = c.capacity
      · exact h.step_put_evict hv hc hl hfull
      · exact h.step_put_room hv hl hfull

end Holds

/-- **part_010's `LRUCache` refines the policy.** For `capacity ≥ 1` and every call sequence,
    the class runs without undefined behaviour, returns what the policy returns, and holds
    the policy's entries. -/
theorem refines (capacity : Nat) (hc : 1 ≤ capacity) (ops : List Op) :
    ∃ r, runOpsM step (new capacity) ops = some r ∧
      r.1 = (runOps Lru.step ⟨capacity, []⟩ ops).1 ∧
      r.2.Holds (runOps Lru.step ⟨capacity, []⟩ ops).2 := by
  obtain ⟨r, hr, hout, hR, -⟩ := runOpsM_sim (s := new capacity) (t := ⟨capacity, []⟩) step Lru.step
    (fun ops c a => c.Holds a ∧ a.Valid ops ∧ a.capacity = capacity)
    ⟨⟨rfl, rfl, List.nodup_nil, (fun _ h => nomatch h), List.nodup_nil, fun _ _ _ => by simp [new]⟩,
      ⟨List.nodup_nil, Nat.zero_le _, (fun _ _ h => nomatch h), List.nil_sublist _⟩, rfl⟩
    (fun ops c a op ⟨h, hv, hcap⟩ => by
      obtain ⟨r, hr, hout, hR⟩ := h.step hv (hcap ▸ hc) op
      exact ⟨r, hr, hout, hR, Lru.valid_step (hcap ▸ hc) hv op, by simp [hcap]⟩) ops
  exact ⟨r, hr, hout, hR⟩

end LRUCache

/-! ## `LRUCache` of caching/tests/caching_tests.cpp -/

namespace CachingTests

/-- `class LRUCache` of caching/tests/caching_tests.cpp (lines 7–45). -/
structure LRUCache where
  capacity : Nat
  /-- `cache_items_list_`: each node's iterator id and `(key, value)`. -/
  cacheItemsList : List (Nat × (Int × Int))
  /-- `cache_map_`: `key ↦ iterator into cache_items_list_`. -/
  cacheMap : List (Int × Nat)
  /-- The iterator id of the next node. -/
  nextId : Nat

namespace LRUCache

/-- `LRUCache(capacity)` (line 9). -/
def new (capacity : Nat) : LRUCache := ⟨capacity, [], [], 0⟩

/-- `cache_items_list_.splice(cache_items_list_.begin(), cache_items_list_, it)`; an
    iterator of another list is undefined. -/
def splice (l : List (Nat × (Int × Int))) (it : Nat) : Option (List (Nat × (Int × Int))) :=
  (l.find? (·.1 = it)).map fun n => n :: l.filter (·.1 ≠ it)

/-- `get(key)` (lines 11–18). -/
def get (c : LRUCache) (key : Int) : Option (Int × LRUCache) :=
  match c.cacheMap.lookup key with
  | none => some (-1, c)
  | some it => do
    let l ← splice c.cacheItemsList it
    let n ← l.find? (·.1 = it)
    pure (n.2.2, { c with cacheItemsList := l })

/-- `put(key, value)` (lines 20–39); the back of an empty list is undefined. -/
def put (c : LRUCache) (key value : Int) : Option LRUCache :=
  match c.cacheMap.lookup key with
  | some it => (splice c.cacheItemsList it).map fun l =>
    { c with cacheItemsList := l.map fun n => if n.1 = it then (n.1, (n.2.1, value)) else n }
  | none => do
    let c ← if c.capacity ≤ c.cacheItemsList.length then
        c.cacheItemsList.getLast?.map fun last =>
          { c with cacheMap := c.cacheMap.filter (·.1 ≠ last.2.1),
                   cacheItemsList := c.cacheItemsList.dropLast }
      else some c
    pure { c with cacheItemsList := (c.nextId, (key, value)) :: c.cacheItemsList,
                  cacheMap := assign c.cacheMap key c.nextId, nextId := c.nextId + 1 }

/-- One call. -/
def step (c : LRUCache) : Op → Option (Option Int × LRUCache)
  | .get key => (c.get key).map fun r => (some r.1, r.2)
  | .put key value => (c.put key value).map fun c => (none, c)

/-- `c` holds the entries `a` of the policy: the list holds them in the policy's order,
    with distinct iterators below `nextId`, and the map gives each key the iterator of its
    node. -/
structure Holds (c : LRUCache) (a : Lru) : Prop where
  capacity : c.capacity = a.capacity
  entries : c.cacheItemsList.map (·.2) = a.entries
  ids : (c.cacheItemsList.map (·.1)).Nodup
  fresh : ∀ n ∈ c.cacheItemsList, n.1 < c.nextId
  mapKeys : (c.cacheMap.map (·.1)).Nodup
  mem : ∀ k it, (k, it) ∈ c.cacheMap ↔ ∃ v, (it, (k, v)) ∈ c.cacheItemsList

section Holds

variable {c : LRUCache} {a : Lru} {ops : List Op}

theorem Holds.keysNodup (h : c.Holds a) (hv : a.Valid ops) :
    (c.cacheItemsList.map (·.2.1)).Nodup := by
  have : c.cacheItemsList.map (·.2.1) = a.keys := by rw [Lru.keys, ← h.entries, List.map_map]; rfl
  exact this ▸ hv.nodup

theorem Holds.lookup_none (h : c.Holds a) {key : Int} (hl : c.cacheMap.lookup key = none) :
    key ∉ a.keys := fun hk => by
  obtain ⟨⟨k, v⟩, he, rfl⟩ := List.mem_map.mp hk
  obtain ⟨n, hn, hne⟩ := List.mem_map.mp (h.entries ▸ he : (k, v) ∈ c.cacheItemsList.map (·.2))
  have := (h.mem k n.1).mpr ⟨v, by rw [← hne]; exact hn⟩
  exact lookup_eq_none_iff.mp hl (List.mem_map_of_mem (·.1) this)

/-- A used key: its node goes to the front with the value `value`, and the policy's entry
    goes to the front. -/
theorem Holds.touch (h : c.Holds a) (hv : a.Valid ops) {key v : Int} {it : Nat}
    (hit : (it, (key, v)) ∈ c.cacheItemsList) (value : Int) :
    Holds { c with cacheItemsList := (it, (key, value)) :: c.cacheItemsList.filter (·.1 ≠ it) }
      { a with entries := (key, value) :: a.entries.filter (·.1 ≠ key) } := by
  have hfilter := filter_id_eq_filter_key (·.1) h.ids (h.keysNodup hv) hit
  have hnode : ∀ it' k v', (it', (k, v')) ∈ c.cacheItemsList → (it' = it ↔ k = key) :=
    fun it' k v' hn =>
      ⟨fun he => congrArg (·.2.1) (List.inj_on_of_nodup_map h.ids hn hit he),
        fun he => congrArg (·.1) (List.inj_on_of_nodup_map (h.keysNodup hv) hn hit he)⟩
  refine ⟨h.capacity, ?_, ?_, ?_, h.mapKeys, fun k it' => ?_⟩
  · rw [List.map_cons, hfilter, ← h.entries, List.filter_map]; rfl
  · refine List.nodup_cons.mpr ⟨fun hn => ?_, h.ids.sublist ((List.filter_sublist _).map _)⟩
    obtain ⟨n, hn, he⟩ := List.mem_map.mp hn
    exact of_decide_eq_true (List.mem_filter.mp hn).2 he
  · intro n hn
    rcases List.mem_cons.mp hn with rfl | hn
    · exact h.fresh (it, (key, v)) hit
    · exact h.fresh n (List.mem_filter.mp hn).1
  · rw [h.mem]
    by_cases hk : k = key
    · subst hk
      constructor
      · rintro ⟨v', hn⟩
        exact ⟨value, List.mem_cons.mpr (.inl (by rw [(hnode it' k v' hn).mpr rfl]))⟩
      · rintro ⟨v', hn⟩
        rcases List.mem_cons.mp hn with he | hn
        · cases he; exact ⟨v, hit⟩
        · have hn := List.mem_filter.mp hn
          simp [(hnode it' k v' hn.1).mpr rfl] at hn
    · constructor
      · rintro ⟨v', hn⟩
        exact ⟨v', List.mem_cons_of_mem _ (List.mem_filter.mpr ⟨hn, by
          simpa using fun he => hk ((hnode it' k v' hn).mp he)⟩)⟩
      · rintro ⟨v', hn⟩
        rcases List.mem_cons.mp hn with he | hn
        · cases he; exact absurd rfl hk
        · exact ⟨v', (List.mem_filter.mp hn).1⟩

/-- `cache_items_list_.pop_back()` and `cache_map_.erase(last->first)`, and the policy's
    back dropped. -/
theorem Holds.removeBack (h : c.Holds a) (hv : a.Valid ops) {last : Nat × (Int × Int)}
    (hback : c.cacheItemsList.getLast? = some last) :
    Holds { c with cacheMap := c.cacheMap.filter (·.1 ≠ last.2.1),
                   cacheItemsList := c.cacheItemsList.dropLast }
      { a with entries := a.entries.dropLast } := by
  refine ⟨h.capacity, by rw [List.map_dropLast, h.entries],
    h.ids.sublist ((List.dropLast_sublist _).map _),
    fun n hn => h.fresh n ((List.dropLast_sublist _).subset hn),
    h.mapKeys.sublist ((List.filter_sublist _).map _), fun k it => ?_⟩
  simp only [mem_dropLast_iff (·.2.1) (h.keysNodup hv) hback, List.mem_filter, h.mem,
    decide_eq_true_eq]
  constructor
  · rintro ⟨⟨v, hn⟩, hk⟩; exact ⟨v, hn, hk⟩
  · rintro ⟨v, hn, hk⟩; exact ⟨⟨v, hn⟩, hk⟩

/-- `cache_items_list_.emplace_front(key, value)` and `cache_map_[key] = begin()` for a new
    key, and the policy's new entry in front. -/
theorem Holds.insert (h : c.Holds a) {key : Int} (hkey : key ∉ a.keys) (value : Int) :
    Holds { c with cacheItemsList := (c.nextId, (key, value)) :: c.cacheItemsList,
                   cacheMap := assign c.cacheMap key c.nextId, nextId := c.nextId + 1 }
      { a with entries := (key, value) :: a.entries } := by
  have hnode : ∀ it v, (it, (key, v)) ∉ c.cacheItemsList := fun it v hn =>
    hkey (by rw [Lru.keys, ← h.entries, List.map_map]; exact List.mem_map_of_mem (·.2.1) hn)
  have hmap : key ∉ c.cacheMap.map (·.1) := fun hk => by
    obtain ⟨⟨k, it⟩, he, rfl⟩ := List.mem_map.mp hk
    obtain ⟨v, hn⟩ := (h.mem k it).mp he
    exact hnode it v hn
  refine ⟨h.capacity, by rw [List.map_cons, h.entries], ?_, ?_, ?_, fun k it => ?_⟩
  · exact List.nodup_cons.mpr ⟨fun hn => by
      obtain ⟨n, hn, he⟩ := List.mem_map.mp hn
      exact absurd (he ▸ h.fresh n hn) (Nat.lt_irrefl _), h.ids⟩
  · intro n hn
    rcases List.mem_cons.mp hn with rfl | hn
    · exact Nat.lt_succ_self _
    · exact Nat.lt_succ_of_lt (h.fresh n hn)
  · rw [assign, lookup_eq_none_iff.mpr hmap, Option.isSome_none, if_neg Bool.false_ne_true,
      List.map_append, List.map_singleton]
    exact h.mapKeys.append (List.nodup_singleton _) (List.disjoint_singleton.mpr hmap)
  · rw [mem_assign_of_not_mem hmap, h.mem]
    by_cases hk : k = key
    · subst hk
      simp only [true_and, List.mem_cons, Prod.mk.injEq, and_true]
      exact ⟨fun he => he.elim (fun he => ⟨value, .inl ⟨he, rfl⟩⟩)
        fun ⟨v, hn⟩ => absurd hn (hnode it v),
        fun ⟨v, hv⟩ => hv.elim (fun he => .inl he.1) fun hn => absurd hn (hnode it v)⟩
    · simp [hk]

theorem find?_id {l : List (Nat × (Int × Int))} (hids : (l.map (·.1)).Nodup) {it : Nat}
    {x : Int × Int} (hn : (it, x) ∈ l) : l.find? (·.1 = it) = some (it, x) := by
  induction l with
  | nil => cases hn
  | cons y l ih =>
    rw [List.map_cons, List.nodup_cons] at hids
    rcases List.mem_cons.mp hn with rfl | hn
    · simp
    · have hne : y.1 ≠ it := fun he => hids.1 (he ▸ List.mem_map_of_mem (·.1) hn)
      rw [List.find?_cons_of_neg _ (by simpa using hne)]
      exact ih hids.2 hn

theorem Holds.lookup_entry (h : c.Holds a) (hv : a.Valid ops) {it : Nat} {k v : Int}
    (hn : (it, (k, v)) ∈ c.cacheItemsList) : a.entries.lookup k = some v :=
  lookup_of_mem hv.nodup (h.entries ▸ List.mem_map_of_mem (·.2) hn)

/-- `get`: a miss returns `-1`; a hit splices the key's node to the front. -/
theorem Holds.step_get (h : c.Holds a) (hv : a.Valid ops) (key : Int) :
    ∃ r, c.step (.get key) = some r ∧ r.1 = (a.step (.get key)).1 ∧
      r.2.Holds (a.step (.get key)).2 := by
  cases hl : c.cacheMap.lookup key with
  | none =>
    have ha : a.entries.lookup key = none := lookup_eq_none_iff.mpr (h.lookup_none hl)
    exact ⟨(some (-1), c), by simp [LRUCache.step, get, hl], by simp [Lru.step, Lru.get, ha],
      by simpa [Lru.step, Lru.get, ha] using h⟩
  | some it =>
    obtain ⟨v, hn⟩ := (h.mem key it).mp (mem_of_lookup hl)
    refine ⟨(some v,
        { c with cacheItemsList := (it, (key, v)) :: c.cacheItemsList.filter (·.1 ≠ it) }),
      by simp [LRUCache.step, get, hl, splice, find?_id h.ids hn], ?_, ?_⟩
    · simp [Lru.step, Lru.get, h.lookup_entry hv hn]
    · simp only [Lru.step, Lru.get, h.lookup_entry hv hn]
      exact h.touch hv hn v

/-- `put` of a cached key splices its node to the front and sets its value. -/
theorem Holds.step_put_cached (h : c.Holds a) (hv : a.Valid ops) {key value : Int} {it : Nat}
    (hl : c.cacheMap.lookup key = some it) :
    ∃ r, c.step (.put key value) = some r ∧ r.1 = (a.step (.put key value)).1 ∧
      r.2.Holds (a.step (.put key value)).2 := by
  obtain ⟨v, hn⟩ := (h.mem key it).mp (mem_of_lookup hl)
  have hkey : key ∈ a.keys := List.mem_map_of_mem (·.1) (mem_of_lookup (h.lookup_entry hv hn))
  have hmod : (c.cacheItemsList.filter fun n => !decide (n.1 = it)).map
      (fun n => if n.1 = it then (n.1, (n.2.1, value)) else n) =
      c.cacheItemsList.filter fun n => !decide (n.1 = it) :=
    (List.map_congr_left fun n hn' => if_neg (by simpa using (List.mem_filter.mp hn').2)).trans
      (List.map_id _)
  refine ⟨(none,
      { c with cacheItemsList := (it, (key, value)) :: c.cacheItemsList.filter (·.1 ≠ it) }),
    by simp [LRUCache.step, put, hl, splice, find?_id h.ids hn, hmod], rfl, ?_⟩
  simp only [Lru.step, Lru.put, if_pos hkey]
  exact h.touch hv hn value

/-- `put` of a new key into a full cache evicts the back, then puts the key in front. -/
theorem Holds.step_put_evict (h : c.Holds a) (hv : a.Valid ops) (hc : 1 ≤ a.capacity)
    {key value : Int} (hl : c.cacheMap.lookup key = none)
    (hfull : c.capacity ≤ c.cacheItemsList.length) :
    ∃ r, c.step (.put key value) = some r ∧ r.1 = (a.step (.put key value)).1 ∧
      r.2.Holds (a.step (.put key value)).2 := by
  have hkey := h.lookup_none hl
  have hlen : c.cacheItemsList.length = a.entries.length := by
    rw [← h.entries, List.length_map]
  have hfull' : a.capacity ≤ a.entries.length := by rw [← hlen, ← h.capacity]; exact hfull
  obtain ⟨last, hb⟩ : ∃ last, c.cacheItemsList.getLast? = some last := by
    cases hb : c.cacheItemsList.getLast? with
    | some last => exact ⟨last, rfl⟩
    | none => rw [List.getLast?_eq_none_iff.mp hb] at hlen; simp at hlen; omega
  refine ⟨(none,
      { c with
        cacheItemsList := (c.nextId, (key, value)) :: c.cacheItemsList.dropLast
        cacheMap := assign (c.cacheMap.filter (·.1 ≠ last.2.1)) key c.nextId
        nextId := c.nextId + 1 }),
    by simp [LRUCache.step, put, hl, hfull, hb], rfl, ?_⟩
  simp only [Lru.step, Lru.put, if_neg hkey, if_pos hfull']
  exact (h.removeBack hv hb).insert (fun hk => hkey
    (((List.dropLast_sublist _).map _).subset hk)) value

/-- `put` of a new key into a cache with room puts the key in front. -/
theorem Holds.step_put_room (h : c.Holds a) {key value : Int} (hl : c.cacheMap.lookup key = none)
    (hroom : ¬c.capacity ≤ c.cacheItemsList.length) :
    ∃ r, c.step (.put key value) = some r ∧ r.1 = (a.step (.put key value)).1 ∧
      r.2.Holds (a.step (.put key value)).2 := by
  have hroom' : ¬a.capacity ≤ a.entries.length := by
    rw [← h.entries, List.length_map, ← h.capacity]; exact hroom
  refine ⟨(none,
      { c with
        cacheItemsList := (c.nextId, (key, value)) :: c.cacheItemsList
        cacheMap := assign c.cacheMap key c.nextId
        nextId := c.nextId + 1 }),
    by simp [LRUCache.step, put, hl, hroom], rfl, ?_⟩
  simp only [Lru.step, Lru.put, if_neg (h.lookup_none hl), if_neg hroom']
  exact h.insert (h.lookup_none hl) value

/-- Each call returns what the policy returns, and keeps `Holds`. -/
theorem Holds.step (h : c.Holds a) (hv : a.Valid ops) (hc : 1 ≤ a.capacity) (op : Op) :
    ∃ r, c.step op = some r ∧ r.1 = (a.step op).1 ∧ r.2.Holds (a.step op).2 := by
  cases op with
  | get key => exact h.step_get hv key
  | put key value =>
    cases hl : c.cacheMap.lookup key with
    | some it => exact h.step_put_cached hv hl
    | none =>
      by_cases hfull : c.capacity ≤ c.cacheItemsList.length
      · exact h.step_put_evict hv hc hl hfull
      · exact h.step_put_room hl hfull

end Holds

/-- **caching_tests.cpp's `LRUCache` refines the policy.** -/
theorem refines (capacity : Nat) (hc : 1 ≤ capacity) (ops : List Op) :
    ∃ r, runOpsM step (new capacity) ops = some r ∧
      r.1 = (runOps Lru.step ⟨capacity, []⟩ ops).1 ∧
      r.2.Holds (runOps Lru.step ⟨capacity, []⟩ ops).2 := by
  obtain ⟨r, hr, hout, hR, -⟩ := runOpsM_sim (s := new capacity) (t := ⟨capacity, []⟩) step Lru.step
    (fun ops c a => c.Holds a ∧ a.Valid ops ∧ a.capacity = capacity)
    ⟨⟨rfl, rfl, List.nodup_nil, (fun _ h => nomatch h), List.nodup_nil, fun _ _ => by simp [new]⟩,
      ⟨List.nodup_nil, Nat.zero_le _, (fun _ _ h => nomatch h), List.nil_sublist _⟩, rfl⟩
    (fun ops c a op ⟨h, hv, hcap⟩ => by
      obtain ⟨r, hr, hout, hR⟩ := h.step hv (hcap ▸ hc) op
      exact ⟨r, hr, hout, hR, Lru.valid_step (hcap ▸ hc) hv op, by simp [hcap]⟩) ops
  exact ⟨r, hr, hout, hR⟩

end LRUCache

end CachingTests

/-- **The LRU policy of both classes.** For `capacity ≥ 1` and every call sequence `ops`,
    both classes run without undefined behaviour and return what the policy `Lru` returns,
    holding its entries; and after `ops` the policy's `get` returns the last value put for
    a cached key and `-1` for any other, it caches at most `capacity` keys, listed in the
    order of their last use, and a `put` of a new key into a full cache evicts the last of
    them, every other cached key having been used after it. -/
theorem lru_policy (capacity : Nat) (hc : 1 ≤ capacity) (ops : List Op) :
    (∃ r, runOpsM LRUCache.step (LRUCache.new capacity) ops = some r ∧
      r.1 = (runOps Lru.step ⟨capacity, []⟩ ops).1 ∧
      r.2.Holds (runOps Lru.step ⟨capacity, []⟩ ops).2) ∧
    (∃ r, runOpsM CachingTests.LRUCache.step (CachingTests.LRUCache.new capacity) ops = some r ∧
      r.1 = (runOps Lru.step ⟨capacity, []⟩ ops).1 ∧
      r.2.Holds (runOps Lru.step ⟨capacity, []⟩ ops).2) ∧
    (∀ key, (((runOps Lru.step ⟨capacity, []⟩ ops).2.get key).1 = -1 ∧
        key ∉ (runOps Lru.step ⟨capacity, []⟩ ops).2.keys) ∨
      (key ∈ (runOps Lru.step ⟨capacity, []⟩ ops).2.keys ∧
        lastPut ops key = some ((runOps Lru.step ⟨capacity, []⟩ ops).2.get key).1)) ∧
    (runOps Lru.step ⟨capacity, []⟩ ops).2.entries.length ≤ capacity ∧
    (runOps Lru.step ⟨capacity, []⟩ ops).2.keys.Sublist (recency (ops.map Op.key)) ∧
    ∀ key value, key ∉ (runOps Lru.step ⟨capacity, []⟩ ops).2.keys →
      (runOps Lru.step ⟨capacity, []⟩ ops).2.entries.length = capacity →
      ∃ e, (runOps Lru.step ⟨capacity, []⟩ ops).2.keys.getLast? = some e ∧
        ((runOps Lru.step ⟨capacity, []⟩ ops).2.put key value).keys =
          key :: (runOps Lru.step ⟨capacity, []⟩ ops).2.keys.dropLast ∧
        ∀ k ∈ (runOps Lru.step ⟨capacity, []⟩ ops).2.keys, k ≠ e →
          [k, e].Sublist (recency (ops.map Op.key)) := by
  obtain ⟨hv, hcap⟩ := Lru.valid_run capacity hc ops
  refine ⟨LRUCache.refines capacity hc ops, CachingTests.LRUCache.refines capacity hc ops,
    fun key => ?_, hv.length_le.trans_eq hcap, hv.recent, fun key value hkey hfull =>
      hv.evict (hc.trans_eq hcap.symm) hkey (hfull.trans hcap.symm) value⟩
  cases hl : (runOps Lru.step ⟨capacity, []⟩ ops).2.entries.lookup key with
  | none => exact .inl ⟨by simp [Lru.get, hl], lookup_eq_none_iff.mp hl⟩
  | some v =>
    exact .inr ⟨List.mem_map_of_mem (·.1) (mem_of_lookup hl),
      by simpa [Lru.get, hl] using hv.lastPut key v (mem_of_lookup hl)⟩

/-- `test_lru_eviction` (lines 101–111): capacity `2`. -/
def evictionCalls : List Op :=
  [.put 1 10, .put 2 20, .get 1, .put 3 30, .get 1, .get 2, .get 3]

example : (runOpsM LRUCache.step (LRUCache.new 2) evictionCalls).map (·.1) =
    some [none, none, some 10, none, some 10, some (-1), some 30] := rfl

theorem lru_policy_evictionCalls : 1 ≤ 2 ∧
    (∃ r, runOpsM LRUCache.step (LRUCache.new 2) evictionCalls = some r ∧
      r.1 = (runOps Lru.step ⟨2, []⟩ evictionCalls).1 ∧
      r.2.Holds (runOps Lru.step ⟨2, []⟩ evictionCalls).2) ∧
    (∃ r, runOpsM CachingTests.LRUCache.step (CachingTests.LRUCache.new 2) evictionCalls = some r ∧
      r.1 = (runOps Lru.step ⟨2, []⟩ evictionCalls).1 ∧
      r.2.Holds (runOps Lru.step ⟨2, []⟩ evictionCalls).2) ∧
    (∀ key, (((runOps Lru.step ⟨2, []⟩ evictionCalls).2.get key).1 = -1 ∧
        key ∉ (runOps Lru.step ⟨2, []⟩ evictionCalls).2.keys) ∨
      (key ∈ (runOps Lru.step ⟨2, []⟩ evictionCalls).2.keys ∧
        lastPut evictionCalls key = some ((runOps Lru.step ⟨2, []⟩ evictionCalls).2.get key).1)) ∧
    (runOps Lru.step ⟨2, []⟩ evictionCalls).2.entries.length ≤ 2 ∧
    (runOps Lru.step ⟨2, []⟩ evictionCalls).2.keys.Sublist (recency (evictionCalls.map Op.key)) ∧
    ∀ key value, key ∉ (runOps Lru.step ⟨2, []⟩ evictionCalls).2.keys →
      (runOps Lru.step ⟨2, []⟩ evictionCalls).2.entries.length = 2 →
      ∃ e, (runOps Lru.step ⟨2, []⟩ evictionCalls).2.keys.getLast? = some e ∧
        ((runOps Lru.step ⟨2, []⟩ evictionCalls).2.put key value).keys =
          key :: (runOps Lru.step ⟨2, []⟩ evictionCalls).2.keys.dropLast ∧
        ∀ k ∈ (runOps Lru.step ⟨2, []⟩ evictionCalls).2.keys, k ≠ e →
          [k, e].Sublist (recency (evictionCalls.map Op.key)) :=
  ⟨by decide, lru_policy 2 (by decide) evictionCalls⟩

end HpDb.Caching
