import Mathlib.Data.List.Nodup

/-!
# `DistributedCache` (caching/distributed_cache.go, lines 1–199)

Each node of the cluster runs a `DistributedCache` with the addresses of all the nodes and
the index of the leader, `0` when it starts. `Set` and `Delete` change the local map and
then send a `replicateSet` or `replicateDelete` request to every node whose index is not the
leader's, in a goroutine each. A node serves such a request in `ServeHTTP` by calling the
same `Set` or `Delete`, which replicates again.

The model is the cluster as one state: the instance serving each address, the requests in
flight, and how many were sent. Delivering a request is one step, in any order. The
leader monitor is left out: it only changes `leader` when a ping fails, and the runs below
need no failure. `Get`, `/get` and `/ping` send no replication request and are left out.

Results:
* `deliver_spec`, `deliverAll_spec`: while every node has leader `0`, each delivered
  request makes its node send `n - 1` new requests, over any delivery order.
* `replication_unbounded`: with `n ≥ 2` nodes, one client `Set` or `Delete` at any node
  never stops replicating: after `d` deliveries, in order of sending, `(n - 1) * (d + 1)`
  requests have been sent and more are in flight. With `d = 2` that is more than `n`;
  `replication_unbounded_main` is the run on the three nodes of `main()`.
-/

namespace HpDb.Caching

/-- A change that `Set` or `Delete` makes, and that the matching request carries. -/
inductive Write
  | set (key value : String)
  | delete (key : String)

/-- The change to the local map: `cache.data[key] = value` or `delete(cache.data, key)`. -/
def Write.apply : Write → (String → Option String) → String → Option String
  | .set key value, data => Function.update data key (some value)
  | .delete key, data => Function.update data key none

/-- A `replicateSet` or `replicateDelete` request to the node at index `dst`. -/
structure Msg where
  dst : Nat
  write : Write

/-- `type DistributedCache` (lines 18–24): the map, the node addresses, and the leader. -/
structure DistributedCache where
  data : String → Option String
  nodes : List String
  leader : Nat

namespace DistributedCache

/-- `NewDistributedCache(nodes)`. -/
def new (nodes : List String) : DistributedCache := ⟨fun _ => none, nodes, 0⟩

/-- The body shared by `Set` and `Delete`: change the local map, then send the request to
    every node but the leader. -/
def write (cache : DistributedCache) (w : Write) : DistributedCache × List Msg :=
  ({ cache with data := w.apply cache.data },
    ((List.range cache.nodes.length).filter (· != cache.leader)).map fun i => ⟨i, w⟩)

/-- `Set(key, value)` (lines 70–85), with the `replicateSet` requests it sends. -/
def set (cache : DistributedCache) (key value : String) : DistributedCache × List Msg :=
  cache.write (.set key value)

/-- `Delete(key)` (lines 135–150), with the `replicateDelete` requests it sends. -/
def delete (cache : DistributedCache) (key : String) : DistributedCache × List Msg :=
  cache.write (.delete key)

/-- The `/set` and `/delete` cases of `ServeHTTP` (lines 162–186). -/
def serveHTTP (cache : DistributedCache) : Write → DistributedCache × List Msg
  | .set key value => cache.set key value
  | .delete key => cache.delete key

theorem serveHTTP_eq (cache : DistributedCache) (w : Write) : cache.serveHTTP w = cache.write w := by
  cases w <;> rfl

end DistributedCache

/-- The cluster: the instance at each address, the requests in flight, and the number of
    requests sent. -/
structure Cluster where
  caches : List DistributedCache
  inFlight : List Msg
  sent : Nat

namespace Cluster

/-- Every address runs `NewDistributedCache(addrs)`. -/
def init (addrs : List String) : Cluster :=
  ⟨List.replicate addrs.length (DistributedCache.new addrs), [], 0⟩

/-- A client calls `Set` or `Delete` at node `a`. -/
def clientWrite (c : Cluster) (a : Nat) (w : Write) : Option Cluster := do
  let cache ← c.caches[a]?
  let (cache', msgs) := cache.write w
  some ⟨c.caches.set a cache', c.inFlight ++ msgs, c.sent + msgs.length⟩

/-- The request at position `k` in flight reaches its node, which serves it. -/
def deliver (c : Cluster) (k : Nat) : Option Cluster := do
  let m ← c.inFlight[k]?
  let cache ← c.caches[m.dst]?
  let (cache', msgs) := cache.serveHTTP m.write
  some ⟨c.caches.set m.dst cache', c.inFlight.eraseIdx k ++ msgs, c.sent + msgs.length⟩

/-- The requests at positions `ks` delivered in turn. -/
def deliverAll (c : Cluster) (ks : List Nat) : Option Cluster := ks.foldlM deliver c

/-! ## Every request makes `n - 1` more -/

/-- A cluster of `n` nodes that all take node `0` as the leader. -/
structure Inv (n : Nat) (c : Cluster) : Prop where
  length : c.caches.length = n
  caches : ∀ cache ∈ c.caches, cache.leader = 0 ∧ cache.nodes.length = n
  dst : ∀ m ∈ c.inFlight, m.dst < n

theorem length_filter_range_ne {n l : Nat} (hl : l < n) :
    ((List.range n).filter (· != l)).length = n - 1 := by
  rw [← (List.nodup_range n).erase_eq_filter, List.length_erase_of_mem (List.mem_range.mpr hl),
    List.length_range]

/-- A node that takes `0` as the leader sends `n - 1` requests, to nodes of the cluster. -/
theorem write_msgs {n : Nat} (hn : 0 < n) {cache : DistributedCache}
    (h : cache.leader = 0 ∧ cache.nodes.length = n) (w : Write) :
    (cache.write w).2.length = n - 1 ∧ ∀ m ∈ (cache.write w).2, m.dst < n := by
  obtain ⟨hl, hlen⟩ := h
  refine ⟨by simp only [DistributedCache.write, List.length_map, hl, hlen,
    length_filter_range_ne hn], ?_⟩
  simp only [DistributedCache.write, List.mem_map, List.mem_filter, List.mem_range, hlen]
  rintro m ⟨i, ⟨hi, -⟩, rfl⟩
  exact hi

/-- Node `j` serving a write keeps the cluster's shape. -/
theorem inv_write {n : Nat} (hn : 0 < n) {c : Cluster} (h : c.Inv n) {j : Nat}
    {cache : DistributedCache} (hj : c.caches[j]? = some cache) (w : Write) {rest : List Msg}
    (hrest : ∀ m ∈ rest, m.dst < n) (sent : Nat) :
    Inv n ⟨c.caches.set j (cache.write w).1, rest ++ (cache.write w).2, sent⟩ := by
  have hc := h.caches cache (List.getElem?_mem hj)
  refine ⟨by simp [h.length], fun x hx => ?_, fun m hm => ?_⟩
  · rcases List.mem_or_eq_of_mem_set hx with hx | rfl
    · exact h.caches x hx
    · exact hc
  · rcases List.mem_append.mp hm with hm | hm
    · exact hrest m hm
    · exact (write_msgs hn hc w).2 m hm

theorem deliver_spec {n : Nat} (hn : 0 < n) {c : Cluster} (h : c.Inv n) {k : Nat}
    (hk : k < c.inFlight.length) :
    ∃ c', c.deliver k = some c' ∧ c'.Inv n ∧ c'.sent = c.sent + (n - 1) ∧
      c'.inFlight.length + 1 = c.inFlight.length + (n - 1) := by
  obtain ⟨m, hm⟩ : ∃ m, c.inFlight[k]? = some m := ⟨_, List.getElem?_eq_getElem hk⟩
  have hdst := h.dst m (List.getElem?_mem hm)
  obtain ⟨cache, hj⟩ : ∃ cache, c.caches[m.dst]? = some cache :=
    ⟨_, List.getElem?_eq_getElem (h.length ▸ hdst)⟩
  have hmsgs := write_msgs hn (h.caches cache (List.getElem?_mem hj)) m.write
  refine ⟨⟨c.caches.set m.dst (cache.write m.write).1,
      c.inFlight.eraseIdx k ++ (cache.write m.write).2, c.sent + (cache.write m.write).2.length⟩,
    by simp [deliver, hm, hj, DistributedCache.serveHTTP_eq],
    inv_write hn h hj _ (fun m hm' => h.dst m (List.mem_of_mem_eraseIdx hm')) _,
    by rw [hmsgs.1], ?_⟩
  simp only [List.length_append, List.length_eraseIdx, hk, if_true, hmsgs.1]
  omega

theorem clientWrite_spec {n : Nat} (hn : 0 < n) {c : Cluster} (h : c.Inv n) {a : Nat}
    (ha : a < n) (w : Write) :
    ∃ c', c.clientWrite a w = some c' ∧ c'.Inv n ∧ c'.sent = c.sent + (n - 1) ∧
      c'.inFlight.length = c.inFlight.length + (n - 1) := by
  obtain ⟨cache, hj⟩ : ∃ cache, c.caches[a]? = some cache :=
    ⟨_, List.getElem?_eq_getElem (h.length ▸ ha)⟩
  have hmsgs := write_msgs hn (h.caches cache (List.getElem?_mem hj)) w
  refine ⟨⟨c.caches.set a (cache.write w).1, c.inFlight ++ (cache.write w).2,
      c.sent + (cache.write w).2.length⟩, by simp [clientWrite, hj], inv_write hn h hj _ h.dst _,
    by rw [hmsgs.1], by rw [List.length_append, hmsgs.1]⟩

/-- Over any delivery order, each delivery sends `n - 1` requests. -/
theorem deliverAll_spec {n : Nat} (hn : 0 < n) : ∀ (ks : List Nat) {c c' : Cluster}, c.Inv n →
    c.deliverAll ks = some c' → c'.Inv n ∧ c'.sent = c.sent + (n - 1) * ks.length ∧
      c'.inFlight.length + ks.length = c.inFlight.length + (n - 1) * ks.length
  | [], c, c', h, hrun => by cases hrun; simpa using h
  | k :: ks, c, c', h, hrun => by
    simp only [deliverAll, List.foldlM_cons, Option.bind_eq_bind, Option.bind_eq_some] at hrun
    obtain ⟨c₁, h₁, hrun⟩ := hrun
    have hk : k < c.inFlight.length := by
      by_contra hk
      simp [deliver, List.getElem?_eq_none (Nat.le_of_not_lt hk)] at h₁
    obtain ⟨c₁', h₁', hinv, hsent, hlen⟩ := deliver_spec hn h hk
    obtain rfl : c₁ = c₁' := Option.some.inj (h₁.symm.trans h₁')
    obtain ⟨hinv', hsent', hlen'⟩ := deliverAll_spec hn ks hinv hrun
    refine ⟨hinv', by rw [hsent', hsent, List.length_cons, Nat.mul_succ]; omega, ?_⟩
    rw [List.length_cons, Nat.mul_succ]
    omega

/-- With two nodes or more, the requests never run out: delivering the first one in flight
    can go on forever. -/
theorem deliverAll_first {n : Nat} (hn : 2 ≤ n) : ∀ (d : Nat) {c : Cluster}, c.Inv n →
    c.inFlight ≠ [] → ∃ c', c.deliverAll (List.replicate d 0) = some c' ∧ c'.inFlight ≠ []
  | 0, c, _, hne => ⟨c, rfl, hne⟩
  | d + 1, c, h, hne => by
    have hpos := List.length_pos.mpr hne
    obtain ⟨c₁, h₁, hinv, -, hlen⟩ := deliver_spec (by omega) h hpos
    obtain ⟨c', hrun, hne'⟩ := deliverAll_first hn d hinv
      (List.ne_nil_of_length_pos (by omega))
    exact ⟨c', by simp only [deliverAll, List.replicate_succ, List.foldlM_cons, h₁]; exact hrun,
      hne'⟩

theorem inv_init (addrs : List String) : (init addrs).Inv addrs.length :=
  ⟨List.length_replicate _ _, fun _ hc => by
    rw [List.eq_of_mem_replicate hc]; exact ⟨rfl, rfl⟩, fun _ hm => absurd hm (List.not_mem_nil _)⟩

theorem replication_unbounded (addrs : List String) (hn : 2 ≤ addrs.length) (a : Nat)
    (ha : a < addrs.length) (w : Write) (d : Nat) :
    ∃ c, ((init addrs).clientWrite a w).bind (·.deliverAll (List.replicate d 0)) = some c ∧
      c.sent = (addrs.length - 1) * (d + 1) ∧ c.inFlight ≠ [] := by
  obtain ⟨c₀, h₀, hinv, hsent, hlen⟩ := clientWrite_spec (by omega) (inv_init addrs) ha w
  obtain ⟨c, hrun, hne⟩ := deliverAll_first hn d hinv
    (List.ne_nil_of_length_pos (by simp [hlen, init]; omega))
  obtain ⟨-, hsent', -⟩ := deliverAll_spec (by omega) _ hinv hrun
  refine ⟨c, by rw [h₀]; exact hrun, ?_, hne⟩
  rw [hsent', hsent, List.length_replicate]
  simp only [init, Nat.zero_add]
  rw [Nat.mul_succ, Nat.add_comm]

/-- The `nodes` of `main()` (lines 189–193). -/
def mainNodes : List String :=
  ["http://localhost:8001", "http://localhost:8002", "http://localhost:8003"]

/-- A client `Set` at the first of the three nodes of `main()`, then two deliveries: six
    requests sent, more than the three nodes, and some still in flight. -/
theorem replication_unbounded_main :
    2 ≤ mainNodes.length ∧ 0 < mainNodes.length ∧
      mainNodes.length < (mainNodes.length - 1) * (2 + 1) ∧ ∃ c, ((init mainNodes).clientWrite 0 (.set "k" "v")).bind
          (·.deliverAll (List.replicate 2 0)) = some c ∧
        c.sent = (mainNodes.length - 1) * (2 + 1) ∧ c.inFlight ≠ [] :=
  ⟨by decide, by decide, by decide,
    replication_unbounded mainNodes (by decide) 0 (by decide) (.set "k" "v") 2⟩

end Cluster

end HpDb.Caching
