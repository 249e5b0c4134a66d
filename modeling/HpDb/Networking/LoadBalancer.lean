import HpDb.Networking.ConsistentHashing

/-!
# `RoundRobinBalancer` and `LoadBalancer` (networking/tests/networking_tests.go, lines 224–299)

The `LoadBalancer` of the first program keeps every node twice: on the ring of a
`ConsistentHashing`, which routes the requests `Server::handleRequest` serves, and in the
vector of a `RoundRobinBalancer`. `addNode` adds the node to both; `removeNode` erases the
points of its names from the ring and drops every node with its id from the vector.

`RoundRobinBalancer::getNextNode` takes `currentIndex.fetch_add(1)`, an `atomic<int>`, which
wraps to 32 bits, and reduces it modulo `nodes.size()`: the `int` is first converted to
`size_t`, so a negative counter is taken modulo `2^64`. Nothing in the file calls
`getRoundRobinNode`.

A node is its id. `addNode` and `removeNode` lock the balancer's mutex and `getNodeForKey`
does not; the model takes the calls one at a time, as `main` makes them: it adds and removes
nodes only while no client thread runs, and the client threads only read.

Results:
* `nextNodes_eq`: while the counter stays below `2^31`, `k` calls of `getNextNode` return the
  nodes in turn from the counter on. `getNextNode_wrap`: the call after the counter wraps
  returns the node at `(2^64 - 2^31) % n`, which with seven nodes is not the next one.
* `Routes.run`: over every run of `addNode`, `removeNode`, `getRoundRobinNode` and requests,
  every point of the ring holds a node the round-robin vector holds, and at one of that node's
  names. `run_handleRequest`: hence every request a run serves is served by a node the balancer
  holds, never by a removed one.
-/

namespace HpDb.Networking

/-! ## The round robin -/

/-- `class RoundRobinBalancer` (lines 224–247): the ids of `nodes`, and `currentIndex`. -/
structure RoundRobinBalancer where
  nodes : List String
  currentIndex : BitVec 32
  deriving DecidableEq, Repr

namespace RoundRobinBalancer

/-- `RoundRobinBalancer()` (line 230). -/
def new : RoundRobinBalancer := ⟨[], 0⟩

/-- `addNode(node)` (lines 232–234). -/
def addNode (b : RoundRobinBalancer) (node : String) : RoundRobinBalancer :=
  { b with nodes := b.nodes ++ [node] }

/-- `removeNode(id)` (lines 236–240). -/
def removeNode (b : RoundRobinBalancer) (id : String) : RoundRobinBalancer :=
  { b with nodes := b.nodes.filter (· ≠ id) }

/-- The `size_t` an `int` converts to. -/
def toSizeT (x : BitVec 32) : Nat := (x.toInt % 18446744073709551616).toNat

/-- `getNextNode()` (lines 242–246); `none` is `nullptr`. -/
def getNextNode (b : RoundRobinBalancer) : Option String × RoundRobinBalancer :=
  if b.nodes = [] then (none, b)
  else (b.nodes[toSizeT b.currentIndex % b.nodes.length]?, { b with currentIndex := b.currentIndex + 1 })

/-- `k` calls of `getNextNode`, with what they return. -/
def nextNodes : Nat → RoundRobinBalancer → List (Option String) × RoundRobinBalancer
  | 0, b => ([], b)
  | k + 1, b => ((b.getNextNode.1 :: (nextNodes k b.getNextNode.2).1), (nextNodes k b.getNextNode.2).2)

theorem getNextNode_nodes (b : RoundRobinBalancer) : b.getNextNode.2.nodes = b.nodes := by
  unfold getNextNode
  split <;> rfl

theorem toSizeT_of_lt {x : BitVec 32} (h : x.toNat < 2147483648) : toSizeT x = x.toNat := by
  rw [toSizeT, BitVec.toInt_eq_toNat_cond, if_pos (by omega)]
  omega

theorem getNextNode_of_ne_nil {b : RoundRobinBalancer} (h : b.nodes ≠ []) :
    b.getNextNode = (b.nodes[toSizeT b.currentIndex % b.nodes.length]?,
      { b with currentIndex := b.currentIndex + 1 }) := by
  rw [getNextNode, if_neg h]

/-- While the counter stays below `2^31`, `k` calls return the nodes in turn from the
    counter on. -/
theorem nextNodes_eq : ∀ (k : Nat) (b : RoundRobinBalancer), b.nodes ≠ [] →
    b.currentIndex.toNat + k ≤ 2147483648 →
    (nextNodes k b).1 = (List.range k).map fun j => b.nodes[(b.currentIndex.toNat + j) % b.nodes.length]?
  | 0, _, _, _ => rfl
  | k + 1, b, hne, hk => by
    have hnext : (b.currentIndex + 1).toNat = b.currentIndex.toNat + 1 := by
      rw [BitVec.toNat_add, show (1 : BitVec 32).toNat = 1 from rfl]
      omega
    rw [nextNodes, getNextNode_of_ne_nil hne, List.range_succ_eq_map, List.map_cons, List.map_map]
    dsimp only
    rw [nextNodes_eq k { b with currentIndex := b.currentIndex + 1 } hne (by dsimp only; omega),
      toSizeT_of_lt (by omega), Nat.add_zero]
    dsimp only
    rw [hnext]
    congr 2
    funext j
    simp only [Function.comp_apply, Nat.succ_eq_add_one, Nat.add_assoc, Nat.add_comm 1 j]

theorem nextNodes_eq_threeNodes :
    (⟨["node1", "node2", "node3"], 0⟩ : RoundRobinBalancer).nodes ≠ [] ∧
      (0 : BitVec 32).toNat + 4 ≤ 2147483648 ∧
      (nextNodes 4 ⟨["node1", "node2", "node3"], 0⟩).1 =
        (List.range 4).map fun j => ["node1", "node2", "node3"][(0 + j) % 3]? :=
  ⟨by decide, by decide, nextNodes_eq 4 ⟨["node1", "node2", "node3"], 0⟩ (by decide) (by decide)⟩

/-- The call at the counter `2^31`, which `fetch_add` reaches from `2^31 - 1` by wrapping to
    `-2^31`, returns the node at `(2^64 - 2^31) % n`. -/
theorem getNextNode_wrap (b : RoundRobinBalancer) (h : b.nodes ≠ [])
    (hwrap : b.currentIndex = 2147483648) :
    b.getNextNode.1 = b.nodes[18446744071562067968 % b.nodes.length]? := by
  rw [getNextNode_of_ne_nil h, hwrap]
  rfl

/-- Seven nodes: the call before the wrap returns node `1`, the call after it node `0`. -/
example : (2147483647 % 7, 18446744071562067968 % 7) = (1, 0) := by decide

end RoundRobinBalancer

/-! ## The balancer -/

namespace Ring

theorem mem_entries_foldl_set {f : Nat → Nat} {v : String} {x : Nat × String} :
    ∀ (l : List Nat) {r : Ring}, x ∈ (l.foldl (fun r i => r.set (f i) v) r).entries →
      x ∈ r.entries ∨ ∃ i ∈ l, x = (f i, v)
  | [], _, hx => .inl hx
  | i :: l, r, hx => by
    rcases mem_entries_foldl_set l hx with hx | ⟨j, hj, rfl⟩
    · rcases mem_insertEntry hx with rfl | hx
      · exact .inr ⟨i, List.mem_cons_self _ _, rfl⟩
      · exact .inl hx
    · exact .inr ⟨j, List.mem_cons_of_mem _ hj, rfl⟩

theorem mem_entries_foldl_erase {f : Nat → Nat} {x : Nat × String} :
    ∀ (l : List Nat) {r : Ring}, x ∈ (l.foldl (fun r i => r.erase (f i)) r).entries →
      x ∈ r.entries ∧ ∀ i ∈ l, x.1 ≠ f i
  | [], _, hx => ⟨hx, by simp⟩
  | i :: l, r, hx => by
    obtain ⟨hx, hl⟩ := mem_entries_foldl_erase l hx
    simp only [erase, List.mem_filter, bne_iff_ne, ne_eq] at hx
    exact ⟨hx.1, fun j hj => (List.mem_cons.mp hj).elim (· ▸ hx.2) (hl j)⟩

/-- The node a key reaches is the node of one of the points. -/
theorem mem_of_nodeAt {r : Ring} {h : Nat} {v : String} (hv : r.nodeAt h = some v) :
    ∃ e ∈ r.entries, e.2 = v := by
  unfold nodeAt at hv
  split at hv
  · cases hv
  · rename_i first rest hr
    split at hv <;> cases hv
    · rename_i e he
      exact ⟨e, List.mem_of_find?_eq_some he, rfl⟩
    · exact ⟨first, hr ▸ List.mem_cons_self _ _, rfl⟩

end Ring

/-- `class LoadBalancer` of the first program (lines 249–280). -/
structure LoadBalancer where
  consistentHasher : ConsistentHashing
  roundRobinBalancer : RoundRobinBalancer

namespace LoadBalancer

/-- `LoadBalancer()` (line 256): `consistentHasher(100)`. -/
def new (hashFunction : String → Nat) : LoadBalancer :=
  ⟨ConsistentHashing.new hashFunction 100, RoundRobinBalancer.new⟩

/-- `addNode(id)` (lines 258–264), with the line it prints. -/
def addNode (lb : LoadBalancer) (id : String) : String × LoadBalancer :=
  ("Node " ++ id ++ " added to the system.",
    ⟨lb.consistentHasher.addNode id, lb.roundRobinBalancer.addNode id⟩)

/-- `removeNode(id)` (lines 266–271), with the line it prints. -/
def removeNode (lb : LoadBalancer) (id : String) : String × LoadBalancer :=
  ("Node " ++ id ++ " removed from the system.",
    ⟨lb.consistentHasher.removeNode id, lb.roundRobinBalancer.removeNode id⟩)

/-- `getNodeForKey(key)` (lines 273–275). -/
def getNodeForKey (lb : LoadBalancer) (key : String) : Option String :=
  lb.consistentHasher.getNode key

/-- `getRoundRobinNode()` (lines 277–279). -/
def getRoundRobinNode (lb : LoadBalancer) : Option String × LoadBalancer :=
  (lb.roundRobinBalancer.getNextNode.1, { lb with roundRobinBalancer := lb.roundRobinBalancer.getNextNode.2 })

/-- `Server::handleRequest(request)` (lines 292–299): the line it prints. -/
def handleRequest (lb : LoadBalancer) (key : String) : String :=
  match lb.getNodeForKey key with
  | some node => "Request for key: " ++ key ++ " handled by node: " ++ node
  | none => "No available nodes to handle the request."

/-- A call on the balancer. -/
inductive Call where
  | addNode (id : String)
  | removeNode (id : String)
  | getRoundRobinNode
  | handleRequest (key : String)
  deriving DecidableEq, Repr

/-- One call, with the line it prints, if any. -/
def step (lb : LoadBalancer) : Call → List String × LoadBalancer
  | .addNode id => ([(lb.addNode id).1], (lb.addNode id).2)
  | .removeNode id => ([(lb.removeNode id).1], (lb.removeNode id).2)
  | .getRoundRobinNode => ([], lb.getRoundRobinNode.2)
  | .handleRequest key => ([lb.handleRequest key], lb)

/-- The calls in turn. -/
def run (lb : LoadBalancer) (calls : List Call) : LoadBalancer :=
  calls.foldl (fun lb call => (lb.step call).2) lb

/-! ### Every point of the ring holds a node the balancer holds -/

/-- Each point of the ring holds a node of the round-robin vector, at one of its names. -/
structure Routes (lb : LoadBalancer) : Prop where
  held : ∀ e ∈ lb.consistentHasher.hashRing.entries, e.2 ∈ lb.roundRobinBalancer.nodes
  named : ∀ e ∈ lb.consistentHasher.hashRing.entries,
    ∃ i < lb.consistentHasher.numReplicas, e.1 = lb.consistentHasher.hashKey (e.2 ++ toString i)

theorem routes_new (hashFunction : String → Nat) : Routes (new hashFunction) :=
  ⟨fun _ he => absurd he (List.not_mem_nil _), fun _ he => absurd he (List.not_mem_nil _)⟩

namespace Routes

variable {lb : LoadBalancer}

theorem addNode (h : Routes lb) (id : String) : Routes (lb.addNode id).2 := by
  constructor
  all_goals
    intro e he
    rcases Ring.mem_entries_foldl_set _ he with he | ⟨i, hi, rfl⟩
  · exact List.mem_append_left _ (h.held e he)
  · exact List.mem_append_right _ (List.mem_singleton_self id)
  · exact h.named e he
  · exact ⟨i, List.mem_range.mp hi, rfl⟩

theorem removeNode (h : Routes lb) (id : String) : Routes (lb.removeNode id).2 := by
  constructor
  all_goals
    intro e he
    obtain ⟨he, hne⟩ := Ring.mem_entries_foldl_erase _ he
  · refine List.mem_filter.mpr ⟨h.held e he, decide_eq_true fun hid => ?_⟩
    obtain ⟨i, hi, he'⟩ := h.named e he
    exact hne i (List.mem_range.mpr hi) (hid ▸ he')
  · exact h.named e he

theorem step (h : Routes lb) : ∀ call : Call, Routes (lb.step call).2
  | .addNode id => h.addNode id
  | .removeNode id => h.removeNode id
  | .getRoundRobinNode =>
    ⟨fun e he => (RoundRobinBalancer.getNextNode_nodes _).symm ▸ h.held e he, h.named⟩
  | .handleRequest _ => h

theorem run : ∀ (calls : List Call) {lb : LoadBalancer}, Routes lb → Routes (lb.run calls)
  | [], _, h => h
  | call :: calls, _, h => run calls (h.step call)

/-- A key reaches a node the round-robin vector holds. -/
theorem getNodeForKey_mem (h : Routes lb) {key v : String} (hv : lb.getNodeForKey key = some v) :
    v ∈ lb.roundRobinBalancer.nodes := by
  obtain ⟨e, he, rfl⟩ := Ring.mem_of_nodeAt hv
  exact h.held e he

end Routes

/-- Every request a run serves is served by a node the balancer holds at that moment: a
    removed node serves none. -/
theorem run_handleRequest (hashFunction : String → Nat) (calls : List Call) (key : String) :
    (∃ node ∈ ((new hashFunction).run calls).roundRobinBalancer.nodes,
      ((new hashFunction).run calls).handleRequest key =
        "Request for key: " ++ key ++ " handled by node: " ++ node) ∨
      ((new hashFunction).run calls).handleRequest key = "No available nodes to handle the request." := by
  have h := Routes.run calls (routes_new hashFunction)
  unfold handleRequest
  split
  · rename_i node hnode
    exact .inl ⟨node, h.getNodeForKey_mem hnode, rfl⟩
  · exact .inr rfl

end LoadBalancer

end HpDb.Networking
