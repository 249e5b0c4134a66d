import Mathlib.Data.List.Basic

/-!
# `ShardingManager` (distributed_systems/sharding/hash_sharding.cpp)

Every key goes to node `hashFunction(key) % nodes.size()`. `addNode` appends an empty node,
and `removeNode` erases the first node with the id, and its data with it. Neither moves any
data, so after a change of membership a key may route to a node that never stored it.

`hashFunction` is `std::hash<std::string>`, whose values the standard leaves to the
implementation: the model takes it as a parameter, and the results hold for every such
function. With no node, `% nodes.size()` divides by zero; the model's `getData` then
returns `none`.

Results:
* `getData_strands_keys`: for every hash function, a key put on a two-node cluster is not
  found after a third node is added and the first two are removed.
* `getData_without_membership_change`: with at least one node, `getData(k)` returns the
  value of a `putData(k, v)` after which no node was added or removed and `k` was not put
  again; a key never put is not found.
-/

namespace HpDb.Sharding

/-- `class Node` (lines 9–31), without its mutex. -/
structure Node where
  nodeId : String
  data : String → Option String

namespace Node

/-- `Node(id)`: no data. -/
def new (nodeId : String) : Node := ⟨nodeId, fun _ => none⟩

/-- `storeData` (lines 16–19). -/
def storeData (n : Node) (key value : String) : Node :=
  { n with data := Function.update n.data key (some value) }

/-- `retrieveData` (lines 21–27). -/
def retrieveData (n : Node) (key : String) : String := (n.data key).getD "Key not found!"

end Node

/-- `class ShardingManager` (lines 39–79): `nodes`, without the mutex. -/
structure ShardingManager where
  nodes : List Node

/-- A call of the manager. -/
inductive Op where
  | putData (key value : String)
  | getData (key : String)
  | addNode (nodeId : String)
  | removeNode (nodeId : String)
  deriving DecidableEq, Repr

/-- The call leaves the list of nodes as it is. -/
def Op.keepsMembership : Op → Bool
  | .addNode _ | .removeNode _ => false
  | _ => true

namespace ShardingManager

variable (hashFunction : String → Nat)

/-- The constructor (lines 41–45). -/
def new (nodeIds : List String) : ShardingManager := ⟨nodeIds.map Node.new⟩

/-- `putData` (lines 48–51). -/
def putData (m : ShardingManager) (key value : String) : ShardingManager :=
  ⟨m.nodes.modify (·.storeData key value) (hashFunction key % m.nodes.length)⟩

/-- `getData` (lines 54–57); `none` when there is no node. -/
def getData (m : ShardingManager) (key : String) : Option String :=
  (m.nodes[hashFunction key % m.nodes.length]?).map (·.retrieveData key)

/-- `addNode` (lines 60–63). -/
def addNode (m : ShardingManager) (nodeId : String) : ShardingManager :=
  ⟨m.nodes ++ [Node.new nodeId]⟩

/-- `removeNode` (lines 66–74): erase the first node with the id. -/
def removeNode (m : ShardingManager) (nodeId : String) : ShardingManager :=
  ⟨m.nodes.eraseP fun n => n.nodeId = nodeId⟩

/-- One call. -/
def step (m : ShardingManager) : Op → ShardingManager
  | .putData key value => m.putData hashFunction key value
  | .getData _ => m
  | .addNode nodeId => m.addNode nodeId
  | .removeNode nodeId => m.removeNode nodeId

/-- A run of calls. -/
def run (m : ShardingManager) (ops : List Op) : ShardingManager := ops.foldl (step hashFunction) m

theorem run_append (m : ShardingManager) (ops ops' : List Op) :
    m.run hashFunction (ops ++ ops') = (m.run hashFunction ops).run hashFunction ops' :=
  List.foldl_append _ _ _ _

theorem putData_nodes (m : ShardingManager) (key value : String) :
    (m.putData hashFunction key value).nodes =
      m.nodes.modify (·.storeData key value) (hashFunction key % m.nodes.length) := rfl

@[simp] theorem putData_length (m : ShardingManager) (key value : String) :
    (m.putData hashFunction key value).nodes.length = m.nodes.length := List.length_modify _ _ _

end ShardingManager

/-! ## Membership changes strand keys -/

/-- `putData("user123", …)` on `Node1`, `Node2`; then `addNode("Node3")`,
    `removeNode("Node1")`, `removeNode("Node2")`. There are two, three, two and then one
    node. -/
def strandingOps : List Op :=
  [.putData "user123" "Data for user123", .addNode "Node3", .removeNode "Node1",
    .removeNode "Node2"]

/-- Whatever the hash function, the only node left is the new `Node3`, and `user123` is
    not found on it. -/
theorem getData_strands_keys (hashFunction : String → Nat) :
    ((ShardingManager.new ["Node1", "Node2"]).run hashFunction strandingOps).nodes.map Node.nodeId =
        ["Node3"] ∧
      ((ShardingManager.new ["Node1", "Node2"]).run hashFunction strandingOps).getData
          hashFunction "user123" =
        some "Key not found!" := by
  have hput : ∃ a b, ((ShardingManager.new ["Node1", "Node2"]).putData hashFunction "user123"
      "Data for user123").nodes = [a, b] ∧ a.nodeId = "Node1" ∧ b.nodeId = "Node2" := by
    simp only [ShardingManager.putData, ShardingManager.new, List.map_cons, List.map_nil,
      List.length_cons, List.length_nil]
    rcases Nat.mod_two_eq_zero_or_one (hashFunction "user123") with h | h <;> rw [h] <;>
      exact ⟨_, _, rfl, rfl, rfl⟩
  obtain ⟨a, b, hab, ha, hb⟩ := hput
  have hrun : ((ShardingManager.new ["Node1", "Node2"]).run hashFunction strandingOps).nodes =
      [Node.new "Node3"] := by
    simp only [strandingOps, ShardingManager.run, List.foldl_cons, List.foldl_nil,
      ShardingManager.step, ShardingManager.addNode, ShardingManager.removeNode, hab,
      List.cons_append, List.nil_append]
    rw [List.eraseP_cons_of_pos (by simp [ha]), List.eraseP_cons_of_pos (by simp [hb])]
  refine ⟨by rw [hrun]; rfl, ?_⟩
  simp only [ShardingManager.getData, hrun, List.length_singleton, Nat.mod_one]
  rfl

/-! ## Without a membership change, data stays reachable -/

namespace ShardingManager

variable (hashFunction : String → Nat)

/-- The node `k` routes to holds `v` for `k`. -/
def Holds (k v : String) (m : ShardingManager) : Prop :=
  ∃ n, m.nodes[hashFunction k % m.nodes.length]? = some n ∧ n.data k = some v

theorem holds_putData {m : ShardingManager} (hm : m.nodes ≠ []) (k v : String) :
    Holds hashFunction k v (m.putData hashFunction k v) := by
  have hi : hashFunction k % m.nodes.length < m.nodes.length :=
    Nat.mod_lt _ (List.length_pos.mpr hm)
  obtain ⟨n, hn⟩ : ∃ n, m.nodes[hashFunction k % m.nodes.length]? = some n :=
    ⟨_, List.getElem?_eq_getElem hi⟩
  refine ⟨n.storeData k v, ?_, by simp [Node.storeData]⟩
  rw [putData_length, putData_nodes, List.getElem?_modify_eq, hn]
  rfl

theorem Holds.step {k v : String} {m : ShardingManager} (h : Holds hashFunction k v m) :
    ∀ op : Op, op.keepsMembership → (∀ v', op ≠ .putData k v') →
      Holds hashFunction k v (m.step hashFunction op)
  | .putData k' v', _, hne => by
    have hk : k' ≠ k := fun e => hne v' (e ▸ rfl)
    obtain ⟨n, hn, hv⟩ := h
    simp only [ShardingManager.step, Holds, putData_length]
    by_cases hi : hashFunction k' % m.nodes.length = hashFunction k % m.nodes.length
    · refine ⟨n.storeData k' v', ?_,
        by simp [Node.storeData, Function.update_noteq (Ne.symm hk), hv]⟩
      rw [putData_nodes, ← hi, List.getElem?_modify_eq, hi, hn]
      rfl
    · exact ⟨n, by rw [putData_nodes, List.getElem?_modify_ne _ _ hi, hn], hv⟩
  | .getData _, _, _ => h

theorem Holds.run {k v : String} :
    ∀ (ops : List Op) {m : ShardingManager}, Holds hashFunction k v m →
      (∀ op ∈ ops, op.keepsMembership ∧ ∀ v', op ≠ .putData k v') →
        Holds hashFunction k v (m.run hashFunction ops)
  | [], _, h, _ => h
  | op :: ops, _, h, hops =>
    Holds.run ops (h.step hashFunction op (hops op (List.mem_cons_self _ _)).1
      (hops op (List.mem_cons_self _ _)).2) fun op' hop' => hops op' (List.mem_cons_of_mem _ hop')

theorem getData_of_holds {k v : String} {m : ShardingManager} (h : Holds hashFunction k v m) :
    m.getData hashFunction k = some v := by
  obtain ⟨n, hn, hv⟩ := h
  simp [getData, hn, Node.retrieveData, hv]

/-- No node holds a value for `k`. -/
def Absent (k : String) (m : ShardingManager) : Prop := ∀ n ∈ m.nodes, n.data k = none

theorem mem_modify {f : Node → Node} {i : Nat} {l : List Node} {x : Node}
    (h : x ∈ l.modify f i) : x ∈ l ∨ ∃ y ∈ l, x = f y := by
  obtain ⟨j, hj⟩ := List.mem_iff_getElem?.mp h
  by_cases hij : i = j
  · subst hij
    rw [List.getElem?_modify_eq] at hj
    cases hy : l[i]? with
    | none => rw [hy] at hj; cases hj
    | some y =>
      rw [hy] at hj
      cases hj
      exact .inr ⟨y, List.getElem?_mem hy, rfl⟩
  · rw [List.getElem?_modify_ne _ _ hij] at hj
    exact .inl (List.getElem?_mem hj)

theorem Absent.step {k : String} {m : ShardingManager} (h : Absent k m) :
    ∀ op : Op, (∀ v', op ≠ .putData k v') → Absent k (m.step hashFunction op)
  | .putData k' v', hne => fun x hx => by
    have hk : k' ≠ k := fun e => hne v' (e ▸ rfl)
    rcases mem_modify hx with hx | ⟨y, hy, rfl⟩
    · exact h x hx
    · simp [Node.storeData, Function.update_noteq (Ne.symm hk), h y hy]
  | .getData _, _ => h
  | .addNode _, _ => fun x hx => by
    rcases List.mem_append.mp hx with hx | hx
    · exact h x hx
    · rw [List.mem_singleton.mp hx]; rfl
  | .removeNode _, _ => fun x hx => h x ((List.eraseP_subset _) hx)

theorem Absent.run {k : String} :
    ∀ (ops : List Op) {m : ShardingManager}, Absent k m →
      (∀ op ∈ ops, ∀ v', op ≠ .putData k v') →
      Absent k (m.run hashFunction ops)
  | [], _, h, _ => h
  | op :: ops, _, h, hops =>
    Absent.run ops (h.step hashFunction op (hops op (List.mem_cons_self _ _)))
      fun op' hop' => hops op' (List.mem_cons_of_mem _ hop')

theorem getData_of_absent {k : String} {m : ShardingManager} (h : Absent k m)
    (hm : m.nodes ≠ []) : m.getData hashFunction k = some "Key not found!" := by
  have hi : hashFunction k % m.nodes.length < m.nodes.length :=
    Nat.mod_lt _ (List.length_pos.mpr hm)
  simp [getData, List.getElem?_eq_getElem hi, Node.retrieveData,
    h _ (List.getElem_mem hi)]

end ShardingManager

/-- **Data stays reachable while the membership stays.** For every hash function and
    every initial list of nodes: `getData(k)` returns `v` after a `putData(k, v)` on a
    nonempty cluster followed by calls that neither add nor remove a node nor put `k`;
    and a key never put is not found, as long as there is a node. -/
theorem getData_without_membership_change (hashFunction : String → Nat) (nodeIds : List String) :
    (∀ (ops ops' : List Op) (k v : String),
      ((ShardingManager.new nodeIds).run hashFunction ops).nodes ≠ [] →
      (∀ op ∈ ops', op.keepsMembership ∧ ∀ v', op ≠ .putData k v') →
      ((ShardingManager.new nodeIds).run hashFunction (ops ++ .putData k v :: ops')).getData
          hashFunction k =
        some v) ∧
    (∀ (ops : List Op) (k : String),
      ((ShardingManager.new nodeIds).run hashFunction ops).nodes ≠ [] →
      (∀ op ∈ ops, ∀ v', op ≠ .putData k v') →
      ((ShardingManager.new nodeIds).run hashFunction ops).getData hashFunction k =
        some "Key not found!") := by
  refine ⟨fun ops ops' k v hm hops => ?_, fun ops k hm hops => ?_⟩
  · rw [ShardingManager.run_append]
    exact ShardingManager.getData_of_holds hashFunction
      ((ShardingManager.holds_putData hashFunction hm k v).run hashFunction ops' hops)
  · have h₀ : ShardingManager.Absent k (ShardingManager.new nodeIds) := fun n hn => by
      obtain ⟨id, -, rfl⟩ := List.mem_map.mp hn
      rfl
    exact ShardingManager.getData_of_absent hashFunction (h₀.run hashFunction ops hops) hm

/-- `testShardingSystem` (lines 82–94) with `hashFunction` the length of the key: `user123` put on
    three nodes, then `user456` put, reads back. -/
theorem testShardingSystem_getData :
    ((ShardingManager.new ["Node1", "Node2", "Node3"]).run String.length []).nodes ≠ [] ∧
      (∀ op ∈ [Op.putData "user456" "Data for user456"], op.keepsMembership ∧
        ∀ v', op ≠ .putData "user123" v') ∧
      ((ShardingManager.new ["Node1", "Node2", "Node3"]).run String.length
        ([] ++ .putData "user123" "Data for user123" ::
          [.putData "user456" "Data for user456"])).getData String.length "user123" =
        some "Data for user123" :=
  ⟨by simp [ShardingManager.run, ShardingManager.new], by simp [Op.keepsMembership],
    (getData_without_membership_change String.length ["Node1", "Node2", "Node3"]).1 [] _ _ _
      (by simp [ShardingManager.run, ShardingManager.new]) (by simp [Op.keepsMembership])⟩

end HpDb.Sharding
