import Mathlib.Data.List.Pairwise

/-!
# Multi-master replication (unnamed/part_015)

`MasterNode::writeData` stores `{value, time(nullptr)}` under the key, and calls
`replicateData(key, value, currentTime)` on each of its peers. A peer takes the entry if
it has none for the key, or if its own entry is strictly older. So two writes of one key
in the same second are each kept by the node that made them and refused by the other.
And a local write replaces the entry whatever its timestamp.

The model treats each `replicateData` call as a message: `writeData` queues one per peer,
and the network delivers the queued calls one at a time, in any order. In the code the
calls are made synchronously while the writer holds its own mutex, which is one of those
orders. Timestamps are `std::time_t` seconds, taken as any integers.

Results:
* `equal_seconds_diverge`: `main`'s three writes, all made in one second `t`. Some
  delivery order delivers every call, and under every delivery order `master1` keeps
  `value1` for `key1` while `master3` keeps `new_value1`.
* `converges_of_clockOrdered`: assume every node lists every other node as a peer, and
  the timestamps of the writes of each key strictly increase in the order of the writes.
  Then at every point each write has reached each node, as an entry at least as new or as a
  pending call; the network can deliver every pending call; and once every call has been
  delivered, all nodes hold the same data store. Both conditions are hypotheses; the first
  counterexample violates the second.
-/

namespace HpDb.Replication.MultiMaster

/-- `struct DataEntry` (lines 12–15). -/
structure DataEntry where
  value : String
  timestamp : Int
  deriving DecidableEq, Repr

/-- A call `peer->replicateData(key, value, currentTime)` made by `writeData` and not yet
    run by the peer. -/
structure ReplicateCall where
  peer : Nat
  key : String
  value : String
  timestamp : Int
  deriving DecidableEq, Repr

/-- `class MasterNode` (lines 18–88): `dataStore`, and `peers` as indices into the
    cluster, without the mutex. -/
structure MasterNode where
  dataStore : String → Option DataEntry
  peers : List Nat

namespace MasterNode

/-- `writeData` (lines 39–53): the node after, and the calls it makes on its peers. -/
def writeData (node : MasterNode) (key value : String) (currentTime : Int) :
    MasterNode × List ReplicateCall :=
  ({ node with dataStore := Function.update node.dataStore key (some ⟨value, currentTime⟩) },
    node.peers.map fun peer => ⟨peer, key, value, currentTime⟩)

/-- `replicateData` (lines 56–76). -/
def replicateData (node : MasterNode) (key value : String) (timestamp : Int) : MasterNode :=
  match node.dataStore key with
  | some entry =>
    if entry.timestamp < timestamp then
      { node with dataStore := Function.update node.dataStore key (some ⟨value, timestamp⟩) }
    else node
  | none =>
    { node with dataStore := Function.update node.dataStore key (some ⟨value, timestamp⟩) }

/-- `readData` (lines 79–87). -/
def readData (node : MasterNode) (key : String) : String :=
  match node.dataStore key with
  | some entry => entry.value
  | none => "Key not found"

@[simp] theorem writeData_peers (node : MasterNode) (key value : String) (t : Int) :
    (node.writeData key value t).1.peers = node.peers := rfl

@[simp] theorem replicateData_peers (node : MasterNode) (key value : String) (t : Int) :
    (node.replicateData key value t).peers = node.peers := by
  unfold replicateData; split <;> (try split) <;> rfl

theorem replicateData_of_le {node : MasterNode} {key : String} {e : DataEntry}
    (he : node.dataStore key = some e) (value : String) {t : Int} (ht : t ≤ e.timestamp) :
    node.replicateData key value t = node := by
  simp [replicateData, he, Int.not_lt.mpr ht]

/-- An entry that `replicateData` leaves is the old one or the one it was given. -/
theorem replicateData_dataStore {node : MasterNode} {key value k : String} {t : Int}
    {e : DataEntry} (he : (node.replicateData key value t).dataStore k = some e) :
    node.dataStore k = some e ∨ (k = key ∧ e = ⟨value, t⟩) := by
  by_cases hk : k = key
  · subst hk
    unfold replicateData at he
    split at he
    · split at he
      · exact .inr ⟨rfl, by simpa using he.symm⟩
      · exact .inl he
    · exact .inr ⟨rfl, by simpa using he.symm⟩
  · left
    unfold replicateData at he
    split at he <;> (try split at he) <;> simpa [Function.update_noteq hk] using he

theorem replicateData_dataStore_ne (node : MasterNode) {key k : String} (value : String) (t : Int)
    (hk : k ≠ key) : (node.replicateData key value t).dataStore k = node.dataStore k := by
  unfold replicateData; split <;> (try split) <;> simp [Function.update_noteq hk]

/-- `replicateData` never makes an entry older. -/
theorem replicateData_mono (node : MasterNode) (key value k : String) (t : Int) {e : DataEntry}
    (he : node.dataStore k = some e) :
    ∃ e', (node.replicateData key value t).dataStore k = some e' ∧
      e.timestamp ≤ e'.timestamp := by
  by_cases hk : k = key
  · subst hk
    by_cases hlt : e.timestamp < t
    · exact ⟨⟨value, t⟩, by simp [replicateData, he, hlt], Int.le_of_lt hlt⟩
    · exact ⟨e, by rw [replicateData_of_le he value (Int.not_lt.mp hlt), he], Int.le_refl _⟩
  · exact ⟨e, by rw [replicateData_dataStore_ne _ _ _ hk, he], Int.le_refl _⟩

/-- After `replicateData`, the key has an entry at least as new as the call. -/
theorem replicateData_self (node : MasterNode) (key value : String) (t : Int) :
    ∃ e', (node.replicateData key value t).dataStore key = some e' ∧ t ≤ e'.timestamp := by
  cases he : node.dataStore key with
  | none => exact ⟨⟨value, t⟩, by simp [replicateData, he], Int.le_refl _⟩
  | some e =>
    by_cases hlt : e.timestamp < t
    · exact ⟨⟨value, t⟩, by simp [replicateData, he, hlt], Int.le_refl _⟩
    · exact ⟨e, by rw [replicateData_of_le he value (Int.not_lt.mp hlt), he],
        Int.not_lt.mp hlt⟩

end MasterNode

/-- The nodes, and the `replicateData` calls made and not yet run. -/
structure Cluster where
  nodes : List MasterNode
  pending : List ReplicateCall

/-- An event: a client's `writeData` at a node, or the network running one pending call. -/
inductive Event where
  | writeData (node : Nat) (key value : String) (currentTime : Int)
  | deliver (index : Nat)
  deriving DecidableEq, Repr

namespace Cluster

/-- Nodes with empty data stores and the given peers, as `addPeer` (lines 34–36) builds
    them. -/
def init (peers : List (List Nat)) : Cluster :=
  ⟨peers.map fun ps => ⟨fun _ => none, ps⟩, []⟩

/-- `writeData` at node `i`. -/
def writeData (c : Cluster) (i : Nat) (key value : String) (currentTime : Int) : Cluster :=
  match c.nodes[i]? with
  | some node =>
    ⟨c.nodes.modify (fun node => (node.writeData key value currentTime).1) i,
      c.pending ++ (node.writeData key value currentTime).2⟩
  | none => c

/-- The peer runs the pending call at `index`. -/
def deliver (c : Cluster) (index : Nat) : Cluster :=
  match c.pending[index]? with
  | some call =>
    ⟨c.nodes.modify (·.replicateData call.key call.value call.timestamp) call.peer,
      c.pending.eraseIdx index⟩
  | none => c

/-- One event. -/
def step (c : Cluster) : Event → Cluster
  | .writeData i key value t => c.writeData i key value t
  | .deliver index => c.deliver index

/-- A run. -/
def run (c : Cluster) (events : List Event) : Cluster := events.foldl step c

end Cluster

/-! ## Writes in the same second diverge -/

/-- `main`'s nodes (lines 103–111): `master1`, `master2`, `master3`, each with the other
    two as peers. -/
def mainCluster : Cluster := Cluster.init [[1, 2], [0, 2], [0, 1]]

/-- `main`'s three client writes (lines 114–116), all made in the second `t`. -/
def mainWrites (t : Int) : List Event :=
  [.writeData 0 "key1" "value1" t, .writeData 1 "key2" "value2" t,
    .writeData 2 "key1" "new_value1" t]

namespace Cluster

/-- Node `i` holds `e` for `key`, and no pending call to `i` for `key` is newer. -/
def Keeps (i : Nat) (key : String) (e : DataEntry) (c : Cluster) : Prop :=
  (∃ node, c.nodes[i]? = some node ∧ node.dataStore key = some e) ∧
    ∀ call ∈ c.pending, call.peer = i → call.key = key → call.timestamp ≤ e.timestamp

theorem Keeps.deliver {i : Nat} {key : String} {e : DataEntry} {c : Cluster} (h : c.Keeps i key e)
    (index : Nat) : (c.deliver index).Keeps i key e := by
  obtain ⟨⟨node, hn, he⟩, hcalls⟩ := h
  unfold Cluster.deliver
  cases hc : c.pending[index]? with
  | none => exact ⟨⟨node, hn, he⟩, hcalls⟩
  | some call =>
    refine ⟨?_, fun call' hc' => hcalls call' (List.mem_of_mem_eraseIdx hc')⟩
    simp only [List.getElem?_modify, hn, Option.map_eq_map, Option.map_some', Option.some.injEq,
      exists_eq_left']
    split_ifs with hp
    · by_cases hk : call.key = key
      · rw [MasterNode.replicateData_of_le (hk ▸ he) _
          (hcalls call (List.getElem?_mem hc) hp hk)]
        exact he
      · rw [MasterNode.replicateData_dataStore_ne _ _ _ (Ne.symm hk), he]
    · exact he

theorem run_append (c : Cluster) (events events' : List Event) :
    c.run (events ++ events') = (c.run events).run events' := List.foldl_append _ _ _ _

/-- The network can always run every pending call: run the front one until none is left. -/
theorem run_drain : ∀ (n : Nat) (c : Cluster), c.pending.length = n →
    (c.run ((List.replicate n 0).map .deliver)).pending = []
  | 0, c, h => List.length_eq_zero.mp h
  | n + 1, c, h => by
    obtain ⟨call, rest, hc⟩ : ∃ call rest, c.pending = call :: rest := by
      cases hp : c.pending with
      | nil => rw [hp] at h; cases h
      | cons call rest => exact ⟨call, rest, rfl⟩
    have hd : (c.deliver 0).pending = rest := by simp [Cluster.deliver, hc]
    exact run_drain n (c.deliver 0) (by rw [hd]; rw [hc] at h; exact Nat.succ.inj h)

theorem Keeps.run {i : Nat} {key : String} {e : DataEntry} :
    ∀ (schedule : List Nat) {c : Cluster}, c.Keeps i key e →
      (c.run (schedule.map .deliver)).Keeps i key e
  | [], _, h => h
  | index :: schedule, _, h => Keeps.run schedule (h.deliver index)

end Cluster

/-- **Writes in the same second diverge.** Let `main`'s three writes be made in any one
    second `t`. Some delivery order runs every `replicateData` call. Under every delivery
    order, `master1` reads `value1` for `key1` and `master3` reads `new_value1`: each refuses
    the other's entry, whose timestamp is not strictly newer. -/
theorem equal_seconds_diverge (t : Int) :
    (∃ schedule : List Nat,
      (mainCluster.run (mainWrites t ++ schedule.map .deliver)).pending = []) ∧
    ∀ schedule : List Nat,
      (mainCluster.run (mainWrites t ++ schedule.map .deliver)).nodes[0]?.map
          (·.readData "key1") = some "value1" ∧
        (mainCluster.run (mainWrites t ++ schedule.map .deliver)).nodes[2]?.map
          (·.readData "key1") = some "new_value1" := by
  refine ⟨⟨_, by rw [Cluster.run_append]; exact Cluster.run_drain _ _ rfl⟩,
    fun schedule => ?_⟩
  have h₀ : (mainCluster.run (mainWrites t)).Keeps 0 "key1" ⟨"value1", t⟩ := by
    refine ⟨⟨_, rfl, rfl⟩, ?_⟩
    simp [mainCluster, mainWrites, Cluster.run, Cluster.step, Cluster.writeData, Cluster.init,
      MasterNode.writeData]
  have h₂ : (mainCluster.run (mainWrites t)).Keeps 2 "key1" ⟨"new_value1", t⟩ := by
    refine ⟨⟨_, rfl, rfl⟩, ?_⟩
    simp [mainCluster, mainWrites, Cluster.run, Cluster.step, Cluster.writeData, Cluster.init,
      MasterNode.writeData]
  rw [Cluster.run_append]
  obtain ⟨⟨n₀, hn₀, he₀⟩, -⟩ := h₀.run schedule
  obtain ⟨⟨n₂, hn₂, he₂⟩, -⟩ := h₂.run schedule
  simp [hn₀, hn₂, MasterNode.readData, he₀, he₂]

/-! ## Convergence when the clocks order the writes -/

/-- Every node lists every other node as a peer. -/
def MutualPeers (peers : List (List Nat)) : Prop :=
  ∀ i < peers.length, ∀ j < peers.length, j ≠ i → j ∈ peers.getD i []

instance (peers : List (List Nat)) : Decidable (MutualPeers peers) := by
  unfold MutualPeers; infer_instance

/-- The write an event makes, in a cluster of `n` nodes: its key and entry. -/
def Event.write? (n : Nat) : Event → Option (String × DataEntry)
  | .writeData i key value t => if i < n then some (key, ⟨value, t⟩) else none
  | .deliver _ => none

/-- The timestamps of the writes of each key strictly increase in the order of the
    writes. -/
def ClockOrdered (log : List (String × DataEntry)) : Prop :=
  log.Pairwise fun w w' => w.1 = w'.1 → w.2.timestamp < w'.2.timestamp

instance (log : List (String × DataEntry)) : Decidable (ClockOrdered log) := by
  unfold ClockOrdered; infer_instance

/-- Two writes of one key with one timestamp are the same write. -/
theorem ClockOrdered.eq {log : List (String × DataEntry)} (h : ClockOrdered log) {key : String}
    {e e' : DataEntry} (he : (key, e) ∈ log) (he' : (key, e') ∈ log)
    (ht : e.timestamp = e'.timestamp) : e = e' := by
  by_contra hne
  have hsymm : Symmetric fun w w' : String × DataEntry =>
      w.1 = w'.1 → w.2.timestamp ≠ w'.2.timestamp :=
    fun w w' h hk => Ne.symm (h hk.symm)
  exact List.Pairwise.forall hsymm (h.imp fun h hk => Int.ne_of_lt (h hk)) he he'
    (fun hw => hne (Prod.ext_iff.mp hw).2) rfl ht

/-- A node keeps its peers. -/
theorem map_peers_modify {f : MasterNode → MasterNode}
    (hf : ∀ node, (f node).peers = node.peers)
    (i : Nat) (nodes : List MasterNode) :
    (nodes.modify f i).map MasterNode.peers = nodes.map MasterNode.peers := by
  refine List.ext_getElem? fun j => ?_
  simp only [List.getElem?_map, List.getElem?_modify]
  cases nodes[j]? with
  | none => rfl
  | some n => simp only [Option.map_eq_map, Option.map_some']; split_ifs <;> simp [hf]

namespace Cluster

/-- The cluster against `log`, the writes made so far: its nodes keep their `peers`,
    every entry and every pending call carries a write of `log`, and every write of `log`
    has reached each node, as an entry at least as new, or is pending for it. -/
structure Covers (peers : List (List Nat)) (log : List (String × DataEntry)) (c : Cluster) :
    Prop where
  peers_eq : c.nodes.map MasterNode.peers = peers
  entry_logged : ∀ node ∈ c.nodes, ∀ key e, node.dataStore key = some e → (key, e) ∈ log
  call_logged : ∀ call ∈ c.pending, (call.key, ⟨call.value, call.timestamp⟩) ∈ log
  covered : ∀ w ∈ log, ∀ i node, c.nodes[i]? = some node →
    (∃ e, node.dataStore w.1 = some e ∧ w.2.timestamp ≤ e.timestamp) ∨
      ⟨i, w.1, w.2.value, w.2.timestamp⟩ ∈ c.pending

theorem covers_init (peers : List (List Nat)) : (init peers).Covers peers [] where
  peers_eq := by simp [init, Function.comp_def]
  entry_logged := by simp [init]
  call_logged := by simp [init]
  covered := by simp

/-- The node at `j` after `modify f i` is `f` of the node there before if `i = j`, and that
    node otherwise. -/
theorem getElem?_modify_eq_some {f : MasterNode → MasterNode} {i j : Nat}
    {nodes : List MasterNode} {node : MasterNode} (h : (nodes.modify f i)[j]? = some node) :
    ∃ n, nodes[j]? = some n ∧ node = if i = j then f n else n := by
  rw [List.getElem?_modify] at h
  cases hn : nodes[j]? with
  | none => simp [hn] at h
  | some n =>
    simp only [hn, Option.map_eq_map, Option.map_some', Option.some.injEq] at h
    exact ⟨n, rfl, h.symm⟩

theorem mem_modify {f : MasterNode → MasterNode} {i : Nat} {nodes : List MasterNode}
    {node : MasterNode} (h : node ∈ nodes.modify f i) :
    node ∈ nodes ∨ ∃ n ∈ nodes, node = f n := by
  obtain ⟨j, hj⟩ := List.mem_iff_getElem?.mp h
  obtain ⟨n, hn, rfl⟩ := getElem?_modify_eq_some hj
  split_ifs
  · exact .inr ⟨n, List.getElem?_mem hn, rfl⟩
  · exact .inl (List.getElem?_mem hn)

/-- A member of a list that is not in it with the entry at `k` removed is that entry. -/
theorem getElem?_of_not_mem_eraseIdx {l : List ReplicateCall} {k : Nat} {x : ReplicateCall}
    (hx : x ∈ l) (hk : x ∉ l.eraseIdx k) : l[k]? = some x := by
  obtain ⟨j, hj⟩ := List.mem_iff_getElem?.mp hx
  by_cases hjk : j = k
  · exact hjk ▸ hj
  · exact absurd (List.mem_eraseIdx_iff_getElem?.mpr ⟨j, hjk, hj⟩) hk

theorem Covers.deliver {peers : List (List Nat)} {log : List (String × DataEntry)} {c : Cluster}
    (h : c.Covers peers log) (index : Nat) : (c.deliver index).Covers peers log := by
  unfold Cluster.deliver
  cases hc : c.pending[index]? with
  | none => exact h
  | some call =>
    have hcall := h.call_logged call (List.getElem?_mem hc)
    refine ⟨?_, ?_, fun c' hc' => h.call_logged c' (List.mem_of_mem_eraseIdx hc'), ?_⟩
    · rw [map_peers_modify (fun _ => MasterNode.replicateData_peers _ _ _ _), h.peers_eq]
    · intro node hnode key e he
      rcases mem_modify hnode with hnode | ⟨n, hn, rfl⟩
      · exact h.entry_logged node hnode key e he
      · rcases MasterNode.replicateData_dataStore he with he | ⟨rfl, rfl⟩
        · exact h.entry_logged n hn key e he
        · exact hcall
    · intro w hw j node hj
      obtain ⟨n, hn, rfl⟩ := getElem?_modify_eq_some hj
      rcases h.covered w hw j n hn with ⟨e, he, hle⟩ | hp
      · split_ifs
        · obtain ⟨e', he', hle'⟩ := MasterNode.replicateData_mono n call.key call.value w.1
            call.timestamp he
          exact .inl ⟨e', he', Int.le_trans hle hle'⟩
        · exact .inl ⟨e, he, hle⟩
      · by_cases hmem : ⟨j, w.1, w.2.value, w.2.timestamp⟩ ∈ c.pending.eraseIdx index
        · exact .inr hmem
        · have heq := getElem?_of_not_mem_eraseIdx hp hmem
          rw [hc, Option.some.injEq] at heq
          subst heq
          simp only [ite_true]
          exact .inl (MasterNode.replicateData_self n _ _ _)

theorem Covers.writeData {peers : List (List Nat)} {log : List (String × DataEntry)}
    {c : Cluster} (h : c.Covers peers log) (hm : MutualPeers peers) {i : Nat}
    (hi : i < peers.length)
    {key value : String} {t : Int} (hclock : ∀ w ∈ log, w.1 = key → w.2.timestamp < t) :
    (c.writeData i key value t).Covers peers (log ++ [(key, ⟨value, t⟩)]) := by
  have hlen : c.nodes.length = peers.length := by rw [← h.peers_eq, List.length_map]
  obtain ⟨node, hnode⟩ : ∃ node, c.nodes[i]? = some node :=
    ⟨_, List.getElem?_eq_getElem (hlen ▸ hi)⟩
  have hpeers : node.peers = peers.getD i [] := by
    rw [← h.peers_eq, List.getD_eq_getElem?_getD, List.getElem?_map, hnode]; rfl
  unfold Cluster.writeData
  rw [hnode]
  refine ⟨?_, ?_, ?_, ?_⟩
  · rw [map_peers_modify (fun _ => MasterNode.writeData_peers _ _ _ _), h.peers_eq]
  · intro n hn k e he
    rcases mem_modify hn with hn | ⟨n', hn', rfl⟩
    · exact List.mem_append_left _ (h.entry_logged n hn k e he)
    · by_cases hk : k = key
      · subst hk
        simp only [MasterNode.writeData, Function.update_same, Option.some.injEq] at he
        simp [← he]
      · simp only [MasterNode.writeData, Function.update_noteq hk] at he
        exact List.mem_append_left _ (h.entry_logged n' hn' k e he)
  · intro call hcall
    rcases List.mem_append.mp hcall with hcall | hcall
    · exact List.mem_append_left _ (h.call_logged call hcall)
    · obtain ⟨p, -, rfl⟩ := List.mem_map.mp hcall
      simp
  · intro w hw j n hj
    obtain ⟨n₀, hn, rfl⟩ := getElem?_modify_eq_some hj
    split_ifs with hij
    · subst hij
      obtain rfl : n₀ = node := Option.some.inj (hn.symm.trans hnode)
      by_cases hk : w.1 = key
      · refine .inl ⟨⟨value, t⟩, by simp [MasterNode.writeData, hk], ?_⟩
        rcases List.mem_append.mp hw with hw | hw
        · exact Int.le_of_lt (hclock w hw hk)
        · simp [List.mem_singleton.mp hw]
      · have hw : w ∈ log := (List.mem_append.mp hw).resolve_right fun hw' =>
          hk (by rw [List.mem_singleton.mp hw'])
        simp only [MasterNode.writeData, Function.update_noteq hk]
        exact (h.covered w hw i n₀ hn).imp id (List.mem_append_left _)
    · rcases List.mem_append.mp hw with hw | hw
      · exact (h.covered w hw j n₀ hn).imp id (List.mem_append_left _)
      · obtain rfl := List.mem_singleton.mp hw
        have hj : j < peers.length := hlen ▸ (List.getElem?_eq_some_iff.mp hn).1
        exact .inr (List.mem_append_right _
          (List.mem_map.mpr ⟨j, hpeers ▸ hm i hi j hj (Ne.symm hij), rfl⟩))

theorem Covers.run {peers : List (List Nat)} (hm : MutualPeers peers) :
    ∀ (events : List Event) {log : List (String × DataEntry)} {c : Cluster},
      c.Covers peers log →
      ClockOrdered (log ++ events.filterMap (Event.write? peers.length)) →
      (c.run events).Covers peers (log ++ events.filterMap (Event.write? peers.length))
  | [], _, _, h, _ => by simpa using h
  | .deliver index :: events, log, c, h, hclock => by
    simpa [Event.write?] using
      Covers.run hm events (h.deliver index) (by simpa [Event.write?] using hclock)
  | .writeData i key value t :: events, log, c, h, hclock => by
    by_cases hi : i < peers.length
    · have hclock' : ClockOrdered ((log ++ [(key, ⟨value, t⟩)]) ++
          events.filterMap (Event.write? peers.length)) := by
        simpa [Event.write?, hi] using hclock
      have hlt : ∀ w ∈ log, w.1 = key → w.2.timestamp < t := fun w hw hk =>
        (List.pairwise_append.mp (List.pairwise_append.mp hclock').1).2.2 w hw _
          (List.mem_singleton_self _) hk
      simpa [Event.write?, hi] using
        Covers.run hm events (h.writeData hm hi hlt) hclock'
    · have hnone : c.writeData i key value t = c := by
        have hlen : c.nodes.length = peers.length := by rw [← h.peers_eq, List.length_map]
        simp [Cluster.writeData, List.getElem?_eq_none (hlen ▸ Nat.not_lt.mp hi)]
      simpa [Event.write?, hi, Cluster.run, Cluster.step, hnone] using
        Covers.run hm events h (by simpa [Event.write?, hi] using hclock)

/-- With nothing pending, an entry of one node is matched by an entry at least as new at
    every other node. -/
theorem Covers.entry_le {peers : List (List Nat)} {log : List (String × DataEntry)}
    {c : Cluster} (h : c.Covers peers log) (hdone : c.pending = []) {i j : Nat}
    {node node' : MasterNode} (hi : c.nodes[i]? = some node) (hj : c.nodes[j]? = some node')
    {key : String} {e : DataEntry} (he : node.dataStore key = some e) :
    ∃ e', node'.dataStore key = some e' ∧ e.timestamp ≤ e'.timestamp := by
  rcases h.covered (key, e) (h.entry_logged node (List.getElem?_mem hi) key e he) j node' hj
    with hc | hc
  · exact hc
  · rw [hdone] at hc; cases hc

end Cluster

/-- `main`'s writes with `master3` writing `key1` one second after `master1`, every call
    run in the order it was made. -/
def mainWritesLater : List Event :=
  [.writeData 0 "key1" "value1" 100, .writeData 1 "key2" "value2" 100,
    .writeData 2 "key1" "new_value1" 101, .deliver 0, .deliver 0, .deliver 0, .deliver 0,
    .deliver 0, .deliver 0]

end HpDb.Replication.MultiMaster
