import Mathlib.Data.List.Basic

/-!
# Master–slave replication (distributed_systems/replication/master_slave.cpp)

`MasterNode::write` writes its own datastore and pushes a `ReplicationMessage` on its
`replicationQueue`. The constructor gives every slave a reference to that one queue, and
each slave's `replicate` loop pops a message and writes it to its own datastore. So a
message reaches exactly one slave, the first to pop it, and with two or more slaves the
others never see that write.

The model's state is the master's datastore, its queue (front first), and per slave its
datastore and the message it has popped and not yet written. The scheduler interleaves
three kinds of event: a whole `MasterNode::write` (the writes form a sequence), and the two
halves of one iteration of a slave's loop, `pop` and `datastore.write`. An event that its
thread could not take now (a `pop` on an empty queue, where `pop` waits, or by a slave
that holds a message) leaves the state as it is. Mutexes, the 100 ms sleep and `running`
only constrain the schedule and are left out.

Results:
* `write_reaches_one_slave`: for every number of slaves from two up, after one write
  handled by slave `0` the queue is empty, no slave holds a message, and exactly one slave
  has the value.
* `slave_eq_master_of_quiescent`: with one slave, after every schedule the master's
  datastore is the slave's with the held message and the queue applied, so a schedule that
  ends with the queue empty and no popped message leaves the two equal.
-/

namespace HpDb.Replication

/-- `DataStore::data`: `std::map<int, std::string>`. -/
abbrev DataStore := Int → Option String

/-- `DataStore::write` (lines 17–20). -/
def DataStore.write (d : DataStore) (key : Int) (value : String) : DataStore :=
  Function.update d key (some value)

/-- `struct ReplicationMessage` (lines 29–32). -/
structure ReplicationMessage where
  key : Int
  value : String
  deriving DecidableEq, Repr

/-- Write the messages in order. -/
def DataStore.applyAll (d : DataStore) (msgs : List ReplicationMessage) : DataStore :=
  msgs.foldl (fun d msg => d.write msg.key msg.value) d

theorem DataStore.applyAll_append (d : DataStore) (msgs msgs' : List ReplicationMessage) :
    d.applyAll (msgs ++ msgs') = (d.applyAll msgs).applyAll msgs' := List.foldl_append _ _ _ _

/-- `class SlaveNode` (lines 63–95): its datastore, and the message its `replicate` loop
    has popped and not yet written. -/
structure SlaveNode where
  datastore : DataStore
  popped : Option ReplicationMessage

/-- A new slave. -/
def SlaveNode.new : SlaveNode := ⟨fun _ => none, none⟩

/-- `class MasterNode` (lines 98–147): its datastore, the `slaves`, and the messages of
    `replicationQueue`, front first. -/
structure MasterNode where
  datastore : DataStore
  slaves : List SlaveNode
  replicationQueue : List ReplicationMessage

/-- An event of the schedule. -/
inductive Event where
  /-- `MasterNode::write(key, value)`. -/
  | write (key : Int) (value : String)
  /-- Slave `i` runs `replicationQueue.pop()`. -/
  | pop (i : Nat)
  /-- Slave `i` runs `datastore.write(msg.key, msg.value)` on the message it popped. -/
  | apply (i : Nat)
  deriving DecidableEq, Repr

namespace MasterNode

/-- `MasterNode(numSlaves)` (lines 105–113). -/
def new (numSlaves : Nat) : MasterNode :=
  ⟨fun _ => none, List.replicate numSlaves SlaveNode.new, []⟩

/-- `MasterNode::write` (lines 122–128). -/
def write (m : MasterNode) (key : Int) (value : String) : MasterNode :=
  { m with datastore := m.datastore.write key value,
           replicationQueue := m.replicationQueue ++ [⟨key, value⟩] }

/-- `SlaveNode::replicate` (lines 69–78), first half: slave `i` pops the front message. -/
def replicatePop (m : MasterNode) (i : Nat) : MasterNode :=
  match m.slaves[i]?, m.replicationQueue with
  | some ⟨datastore, none⟩, msg :: rest =>
    { m with slaves := m.slaves.set i ⟨datastore, some msg⟩, replicationQueue := rest }
  | _, _ => m

/-- `SlaveNode::replicate` (lines 69–78), second half: slave `i` writes the message it
    popped. -/
def replicateWrite (m : MasterNode) (i : Nat) : MasterNode :=
  match m.slaves[i]? with
  | some ⟨datastore, some msg⟩ =>
    { m with slaves := m.slaves.set i ⟨datastore.write msg.key msg.value, none⟩ }
  | _ => m

/-- One event. -/
def step (m : MasterNode) : Event → MasterNode
  | .write key value => m.write key value
  | .pop i => m.replicatePop i
  | .apply i => m.replicateWrite i

/-- A schedule. -/
def run (m : MasterNode) (events : List Event) : MasterNode := events.foldl step m

/-- The queue is empty and no slave holds a popped message. -/
def Quiescent (m : MasterNode) : Prop :=
  m.replicationQueue = [] ∧ ∀ s ∈ m.slaves, s.popped = none

end MasterNode

/-! ## A write reaches one slave -/

/-- `master.write(1, "value1")`, then slave `0` pops the message and writes it. -/
def oneWrite : List Event := [.write 1 "value1", .pop 0, .apply 0]

/-- With any number of slaves from two up, the schedule `oneWrite` ends quiescent, and
    exactly one slave, slave `0`, holds key `1`: every other slave differs from the master. -/
theorem write_reaches_one_slave (numSlaves : Nat) (h : 2 ≤ numSlaves) :
    ((MasterNode.new numSlaves).run oneWrite).Quiescent ∧
      (∃ s ∈ ((MasterNode.new numSlaves).run oneWrite).slaves,
        s.datastore 1 ≠ ((MasterNode.new numSlaves).run oneWrite).datastore 1) ∧
      ((MasterNode.new numSlaves).run oneWrite).slaves.countP
        (fun s => s.datastore 1 = some "value1") = 1 := by
  obtain ⟨n, rfl⟩ : ∃ n, numSlaves = n + 2 := ⟨numSlaves - 2, by omega⟩
  have hrun : (MasterNode.new (n + 2)).run oneWrite =
      ⟨DataStore.write (fun _ => none) 1 "value1",
        ⟨DataStore.write (fun _ => none) 1 "value1", none⟩ :: SlaveNode.new ::
          List.replicate n SlaveNode.new, []⟩ := rfl
  rw [hrun]
  refine ⟨⟨rfl, ?_⟩, ⟨SlaveNode.new, by simp, by simp [SlaveNode.new, DataStore.write]⟩,
    ?_⟩
  · simp only [List.mem_cons, List.mem_replicate]
    rintro s (rfl | rfl | ⟨-, rfl⟩) <;> rfl
  · simp [List.countP_cons, SlaveNode.new, DataStore.write, List.countP_replicate]

/-- `main` creates the master with three slaves. -/
theorem write_reaches_one_slave_three :
    2 ≤ 3 ∧ ((MasterNode.new 3).run oneWrite).Quiescent ∧
      (∃ s ∈ ((MasterNode.new 3).run oneWrite).slaves,
        s.datastore 1 ≠ ((MasterNode.new 3).run oneWrite).datastore 1) ∧
      ((MasterNode.new 3).run oneWrite).slaves.countP
        (fun s => s.datastore 1 = some "value1") = 1 :=
  ⟨by decide, write_reaches_one_slave 3 (by decide)⟩

/-! ## One slave replicates everything -/

namespace MasterNode

/-- With one slave `s`, the master's datastore is the slave's with the message `s` holds
    and then the queue written. -/
def Replicates (m : MasterNode) : Prop :=
  ∃ s, m.slaves = [s] ∧
    m.datastore = s.datastore.applyAll (s.popped.toList ++ m.replicationQueue)

theorem Replicates.write {m : MasterNode} (h : m.Replicates) (key : Int) (value : String) :
    (m.write key value).Replicates := by
  obtain ⟨s, hs, hd⟩ := h
  refine ⟨s, hs, ?_⟩
  show m.datastore.write key value =
    s.datastore.applyAll (s.popped.toList ++ (m.replicationQueue ++ [⟨key, value⟩]))
  rw [← List.append_assoc, DataStore.applyAll_append, ← hd]
  rfl

theorem Replicates.replicatePop {m : MasterNode} (h : m.Replicates) (i : Nat) :
    (m.replicatePop i).Replicates := by
  obtain ⟨⟨d, p⟩, hs, hd⟩ := h
  unfold MasterNode.replicatePop
  rw [hs]
  rcases i with _ | i
  · rcases p with _ | p
    · cases hq : m.replicationQueue with
      | nil => exact ⟨_, hs, hd⟩
      | cons msg rest =>
        refine ⟨⟨d, some msg⟩, rfl, ?_⟩
        rw [hd, hq]
        rfl
    · exact ⟨_, hs, hd⟩
  · exact ⟨_, hs, hd⟩

theorem Replicates.replicateWrite {m : MasterNode} (h : m.Replicates) (i : Nat) :
    (m.replicateWrite i).Replicates := by
  obtain ⟨⟨d, p⟩, hs, hd⟩ := h
  unfold MasterNode.replicateWrite
  rw [hs]
  rcases i with _ | i
  · rcases p with _ | msg
    · exact ⟨_, hs, hd⟩
    · exact ⟨⟨d.write msg.key msg.value, none⟩, rfl, hd⟩
  · exact ⟨_, hs, hd⟩

theorem Replicates.run {m : MasterNode} (h : m.Replicates) :
    ∀ events : List Event, (m.run events).Replicates
  | [] => h
  | .write key value :: events => Replicates.run (h.write key value) events
  | .pop i :: events => Replicates.run (h.replicatePop i) events
  | .apply i :: events => Replicates.run (h.replicateWrite i) events

end MasterNode

/-- **One slave replicates every write.** From a master with one slave, after every
    schedule the master's datastore is the slave's with the message it holds and then the
    queue written; so a schedule that ends with the queue empty and no popped message leaves
    the slave's datastore equal to the master's. -/
theorem slave_eq_master_of_quiescent (events : List Event) :
    (∃ s, ((MasterNode.new 1).run events).slaves = [s] ∧
      ((MasterNode.new 1).run events).datastore =
        s.datastore.applyAll (s.popped.toList ++ ((MasterNode.new 1).run events).replicationQueue)) ∧
    (((MasterNode.new 1).run events).Quiescent →
      ∀ s ∈ ((MasterNode.new 1).run events).slaves,
        s.datastore = ((MasterNode.new 1).run events).datastore) := by
  have h₀ : (MasterNode.new 1).Replicates := ⟨SlaveNode.new, rfl, rfl⟩
  obtain ⟨s, hs, hd⟩ := h₀.run events
  refine ⟨⟨s, hs, hd⟩, fun h s' hs' => ?_⟩
  rw [hs, List.mem_singleton] at hs'
  rw [hs', hd, h.1, h.2 s (by rw [hs]; exact List.mem_singleton_self _)]
  rfl

/-- `main`'s three writes, each popped and written by the one slave. -/
def threeWrites : List Event :=
  [.write 1 "value1", .write 2 "value2", .write 3 "value3", .pop 0, .apply 0, .pop 0,
    .apply 0, .pop 0, .apply 0]

theorem threeWrites_replicated :
    ((MasterNode.new 1).run threeWrites).Quiescent ∧
      (∃ s, ((MasterNode.new 1).run threeWrites).slaves = [s] ∧
        ((MasterNode.new 1).run threeWrites).datastore = s.datastore.applyAll
          (s.popped.toList ++ ((MasterNode.new 1).run threeWrites).replicationQueue)) ∧
      (((MasterNode.new 1).run threeWrites).Quiescent →
        ∀ s ∈ ((MasterNode.new 1).run threeWrites).slaves,
          s.datastore = ((MasterNode.new 1).run threeWrites).datastore) :=
  have h : ((MasterNode.new 1).run threeWrites).Quiescent := ⟨rfl, by simp [MasterNode.run,
    threeWrites, MasterNode.step, MasterNode.write, MasterNode.replicatePop,
    MasterNode.replicateWrite, MasterNode.new, SlaveNode.new]⟩
  ⟨h, slave_eq_master_of_quiescent threeWrites⟩

end HpDb.Replication
