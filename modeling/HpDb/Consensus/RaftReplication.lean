import Mathlib.Data.List.Basic
import HpDb.Consensus.Raft

/-!
# Raft log replication (unnamed/part_016)

A Leader's `run` loop calls `broadcastHeartbeat`, which spawns one `sendAppendEntries(peer)`
goroutine per peer. The goroutine reads `nextIndex[peer]` under the lock and builds its
arguments with the slice `rf.log[rf.nextIndex[peer]:]`; later, under the lock again, it
handles the reply: a success sets `nextIndex[peer] = len(rf.log)`, a reply with a higher
term makes the node a Follower, and any other reply decrements `nextIndex[peer]`, with no
lower bound.

The file never appends to `rf.log`, and `sendRPC` returns `true` without writing the
reply, so the reply a goroutine handles is the zero `AppendEntriesReply`: term `0`, no
success. The model lets a reply be any `AppendEntriesReply`, `sendRPC`'s among them. The
goroutines of a node interleave at its lock: an event runs one locked section. A Go slice
`s[low:]` with `low < 0` or `low > len(s)` panics, and a run that panics is `none`. The
command of a `LogEntry`, `applyCh`, the channels, and `lastApplied` are read by nothing
here and are left out.

Results:
* `appendEntriesArgs_isSome_iff`: building the arguments panics exactly when
  `nextIndex[peer]` is outside `[0, len(rf.log)]`.
* `run_nextIndex_le`: over every interleaving, `nextIndex[peer] ≤ len(rf.log)` is kept.
* `nextIndex_negative_after_reply`: a new leader with one peer and an empty log sends one
  heartbeat and handles `sendRPC`'s reply; `nextIndex[peer]` is then `-1`, and the next
  heartbeat's goroutine panics on `rf.log[-1:]`.
-/

namespace HpDb.Consensus.Replication

/-- `type LogEntry` (lines 25–28), without the command. -/
structure LogEntry where
  term : Int
  deriving DecidableEq, Repr

/-- `type AppendEntriesArgs` (lines 232–239). -/
structure AppendEntriesArgs where
  term : Int
  leaderId : Nat
  prevLogIdx : Int
  prevLogTerm : Int
  entries : List LogEntry
  leaderCommit : Int
  deriving DecidableEq, Repr

/-- `type AppendEntriesReply` (lines 241–244). -/
structure AppendEntriesReply where
  term : Int
  success : Bool
  deriving DecidableEq, Repr

/-- The fields of `type Raft` (lines 31–48) that replication reads and writes; a Go map
    `map[int]int` is a function, `0` where no key was written. -/
structure Raft where
  id : Nat
  peers : List Nat
  role : Role
  term : Int
  votedFor : Int
  log : List LogEntry
  commitIdx : Int
  nextIndex : Nat → Int
  matchIndex : Nat → Int

/-- `NewRaft` (lines 56–76). -/
def newRaft (id : Nat) (peers : List Nat) : Raft :=
  ⟨id, peers, .follower, 0, -1, [], 0, fun _ => 0, fun _ => 0⟩

/-- The Go slice `s[low:]`: `none` is the panic of a bound outside `[0, len(s)]`. -/
def sliceFrom {α : Type} (s : List α) (low : Int) : Option (List α) :=
  if 0 ≤ low ∧ low ≤ s.length then some (s.drop low.toNat) else none

namespace Raft

/-- `initializeLeaderState` (lines 131–136). -/
def initializeLeaderState (rf : Raft) : Raft :=
  rf.peers.foldl (fun rf peer =>
    { rf with nextIndex := Function.update rf.nextIndex peer rf.log.length,
              matchIndex := Function.update rf.matchIndex peer 0 }) rf

/-- `getLogTerm(index)` (lines 208–213). -/
def getLogTerm (rf : Raft) (index : Int) : Int :=
  if h : index < 0 ∨ rf.log.length ≤ index then -1
  else (rf.log.get ⟨index.toNat, by omega⟩).term

/-- The first locked section of `sendAppendEntries(peer)` (lines 173–182). -/
def appendEntriesArgs (rf : Raft) (peer : Nat) : Option AppendEntriesArgs :=
  (sliceFrom rf.log (rf.nextIndex peer)).map fun entries =>
    ⟨rf.term, rf.id, rf.nextIndex peer - 1, rf.getLogTerm (rf.nextIndex peer - 1), entries,
      rf.commitIdx⟩

/-- The second locked section of `sendAppendEntries(peer)` (lines 185–197). -/
def handleReply (rf : Raft) (peer : Nat) (reply : AppendEntriesReply) : Raft :=
  if reply.success then
    { rf with nextIndex := Function.update rf.nextIndex peer rf.log.length,
              matchIndex := Function.update rf.matchIndex peer (rf.log.length - 1) }
  else if reply.term > rf.term then
    { rf with term := reply.term, role := .follower, votedFor := -1 }
  else { rf with nextIndex := Function.update rf.nextIndex peer (rf.nextIndex peer - 1) }

end Raft

/-- The reply `sendRPC` (lines 215–218) leaves in `var reply AppendEntriesReply`. -/
def sendRPCReply : AppendEntriesReply := ⟨0, false⟩

/-- A node, its `sendAppendEntries(peer)` goroutines spawned and not yet run, and those
    waiting for their reply. -/
structure Node where
  rf : Raft
  spawned : List Nat
  inFlight : List Nat

/-- An event of the interleaving. -/
inductive Event where
  /-- `broadcastHeartbeat` (lines 138–142). -/
  | broadcastHeartbeat
  /-- A goroutine `sendAppendEntries(peer)` builds its arguments and sends them. -/
  | sendAppendEntries (peer : Nat)
  /-- A goroutine `sendAppendEntries(peer)` handles `reply`. -/
  | receiveReply (peer : Nat) (reply : AppendEntriesReply)
  deriving DecidableEq, Repr

namespace Node

/-- One event; `none` is a panic, and an event of no waiting goroutine changes nothing. -/
def step (n : Node) : Event → Option Node
  | .broadcastHeartbeat => some { n with spawned := n.spawned ++ n.rf.peers }
  | .sendAppendEntries peer =>
    if peer ∈ n.spawned then
      (n.rf.appendEntriesArgs peer).map fun _ =>
        { n with spawned := n.spawned.erase peer, inFlight := n.inFlight ++ [peer] }
    else some n
  | .receiveReply peer reply =>
    if peer ∈ n.inFlight then
      some { n with rf := n.rf.handleReply peer reply, inFlight := n.inFlight.erase peer }
    else some n

/-- An interleaving. -/
def run (n : Node) (events : List Event) : Option Node := events.foldlM step n

theorem run_cons (n : Node) (e : Event) (events : List Event) :
    n.run (e :: events) = (n.step e).bind (·.run events) := rfl

/-- A node just made Leader by `initializeLeaderState`, with no goroutine running. -/
def leader (rf : Raft) : Node := ⟨{ rf.initializeLeaderState with role := .leader }, [], []⟩

end Node

/-! ## The slice in `sendAppendEntries` -/

theorem appendEntriesArgs_isSome_iff (rf : Raft) (peer : Nat) :
    (rf.appendEntriesArgs peer).isSome ↔ 0 ≤ rf.nextIndex peer ∧ rf.nextIndex peer ≤ rf.log.length := by
  unfold Raft.appendEntriesArgs sliceFrom
  split_ifs with h <;> simp [h]

/-! ## `nextIndex` never passes the log -/

namespace Raft

@[simp] theorem handleReply_log (rf : Raft) (peer : Nat) (reply : AppendEntriesReply) :
    (rf.handleReply peer reply).log = rf.log := by
  unfold handleReply; split_ifs <;> rfl

theorem handleReply_nextIndex_le {rf : Raft} (h : ∀ p, rf.nextIndex p ≤ rf.log.length)
    (peer : Nat) (reply : AppendEntriesReply) (p : Nat) :
    (rf.handleReply peer reply).nextIndex p ≤ (rf.handleReply peer reply).log.length := by
  rw [handleReply_log]
  have hp := h p
  unfold handleReply
  split_ifs
  · by_cases hpp : p = peer
    · subst hpp; simp
    · simp [Function.update_noteq hpp, hp]
  · exact hp
  · by_cases hpp : p = peer
    · subst hpp; simp; omega
    · simp [Function.update_noteq hpp, hp]

end Raft

namespace Node

theorem step_nextIndex_le {n n' : Node} {e : Event} (h : ∀ p, n.rf.nextIndex p ≤ n.rf.log.length)
    (hs : n.step e = some n') : ∀ p, n'.rf.nextIndex p ≤ n'.rf.log.length := by
  cases e with
  | broadcastHeartbeat => cases hs; exact h
  | sendAppendEntries peer =>
    simp only [step] at hs
    split_ifs at hs
    · obtain ⟨_, -, rfl⟩ := Option.map_eq_some'.mp hs; exact h
    · cases hs; exact h
  | receiveReply peer reply =>
    simp only [step] at hs
    split_ifs at hs <;> cases hs
    · exact Raft.handleReply_nextIndex_le h peer reply
    · exact h

theorem run_nextIndex_le (n : Node) (hn : ∀ p, n.rf.nextIndex p ≤ n.rf.log.length)
    (events : List Event) (n' : Node) (hrun : n.run events = some n') :
    ∀ p, n'.rf.nextIndex p ≤ n'.rf.log.length := by
  induction events generalizing n with
  | nil => cases hrun; exact hn
  | cons e events ih =>
    obtain ⟨m, hm, hrest⟩ := Option.bind_eq_some.mp (run_cons n e events ▸ hrun)
    exact ih m (step_nextIndex_le hn hm) hrest

/-- Node `0` of the cluster `{0, 1}` made Leader. -/
def leaderOfTwo : Node := leader (newRaft 0 [1])

theorem leaderOfTwo_nextIndex_le : ∀ p, leaderOfTwo.rf.nextIndex p ≤ leaderOfTwo.rf.log.length := by
  intro p
  by_cases hp : p = 1 <;>
    simp [leaderOfTwo, leader, Raft.initializeLeaderState, newRaft, Function.update_apply, hp]

/-- One heartbeat whose goroutine handles `sendRPC`'s reply. -/
def heartbeatRound : List Event :=
  [.broadcastHeartbeat, .sendAppendEntries 1, .receiveReply 1 sendRPCReply]

theorem run_nextIndex_le_leaderOfTwo :
    (∀ p, leaderOfTwo.rf.nextIndex p ≤ leaderOfTwo.rf.log.length) ∧
      ∃ n', leaderOfTwo.run heartbeatRound = some n' ∧ ∀ p, n'.rf.nextIndex p ≤ n'.rf.log.length :=
  ⟨leaderOfTwo_nextIndex_le, _, rfl,
    run_nextIndex_le leaderOfTwo leaderOfTwo_nextIndex_le heartbeatRound _ rfl⟩

/-- The reply of `sendRPC` is a failure in a term no later than the leader's; after one round
    `nextIndex[1]` is `-1`, and the next heartbeat's goroutine panics. -/
theorem nextIndex_negative_after_reply :
    sendRPCReply.success = false ∧ sendRPCReply.term ≤ leaderOfTwo.rf.term ∧
      ∃ n, leaderOfTwo.run heartbeatRound = some n ∧ n.rf.nextIndex 1 = -1 ∧
        n.run [.broadcastHeartbeat, .sendAppendEntries 1] = none :=
  ⟨rfl, by decide, _, rfl, rfl, rfl⟩

end Node

end HpDb.Consensus.Replication
