import Mathlib.Data.List.Basic

/-!
# Raft leader election (unnamed/part_016)

`startElection` moves to the next term, votes for itself, and spawns one `sendRequestVote`
goroutine per peer. Then it waits: a heartbeat makes it a Follower, and the election
timeout makes it Leader if `voteCount > len(peers)/2`. Each `sendRequestVote` reads the term
when it runs, sends the request, and counts a granted reply toward `voteCount`, making the
node Leader as soon as the count passes `len(peers)/2`. A reply is counted whatever term
the node has moved to since the request. And `len(peers)/2` with `peers` the *other*
nodes accepts one vote in two nodes and two in four.

The file has no `RequestVote` handler, and `sendRPC` returns `true` with an empty reply.
The voters are therefore part of the environment: a reply may grant the vote if the voter
has voted for no other candidate in the request's term. A candidate's vote for itself
counts as its vote in that term. The model keeps each voter's votes per term, and the
`(node, term)` of every promotion to Leader, as ghost state. `log`, `commitIdx`, the
indices that `initializeLeaderState` resets, and `broadcastHeartbeat` with
`sendAppendEntries`, are not read by the election and are left out.

Results:
* `two_leaders_in_one_term`: for every cluster size `n ≥ 2`, the schedule
  `splitElection n` makes node `0` and node `1` both Leader in one term. With two nodes
  no vote is needed at all. With more, node `0` counts in term `2` the grants it got for
  term `1`, while node `1` wins term `2` with grants from the same voters.
-/

namespace HpDb.Consensus

/-- `type Role` (lines 11–17). -/
inductive Role where
  | follower
  | candidate
  | leader
  deriving DecidableEq, Repr

/-- `type Raft` (lines 31–48): the fields the election reads and writes, and whether
    `run`'s goroutine is inside `startElection`, waiting in its `select`. -/
structure Raft where
  id : Nat
  peers : List Nat
  role : Role
  term : Int
  votedFor : Int
  voteCount : Nat
  inElection : Bool
  deriving DecidableEq, Repr

/-- `NewRaft` (lines 56–76). -/
def newRaft (id : Nat) (peers : List Nat) : Raft := ⟨id, peers, .follower, 0, -1, 0, false⟩

/-- `RequestVoteArgs` (lines 220–225), without the log position, which no voter here
    reads. -/
structure RequestVoteArgs where
  term : Int
  candidateId : Nat
  deriving DecidableEq, Repr

/-- `RequestVoteReply` (lines 227–230). -/
structure RequestVoteReply where
  term : Int
  voteGranted : Bool
  deriving DecidableEq, Repr

/-- A cluster of `size` nodes, the `sendRequestVote(peer)` goroutines spawned and not yet
    run, the requests sent and not yet answered, each voter's vote per term, and the
    ledger of promotions to Leader. -/
structure Cluster where
  size : Nat
  nodes : Nat → Raft
  spawned : List (Nat × Nat)
  inFlight : List (Nat × RequestVoteArgs)
  votes : Nat → Int → Option Nat
  led : List (Nat × Int)

/-- An event of the interleaving. -/
inductive Event where
  /-- `run` calls `startElection`: lines 103–112. -/
  | startElection (i : Nat)
  /-- The goroutine `sendRequestVote(peer)` of node `i` sends its request: lines 145–155. -/
  | sendRequestVote (i peer : Nat)
  /-- The reply of `peer` to the request `args` arrives: lines 156–168. -/
  | receiveReply (peer : Nat) (args : RequestVoteArgs) (reply : RequestVoteReply)
  /-- A heartbeat ends node `i`'s election: lines 115–118. -/
  | heartbeat (i : Nat)
  /-- The election timeout of node `i` fires: lines 119–127. -/
  | electionTimeout (i : Nat)
  deriving DecidableEq, Repr

namespace Cluster

/-- `n` nodes, each with the other nodes as peers. -/
def init (n : Nat) : Cluster where
  size := n
  nodes i := newRaft i ((List.range n).erase i)
  spawned := []
  inFlight := []
  votes _ _ := none
  led := []

/-- `startElection` up to its `select` (lines 103–112). `run` calls it from the Follower
    and Candidate roles, and not while it is inside it. -/
def startElection (c : Cluster) (i : Nat) : Cluster :=
  let rf := c.nodes i
  if i < c.size ∧ rf.inElection = false ∧ rf.role ≠ .leader then
    { c with
      nodes := Function.update c.nodes i ({ rf with
        term := rf.term + 1, votedFor := rf.id, voteCount := 1, role := .candidate,
        inElection := true })
      spawned := c.spawned ++ rf.peers.map (i, ·)
      votes := Function.update c.votes i (Function.update (c.votes i) (rf.term + 1) (some i)) }
  else c

/-- `sendRequestVote(peer)` up to the RPC (lines 145–155): the arguments carry the term the
    node has when the goroutine runs. -/
def sendRequestVote (c : Cluster) (i peer : Nat) : Cluster :=
  if (i, peer) ∈ c.spawned then
    { c with spawned := c.spawned.erase (i, peer),
             inFlight := c.inFlight ++ [(peer, ⟨(c.nodes i).term, i⟩)] }
  else c

/-- The voter may grant: it has voted for no other candidate in the request's term. -/
def MayGrant (c : Cluster) (peer : Nat) (args : RequestVoteArgs) : Prop :=
  c.votes peer args.term = none ∨ c.votes peer args.term = some args.candidateId

instance (c : Cluster) (peer : Nat) (args : RequestVoteArgs) : Decidable (c.MayGrant peer args) :=
  inferInstanceAs (Decidable (_ ∨ _))

/-- The reply handling of `sendRequestVote` (lines 156–168). -/
def receiveReply (c : Cluster) (peer : Nat) (args : RequestVoteArgs) (reply : RequestVoteReply) :
    Cluster :=
  if (peer, args) ∈ c.inFlight ∧ (reply.voteGranted = true → c.MayGrant peer args) then
    let i := args.candidateId
    let rf := c.nodes i
    let c := { c with inFlight := c.inFlight.erase (peer, args) }
    if reply.voteGranted then
      let c := { c with
        votes := Function.update c.votes peer (Function.update (c.votes peer) args.term (some i)) }
      if rf.voteCount + 1 > rf.peers.length / 2 then
        { c with
          nodes := Function.update c.nodes i
            ({ rf with voteCount := rf.voteCount + 1, role := .leader })
          led := c.led ++ [(i, rf.term)] }
      else { c with nodes := Function.update c.nodes i { rf with voteCount := rf.voteCount + 1 } }
    else if reply.term > rf.term then
      { c with
        nodes := Function.update c.nodes i
          ({ rf with term := reply.term, role := .follower, votedFor := -1 }) }
    else c
  else c

/-- The heartbeat case of the `select` (lines 115–118). -/
def heartbeat (c : Cluster) (i : Nat) : Cluster :=
  let rf := c.nodes i
  if rf.inElection then
    { c with
      nodes := Function.update c.nodes i ({ rf with role := .follower, inElection := false }) }
  else c

/-- The timeout case of the `select` (lines 119–127). -/
def electionTimeout (c : Cluster) (i : Nat) : Cluster :=
  let rf := c.nodes i
  if rf.inElection then
    if rf.voteCount > rf.peers.length / 2 then
      { c with nodes := Function.update c.nodes i { rf with role := .leader, inElection := false },
               led := c.led ++ [(i, rf.term)] }
    else
      { c with
        nodes := Function.update c.nodes i ({ rf with role := .follower, inElection := false }) }
  else c

/-- One event. -/
def step (c : Cluster) : Event → Cluster
  | .startElection i => c.startElection i
  | .sendRequestVote i peer => c.sendRequestVote i peer
  | .receiveReply peer args reply => c.receiveReply peer args reply
  | .heartbeat i => c.heartbeat i
  | .electionTimeout i => c.electionTimeout i

/-- An interleaving. -/
def run (c : Cluster) (events : List Event) : Cluster := events.foldl step c

theorem run_append (c : Cluster) (events events' : List Event) :
    c.run (events ++ events') = (c.run events).run events' := List.foldl_append _ _ _ _

@[simp] theorem run_cons (c : Cluster) (e : Event) (events : List Event) :
    c.run (e :: events) = (c.step e).run events := rfl

@[simp] theorem run_nil (c : Cluster) : c.run [] = c := rfl

/-! ### What each event does when it is enabled -/

theorem startElection_of_ready {c : Cluster} {i : Nat}
    (h : i < c.size ∧ (c.nodes i).inElection = false ∧ (c.nodes i).role ≠ .leader) :
    c.startElection i =
      { c with
        nodes := Function.update c.nodes i ({ c.nodes i with
          term := (c.nodes i).term + 1, votedFor := (c.nodes i).id, voteCount := 1,
          role := .candidate, inElection := true })
        spawned := c.spawned ++ (c.nodes i).peers.map (i, ·)
        votes := Function.update c.votes i
          (Function.update (c.votes i) ((c.nodes i).term + 1) (some i)) } :=
  if_pos h

theorem sendRequestVote_of_mem {c : Cluster} {i peer : Nat} (h : (i, peer) ∈ c.spawned) :
    c.sendRequestVote i peer =
      { c with spawned := c.spawned.erase (i, peer),
               inFlight := c.inFlight ++ [(peer, ⟨(c.nodes i).term, i⟩)] } :=
  if_pos h

/-- A granted reply counts one vote for the candidate, whatever its term now. -/
theorem receiveReply_granted {c : Cluster} {peer : Nat} {args : RequestVoteArgs} (rt : Int)
    (hm : (peer, args) ∈ c.inFlight) (hv : c.votes peer args.term = none) :
    ∃ role led, c.receiveReply peer args ⟨rt, true⟩ =
      { c with
        nodes := Function.update c.nodes args.candidateId
          ({ c.nodes args.candidateId with
            voteCount := (c.nodes args.candidateId).voteCount + 1, role := role })
        inFlight := c.inFlight.erase (peer, args)
        votes := Function.update c.votes peer
          (Function.update (c.votes peer) args.term (some args.candidateId))
        led := led } := by
  unfold receiveReply
  rw [if_pos ⟨hm, fun _ => .inl hv⟩]
  dsimp only
  rw [if_pos rfl]
  split_ifs
  · exact ⟨_, _, rfl⟩
  · exact ⟨_, _, rfl⟩

theorem electionTimeout_of_lose {c : Cluster} {i : Nat} (h : (c.nodes i).inElection = true)
    (hv : (c.nodes i).voteCount ≤ (c.nodes i).peers.length / 2) :
    c.electionTimeout i =
      { c with
        nodes := Function.update c.nodes i
          ({ c.nodes i with role := .follower, inElection := false }) } := by
  simp only [electionTimeout, h, ite_true, gt_iff_lt, Nat.not_lt.mpr hv, ite_false]

theorem electionTimeout_of_win {c : Cluster} {i : Nat} (h : (c.nodes i).inElection = true)
    (hv : (c.nodes i).peers.length / 2 < (c.nodes i).voteCount) :
    c.electionTimeout i =
      { c with
        nodes := Function.update c.nodes i ({ c.nodes i with role := .leader, inElection := false })
        led := c.led ++ [(i, (c.nodes i).term)] } := by
  simp only [electionTimeout, h, ite_true, gt_iff_lt, hv]

/-! ### Runs of requests and of granted replies -/

/-- Node `i`'s goroutines for `vs` send their requests, all in node `i`'s current term. -/
theorem run_sendRequestVote (i : Nat) :
    ∀ (vs : List Nat) (c : Cluster), vs.Nodup → (∀ v ∈ vs, (i, v) ∈ c.spawned) →
      ∃ spawned, c.run (vs.map (.sendRequestVote i)) =
        { c with spawned, inFlight := c.inFlight ++ vs.map fun v => (v, ⟨(c.nodes i).term, i⟩) }
  | [], c, _, _ => ⟨c.spawned, by rw [List.map_nil, run_nil, List.map_nil, List.append_nil]⟩
  | v :: vs, c, hnd, hsp => by
    have hv := hsp v (List.mem_cons_self _ _)
    obtain ⟨spawned, h⟩ := run_sendRequestVote i vs (c.sendRequestVote i v)
      (List.nodup_cons.mp hnd).2 fun v' hv' => by
        rw [sendRequestVote_of_mem hv]
        refine (List.mem_erase_of_ne fun he => ?_).mpr (hsp v' (List.mem_cons_of_mem _ hv'))
        cases he
        exact (List.nodup_cons.mp hnd).1 hv'
    refine ⟨spawned, ?_⟩
    rw [List.map_cons, run_cons, step, h, sendRequestVote_of_mem hv]
    simp only [List.map_cons, List.append_assoc, List.singleton_append]

/-- The voters `vs` grant the request `args`: the candidate counts `vs.length` more votes,
    whatever its term, and nothing else moves but those requests and votes. -/
theorem run_receiveReply (args : RequestVoteArgs) :
    ∀ (vs : List Nat) (c : Cluster), vs.Nodup →
      (∀ v ∈ vs, (v, args) ∈ c.inFlight ∧ c.votes v args.term = none) →
      (∃ role, (c.run (vs.map (.receiveReply · args ⟨0, true⟩))).nodes =
        Function.update c.nodes args.candidateId ({ c.nodes args.candidateId with
          voteCount := (c.nodes args.candidateId).voteCount + vs.length, role := role })) ∧
      (∀ x ∈ c.inFlight, x.2 ≠ args →
        x ∈ (c.run (vs.map (.receiveReply · args ⟨0, true⟩))).inFlight) ∧
      (∀ v t, t ≠ args.term →
        (c.run (vs.map (.receiveReply · args ⟨0, true⟩))).votes v t = c.votes v t)
  | [], c, _, _ =>
    ⟨⟨(c.nodes args.candidateId).role, by simp⟩, fun _ hx _ => hx, fun _ _ _ => rfl⟩
  | v :: vs, c, hnd, hvs => by
    obtain ⟨hm, hnone⟩ := hvs v (List.mem_cons_self _ _)
    obtain ⟨role₁, led₁, h₁⟩ := receiveReply_granted (c := c) 0 hm hnone
    have hnot : v ∉ vs := (List.nodup_cons.mp hnd).1
    obtain ⟨⟨role, hnodes⟩, hflight, hvotes⟩ :=
      run_receiveReply args vs (c.receiveReply v args ⟨0, true⟩) (List.nodup_cons.mp hnd).2
      fun v' hv' => by
        have hne : v' ≠ v := fun h => hnot (h ▸ hv')
        rw [h₁]
        refine ⟨(List.mem_erase_of_ne fun h => hne (Prod.ext_iff.mp h).1).mpr
          (hvs v' (List.mem_cons_of_mem _ hv')).1, ?_⟩
        simp only [Function.update_noteq hne]
        exact (hvs v' (List.mem_cons_of_mem _ hv')).2
    simp only [List.map_cons, run_cons, step, h₁] at hnodes hflight hvotes ⊢
    refine ⟨⟨role, ?_⟩, fun x hx hxa =>
      hflight x ((List.mem_erase_of_ne fun h => hxa (by rw [h])).mpr hx) hxa,
      fun v' t ht => ?_⟩
    · rw [hnodes, Function.update_idem, Function.update_same, List.length_cons,
        ← Nat.add_assoc, Nat.add_right_comm]
    · rw [hvotes v' t ht]
      by_cases hv' : v' = v
      · subst hv'
        simp only [Function.update_same, Function.update_noteq ht]
      · simp only [Function.update_noteq hv']

end Cluster

/-- Node `i` starts an election, requests the votes of `vs`, times out, and starts the
    next election. -/
def retryElection (i : Nat) (vs : List Nat) : List Event :=
  [.startElection i] ++ vs.map (.sendRequestVote i) ++ [.electionTimeout i, .startElection i]

/-- The schedule: node `0` requests the votes of nodes `2` to `(n - 1) / 2 + 1` in its
    first election and starts a second one; node `1` starts two elections and requests the
    same votes in the second; the voters grant node `0`'s requests of term `1`, then node
    `1`'s of term `2`; both elections time out. -/
def splitElection (n : Nat) : List Event :=
  let voters := (List.range ((n - 1) / 2)).map (· + 2)
  retryElection 0 voters ++ retryElection 1 [] ++ voters.map (.sendRequestVote 1) ++
    voters.map (.receiveReply · ⟨1, 0⟩ ⟨0, true⟩) ++
    voters.map (.receiveReply · ⟨2, 1⟩ ⟨0, true⟩) ++
    [.electionTimeout 0, .electionTimeout 1]

namespace Cluster

/-- Node `i` waits in the `select` of its election in `term` with `count` votes, and has
    the other nodes as peers. -/
def Electing (c : Cluster) (i : Nat) (term : Int) (count : Nat) : Prop :=
  (c.nodes i).inElection = true ∧ (c.nodes i).term = term ∧ (c.nodes i).voteCount = count ∧
    (c.nodes i).peers.length = c.size - 1

theorem init_peers_length {n i : Nat} (hi : i < n) :
    ((init n).nodes i).peers.length = n - 1 := by
  simp [init, newRaft, List.length_erase_of_mem (List.mem_range.mpr hi)]

theorem mem_init_peers {n i v : Nat} (hv : v < n) (hne : v ≠ i) :
    v ∈ ((init n).nodes i).peers :=
  (List.nodup_range n).mem_erase_iff.mpr ⟨hne, List.mem_range.mpr hv⟩

/-- Node `i`'s first election, with the requests to `vs` sent, times out, and it starts its
    second. -/
theorem run_prepare {n i : Nat} (hi : i < n) (hk : 1 ≤ (n - 1) / 2) (c : Cluster)
    (hc : c.size = n) (hnode : c.nodes i = (init n).nodes i) (vs : List Nat) (hnd : vs.Nodup)
    (hvs : ∀ v ∈ vs, v < n ∧ v ≠ i) :
    let c' := c.run (retryElection i vs)
    c'.Electing i 2 1 ∧ c'.size = n ∧ (∀ j ≠ i, c'.nodes j = c.nodes j) ∧
      (∀ x ∈ c.inFlight, x ∈ c'.inFlight) ∧
      (∀ v ∈ vs, (v, ⟨1, i⟩) ∈ c'.inFlight) ∧ (∀ v ≠ i, c'.votes v = c.votes v) ∧
      (∀ v < n, v ≠ i → (i, v) ∈ c'.spawned) := by
  have hP := init_peers_length hi
  have h₁ := startElection_of_ready (c := c) (i := i)
    ⟨hc ▸ hi, by rw [hnode]; rfl, by rw [hnode]; simp [init, newRaft]⟩
  obtain ⟨sp, hsp⟩ := run_sendRequestVote i vs (c.startElection i) hnd fun v hv => by
    rw [h₁, hnode]
    exact List.mem_append_right _ (List.mem_map_of_mem _ (mem_init_peers (hvs v hv).1 (hvs v hv).2))
  dsimp only
  simp only [retryElection, run_append, run_cons, run_nil, step]
  rw [hsp, h₁]
  rw [electionTimeout_of_lose (by simp) (by simp [hnode, hP]; omega)]
  rw [startElection_of_ready ⟨by simpa using hc ▸ hi, by simp, by simp⟩]
  refine ⟨⟨by simp, by simp [hnode, init, newRaft], by simp,
    by simp [hnode, hP, hc]⟩, hc, fun j hj => by simp [Function.update_noteq hj],
    fun x hx => by simp [hx], fun v hv => by simp [hnode, init, newRaft, hv],
    fun v hv => by simp [Function.update_noteq hv],
    fun v hv hne => List.mem_append_right _
      (List.mem_map_of_mem _ (by simpa [hnode] using mem_init_peers hv hne))⟩

/-- From three nodes up: node `0` wins term `2` with the grants of term `1`, node `1` with
    those of term `2`. -/
theorem two_leaders_of_three_le {n : Nat} (hn : 3 ≤ n) :
    (0, 2) ∈ ((init n).run (splitElection n)).led ∧
      (1, 2) ∈ ((init n).run (splitElection n)).led := by
  have hk : 1 ≤ (n - 1) / 2 := by omega
  have hnd : ((List.range ((n - 1) / 2)).map (· + 2)).Nodup :=
    List.Pairwise.map _ (fun _ _ hab h => hab (Nat.add_right_cancel h)) (List.nodup_range _)
  have hvs : ∀ v ∈ (List.range ((n - 1) / 2)).map (· + 2), 2 ≤ v ∧ v < n := by
    intro v hv
    obtain ⟨j, hj, rfl⟩ := List.mem_map.mp hv
    rw [List.mem_range] at hj
    omega
  have hlen : ((List.range ((n - 1) / 2)).map (· + 2)).length = (n - 1) / 2 := by simp
  simp only [splitElection, run_append]
  generalize (List.range ((n - 1) / 2)).map (· + 2) = voters at hnd hvs hlen ⊢
  obtain ⟨h0, hsize1, hnodes1, -, hflight1, hvotes1, -⟩ := run_prepare (i := 0) (by omega) hk
    (init n) rfl rfl voters hnd fun v hv => ⟨(hvs v hv).2, by have := (hvs v hv).1; omega⟩
  obtain ⟨h1, hsize2, hnodes2, hflight2, -, hvotes2, hspawned2⟩ :=
    run_prepare (i := 1) (by omega) hk _ hsize1 (hnodes1 1 (by decide)) [] List.nodup_nil
      (by simp)
  generalize (init n).run (retryElection 0 voters) = c₁ at *
  generalize c₁.run (retryElection 1 []) = c₂ at *
  have hnone : ∀ v ∈ voters, ∀ t, c₂.votes v t = none := fun v hv t => by
    have := (hvs v hv).1
    rw [hvotes2 v (by omega), hvotes1 v (by omega)]
    rfl
  obtain ⟨sp, hsp⟩ := run_sendRequestVote 1 voters c₂ hnd
    fun v hv => hspawned2 v (hvs v hv).2 (by have := (hvs v hv).1; omega)
  rw [hsp, h1.2.1]
  set c₃ : Cluster :=
    { c₂ with
      spawned := sp
      inFlight := c₂.inFlight ++ voters.map fun v => (v, (⟨2, 1⟩ : RequestVoteArgs)) }
  obtain ⟨⟨r₀, hn₄⟩, hf₄, hv₄⟩ := run_receiveReply ⟨1, 0⟩ voters c₃ hnd
    fun v hv => ⟨List.mem_append_left _ (hflight2 _ (hflight1 v hv)), hnone v hv 1⟩
  set c₄ := c₃.run (voters.map (.receiveReply · ⟨1, 0⟩ ⟨0, true⟩))
  obtain ⟨⟨r₁, hn₅⟩, -, -⟩ := run_receiveReply ⟨2, 1⟩ voters c₄ hnd
    fun v hv => ⟨hf₄ _ (List.mem_append_right _
      (List.mem_map_of_mem (fun v => (v, (⟨2, 1⟩ : RequestVoteArgs))) hv)) (by simp),
      by rw [hv₄ v 2 (by decide)]; exact hnone v hv 2⟩
  set c₅ := c₄.run (voters.map (.receiveReply · ⟨2, 1⟩ ⟨0, true⟩))
  have e₀ : c₅.nodes 0 = { c₁.nodes 0 with
      voteCount := (c₁.nodes 0).voteCount + (n - 1) / 2, role := r₀ } := by
    rw [hn₅, Function.update_noteq (by decide), hn₄, Function.update_same, hlen,
      ← hnodes2 0 (by decide)]
  have e₁ : c₅.nodes 1 = { c₂.nodes 1 with
      voteCount := (c₂.nodes 1).voteCount + (n - 1) / 2, role := r₁ } := by
    rw [hn₅, Function.update_same, hlen, hn₄, Function.update_noteq (by decide)]
  obtain ⟨hi₀, ht₀, hc₀, hp₀⟩ := h0
  obtain ⟨hi₁, ht₁, hc₁, hp₁⟩ := h1
  simp only [run_cons, run_nil, step]
  rw [electionTimeout_of_win (c := c₅) (i := 0) (by rw [e₀]; exact hi₀)
    (by rw [e₀]; dsimp only; omega)]
  rw [electionTimeout_of_win (i := 1) (by simp [e₁, hi₁]) (by simp [e₁]; omega)]
  simp [e₀, e₁, ht₀, ht₁]

end Cluster

/-- **Two leaders in one term, at every cluster size.** In a cluster of any `n ≥ 2` nodes,
    each with the others as peers, `splitElection n` makes node `0` and node `1` both set
    `role = Leader` while their terms are equal, though no voter votes twice in a term. -/
theorem two_leaders_in_one_term (n : Nat) (hn : 2 ≤ n) :
    ∃ t, (0, t) ∈ ((Cluster.init n).run (splitElection n)).led ∧
      (1, t) ∈ ((Cluster.init n).run (splitElection n)).led := by
  rcases Nat.lt_or_ge n 3 with h | h
  · obtain rfl : n = 2 := by omega
    exact ⟨1, by decide⟩
  · exact ⟨2, Cluster.two_leaders_of_three_le h⟩

/-- With two nodes, both become Leader in term `1` without a single vote. -/
example : ((Cluster.init 2).run (splitElection 2)).led = [(0, 1), (1, 1)] := by decide

/-- Five nodes: node `0` counts two grants of term `1` in term `2`, node `1` two of term
    `2`. -/
theorem two_leaders_in_five_nodes :
    2 ≤ 5 ∧ ∃ t, (0, t) ∈ ((Cluster.init 5).run (splitElection 5)).led ∧
      (1, t) ∈ ((Cluster.init 5).run (splitElection 5)).led :=
  ⟨by decide, two_leaders_in_one_term 5 (by decide)⟩

end HpDb.Consensus
