import Mathlib.Data.List.Basic

/-!
# Paxos (distributed_systems/consensus/paxos.go)

`Propose` increments the proposer's `ProposeID.Number`, takes the value it is given, and
runs the two phases over its `Acceptors`. `SendPrepare` promises when the acceptor's
promised number is smaller; `SendAccept` accepts unless it has promised a larger one. The
prepare phase returns no value, so a proposer never adopts the value an acceptor has
already accepted, which is the step of Paxos that keeps a chosen value. A second,
higher-numbered proposal can therefore overwrite a value already chosen.

`NewPaxosSystem` never fills a proposer's `Acceptors`. Every `Propose` of such a system
fails in its prepare phase, and no acceptor ever changes. The results below are about
proposers that do talk to the acceptors: `connect` gives each proposer all of them, as
`p.Acceptors = ps.Acceptors` would.

Each `Propose` call is a phase machine. Every `SendPrepare`, every `SendAccept` and each
majority check is one atomic step of an interleaving, and `Propose` holds the proposer's
mutex throughout. `NotifyLearners` only prints, and the learners are left out.

Results:
* `two_values_chosen`: with three acceptors, proposer `0` gets value `1` accepted by all of
  them under `(1, 0)`; proposer `1` fails once, proposes again, and gets value `2` accepted
  by all of them under `(2, 0)`.
* `newPaxosSystem_never_accepts`: in a system built by `NewPaxosSystem`, under every
  interleaving, the acceptors keep their initial state and every `Propose` fails with
  `failed to get majority for prepare phase`.
-/

namespace HpDb.Consensus.Paxos

/-- `ProposalID` (lines 11–14). No code sets `NodeID`, so it stays `0`. -/
structure ProposalID where
  number : Int
  nodeID : Int
  deriving DecidableEq, Repr

/-- `Acceptor` (lines 27–33), without its mutex. `AcceptedVal` is `nil` or an `int`, which
    is what `RunElection` and `RunConsensus` propose. -/
structure Acceptor where
  id : Nat
  promisedID : ProposalID
  acceptedID : ProposalID
  acceptedVal : Option Int
  deriving DecidableEq, Repr

/-- Where a proposer's `Propose` is: not running, or in the prepare or accept loop at the
    `next` acceptor with the count so far. -/
inductive Phase where
  | idle
  | prepare (next promises : Nat)
  | accept (next accepted : Nat)
  deriving DecidableEq, Repr

/-- `Proposer` (lines 16–25): its `Acceptors` as indices into the system's acceptors.
    `PromiseID` and `accepted` are never read and are left out. -/
structure Proposer where
  id : Nat
  proposeID : ProposalID
  value : Option Int
  acceptors : List Nat
  majority : Nat
  phase : Phase
  deriving DecidableEq, Repr

/-- `PaxosSystem` (lines 41–45) without the learners, and what each finished `Propose`
    returned: `none` for `nil`, or the error's text. -/
structure PaxosSystem where
  proposers : List Proposer
  acceptors : List Acceptor
  returns : List (Nat × Option String)
  deriving DecidableEq, Repr

/-- `NewPaxosSystem` (lines 47–59): no proposer gets any acceptor. -/
def newPaxosSystem (numProposers numAcceptors : Nat) : PaxosSystem :=
  ⟨(List.range numProposers).map fun i =>
      ⟨i, ⟨0, 0⟩, none, [], numAcceptors / 2 + 1, .idle⟩,
    (List.range numAcceptors).map fun i => ⟨i, ⟨0, 0⟩, ⟨0, 0⟩, none⟩, []⟩

/-- Every proposer talks to every acceptor. -/
def connect (s : PaxosSystem) : PaxosSystem :=
  { s with
    proposers := s.proposers.map fun p => { p with acceptors := List.range s.acceptors.length } }

namespace Proposer

/-- `SendPrepare` (lines 95–106): whether the acceptor promised, and the acceptor after. -/
def sendPrepare (p : Proposer) (a : Acceptor) : Bool × Acceptor :=
  if a.promisedID.number ≥ p.proposeID.number then (false, a)
  else (true, { a with promisedID := p.proposeID })

/-- `SendAccept` (lines 108–120): whether the acceptor accepted, and the acceptor after. -/
def sendAccept (p : Proposer) (a : Acceptor) : Bool × Acceptor :=
  if a.promisedID.number > p.proposeID.number then (false, a)
  else (true, { a with acceptedID := p.proposeID, acceptedVal := p.value })

end Proposer

/-- An event of the interleaving. -/
inductive Event where
  /-- Proposer `i` calls `Propose(value)`: lines 62–67. -/
  | propose (i : Nat) (value : Int)
  /-- Proposer `i` takes the next step of its `Propose`: one `SendPrepare` or
      `SendAccept`, or the majority check that ends a loop. -/
  | advance (i : Nat)
  deriving DecidableEq, Repr

namespace PaxosSystem

/-- The start of `Propose` (lines 62–67). -/
def propose (s : PaxosSystem) (i : Nat) (value : Int) : PaxosSystem :=
  match s.proposers[i]? with
  | some p =>
    if p.phase = .idle then
      { s with proposers := s.proposers.set i { p with
          proposeID := { p.proposeID with number := p.proposeID.number + 1 },
          value := some value, phase := .prepare 0 0 } }
    else s
  | none => s

/-- One step of the loops of `Propose` (lines 69–92). -/
def advance (s : PaxosSystem) (i : Nat) : PaxosSystem :=
  match s.proposers[i]? with
  | none => s
  | some p =>
    match p.phase with
    | .idle => s
    | .prepare k promises =>
      match p.acceptors[k]? with
      | some j =>
        match s.acceptors[j]? with
        | some a =>
          { s with acceptors := s.acceptors.set j (p.sendPrepare a).2,
                   proposers := s.proposers.set i { p with
                     phase := .prepare (k + 1) (promises + if (p.sendPrepare a).1 then 1 else 0) } }
        | none => s
      | none =>
        if promises < p.majority then
          { s with proposers := s.proposers.set i { p with phase := .idle },
                   returns := s.returns ++ [(i, some "failed to get majority for prepare phase")] }
        else { s with proposers := s.proposers.set i { p with phase := .accept 0 0 } }
    | .accept k accepted =>
      match p.acceptors[k]? with
      | some j =>
        match s.acceptors[j]? with
        | some a =>
          { s with acceptors := s.acceptors.set j (p.sendAccept a).2,
                   proposers := s.proposers.set i { p with
                     phase := .accept (k + 1) (accepted + if (p.sendAccept a).1 then 1 else 0) } }
        | none => s
      | none =>
        if accepted < p.majority then
          { s with proposers := s.proposers.set i { p with phase := .idle },
                   returns := s.returns ++ [(i, some "failed to get majority for accept phase")] }
        else
          { s with proposers := s.proposers.set i { p with phase := .idle },
                   returns := s.returns ++ [(i, none)] }

/-- One event. -/
def step (s : PaxosSystem) : Event → PaxosSystem
  | .propose i value => s.propose i value
  | .advance i => s.advance i

/-- An interleaving. -/
def run (s : PaxosSystem) (events : List Event) : PaxosSystem := events.foldl step s

/-- At least `majority` acceptors hold `value` accepted under `pid`. -/
def Chosen (s : PaxosSystem) (majority : Nat) (pid : ProposalID) (value : Int) : Prop :=
  majority ≤
    (s.acceptors.filter fun a => a.acceptedID = pid ∧ a.acceptedVal = some value).length

instance (s : PaxosSystem) (majority : Nat) (pid : ProposalID) (value : Int) :
    Decidable (s.Chosen majority pid value) :=
  inferInstanceAs (Decidable (_ ≤ _))

end PaxosSystem

/-! ## A chosen value is overwritten -/

/-- Proposer `0` proposes `1` and runs its three prepares, the check, three accepts and
    the check. -/
def firstProposal : List Event := .propose 0 1 :: List.replicate 8 (.advance 0)

/-- Proposer `1` proposes `2`: its three prepares fail at number `1`. It proposes `2`
    again, at number `2`, and runs both phases. -/
def secondProposal : List Event :=
  .propose 1 2 :: List.replicate 4 (.advance 1) ++ .propose 1 2 :: List.replicate 8 (.advance 1)

/-- **Two values are chosen.** Two proposers over three acceptors, with `Majority = 2`:
    value `1` is accepted by all three acceptors under `(1, 0)`, then value `2` by all
    three under `(2, 0)`. Proposer `0`'s `Propose` returns `nil`, and proposer `1`'s fails
    once, then returns `nil`. -/
theorem two_values_chosen :
    ((connect (newPaxosSystem 2 3)).run firstProposal).Chosen 2 ⟨1, 0⟩ 1 ∧
      ((connect (newPaxosSystem 2 3)).run (firstProposal ++ secondProposal)).Chosen 2
        ⟨2, 0⟩ 2 ∧
      ((connect (newPaxosSystem 2 3)).run (firstProposal ++ secondProposal)).returns =
        [(0, none), (1, some "failed to get majority for prepare phase"), (1, none)] := by
  decide

/-! ## `NewPaxosSystem` never accepts -/

namespace PaxosSystem

/-- No proposer has an acceptor, every majority is at least one, and no `Propose` is past
    its (empty) prepare loop. -/
def Unconnected (s : PaxosSystem) : Prop :=
  ∀ p ∈ s.proposers,
    p.acceptors = [] ∧ 1 ≤ p.majority ∧ (p.phase = .idle ∨ p.phase = .prepare 0 0)

theorem Unconnected.set {s : PaxosSystem} (h : s.Unconnected) {i : Nat} {p : Proposer}
    (hp : p.acceptors = [] ∧ 1 ≤ p.majority ∧ (p.phase = .idle ∨ p.phase = .prepare 0 0)) :
    ∀ q ∈ s.proposers.set i p, q.acceptors = [] ∧ 1 ≤ q.majority ∧
      (q.phase = .idle ∨ q.phase = .prepare 0 0) := fun q hq =>
  (List.mem_or_eq_of_mem_set hq).elim (h q) fun e => e ▸ hp

/-- One event of an unconnected system changes no acceptor, and can only record the
    failure of a prepare phase. -/
theorem Unconnected.step {s : PaxosSystem} (h : s.Unconnected) (e : Event) :
    (s.step e).Unconnected ∧ (s.step e).acceptors = s.acceptors ∧
      ∃ r, (s.step e).returns = s.returns ++ r ∧
        ∀ x ∈ r, x.2 = some "failed to get majority for prepare phase" := by
  cases e with
  | propose i value =>
    simp only [PaxosSystem.step]
    unfold PaxosSystem.propose
    cases hp : s.proposers[i]? with
    | none => exact ⟨h, rfl, [], by simp, by simp⟩
    | some p =>
      obtain ⟨ha, hm, -⟩ := h p (List.getElem?_mem hp)
      dsimp only
      split_ifs
      · exact ⟨h.set ⟨ha, hm, .inr rfl⟩, rfl, [], by simp, by simp⟩
      · exact ⟨h, rfl, [], by simp, by simp⟩
  | advance i =>
    simp only [PaxosSystem.step]
    unfold PaxosSystem.advance
    cases hp : s.proposers[i]? with
    | none => exact ⟨h, rfl, [], by simp, by simp⟩
    | some p =>
      obtain ⟨ha, hm, hph⟩ := h p (List.getElem?_mem hp)
      rcases hph with hph | hph
      · simp only [hph]
        exact ⟨h, trivial, [], by simp, by simp⟩
      · simp only [hph, ha, List.getElem?_nil, if_pos (show 0 < p.majority by omega)]
        exact ⟨h.set ⟨rfl, hm, .inl rfl⟩, trivial, _, rfl, by simp⟩

end PaxosSystem

/-- **`NewPaxosSystem` never accepts.** For any numbers of proposers and acceptors and any
    interleaving of `Propose` calls, the acceptors keep their initial state, and every
    `Propose` that returns fails with `failed to get majority for prepare phase`. -/
theorem newPaxosSystem_never_accepts (numProposers numAcceptors : Nat) (events : List Event) :
    ((newPaxosSystem numProposers numAcceptors).run events).acceptors =
        (newPaxosSystem numProposers numAcceptors).acceptors ∧
      ∀ r ∈ ((newPaxosSystem numProposers numAcceptors).run events).returns,
        r.2 = some "failed to get majority for prepare phase" := by
  have h₀ : (newPaxosSystem numProposers numAcceptors).Unconnected := by
    intro p hp
    obtain ⟨i, -, rfl⟩ := List.mem_map.mp hp
    exact ⟨rfl, Nat.succ_le_succ (Nat.zero_le _), .inl rfl⟩
  suffices ∀ (events : List Event) (s : PaxosSystem), s.Unconnected →
      (∀ r ∈ s.returns, r.2 = some "failed to get majority for prepare phase") →
      (s.run events).acceptors = s.acceptors ∧
        ∀ r ∈ (s.run events).returns, r.2 = some "failed to get majority for prepare phase" from
    this events _ h₀ (by simp [newPaxosSystem])
  intro events
  induction events with
  | nil => exact fun s _ hr => ⟨rfl, hr⟩
  | cons e events ih =>
    intro s h hr
    obtain ⟨h', ha, r, hret, hr'⟩ := h.step e
    obtain ⟨ha', hr''⟩ := ih (s.step e) h' fun x hx => by
      rw [hret] at hx
      exact (List.mem_append.mp hx).elim (hr x) (hr' x)
    exact ⟨ha'.trans ha, hr''⟩

end HpDb.Consensus.Paxos
