import Mathlib.Data.List.Basic

/-!
# `QueryProcessor.ExecuteQuery` (distributed_systems/tests/distributed_systems_tests.cpp, lines 184–361)

The Go package `distributed_query_processor`. `ExecuteQuery` starts one goroutine per node,
which calls `sendQueryToNode` and sends its result on `resultChan`, buffered for
`len(qp.nodes)` results; one more goroutine closes `resultChan` once every node's goroutine is
done. `sendQueryToNode` starts a goroutine that sleeps `50 + node.ID[0]` milliseconds and
sends the node's `Result` on a channel of its own, then `select`s: on `ctx.Done()` it returns
`nil`, on the result it returns the result. `ExecuteQuery` ranges over `resultChan`, reads
`res.Error` of each result, and returns the data of those without an error.

A run is the list of its events, in the order the scheduler lets them happen; `step` is
`none` where an event cannot happen then. The sleeps are left out: any timing is some order of
the events. A `select` with both cases ready takes either. A goroutine's `select` and its send
on `resultChan`, which has room for every node's result and never blocks, are one event.
Reading `res.Error` of a `nil` result and `node.ID[0]` of an empty `ID` are Go runtime
panics, which end the program. Prints and logs are left out.

Results:
* `executeQuery_dereferences_nil`: on every non-empty list of nodes, when the context is
  cancelled before the first node's result, that node's `select` may return `nil`, and the
  loop then reads `res.Error` through it.
* `run_ne_nilDereference`: in every run in which the context is not cancelled, no `nil`
  result is dereferenced.
* `executeQuery_returns_every_node`: when the nodes, whose ids are non-empty, answer in turn
  before any cancellation, `ExecuteQuery` returns the data of every node, in the nodes' order.
-/

namespace HpDb.Query.Distributed

/-- `type Query struct` (lines 195–198). -/
structure Query where
  id : String
  statement : String
  deriving DecidableEq, Repr

/-- `type Result struct` (lines 201–205); its `Data` only ever holds strings, and its `Error` is
    `nil` or a message. -/
structure Result where
  queryID : String
  data : List String
  error : Option String
  deriving DecidableEq, Repr

/-- `type Node struct` (lines 208–211). -/
structure Node where
  id : String
  addr : String
  deriving DecidableEq, Repr

/-- The `Result` that `sendQueryToNode` simulates for `node` (lines 266–269). -/
def nodeResult (node : Node) (query : Query) : Result :=
  ⟨query.id, ["Result from node " ++ node.id], none⟩

/-- Where the goroutine of `ExecuteQuery` for one node is. -/
inductive NodeStatus where
  /-- In the `select` of `sendQueryToNode` (lines 273–280); `answered` once the simulated
      result is on its channel. -/
  | waiting (answered : Bool)
  /-- It has sent the result of `sendQueryToNode` on `resultChan` and called `wg.Done()`. -/
  | done
  deriving DecidableEq, Repr

/-- How the call of `ExecuteQuery` stands. -/
inductive Outcome where
  | running
  /-- `ExecuteQuery` returned `aggregatedResult, nil`. -/
  | returned
  /-- `ExecuteQuery` returned `nil` and this error. -/
  | failed (err : String)
  /-- The program panicked with this message. -/
  | panicked (msg : String)
  deriving DecidableEq, Repr

/-- The Go runtime's message for reading a field through a `nil` pointer. -/
def nilDereference : String := "runtime error: invalid memory address or nil pointer dereference"

/-- The Go runtime's message for `node.ID[0]` of an empty `ID`. -/
def indexOutOfRange : String := "runtime error: index out of range [0] with length 0"

/-- A call of `ExecuteQuery(ctx, query)` on the nodes `nodes`, and its goroutines. -/
structure State where
  nodes : List Node
  query : Query
  /-- `ctx.Done()` is closed. -/
  ctxDone : Bool
  /-- The goroutine of each node. -/
  status : List NodeStatus
  /-- `resultChan`, oldest first; `none` is a `nil` result. -/
  resultChan : List (Option Result)
  closed : Bool
  /-- `aggregatedResult.Data`. -/
  aggregated : List String
  outcome : Outcome
  deriving DecidableEq, Repr

/-- The `aggregatedResult` that `ExecuteQuery` returns (lines 246 and 256). -/
def State.result (s : State) : Result := ⟨s.query.id, s.aggregated, none⟩

/-- An event of a call of `ExecuteQuery`. -/
inductive Event where
  /-- The context is cancelled. -/
  | cancel
  /-- The goroutine of `sendQueryToNode` for node `i` sends the simulated result
      (lines 265–271). -/
  | answer (i : Nat)
  /-- The `select` of node `i` takes `<-ctx.Done()` and returns `nil` (lines 274–277); its
      goroutine sends the `nil` on `resultChan` (line 236). -/
  | selectDone (i : Nat)
  /-- The `select` of node `i` takes the result (lines 278–279); its goroutine sends it on
      `resultChan`. -/
  | selectResult (i : Nat)
  /-- `wg.Wait()` returns and `close(resultChan)` (lines 240–243). -/
  | close
  /-- One turn of `for res := range resultChan` (lines 247–253). -/
  | receive
  deriving DecidableEq, Repr

/-- `ExecuteQuery(ctx, query)` (lines 225–257) once it has started its goroutines: each node's
    goroutine is in its `select` and nothing has answered. With no nodes it returns an
    error at once (lines 226–228). -/
def executeQuery (nodes : List Node) (query : Query) : State where
  nodes := nodes
  query := query
  ctxDone := false
  status := nodes.map fun _ => .waiting false
  resultChan := []
  closed := false
  aggregated := []
  outcome := if nodes.length = 0 then .failed "no nodes available for processing" else .running

/-- Node `i`'s goroutine sends `res` on `resultChan` and calls `wg.Done()` (lines 234–236). -/
def State.send (s : State) (i : Nat) (res : Option Result) : State :=
  { s with status := s.status.set i .done, resultChan := s.resultChan ++ [res] }

/-- One event while `ExecuteQuery` runs; `none` where the event cannot happen. -/
def State.stepRunning (s : State) : Event → Option State
  | .cancel => some { s with ctxDone := true }
  | .answer i =>
    match s.status[i]?, s.nodes[i]? with
    | some (.waiting false), some node =>
      if node.id.length = 0 then some { s with outcome := .panicked indexOutOfRange }
      else some { s with status := s.status.set i (.waiting true) }
    | _, _ => none
  | .selectDone i =>
    match s.status[i]? with
    | some (.waiting _) => if s.ctxDone then some (s.send i none) else none
    | _ => none
  | .selectResult i =>
    match s.status[i]?, s.nodes[i]? with
    | some (.waiting true), some node => some (s.send i (some (nodeResult node s.query)))
    | _, _ => none
  | .close => if s.status.all (· == .done) && !s.closed then some { s with closed := true } else none
  | .receive =>
    match s.resultChan with
    | none :: rest => some { s with resultChan := rest, outcome := .panicked nilDereference }
    | some res :: rest =>
      some { s with resultChan := rest,
                    aggregated := if res.error.isSome then s.aggregated else s.aggregated ++ res.data }
    | [] => if s.closed then some { s with outcome := .returned } else none

/-- One event; nothing happens once `ExecuteQuery` has returned or the program panicked. -/
def State.step (s : State) (e : Event) : Option State :=
  if s.outcome = .running then s.stepRunning e else none

/-- The events `events` in turn from `s`. -/
def run (s : State) (events : List Event) : Option State := events.foldlM State.step s

/-- The three nodes of `main()` (lines 365–369). -/
def mainNodes : List Node :=
  [⟨"1", "192.168.1.1"⟩, ⟨"2", "192.168.1.2"⟩, ⟨"3", "192.168.1.3"⟩]

/-- The first query of `main()` (line 379). -/
def mainQuery : Query := ⟨"q1", "SELECT * FROM users"⟩

/-- A run of `main()`'s first query in which node `3` answers first and node `2` last. -/
def answersOutOfOrder : List Event :=
  [.answer 2, .answer 0, .selectResult 2, .selectResult 0, .answer 1, .selectResult 1, .close,
    .receive, .receive, .receive, .receive]

example : ((run (executeQuery mainNodes mainQuery) answersOutOfOrder).map
    fun s => (s.outcome, s.aggregated)) =
    some (.returned, ["Result from node 3", "Result from node 1", "Result from node 2"]) := by
  decide

/-- **`ExecuteQuery` dereferences `nil`.** On every non-empty list of nodes and every query:
    the context is cancelled, the first node's `select` takes `<-ctx.Done()` and its
    goroutine sends `nil` on `resultChan`, and the loop reads `res.Error` of that `nil`. -/
theorem executeQuery_dereferences_nil (nodes : List Node) (query : Query) (h : nodes ≠ []) :
    ∃ s, run (executeQuery nodes query) [.cancel, .selectDone 0, .receive] = some s ∧
      s.outcome = .panicked nilDereference := by
  obtain ⟨node, rest, rfl⟩ := List.exists_cons_of_ne_nil h
  simp [run, executeQuery, State.step, State.stepRunning, State.send]

theorem executeQuery_dereferences_nil_mainNodes : mainNodes ≠ [] ∧
    ∃ s, run (executeQuery mainNodes mainQuery) [.cancel, .selectDone 0, .receive] = some s ∧
      s.outcome = .panicked nilDereference :=
  ⟨by decide, executeQuery_dereferences_nil mainNodes mainQuery (by decide)⟩

/-! ## What one event does -/

/-- **What one event can do**, guards included. -/
theorem step_cases {s s' : State} {e : Event} (h : s.step e = some s') :
    s.outcome = .running ∧
    ((e = .cancel ∧ s' = { s with ctxDone := true }) ∨
     (∃ i node, e = .answer i ∧ s.status[i]? = some (.waiting false) ∧ s.nodes[i]? = some node ∧
        (node.id.length = 0 ∧ s' = { s with outcome := .panicked indexOutOfRange } ∨
          node.id.length ≠ 0 ∧ s' = { s with status := s.status.set i (.waiting true) })) ∨
     (∃ i answered, e = .selectDone i ∧ s.status[i]? = some (.waiting answered) ∧
        s.ctxDone = true ∧ s' = s.send i none) ∨
     (∃ i node, e = .selectResult i ∧ s.status[i]? = some (.waiting true) ∧
        s.nodes[i]? = some node ∧ s' = s.send i (some (nodeResult node s.query))) ∨
     (e = .close ∧ s.status.all (· == .done) = true ∧ s.closed = false ∧
        s' = { s with closed := true }) ∨
     (∃ rest, e = .receive ∧ s.resultChan = none :: rest ∧
        s' = { s with resultChan := rest, outcome := .panicked nilDereference }) ∨
     (∃ res rest, e = .receive ∧ s.resultChan = some res :: rest ∧
        s' = { s with resultChan := rest,
                      aggregated := if res.error.isSome then s.aggregated else s.aggregated ++ res.data }) ∨
     (e = .receive ∧ s.resultChan = [] ∧ s.closed = true ∧ s' = { s with outcome := .returned })) := by
  unfold State.step at h
  split_ifs at h with hr
  refine ⟨hr, ?_⟩
  cases e with
  | cancel => exact .inl ⟨rfl, (Option.some.inj h).symm⟩
  | answer i =>
    simp only [State.stepRunning] at h
    split at h
    · rename_i node hst hnd
      refine .inr (.inl ⟨i, node, rfl, hst, hnd, ?_⟩)
      split_ifs at h with hid
      · exact .inl ⟨hid, (Option.some.inj h).symm⟩
      · exact .inr ⟨hid, (Option.some.inj h).symm⟩
    · cases h
  | selectDone i =>
    simp only [State.stepRunning] at h
    split at h
    · rename_i answered hst
      split_ifs at h with hd
      exact .inr (.inr (.inl ⟨i, answered, rfl, hst, hd, (Option.some.inj h).symm⟩))
    · cases h
  | selectResult i =>
    simp only [State.stepRunning] at h
    split at h
    · rename_i node hst hnd
      exact .inr (.inr (.inr (.inl ⟨i, node, rfl, hst, hnd, (Option.some.inj h).symm⟩)))
    · cases h
  | close =>
    simp only [State.stepRunning, Bool.and_eq_true, Bool.not_eq_true'] at h
    split_ifs at h with hc
    exact .inr (.inr (.inr (.inr (.inl ⟨rfl, hc.1, hc.2, (Option.some.inj h).symm⟩))))
  | receive =>
    simp only [State.stepRunning] at h
    split at h
    · rename_i rest hq
      exact .inr (.inr (.inr (.inr (.inr (.inl ⟨rest, rfl, hq, (Option.some.inj h).symm⟩)))))
    · rename_i res rest hq
      exact .inr (.inr (.inr (.inr (.inr (.inr (.inl ⟨res, rest, rfl, hq, (Option.some.inj h).symm⟩))))))
    · rename_i hq
      split_ifs at h with hc
      exact .inr (.inr (.inr (.inr (.inr (.inr (.inr ⟨rfl, hq, hc, (Option.some.inj h).symm⟩))))))

/-! ## Without a cancellation no `nil` is dereferenced -/

/-- While the context is not cancelled, `resultChan` holds no `nil`, and no `nil` was
    dereferenced. -/
def NoNil (s : State) : Prop :=
  s.ctxDone = false → none ∉ s.resultChan ∧ s.outcome ≠ .panicked nilDereference

theorem noNil_executeQuery (nodes : List Node) (query : Query) : NoNil (executeQuery nodes query) := by
  intro _
  refine ⟨List.not_mem_nil _, ?_⟩
  simp only [executeQuery]
  split_ifs <;> simp

theorem NoNil.step {s s' : State} {e : Event} (h : NoNil s) (hs : s.step e = some s') : NoNil s' := by
  obtain ⟨-, hcase⟩ := step_cases hs
  rcases hcase with ⟨-, rfl⟩ | ⟨i, node, -, -, -, ⟨-, rfl⟩ | ⟨-, rfl⟩⟩ | ⟨i, b, -, -, hd, rfl⟩ |
    ⟨i, node, -, -, -, rfl⟩ | ⟨-, -, -, rfl⟩ | ⟨rest, -, hq, rfl⟩ | ⟨res, rest, -, hq, rfl⟩ |
    ⟨-, -, -, rfl⟩
  -- `cancel`
  · exact fun hc => absurd hc (by simp)
  -- `answer`: a panic on an empty `ID`, or the answer on its channel
  · exact fun hc => ⟨(h hc).1, by simp [nilDereference, indexOutOfRange]⟩
  · exact h
  -- `selectDone` only once the context is cancelled
  · intro hc; simp [State.send, hd] at hc
  -- `selectResult` sends a result
  · intro hc; simpa [State.send] using h hc
  -- `close`
  · exact h
  -- `receive` of a `nil`, of a result, and the end of the loop
  · intro hc; exact absurd (hq ▸ List.mem_cons_self _ _) (h hc).1
  · intro hc; exact ⟨fun hn => (h hc).1 (hq ▸ List.mem_cons_of_mem _ hn), (h hc).2⟩
  · intro hc; exact ⟨(h hc).1, by simp⟩

/-- Only a cancellation cancels the context. -/
theorem ctxDone_step {s s' : State} {e : Event} (he : e ≠ .cancel) (hs : s.step e = some s') :
    s'.ctxDone = s.ctxDone := by
  obtain ⟨-, hcase⟩ := step_cases hs
  rcases hcase with ⟨rfl, -⟩ | ⟨_, _, -, -, -, ⟨-, rfl⟩ | ⟨-, rfl⟩⟩ | ⟨_, _, -, -, -, rfl⟩ |
    ⟨_, _, -, -, -, rfl⟩ | ⟨-, -, -, rfl⟩ | ⟨_, -, -, rfl⟩ | ⟨_, _, -, -, rfl⟩ | ⟨-, -, -, rfl⟩
  · exact absurd rfl he
  all_goals rfl

@[simp] theorem run_nil (s : State) : run s [] = some s := rfl

theorem run_cons (s : State) (e : Event) (events : List Event) :
    run s (e :: events) = (s.step e).bind fun s' => run s' events := rfl

theorem NoNil.run {s s' : State} {events : List Event} (h : NoNil s)
    (hs : Distributed.run s events = some s') : NoNil s' := by
  induction events generalizing s with
  | nil => exact Option.some.inj hs ▸ h
  | cons e events ih =>
    obtain ⟨s₁, h₁, h₂⟩ := Option.bind_eq_some.mp ((run_cons s e events).symm.trans hs)
    exact ih (h.step h₁) h₂

theorem ctxDone_run {s s' : State} {events : List Event} (hcancel : Event.cancel ∉ events)
    (hs : run s events = some s') : s'.ctxDone = s.ctxDone := by
  induction events generalizing s with
  | nil => exact Option.some.inj hs ▸ rfl
  | cons e events ih =>
    obtain ⟨s₁, h₁, h₂⟩ := Option.bind_eq_some.mp ((run_cons s e events).symm.trans hs)
    rw [List.mem_cons, not_or] at hcancel
    exact (ih hcancel.2 h₂).trans (ctxDone_step (Ne.symm hcancel.1) h₁)

/-- **No `nil` is dereferenced unless the context is cancelled.** In every run of
    `ExecuteQuery` on any nodes and query in which the context is not cancelled, the loop never
    reads `res.Error` of a `nil` result. -/
theorem run_ne_nilDereference (nodes : List Node) (query : Query) (events : List Event)
    (hcancel : Event.cancel ∉ events) {s : State} (hs : run (executeQuery nodes query) events = some s) :
    s.outcome ≠ .panicked nilDereference :=
  ((noNil_executeQuery nodes query).run hs ((ctxDone_run hcancel hs).trans rfl)).2

theorem run_ne_nilDereference_answersOutOfOrder : Event.cancel ∉ answersOutOfOrder ∧
    ∃ s, run (executeQuery mainNodes mainQuery) answersOutOfOrder = some s ∧
      s.outcome ≠ .panicked nilDereference := by
  obtain ⟨s, hs⟩ : ∃ s, run (executeQuery mainNodes mainQuery) answersOutOfOrder = some s := ⟨_, rfl⟩
  exact ⟨by decide, s, hs, run_ne_nilDereference mainNodes mainQuery answersOutOfOrder (by decide) hs⟩

/-! ## Without a cancellation every node's data comes back -/

/-- The call once the goroutines of the first `k` nodes have sent their results, in order. -/
def sentFirst (nodes : List Node) (query : Query) (k : Nat) : State :=
  { executeQuery nodes query with
    status := (List.range nodes.length).map fun j => if j < k then .done else .waiting false
    resultChan := (nodes.take k).map fun node => some (nodeResult node query) }

/-- Each node in turn answers, and its `select` takes the answer. -/
def answerInOrder (n : Nat) : List Event :=
  (List.range n).flatMap fun i => [.answer i, .selectResult i]

theorem run_append (s : State) (l₁ l₂ : List Event) :
    run s (l₁ ++ l₂) = (run s l₁).bind fun s' => run s' l₂ := by
  simp only [run, List.foldlM_append]; rfl

theorem sentFirst_zero (nodes : List Node) (query : Query) :
    sentFirst nodes query 0 = executeQuery nodes query := by
  simp only [sentFirst, executeQuery, Nat.not_lt_zero, if_false, List.take_zero, List.map_nil,
    List.map_const', List.length_range]

theorem status_sentFirst (nodes : List Node) (query : Query) (k j : Nat) :
    (sentFirst nodes query k).status[j]? =
      if j < nodes.length then some (if j < k then .done else .waiting false) else none := by
  simp only [sentFirst, List.getElem?_map]
  by_cases hj : j < nodes.length
  · rw [List.getElem?_range hj, if_pos hj]; rfl
  · rw [List.getElem?_eq_none (by simpa using Nat.le_of_not_lt hj), if_neg hj]; rfl

theorem outcome_sentFirst {nodes : List Node} (query : Query) (k : Nat) (hne : nodes.length ≠ 0) :
    (sentFirst nodes query k).outcome = .running := by
  simp [sentFirst, executeQuery, hne]

theorem status_sentFirst_succ (nodes : List Node) (query : Query) {k : Nat} (hk : k < nodes.length) :
    (sentFirst nodes query k).status.set k .done = (sentFirst nodes query (k + 1)).status := by
  apply List.ext_getElem?
  intro j
  rw [List.getElem?_set, status_sentFirst, status_sentFirst]
  simp only [sentFirst, List.length_map, List.length_range]
  split_ifs <;> first | rfl | omega

theorem resultChan_sentFirst_succ (nodes : List Node) (query : Query) {k : Nat} (hk : k < nodes.length) :
    (sentFirst nodes query k).resultChan ++ [some (nodeResult nodes[k] query)] =
      (sentFirst nodes query (k + 1)).resultChan := by
  show (nodes.take k).map _ ++ _ = (nodes.take (k + 1)).map _
  rw [List.take_succ, List.getElem?_eq_getElem hk, List.map_append]
  rfl

/-- Node `k` answers and its `select` takes the answer. -/
theorem run_answer_selectResult {nodes : List Node} {query : Query} (hne : nodes.length ≠ 0)
    (hid : ∀ node ∈ nodes, node.id.length ≠ 0) {k : Nat} (hk : k < nodes.length) :
    run (sentFirst nodes query k) [.answer k, .selectResult k] = some (sentFirst nodes query (k + 1)) := by
  have hnode : (sentFirst nodes query k).nodes[k]? = some nodes[k] := List.getElem?_eq_getElem hk
  have hst : (sentFirst nodes query k).status[k]? = some (.waiting false) := by
    rw [status_sentFirst, if_pos hk, if_neg (Nat.lt_irrefl k)]
  rw [run_cons, State.step, if_pos (outcome_sentFirst query k hne)]
  simp only [State.stepRunning, hst, hnode, hid _ (List.getElem_mem hk), if_false, Option.some_bind,
    run_cons, State.step, if_pos (outcome_sentFirst query k hne), List.getElem?_set_self',
    Option.map_eq_map, Option.map_some', Function.const_apply, run_nil, State.send]
  have hq : (sentFirst nodes query k).query = query := rfl
  rw [List.set_set, status_sentFirst_succ nodes query hk, hq, resultChan_sentFirst_succ nodes query hk]
  rfl

/-- After the first `k` nodes in order, the goroutines of those nodes have sent their results. -/
theorem run_answerInOrder {nodes : List Node} {query : Query} (hne : nodes.length ≠ 0)
    (hid : ∀ node ∈ nodes, node.id.length ≠ 0) {k : Nat} (hk : k ≤ nodes.length) :
    run (executeQuery nodes query) (answerInOrder k) = some (sentFirst nodes query k) := by
  induction k with
  | zero => exact congrArg some (sentFirst_zero nodes query).symm
  | succ k ih =>
    rw [answerInOrder, List.range_succ, List.flatMap_append, ← answerInOrder, run_append,
      ih (Nat.le_of_succ_le hk), Option.some_bind]
    exact run_answer_selectResult hne hid hk

/-- Once every node's goroutine is done, `close(resultChan)`. -/
theorem run_sentFirst_close {nodes : List Node} {query : Query} (hne : nodes.length ≠ 0) :
    run (sentFirst nodes query nodes.length) [.close] =
      some { sentFirst nodes query nodes.length with closed := true } := by
  have hall : (sentFirst nodes query nodes.length).status.all (· == .done) = true := by
    refine List.all_eq_true.mpr fun x hx => ?_
    obtain ⟨j, hj, rfl⟩ := List.mem_map.mp hx
    simp [List.mem_range.mp hj]
  have hopen : (sentFirst nodes query nodes.length).closed = false := rfl
  rw [run_cons, State.step, if_pos (outcome_sentFirst query _ hne)]
  simp only [State.stepRunning, hall, hopen, Bool.not_false, Bool.and_self, if_true,
    Option.some_bind, run_nil]

/-- Draining a closed `resultChan` of results without an error: one turn of the `range` loop per
    result and one for the close. -/
theorem run_receive_drain (rs : List Result) (herr : ∀ r ∈ rs, r.error = none) {s : State}
    (hrun : s.outcome = .running) (hclosed : s.closed = true) (hchan : s.resultChan = rs.map some) :
    run s (List.replicate (rs.length + 1) .receive) =
      some { s with resultChan := [], aggregated := s.aggregated ++ rs.flatMap Result.data,
                    outcome := .returned } := by
  induction rs generalizing s with
  | nil =>
    rw [List.map_nil] at hchan
    simp [run, State.step, State.stepRunning, hrun, hchan, hclosed]
  | cons r rs ih =>
    rw [List.length_cons, List.replicate_succ, run_cons, State.step, if_pos hrun]
    simp only [State.stepRunning, hchan, List.map_cons, herr r (List.mem_cons_self r rs),
      Option.isSome_none, Bool.false_eq_true, if_false, Option.some_bind]
    rw [ih (fun r' h => herr r' (List.mem_cons_of_mem r h))
      (s := { s with resultChan := rs.map some, aggregated := s.aggregated ++ r.data }) hrun hclosed rfl]
    simp [List.append_assoc]

/-- **Without a cancellation every node's data comes back.** On any non-empty list of nodes
    with non-empty ids, when each node in turn answers before the context is cancelled,
    `ExecuteQuery` returns the result of every node, in the order of the nodes. -/
theorem executeQuery_returns_every_node (nodes : List Node) (query : Query) (hne : nodes ≠ [])
    (hid : ∀ node ∈ nodes, node.id ≠ "") :
    ∃ s, run (executeQuery nodes query)
        (answerInOrder nodes.length ++ .close :: List.replicate (nodes.length + 1) .receive) = some s ∧
      s.outcome = .returned ∧
      s.result = ⟨query.id, nodes.map fun node => "Result from node " ++ node.id, none⟩ := by
  have hlen : nodes.length ≠ 0 := fun h => hne (List.eq_nil_of_length_eq_zero h)
  have hid' : ∀ node ∈ nodes, node.id.length ≠ 0 := fun node h h0 =>
    hid node h (String.ext (List.eq_nil_of_length_eq_zero h0))
  have hdrain := run_receive_drain (nodes.map (nodeResult · query)) (by simp [nodeResult])
    (s := { sentFirst nodes query nodes.length with closed := true })
    (outcome_sentFirst query nodes.length hlen) rfl (by simp [sentFirst])
  rw [List.length_map] at hdrain
  rw [run_append, run_answerInOrder hlen hid' le_rfl, Option.some_bind, ← List.singleton_append,
    run_append, run_sentFirst_close hlen, Option.some_bind, hdrain]
  exact ⟨_, rfl, rfl, by
    simp [State.result, sentFirst, executeQuery, nodeResult, List.flatMap_map, ← List.map_eq_flatMap]⟩

theorem executeQuery_returns_every_node_mainNodes : mainNodes ≠ [] ∧ (∀ node ∈ mainNodes, node.id ≠ "") ∧
    ∃ s, run (executeQuery mainNodes mainQuery)
        (answerInOrder 3 ++ .close :: List.replicate 4 .receive) = some s ∧
      s.outcome = .returned ∧
      s.result = ⟨"q1", ["Result from node 1", "Result from node 2", "Result from node 3"], none⟩ :=
  ⟨by decide, by decide, executeQuery_returns_every_node mainNodes mainQuery (by decide) (by decide)⟩

end HpDb.Query.Distributed
