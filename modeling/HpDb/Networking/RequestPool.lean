import Mathlib.Data.List.Basic

/-!
# A thread pool behind a round-robin load balancer (networking/tests/networking_tests.go, lines 346–467)

The second C++ program of the file. `main` starts three threads running `handleRequests`,
adds the requests `1`, …, `10` to a `RequestQueue`, and then stops the queue. Each thread takes
the next request with `getNextRequest`, which waits until the queue holds a request or is
stopped and returns `-1` once it is stopped and empty; the thread then asks the
`LoadBalancer` for the next server, round robin, and has that server process the request.

Every locked section of `LoadBalancer` and `RequestQueue` is one step, and a run is any
interleaving of the steps of `main` and of the threads. `main` adds its requests in order and
then stops the queue. A thread at `getNextRequest` can step only when the queue holds a
request or is stopped, which is when `cv.wait` lets it go on. `processRequest` only prints and
sleeps: it is recorded as the pair of the server and the request it is called with, in
`processed`. `servers[currentIndex]` out of range is `none`. The ghost field `served` lists
the servers `getNextServer` has returned, in order.

Results:
* `run_processes_each_request_once`: with at least one server and one thread, and no request
  `-1`, in every interleaving
  * no request is processed twice, and only requests of `main` are;
  * every run stops within `4 * requests + threads + 1` steps;
  * a run that cannot go on has processed every request exactly once, and every thread has
    left its loop.
* `run_round_robin`: in every interleaving the servers `getNextServer` returns are
  `servers[0]`, `servers[1]`, … in turn.
-/

namespace HpDb.Networking.RequestPool

/-- `class Server` (lines 354–364). -/
structure Server where
  id : Int
  name : String
  deriving DecidableEq, Repr

/-- `class LoadBalancer` (lines 366–381). `currentIndex` is an `int` that the code keeps below
    `servers.size()`. -/
structure LoadBalancer where
  servers : List Server
  currentIndex : Nat
  deriving DecidableEq, Repr

/-- `LoadBalancer::getNextServer` (lines 375–380). -/
def LoadBalancer.getNextServer (lb : LoadBalancer) : Option (Server × LoadBalancer) :=
  lb.servers[lb.currentIndex]?.map fun server =>
    (server, { lb with currentIndex := (lb.currentIndex + 1) % lb.servers.length })

/-- `class RequestQueue` (lines 383–421). -/
structure RequestQueue where
  requestQueue : List Int
  stopped : Bool
  deriving DecidableEq, Repr

namespace RequestQueue

/-- `RequestQueue()` (line 391). -/
def new : RequestQueue := ⟨[], false⟩

/-- `RequestQueue::addRequest` (lines 393–399). -/
def addRequest (q : RequestQueue) (requestId : Int) : RequestQueue :=
  { q with requestQueue := q.requestQueue ++ [requestId] }

/-- `RequestQueue::getNextRequest` (lines 401–412) once `cv.wait` returns; `none` while the
    queue is empty and not stopped, when the caller waits. -/
def getNextRequest (q : RequestQueue) : Option (Int × RequestQueue) :=
  match q.requestQueue with
  | requestId :: rest => some (requestId, { q with requestQueue := rest })
  | [] => if q.stopped then some (-1, q) else none

/-- `RequestQueue::stop` (lines 414–420). -/
def stop (q : RequestQueue) : RequestQueue := { q with stopped := true }

end RequestQueue

/-- Where a thread of the pool is in `handleRequests` (lines 423–431). -/
inductive Worker where
  /-- At `requestQueue.getNextRequest()`. -/
  | waiting
  /-- At `lb.getNextServer()`, holding a request. -/
  | balancing (requestId : Int)
  /-- At `server.processRequest(requestId)`. -/
  | processing (requestId : Int) (server : Server)
  /-- Out of the loop. -/
  | finished
  deriving DecidableEq, Repr

/-- The program: the load balancer, the queue, the requests `main` has still to add, the
    threads, the calls of `processRequest` so far, and the servers handed out (ghost). -/
structure Pool where
  lb : LoadBalancer
  queue : RequestQueue
  toAdd : List Int
  workers : List Worker
  processed : List (Server × Int)
  served : List Server
  deriving DecidableEq, Repr

/-- A step of `main` or of one thread. -/
inductive Event where
  | addRequest
  | stop
  | worker (w : Nat)
  deriving DecidableEq, Repr

namespace Pool

/-- `main` with `threads` threads that it has started, before the loop of line 454 adds
    `requests` to the queue. -/
def init (servers : List Server) (threads : Nat) (requests : List Int) : Pool :=
  ⟨⟨servers, 0⟩, .new, requests, List.replicate threads .waiting, [], []⟩

/-- `requestQueue.addRequest(i)` of the loop of lines 454–457. -/
def addRequest (p : Pool) : Option Pool :=
  match p.toAdd with
  | requestId :: rest => some { p with queue := p.queue.addRequest requestId, toAdd := rest }
  | [] => none

/-- `requestQueue.stop()` (line 460), after the loop. -/
def stop (p : Pool) : Option Pool :=
  if p.toAdd = [] ∧ p.queue.stopped = false then some { p with queue := p.queue.stop } else none

/-- The next step of a thread at `state`; `none` when it waits or has left the loop, and when
    `getNextServer` reads out of range. -/
def threadStep (p : Pool) : Worker → Option (Worker × Pool)
  | .waiting => p.queue.getNextRequest.map fun r =>
      (if r.1 = -1 then .finished else .balancing r.1, { p with queue := r.2 })
  | .balancing requestId => p.lb.getNextServer.map fun r =>
      (.processing requestId r.1, { p with lb := r.2, served := p.served ++ [r.1] })
  | .processing requestId server =>
      some (.waiting, { p with processed := p.processed ++ [(server, requestId)] })
  | .finished => none

/-- The next step of thread `w`. -/
def worker (p : Pool) (w : Nat) : Option Pool := do
  let state ← p.workers[w]?
  let r ← p.threadStep state
  pure { r.2 with workers := p.workers.set w r.1 }

def step (p : Pool) : Event → Option Pool
  | .addRequest => p.addRequest
  | .stop => p.stop
  | .worker w => p.worker w

/-- The steps in turn. -/
def run (p : Pool) (events : List Event) : Option Pool := events.foldlM step p

end Pool

/-! ## Counting along lists whose one element changes -/

section SetLemmas

variable {α : Type}

theorem foldr_add_set (f : α → Nat) {a : α} (b : α) : ∀ (l : List α) (w : Nat), l[w]? = some a →
    (l.set w b).foldr (fun x n => f x + n) 0 + f a = l.foldr (fun x n => f x + n) 0 + f b
  | [], _, h => by simp at h
  | c :: l, 0, h => by
    simp only [List.getElem?_cons_zero, Option.some.injEq] at h
    subst h
    simp only [List.set_cons_zero, List.foldr_cons]
    omega
  | c :: l, w + 1, h => by
    rw [List.getElem?_cons_succ] at h
    have := foldr_add_set f b l w h
    simp only [List.set_cons_succ, List.foldr_cons]
    omega

theorem count_flatMap_set (g : α → List Int) (x : Int) {a : α} (b : α) :
    ∀ (l : List α) (w : Nat), l[w]? = some a →
      ((l.set w b).flatMap g).count x + (g a).count x = (l.flatMap g).count x + (g b).count x
  | [], _, h => by simp at h
  | c :: l, 0, h => by
    simp only [List.getElem?_cons_zero, Option.some.injEq] at h
    subst h
    simp only [List.set_cons_zero, List.flatMap_cons, List.count_append]
    omega
  | c :: l, w + 1, h => by
    rw [List.getElem?_cons_succ] at h
    have := count_flatMap_set g x b l w h
    simp only [List.set_cons_succ, List.flatMap_cons, List.count_append]
    omega

end SetLemmas

/-! ## What every interleaving keeps -/

/-- The request a thread has taken and not yet had processed. -/
def Worker.holding : Worker → List Int
  | .balancing requestId => [requestId]
  | .processing requestId _ => [requestId]
  | _ => []

/-- Every request `main` has added, once: processed, held by a thread, or in the queue. -/
def Pool.inFlight (p : Pool) : List Int :=
  p.processed.map (·.2) ++ p.workers.flatMap Worker.holding ++ p.queue.requestQueue

/-- The load balancer of the program started with `servers` has handed them out in turn. -/
structure Balanced (servers : List Server) (p : Pool) : Prop where
  lb : p.lb.servers = servers
  currentIndex : p.lb.currentIndex = p.served.length % servers.length
  served : ∀ j < p.served.length, p.served[j]? = servers[j % servers.length]?

/-- The requests of the program started with `threads` threads and `requests`: each added one
    is in flight once, nothing is added after the queue is stopped, and a thread leaves its
    loop only on a stopped and empty queue. -/
structure Inv (threads : Nat) (requests : List Int) (p : Pool) : Prop where
  workers : p.workers.length = threads
  added : ∃ added, requests = added ++ p.toAdd ∧ p.inFlight.Perm added
  stopped : p.queue.stopped = true → p.toAdd = []
  finished : Worker.finished ∈ p.workers → p.queue.requestQueue = [] ∧ p.queue.stopped = true

theorem balanced_init (servers : List Server) (threads : Nat) (requests : List Int) :
    Balanced servers (.init servers threads requests) :=
  ⟨rfl, by simp [Pool.init], by simp [Pool.init]⟩

theorem inv_init (servers : List Server) (threads : Nat) (requests : List Int) :
    Inv threads requests (.init servers threads requests) where
  workers := List.length_replicate _ _
  added := ⟨[], by simp [Pool.init], by
    simp [Pool.init, Pool.inFlight, RequestQueue.new, Worker.holding, List.flatMap_replicate]⟩
  stopped := by simp [Pool.init, RequestQueue.new]
  finished := by simp [Pool.init]

/-- What one step does, said once: each event's guard and effect. -/
theorem step_cases {p p' : Pool} {e : Event} (h : p.step e = some p') :
    (∃ requestId rest, p.toAdd = requestId :: rest ∧
      p' = { p with queue := p.queue.addRequest requestId, toAdd := rest }) ∨
    (p.toAdd = [] ∧ p.queue.stopped = false ∧ p' = { p with queue := p.queue.stop }) ∨
    (∃ w state, p.workers[w]? = some state ∧ ∃ r, p.threadStep state = some r ∧
      p' = { r.2 with workers := p.workers.set w r.1 }) := by
  cases e with
  | addRequest =>
    rw [Pool.step, Pool.addRequest] at h
    split at h
    · exact .inl ⟨_, _, ‹_›, (Option.some.inj h).symm⟩
    · cases h
  | stop =>
    rw [Pool.step, Pool.stop] at h
    split at h
    · exact .inr (.inl ⟨‹_ ∧ _›.1, ‹_ ∧ _›.2, (Option.some.inj h).symm⟩)
    · cases h
  | worker w =>
    simp only [Pool.step, Pool.worker, Option.bind_eq_bind, Option.bind_eq_some, Option.pure_def,
      Option.some.injEq] at h
    obtain ⟨state, hs, r, hr, rfl⟩ := h
    exact .inr (.inr ⟨w, state, hs, r, hr, rfl⟩)

/-- What one step of a thread does. -/
theorem threadStep_cases {p : Pool} {state : Worker} {r : Worker × Pool}
    (h : p.threadStep state = some r) :
    (state = .waiting ∧ ∃ requestId rest, p.queue.requestQueue = requestId :: rest ∧
      r = (if requestId = -1 then .finished else .balancing requestId,
        { p with queue := { p.queue with requestQueue := rest } })) ∨
    (state = .waiting ∧ p.queue.requestQueue = [] ∧ p.queue.stopped = true ∧ r = (.finished, p)) ∨
    (∃ requestId, state = .balancing requestId ∧ ∃ server,
      p.lb.servers[p.lb.currentIndex]? = some server ∧
      r = (.processing requestId server,
        { p with lb := { p.lb with currentIndex := (p.lb.currentIndex + 1) % p.lb.servers.length },
                 served := p.served ++ [server] })) ∨
    (∃ requestId server, state = .processing requestId server ∧
      r = (.waiting, { p with processed := p.processed ++ [(server, requestId)] })) := by
  cases state with
  | waiting =>
    simp only [Pool.threadStep, RequestQueue.getNextRequest, Option.map_eq_some'] at h
    obtain ⟨q, hq, rfl⟩ := h
    split at hq
    · cases hq
      exact .inl ⟨rfl, _, _, ‹_›, rfl⟩
    · split at hq
      · cases hq
        exact .inr (.inl ⟨rfl, ‹_›, ‹_›, rfl⟩)
      · cases hq
  | balancing requestId =>
    simp only [Pool.threadStep, LoadBalancer.getNextServer, Option.map_map, Option.map_eq_some',
      Function.comp_def] at h
    obtain ⟨server, hs, rfl⟩ := h
    exact .inr (.inr (.inl ⟨requestId, rfl, server, hs, rfl⟩))
  | processing requestId server =>
    exact .inr (.inr (.inr ⟨requestId, server, rfl, (Option.some.inj h).symm⟩))
  | finished => cases h

theorem mem_of_mem_set {α : Type} {l : List α} {w : Nat} {b x : α} (h : x ∈ l.set w b) (hx : x ≠ b) :
    x ∈ l := by
  obtain ⟨n, hn⟩ := List.mem_iff_getElem?.mp h
  rw [List.getElem?_set] at hn
  split_ifs at hn with hwn
  · exact absurd (Option.some.inj hn).symm hx
  · exact List.getElem?_mem hn

/-! ## The round robin -/

theorem Balanced.step {servers : List Server} {p p' : Pool} {e : Event} (h : Balanced servers p)
    (hstep : p.step e = some p') : Balanced servers p' := by
  rcases step_cases hstep with ⟨_, _, -, rfl⟩ | ⟨-, -, rfl⟩ | ⟨w, state, -, r, hr, rfl⟩
  · exact ⟨h.lb, h.currentIndex, h.served⟩
  · exact ⟨h.lb, h.currentIndex, h.served⟩
  rcases threadStep_cases hr with ⟨-, _, _, -, rfl⟩ | ⟨-, -, -, rfl⟩ | ⟨_, -, server, hs, rfl⟩ |
    ⟨_, _, -, rfl⟩
  · exact ⟨h.lb, h.currentIndex, h.served⟩
  · exact ⟨h.lb, h.currentIndex, h.served⟩
  · refine ⟨h.lb, ?_, fun j hj => ?_⟩
    · simp only [List.length_append, List.length_singleton, h.lb, h.currentIndex, Nat.mod_add_mod]
    · simp only [List.length_append, List.length_singleton] at hj
      rcases Nat.lt_succ_iff_lt_or_eq.mp hj with hj | rfl
      · rw [List.getElem?_append_left hj]; exact h.served j hj
      · rw [List.getElem?_append_right le_rfl, Nat.sub_self, List.getElem?_cons_zero, ← hs, h.lb,
          h.currentIndex]
  · exact ⟨h.lb, h.currentIndex, h.served⟩

/-! ## Every request once -/

section Requests

variable {threads : Nat} {requests : List Int} (hsentinel : -1 ∉ requests)

theorem Inv.mem_requests {p : Pool} (h : Inv threads requests p) {x : Int} (hx : x ∈ p.inFlight) :
    x ∈ requests := by
  obtain ⟨added, hreq, hperm⟩ := h.added
  exact hreq ▸ List.mem_append_left _ (hperm.subset hx)

include hsentinel in
theorem Inv.step {p p' : Pool} {e : Event} (h : Inv threads requests p) (hstep : p.step e = some p') :
    Inv threads requests p' := by
  obtain ⟨added, hreq, hperm⟩ := h.added
  rcases step_cases hstep with ⟨requestId, rest, hadd, rfl⟩ | ⟨hadd, hstop, rfl⟩ |
    ⟨w, state, hs, r, hr, rfl⟩
  · refine ⟨h.workers, ⟨added ++ [requestId], by rw [hreq, hadd]; simp, ?_⟩, fun hs => ?_,
      fun hf => ?_⟩
    · simpa [Pool.inFlight, RequestQueue.addRequest, List.append_assoc] using hperm.append_right [requestId]
    · have := h.stopped hs; rw [hadd] at this; cases this
    · have := h.stopped (h.finished hf).2; rw [hadd] at this; cases this
  · exact ⟨h.workers, ⟨added, by rw [hreq, hadd], hperm⟩, fun _ => hadd,
      fun hf => ⟨(h.finished hf).1, rfl⟩⟩
  have hset := fun b x => count_flatMap_set Worker.holding x b p.workers w hs
  have hworkers : (p.workers.set w r.1).length = threads := (List.length_set _ _ _).trans h.workers
  rcases threadStep_cases hr with ⟨rfl, requestId, rest, hq, rfl⟩ | ⟨rfl, hq, hstop, rfl⟩ |
    ⟨requestId, rfl, server, -, rfl⟩ | ⟨requestId, server, rfl, rfl⟩
  · have hne : requestId ≠ -1 := fun he =>
      hsentinel (he ▸ h.mem_requests (by simp [Pool.inFlight, hq]))
    refine ⟨hworkers, ⟨added, hreq, (List.perm_iff_count.mpr fun x => ?_).trans hperm⟩, h.stopped,
      fun hf => ?_⟩
    · have := hset (.balancing requestId) x
      simp only [if_neg hne, Pool.inFlight, List.count_append, hq, List.count_cons, Worker.holding,
        List.count_nil, List.count_singleton] at this ⊢
      omega
    · have := (h.finished (mem_of_mem_set hf (by simp [hne]))).1
      rw [hq] at this; cases this
  · refine ⟨hworkers, ⟨added, hreq, (List.perm_iff_count.mpr fun x => ?_).trans hperm⟩, h.stopped,
      fun _ => ⟨hq, hstop⟩⟩
    have := hset .finished x
    simp only [Pool.inFlight, List.count_append, Worker.holding, List.count_nil] at this ⊢
    omega
  · refine ⟨hworkers, ⟨added, hreq, (List.perm_iff_count.mpr fun x => ?_).trans hperm⟩, h.stopped,
      fun hf => h.finished (mem_of_mem_set hf (by simp))⟩
    have := hset (.processing requestId server) x
    simp only [Pool.inFlight, List.count_append, Worker.holding] at this ⊢
    omega
  · refine ⟨hworkers, ⟨added, hreq, (List.perm_iff_count.mpr fun x => ?_).trans hperm⟩, h.stopped,
      fun hf => h.finished (mem_of_mem_set hf (by simp))⟩
    have := hset .waiting x
    simp only [Pool.inFlight, List.count_append, Worker.holding, List.map_append, List.map_singleton,
      List.count_nil] at this ⊢
    omega

end Requests

/-! ## Every run stops -/

/-- The steps a thread has still to take at most: one per step of a request, and one to leave
    the loop. -/
def Worker.cost : Worker → Nat
  | .waiting => 1
  | .balancing _ => 3
  | .processing _ _ => 2
  | .finished => 0

/-- What is left to do; every step lowers it. -/
def Pool.toDo (p : Pool) : Nat :=
  4 * p.toAdd.length + (if p.queue.stopped then 0 else 1) + 3 * p.queue.requestQueue.length +
    p.workers.foldr (fun w n => w.cost + n) 0

theorem toDo_step {p p' : Pool} {e : Event} (hstep : p.step e = some p') : p'.toDo < p.toDo := by
  rcases step_cases hstep with ⟨requestId, rest, hadd, rfl⟩ | ⟨-, hstop, rfl⟩ |
    ⟨w, state, hs, r, hr, rfl⟩
  · simp only [Pool.toDo, hadd, RequestQueue.addRequest, List.length_cons, List.length_append,
      List.length_nil]
    omega
  · simp [Pool.toDo, hstop, RequestQueue.stop]
  have hsum := fun b => foldr_add_set Worker.cost b p.workers w hs
  rcases threadStep_cases hr with ⟨rfl, requestId, rest, hq, rfl⟩ | ⟨rfl, -, -, rfl⟩ |
    ⟨requestId, rfl, server, -, rfl⟩ | ⟨requestId, server, rfl, rfl⟩
  · have := hsum (if requestId = -1 then .finished else .balancing requestId)
    simp only [Pool.toDo, hq, List.length_cons] at this ⊢
    by_cases hr1 : requestId = -1 <;> simp only [hr1, ↓reduceIte, Worker.cost] at this ⊢ <;> omega
  · have := hsum .finished
    simp only [Pool.toDo, Worker.cost] at this ⊢
    omega
  · have := hsum (.processing requestId server)
    simp only [Pool.toDo, Worker.cost] at this ⊢
    omega
  · have := hsum .waiting
    simp only [Pool.toDo, Worker.cost] at this ⊢
    omega

theorem run_cons (p : Pool) (e : Event) (events : List Event) :
    p.run (e :: events) = (p.step e).bind (·.run events) := by
  simp only [Pool.run, List.foldlM_cons, Option.bind_eq_bind]

/-- What one step keeps, a run keeps. -/
theorem run_preserves {P : Pool → Prop} (hstep : ∀ {p p' : Pool} {e : Event}, P p → p.step e = some p' → P p') :
    ∀ (events : List Event) (p p' : Pool), P p → p.run events = some p' → P p'
  | [], p, p', h, hrun => by cases hrun; exact h
  | e :: events, p, p', h, hrun => by
    rw [run_cons, Option.bind_eq_some] at hrun
    obtain ⟨p₁, hs, hrun⟩ := hrun
    exact run_preserves hstep events p₁ p' (hstep h hs) hrun

/-- Each step of a run lowers `toDo`. -/
theorem run_toDo : ∀ (events : List Event) (p p' : Pool), p.run events = some p' →
    events.length + p'.toDo ≤ p.toDo
  | [], p, p', hrun => by cases hrun; simp
  | e :: events, p, p', hrun => by
    rw [run_cons, Option.bind_eq_some] at hrun
    obtain ⟨p₁, hstep, hrun⟩ := hrun
    have h₁ := run_toDo events p₁ p' hrun
    have h₂ := toDo_step hstep
    rw [List.length_cons]
    omega

theorem foldr_cost_replicate : ∀ n : Nat,
    (List.replicate n Worker.waiting).foldr (fun w n => w.cost + n) 0 = n
  | 0 => rfl
  | n + 1 => by rw [List.replicate_succ, List.foldr_cons, foldr_cost_replicate n, Nat.add_comm]; rfl

theorem toDo_init (servers : List Server) (threads : Nat) (requests : List Int) :
    (Pool.init servers threads requests).toDo = 4 * requests.length + threads + 1 := by
  simp only [Pool.toDo, Pool.init, RequestQueue.new, foldr_cost_replicate, List.length_nil,
    Bool.false_eq_true, ↓reduceIte]
  omega

/-! ## A run that cannot go on -/

/-- With at least one server, a pool with no step left has added and stopped, and every thread
    has left its loop: a waiting thread could go on unless the queue is empty and not stopped,
    and then `main` could. -/
theorem quiescent {servers : List Server} (hservers : servers ≠ []) {p : Pool}
    (hb : Balanced servers p) (hstuck : ∀ e, p.step e = none) :
    p.toAdd = [] ∧ p.queue.stopped = true ∧ ∀ w ∈ p.workers, w = .finished := by
  have hadd : p.toAdd = [] := by
    have := hstuck .addRequest
    rw [Pool.step, Pool.addRequest] at this
    split at this
    · cases this
    · assumption
  have hstop : p.queue.stopped = true := by
    by_contra hs
    have := hstuck .stop
    rw [Pool.step, Pool.stop, if_pos ⟨hadd, by simpa using hs⟩] at this
    cases this
  refine ⟨hadd, hstop, fun state hstate => ?_⟩
  obtain ⟨w, hw⟩ := List.mem_iff_getElem?.mp hstate
  have hnone := hstuck (.worker w)
  simp only [Pool.step, Pool.worker, hw, Option.bind_eq_bind, Option.some_bind,
    Option.bind_eq_none, Option.pure_def, reduceCtorEq, imp_false] at hnone
  cases state with
  | waiting =>
    cases hq : p.queue.requestQueue <;>
      simp [Pool.threadStep, RequestQueue.getNextRequest, hq, hstop] at hnone
  | balancing requestId =>
    have hlt : p.lb.currentIndex < p.lb.servers.length := by
      rw [hb.currentIndex, hb.lb]; exact Nat.mod_lt _ (List.length_pos.mpr hservers)
    simp [Pool.threadStep, LoadBalancer.getNextServer, List.getElem?_eq_getElem hlt] at hnone
  | processing requestId server => simp [Pool.threadStep] at hnone
  | finished => rfl

/-! ## The theorems -/

theorem run_processes_each_request_once (servers : List Server) (threads : Nat) (requests : List Int)
    (hsentinel : -1 ∉ requests) (events : List Event) (p : Pool)
    (hrun : (Pool.init servers threads requests).run events = some p) :
    (p.processed.map (·.2)).Subperm requests ∧
      events.length ≤ 4 * requests.length + threads + 1 ∧
      (servers ≠ [] → 0 < threads → (∀ e, p.step e = none) →
        (p.processed.map (·.2)).Perm requests ∧ ∀ w ∈ p.workers, w = .finished) := by
  have hb := run_preserves Balanced.step events _ p (balanced_init servers threads requests) hrun
  have h := run_preserves (fun h hs => Inv.step hsentinel h hs) events _ p
    (inv_init servers threads requests) hrun
  have hlen := run_toDo events _ p hrun
  obtain ⟨added, hreq, hperm⟩ := h.added
  have hsub : (p.processed.map (·.2)).Subperm requests := by
    refine (List.Sublist.subperm ?_).trans (hperm.subperm.trans (hreq ▸ (List.sublist_append_left _ _).subperm))
    rw [Pool.inFlight, List.append_assoc]
    exact List.sublist_append_left _ _
  refine ⟨hsub, by rw [toDo_init] at hlen; omega, fun hservers hthreads hstuck => ?_⟩
  obtain ⟨hadd, -, hfin⟩ := quiescent hservers hb hstuck
  obtain ⟨w, hw⟩ : ∃ w, w ∈ p.workers :=
    List.exists_mem_of_length_pos (by rw [h.workers]; exact hthreads)
  have hqueue := (h.finished (hfin w hw ▸ hw)).1
  have hheld : p.workers.flatMap Worker.holding = [] :=
    List.flatMap_eq_nil_iff.mpr fun x hx => by rw [hfin x hx]; rfl
  refine ⟨?_, hfin⟩
  rw [Pool.inFlight, hheld, hqueue, List.append_nil, List.append_nil] at hperm
  rwa [hreq, hadd, List.append_nil]

theorem run_round_robin (servers : List Server) (threads : Nat) (requests : List Int)
    (events : List Event) (p : Pool) (hrun : (Pool.init servers threads requests).run events = some p) :
    ∀ j < p.served.length, p.served[j]? = servers[j % servers.length]? :=
  (run_preserves Balanced.step events _ p (balanced_init servers threads requests) hrun).served

/-- The servers of `main` (lines 435–439). -/
def mainServers : List Server := [⟨1, "Server1"⟩, ⟨2, "Server2"⟩, ⟨3, "Server3"⟩]

/-- The requests `main` adds (lines 454–457). -/
def mainRequests : List Int := (List.range 10).map fun i => (i : Int) + 1

/-- One interleaving of `main`: every request added, the queue stopped, thread `0` handling
    every request, and then each thread leaving its loop. -/
def mainEvents : List Event :=
  List.replicate 10 .addRequest ++ [.stop] ++ List.replicate 30 (.worker 0) ++
    [.worker 0, .worker 1, .worker 2]

theorem run_processes_each_request_once_main : ∃ p : Pool,
    (Pool.init mainServers 3 mainRequests).run mainEvents = some p ∧
    (p.processed.map (·.2)).Subperm mainRequests ∧
      mainEvents.length ≤ 4 * mainRequests.length + 3 + 1 ∧
      (mainServers ≠ [] → 0 < 3 → (∀ e, p.step e = none) →
        (p.processed.map (·.2)).Perm mainRequests ∧ ∀ w ∈ p.workers, w = .finished) :=
  have hrun : (Pool.init mainServers 3 mainRequests).run mainEvents =
      some (((Pool.init mainServers 3 mainRequests).run mainEvents).getD (.init [] 0 [])) := rfl
  ⟨_, hrun, run_processes_each_request_once mainServers 3 mainRequests (by decide) mainEvents _ hrun⟩

theorem run_round_robin_main : ∃ p : Pool,
    (Pool.init mainServers 3 mainRequests).run mainEvents = some p ∧
    ∀ j < p.served.length, p.served[j]? = mainServers[j % mainServers.length]? :=
  have hrun : (Pool.init mainServers 3 mainRequests).run mainEvents =
      some (((Pool.init mainServers 3 mainRequests).run mainEvents).getD (.init [] 0 [])) := rfl
  ⟨_, hrun, run_round_robin mainServers 3 mainRequests mainEvents _ hrun⟩

example : (((Pool.init mainServers 3 mainRequests).run mainEvents).map fun p =>
    (p.processed.map (·.2), p.workers)) = some (mainRequests, List.replicate 3 .finished) := by
  decide

end HpDb.Networking.RequestPool
