import HpDb.Locking.LockManager

/-!
# `TransactionManager` and its wait-for graph (part_020, lines 270–377)

`TransactionManager` runs two-phase locking over a `LockManager`. It records, per
transaction, the resources it locked (`txn_locks`), the active transactions, and a
wait-for graph that `detectDeadlock` searches for a cycle by depth-first search.

`acquireLock` first calls `LockManager::acquireLock`, which blocks while the request
waits. Only when that call returns, with the request granted, does it record the lock
and add to the wait-for graph an edge from the caller to every other transaction with a
waiting request on the resource. So a blocked caller adds no edge, and the edges that are
added go from a holder to the transactions waiting behind it. The comment on the graph
(line 277, `txn_id -> set of transactions it is waiting for`) asks for an edge from each
blocked transaction to the transactions that block it.

A blocking `acquireLock` is modelled as two steps of its thread: a request step (the
call of `LockManager::acquireLock`, which appends the request granted or waiting) and a
grant step (the rest of the method, enabled once a request of the caller on the resource
is granted). A thread inside `acquireLock` makes no other call.

The unordered maps and sets are lists in one iteration order; a set holds no value
twice.

Results:
* `detectDeadlock_misses_wait_cycle`: a reachable state in which transactions `1` and
  `2` each wait for an `EXCLUSIVE` lock the other holds, while the wait-for graph is
  empty and `detectDeadlock` returns `false`.
-/

namespace HpDb.Locking

/-- An `std::unordered_map<int, std::unordered_set<int>>` (`txn_locks`, `wait_for_graph`,
    lines 273 and 278): its entries in iteration order. -/
abbrev SetMap := List (Int × List Int)

namespace SetMap

/-- `m.find(k)`. -/
def find? (m : SetMap) (k : Int) : Option (List Int) := m.lookup k

/-- `m[k].insert(v)`: `operator[]` first adds an empty set at a missing key. -/
def insert (m : SetMap) (k v : Int) : SetMap :=
  match m.lookup k with
  | some s => m.map fun e => if e.1 = k then (k, if v ∈ s then s else s ++ [v]) else e
  | none => m ++ [(k, [v])]

/-- `m.erase(k)`. -/
def erase (m : SetMap) (k : Int) : SetMap := m.filter fun e => e.1 ≠ k

/-- `for (auto& entry : m) entry.second.erase(v)`. -/
def eraseFromAll (m : SetMap) (v : Int) : SetMap := m.map fun e => (e.1, e.2.erase v)

end SetMap

/-- `TransactionManager` (lines 270–278): the lock table of its `LockManager`, without
    the mutexes. -/
structure TransactionManager where
  lockTable : LockTable
  txnLocks : SetMap
  activeTransactions : List Int
  waitForGraph : SetMap

namespace TransactionManager

/-- A new `TransactionManager` over a new `LockManager`. -/
def empty : TransactionManager := ⟨LockTable.empty, [], [], []⟩

/-- `beginTransaction` (lines 307–311). -/
def beginTransaction (tm : TransactionManager) (txnId : Int) : TransactionManager :=
  { tm with activeTransactions :=
      if txnId ∈ tm.activeTransactions then tm.activeTransactions
      else tm.activeTransactions ++ [txnId] }

/-- The first step of `acquireLock` (line 314): `lock_manager.acquireLock`, which leaves
    the request granted or waiting. -/
def requestLock (tm : TransactionManager) (txnId resourceId : Int) (lockType : LockType) :
    TransactionManager :=
  { tm with lockTable := HpDb.Locking.acquireLock tm.lockTable txnId resourceId lockType }

/-- The predicate of `cv.wait` in `LockManager::acquireLock` (lines 225–232): a request of
    `txnId` on the resource is granted. -/
def isGranted (table : LockTable) (txnId resourceId : Int) : Bool :=
  (table resourceId).any fun req => req.txnId == txnId && req.granted

/-- The loop of `acquireLock` that builds the wait-for graph (lines 319–323): an edge from
    `txnId` to each other transaction with a waiting request on the resource. -/
def addWaitEdges (txnId : Int) (g : SetMap) (requests : List LockRequest) : SetMap :=
  requests.foldl (fun g req => if req.txnId ≠ txnId ∧ !req.granted then g.insert txnId req.txnId
    else g) g

/-- The rest of `acquireLock` (lines 315–324), run once `lock_manager.acquireLock` has
    returned. -/
def grantLock (tm : TransactionManager) (txnId resourceId : Int) : TransactionManager :=
  { tm with
    txnLocks := tm.txnLocks.insert txnId resourceId
    waitForGraph := addWaitEdges txnId tm.waitForGraph (tm.lockTable resourceId) }

/-- One turn of the loop of `releaseLocks` (lines 330–336). -/
def releaseOne (txnId : Int) (tm : TransactionManager) (resourceId : Int) :
    TransactionManager :=
  { tm with
    lockTable := HpDb.Locking.releaseLock tm.lockTable txnId resourceId
    waitForGraph := (tm.waitForGraph.erase txnId).eraseFromAll txnId }

/-- `releaseLocks` (lines 327–339). -/
def releaseLocks (tm : TransactionManager) (txnId : Int) : TransactionManager :=
  match tm.txnLocks.find? txnId with
  | none => tm
  | some resources =>
    let tm := resources.foldl (releaseOne txnId) tm
    { tm with txnLocks := tm.txnLocks.erase txnId }

end TransactionManager

/-! ## Depth-first search -/

/-- The loop of `dfs` over the successors of a node (lines 294–298): search from each in
    turn, threading `visited` and `rec_stack`, and stop at the first that finds a cycle. -/
def dfsEach (f : Int → List Int → List Int → Bool × List Int × List Int) :
    List Int → List Int → List Int → Bool × List Int × List Int
  | [], visited, recStack => (false, visited, recStack)
  | u :: us, visited, recStack =>
    match f u visited recStack with
    | (true, v, r) => (true, v, r)
    | (false, v, r) => dfsEach f us v r

/-- `dfs` (lines 281–302), returning its result with the final `visited` and `rec_stack`.
    `fuel` bounds the depth of the recursion: each level below the first starts from a
    key of the graph not visited before, so the number of keys plus one is enough. -/
def dfs (g : SetMap) : Nat → Int → List Int → List Int → Bool × List Int × List Int
  | 0, _, visited, recStack => (false, visited, recStack)
  | fuel + 1, txnId, visited, recStack =>
    if txnId ∈ recStack then (true, visited, recStack)
    else if txnId ∈ visited then (false, visited, recStack)
    else
      match dfsEach (dfs g fuel) ((g.find? txnId).getD []) (txnId :: visited)
          (txnId :: recStack) with
      | (true, v, r) => (true, v, r)
      | (false, v, r) => (false, v, r.erase txnId)

/-- The loop of `detectDeadlock` (lines 363–372) over the entries of the graph. -/
def detectDeadlockFrom (g : SetMap) (fuel : Nat) : SetMap → List Int → List Int → Bool
  | [], _, _ => false
  | (txnId, _) :: entries, visited, recStack =>
    if txnId ∉ visited then
      match dfs g fuel txnId visited recStack with
      | (true, _, _) => true
      | (false, v, r) => detectDeadlockFrom g fuel entries v r
    else detectDeadlockFrom g fuel entries visited recStack

/-- `detectDeadlock` (lines 359–375). -/
def TransactionManager.detectDeadlock (tm : TransactionManager) : Bool :=
  detectDeadlockFrom tm.waitForGraph (tm.waitForGraph.length + 1) tm.waitForGraph [] []

/-! ## Runs of the threads -/

/-- A step of a thread: a call of `TransactionManager`, with `acquireLock` cut into its
    request and its grant. -/
inductive Action where
  | beginTransaction (txnId : Int)
  | requestLock (txnId resourceId : Int) (lockType : LockType)
  | grantLock (txnId resourceId : Int)
  | releaseLocks (txnId : Int)
  deriving DecidableEq, Repr

/-- The manager with the threads that are inside `acquireLock`: the caller and the
    resource, between the request and the grant. -/
structure Sys where
  tm : TransactionManager
  acquiring : List (Int × Int)

/-- Whether the thread of `txnId` is inside `acquireLock`. -/
def Sys.busy (s : Sys) (txnId : Int) : Bool := s.acquiring.any fun e => e.1 == txnId

/-- One step; `none` when the step is not enabled. -/
def Sys.step (s : Sys) : Action → Option Sys
  | .beginTransaction t =>
    if s.busy t then none else some { s with tm := s.tm.beginTransaction t }
  | .requestLock t r m =>
    if s.busy t then none else some ⟨s.tm.requestLock t r m, s.acquiring ++ [(t, r)]⟩
  | .grantLock t r =>
    if (t, r) ∈ s.acquiring ∧ TransactionManager.isGranted s.tm.lockTable t r then
      some ⟨s.tm.grantLock t r, s.acquiring.erase (t, r)⟩
    else none
  | .releaseLocks t =>
    if s.busy t then none else some { s with tm := s.tm.releaseLocks t }

/-- The start: a new manager, no thread inside `acquireLock`. -/
def Sys.init : Sys := ⟨TransactionManager.empty, []⟩

/-- The states reachable by any interleaving of steps. -/
inductive Sys.Reachable : Sys → Prop
  | init : Sys.Reachable Sys.init
  | step {s s' : Sys} (a : Action) : Sys.Reachable s → s.step a = some s' → Sys.Reachable s'

/-- Run the steps in order, failing at the first that is not enabled. -/
def Sys.run (s : Sys) : List Action → Option Sys
  | [] => some s
  | a :: as => (s.step a).bind fun s' => s'.run as

theorem Sys.Reachable.run {s : Sys} (h : s.Reachable) :
    ∀ {as : List Action} {s' : Sys}, s.run as = some s' → s'.Reachable
  | [], _, hr => by cases hr; exact h
  | a :: as, s', hr => by
    simp only [Sys.run, Option.bind_eq_some] at hr
    obtain ⟨s₁, h₁, hr⟩ := hr
    exact (h.step a h₁).run hr

/-! ## A deadlock the search does not see -/

/-- Resource `resourceId` holds a waiting request of `t` and a granted request of `u`,
    with at least one of the two `EXCLUSIVE`. -/
def blocksOn (table : LockTable) (resourceId t u : Int) : Bool :=
  (table resourceId).any fun req => req.txnId == t && !req.granted &&
    (table resourceId).any fun held => held.txnId == u && held.granted &&
      (req.lockType == .exclusive || held.lockType == .exclusive)

/-- `t` waits for `u`: on some resource `t` waits and `u` holds a lock incompatible with
    the one `t` asked for. -/
def WaitsFor (table : LockTable) (t u : Int) : Prop := ∃ r, blocksOn table r t u

/-- Distinct transactions `T1, …, Tk`, `k ≥ 2`, each waiting for the next and `Tk` for
    `T1`. -/
def WaitCycle (table : LockTable) (ts : List Int) : Prop :=
  2 ≤ ts.length ∧ ts.Nodup ∧ (ts ++ ts.take 1).Chain' (WaitsFor table)

/-- Transactions `1` and `2` each lock a resource `EXCLUSIVE`, then each asks for the
    other's resource. -/
def crossedLocks : List Action :=
  [.beginTransaction 1, .beginTransaction 2,
    .requestLock 1 1 .exclusive, .grantLock 1 1,
    .requestLock 2 2 .exclusive, .grantLock 2 2,
    .requestLock 1 2 .exclusive, .requestLock 2 1 .exclusive]

/-- The state at the end of `crossedLocks`. -/
def crossedLocksSys : Sys := (Sys.init.run crossedLocks).getD Sys.init

theorem run_crossedLocks : Sys.init.run crossedLocks = some crossedLocksSys := rfl

theorem waitCycle_crossedLocks : WaitCycle crossedLocksSys.tm.lockTable [1, 2] :=
  ⟨by decide, by decide, .cons ⟨2, by decide⟩ (.cons ⟨1, by decide⟩ .nil)⟩

/-- Both transactions are blocked, each behind the other's `EXCLUSIVE` lock, but their
    requests added no edge: the graph is empty and `detectDeadlock` answers `false`. -/
theorem detectDeadlock_misses_wait_cycle :
    ∃ s, Sys.Reachable s ∧ WaitCycle s.tm.lockTable [1, 2] ∧ s.tm.detectDeadlock = false :=
  ⟨crossedLocksSys, Sys.Reachable.init.run run_crossedLocks, waitCycle_crossedLocks, rfl⟩

end HpDb.Locking
