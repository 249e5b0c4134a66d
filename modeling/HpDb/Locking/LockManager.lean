import Mathlib.Logic.Function.Basic
import Mathlib.Data.List.Basic

/-!
# The lock table of `LockManager` (part_020, lines 175–268)

`LockManager` keeps, for every resource id, the vector of lock requests made on it.
`acquireLock` appends a request of the caller. The request is granted at once when the
resource has no request, or when no request of another transaction (granted or waiting)
has a mode incompatible with the one asked for. Otherwise it is left waiting, and the
calling thread sleeps on the request's condition variable until a request of its
transaction on that resource is granted. `releaseLock` removes every request of the
caller on the resource, drops the resource when nothing is left, and otherwise grants
the first waiting request.

The condition variables and the mutex are not modelled: a blocked `acquireLock` is its
waiting request, and the call returns once that request (or another request of the same
transaction on the resource) has `granted = true`. Waking the thread does not change the
table, so the table alone determines what every thread may do next.

Results:
* `acquireLock_mutualExclusion`: `acquireLock` keeps mutual exclusion, from any table.
* `acquireLock_runs_mutualExclusion`: so does every run of `acquireLock` calls alone.
* `releaseLock_grants_exclusive_beside_shared`: `releaseLock` does not. Two transactions
  hold `SHARED` locks on resource `1`, a third waits for `EXCLUSIVE`; when the first
  releases, the `EXCLUSIVE` request is granted while the second still holds its `SHARED`
  lock. The table reached is reachable and breaks mutual exclusion.
-/

namespace HpDb.Locking

/-- `enum LockType { SHARED, EXCLUSIVE }` (line 175). -/
inductive LockType where
  | shared
  | exclusive
  deriving DecidableEq, Repr

/-- `LockManager::LockRequest` (lines 179–186) without its condition variable. -/
structure LockRequest where
  txnId : Int
  lockType : LockType
  granted : Bool
  deriving DecidableEq, Repr

/-- `lock_table` (line 188): resource id ↦ requests, in arrival order. A resource that is
    not in the map is the empty vector: the map never holds an empty vector (`releaseLock`
    erases it), and both functions below act the same on an absent and an empty entry. -/
abbrev LockTable := Int → List LockRequest

/-- The empty `lock_table` of a new `LockManager`. -/
def LockTable.empty : LockTable := fun _ => []

/-! ## The two operations -/

/-- The `for` loop of `acquireLock` (lines 209–214): `can_grant` stays true unless some
    request of another transaction, granted or not, has mode `EXCLUSIVE` or the mode
    asked for is `EXCLUSIVE`. -/
def canGrant (requests : List LockRequest) (txnId : Int) (lockType : LockType) : Bool :=
  requests.all fun req =>
    !(req.txnId != txnId && (req.lockType == .exclusive || lockType == .exclusive))

/-- `LockManager::acquireLock` (lines 192–234) up to the wait on the condition variable. -/
def acquireLock (table : LockTable) (txnId resourceId : Int) (lockType : LockType) :
    LockTable :=
  let requests := table resourceId
  if requests = [] then Function.update table resourceId [⟨txnId, lockType, true⟩]
  else if canGrant requests txnId lockType then
    Function.update table resourceId (requests ++ [⟨txnId, lockType, true⟩])
  else Function.update table resourceId (requests ++ [⟨txnId, lockType, false⟩])

/-- The `for` loop of `releaseLock` (lines 253–259): grant the first request with
    `granted = false` and stop. -/
def grantFirstWaiting : List LockRequest → List LockRequest
  | [] => []
  | req :: reqs =>
    if !req.granted then { req with granted := true } :: reqs else req :: grantFirstWaiting reqs

/-- `LockManager::releaseLock` (lines 236–263). -/
def releaseLock (table : LockTable) (txnId resourceId : Int) : LockTable :=
  if table resourceId = [] then table
  else
    let requests := (table resourceId).filter fun req => req.txnId != txnId
    if requests = [] then Function.update table resourceId []
    else Function.update table resourceId (grantFirstWaiting requests)

/-- A call of the `LockManager` interface, by any transaction. -/
inductive LockCall where
  | acquireLock (txnId resourceId : Int) (lockType : LockType)
  | releaseLock (txnId resourceId : Int)
  deriving DecidableEq, Repr

/-- The effect of one call on the table. -/
def LockCall.apply : LockCall → LockTable → LockTable
  | .acquireLock t r m, table => HpDb.Locking.acquireLock table t r m
  | .releaseLock t r, table => HpDb.Locking.releaseLock table t r

/-- The tables reachable from the empty table by any interleaving of calls. -/
inductive Reachable : LockTable → Prop
  | empty : Reachable LockTable.empty
  | step {table : LockTable} (c : LockCall) : Reachable table → Reachable (c.apply table)

/-- Run the calls in order. -/
def runCalls (table : LockTable) (calls : List LockCall) : LockTable :=
  calls.foldl (fun table c => c.apply table) table

theorem Reachable.runCalls {table : LockTable} (h : Reachable table) :
    ∀ calls, Reachable (HpDb.Locking.runCalls table calls)
  | [] => h
  | c :: calls => Reachable.runCalls (h.step c) calls

/-! ## Mutual exclusion -/

/-- The granted requests of `requests` are all `SHARED`, or all of one transaction. -/
def GrantedExclusive (requests : List LockRequest) : Prop :=
  (∀ req ∈ requests, req.granted → req.lockType = .shared) ∨
    ∃ t, ∀ req ∈ requests, req.granted → req.txnId = t

/-- Mutual exclusion on every resource. -/
def MutualExclusion (table : LockTable) : Prop := ∀ r, GrantedExclusive (table r)

theorem canGrant_exclusive {requests : List LockRequest} {txnId : Int}
    (h : canGrant requests txnId .exclusive) : ∀ req ∈ requests, req.txnId = txnId := by
  intro req hr
  simpa using List.all_eq_true.mp h req hr

theorem canGrant_shared {requests : List LockRequest} {txnId : Int}
    (h : canGrant requests txnId .shared) :
    ∀ req ∈ requests, req.txnId ≠ txnId → req.lockType = .shared := by
  intro req hr hne
  have := List.all_eq_true.mp h req hr
  cases hm : req.lockType <;> simp_all

/-- Appending a request that `canGrant` allows, granted, keeps the granted requests
    exclusive. -/
theorem grantedExclusive_append {requests : List LockRequest} {txnId : Int}
    {lockType : LockType} (hc : canGrant requests txnId lockType)
    (h : GrantedExclusive requests) :
    GrantedExclusive (requests ++ [⟨txnId, lockType, true⟩]) := by
  cases lockType with
  | exclusive =>
    have hall := canGrant_exclusive hc
    exact .inr ⟨txnId, fun req hr _ => by
      rcases List.mem_append.mp hr with hr | hr
      · exact hall req hr
      · simp_all⟩
  | shared =>
    have hsh := canGrant_shared hc
    rcases h with hS | ⟨t, ht⟩
    · exact .inl fun req hr hg => by
        rcases List.mem_append.mp hr with hr | hr
        · exact hS req hr hg
        · simp_all
    · by_cases htx : t = txnId
      · exact .inr ⟨t, fun req hr hg => by
          rcases List.mem_append.mp hr with hr | hr
          · exact ht req hr hg
          · simp_all⟩
      · exact .inl fun req hr hg => by
          rcases List.mem_append.mp hr with hr | hr
          · exact hsh req hr (ht req hr hg ▸ htx)
          · simp_all

theorem grantedExclusive_singleton (txnId : Int) (lockType : LockType) :
    GrantedExclusive [⟨txnId, lockType, true⟩] :=
  .inr ⟨txnId, by simp⟩

theorem grantedExclusive_append_waiting {requests : List LockRequest} {txnId : Int}
    {lockType : LockType} (h : GrantedExclusive requests) :
    GrantedExclusive (requests ++ [⟨txnId, lockType, false⟩]) := by
  rcases h with hS | ⟨t, ht⟩
  · exact .inl fun req hr hg => by
      rcases List.mem_append.mp hr with hr | hr
      · exact hS req hr hg
      · simp_all
  · exact .inr ⟨t, fun req hr hg => by
      rcases List.mem_append.mp hr with hr | hr
      · exact ht req hr hg
      · simp_all⟩

/-- **`acquireLock` keeps mutual exclusion**, from any table: it grants a request only
    when no request of another transaction conflicts with it. -/
theorem acquireLock_mutualExclusion {table : LockTable} (h : MutualExclusion table)
    (txnId resourceId : Int) (lockType : LockType) :
    MutualExclusion (acquireLock table txnId resourceId lockType) := by
  intro r
  by_cases hr : r = resourceId
  · subst hr
    unfold acquireLock
    split_ifs with he hc
    · simpa using grantedExclusive_singleton txnId lockType
    · simpa using grantedExclusive_append hc (h r)
    · simpa using grantedExclusive_append_waiting (h r)
  · unfold acquireLock
    split_ifs <;> simpa [Function.update_noteq hr] using h r

theorem mutualExclusion_empty : MutualExclusion LockTable.empty :=
  fun _ => .inl fun _ h => absurd h (List.not_mem_nil _)

theorem mutualExclusion_runCalls_acquireLock {table : LockTable} (h : MutualExclusion table) :
    ∀ calls : List (Int × Int × LockType),
      MutualExclusion (runCalls table (calls.map fun (t, r, m) => .acquireLock t r m))
  | [] => h
  | (t, r, m) :: calls =>
    mutualExclusion_runCalls_acquireLock (acquireLock_mutualExclusion h t r m) calls

/-- **Without a release, mutual exclusion holds on every run**: any interleaving of
    `acquireLock` calls by any transactions, on any resources, from the empty table. -/
theorem acquireLock_runs_mutualExclusion (calls : List (Int × Int × LockType)) :
    MutualExclusion
      (runCalls LockTable.empty (calls.map fun (t, r, m) => .acquireLock t r m)) :=
  mutualExclusion_runCalls_acquireLock mutualExclusion_empty calls

/-! ## `releaseLock` breaks mutual exclusion -/

/-- Transactions `1` and `2` take `SHARED` locks on resource `1`, transaction `3` asks for
    an `EXCLUSIVE` lock there and blocks, and transaction `1` releases its lock. -/
def sharedSharedExclusiveRelease : List LockCall :=
  [.acquireLock 1 1 .shared, .acquireLock 2 1 .shared, .acquireLock 3 1 .exclusive,
    .releaseLock 1 1]

theorem runCalls_sharedSharedExclusiveRelease :
    runCalls LockTable.empty sharedSharedExclusiveRelease 1 =
      [⟨2, .shared, true⟩, ⟨3, .exclusive, true⟩] := by
  decide

/-- The release grants the waiting `EXCLUSIVE` request of transaction `3` while
    transaction `2` still holds its `SHARED` lock: `releaseLock` does not check the waiting
    request against the holders that remain. -/
theorem releaseLock_grants_exclusive_beside_shared :
    ∃ table, Reachable table ∧ ¬ MutualExclusion table := by
  refine ⟨_, Reachable.empty.runCalls sharedSharedExclusiveRelease, fun h => ?_⟩
  have h1 := h 1
  rw [GrantedExclusive, runCalls_sharedSharedExclusiveRelease] at h1
  rcases h1 with hS | ⟨t, ht⟩
  · exact absurd (hS ⟨3, .exclusive, true⟩ (by simp) rfl) (by decide)
  · have h2 := ht ⟨2, .shared, true⟩ (by simp) rfl
    have h3 := ht ⟨3, .exclusive, true⟩ (by simp) rfl
    simp only at h2 h3
    omega

end HpDb.Locking
