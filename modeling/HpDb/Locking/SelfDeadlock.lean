import HpDb.Concurrency.TimestampOrdering
import HpDb.Locking.TransactionManager

/-!
# Self-deadlock in the transactional core

A `std::mutex` is not recursive: a `lock()` by the thread that already holds it never
returns. Four classes of the transactional core call, while they hold their own mutex, a
method that locks it again:
* `TimestampOrdering::read` and `write` call `abort_transaction` on a conflict
  (timestamp_ordering.cpp, lines 62 and 88);
* the two-phase-locking `TransactionManager::commitTransaction` and `rollbackTransaction`
  call `releaseLocks` for an active transaction (part_020, lines 345 and 354);
* the `TransactionManager::commitTransaction` of transactions.cpp calls `abortTransaction`
  when `cc.commit` fails (line 77);
* `LogFileManager::commitTransaction`, `abortTransaction` and `checkpoint` call `logRecord`
  and `flush` (data_file_manager.cpp, lines 275–297).

Each operation is modelled by its sequence of mutex operations, `lock_guard`
construction and destruction, as a function of the state and the arguments with the
branches of the code. `runLocks` runs a sequence over the mutexes held and fails at a
`lock` of one the call chain already holds.

transactions.cpp's `ConcurrencyControl` reads `tx->write_set`, which its `Transaction` class
does not declare; the model gives the transaction that list.

Results:
* `transactional_core_self_deadlocks`: for each of these operations, exactly when it
  locks a mutex it holds. The three `LogFileManager` methods always do, in every state and
  on every input. The two-phase-locking `commitTransaction` and `rollbackTransaction` do
  exactly for an active transaction. `read` and `write` do exactly on a conflict, and
  transactions.cpp's `commitTransaction` exactly when `cc.commit` fails. The other
  operations never do. The conflicts arise after three calls of `TimestampOrdering`, and an
  active transaction after one `beginTransaction`.
-/

namespace HpDb.Locking

/-- The `std::mutex` members that the operations lock. -/
inductive Mutex where
  /-- `TimestampOrdering::mtx` (timestamp_ordering.cpp, line 31). -/
  | timestampOrdering
  /-- `TransactionManager::mtx` (part_020, line 275). -/
  | transactionManager
  /-- `LockManager::mtx`, taken by `LockManager::releaseLock` (part_020, line 237). -/
  | lockManager
  /-- `TransactionManager::tx_mutex` (transactions.cpp, line 34). -/
  | txMutex
  /-- `LogFileManager::logMutex_` (data_file_manager.cpp). -/
  | logMutex
  deriving DecidableEq, Repr

/-- A `lock()` or an `unlock()`, as `lock_guard` and `unique_lock` make them. -/
inductive LockOp where
  | lock (m : Mutex)
  | unlock (m : Mutex)
  deriving DecidableEq, Repr

/-- Run mutex operations from the mutexes held: `none` at a `lock()` of a mutex the call
    chain already holds. -/
def runLocks : List Mutex → List LockOp → Option (List Mutex)
  | held, [] => some held
  | held, .lock m :: ops => if m ∈ held then none else runLocks (m :: held) ops
  | held, .unlock m :: ops => runLocks (held.erase m) ops

/-- Run from no mutex held, the operations lock a mutex they hold. -/
def SelfDeadlocks (ops : List LockOp) : Prop := runLocks [] ops = none

instance (ops : List LockOp) : Decidable (SelfDeadlocks ops) := inferInstanceAs (Decidable (_ = _))

/-- A method body run under a `lock_guard` of `m`. -/
def guarded (m : Mutex) (body : List LockOp) : List LockOp := .lock m :: body ++ [.unlock m]

theorem runLocks_append (held : List Mutex) (ops ops' : List LockOp) :
    runLocks held (ops ++ ops') = (runLocks held ops).bind fun held => runLocks held ops' := by
  induction ops generalizing held with
  | nil => rfl
  | cons op ops ih =>
    cases op with
    | lock m => by_cases hm : m ∈ held <;> simp [runLocks, hm, ih]
    | unlock m => simp [runLocks, ih]

theorem runLocks_guarded (held : List Mutex) (m : Mutex) (body : List LockOp) :
    runLocks held (guarded m body) =
      if m ∈ held then none else (runLocks (m :: held) body).map fun held => held.erase m := by
  unfold guarded
  by_cases hm : m ∈ held
  · simp [runLocks, hm]
  · rw [if_neg hm, List.cons_append, runLocks, if_neg hm, runLocks_append]
    cases runLocks (m :: held) body <;> rfl

/-- A guarded body self-deadlocks exactly when, with `m` held, the body does. -/
theorem selfDeadlocks_guarded (m : Mutex) (body : List LockOp) :
    SelfDeadlocks (guarded m body) ↔ runLocks [m] body = none := by
  rw [SelfDeadlocks, runLocks_guarded, if_neg (List.not_mem_nil m)]
  cases runLocks [m] body <;> simp

/-- A call of a method that locks `m` under `m`. -/
theorem runLocks_guarded_of_mem {held : List Mutex} {m : Mutex} (h : m ∈ held)
    (body : List LockOp) : runLocks held (guarded m body) = none := by
  rw [runLocks_guarded, if_pos h]

/-- A call of a method that locks a mutex not held, and calls nothing else, leaves the
    mutexes held as they were. -/
theorem runLocks_guarded_nil {held : List Mutex} {m : Mutex} (h : m ∉ held) :
    runLocks held (guarded m []) = some held := by
  rw [runLocks_guarded, if_neg h]
  simp [runLocks]

theorem runLocks_flatMap_guarded_nil {held : List Mutex} {m : Mutex} (h : m ∉ held) {α : Type}
    (xs : List α) : runLocks held (xs.flatMap fun _ => guarded m []) = some held := by
  induction xs with
  | nil => rfl
  | cons x xs ih => rw [List.flatMap_cons, runLocks_append, runLocks_guarded_nil h]; exact ih

end HpDb.Locking

/-! ## `TimestampOrdering` -/

namespace HpDb.Concurrency.TimestampOrdering

open HpDb.Locking

/-- `abort_transaction` (lines 113–123): `mtx`, and nothing under it that locks. -/
def abortTransactionLocks : List LockOp := guarded .timestampOrdering []

/-- `commit_transaction` (lines 98–111). -/
def commitTransactionLocks : List LockOp := guarded .timestampOrdering []

/-- The read of an active transaction older than the item's `write_ts` (line 60). -/
def ReadConflict (s : TimestampOrdering) (transactionId dataItemId : Int) : Prop :=
  ∃ txn item, s.activeTransactions transactionId = some txn ∧
    s.dataItems dataItemId = some item ∧ txn.startTs < item.writeTs

/-- The write of an active transaction older than the item's `read_ts` or `write_ts`
    (line 86); a missing item is `DataItem(id, 0)`. -/
def WriteConflict (s : TimestampOrdering) (transactionId dataItemId : Int) : Prop :=
  ∃ txn, s.activeTransactions transactionId = some txn ∧
    (txn.startTs < ((s.dataItems dataItemId).getD ⟨dataItemId, 0, 0, 0⟩).readTs ∨
      txn.startTs < ((s.dataItems dataItemId).getD ⟨dataItemId, 0, 0, 0⟩).writeTs)

/-- `read` (lines 44–69): `abort_transaction` on a conflict, under `mtx`. -/
def readLocks (s : TimestampOrdering) (transactionId dataItemId : Int) : List LockOp :=
  guarded .timestampOrdering
    (match s.activeTransactions transactionId, s.dataItems dataItemId with
      | some txn, some item => if txn.startTs < item.writeTs then abortTransactionLocks else []
      | _, _ => [])

/-- `write` (lines 71–96): `abort_transaction` on a conflict, under `mtx`. -/
def writeLocks (s : TimestampOrdering) (transactionId dataItemId : Int) : List LockOp :=
  guarded .timestampOrdering
    (match s.activeTransactions transactionId with
      | some txn =>
        let item := (s.dataItems dataItemId).getD ⟨dataItemId, 0, 0, 0⟩
        if txn.startTs < item.readTs ∨ txn.startTs < item.writeTs then abortTransactionLocks
        else []
      | none => [])

theorem selfDeadlocks_readLocks (s : TimestampOrdering) (t x : Int) :
    SelfDeadlocks (s.readLocks t x) ↔ s.ReadConflict t x := by
  rw [readLocks, selfDeadlocks_guarded, ReadConflict]
  cases ht : s.activeTransactions t with
  | none => simp [runLocks]
  | some txn =>
    cases hx : s.dataItems x with
    | none => simp [runLocks]
    | some item =>
      by_cases hc : txn.startTs < item.writeTs
      · simp [hc, abortTransactionLocks, runLocks_guarded_of_mem (List.mem_singleton_self _)]
      · simp [hc, runLocks]

theorem selfDeadlocks_writeLocks (s : TimestampOrdering) (t x : Int) :
    SelfDeadlocks (s.writeLocks t x) ↔ s.WriteConflict t x := by
  rw [writeLocks, selfDeadlocks_guarded, WriteConflict]
  cases ht : s.activeTransactions t with
  | none => simp [runLocks]
  | some txn =>
    dsimp only
    split_ifs with hc
    · simp [hc, abortTransactionLocks, runLocks_guarded_of_mem (List.mem_singleton_self _)]
    · simp [hc, runLocks]

/-- On a read conflict, the model's `read` is at the call of `abort_transaction`. -/
theorem read_of_readConflict {s : TimestampOrdering} {t x : Int} (h : s.ReadConflict t x) :
    s.read t x = (false, s.abortTransaction t) := by
  obtain ⟨txn, item, ht, hx, hc⟩ := h
  simp [read, ht, hx, hc]

/-- Transactions `1` at `100` and `2` at `200` begin, and `2` writes item `1`: a read of
    item `1` by transaction `1` conflicts. -/
def youngerWrite : TimestampOrdering :=
  ((empty.beginTransaction 1 100).beginTransaction 2 200).write 2 1 5 |>.2

end HpDb.Concurrency.TimestampOrdering

/-! ## The two-phase-locking `TransactionManager` -/

namespace HpDb.Locking.TransactionManager

/-- `releaseLocks` (lines 327–340): under `mtx`, one `LockManager::releaseLock`, which takes
    the lock manager's own mutex, per resource in `txn_locks[txn_id]`. -/
def releaseLocksLocks (tm : TransactionManager) (txnId : Int) : List LockOp :=
  guarded .transactionManager
    ((tm.txnLocks.find? txnId).getD [] |>.flatMap fun _ => guarded .lockManager [])

/-- `commitTransaction` (lines 342–349): `releaseLocks` under `mtx` for an active
    transaction. -/
def commitTransactionLocks (tm : TransactionManager) (txnId : Int) : List LockOp :=
  guarded .transactionManager
    (if txnId ∈ tm.activeTransactions then tm.releaseLocksLocks txnId else [])

/-- `rollbackTransaction` (lines 351–358), the same calls as `commitTransaction`. -/
def rollbackTransactionLocks (tm : TransactionManager) (txnId : Int) : List LockOp :=
  guarded .transactionManager
    (if txnId ∈ tm.activeTransactions then tm.releaseLocksLocks txnId else [])

theorem selfDeadlocks_commitTransactionLocks (tm : TransactionManager) (t : Int) :
    SelfDeadlocks (tm.commitTransactionLocks t) ↔ t ∈ tm.activeTransactions := by
  rw [commitTransactionLocks, selfDeadlocks_guarded]
  split_ifs with h
  · simp [h, releaseLocksLocks, runLocks_guarded_of_mem (List.mem_singleton_self _)]
  · simp [h, runLocks]

theorem selfDeadlocks_rollbackTransactionLocks (tm : TransactionManager) (t : Int) :
    SelfDeadlocks (tm.rollbackTransactionLocks t) ↔ t ∈ tm.activeTransactions :=
  selfDeadlocks_commitTransactionLocks tm t

theorem not_selfDeadlocks_releaseLocksLocks (tm : TransactionManager) (t : Int) :
    ¬ SelfDeadlocks (tm.releaseLocksLocks t) := by
  rw [releaseLocksLocks, selfDeadlocks_guarded,
    runLocks_flatMap_guarded_nil (by decide : Mutex.lockManager ∉ [Mutex.transactionManager])]
  simp

end HpDb.Locking.TransactionManager

/-! ## transactions.cpp's `TransactionManager` -/

namespace HpDb.Transactions

/-- `enum TransactionState` (lines 10–14). -/
inductive TransactionState where
  | active
  | committed
  | aborted
  deriving DecidableEq, Repr

/-- `class Transaction` (lines 16–29) without its log entries and isolation level, and with
    the `write_set` that `ConcurrencyControl` reads. -/
structure Transaction where
  transactionId : Int
  state : TransactionState
  writeSet : List Int
  deriving DecidableEq, Repr

/-- `class ConcurrencyControl` (lines 125–161): `locked_resources`, a set. -/
structure ConcurrencyControl where
  lockedResources : List Int
  deriving DecidableEq, Repr

namespace ConcurrencyControl

/-- `lockResource` (lines 129–135). -/
def lockResource (cc : ConcurrencyControl) (resource : Int) : Bool × ConcurrencyControl :=
  if resource ∈ cc.lockedResources then (false, cc)
  else (true, ⟨cc.lockedResources ++ [resource]⟩)

/-- `releaseLocks` (lines 137–141). -/
def releaseLocks (cc : ConcurrencyControl) (tx : Transaction) : ConcurrencyControl :=
  ⟨cc.lockedResources.filter fun r => r ∉ tx.writeSet⟩

/-- `rollback` (lines 157–160). -/
def rollback (cc : ConcurrencyControl) (tx : Transaction) : ConcurrencyControl := cc.releaseLocks tx

/-- The loop of `commit` (lines 146–151) over the resources left. -/
def commitLoop (tx : Transaction) : List Int → ConcurrencyControl → Bool × ConcurrencyControl
  | [], cc => (true, cc.releaseLocks tx)
  | r :: rs, cc =>
    if (cc.lockResource r).1 then commitLoop tx rs (cc.lockResource r).2
    else (false, (cc.lockResource r).2.rollback tx)

/-- `commit` (lines 144–155). -/
def commit (cc : ConcurrencyControl) (tx : Transaction) : Bool × ConcurrencyControl :=
  commitLoop tx tx.writeSet cc

end ConcurrencyControl

/-- `class TransactionManager` (lines 31–122): `active_transactions` and `cc`; the write-ahead
    log only prints. -/
structure TransactionManager where
  activeTransactions : Int → Option Transaction
  cc : ConcurrencyControl

namespace TransactionManager

open HpDb.Locking

/-- `abortTransaction` (lines 83–97): `tx_mutex`, and nothing under it that locks. -/
def abortTransactionLocks : List LockOp := guarded .txMutex []

/-- `commitTransaction` (lines 61–81): `abortTransaction` under `tx_mutex` when `cc.commit`
    fails. -/
def commitTransactionLocks (tm : TransactionManager) (txId : Int) : List LockOp :=
  guarded .txMutex
    (match tm.activeTransactions txId with
      | none => []
      | some tx => if (tm.cc.commit tx).1 then [] else abortTransactionLocks)

theorem selfDeadlocks_commitTransactionLocks (tm : TransactionManager) (txId : Int) :
    SelfDeadlocks (tm.commitTransactionLocks txId) ↔
      ∃ tx, tm.activeTransactions txId = some tx ∧ (tm.cc.commit tx).1 = false := by
  rw [commitTransactionLocks, selfDeadlocks_guarded]
  cases h : tm.activeTransactions txId with
  | none => simp [runLocks]
  | some tx =>
    cases hc : (tm.cc.commit tx).1
    · simp [hc, abortTransactionLocks, runLocks_guarded_of_mem (List.mem_singleton_self _)]
    · simp [hc, runLocks]

/-- A transaction whose write set names resource `7` twice: `cc.commit` fails at its
    second `lockResource`. -/
def repeatedWrite : TransactionManager :=
  ⟨fun id => if id = 1 then some ⟨1, .active, [7, 7]⟩ else none, ⟨[]⟩⟩

end TransactionManager

end HpDb.Transactions

/-! ## `LogFileManager` -/

namespace HpDb.Storage.LogFileManager

open HpDb.Locking

/-- `logRecord` (lines 255–259) and `flush` (lines 261–264) take `logMutex_`. -/
def logRecordLocks : List LockOp := guarded .logMutex []

/-- `flush` (lines 261–264). -/
def flushLocks : List LockOp := guarded .logMutex []

/-- `commitTransaction` (lines 275–281): `logRecord` and `flush` under `logMutex_`, in every
    state and for every `txId`. -/
def commitTransactionLocks : List LockOp := guarded .logMutex (logRecordLocks ++ flushLocks)

/-- `abortTransaction` (lines 283–289). -/
def abortTransactionLocks : List LockOp := guarded .logMutex (logRecordLocks ++ flushLocks)

/-- `checkpoint` (lines 291–297). -/
def checkpointLocks : List LockOp := guarded .logMutex (logRecordLocks ++ flushLocks)

end HpDb.Storage.LogFileManager

open HpDb.Locking in
/-- **The transactional core locks mutexes it holds.** For each operation above,
    exactly when it calls `lock()` on a mutex its call chain holds: the three
    `LogFileManager` methods always; the two-phase-locking `commitTransaction` and
    `rollbackTransaction` for an active transaction; `read` and `write` on a conflict, which
    `youngerWrite` reaches; transactions.cpp's `commitTransaction` when `cc.commit` fails,
    as it does for a write set that names a resource twice (`repeatedWrite`).
    `abort_transaction`, `commit_transaction`, `releaseLocks` and transactions.cpp's
    `abortTransaction` never do. -/
theorem transactional_core_self_deadlocks :
    SelfDeadlocks HpDb.Storage.LogFileManager.commitTransactionLocks ∧
      SelfDeadlocks HpDb.Storage.LogFileManager.abortTransactionLocks ∧
      SelfDeadlocks HpDb.Storage.LogFileManager.checkpointLocks ∧
      (∀ tm t, SelfDeadlocks (TransactionManager.commitTransactionLocks tm t) ↔
        t ∈ tm.activeTransactions) ∧
      (∀ tm t, SelfDeadlocks (TransactionManager.rollbackTransactionLocks tm t) ↔
        t ∈ tm.activeTransactions) ∧
      (∀ tm t, ¬ SelfDeadlocks (TransactionManager.releaseLocksLocks tm t)) ∧
      SelfDeadlocks ((TransactionManager.empty.beginTransaction 1).commitTransactionLocks 1) ∧
      (∀ s t x, SelfDeadlocks (HpDb.Concurrency.TimestampOrdering.readLocks s t x) ↔
        s.ReadConflict t x) ∧
      (∀ s t x, SelfDeadlocks (HpDb.Concurrency.TimestampOrdering.writeLocks s t x) ↔
        s.WriteConflict t x) ∧
      ¬ SelfDeadlocks HpDb.Concurrency.TimestampOrdering.abortTransactionLocks ∧
      ¬ SelfDeadlocks HpDb.Concurrency.TimestampOrdering.commitTransactionLocks ∧
      HpDb.Concurrency.TimestampOrdering.youngerWrite.ReadConflict 1 1 ∧
      (∀ tm txId,
        SelfDeadlocks (HpDb.Transactions.TransactionManager.commitTransactionLocks tm txId) ↔
          ∃ tx, tm.activeTransactions txId = some tx ∧ (tm.cc.commit tx).1 = false) ∧
      ¬ SelfDeadlocks HpDb.Transactions.TransactionManager.abortTransactionLocks ∧
      SelfDeadlocks (HpDb.Transactions.TransactionManager.repeatedWrite.commitTransactionLocks 1) :=
  ⟨by decide, by decide, by decide, TransactionManager.selfDeadlocks_commitTransactionLocks,
    TransactionManager.selfDeadlocks_rollbackTransactionLocks,
    TransactionManager.not_selfDeadlocks_releaseLocksLocks, by decide,
    HpDb.Concurrency.TimestampOrdering.selfDeadlocks_readLocks,
    HpDb.Concurrency.TimestampOrdering.selfDeadlocks_writeLocks, by decide, by decide,
    ⟨⟨1, 100, 0⟩, ⟨1, 0, 200, 5⟩, rfl, rfl, by decide⟩,
    HpDb.Transactions.TransactionManager.selfDeadlocks_commitTransactionLocks, by decide,
    by decide⟩
