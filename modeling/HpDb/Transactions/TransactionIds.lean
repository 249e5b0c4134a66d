import Mathlib.Data.List.Nodup
import HpDb.Locking.SelfDeadlock

/-!
# Transaction ids (transactions/transactions.cpp, storage/disk_storage/data_file_manager.cpp)

transactions.cpp's `TransactionManager::beginTransaction` takes its id from
`generateTransactionId`, which returns `++next_id` of a `static int next_id = 0` that every
manager shares, and stores a new active `Transaction` under that id; `logBegin` only prints.
data_file_manager.cpp's `TransactionManager::beginTransaction` returns `nextTxId_++` of an
`int` that starts at `1`, and logs a `Begin` record of type `INSERT`.

`int` is `BitVec 32`, read as a signed number (`BitVec.toInt`), so its `++` wraps modulo
`2^32`. Both managers return the same ids from their start: the `k`-th call, counted from
`1`, returns `k` wrapped into the range of `int` (`txIds`).

Results:
* `beginTransactions_ids`, `Storage.TransactionManager.beginTransactions_ids`: the ids of
  any number of calls of either manager are `txIds`.
* `beginTransaction_ids_iff`: the ids of `n` calls of either manager strictly increase
  exactly when `n < 2^31`, and are distinct exactly when `n ≤ 2^32`.
* `transaction_ids_wrap`: the `2^31`-th call of either manager returns `-2^31`, below the
  id `2^31 - 1` before it, and the ids of `2^32 + 1` calls repeat.
-/

namespace HpDb.Transactions

/-- The ids of `n` calls from the start: the `k`-th, counted from `1`, is `k` as an `int`. -/
def txIds (n : Nat) : List Int := (List.range n).map fun k => (BitVec.ofNat 32 (k + 1)).toInt

/-! ## The ids of `n` calls -/

theorem toInt_ofNat_32 (x : Nat) : (BitVec.ofNat 32 x).toInt =
    if x % 4294967296 < 2147483648 then ((x % 4294967296 : Nat) : Int)
    else ((x % 4294967296 : Nat) : Int) - 4294967296 := by
  rw [BitVec.toInt_eq_toNat_cond, BitVec.toNat_ofNat]
  split_ifs <;> first | rfl | omega

@[simp] theorem length_txIds (n : Nat) : (txIds n).length = n := by simp [txIds]

theorem getElem_txIds (n k : Nat) (hk : k < (txIds n).length) :
    (txIds n)[k] = (BitVec.ofNat 32 (k + 1)).toInt := by
  simp [txIds]

/-- The ids strictly increase until the `2^31`-th, which wraps to `-2^31`. -/
theorem txIds_increasing_iff (n : Nat) : (txIds n).Pairwise (· < ·) ↔ n < 2147483648 := by
  rw [List.pairwise_iff_getElem]
  constructor
  · intro h
    by_contra hn
    have hwrap := h 2147483646 2147483647 (by simp; omega) (by simp; omega) (by omega)
    rw [getElem_txIds, getElem_txIds, toInt_ofNat_32, toInt_ofNat_32] at hwrap
    split_ifs at hwrap <;> omega
  · intro hn i j hi hj hij
    simp only [length_txIds] at hi hj
    rw [getElem_txIds, getElem_txIds, toInt_ofNat_32, toInt_ofNat_32]
    split_ifs <;> omega

/-- The ids are distinct until the `2^32 + 1`-th, which is `1` again. -/
theorem txIds_nodup_iff (n : Nat) : (txIds n).Nodup ↔ n ≤ 4294967296 := by
  rw [List.Nodup, List.pairwise_iff_getElem]
  constructor
  · intro h
    by_contra hn
    have hrepeat := h 0 4294967296 (by simp; omega) (by simp; omega) (by omega)
    rw [getElem_txIds, getElem_txIds, toInt_ofNat_32, toInt_ofNat_32] at hrepeat
    split_ifs at hrepeat <;> omega
  · intro hn i j hi hj hij
    simp only [length_txIds] at hi hj
    rw [getElem_txIds, getElem_txIds, toInt_ofNat_32, toInt_ofNat_32]
    split_ifs <;> omega

/-! ## transactions.cpp's `TransactionManager` -/

/-- `generateTransactionId()` (lines 113–116): `++next_id` on the `static int next_id`; the
    new value is the result and the static after the call. -/
def generateTransactionId (nextId : BitVec 32) : BitVec 32 := nextId + 1

namespace TransactionManager

/-- `beginTransaction(isolation_level)` (lines 50–59), with the static `next_id` before the
    call: the new id, which is also `next_id` after the call, and the manager with a new
    active transaction under it, its `write_set` empty. The isolation level is stored only in
    the `Transaction`, which this model keeps without it; `logBegin` only prints. -/
def beginTransaction (m : TransactionManager) (nextId : BitVec 32) :
    BitVec 32 × TransactionManager :=
  let txId := generateTransactionId nextId
  (txId, { m with activeTransactions :=
    Function.update m.activeTransactions txId.toInt (some ⟨txId.toInt, .active, []⟩) })

/-- `n` calls of `beginTransaction` with the static `next_id` at `nextId`: the ids returned,
    in order, and the manager and the static after them. -/
def beginTransactions : Nat → TransactionManager → BitVec 32 →
    List Int × TransactionManager × BitVec 32
  | 0, m, nextId => ([], m, nextId)
  | n + 1, m, nextId =>
    let r := beginTransactions n (m.beginTransaction nextId).2 (m.beginTransaction nextId).1
    ((m.beginTransaction nextId).1.toInt :: r.1, r.2)

theorem beginTransactions_fst (n : Nat) : ∀ (m : TransactionManager) (nextId : BitVec 32),
    (beginTransactions n m nextId).1 =
      (List.range n).map fun k => (nextId + BitVec.ofNat 32 (k + 1)).toInt := by
  induction n with
  | zero => intro _ _; rfl
  | succ n ih =>
    intro m nextId
    simp only [beginTransactions, ih, List.range_succ_eq_map, List.map_cons, List.map_map]
    congr 2
    funext k
    simp only [Function.comp_apply, beginTransaction, generateTransactionId]
    congr 1
    bv_omega

/-- From the start of the program, where the static `next_id` is `0`, the ids of `n` calls on
    any manager are `txIds n`. -/
theorem beginTransactions_ids (m : TransactionManager) (n : Nat) :
    (m.beginTransactions n 0).1 = txIds n := by
  rw [beginTransactions_fst, txIds]
  congr 1
  funext k
  congr 1
  bv_omega

example : (beginTransactions 3 ⟨fun _ => none, ⟨[]⟩⟩ 2147483645).1 =
    [2147483646, 2147483647, -2147483648] := by
  decide

end TransactionManager

end HpDb.Transactions

/-! ## data_file_manager.cpp's `TransactionManager` -/

namespace HpDb.Storage

/-- `enum RecordType` of `LogRecord` (line 218). -/
inductive RecordType where
  | INSERT | DELETE | UPDATE | COMMIT | ABORT
  deriving DecidableEq, Repr

/-- `class LogRecord` (lines 216–238) without its timestamp, which only `toString` reads. -/
structure LogRecord where
  type : RecordType
  txId : BitVec 32
  data : String
  deriving DecidableEq, Repr

/-- `class LogFileManager` (lines 240–309): `pendingLogs_`; the log file is left out. -/
structure LogFileManager where
  pendingLogs : List LogRecord
  deriving DecidableEq, Repr

/-- `logRecord(record)` (lines 255–259): the record is written to the log file and appended
    to `pendingLogs_`. -/
def LogFileManager.logRecord (logFileManager : LogFileManager) (record : LogRecord) :
    LogFileManager :=
  ⟨logFileManager.pendingLogs ++ [record]⟩

/-- `class TransactionManager` (lines 311–335), its `logFileManager_` and `nextTxId_`. -/
structure TransactionManager where
  logFileManager : LogFileManager
  nextTxId : BitVec 32
  deriving DecidableEq, Repr

namespace TransactionManager

/-- `TransactionManager(logFileManager)` (line 313). -/
def new (logFileManager : LogFileManager) : TransactionManager := ⟨logFileManager, 1⟩

/-- `beginTransaction()` (lines 315–321): `nextTxId_++`, and a `Begin` record of type
    `INSERT` for the id. -/
def beginTransaction (m : TransactionManager) : BitVec 32 × TransactionManager :=
  (m.nextTxId, ⟨m.logFileManager.logRecord ⟨.INSERT, m.nextTxId, "Begin"⟩, m.nextTxId + 1⟩)

/-- `n` calls of `beginTransaction`: the ids returned, in order, and the manager after them. -/
def beginTransactions : Nat → TransactionManager → List Int × TransactionManager
  | 0, m => ([], m)
  | n + 1, m =>
    let r := beginTransactions n m.beginTransaction.2
    (m.beginTransaction.1.toInt :: r.1, r.2)

theorem beginTransactions_fst (n : Nat) : ∀ m : TransactionManager,
    (beginTransactions n m).1 =
      (List.range n).map fun k => (m.nextTxId + BitVec.ofNat 32 k).toInt := by
  induction n with
  | zero => intro _; rfl
  | succ n ih =>
    intro m
    simp only [beginTransactions, ih, List.range_succ_eq_map, List.map_cons, List.map_map]
    congr 1
    · simp only [BitVec.ofNat_eq_ofNat, BitVec.add_zero]; rfl
    · congr 1
      funext k
      simp only [Function.comp_apply, beginTransaction]
      congr 1
      bv_omega

/-- From a new manager, the ids of `n` calls are `txIds n`. -/
theorem beginTransactions_ids (logFileManager : LogFileManager) (n : Nat) :
    ((new logFileManager).beginTransactions n).1 = Transactions.txIds n := by
  rw [beginTransactions_fst, Transactions.txIds]
  congr 1
  funext k
  simp only [new]
  congr 1
  bv_omega

end TransactionManager

end HpDb.Storage

/-! ## Both managers -/

namespace HpDb.Transactions

theorem getElem?_txIds {n k : Nat} (hk : k < n) :
    (txIds n)[k]? = some (BitVec.ofNat 32 (k + 1)).toInt := by
  rw [txIds, List.getElem?_map, List.getElem?_range hk]; rfl

/-- **The ids of either manager, for any number of calls.** From the start, transactions.cpp's
    manager and data_file_manager.cpp's return the same ids; those of `n` calls strictly
    increase exactly when `n < 2^31`, and are distinct exactly when `n ≤ 2^32`. -/
theorem beginTransaction_ids_iff (m : TransactionManager) (logFileManager : Storage.LogFileManager)
    (n : Nat) :
    (m.beginTransactions n 0).1 = ((Storage.TransactionManager.new logFileManager).beginTransactions n).1 ∧
      ((m.beginTransactions n 0).1.Pairwise (· < ·) ↔ n < 2147483648) ∧
      ((m.beginTransactions n 0).1.Nodup ↔ n ≤ 4294967296) := by
  rw [TransactionManager.beginTransactions_ids, Storage.TransactionManager.beginTransactions_ids]
  exact ⟨rfl, txIds_increasing_iff n, txIds_nodup_iff n⟩

/-- **Transaction ids wrap.** The `2^31`-th call of either manager returns `-2^31`, after the
    id `2^31 - 1` of the call before it, so the ids of `2^31` calls do not increase; and the
    ids of `2^32 + 1` calls of either manager repeat. -/
theorem transaction_ids_wrap (m : TransactionManager) (logFileManager : Storage.LogFileManager) :
    (m.beginTransactions 2147483648 0).1[2147483646]? = some 2147483647 ∧
      (m.beginTransactions 2147483648 0).1[2147483647]? = some (-2147483648) ∧
      ((Storage.TransactionManager.new logFileManager).beginTransactions 2147483648).1[2147483647]? =
        some (-2147483648) ∧
      ¬(m.beginTransactions 2147483648 0).1.Pairwise (· < ·) ∧
      ¬((Storage.TransactionManager.new logFileManager).beginTransactions 2147483648).1.Pairwise (· < ·) ∧
      ¬(m.beginTransactions 4294967297 0).1.Nodup ∧
      ¬((Storage.TransactionManager.new logFileManager).beginTransactions 4294967297).1.Nodup := by
  simp only [TransactionManager.beginTransactions_ids, Storage.TransactionManager.beginTransactions_ids,
    txIds_increasing_iff, txIds_nodup_iff, getElem?_txIds (by omega : 2147483646 < 2147483648),
    getElem?_txIds (by omega : 2147483647 < 2147483648)]
  exact ⟨rfl, rfl, rfl, by omega, by omega, by omega, by omega⟩

end HpDb.Transactions
