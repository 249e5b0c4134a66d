import Mathlib.Logic.Function.Basic
import Mathlib.Data.List.Basic

/-!
# `Database` with isolation levels (part_020, lines 8–138)

A `Database` holds the shared `data` and a vector of active transactions. Each
`Transaction` has a private map `local_data`, and its isolation level decides how `read`
and `write` use it:

* `READ_UNCOMMITTED`, `READ_COMMITTED`: a read returns `data.at(key)`, a write stores into
  `data` at once.
* `REPEATABLE_READ`, `SERIALIZABLE`: a read returns `local_data[key]` if present, and
  otherwise copies `data.at(key)` into `local_data`; a write stores into `local_data`.

`commit` copies all of `local_data` into `data`; `rollback` clears `local_data`. Both then
remove every transaction with that id. The database finds a transaction by id as the
first one in the vector with that id, and throws `Transaction not found` when there is
none; `data.at(key)` throws `std::out_of_range` when the key is missing.

The two levels in each pair differ only in how long they hold the static `data_mutex`,
which is not modelled. Maps are functions to `Option Int`: `commit` iterates over
`local_data` in hash order, and the keys are distinct, so the order does not matter.

Results:
* `Database.exec`, `Database.run`: one call and a run of calls, with what each returns.
* `getTransaction_replaceFirst`, `getTransaction_removeTransaction`,
  `getTransaction_beginTransaction`: a call on one transaction id leaves the lookup of
  every other id as it was.
-/

namespace HpDb.Isolation

/-- `enum class IsolationLevel` (lines 8–13). -/
inductive IsolationLevel where
  | readUncommitted
  | readCommitted
  | repeatableRead
  | serializable
  deriving DecidableEq, Repr

/-- `std::unordered_map<int, int>`. -/
abbrev IntMap := Int → Option Int

/-- The exceptions the calls can throw. -/
inductive DbError where
  /-- `std::runtime_error` with its message. -/
  | runtimeError (what : String)
  /-- `std::out_of_range`, from `unordered_map::at`. -/
  | outOfRange
  deriving DecidableEq, Repr

/-- `class Transaction` (lines 15–77). -/
structure Transaction where
  transactionId : Int
  isolationLevel : IsolationLevel
  active : Bool
  localData : IntMap

namespace Transaction

/-- `Transaction::read` (lines 24–47): the value read and the transaction after the read. -/
def read (txn : Transaction) (key : Int) (globalData : IntMap) : Except DbError (Int × Transaction) :=
  match txn.isolationLevel with
  | .readUncommitted | .readCommitted =>
    match globalData key with
    | some value => .ok (value, txn)
    | none => .error .outOfRange
  | .repeatableRead | .serializable =>
    match txn.localData key with
    | some value => .ok (value, txn)
    | none =>
      match globalData key with
      | some value =>
        .ok (value, { txn with localData := Function.update txn.localData key (some value) })
      | none => .error .outOfRange

/-- `Transaction::write` (lines 49–56): the transaction and the shared data after it. -/
def write (txn : Transaction) (key value : Int) (globalData : IntMap) : Transaction × IntMap :=
  match txn.isolationLevel with
  | .readUncommitted | .readCommitted => (txn, Function.update globalData key (some value))
  | .repeatableRead | .serializable =>
    ({ txn with localData := Function.update txn.localData key (some value) }, globalData)

/-- `Transaction::commit` (lines 58–64). -/
def commit (txn : Transaction) (globalData : IntMap) : Transaction × IntMap :=
  ({ txn with active := false }, fun key => (txn.localData key).or (globalData key))

/-- `Transaction::rollback` (lines 66–69). -/
def rollback (txn : Transaction) : Transaction :=
  { txn with localData := fun _ => none, active := false }

/-- The level writes straight into the shared data. -/
def WritesThrough (txn : Transaction) : Prop :=
  txn.isolationLevel = .readUncommitted ∨ txn.isolationLevel = .readCommitted

instance (txn : Transaction) : Decidable txn.WritesThrough :=
  inferInstanceAs (Decidable (_ ∨ _))

theorem read_ok {txn txn' : Transaction} {key v : Int} {globalData : IntMap}
    (h : txn.read key globalData = .ok (v, txn')) :
    txn'.transactionId = txn.transactionId ∧ txn'.isolationLevel = txn.isolationLevel := by
  unfold read at h
  split at h <;> (repeat' split at h) <;> cases h <;> exact ⟨rfl, rfl⟩

@[simp] theorem write_fst_transactionId (txn : Transaction) (key value : Int) (d : IntMap) :
    (txn.write key value d).1.transactionId = txn.transactionId := by
  unfold write; split <;> rfl

@[simp] theorem write_fst_isolationLevel (txn : Transaction) (key value : Int) (d : IntMap) :
    (txn.write key value d).1.isolationLevel = txn.isolationLevel := by
  unfold write; split <;> rfl

/-- A write of a transaction that does not write through leaves the shared data alone. -/
theorem write_snd_of_not_writesThrough {txn : Transaction} (h : ¬ txn.WritesThrough)
    (key value : Int) (d : IntMap) : (txn.write key value d).2 = d := by
  unfold WritesThrough at h
  unfold write; split <;> simp_all

@[simp] theorem rollback_transactionId (txn : Transaction) :
    txn.rollback.transactionId = txn.transactionId := rfl

@[simp] theorem commit_fst_transactionId (txn : Transaction) (d : IntMap) :
    (txn.commit d).1.transactionId = txn.transactionId := rfl

/-! ### The private map of a snapshot level -/

theorem read_of_localData {txn : Transaction} (hl : ¬ txn.WritesThrough) {key w : Int}
    (hw : txn.localData key = some w) (d : IntMap) : txn.read key d = .ok (w, txn) := by
  unfold WritesThrough at hl
  unfold read
  split <;> simp_all

theorem read_of_localData_none {txn : Transaction} (hl : ¬ txn.WritesThrough) {key : Int}
    (hn : txn.localData key = none) (d : IntMap) :
    txn.read key d = match d key with
      | some v => .ok (v, { txn with localData := Function.update txn.localData key (some v) })
      | none => .error .outOfRange := by
  unfold WritesThrough at hl
  unfold read
  split <;> simp_all

theorem read_localData_self {txn txn' : Transaction} (hl : ¬ txn.WritesThrough) {key v : Int}
    {d : IntMap} (h : txn.read key d = .ok (v, txn')) : txn'.localData key = some v := by
  unfold WritesThrough at hl
  unfold read at h
  split at h
  · simp_all
  · simp_all
  · split at h
    · cases h; assumption
    · split at h <;> cases h; simp
  · split at h
    · cases h; assumption
    · split at h <;> cases h; simp

theorem read_localData_of_some {txn txn' : Transaction} {key key' v w : Int} {d : IntMap}
    (hw : txn.localData key = some w) (h : txn.read key' d = .ok (v, txn')) :
    txn'.localData key = some w := by
  unfold read at h
  split at h <;> (repeat' split at h) <;> cases h <;> try exact hw
  all_goals
    rename_i hnone _ _
    have hne : key ≠ key' := fun e => by rw [e, hnone] at hw; cases hw
    simpa [Function.update_noteq hne] using hw

theorem write_fst_localData {txn : Transaction} (hl : ¬ txn.WritesThrough) (key value : Int)
    (d : IntMap) :
    (txn.write key value d).1.localData = Function.update txn.localData key (some value) := by
  unfold WritesThrough at hl
  unfold write; split <;> simp_all

end Transaction

/-- The fields `data` and `active_transactions` of `class Database` (lines 81–85). -/
structure Database where
  data : IntMap
  activeTransactions : List Transaction

/-- Put `txn` in the place of the first transaction with its id: the database works on the
    reference `get_transaction` returns. -/
def replaceFirst (txn : Transaction) : List Transaction → List Transaction
  | [] => []
  | t :: ts => if t.transactionId = txn.transactionId then txn :: ts else t :: replaceFirst txn ts

namespace Database

/-- The constructor (lines 87–92): keys `1`, `2`, `3` hold `100`, `200`, `300`. -/
def init : Database :=
  ⟨Function.update (Function.update (Function.update (fun _ => none) 1 (some 100)) 2
    (some 200)) 3 (some 300), []⟩

/-- `get_transaction` (lines 122–129). -/
def getTransaction (db : Database) (transactionId : Int) : Except DbError Transaction :=
  match db.activeTransactions.find? (·.transactionId = transactionId) with
  | some txn => .ok txn
  | none => .error (.runtimeError "Transaction not found")

/-- `remove_transaction` (lines 131–137): every transaction with that id goes. -/
def removeTransaction (db : Database) (transactionId : Int) : Database :=
  { db with activeTransactions := db.activeTransactions.filter (·.transactionId ≠ transactionId) }

/-- `begin_transaction` (lines 94–97). -/
def beginTransaction (db : Database) (transactionId : Int) (isolationLevel : IsolationLevel) :
    Database :=
  { db with activeTransactions :=
      db.activeTransactions ++ [⟨transactionId, isolationLevel, true, fun _ => none⟩] }

/-- `Database::read` (lines 99–102). -/
def read (db : Database) (transactionId key : Int) : Except DbError (Int × Database) := do
  let txn ← db.getTransaction transactionId
  let (value, txn) ← txn.read key db.data
  pure (value, { db with activeTransactions := replaceFirst txn db.activeTransactions })

/-- `Database::write` (lines 104–107). -/
def write (db : Database) (transactionId key value : Int) : Except DbError Database := do
  let txn ← db.getTransaction transactionId
  let (txn, data) := txn.write key value db.data
  pure ⟨data, replaceFirst txn db.activeTransactions⟩

/-- `commit_transaction` (lines 109–113). -/
def commitTransaction (db : Database) (transactionId : Int) : Except DbError Database := do
  let txn ← db.getTransaction transactionId
  let (txn, data) := txn.commit db.data
  pure (removeTransaction ⟨data, replaceFirst txn db.activeTransactions⟩ transactionId)

/-- `rollback_transaction` (lines 115–119). -/
def rollbackTransaction (db : Database) (transactionId : Int) : Except DbError Database := do
  let txn ← db.getTransaction transactionId
  pure (removeTransaction ⟨db.data, replaceFirst txn.rollback db.activeTransactions⟩
    transactionId)

end Database

/-! ## Runs -/

/-- A call of the `Database` interface. -/
inductive Call where
  | beginTransaction (transactionId : Int) (isolationLevel : IsolationLevel)
  | read (transactionId key : Int)
  | write (transactionId key value : Int)
  | commitTransaction (transactionId : Int)
  | rollbackTransaction (transactionId : Int)
  deriving DecidableEq, Repr

/-- The transaction a call names. -/
def Call.transactionId : Call → Int
  | .beginTransaction t _ | .read t _ | .write t _ _ | .commitTransaction t
  | .rollbackTransaction t => t

/-- What a call returns: the value read (`some`) or nothing, or the exception thrown. -/
abbrev Reply := Except DbError (Option Int)

namespace Database

/-- One call. A call that throws leaves the database as it was: each function throws
    before it changes anything. -/
def exec (db : Database) : Call → Reply × Database
  | .beginTransaction t l => (.ok none, db.beginTransaction t l)
  | .read t k =>
    match db.read t k with
    | .ok (v, db') => (.ok (some v), db')
    | .error e => (.error e, db)
  | .write t k v =>
    match db.write t k v with
    | .ok db' => (.ok none, db')
    | .error e => (.error e, db)
  | .commitTransaction t =>
    match db.commitTransaction t with
    | .ok db' => (.ok none, db')
    | .error e => (.error e, db)
  | .rollbackTransaction t =>
    match db.rollbackTransaction t with
    | .ok db' => (.ok none, db')
    | .error e => (.error e, db)

/-- A run of calls: what each returns, and the database at the end. -/
def run (db : Database) : List Call → List Reply × Database
  | [] => ([], db)
  | c :: cs =>
    let (r, db') := db.exec c
    let (rs, db'') := db'.run cs
    (r :: rs, db'')

/-! ## One call, unfolded -/

theorem exec_read (db : Database) (t k : Int) :
    db.exec (.read t k) =
      match db.getTransaction t with
      | .error e => (.error e, db)
      | .ok txn =>
        match txn.read k db.data with
        | .error e => (.error e, db)
        | .ok (v, txn') =>
          (.ok (some v), { db with activeTransactions := replaceFirst txn' db.activeTransactions }) := by
  simp only [exec, read, bind, Except.bind, pure, Except.pure]
  cases db.getTransaction t with
  | error e => rfl
  | ok txn =>
    simp only
    cases txn.read k db.data <;> rfl

theorem exec_write (db : Database) (t k v : Int) :
    db.exec (.write t k v) =
      match db.getTransaction t with
      | .error e => (.error e, db)
      | .ok txn =>
        (.ok none, ⟨(txn.write k v db.data).2, replaceFirst (txn.write k v db.data).1
          db.activeTransactions⟩) := by
  simp only [exec, write, bind, Except.bind, pure, Except.pure]
  cases db.getTransaction t <;> rfl

theorem exec_commitTransaction (db : Database) (t : Int) :
    db.exec (.commitTransaction t) =
      match db.getTransaction t with
      | .error e => (.error e, db)
      | .ok txn =>
        (.ok none, removeTransaction ⟨(txn.commit db.data).2, replaceFirst (txn.commit db.data).1
          db.activeTransactions⟩ t) := by
  simp only [exec, commitTransaction, bind, Except.bind, pure, Except.pure]
  cases db.getTransaction t <;> rfl

theorem exec_rollbackTransaction (db : Database) (t : Int) :
    db.exec (.rollbackTransaction t) =
      match db.getTransaction t with
      | .error e => (.error e, db)
      | .ok txn =>
        (.ok none, removeTransaction ⟨db.data, replaceFirst txn.rollback db.activeTransactions⟩ t) := by
  simp only [exec, rollbackTransaction, bind, Except.bind, pure, Except.pure]
  cases db.getTransaction t <;> rfl

@[simp] theorem run_nil (db : Database) : db.run [] = ([], db) := rfl

@[simp] theorem run_cons_snd (db : Database) (c : Call) (cs : List Call) :
    (db.run (c :: cs)).2 = ((db.exec c).2.run cs).2 := rfl

/-! ## Looking a transaction up -/

/-- `get_transaction` reads only the vector of transactions. -/
theorem getTransaction_eq (db : Database) (t : Int) :
    db.getTransaction t =
      match db.activeTransactions.find? (·.transactionId = t) with
      | some txn => .ok txn
      | none => .error (.runtimeError "Transaction not found") := rfl

theorem find?_replaceFirst_ne {txn : Transaction} {t : Int} (h : t ≠ txn.transactionId) :
    ∀ ts : List Transaction, (replaceFirst txn ts).find? (·.transactionId = t) =
      ts.find? (·.transactionId = t)
  | [] => rfl
  | a :: ts => by
    unfold replaceFirst
    split_ifs with ha
    · have hat : ¬ a.transactionId = t := fun e => h (e.symm.trans ha)
      simp [List.find?_cons, hat, Ne.symm h]
    · simp [List.find?_cons, find?_replaceFirst_ne h ts]

theorem find?_replaceFirst_self {txn : Transaction} :
    ∀ {ts : List Transaction}, (ts.find? (·.transactionId = txn.transactionId)).isSome →
      (replaceFirst txn ts).find? (·.transactionId = txn.transactionId) = some txn
  | [], h => by simp at h
  | a :: ts, h => by
    unfold replaceFirst
    split_ifs with ha
    · simp
    · rw [List.find?_cons_of_neg _ (by simpa using ha)] at h ⊢
      exact find?_replaceFirst_self h

theorem find?_filter_ne {t t' : Int} (h : t ≠ t') (ts : List Transaction) :
    (ts.filter (·.transactionId ≠ t')).find? (·.transactionId = t) =
      ts.find? (·.transactionId = t) := by
  induction ts with
  | nil => rfl
  | cons a ts ih =>
    by_cases ha' : a.transactionId = t'
    · have ha : ¬ a.transactionId = t := fun e => h (e ▸ ha')
      rw [List.filter_cons_of_neg (by simpa using ha'), ih,
        List.find?_cons_of_neg _ (by simpa using ha)]
    · rw [List.filter_cons_of_pos (by simpa using ha')]
      by_cases ha : a.transactionId = t
      · rw [List.find?_cons_of_pos _ (by simpa using ha), List.find?_cons_of_pos _ (by simpa using ha)]
      · rw [List.find?_cons_of_neg _ (by simpa using ha), List.find?_cons_of_neg _ (by simpa using ha),
          ih]

theorem find?_append_of_isSome {t : Int} {ts : List Transaction}
    (h : (ts.find? (·.transactionId = t)).isSome) (new : Transaction) :
    (ts ++ [new]).find? (·.transactionId = t) = ts.find? (·.transactionId = t) := by
  rw [List.find?_append]
  cases hf : ts.find? (·.transactionId = t) with
  | none => rw [hf] at h; cases h
  | some _ => rfl

theorem find?_append_ne {t : Int} {new : Transaction} (h : new.transactionId ≠ t)
    (ts : List Transaction) :
    (ts ++ [new]).find? (·.transactionId = t) = ts.find? (·.transactionId = t) := by
  rw [List.find?_append]
  cases ts.find? (·.transactionId = t) <;> simp [h]

theorem getTransaction_transactionId {db : Database} {t : Int} {txn : Transaction}
    (h : db.getTransaction t = .ok txn) : txn.transactionId = t := by
  rw [getTransaction_eq] at h
  split at h
  · rename_i hf; cases h; simpa using List.find?_some hf
  · cases h

theorem find?_isSome_of_getTransaction {db : Database} {t : Int} {txn : Transaction}
    (h : db.getTransaction t = .ok txn) :
    (db.activeTransactions.find? (·.transactionId = t)).isSome := by
  rw [getTransaction_eq] at h
  split at h
  · rename_i hf; simp [hf]
  · cases h

/-- Putting back the transaction found for `t` makes the lookup of `t` return it. -/
theorem getTransaction_replaceFirst {db : Database} {t : Int} {txn txn' : Transaction}
    (ht : db.getTransaction t = .ok txn) (hid : txn'.transactionId = t) (d : IntMap) :
    (⟨d, replaceFirst txn' db.activeTransactions⟩ : Database).getTransaction t = .ok txn' := by
  subst hid
  rw [getTransaction_eq]
  simp only
  rw [find?_replaceFirst_self (find?_isSome_of_getTransaction ht)]

theorem mem_replaceFirst {txn x : Transaction} :
    ∀ {ts : List Transaction}, x ∈ replaceFirst txn ts → x = txn ∨ x ∈ ts
  | [], h => by cases h
  | a :: ts, h => by
    unfold replaceFirst at h
    split_ifs at h
    · rcases List.mem_cons.mp h with rfl | h
      · exact .inl rfl
      · exact .inr (List.mem_cons_of_mem a h)
    · rcases List.mem_cons.mp h with rfl | h
      · exact .inr (List.mem_cons_self _ _)
      · exact (mem_replaceFirst h).imp_right (List.mem_cons_of_mem a)

/-- Dropping the transactions of `t` commutes with replacing one of another id. -/
theorem filter_replaceFirst {txn : Transaction} {t : Int} (h : txn.transactionId ≠ t) :
    ∀ ts : List Transaction, (replaceFirst txn ts).filter (·.transactionId ≠ t) =
      replaceFirst txn (ts.filter (·.transactionId ≠ t))
  | [] => rfl
  | a :: ts => by
    by_cases ha : a.transactionId = txn.transactionId
    · have hat : a.transactionId ≠ t := ha ▸ h
      rw [replaceFirst, if_pos ha, List.filter_cons_of_pos (by simpa using h),
        List.filter_cons_of_pos (by simpa using hat), replaceFirst, if_pos ha]
    · by_cases hat : a.transactionId = t
      · rw [replaceFirst, if_neg ha, List.filter_cons_of_neg (by simpa using hat),
          List.filter_cons_of_neg (by simpa using hat), filter_replaceFirst h ts]
      · rw [replaceFirst, if_neg ha, List.filter_cons_of_pos (by simpa using hat),
          List.filter_cons_of_pos (by simpa using hat), filter_replaceFirst h ts, replaceFirst,
          if_neg ha]

/-- Replacing a transaction of `t` is invisible once the transactions of `t` are dropped. -/
theorem filter_replaceFirst_self {txn : Transaction} {t : Int} (h : txn.transactionId = t) :
    ∀ ts : List Transaction, (replaceFirst txn ts).filter (·.transactionId ≠ t) =
      ts.filter (·.transactionId ≠ t)
  | [] => rfl
  | a :: ts => by
    by_cases ha : a.transactionId = txn.transactionId
    · rw [replaceFirst, if_pos ha, List.filter_cons_of_neg (by simpa using h),
        List.filter_cons_of_neg (by simpa using ha.trans h)]
    · rw [replaceFirst, if_neg ha]
      by_cases hat : a.transactionId = t
      · rw [List.filter_cons_of_neg (by simpa using hat), List.filter_cons_of_neg (by simpa using hat),
          filter_replaceFirst_self h ts]
      · rw [List.filter_cons_of_pos (by simpa using hat), List.filter_cons_of_pos (by simpa using hat),
          filter_replaceFirst_self h ts]

theorem mem_of_getTransaction {db : Database} {t : Int} {txn : Transaction}
    (h : db.getTransaction t = .ok txn) : txn ∈ db.activeTransactions := by
  rw [getTransaction_eq] at h
  split at h
  · rename_i hf; cases h; exact List.mem_of_find?_eq_some hf
  · cases h

/-- No transaction with id `t` is active. -/
def Inactive (db : Database) (t : Int) : Prop := ∀ txn, db.getTransaction t ≠ .ok txn

theorem getTransaction_beginTransaction_self {db : Database} {t : Int} (h : db.Inactive t)
    (l : IsolationLevel) :
    (db.beginTransaction t l).getTransaction t = .ok ⟨t, l, true, fun _ => none⟩ := by
  have hn : db.activeTransactions.find? (·.transactionId = t) = none := by
    cases hf : db.activeTransactions.find? (·.transactionId = t) with
    | none => rfl
    | some txn => exact absurd (by rw [getTransaction_eq, hf]) (h txn)
  rw [getTransaction_eq]
  simp [beginTransaction, List.find?_append, hn]

theorem inactive_removeTransaction (db : Database) (t : Int) : (db.removeTransaction t).Inactive t := by
  intro txn h
  rw [getTransaction_eq] at h
  have hn : (db.activeTransactions.filter (·.transactionId ≠ t)).find? (·.transactionId = t) = none :=
    List.find?_eq_none.mpr fun x hx => by simpa using (List.mem_filter.mp hx).2
  simp only [removeTransaction, hn] at h
  cases h

/-- The lookup of `t` depends only on the transactions with id `t`. -/
theorem getTransaction_congr {db db' : Database} {t : Int}
    (h : db.activeTransactions.find? (·.transactionId = t) =
      db'.activeTransactions.find? (·.transactionId = t)) :
    db.getTransaction t = db'.getTransaction t := by
  rw [getTransaction_eq, getTransaction_eq, h]

/-- A call of another transaction, or a begin of `t` while `t` is active, leaves the
    lookup of `t` as it was. -/
theorem exec_getTransaction_of_ne {c : Call} {t : Int} (h : c.transactionId ≠ t)
    (db : Database) : (db.exec c).2.getTransaction t = db.getTransaction t := by
  have hid : ∀ {u : Int} {txn : Transaction}, db.getTransaction u = .ok txn → u ≠ t →
      t ≠ txn.transactionId := fun hu hne => (getTransaction_transactionId hu).symm ▸ hne.symm
  cases c <;> simp only [Call.transactionId] at h
  case beginTransaction u l => exact getTransaction_congr (find?_append_ne h _)
  case read u k =>
    rw [exec_read]
    split
    · rfl
    · rename_i txn hu
      split
      · rfl
      · rename_i v txn' hr
        exact getTransaction_congr (find?_replaceFirst_ne
          ((Transaction.read_ok hr).1 ▸ hid hu h) _)
  case write u k v =>
    rw [exec_write]
    split
    · rfl
    · rename_i txn hu
      exact getTransaction_congr (find?_replaceFirst_ne (by simpa using hid hu h) _)
  case commitTransaction u =>
    rw [exec_commitTransaction]
    split
    · rfl
    · rename_i txn hu
      refine getTransaction_congr ?_
      simp only [removeTransaction]
      rw [find?_filter_ne (Ne.symm h), find?_replaceFirst_ne (by simpa using hid hu h)]
  case rollbackTransaction u =>
    rw [exec_rollbackTransaction]
    split
    · rfl
    · rename_i txn hu
      refine getTransaction_congr ?_
      simp only [removeTransaction]
      rw [find?_filter_ne (Ne.symm h), find?_replaceFirst_ne (by simpa using hid hu h)]

end Database

end HpDb.Isolation
