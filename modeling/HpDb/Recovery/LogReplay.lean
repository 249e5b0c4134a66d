import Mathlib.Logic.Function.Basic
import Mathlib.Data.List.Basic

/-!
# Log replay (`transactions/recovery/log_replay.cpp`)

`LogReplay::replayLogs` scans the log once. It registers each transaction id the first
time it sees it, hands every `INSERT`, `DELETE` and `UPDATE` record to the matching
`apply` function at once, and marks a registered transaction `COMMITTED` or `ABORTED` at
a `COMMIT` or `ABORT` record. The states it records are never read back: a data record
is applied whether or not its transaction ever commits.

The `apply` functions only print; each is modelled as appending its record to an
`applied` trace. The source writes `transactions[txID]`, which needs a default
constructor `Transaction` lacks; the model reads it as the entry the preceding `find`
checks for. `LogType` has exactly the five values of the enum, so the `default:` branch of
the `switch` is never taken.

Results:
* `replayLogs_applies_uncommitted`: a log of one `INSERT`, with no `COMMIT`, has that
  record applied.
* `replayLogs_applied`: for every log, the applied trace is exactly the `INSERT`,
  `DELETE` and `UPDATE` records, in log order.
* `replayLogs_transactions`: for every log, a transaction id is registered exactly when
  it has a record, and its state is that of its last `COMMIT` or `ABORT` record
  (`ACTIVE` if it has none).
-/

namespace HpDb.Recovery

/-- `enum class LogType` (line 9). -/
inductive LogType where
  | insert
  | delete
  | update
  | commit
  | abort
  deriving DecidableEq, Repr

/-- `enum class TxState` (line 10). -/
inductive TxState where
  | active
  | committed
  | aborted
  deriving DecidableEq, Repr

/-- `struct LogRecord` (lines 13–19). -/
structure LogRecord where
  txID : Int
  logType : LogType
  tableName : String
  data : String
  lsn : Int
  deriving DecidableEq, Repr

/-- `class Transaction` (lines 22–31). -/
structure Transaction where
  txID : Int
  state : TxState
  deriving DecidableEq, Repr

/-- `class LogReplay` (lines 34–37), with the trace of the records applied so far. -/
structure LogReplay where
  transactions : Int → Option Transaction
  logs : List LogRecord
  applied : List LogRecord

namespace LogReplay

/-- The constructor (line 66): no transaction, nothing applied. -/
def new (logRecords : List LogRecord) : LogReplay := ⟨fun _ => none, logRecords, []⟩

/-- `applyInsert`, `applyDelete` and `applyUpdate` (lines 39–49). -/
def apply (lr : LogReplay) (log : LogRecord) : LogReplay :=
  { lr with applied := lr.applied ++ [log] }

/-- `processCommit` and `processAbort` (lines 51–63): set the state of a registered
    transaction. -/
def process (lr : LogReplay) (txID : Int) (state : TxState) : LogReplay :=
  match lr.transactions txID with
  | some txn =>
    { lr with transactions := Function.update lr.transactions txID (some { txn with state }) }
  | none => lr

/-- The check at the top of the loop of `replayLogs` (lines 72–74). -/
def register (lr : LogReplay) (txID : Int) : LogReplay :=
  match lr.transactions txID with
  | some _ => lr
  | none =>
    { lr with transactions := Function.update lr.transactions txID (some ⟨txID, .active⟩) }

/-- One turn of the loop of `replayLogs` (lines 71–95). -/
def replayOne (lr : LogReplay) (log : LogRecord) : LogReplay :=
  let lr := lr.register log.txID
  match log.logType with
  | .insert | .delete | .update => lr.apply log
  | .commit => lr.process log.txID .committed
  | .abort => lr.process log.txID .aborted

/-- `replayLogs` (lines 69–97). -/
def replayLogs (lr : LogReplay) : LogReplay := lr.logs.foldl replayOne lr

end LogReplay

/-- An `INSERT`, `DELETE` or `UPDATE` record. -/
def LogRecord.isData (log : LogRecord) : Bool :=
  log.logType == .insert || log.logType == .delete || log.logType == .update

/-! ## Redoing only committed work -/

/-- The data records of the transactions that have a `COMMIT` record and no `ABORT` record,
    in log order: what a redo of committed work alone applies. -/
def committedWork (logs : List LogRecord) : List LogRecord :=
  logs.filter fun log => log.isData &&
    logs.any (fun c => c.txID == log.txID && c.logType == .commit) &&
    !logs.any (fun a => a.txID == log.txID && a.logType == .abort)

/-- A log holding one `INSERT` of transaction `1`, which never commits. -/
def uncommittedInsert : List LogRecord := [⟨1, .insert, "t", "row", 1⟩]

/-- The `INSERT` is applied though its transaction has no `COMMIT` record. -/
theorem replayLogs_applies_uncommitted :
    (LogReplay.new uncommittedInsert).replayLogs.applied ≠ committedWork uncommittedInsert := by
  decide

/-! ## What replay applies -/

namespace LogReplay

@[simp] theorem register_applied (lr : LogReplay) (txID : Int) :
    (lr.register txID).applied = lr.applied := by
  unfold register; split <;> rfl

@[simp] theorem process_applied (lr : LogReplay) (txID : Int) (state : TxState) :
    (lr.process txID state).applied = lr.applied := by
  unfold process; split <;> rfl

theorem replayOne_applied (lr : LogReplay) (log : LogRecord) :
    (lr.replayOne log).applied = lr.applied ++ if log.isData then [log] else [] := by
  rcases log with ⟨_, _ | _ | _ | _ | _, _⟩ <;> simp [replayOne, apply, LogRecord.isData]

theorem foldl_replayOne_applied (logs : List LogRecord) (lr : LogReplay) :
    (logs.foldl replayOne lr).applied = lr.applied ++ logs.filter LogRecord.isData := by
  induction logs generalizing lr with
  | nil => simp
  | cons log logs ih =>
    rw [List.foldl_cons, ih, replayOne_applied, List.filter_cons]
    split <;> simp

end LogReplay

/-- **Replay applies every data record, in log order**, whatever becomes of its
    transaction. -/
theorem replayLogs_applied (logs : List LogRecord) :
    (LogReplay.new logs).replayLogs.applied = logs.filter LogRecord.isData := by
  simpa using LogReplay.foldl_replayOne_applied logs (LogReplay.new logs)

/-! ## The states replay records -/

/-- The state `COMMIT` or `ABORT` sets; `none` for a data record. -/
def LogType.outcome : LogType → Option TxState
  | .commit => some .committed
  | .abort => some .aborted
  | _ => none

/-- The state of `txID` after its records: that of its last `COMMIT` or `ABORT` record,
    `ACTIVE` if it has none. -/
def finalState (txID : Int) (logs : List LogRecord) : TxState :=
  ((logs.filter (·.txID = txID)).filterMap (·.logType.outcome)).getLastD .active

theorem finalState_concat (txID : Int) (logs : List LogRecord) (log : LogRecord) :
    finalState txID (logs ++ [log]) =
      if log.txID = txID then log.logType.outcome.getD (finalState txID logs)
      else finalState txID logs := by
  unfold finalState
  by_cases h : log.txID = txID
  · cases ho : log.logType.outcome <;> simp [List.filter_append, h, ho]
  · simp [List.filter_append, h]

/-- The entry of `txID` in the table of `lr` is what the records `logs` say of it. -/
def Tracks (txID : Int) (logs : List LogRecord) (lr : LogReplay) : Prop :=
  lr.transactions txID =
    if txID ∈ logs.map (·.txID) then some ⟨txID, finalState txID logs⟩ else none

namespace LogReplay

theorem register_transactions_self {lr : LogReplay} {logs : List LogRecord} {txID : Int}
    (h : Tracks txID logs lr) :
    (lr.register txID).transactions txID = some ⟨txID, finalState txID logs⟩ := by
  unfold Tracks at h
  unfold register
  split_ifs at h with hm
  · simp [h]
  · have hf : finalState txID logs = .active := by
      simp only [finalState]
      rw [List.filter_eq_nil_iff.mpr fun log hl => by
        simpa using fun e => hm (List.mem_map.mpr ⟨log, hl, e⟩)]
      rfl
    simp [h, hf]

theorem replayOne_transactions_of_ne (lr : LogReplay) {log : LogRecord} {txID : Int}
    (h : log.txID ≠ txID) : (lr.replayOne log).transactions txID = lr.transactions txID := by
  have hr : (lr.register log.txID).transactions txID = lr.transactions txID := by
    unfold register; split <;> simp [Function.update_noteq (Ne.symm h)]
  unfold replayOne process
  rcases log with ⟨_, _ | _ | _ | _ | _, _⟩ <;>
    simp only [apply] <;> (try split) <;> simp [Function.update_noteq (Ne.symm h), hr]

end LogReplay

/-- One record keeps the table in step with the log read so far. -/
theorem Tracks.replayOne {lr : LogReplay} {logs : List LogRecord} {txID : Int}
    (h : Tracks txID logs lr) (log : LogRecord) :
    Tracks txID (logs ++ [log]) (lr.replayOne log) := by
  unfold Tracks
  by_cases hl : log.txID = txID
  · have hreg := LogReplay.register_transactions_self (hl ▸ h)
    rw [if_pos (by simp [hl]), finalState_concat, if_pos hl]
    subst hl
    unfold LogReplay.replayOne LogReplay.process
    rcases log with ⟨t, _ | _ | _ | _ | _, _⟩ <;> simp_all [LogReplay.apply, LogType.outcome]
  · rw [LogReplay.replayOne_transactions_of_ne lr hl, h, finalState_concat, if_neg hl]
    simp [Ne.symm hl]

theorem Tracks.foldl {txID : Int} :
    ∀ (rest : List LogRecord) {logs : List LogRecord} {lr : LogReplay},
      Tracks txID logs lr → Tracks txID (logs ++ rest) (rest.foldl LogReplay.replayOne lr)
  | [], _, _, h => by simpa using h
  | log :: rest, logs, _, h => by
    simpa using Tracks.foldl rest (h.replayOne log)

/-- **The table replay leaves.** A transaction id is registered exactly when the log has
    a record of it, and its state is that of its last `COMMIT` or `ABORT` record, `ACTIVE`
    if it has none. -/
theorem replayLogs_transactions (logs : List LogRecord) (txID : Int) :
    (LogReplay.new logs).replayLogs.transactions txID =
      if txID ∈ logs.map (·.txID) then some ⟨txID, finalState txID logs⟩ else none := by
  have h₀ : Tracks txID [] (LogReplay.new logs) := by simp [Tracks, LogReplay.new]
  exact h₀.foldl logs

end HpDb.Recovery
