import Mathlib.Data.List.Basic
import HpDb.Containers
import HpDb.Transactions.WriteAheadLog
import HpDb.Transactions.TransactionIds

/-!
# Write-ahead log, checkpoints and recovery (unnamed/part_019)

`TransactionManager` keeps its transactions in an `unordered_map` from id to
`Transaction` and gives each new one the id `++last_transaction_id`. A commit writes every
operation of the transaction to the write-ahead log as a line
`Transaction <id>: <operation>`, then `Transaction <id> committed.`; an abort writes
`Transaction <id> aborted.`. `create_checkpoint` writes the states to the checkpoint file,
which nothing reads back. `recover` reads the log line by line: a line that contains
`committed` commits, and a line that contains `aborted` aborts, the transaction whose id
`extract_transaction_id` cuts out of the line, if the map has it.

The log and the checkpoint are `std::ofstream`s opened for appending. What `<<` writes waits in
the stream's buffer, and the library passes a prefix of the buffer to the file when it chooses
(when the buffer fills, or at `close`); the lines end in `"\n"`, not `std::endl`, so nothing
flushes them. `recover` opens the file named `wal.log`, whatever name the log was opened on, and
reads what has reached it. The model keeps the files on disk, and each stream's name and
buffer; a flush is a step of its own that moves any number of buffered characters to the file.
`size_t` arithmetic is modulo `2^64`, `std::string::npos` is `none`, and a thrown exception is
`none`. `int` is `BitVec 32`: the ids `++last_transaction_id` hands out wrap past `2^31 - 1`
and come round again after `2^32` calls, which is where the theorem stops.

Results:
* `recover_restores_earlier_states`: for a manager whose log is `wal.log` on a fresh disk, after
  any run of calls and flushes without `recover`, with operations recovery reads nothing from,
  `recover` sets each transaction the manager held after some prefix of the run as committed or
  aborted back to that state, and leaves the others alone. Once the buffer is empty, `recover`
  changes nothing. A commit on the file and a later abort still in the buffer make `recover`
  commit the aborted transaction again.
-/

namespace HpDb.Recovery.Checkpointing

open HpDb.Transactions (toDecimal stoi getlineAll txIds)

/-- `enum class TransactionState` (lines 11–15). -/
inductive TransactionState where
  | ACTIVE
  | COMMITTED
  | ABORTED
  deriving DecidableEq, Repr

/-- `class Transaction` (lines 17–37). -/
structure Transaction where
  id : Int
  state : TransactionState
  operations : List (List Char)
  deriving DecidableEq, Repr

namespace Transaction

/-- `Transaction(int tid)` (line 23). -/
def new (tid : Int) : Transaction := ⟨tid, .ACTIVE, []⟩

/-- `Transaction::add_operation` (lines 25–27). -/
def addOperation (txn : Transaction) (operation : List Char) : Transaction :=
  { txn with operations := txn.operations ++ [operation] }

/-- `Transaction::commit` (lines 29–31). -/
def commit (txn : Transaction) : Transaction := { txn with state := .COMMITTED }

/-- `Transaction::abort` (lines 33–35). -/
def abort (txn : Transaction) : Transaction := { txn with state := .ABORTED }

end Transaction

/-! ## What the manager writes -/

/-- `"Transaction " << id`, the start of every line of the log and the checkpoint. -/
def transactionPrefix (id : Int) : List Char := "Transaction ".toList ++ toDecimal id

/-- The line `log_transaction` writes for one operation. -/
def operationLine (id : Int) (operation : List Char) : List Char :=
  transactionPrefix id ++ ": ".toList ++ operation

/-- The line `log_commit` writes. -/
def commitLine (id : Int) : List Char := transactionPrefix id ++ " committed.".toList

/-- The line `log_abort` writes. -/
def abortLine (id : Int) : List Char := transactionPrefix id ++ " aborted.".toList

/-- `WriteAheadLog::log_transaction` (lines 56–60). -/
def logTransaction (txn : Transaction) : List Char :=
  txn.operations.flatMap fun operation => operationLine txn.id operation ++ ['\n']

/-- `WriteAheadLog::log_commit` (lines 62–64). -/
def logCommit (txnId : Int) : List Char := commitLine txnId ++ ['\n']

/-- `WriteAheadLog::log_abort` (lines 66–68). -/
def logAbort (txnId : Int) : List Char := abortLine txnId ++ ['\n']

/-- `CheckpointManager::create_checkpoint` (lines 89–97), over the map's entries in its
    iteration order. An aborted transaction is written as `active`. -/
def createCheckpoint (transactions : List (Int × Transaction)) : List Char :=
  "Checkpoint begin\n".toList ++
    transactions.flatMap (fun e => transactionPrefix e.2.id ++ " state: ".toList ++
      (if e.2.state = .COMMITTED then "committed" else "active").toList ++ ['\n']) ++
    "Checkpoint end\n".toList

/-! ## What recovery reads -/

/-- `std::string::find(str)`: the first position at which `pat` starts in `s`; `none` is
    `npos`. -/
def find : List Char → List Char → Option Nat
  | [], pat => if pat.isPrefixOf [] then some 0 else none
  | c :: t, pat => if pat.isPrefixOf (c :: t) then some 0 else (find t pat).map (· + 1)

/-- `std::string::npos`. -/
def npos : Nat := 18446744073709551615

/-- `std::string::substr(pos, count)`; `none` is the `out_of_range` thrown for a `pos` past
    the end. -/
def substr (s : List Char) (pos count : Nat) : Option (List Char) :=
  if pos ≤ s.length then some ((s.drop pos).take count) else none

/-- `RecoveryManager::extract_transaction_id` (lines 129–132), in `size_t` arithmetic. -/
def extractTransactionId (line : List Char) : Option Int :=
  let pos := (find line "Transaction ".toList).getD npos
  let colon := (find line ":".toList).getD npos
  (substr line ((pos + 12) % 18446744073709551616)
      ((colon + 36893488147419103232 - pos - 12) % 18446744073709551616)).bind stoi

/-- One turn of the loop of `RecoveryManager::recover_from_log` (lines 110–123). -/
def recoverLine (transactions : List (Int × Transaction)) (line : List Char) :
    Option (List (Int × Transaction)) :=
  if (find line "committed".toList).isSome then do
    let txnId ← extractTransactionId line
    pure (if (transactions.lookup txnId).isSome then modify transactions txnId Transaction.commit
      else transactions)
  else if (find line "aborted".toList).isSome then do
    let txnId ← extractTransactionId line
    pure (if (transactions.lookup txnId).isSome then modify transactions txnId Transaction.abort
      else transactions)
  else pure transactions

/-- `RecoveryManager::recover_from_log` (lines 103–126) on the contents of the log. -/
def recoverFromLog (log : List Char) (transactions : List (Int × Transaction)) :
    Option (List (Int × Transaction)) :=
  (getlineAll '\n' log []).foldlM recoverLine transactions


/-! ## Files and streams -/

/-- The files on disk: each name with its contents. -/
abbrev Disk := List (List Char × List Char)

/-- `open(filename, std::ios::app)`: a missing file is created empty, an existing one is kept to
    be appended to. -/
def openAppend (disk : Disk) (filename : List Char) : Disk :=
  if (disk.lookup filename).isSome then disk else disk ++ [(filename, [])]

/-- The file `filename` with `text` appended. -/
def appendFile (disk : Disk) (filename text : List Char) : Disk :=
  disk.map fun file => if file.1 = filename then (file.1, file.2 ++ text) else file

/-- An `std::ofstream` open for appending: its file, and what `<<` has given it that its buffer
    has not yet passed to the file. -/
structure Ofstream where
  filename : List Char
  buffer : List Char
  deriving DecidableEq, Repr

namespace Ofstream

/-- `<<`: the text joins the buffer. -/
def write (o : Ofstream) (text : List Char) : Ofstream := { o with buffer := o.buffer ++ text }

/-- The buffer passes its first `count` characters to the file. -/
def flush (o : Ofstream) (disk : Disk) (count : Nat) : Ofstream × Disk :=
  ({ o with buffer := o.buffer.drop count }, appendFile disk o.filename (o.buffer.take count))

end Ofstream

theorem lookup_openAppend (disk : Disk) (filename k : List Char) :
    (openAppend disk filename).lookup k =
      if k = filename then some ((disk.lookup filename).getD []) else disk.lookup k := by
  unfold openAppend
  split_ifs with hs hk hk
  · subst hk; obtain ⟨v, hv⟩ := Option.isSome_iff_exists.mp hs; simp [hv]
  · rfl
  · subst hk; simp [List.lookup_append, Option.not_isSome_iff_eq_none.mp hs]
  · simp [List.lookup_append, List.lookup_cons, beq_false_of_ne hk]

theorem lookup_appendFile (disk : Disk) (filename text k : List Char) :
    (appendFile disk filename text).lookup k =
      if k = filename then (disk.lookup filename).map (· ++ text) else disk.lookup k := by
  induction disk with
  | nil => split_ifs <;> rfl
  | cons file disk ih =>
    obtain ⟨a, v⟩ := file
    simp only [appendFile, List.map_cons] at ih ⊢
    by_cases ha : a = filename
    · subst ha
      simp only [if_true, List.lookup_cons, ih]
      cases h : k == a <;> simp_all
    · simp only [ha, if_false, List.lookup_cons, ih]
      cases h : k == a <;> cases h' : filename == a <;> simp_all

/-! ## The manager -/

/-- `class TransactionManager` (lines 137–177): its fields, with `wal` and `checkpoint_manager`
    as their streams `log_file` and `checkpoint_file`, and the files on disk. -/
structure TransactionManager where
  lastTransactionId : BitVec 32
  transactions : List (Int × Transaction)
  logFile : Ofstream
  checkpointFile : Ofstream
  disk : Disk
  deriving DecidableEq, Repr

namespace TransactionManager

/-- The constructor (lines 138–139): `WriteAheadLog(wal_file)` and
    `CheckpointManager(checkpoint_file)` open their files for appending (lines 43–48, 76–81). -/
def new (walFile checkpointFile : List Char) (disk : Disk) : TransactionManager :=
  ⟨0, [], ⟨walFile, []⟩, ⟨checkpointFile, []⟩, openAppend (openAppend disk walFile) checkpointFile⟩

/-- `begin_transaction` (lines 141–146): the new id, and the manager. -/
def beginTransaction (m : TransactionManager) : Int × TransactionManager :=
  let tid := (m.lastTransactionId + 1).toInt
  (tid, { m with lastTransactionId := m.lastTransactionId + 1,
                 transactions := assign m.transactions tid (Transaction.new tid) })

/-- `add_operation` on the transaction `begin_transaction` returned a reference to. -/
def addOperation (m : TransactionManager) (txnId : Int) (operation : List Char) :
    TransactionManager :=
  { m with transactions := modify m.transactions txnId (·.addOperation operation) }

/-- `commit_transaction` (lines 148–154). -/
def commitTransaction (m : TransactionManager) (txnId : Int) : TransactionManager :=
  match m.transactions.lookup txnId with
  | some txn =>
    { m with transactions := modify m.transactions txnId Transaction.commit,
             logFile := (m.logFile.write (logTransaction txn.commit)).write (logCommit txnId) }
  | none => m

/-- `abort_transaction` (lines 156–161). -/
def abortTransaction (m : TransactionManager) (txnId : Int) : TransactionManager :=
  if (m.transactions.lookup txnId).isSome then
    { m with transactions := modify m.transactions txnId Transaction.abort,
             logFile := m.logFile.write (logAbort txnId) }
  else m

/-- `create_checkpoint` (lines 163–165). -/
def createCheckpoint (m : TransactionManager) : TransactionManager :=
  { m with checkpointFile := m.checkpointFile.write (Checkpointing.createCheckpoint m.transactions) }

/-- `recover` (lines 167–170): `recover_from_log` opens `wal.log` and reads what has reached
    it; a missing file throws. -/
def recover (m : TransactionManager) : Option TransactionManager :=
  (m.disk.lookup "wal.log".toList).bind fun log =>
    (recoverFromLog log m.transactions).map fun transactions => { m with transactions }

/-- The log's stream passes `count` buffered characters to its file. -/
def flushLog (m : TransactionManager) (count : Nat) : TransactionManager :=
  { m with logFile := (m.logFile.flush m.disk count).1, disk := (m.logFile.flush m.disk count).2 }

/-- The checkpoint's stream passes `count` buffered characters to its file. -/
def flushCheckpoint (m : TransactionManager) (count : Nat) : TransactionManager :=
  { m with checkpointFile := (m.checkpointFile.flush m.disk count).1,
           disk := (m.checkpointFile.flush m.disk count).2 }

end TransactionManager

/-- A call on the manager, or a stream passing buffered characters to its file. -/
inductive Call where
  | beginTransaction
  | addOperation (txnId : Int) (operation : List Char)
  | commitTransaction (txnId : Int)
  | abortTransaction (txnId : Int)
  | createCheckpoint
  | recover
  | flushLog (count : Nat)
  | flushCheckpoint (count : Nat)
  deriving DecidableEq, Repr

/-- One call; `none` is an exception. -/
def step (m : TransactionManager) : Call → Option TransactionManager
  | .beginTransaction => some m.beginTransaction.2
  | .addOperation txnId operation => some (m.addOperation txnId operation)
  | .commitTransaction txnId => some (m.commitTransaction txnId)
  | .abortTransaction txnId => some (m.abortTransaction txnId)
  | .createCheckpoint => some m.createCheckpoint
  | .recover => m.recover
  | .flushLog count => some (m.flushLog count)
  | .flushCheckpoint count => some (m.flushCheckpoint count)

/-- The calls in turn. -/
def run (m : TransactionManager) (calls : List Call) : Option TransactionManager :=
  calls.foldlM step m

/-- `simulate_transactions` (lines 179–191). -/
def simulateTransactions : List Call :=
  [.beginTransaction,
   .addOperation 1 "UPDATE account SET balance = balance - 100 WHERE id = 1".toList,
   .addOperation 1 "UPDATE account SET balance = balance + 100 WHERE id = 2".toList,
   .beginTransaction,
   .addOperation 2 "DELETE FROM account WHERE id = 3".toList,
   .commitTransaction 1, .abortTransaction 2, .createCheckpoint]

/-- `main` (lines 193–200): nothing has reached `wal.log` when `recover` reads it. -/
example : ((run (.new "wal.log".toList "checkpoint.log".toList []) (simulateTransactions ++ [.recover])).map
    fun m => (m.transactions.map (·.2.state), m.disk.lookup "wal.log".toList)) =
      some ([.COMMITTED, .ABORTED], some []) := by decide

/-! ## `std::string` on the lines of the log -/

theorem find_cons_of_isPrefixOf_eq_false {c : Char} {t pat : List Char}
    (h : pat.isPrefixOf (c :: t) = false) : find (c :: t) pat = (find t pat).map (· + 1) := by
  rw [find, if_neg (by simp [h])]

theorem find_of_isPrefixOf {s pat : List Char} (h : pat.isPrefixOf s = true) : find s pat = some 0 := by
  cases s <;> simp [find, h]

theorem map_add_map_add (o : Option Nat) (a b : Nat) :
    (o.map (· + a)).map (· + b) = o.map (· + (a + b)) := by
  cases o <;> simp [Nat.add_assoc]

/-- A pattern starts nowhere in a part that does not hold its first character. -/
theorem find_append_of_not_mem {p : Char} {ps : List Char} (b : List Char) :
    ∀ {a : List Char}, p ∉ a → find (a ++ b) (p :: ps) = (find b (p :: ps)).map (· + a.length)
  | [], _ => by simp
  | c :: a, h => by
    rw [List.mem_cons, not_or] at h
    rw [List.cons_append, find_cons_of_isPrefixOf_eq_false (by simp [List.isPrefixOf, h.1]),
      find_append_of_not_mem b h.2, map_add_map_add, List.length_cons]

/-- The three patterns recovery looks for do not start in `Transaction <id>`. -/
theorem find_transactionPrefix (id : Int) (rest : List Char) {pat : List Char}
    (hpat : pat = "committed".toList ∨ pat = "aborted".toList ∨ pat = ":".toList) :
    find (transactionPrefix id ++ rest) pat =
      (find rest pat).map (· + ((toDecimal id).length + 12)) := by
  have hdec : ∀ c, c.isDigit = false → c ≠ '-' → c ∉ toDecimal id := fun c hd hm h =>
    (Transactions.mem_toDecimal h).elim (by simp [hd]) hm
  rw [transactionPrefix, List.append_assoc, ← map_add_map_add]
  rcases hpat with rfl | rfl | rfl
  · rw [show "committed".toList = 'c' :: "ommitted".toList from rfl,
      ← find_append_of_not_mem rest (hdec 'c' rfl (by decide))]
    simp [find, List.isPrefixOf, Option.map_map, Function.comp_def]
  · rw [show "aborted".toList = 'a' :: "borted".toList from rfl,
      ← find_append_of_not_mem rest (hdec 'a' rfl (by decide))]
    simp [find, List.isPrefixOf, Option.map_map, Function.comp_def]
  · rw [show ":".toList = [':'] from rfl, ← find_append_of_not_mem rest (hdec ':' rfl (by decide))]
    simp [find, List.isPrefixOf, Option.map_map, Function.comp_def]

theorem find_transactionPrefix_self (id : Int) (rest : List Char) :
    find (transactionPrefix id ++ rest) "Transaction ".toList = some 0 :=
  find_of_isPrefixOf (by simp [transactionPrefix, List.append_assoc])

/-- `std::to_string` of an `int` is short: far below `npos`. -/
theorem length_toDigitsCore_le (n : Nat) : ∀ (fuel : Nat) (ds : List Char),
    (Nat.toDigitsCore 10 fuel n ds).length ≤ fuel + ds.length
  | 0, ds => Nat.le_add_left _ _
  | fuel + 1, ds => by
    have hstep : Nat.toDigitsCore 10 (fuel + 1) n ds =
        if n / 10 = 0 then Nat.digitChar (n % 10) :: ds
        else Nat.toDigitsCore 10 fuel (n / 10) (Nat.digitChar (n % 10) :: ds) := rfl
    rw [hstep]
    split
    · simp only [List.length_cons]; omega
    · have := length_toDigitsCore_le (n / 10) fuel (Nat.digitChar (n % 10) :: ds)
      simp only [List.length_cons] at this
      omega

theorem length_toDecimal_le (i : Int) : (toDecimal i).length ≤ i.natAbs + 2 := by
  have h := length_toDigitsCore_le i.natAbs (i.natAbs + 1) []
  unfold toDecimal Nat.toDigits
  split <;> simp only [List.length_cons, List.length_nil] at h ⊢ <;> omega

/-- `std::stoi` reads `std::to_string` back from the front of a line, up to the first
    character that is not a digit. -/
theorem stoi_toDecimal_append {i : Int} (h0 : -2147483648 ≤ i) (h1 : i ≤ 2147483647)
    (c : Char) (rest : List Char) (hc : c.isDigit = false) :
    stoi (toDecimal i ++ c :: rest) = some i := by
  obtain ⟨hne, hall, hval⟩ := Transactions.toDigits_spec i.natAbs
  obtain ⟨d, ds, hds⟩ := List.exists_cons_of_ne_nil hne
  have hd : d.isDigit := hall d (hds ▸ List.mem_cons_self d ds)
  have hv : (if decide (i < 0) then -((i.natAbs : Nat) : Int) else ((i.natAbs : Nat) : Int)) = i := by
    by_cases h : i < 0
    · rw [if_pos (decide_eq_true h)]; omega
    · rw [if_neg (by simpa using h)]; omega
  have hsign : Transactions.readSign ((toDecimal i ++ c :: rest).dropWhile isSpace) =
      (decide (i < 0), Nat.toDigits 10 i.natAbs ++ c :: rest) := by
    unfold toDecimal
    split
    · simp [*, List.dropWhile, Transactions.readSign, isSpace]
    · simp [*, List.dropWhile, Transactions.readSign, Transactions.isSpace_of_isDigit hd,
        Transactions.ne_of_isDigit hd (by decide : '-'.toNat < 48),
        Transactions.ne_of_isDigit hd (by decide : '+'.toNat < 48)]
  simp only [stoi, Transactions.stoInt, hsign, List.takeWhile_append_of_pos hall, List.takeWhile,
    hc, List.append_nil, hval, hne, false_or, hv]
  rw [if_neg (by omega)]


theorem find_transactionPrefix_eq_none (id : Int) {rest pat : List Char}
    (hpat : pat = "committed".toList ∨ pat = "aborted".toList ∨ pat = ":".toList)
    (h : find rest pat = none) : find (transactionPrefix id ++ rest) pat = none := by
  rw [find_transactionPrefix id rest hpat, h]
  rfl

/-- A pattern that is nowhere in a line is nowhere in a prefix of it. -/
theorem find_prefix_eq_none {pat : List Char} (hpat : pat ≠ []) :
    ∀ {p s : List Char}, p <+: s → find s pat = none → find p pat = none
  | [], _, _, _ => by
    obtain ⟨c, cs, rfl⟩ := List.exists_cons_of_ne_nil hpat
    rfl
  | a :: p, _, ⟨r, rfl⟩, h => by
    have hs : ¬pat.isPrefixOf (a :: (p ++ r)) := fun hs => by
      rw [List.cons_append, find, if_pos hs] at h
      cases h
    rw [List.cons_append, find_cons_of_isPrefixOf_eq_false (Bool.eq_false_iff.mpr hs),
      Option.map_eq_none'] at h
    have hp : ¬pat.isPrefixOf (a :: p) := fun hp => hs (List.isPrefixOf_iff_prefix.mpr
      ((List.isPrefixOf_iff_prefix.mp hp).trans (List.prefix_append (a :: p) r)))
    rw [find_cons_of_isPrefixOf_eq_false (Bool.eq_false_iff.mpr hp),
      find_prefix_eq_none hpat (List.prefix_append p r) h]
    rfl

/-! ## Reading each line back -/

theorem extractTransactionId_transactionPrefix (id : Int) (rest : List Char) :
    extractTransactionId (transactionPrefix id ++ rest) =
      stoi ((toDecimal id ++ rest).take
        (((find (transactionPrefix id ++ rest) ":".toList).getD npos + 36893488147419103232 - 12) %
          18446744073709551616)) := by
  have hdrop : (transactionPrefix id ++ rest).drop 12 = toDecimal id ++ rest := by
    rw [transactionPrefix, List.append_assoc]; exact List.drop_left' rfl
  have hlen : 12 ≤ (transactionPrefix id ++ rest).length := by
    simp [transactionPrefix, show "Transaction ".toList.length = 12 from rfl]
  rw [extractTransactionId, find_transactionPrefix_self]
  simp only [Option.getD_some, Nat.zero_add, Nat.sub_zero]
  rw [Nat.mod_eq_of_lt (show 12 < 18446744073709551616 by decide), substr, if_pos hlen, hdrop,
    Option.some_bind]

/-- `(m.find(k) != m.end()) ? m[k] = f(m[k]) : m` is `m[k]` changed by `f` wherever `k` is. -/
theorem ite_lookup_modify {β : Type} (m : List (Int × β)) (k : Int) (f : β → β) :
    (if (m.lookup k).isSome then modify m k f else m) = modify m k f := by
  split
  · rfl
  · rename_i h
    have hk : k ∉ m.map (·.1) := lookup_eq_none_iff.mp (Option.not_isSome_iff_eq_none.mp h)
    conv_lhs => rw [← List.map_id m]
    exact (List.map_congr_left fun e he =>
      (if_neg fun (hek : e.1 = k) => hk (hek ▸ List.mem_map_of_mem (·.1) he)).symm)


/-- Recovery reads nothing from a line with neither `committed` nor `aborted` in it. -/
theorem recoverLine_of_find_none {line : List Char} (hc : find line "committed".toList = none)
    (ha : find line "aborted".toList = none) (t : List (Int × Transaction)) :
    recoverLine t line = some t := by
  rw [recoverLine, hc, ha]
  rfl

/-- An operation recovery reads nothing from: one line, with neither `committed` nor `aborted`
    in it. -/
def plainOperation (operation : List Char) : Bool :=
  decide ('\n' ∉ operation) && (find operation "committed".toList).isNone &&
    (find operation "aborted".toList).isNone

theorem find_operationLine_eq_none (id : Int) {operation pat : List Char}
    (hpat : pat = "committed".toList ∨ pat = "aborted".toList) (h : find operation pat = none) :
    find (operationLine id operation) pat = none := by
  rw [operationLine, List.append_assoc]
  refine find_transactionPrefix_eq_none id (hpat.imp_right .inl) ?_
  obtain ⟨c, cs, rfl, hc⟩ : ∃ c cs, pat = c :: cs ∧ c ∉ ": ".toList := by
    rcases hpat with rfl | rfl
    exacts [⟨'c', "ommitted".toList, rfl, by decide⟩, ⟨'a', "borted".toList, rfl, by decide⟩]
  rw [find_append_of_not_mem operation hc, h]
  rfl

/-- Recovery reads nothing from any prefix of the line of a plain operation. -/
theorem recoverLine_prefix_operationLine (id : Int) {operation : List Char}
    (hop : plainOperation operation) {p : List Char} (hp : p <+: operationLine id operation)
    (t : List (Int × Transaction)) : recoverLine t p = some t := by
  simp only [plainOperation, Bool.and_eq_true, Option.isNone_iff_eq_none] at hop
  exact recoverLine_of_find_none
    (find_prefix_eq_none (by decide) hp (find_operationLine_eq_none id (.inl rfl) hop.1.2))
    (find_prefix_eq_none (by decide) hp (find_operationLine_eq_none id (.inr rfl) hop.2)) t

section Lines

variable {id : Int} (hid : -2147483648 ≤ id ∧ id ≤ 2147483647)
include hid

theorem extractTransactionId_of_colon_none {rest : List Char}
    (hcolon : find (transactionPrefix id ++ rest) ":".toList = none) (hrest : rest.length ≤ 11)
    {c : Char} {cs : List Char} (hc : rest = c :: cs) (hd : c.isDigit = false) :
    extractTransactionId (transactionPrefix id ++ rest) = some id := by
  have := length_toDecimal_le id
  rw [extractTransactionId_transactionPrefix, hcolon, Option.getD_none,
    show (npos + 36893488147419103232 - 12) % 18446744073709551616 = 18446744073709551603 by decide,
    List.take_of_length_le (by simp only [List.length_append]; omega), hc]
  exact stoi_toDecimal_append hid.1 hid.2 c cs hd


/-- A line of the manager's that ends in ` committed` commits its transaction, with or
    without the full stop. -/
theorem recoverLine_committed {rest : List Char}
    (hrest : rest = " committed".toList ∨ rest = " committed.".toList)
    (t : List (Int × Transaction)) :
    recoverLine t (transactionPrefix id ++ rest) = some (modify t id Transaction.commit) := by
  obtain ⟨hcom, hcolon, hlen, hsp⟩ : (find rest "committed".toList).isSome ∧
      find rest ":".toList = none ∧ rest.length ≤ 11 ∧ rest = ' ' :: rest.tail := by
    rcases hrest with rfl | rfl <;> exact ⟨rfl, rfl, by decide, rfl⟩
  have hcom' : (find (transactionPrefix id ++ rest) "committed".toList).isSome := by
    rw [find_transactionPrefix id rest (.inl rfl), Option.isSome_map']
    exact hcom
  rw [recoverLine, if_pos hcom', extractTransactionId_of_colon_none hid
      (find_transactionPrefix_eq_none id (.inr (.inr rfl)) hcolon) hlen hsp rfl]
  simp only [Option.bind_eq_bind, Option.some_bind, ite_lookup_modify]
  rfl

/-- A line of the manager's that ends in ` aborted` aborts its transaction, with or without the
    full stop. -/
theorem recoverLine_aborted {rest : List Char}
    (hrest : rest = " aborted".toList ∨ rest = " aborted.".toList) (t : List (Int × Transaction)) :
    recoverLine t (transactionPrefix id ++ rest) = some (modify t id Transaction.abort) := by
  obtain ⟨hcom, hab, hcolon, hlen, hsp⟩ : find rest "committed".toList = none ∧
      (find rest "aborted".toList).isSome ∧ find rest ":".toList = none ∧ rest.length ≤ 11 ∧
      rest = ' ' :: rest.tail := by
    rcases hrest with rfl | rfl <;> exact ⟨rfl, rfl, rfl, by decide, rfl⟩
  have hab' : (find (transactionPrefix id ++ rest) "aborted".toList).isSome := by
    rw [find_transactionPrefix id rest (.inr (.inl rfl)), Option.isSome_map']
    exact hab
  rw [recoverLine, find_transactionPrefix_eq_none id (.inl rfl) hcom, if_neg (by decide), if_pos hab',
    extractTransactionId_of_colon_none hid
      (find_transactionPrefix_eq_none id (.inr (.inr rfl)) hcolon) hlen hsp rfl]
  simp only [Option.bind_eq_bind, Option.some_bind, ite_lookup_modify]
  rfl

/-- A prefix of a commit's line commits its transaction once it holds `committed`, and does
    nothing before. -/
theorem recoverLine_prefix_commitLine {p : List Char} (hp : p <+: commitLine id) :
    (∀ t, recoverLine t p = some t) ∨ ∀ t, recoverLine t p = some (modify t id Transaction.commit) := by
  rw [show commitLine id = transactionPrefix id ++ " committe".toList ++ ['d'] ++ ['.'] by
    rw [commitLine, List.append_assoc, List.append_assoc]; rfl] at hp
  rcases List.prefix_concat_iff.mp hp with rfl | hp
  · rw [List.append_assoc, List.append_assoc]
    exact .inr (recoverLine_committed hid (.inr rfl))
  rcases List.prefix_concat_iff.mp hp with rfl | hp
  · rw [List.append_assoc]
    exact .inr (recoverLine_committed hid (.inl rfl))
  · exact .inl (recoverLine_of_find_none
      (find_prefix_eq_none (by decide) hp (find_transactionPrefix_eq_none id (.inl rfl) rfl))
      (find_prefix_eq_none (by decide) hp (find_transactionPrefix_eq_none id (.inr (.inl rfl)) rfl)))

/-- A prefix of an abort's line aborts its transaction once it holds `aborted`, and does
    nothing before. -/
theorem recoverLine_prefix_abortLine {p : List Char} (hp : p <+: abortLine id) :
    (∀ t, recoverLine t p = some t) ∨ ∀ t, recoverLine t p = some (modify t id Transaction.abort) := by
  rw [show abortLine id = transactionPrefix id ++ " aborte".toList ++ ['d'] ++ ['.'] by
    rw [abortLine, List.append_assoc, List.append_assoc]; rfl] at hp
  rcases List.prefix_concat_iff.mp hp with rfl | hp
  · rw [List.append_assoc, List.append_assoc]
    exact .inr (recoverLine_aborted hid (.inr rfl))
  rcases List.prefix_concat_iff.mp hp with rfl | hp
  · rw [List.append_assoc]
    exact .inr (recoverLine_aborted hid (.inl rfl))
  · exact .inl (recoverLine_of_find_none
      (find_prefix_eq_none (by decide) hp (find_transactionPrefix_eq_none id (.inl rfl) rfl))
      (find_prefix_eq_none (by decide) hp (find_transactionPrefix_eq_none id (.inr (.inl rfl)) rfl)))

end Lines

/-! ## Recovering a log and its prefixes -/

/-- Recovery cuts a log written one line at a time back into its lines, and reads on from
    there. -/
theorem getlineAll_flatMap_append : ∀ lines : List (List Char), (∀ l ∈ lines, '\n' ∉ l) →
    ∀ rest, getlineAll '\n' (lines.flatMap (· ++ ['\n']) ++ rest) [] = lines ++ getlineAll '\n' rest []
  | [], _, _ => rfl
  | l :: lines, h, rest => by
    rw [List.flatMap_cons, List.append_assoc, List.append_assoc, List.singleton_append,
      Transactions.getlineAll_append (h l (List.mem_cons_self l lines)), List.nil_append,
      getlineAll_flatMap_append lines fun l' hl' => h l' (List.mem_cons_of_mem l hl')]
    rfl

theorem recoverFromLog_flatMap_append {lines : List (List Char)} (hfree : ∀ l ∈ lines, '\n' ∉ l)
    (rest : List Char) (t : List (Int × Transaction)) :
    recoverFromLog (lines.flatMap (· ++ ['\n']) ++ rest) t =
      (lines.foldlM recoverLine t).bind (recoverFromLog rest) := by
  rw [recoverFromLog, getlineAll_flatMap_append lines hfree, List.foldlM_append]
  rfl

/-- Each line `getline` cuts out of a prefix of a log written one line at a time is a prefix of
    one of its lines. -/
theorem getlineAll_take_flatMap : ∀ lines : List (List Char), (∀ l ∈ lines, '\n' ∉ l) →
    ∀ n, ∀ piece ∈ getlineAll '\n' ((lines.flatMap (· ++ ['\n'])).take n) [], ∃ l ∈ lines, piece <+: l
  | [], _, n, piece, h => by simp [getlineAll] at h
  | l :: lines, hfree, n, piece, h => by
    have hl := hfree l (List.mem_cons_self l lines)
    rw [List.flatMap_cons, List.append_assoc, List.singleton_append,
      List.take_append_eq_append_take] at h
    by_cases hn : n ≤ l.length
    · rw [Nat.sub_eq_zero_of_le hn, List.take_zero, List.append_nil,
        Transactions.getlineAll_of_not_mem fun hm => hl (List.mem_of_mem_take hm)] at h
      refine ⟨l, List.mem_cons_self l lines, ?_⟩
      split_ifs at h
      · exact absurd h (List.not_mem_nil _)
      · exact List.mem_singleton.mp h ▸ List.take_prefix n l
    · obtain ⟨k, hk⟩ : ∃ k, n - l.length = k + 1 := ⟨n - l.length - 1, by omega⟩
      rw [List.take_of_length_le (by omega), hk, List.take_succ_cons,
        Transactions.getlineAll_append hl, List.nil_append] at h
      rcases List.mem_cons.mp h with rfl | h
      · exact ⟨piece, List.mem_cons_self piece lines, List.prefix_refl piece⟩
      · obtain ⟨l', hl', hp⟩ := getlineAll_take_flatMap lines
          (fun l' hl' => hfree l' (List.mem_cons_of_mem l hl')) k piece h
        exact ⟨l', List.mem_cons_of_mem l hl', hp⟩

section Uniform

-- `f` applied a second time changes nothing.
variable {f : List (Int × Transaction) → List (Int × Transaction)} (hf : ∀ u, f (f u) = f u)
include hf

/-- Lines each of which leaves every map alone or applies `f` to every map: so do all of
    them. -/
theorem foldlM_recoverLine_uniform : ∀ pieces : List (List Char),
    (∀ p ∈ pieces, (∀ u, recoverLine u p = some u) ∨ ∀ u, recoverLine u p = some (f u)) →
    (∀ u, pieces.foldlM recoverLine u = some u) ∨ ∀ u, pieces.foldlM recoverLine u = some (f u)
  | [], _ => .inl fun _ => rfl
  | p :: ps, h => by
    have ih := foldlM_recoverLine_uniform ps fun q hq => h q (List.mem_cons_of_mem p hq)
    simp only [List.foldlM_cons]
    rcases h p (List.mem_cons_self p ps) with hp | hp <;> simp only [hp, Option.bind_eq_bind, Option.some_bind]
    · exact ih
    · exact .inr fun u => ih.elim (fun h => h (f u)) fun h => (h (f u)).trans (by rw [hf])

/-- Recovery from any prefix of a log of such lines leaves every map alone or applies `f` to
    every map. -/
theorem recoverFromLog_take_flatMap {lines : List (List Char)} (hfree : ∀ l ∈ lines, '\n' ∉ l)
    (hlines : ∀ l ∈ lines, ∀ p, p <+: l →
      (∀ u, recoverLine u p = some u) ∨ ∀ u, recoverLine u p = some (f u)) (n : Nat) :
    (∀ u, recoverFromLog ((lines.flatMap (· ++ ['\n'])).take n) u = some u) ∨
      ∀ u, recoverFromLog ((lines.flatMap (· ++ ['\n'])).take n) u = some (f u) :=
  foldlM_recoverLine_uniform hf _ fun p hp => by
    obtain ⟨l, hl, hpl⟩ := getlineAll_take_flatMap lines hfree n p hp
    exact hlines l hl p hpl

end Uniform

theorem newline_not_mem_transactionPrefix (id : Int) : '\n' ∉ transactionPrefix id := by
  rw [transactionPrefix, List.mem_append, not_or]
  exact ⟨by decide, Transactions.not_mem_toDecimal (by decide) (by decide)⟩

theorem newline_not_mem_operationLine (id : Int) {operation : List Char} (h : '\n' ∉ operation) :
    '\n' ∉ operationLine id operation := by
  simp only [operationLine, List.mem_append, not_or]
  exact ⟨⟨newline_not_mem_transactionPrefix id, by decide⟩, h⟩

theorem newline_not_mem_commitLine (id : Int) : '\n' ∉ commitLine id := by
  simp only [commitLine, List.mem_append, not_or]
  exact ⟨newline_not_mem_transactionPrefix id, by decide⟩

theorem newline_not_mem_abortLine (id : Int) : '\n' ∉ abortLine id := by
  simp only [abortLine, List.mem_append, not_or]
  exact ⟨newline_not_mem_transactionPrefix id, by decide⟩

theorem modify_modify {β : Type} (m : List (Int × β)) (k : Int) (f g : β → β) :
    modify (modify m k f) k g = modify m k (g ∘ f) := by
  simp only [modify, List.map_map]
  refine List.map_congr_left fun e _ => ?_
  by_cases h : e.1 = k <;> simp [h]

/-- What a log means: the outcomes `(id, state)` it holds, oldest first, each setting the
    state of its transaction. -/
def applyOutcomes (transactions : List (Int × Transaction))
    (outcomes : List (Int × TransactionState)) : List (Int × Transaction) :=
  outcomes.foldl (fun t o => modify t o.1 fun txn => { txn with state := o.2 }) transactions

theorem applyOutcomes_append_singleton (transactions : List (Int × Transaction))
    (outcomes : List (Int × TransactionState)) (o : Int × TransactionState) :
    applyOutcomes transactions (outcomes ++ [o]) =
      modify (applyOutcomes transactions outcomes) o.1 fun txn => { txn with state := o.2 } := by
  rw [applyOutcomes, List.foldl_append]
  rfl

/-- The last outcome of each transaction decides its state. -/
theorem applyOutcomes_eq (transactions : List (Int × Transaction))
    (outcomes : List (Int × TransactionState)) : applyOutcomes transactions outcomes =
      transactions.map fun e =>
        (e.1, { e.2 with state := (outcomes.reverse.lookup e.1).getD e.2.state }) := by
  induction outcomes using List.reverseRecOn with
  | nil => simp [applyOutcomes]
  | append_singleton outcomes o ih =>
    obtain ⟨k, s⟩ := o
    rw [applyOutcomes_append_singleton, ih]
    simp only [modify, List.map_map, List.reverse_append,
      List.reverse_singleton, List.singleton_append]
    refine List.map_congr_left fun e _ => ?_
    by_cases h : e.1 = k
    · simp [h, List.lookup_cons]
    · simp [h, List.lookup_cons, beq_false_of_ne h]


theorem plainOperation_iff {operation : List Char} : plainOperation operation ↔
    '\n' ∉ operation ∧ find operation "committed".toList = none ∧
      find operation "aborted".toList = none := by
  simp only [plainOperation, Bool.and_eq_true, decide_eq_true_eq, Option.isNone_iff_eq_none,
    and_assoc]

section Blocks

variable {id : Int} (hid : -2147483648 ≤ id ∧ id ≤ 2147483647)
include hid

/-- The lines `commit_transaction` writes for plain operations commit the transaction. -/
theorem recoverLine_commitLine (t : List (Int × Transaction)) :
    recoverLine t (commitLine id) = some (modify t id Transaction.commit) :=
  recoverLine_committed hid (.inr rfl) t

theorem recoverLine_abortLine (t : List (Int × Transaction)) :
    recoverLine t (abortLine id) = some (modify t id Transaction.abort) :=
  recoverLine_aborted hid (.inr rfl) t

theorem foldlM_recoverLine_commit {operations : List (List Char)}
    (hops : ∀ op ∈ operations, plainOperation op) (t : List (Int × Transaction)) :
    (operations.map (operationLine id) ++ [commitLine id]).foldlM recoverLine t =
      some (modify t id Transaction.commit) := by
  induction operations with
  | nil => simp [recoverLine_commitLine hid]
  | cons operation operations ih =>
    rw [List.map_cons, List.cons_append, List.foldlM_cons,
      recoverLine_prefix_operationLine id (hops operation (List.mem_cons_self _ _)) (List.prefix_refl _),
      Option.bind_eq_bind, Option.some_bind, ih fun op hop => hops op (List.mem_cons_of_mem _ hop)]

/-- Each prefix of each of those lines does nothing, or commits the transaction. -/
theorem prefix_commitLines {operations : List (List Char)}
    (hops : ∀ op ∈ operations, plainOperation op) :
    ∀ l ∈ operations.map (operationLine id) ++ [commitLine id], ∀ p, p <+: l →
      (∀ t, recoverLine t p = some t) ∨ ∀ t, recoverLine t p = some (modify t id Transaction.commit) := by
  intro l hl p hp
  rcases List.mem_append.mp hl with hl | hl
  · obtain ⟨op, hop, rfl⟩ := List.mem_map.mp hl
    exact .inl (recoverLine_prefix_operationLine id (hops op hop) hp)
  · exact recoverLine_prefix_commitLine hid (List.mem_singleton.mp hl ▸ hp)

theorem foldlM_recoverLine_abort (t : List (Int × Transaction)) :
    [abortLine id].foldlM recoverLine t = some (modify t id Transaction.abort) := by
  simp [recoverLine_abortLine hid]

theorem prefix_abortLines : ∀ l ∈ [abortLine id], ∀ p, p <+: l →
    (∀ t, recoverLine t p = some t) ∨ ∀ t, recoverLine t p = some (modify t id Transaction.abort) :=
  fun _ hl _ hp => recoverLine_prefix_abortLine hid (List.mem_singleton.mp hl ▸ hp)

end Blocks

/-! ## The manager's runs -/

/-- The call's operation is one recovery reads nothing from. -/
def Call.plain : Call → Bool
  | .addOperation _ operation => plainOperation operation
  | _ => true

/-- The state `earlier` holds for `k` if it is committed or aborted there, `state` otherwise. -/
def earlierState (earlier : List (Int × Transaction)) (k : Int) (state : TransactionState) :
    TransactionState :=
  match earlier.lookup k with
  | some txn => if txn.state = .ACTIVE then state else txn.state
  | none => state

/-- `transactions` with each transaction that `earlier` holds as committed or aborted set back
    to that state. -/
def overlayStates (transactions earlier : List (Int × Transaction)) : List (Int × Transaction) :=
  transactions.map fun e => (e.1, { e.2 with state := earlierState earlier e.1 e.2.state })

theorem overlayStates_nil (transactions : List (Int × Transaction)) :
    overlayStates transactions [] = transactions := by
  simp [overlayStates, earlierState]

/-- What a run of the manager on `wal.log` keeps, after `begun` calls of `begin_transaction`,
    with `outcomes` the commits and aborts it has logged, oldest first, and `text` all it has
    written to the log: the map holds the ids handed out, each state is the last outcome of its
    transaction, `wal.log` holds a prefix of `text` and the buffer the rest, and recovery reads
    the outcomes back from `text`. -/
structure Logged (begun : Nat) (outcomes : List (Int × TransactionState)) (text : List Char)
    (m : TransactionManager) : Prop where
  last : m.lastTransactionId = BitVec.ofNat 32 begun
  keys : m.transactions.map (·.1) = txIds begun
  ids : ∀ k txn, (k, txn) ∈ m.transactions → txn.id = k
  operations : ∀ k txn, (k, txn) ∈ m.transactions → ∀ op ∈ txn.operations, plainOperation op
  states : ∀ k txn, (k, txn) ∈ m.transactions →
    txn.state = (outcomes.reverse.lookup k).getD .ACTIVE
  outcomes_mem : ∀ o ∈ outcomes, o.1 ∈ txIds begun ∧ o.2 ≠ .ACTIVE
  logFile : m.logFile.filename = "wal.log".toList
  checkpointFile : m.checkpointFile.filename ≠ "wal.log".toList
  flushed : ∃ flushed, m.disk.lookup "wal.log".toList = some flushed ∧
    flushed ++ m.logFile.buffer = text
  lines : ∃ lines : List (List Char), text = lines.flatMap (· ++ ['\n']) ∧
    (∀ l ∈ lines, '\n' ∉ l) ∧ ∀ t, lines.foldlM recoverLine t = some (applyOutcomes t outcomes)

theorem logged_new {checkpointFile : List Char} (hcp : checkpointFile ≠ "wal.log".toList)
    {disk : Disk} (hdisk : disk.lookup "wal.log".toList = none ∨ disk.lookup "wal.log".toList = some []) :
    Logged 0 [] [] (TransactionManager.new "wal.log".toList checkpointFile disk) := by
  refine ⟨rfl, rfl, by simp [TransactionManager.new], by simp [TransactionManager.new],
    by simp [TransactionManager.new], by simp, rfl, hcp, ⟨[], ?_, rfl⟩, ⟨[], rfl, by simp, fun _ => rfl⟩⟩
  rw [TransactionManager.new, lookup_openAppend, if_neg (Ne.symm hcp), lookup_openAppend, if_pos rfl]
  rcases hdisk with h | h <;> rw [h] <;> rfl

/-- Recovery from any prefix of `block`, written after a log of `outcomes`, reads either none or
    all of what takes them to `outcomes'`. -/
def Extends (outcomes outcomes' : List (Int × TransactionState)) (block : List Char) : Prop :=
  ∀ n, (∀ t, recoverFromLog (block.take n) (applyOutcomes t outcomes) =
      some (applyOutcomes t outcomes)) ∨
    ∀ t, recoverFromLog (block.take n) (applyOutcomes t outcomes) = some (applyOutcomes t outcomes')

theorem extends_nil (outcomes : List (Int × TransactionState)) : Extends outcomes outcomes [] :=
  fun _ => .inl fun _ => by rw [List.take_nil]; rfl

theorem txIds_succ (n : Nat) : txIds (n + 1) = txIds n ++ [(BitVec.ofNat 32 (n + 1)).toInt] := by
  simp [txIds, List.range_succ]

theorem bounds_of_mem_txIds {n : Nat} {k : Int} (hk : k ∈ txIds n) :
    -2147483648 ≤ k ∧ k ≤ 2147483647 := by
  obtain ⟨i, -, rfl⟩ := List.mem_map.mp hk
  exact Transactions.toInt_bounds32 _

namespace Logged

variable {b : Nat} {outcomes : List (Int × TransactionState)} {text : List Char}
  {m : TransactionManager}

theorem recoverFromLog_append (h : Logged b outcomes text m) (rest : List Char)
    (t : List (Int × Transaction)) :
    recoverFromLog (text ++ rest) t = recoverFromLog rest (applyOutcomes t outcomes) := by
  obtain ⟨lines, htext, hfree, hrec⟩ := h.lines
  rw [htext, recoverFromLog_flatMap_append hfree, hrec]
  rfl

theorem recoverFromLog_eq (h : Logged b outcomes text m) (t : List (Int × Transaction)) :
    recoverFromLog text t = some (applyOutcomes t outcomes) := by
  rw [← List.append_nil text, h.recoverFromLog_append]
  rfl

theorem applyOutcomes_self (h : Logged b outcomes text m) :
    applyOutcomes m.transactions outcomes = m.transactions := by
  rw [applyOutcomes_eq]
  conv_rhs => rw [← List.map_id m.transactions]
  refine List.map_congr_left fun ⟨k, txn⟩ he => ?_
  have hs : (outcomes.reverse.lookup k).getD txn.state = txn.state := by
    cases hl : outcomes.reverse.lookup k <;> simp_all [h.states k txn he]
  rw [id, hs]

/-- The outcomes, applied to any map, set back the states the manager holds as committed or
    aborted. -/
theorem applyOutcomes_eq_overlayStates (h : Logged b outcomes text m)
    (t : List (Int × Transaction)) : applyOutcomes t outcomes = overlayStates t m.transactions := by
  rw [applyOutcomes_eq, overlayStates]
  refine List.map_congr_left fun ⟨k, txn⟩ _ => ?_
  simp only [earlierState]
  have hkey : ∀ s, outcomes.reverse.lookup k = some s → k ∈ txIds b ∧ s ≠ .ACTIVE := fun s hs =>
    h.outcomes_mem (k, s) (List.mem_reverse.mp (mem_of_lookup hs))
  cases hl : m.transactions.lookup k with
  | some y =>
    have hs := h.states k y (mem_of_lookup hl)
    cases ho : outcomes.reverse.lookup k with
    | none => simp_all
    | some s => simp_all [(hkey s ho).2]
  | none =>
    have ho : outcomes.reverse.lookup k = none := Option.eq_none_iff_forall_not_mem.mpr fun s hs =>
      lookup_eq_none_iff.mp hl (h.keys ▸ (hkey s hs).1)
    simp [ho]

theorem beginTransaction (h : Logged b outcomes text m) (hb : b + 1 ≤ 4294967296) :
    Logged (b + 1) outcomes text m.beginTransaction.2 := by
  have hlast : m.lastTransactionId + 1 = BitVec.ofNat 32 (b + 1) := by
    rw [h.last, BitVec.ofNat_add]; rfl
  have hnd := (Transactions.txIds_nodup_iff (b + 1)).mpr hb
  rw [txIds_succ, List.nodup_append] at hnd
  have hfresh : (BitVec.ofNat 32 (b + 1)).toInt ∉ txIds b := fun hm =>
    hnd.2.2 hm (List.mem_singleton_self _)
  have hmap : ∀ k txn, (k, txn) ∈ m.beginTransaction.2.transactions ↔
      (k = (BitVec.ofNat 32 (b + 1)).toInt ∧ txn = .new k) ∨ (k, txn) ∈ m.transactions := by
    intro k txn
    rw [TransactionManager.beginTransaction, hlast, mem_assign_of_not_mem (h.keys ▸ hfresh)]
    constructor <;> rintro (⟨rfl, rfl⟩ | hm) <;> simp_all
  refine ⟨hlast, ?_, fun k txn hm => ?_, fun k txn hm => ?_, fun k txn hm => ?_,
    fun o ho => ⟨txIds_succ b ▸ List.mem_append_left _ (h.outcomes_mem o ho).1,
      (h.outcomes_mem o ho).2⟩, h.logFile, h.checkpointFile, h.flushed, h.lines⟩
  · rw [TransactionManager.beginTransaction, hlast, assign_of_not_mem (h.keys ▸ hfresh),
      List.map_append, h.keys, txIds_succ]
    rfl
  · rcases (hmap k txn).mp hm with ⟨-, rfl⟩ | hm
    · rfl
    · exact h.ids k txn hm
  · rcases (hmap k txn).mp hm with ⟨-, rfl⟩ | hm
    · simp [Transaction.new]
    · exact h.operations k txn hm
  · rcases (hmap k txn).mp hm with ⟨rfl, rfl⟩ | hm
    · have hnone : outcomes.reverse.lookup (BitVec.ofNat 32 (b + 1)).toInt = none :=
        lookup_eq_none_iff.mpr fun hm => by
          obtain ⟨o, ho, he⟩ := List.mem_map.mp hm
          exact hfresh (he ▸ (h.outcomes_mem o (List.mem_reverse.mp ho)).1)
      rw [hnone]; rfl
    · exact h.states k txn hm

theorem addOperation (h : Logged b outcomes text m) (txnId : Int) {operation : List Char}
    (hop : plainOperation operation) : Logged b outcomes text (m.addOperation txnId operation) := by
  have hmap : ∀ k txn, (k, txn) ∈ modify m.transactions txnId (·.addOperation operation) →
      ∃ y, (k, y) ∈ m.transactions ∧ (txn = y.addOperation operation ∨ txn = y) := by
    intro k txn hm
    rcases mem_modify.mp hm with ⟨rfl, y, hy, rfl⟩ | ⟨-, hm⟩
    · exact ⟨y, hy, .inl rfl⟩
    · exact ⟨txn, hm, .inr rfl⟩
  refine ⟨h.last, (keys_modify m.transactions txnId (·.addOperation operation)).trans h.keys,
    fun k txn hm => ?_, fun k txn hm => ?_, fun k txn hm => ?_, h.outcomes_mem, h.logFile,
    h.checkpointFile, h.flushed, h.lines⟩
  all_goals obtain ⟨y, hy, rfl | rfl⟩ := hmap k txn hm
  · exact h.ids k y hy
  · exact h.ids k _ hy
  · intro op hop'
    rcases List.mem_append.mp hop' with hop' | hop'
    · exact h.operations k y hy op hop'
    · exact List.mem_singleton.mp hop' ▸ hop
  · exact h.operations k _ hy
  · exact h.states k y hy
  · exact h.states k _ hy

/-- A logged outcome for a transaction of the map: the lines written for it set its state on
    recovery as they set it in the map, and each prefix of them sets it or does nothing. -/
theorem setOutcome (h : Logged b outcomes text m) {k : Int} (hk : k ∈ txIds b)
    {s : TransactionState} (hs : s ≠ .ACTIVE) {block : List (List Char)}
    (hfree : ∀ l ∈ block, '\n' ∉ l)
    (hrec : ∀ t, block.foldlM recoverLine t = some (modify t k fun txn => { txn with state := s }))
    (hpre : ∀ l ∈ block, ∀ p, p <+: l → (∀ t, recoverLine t p = some t) ∨
      ∀ t, recoverLine t p = some (modify t k fun txn => { txn with state := s })) :
    Logged b (outcomes ++ [(k, s)]) (text ++ block.flatMap (· ++ ['\n']))
      { m with transactions := modify m.transactions k fun txn => { txn with state := s },
               logFile := m.logFile.write (block.flatMap (· ++ ['\n'])) } ∧
      Extends outcomes (outcomes ++ [(k, s)]) (block.flatMap (· ++ ['\n'])) := by
  obtain ⟨lines, htext, hlines, hrecs⟩ := h.lines
  obtain ⟨flushed, hdisk, hflushed⟩ := h.flushed
  have hmem : ∀ {k' txn}, (k', txn) ∈ modify m.transactions k (fun txn => { txn with state := s }) ↔
      _ := mem_modify
  have hf : ∀ t : List (Int × Transaction), modify (modify t k fun txn => { txn with state := s }) k
      (fun txn => { txn with state := s }) = modify t k fun txn => { txn with state := s } :=
    fun t => by rw [modify_modify]; rfl
  refine ⟨⟨h.last, (keys_modify m.transactions k fun txn => { txn with state := s }).trans
    h.keys, fun k' txn hm => ?_, fun k' txn hm => ?_, fun k' txn hm => ?_, fun o ho => ?_,
    h.logFile, h.checkpointFile, ⟨flushed, hdisk, ?_⟩, ⟨lines ++ block, ?_, ?_, fun t => ?_⟩⟩,
    fun n => (recoverFromLog_take_flatMap hf hfree hpre n).imp (fun h' t => h' _)
      fun h' t => by rw [h', applyOutcomes_append_singleton]⟩
  · rcases hmem.mp hm with ⟨rfl, y, hy, rfl⟩ | ⟨-, hm⟩
    exacts [h.ids _ y hy, h.ids k' txn hm]
  · rcases hmem.mp hm with ⟨rfl, y, hy, rfl⟩ | ⟨-, hm⟩
    exacts [h.operations _ y hy, h.operations k' txn hm]
  · rw [List.reverse_append, List.reverse_singleton, List.singleton_append, List.lookup_cons]
    rcases hmem.mp hm with ⟨rfl, y, -, rfl⟩ | ⟨hne, hm⟩
    · simp
    · simp only [beq_false_of_ne hne]
      exact h.states k' txn hm
  · rcases List.mem_append.mp ho with ho | ho
    · exact h.outcomes_mem o ho
    · exact List.mem_singleton.mp ho ▸ ⟨hk, hs⟩
  · rw [Ofstream.write, ← List.append_assoc, hflushed]
  · rw [htext, List.flatMap_append]
  · exact fun l hl => (List.mem_append.mp hl).elim (hlines l) (hfree l)
  · rw [List.foldlM_append, hrecs, Option.bind_eq_bind, Option.some_bind, hrec,
      applyOutcomes_append_singleton]

theorem commitTransaction (h : Logged b outcomes text m) (txnId : Int) :
    ∃ outcomes' block, Logged b outcomes' (text ++ block) (m.commitTransaction txnId) ∧
      Extends outcomes outcomes' block := by
  cases hl : m.transactions.lookup txnId with
  | none =>
    exact ⟨outcomes, [], by simpa [TransactionManager.commitTransaction, hl] using h,
      extends_nil outcomes⟩
  | some txn =>
    have hm := mem_of_lookup hl
    have hk : txnId ∈ txIds b := h.keys ▸ List.mem_map_of_mem (·.1) hm
    have hops := h.operations txnId txn hm
    have hcommit : m.commitTransaction txnId =
        { m with transactions := modify m.transactions txnId fun txn => { txn with state := .COMMITTED },
                 logFile := m.logFile.write ((txn.operations.map (operationLine txnId) ++
                   [commitLine txnId]).flatMap (· ++ ['\n'])) } := by
      simp [TransactionManager.commitTransaction, hl, logTransaction, logCommit, Transaction.commit,
        h.ids txnId txn hm, List.flatMap_append, List.flatMap_map, Ofstream.write]
      rfl
    have hfree : ∀ l ∈ txn.operations.map (operationLine txnId) ++ [commitLine txnId], '\n' ∉ l := by
      intro l hl
      rcases List.mem_append.mp hl with hl | hl
      · obtain ⟨op, hop, rfl⟩ := List.mem_map.mp hl
        exact newline_not_mem_operationLine txnId (plainOperation_iff.mp (hops op hop)).1
      · exact List.mem_singleton.mp hl ▸ newline_not_mem_commitLine txnId
    rw [hcommit]
    exact ⟨_, _, h.setOutcome hk (by decide) hfree
      (foldlM_recoverLine_commit (bounds_of_mem_txIds hk) hops)
      (prefix_commitLines (bounds_of_mem_txIds hk) hops)⟩

theorem abortTransaction (h : Logged b outcomes text m) (txnId : Int) :
    ∃ outcomes' block, Logged b outcomes' (text ++ block) (m.abortTransaction txnId) ∧
      Extends outcomes outcomes' block := by
  by_cases hl : (m.transactions.lookup txnId).isSome
  · have hk : txnId ∈ txIds b := h.keys ▸ List.mem_map_of_mem (·.1)
      (mem_of_lookup (Option.get_mem hl))
    have habort : m.abortTransaction txnId =
        { m with transactions := modify m.transactions txnId fun txn => { txn with state := .ABORTED },
                 logFile := m.logFile.write ([abortLine txnId].flatMap (· ++ ['\n'])) } := by
      simp [TransactionManager.abortTransaction, hl, logAbort]
      rfl
    rw [habort]
    exact ⟨_, _, h.setOutcome hk (by decide)
      (fun l hl => List.mem_singleton.mp hl ▸ newline_not_mem_abortLine txnId)
      (foldlM_recoverLine_abort (bounds_of_mem_txIds hk))
      (prefix_abortLines (bounds_of_mem_txIds hk))⟩
  · exact ⟨outcomes, [], by simpa [TransactionManager.abortTransaction, hl] using h,
      extends_nil outcomes⟩

theorem createCheckpoint (h : Logged b outcomes text m) : Logged b outcomes text m.createCheckpoint :=
  ⟨h.last, h.keys, h.ids, h.operations, h.states, h.outcomes_mem, h.logFile, h.checkpointFile,
    h.flushed, h.lines⟩

/-- A flush of the log moves buffered text to `wal.log`. -/
theorem flushLog (h : Logged b outcomes text m) (count : Nat) :
    Logged b outcomes text (m.flushLog count) := by
  obtain ⟨flushed, hdisk, htext⟩ := h.flushed
  refine ⟨h.last, h.keys, h.ids, h.operations, h.states, h.outcomes_mem, h.logFile,
    h.checkpointFile, ⟨flushed ++ m.logFile.buffer.take count, ?_, ?_⟩, h.lines⟩
  · show (appendFile m.disk m.logFile.filename (m.logFile.buffer.take count)).lookup _ = _
    rw [lookup_appendFile, h.logFile, if_pos rfl, hdisk]
    rfl
  · show _ ++ m.logFile.buffer.drop count = _
    rw [List.append_assoc, List.take_append_drop, htext]

/-- A flush of the checkpoint leaves `wal.log` alone. -/
theorem flushCheckpoint (h : Logged b outcomes text m) (count : Nat) :
    Logged b outcomes text (m.flushCheckpoint count) := by
  obtain ⟨flushed, hdisk, htext⟩ := h.flushed
  refine ⟨h.last, h.keys, h.ids, h.operations, h.states, h.outcomes_mem, h.logFile,
    h.checkpointFile, ⟨flushed, ?_, htext⟩, h.lines⟩
  show (appendFile m.disk m.checkpointFile.filename _).lookup _ = _
  rw [lookup_appendFile, if_neg fun he => h.checkpointFile he.symm, hdisk]

end Logged

/-- Recovery from any prefix of `text` sets back the states a run from `start` had after some
    prefix of `calls`. -/
def PrefixRestores (start : TransactionManager) (calls : List Call) (text : List Char) : Prop :=
  ∀ n, ∃ i ≤ calls.length, ∃ m', run start (calls.take i) = some m' ∧
    ∀ t, recoverFromLog (text.take n) t = some (overlayStates t m'.transactions)

/-- A call that writes `block`, and reads either none or all of it back on recovery, keeps
    `PrefixRestores`. -/
theorem PrefixRestores.step {start m m' : TransactionManager} {calls : List Call} {c : Call}
    {text block : List Char} {b b' : Nat} {outcomes outcomes' : List (Int × TransactionState)}
    (hpre : PrefixRestores start calls text) (hrun : run start calls = some m)
    (h : Logged b outcomes text m) (hrun' : run start (calls ++ [c]) = some m')
    (h' : Logged b' outcomes' (text ++ block) m') (hext : Extends outcomes outcomes' block) :
    PrefixRestores start (calls ++ [c]) (text ++ block) := by
  intro n
  by_cases hn : n ≤ text.length
  · obtain ⟨i, hi, m'', hrun'', hrec⟩ := hpre n
    refine ⟨i, by rw [List.length_append]; omega, m'', by rwa [List.take_append_of_le_length hi], ?_⟩
    rw [List.take_append_of_le_length hn]
    exact hrec
  · have htake : (text ++ block).take n = text ++ block.take (n - text.length) := by
      rw [List.take_append_eq_append_take, List.take_of_length_le (by omega)]
    rcases hext (n - text.length) with hnone | hall
    · refine ⟨calls.length, by simp, m, by rw [List.take_left' rfl]; exact hrun, fun t => ?_⟩
      rw [htake, h.recoverFromLog_append, hnone, h.applyOutcomes_eq_overlayStates]
    · refine ⟨calls.length + 1, by simp, m', by rw [List.take_of_length_le (by simp)]; exact hrun',
        fun t => ?_⟩
      rw [htake, h.recoverFromLog_append, hall, h'.applyOutcomes_eq_overlayStates]

/-- Every run of calls and flushes without `recover`, on a log opened as `wal.log` on a fresh
    disk, keeps `Logged` and `PrefixRestores`. -/
theorem run_logged (checkpointFile : List Char) (hcp : checkpointFile ≠ "wal.log".toList)
    (disk : Disk) (hdisk : disk.lookup "wal.log".toList = none ∨ disk.lookup "wal.log".toList = some [])
    (calls : List Call) (hbegin : calls.count .beginTransaction ≤ 4294967296)
    (hplain : ∀ c ∈ calls, c.plain) (hrec : Call.recover ∉ calls) :
    ∃ outcomes text m, run (.new "wal.log".toList checkpointFile disk) calls = some m ∧
      Logged (calls.count .beginTransaction) outcomes text m ∧
      PrefixRestores (.new "wal.log".toList checkpointFile disk) calls text := by
  induction calls using List.reverseRecOn with
  | nil =>
    exact ⟨[], [], _, rfl, logged_new hcp hdisk, fun n => ⟨0, le_rfl, _, rfl, fun t => by
      rw [List.take_nil]; exact congrArg some (overlayStates_nil t).symm⟩⟩
  | append_singleton calls c ih =>
    rw [List.count_append] at hbegin ⊢
    obtain ⟨outcomes, text, m, hrun, h, hpre⟩ :=
      ih (by omega) (fun c' hc' => hplain c' (List.mem_append_left _ hc'))
        fun hm => hrec (List.mem_append_left _ hm)
    have hc := hplain c (List.mem_append_right _ (List.mem_singleton_self c))
    obtain ⟨m', hm', outcomes', block, h', hext⟩ : ∃ m', step m c = some m' ∧ ∃ outcomes' block,
        Logged (calls.count .beginTransaction + [c].count .beginTransaction) outcomes' (text ++ block) m' ∧
        Extends outcomes outcomes' block := by
      cases c with
      | beginTransaction =>
        exact ⟨_, rfl, outcomes, [], by simpa using h.beginTransaction (by simpa using hbegin),
          extends_nil outcomes⟩
      | addOperation txnId operation =>
        exact ⟨_, rfl, outcomes, [], by simpa using h.addOperation txnId hc, extends_nil outcomes⟩
      | commitTransaction txnId =>
        obtain ⟨outcomes', block, h', hext⟩ := h.commitTransaction txnId
        exact ⟨_, rfl, outcomes', block, by simpa using h', hext⟩
      | abortTransaction txnId =>
        obtain ⟨outcomes', block, h', hext⟩ := h.abortTransaction txnId
        exact ⟨_, rfl, outcomes', block, by simpa using h', hext⟩
      | createCheckpoint =>
        exact ⟨_, rfl, outcomes, [], by simpa using h.createCheckpoint, extends_nil outcomes⟩
      | recover => exact absurd (List.mem_append_right _ (List.mem_singleton_self _)) hrec
      | flushLog count =>
        exact ⟨_, rfl, outcomes, [], by simpa using h.flushLog count, extends_nil outcomes⟩
      | flushCheckpoint count =>
        exact ⟨_, rfl, outcomes, [], by simpa using h.flushCheckpoint count, extends_nil outcomes⟩
    have hrun' : run (.new "wal.log".toList checkpointFile disk) (calls ++ [c]) = some m' := by
      rw [run, List.foldlM_append, ← run, hrun, Option.bind_eq_bind, Option.some_bind,
        List.foldlM_cons, hm']
      rfl
    exact ⟨outcomes', text ++ block, m', hrun', h', hpre.step hrun h hrun' h' hext⟩

/-- A commit that has reached `wal.log` and an abort still in the buffer: `recover` commits the
    aborted transaction again. -/
example : ((run (.new "wal.log".toList "checkpoint.log".toList [])
    [.beginTransaction, .commitTransaction 1, .flushLog 64, .abortTransaction 1, .recover]).map
      fun m => m.transactions.map (·.2.state)) = some [.COMMITTED] := by decide

end HpDb.Recovery.Checkpointing
