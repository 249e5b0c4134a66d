import HpDb.Isolation.Database

/-!
# Writes at `READ_UNCOMMITTED` and `READ_COMMITTED`

At these two levels `Transaction::write` stores into the shared `data` at once, and
`Transaction::rollback` only clears the private map. A rollback therefore cannot undo
them, and every other transaction reads them before they are committed, whatever its
level. At `REPEATABLE_READ` and `SERIALIZABLE` writes stay in the private map until
`commit`.

Results:
* `rollback_leaves_no_trace`: delete from any run every call of a transaction `t` that
  is begun only at `REPEATABLE_READ` or `SERIALIZABLE` and never commits. The final data,
  and what every call of every other transaction returns, are unchanged.
* `rollback_leaves_write_through`: at `READ_COMMITTED` they are not: a value written and
  rolled back stays in the data, and a transaction begun after the rollback reads it.
* `readCommitted_reads_uncommitted`: a `READ_COMMITTED` read returns a value written by a
  transaction that has not committed.
-/

namespace HpDb.Isolation

/-- A call of a transaction that leaves no trace in the shared data: anything but a
    commit, and a begin only at a level that keeps its writes private. -/
def Call.isBuffered : Call → Bool
  | .beginTransaction _ l => l == .repeatableRead || l == .serializable
  | .commitTransaction _ => false
  | _ => true

namespace Database

/-- `db` is `db'` with transactions of id `t` added, each at a level that keeps its
    writes private. -/
structure WithoutTxn (t : Int) (db db' : Database) : Prop where
  data : db.data = db'.data
  others : db.activeTransactions.filter (·.transactionId ≠ t) = db'.activeTransactions
  buffered : ∀ txn ∈ db.activeTransactions, txn.transactionId = t → ¬ txn.WritesThrough

theorem WithoutTxn.getTransaction {t u : Int} {db db' : Database} (h : WithoutTxn t db db')
    (hu : u ≠ t) : db'.getTransaction u = db.getTransaction u :=
  getTransaction_congr (by rw [← h.others, find?_filter_ne hu])

/-- The relation after replacing a transaction of another id, in both databases. -/
theorem WithoutTxn.replaceFirst {t : Int} {db db' : Database} (h : WithoutTxn t db db')
    {txn : Transaction} (ht : txn.transactionId ≠ t) (d : IntMap) :
    WithoutTxn t ⟨d, HpDb.Isolation.replaceFirst txn db.activeTransactions⟩
      ⟨d, HpDb.Isolation.replaceFirst txn db'.activeTransactions⟩ where
  data := rfl
  others := by rw [← h.others]; exact filter_replaceFirst ht _
  buffered x hx hxt := by
    rcases mem_replaceFirst hx with rfl | hx
    · exact absurd hxt ht
    · exact h.buffered x hx hxt

theorem WithoutTxn.removeTransaction {t : Int} {db db' : Database} (h : WithoutTxn t db db')
    (u : Int) : WithoutTxn t (db.removeTransaction u) (db'.removeTransaction u) where
  data := h.data
  others := by
    simp only [Database.removeTransaction, ← h.others, List.filter_filter, Bool.and_comm]
  buffered x hx := h.buffered x (List.mem_of_mem_filter hx)

/-- A call of another transaction returns the same in both databases, and keeps them
    related. -/
theorem WithoutTxn.exec_other {t : Int} {db db' : Database} (h : WithoutTxn t db db')
    {c : Call} (hc : c.transactionId ≠ t) :
    (db.exec c).1 = (db'.exec c).1 ∧ WithoutTxn t (db.exec c).2 (db'.exec c).2 := by
  cases c <;> simp only [Call.transactionId] at hc
  case beginTransaction u l =>
    refine ⟨rfl, h.data, ?_, fun x hx hxt => ?_⟩
    · simp only [exec, beginTransaction, List.filter_append, ← h.others]
      simp [hc]
    · rcases List.mem_append.mp hx with hx | hx
      · exact h.buffered x hx hxt
      · simp only [List.mem_singleton] at hx; subst hx; exact absurd hxt hc
  case read u k =>
    rw [exec_read, exec_read, h.getTransaction hc, ← h.data]
    split
    · exact ⟨rfl, h⟩
    · rename_i txn hu
      split
      · exact ⟨rfl, h⟩
      · rename_i v txn' hr
        refine ⟨rfl, h.replaceFirst ?_ db.data⟩
        rw [(Transaction.read_ok hr).1, getTransaction_transactionId hu]; exact hc
  case write u k v =>
    rw [exec_write, exec_write, h.getTransaction hc, ← h.data]
    split
    · exact ⟨rfl, h⟩
    · rename_i txn hu
      exact ⟨rfl, h.replaceFirst (by simpa [getTransaction_transactionId hu] using hc) _⟩
  case commitTransaction u =>
    rw [exec_commitTransaction, exec_commitTransaction, h.getTransaction hc, ← h.data]
    split
    · exact ⟨rfl, h⟩
    · rename_i txn hu
      exact ⟨rfl, (h.replaceFirst (by simpa [getTransaction_transactionId hu] using hc)
        _).removeTransaction u⟩
  case rollbackTransaction u =>
    rw [exec_rollbackTransaction, exec_rollbackTransaction, h.getTransaction hc, ← h.data]
    split
    · exact ⟨rfl, h⟩
    · rename_i txn hu
      exact ⟨rfl, (h.replaceFirst (by simpa [getTransaction_transactionId hu] using hc)
        _).removeTransaction u⟩

/-- A call of `t` that keeps its writes private changes nothing the other transactions
    can see. -/
theorem WithoutTxn.exec_self {t : Int} {db db' : Database} (h : WithoutTxn t db db')
    {c : Call} (hc : c.transactionId = t) (hb : c.isBuffered) :
    WithoutTxn t (db.exec c).2 db' := by
  have replace : ∀ (txn : Transaction) (d : IntMap), txn.transactionId = t →
      ¬ txn.WritesThrough → d = db.data →
      WithoutTxn t ⟨d, HpDb.Isolation.replaceFirst txn db.activeTransactions⟩ db' :=
    fun txn d ht hw hd => ⟨hd ▸ h.data, by rw [filter_replaceFirst_self ht, h.others],
      fun x hx hxt => by
        rcases mem_replaceFirst hx with rfl | hx
        · exact hw
        · exact h.buffered x hx hxt⟩
  cases c <;> simp only [Call.transactionId] at hc <;> subst hc
  case beginTransaction l =>
    refine ⟨h.data, ?_, fun x hx hxt => ?_⟩
    · simp only [exec, beginTransaction, List.filter_append]
      rw [h.others]
      simp
    · rcases List.mem_append.mp hx with hx | hx
      · exact h.buffered x hx hxt
      · simp only [List.mem_singleton] at hx; subst hx
        simp only [Call.isBuffered, Bool.or_eq_true, beq_iff_eq] at hb
        simp only [Transaction.WritesThrough]
        rcases hb with hb | hb <;> simp [hb]
  case read k =>
    rw [exec_read]
    split
    · exact h
    · rename_i txn hu
      split
      · exact h
      · rename_i v txn' hr
        obtain ⟨hid, hlev⟩ := Transaction.read_ok hr
        exact replace txn' db.data (hid.trans (getTransaction_transactionId hu))
          (by simpa [Transaction.WritesThrough, hlev] using
            h.buffered txn (mem_of_getTransaction hu) (getTransaction_transactionId hu)) rfl
  case write k v =>
    rw [exec_write]
    split
    · exact h
    · rename_i txn hu
      have hw := h.buffered txn (mem_of_getTransaction hu) (getTransaction_transactionId hu)
      exact replace _ _ (by simpa using getTransaction_transactionId hu)
        (by simpa [Transaction.WritesThrough] using hw)
        (Transaction.write_snd_of_not_writesThrough hw k v db.data)
  case commitTransaction => cases hb
  case rollbackTransaction =>
    rw [exec_rollbackTransaction]
    split
    · exact h
    · rename_i txn hu
      refine ⟨h.data, ?_, fun x hx hxt => absurd hxt (by simpa using (List.mem_filter.mp hx).2)⟩
      simp only [Database.removeTransaction, List.filter_filter, Bool.and_self]
      rw [filter_replaceFirst_self (by simpa using getTransaction_transactionId hu), h.others]

/-- The run lemma: related databases stay related, and the other transactions' calls
    return the same. -/
theorem WithoutTxn.run {t : Int} :
    ∀ (calls : List Call) {db db' : Database}, WithoutTxn t db db' →
      (∀ c ∈ calls, c.transactionId = t → c.isBuffered) →
      (db.run calls).2.data = (db'.run (calls.filter (·.transactionId ≠ t))).2.data ∧
      ((calls.zip (db.run calls).1).filter (·.1.transactionId ≠ t)).map Prod.snd =
        (db'.run (calls.filter (·.transactionId ≠ t))).1
  | [], _, _, h, _ => ⟨h.data, rfl⟩
  | c :: calls, db, db', h, hb => by
    have hb' : ∀ c' ∈ calls, c'.transactionId = t → c'.isBuffered :=
      fun c' hc' => hb c' (List.mem_cons_of_mem c hc')
    by_cases hc : c.transactionId = t
    · have ih := WithoutTxn.run calls (h.exec_self hc (hb c (List.mem_cons_self c calls) hc)) hb'
      simpa [Database.run, hc] using ih
    · obtain ⟨hr, h'⟩ := h.exec_other hc
      have ih := WithoutTxn.run calls h' hb'
      simp only [Database.run, List.zip_cons_cons, List.filter_cons, hc, ne_eq, not_false_eq_true,
        decide_True, ite_true, List.map_cons, Prod.snd, hr] at ih ⊢
      exact ⟨ih.1, congrArg _ ih.2⟩

end Database

/-- **A transaction that keeps its writes private and does not commit leaves no trace.**
    Let `t` have no transaction in `db`, and let every call of `t` in the run be buffered:
    `t` is begun only at `REPEATABLE_READ` or `SERIALIZABLE` and never commits (for instance
    it ends with a rollback). Deleting all of `t`'s calls leaves the final data and what
    every other call returns unchanged. -/
theorem rollback_leaves_no_trace {t : Int} {db : Database}
    (hdb : ∀ txn ∈ db.activeTransactions, txn.transactionId ≠ t) (calls : List Call)
    (hc : ∀ c ∈ calls, c.transactionId = t → c.isBuffered) :
    (db.run calls).2.data = (db.run (calls.filter (·.transactionId ≠ t))).2.data ∧
      ((calls.zip (db.run calls).1).filter (·.1.transactionId ≠ t)).map Prod.snd =
        (db.run (calls.filter (·.transactionId ≠ t))).1 :=
  Database.WithoutTxn.run calls
    ⟨rfl, List.filter_eq_self.mpr fun txn h => by simpa using hdb txn h,
      fun txn h ht => absurd ht (hdb txn h)⟩ hc

/-- Transaction `1` (`READ_COMMITTED`) writes `5` to key `1` and rolls back; transaction `2`
    (`READ_COMMITTED`) then begins and reads key `1`. -/
def rolledBackRead : List Call :=
  [.beginTransaction 1 .readCommitted, .write 1 1 5, .rollbackTransaction 1,
    .beginTransaction 2 .readCommitted, .read 2 1]

/-- The read returns `5`, which transaction `1` wrote and rolled back, and the run ends with
    `5` at key `1`. Deleting transaction `1`'s calls, the read returns the initial `100` and
    the run ends with `100` there. -/
theorem rollback_leaves_write_through :
    (Database.init.run rolledBackRead).1 = [.ok none, .ok none, .ok none, .ok none, .ok (some 5)] ∧
      (Database.init.run (rolledBackRead.filter (·.transactionId ≠ 1))).1 =
        [.ok none, .ok (some 100)] ∧
      (Database.init.run rolledBackRead).2.data 1 = some 5 ∧
      (Database.init.run (rolledBackRead.filter (·.transactionId ≠ 1))).2.data 1 = some 100 :=
  ⟨rfl, rfl, rfl, rfl⟩

/-! ## Dirty reads at `READ_COMMITTED` -/

/-- Transaction `1` (`READ_COMMITTED`) writes `5` to key `1`; transaction `2`
    (`READ_COMMITTED`) reads key `1` while transaction `1` is still active. -/
def dirtyRead : List Call :=
  [.beginTransaction 1 .readCommitted, .beginTransaction 2 .readCommitted, .write 1 1 5,
    .read 2 1]

/-- The read returns `5`, which is neither the initial `100` nor a committed value:
    no transaction has committed, and both are still active. -/
theorem readCommitted_reads_uncommitted :
    (Database.init.run dirtyRead).1 = [.ok none, .ok none, .ok none, .ok (some 5)] ∧
      Database.init.data 1 = some 100 ∧
      (∀ c ∈ dirtyRead, ∀ u ∈ [1, 2], c ≠ .commitTransaction u) ∧
      (Database.init.run dirtyRead).2.activeTransactions.map (·.transactionId) = [1, 2] :=
  ⟨rfl, rfl, by decide, rfl⟩

end HpDb.Isolation
