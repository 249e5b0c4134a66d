import HpDb.Isolation.Database

/-!
# Reads at `REPEATABLE_READ` and `SERIALIZABLE`

At these two levels a transaction reads through its private map `local_data`: the first
read of a key copies the shared value into it, a write stores into it, and every later
read of the key returns what it holds. Nothing but the transaction's own calls changes
the map, whatever the other transactions do, so its reads are repeatable.

The same map is also what `commit` copies into the shared data. It holds the values the
transaction read as well as those it wrote, so a commit writes back the keys the
transaction only read, over any value another transaction committed in between.

Results:
* `repeatable_reads`: two successful reads of a key by a `REPEATABLE_READ` or
  `SERIALIZABLE` transaction return the same value, unless the transaction wrote the key
  in between, and then the later read returns the last value written; any calls of any
  other transactions may come in between.
* `commit_writes_back_read_only_key`: a `REPEATABLE_READ` transaction that only read
  key `1` overwrites, at its commit, the value another transaction committed there.
-/

namespace HpDb.Isolation

/-- The value of the last `write(t, k, ·)` among the calls. -/
def lastWriteTo (t k : Int) : List Call → Option Int
  | [] => none
  | c :: cs =>
    (lastWriteTo t k cs).or
      (match c with
        | .write t' k' v => if t' = t ∧ k' = k then some v else none
        | _ => none)

theorem getD_or (a b : Option Int) (w : Int) : (a.or b).getD w = a.getD (b.getD w) := by
  cases a <;> rfl

theorem lastWriteTo_cons (t k : Int) (c : Call) (cs : List Call) :
    lastWriteTo t k (c :: cs) = (lastWriteTo t k cs).or (lastWriteTo t k [c]) := by
  simp only [lastWriteTo, Option.none_or]

namespace Database

/-- One call that is neither a commit nor a rollback of `t` keeps `t`'s transaction at its
    level, and its private value for `k` is the value the call wrote there, if it is a
    write of `t` to `k`, or the value it had. -/
theorem exec_localData {db : Database} {t k w : Int} {txn : Transaction}
    (ht : db.getTransaction t = .ok txn) (hl : ¬ txn.WritesThrough)
    (hw : txn.localData k = some w) {c : Call}
    (hc : c ≠ .commitTransaction t ∧ c ≠ .rollbackTransaction t) :
    ∃ txn', (db.exec c).2.getTransaction t = .ok txn' ∧ ¬ txn'.WritesThrough ∧
      txn'.localData k = some ((lastWriteTo t k [c]).getD w) := by
  by_cases hct : c.transactionId = t
  · cases c with
    | beginTransaction u l =>
      simp only [Call.transactionId] at hct; subst hct
      refine ⟨txn, ?_, hl, by simpa [lastWriteTo] using hw⟩
      rw [← ht]
      exact getTransaction_congr (find?_append_of_isSome (find?_isSome_of_getTransaction ht) _)
    | read u k' =>
      simp only [Call.transactionId] at hct; subst hct
      simp only [exec_read, ht]
      split
      · exact ⟨txn, ht, hl, by simpa [lastWriteTo] using hw⟩
      · rename_i v txn' hr
        obtain ⟨hid, hlev⟩ := Transaction.read_ok hr
        refine ⟨txn', getTransaction_replaceFirst ht (hid.trans (getTransaction_transactionId ht)) _,
          by simpa [Transaction.WritesThrough, hlev] using hl, ?_⟩
        simpa [lastWriteTo] using Transaction.read_localData_of_some hw hr
    | write u k' v =>
      simp only [Call.transactionId] at hct; subst hct
      simp only [exec_write, ht]
      refine ⟨_, getTransaction_replaceFirst ht (by simpa using getTransaction_transactionId ht) _,
        by simpa [Transaction.WritesThrough] using hl, ?_⟩
      rw [Transaction.write_fst_localData hl]
      by_cases hk : k' = k
      · subst hk; simp [lastWriteTo]
      · simp [lastWriteTo, hk, Function.update_noteq (Ne.symm hk), hw]
    | commitTransaction u =>
      simp only [Call.transactionId] at hct; subst hct; exact absurd rfl hc.1
    | rollbackTransaction u =>
      simp only [Call.transactionId] at hct; subst hct; exact absurd rfl hc.2
  · refine ⟨txn, (exec_getTransaction_of_ne hct db).trans ht, hl, ?_⟩
    cases c <;> simp only [Call.transactionId] at hct <;> simp [lastWriteTo, hct, hw]

/-- The calls between the two reads keep the private value of `k` at the last value
    written there, or at the value first read. -/
theorem run_localData {t k : Int} :
    ∀ (mid : List Call) {db : Database} {txn : Transaction} {w : Int},
      db.getTransaction t = .ok txn → ¬ txn.WritesThrough → txn.localData k = some w →
      (∀ c ∈ mid, c ≠ .commitTransaction t ∧ c ≠ .rollbackTransaction t) →
      ∃ txn', (db.run mid).2.getTransaction t = .ok txn' ∧ ¬ txn'.WritesThrough ∧
        txn'.localData k = some ((lastWriteTo t k mid).getD w)
  | [], _, txn, _, ht, hl, hw, _ => ⟨txn, ht, hl, hw⟩
  | c :: mid, _, _, _, ht, hl, hw, hmid => by
    obtain ⟨txn₁, ht₁, hl₁, hw₁⟩ := exec_localData ht hl hw (hmid c (List.mem_cons_self c mid))
    obtain ⟨txn₂, ht₂, hl₂, hw₂⟩ :=
      run_localData mid ht₁ hl₁ hw₁ fun c' hc' => hmid c' (List.mem_cons_of_mem c hc')
    exact ⟨txn₂, ht₂, hl₂, by rw [hw₂, lastWriteTo_cons t k c mid, getD_or]⟩

end Database

/-- **Repeatable reads.** Let `t` be a `REPEATABLE_READ` or `SERIALIZABLE` transaction that
    reads `k` and gets `v₁`. Run any calls of any transactions, none of them a commit or
    rollback of `t`, and let `t` read `k` again and get `v₂`. Then `v₂` is the value of
    `t`'s last write to `k` among those calls, or `v₁` if there is none. -/
theorem repeatable_reads {db db₁ : Database} {t k v₁ v₂ : Int} {txn : Transaction}
    (ht : db.getTransaction t = .ok txn)
    (hl : txn.isolationLevel = .repeatableRead ∨ txn.isolationLevel = .serializable)
    (h₁ : db.exec (.read t k) = (.ok (some v₁), db₁))
    (mid : List Call) (hmid : ∀ c ∈ mid, c ≠ .commitTransaction t ∧ c ≠ .rollbackTransaction t)
    (h₂ : ((db₁.run mid).2.exec (.read t k)).1 = .ok (some v₂)) :
    v₂ = (lastWriteTo t k mid).getD v₁ := by
  have hwt : ¬ txn.WritesThrough := by
    unfold Transaction.WritesThrough; rcases hl with hl | hl <;> simp [hl]
  simp only [Database.exec_read, ht] at h₁
  split at h₁
  · cases h₁
  · rename_i v txn' hr
    cases h₁
    obtain ⟨hid, hlev⟩ := Transaction.read_ok hr
    obtain ⟨txn₂, ht₂, hl₂, hw₂⟩ := Database.run_localData mid
      (Database.getTransaction_replaceFirst ht (hid.trans (Database.getTransaction_transactionId ht))
        db.data)
      (by simpa [Transaction.WritesThrough, hlev] using hwt)
      (Transaction.read_localData_self hwt hr) hmid
    rw [Database.exec_read] at h₂
    simp only [ht₂, Transaction.read_of_localData hl₂ hw₂] at h₂
    cases h₂
    rfl

/-- Transaction `1` (`REPEATABLE_READ`) reads key `1`, transaction `2` writes `2` there and
    commits, and transaction `1` reads `100` again. -/
theorem repeatable_reads_across_commit :
    (100 : Int) = (lastWriteTo 1 1
      [.beginTransaction 2 .readCommitted, .write 2 1 2, .commitTransaction 2]).getD 100 :=
  @repeatable_reads (Database.init.beginTransaction 1 .repeatableRead) _ 1 1 100 100
    ⟨1, .repeatableRead, true, fun _ => none⟩ rfl (.inl rfl) rfl _ (by decide) rfl

/-! ## `commit` writes back what was only read -/

/-- Transaction `1` (`REPEATABLE_READ`) reads key `1`; transaction `2` (`READ_COMMITTED`)
    writes `5` there and commits; then transaction `1` commits. -/
def readOnlyCommit : List Call :=
  [.beginTransaction 1 .repeatableRead, .beginTransaction 2 .readCommitted, .read 1 1,
    .write 2 1 5, .commitTransaction 2, .commitTransaction 1]

/-- Transaction `1` never writes key `1`, yet its commit sets it back from `5` to the
    `100` it had read, and the committed write of transaction `2` is lost. -/
theorem commit_writes_back_read_only_key :
    readOnlyCommit.filter (·.transactionId = 1) =
        [.beginTransaction 1 .repeatableRead, .read 1 1, .commitTransaction 1] ∧
      (Database.init.run (readOnlyCommit.take 5)).2.data 1 = some 5 ∧
      (Database.init.run readOnlyCommit).2.data 1 = some 100 :=
  ⟨by decide, rfl, rfl⟩

end HpDb.Isolation
