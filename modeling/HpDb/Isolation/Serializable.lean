import HpDb.Isolation.Snapshot

/-!
# `SERIALIZABLE` is a write-back of private maps in commit order

At `SERIALIZABLE` a transaction reads and writes only its private map, and
`commit_transaction` copies the whole map into the shared data: the values it wrote and
the values it cached when reading. No conflict is checked. So the shared data changes only
at commits, each commit installs the committing transaction's map, and two transactions
that read a key before either commits can lose an update.

Serializability asks for a serial order of the committed transactions that returns the
same values for every read and ends with the same data (`SerialEquivalent`). A serial run
of an order runs the calls of each transaction, begin to commit, one transaction after
another.

Results:
* `serializable_lost_update`: a run of two `SERIALIZABLE` transactions has no serial order
  that gives its final data.
* `serializable_commit_write_back`: in every run in which every transaction is begun at
  `SERIALIZABLE` and no id is begun twice, the final data is the initial data overwritten,
  in commit order, by the private map of each committed transaction, computed from what
  its calls returned (`localMap`).
-/

namespace HpDb.Isolation

/-- The ids whose `commit_transaction` returned normally, in commit order. -/
def committedIds : List (Call × Reply) → List Int
  | [] => []
  | (.commitTransaction t, .ok _) :: rest => t :: committedIds rest
  | _ :: rest => committedIds rest

/-- The calls of the transactions of `order`, one transaction after another, each in the
    order it made them. -/
def serialCalls (calls : List Call) (order : List Int) : List Call :=
  order.flatMap fun t => calls.filter (·.transactionId = t)

/-- What the calls of `t` returned. -/
def repliesOf (t : Int) (trace : List (Call × Reply)) : List Reply :=
  (trace.filter (·.1.transactionId = t)).map (·.2)

/-- The run from `db` is equivalent to a serial run of its committed transactions: some
    order of them, run serially from `db`, returns the same to every call of theirs and
    ends with the same data. -/
def SerialEquivalent (db : Database) (calls : List Call) : Prop :=
  ∃ order : List Int, order.Perm (committedIds (calls.zip (db.run calls).1)) ∧
    (db.run (serialCalls calls order)).2.data = (db.run calls).2.data ∧
    ∀ t ∈ order, repliesOf t ((serialCalls calls order).zip (db.run (serialCalls calls order)).1) =
      repliesOf t (calls.zip (db.run calls).1)

/-- Transactions `1` and `2` (`SERIALIZABLE`) both start; `1` reads key `1`, `2` writes
    `150` there and commits, then `1` commits. -/
def lostUpdate : List Call :=
  [.beginTransaction 1 .serializable, .beginTransaction 2 .serializable, .read 1 1,
    .write 2 1 150, .commitTransaction 2, .commitTransaction 1]

/-- The run ends with `100` at key `1`: the commit of `1` writes back the value it read
    over the `150` of `2`. Run serially, either order ends with `150`. -/
theorem serializable_lost_update : ¬ SerialEquivalent Database.init lostUpdate := by
  rintro ⟨order, hperm, hdata, -⟩
  have hc : committedIds (lostUpdate.zip (Database.init.run lostUpdate).1) = [2, 1] := rfl
  rw [hc] at hperm
  have h1 := congrFun hdata 1
  match order, hperm.length_eq with
  | [a, b], _ =>
    have ha : a ∈ [2, 1] := hperm.subset (List.mem_cons_self a [b])
    have hb : b ∈ [2, 1] := hperm.subset (List.mem_cons_of_mem a (List.mem_singleton_self b))
    simp only [List.mem_cons, List.mem_singleton, List.not_mem_nil, or_false] at ha hb
    rcases ha with rfl | rfl <;> rcases hb with rfl | rfl <;>
      first | exact absurd hperm (by decide) | (revert h1; decide)

/-! ## The write-back that happens instead -/

/-- What a call that returned `r` puts in the private map `m` of `t`: a write of `t`
    stores its value, and a read of `t` that returned a value stores it when the key is not
    there yet. -/
def localStep (t : Int) (m : IntMap) : Call × Reply → IntMap
  | (.write u k v, .ok _) => if u = t then Function.update m k (some v) else m
  | (.read u k, .ok (some v)) => if u = t ∧ m k = none then Function.update m k (some v) else m
  | _ => m

/-- The private map of `t` after the calls of a trace, from what they returned. -/
def localMap (t : Int) (trace : List (Call × Reply)) : IntMap :=
  trace.foldl (localStep t) fun _ => none

/-- `d` overwritten by the private map of `t`. -/
def installLocal (trace : List (Call × Reply)) (d : IntMap) (t : Int) : IntMap :=
  fun k => (localMap t trace k).or (d k)

/-- `d` overwritten, in commit order, by the private maps of the committed transactions. -/
def writeBack (d : IntMap) (trace : List (Call × Reply)) : IntMap :=
  (committedIds trace).foldl (installLocal trace) d

/-- The ids `begin_transaction` is called with. -/
def beginIds : List Call → List Int
  | [] => []
  | .beginTransaction t _ :: rest => t :: beginIds rest
  | _ :: rest => beginIds rest

/-- A begin is at `SERIALIZABLE`. -/
def Call.beginsSerializable : Call → Bool
  | .beginTransaction _ l => l == .serializable
  | _ => true

theorem localMap_concat (t : Int) (trace : List (Call × Reply)) (p : Call × Reply) :
    localMap t (trace ++ [p]) = localStep t (localMap t trace) p := by
  simp [localMap]

theorem committedIds_concat (trace : List (Call × Reply)) (p : Call × Reply) :
    committedIds (trace ++ [p]) = committedIds trace ++ committedIds [p] := by
  induction trace with
  | nil => simp [committedIds]
  | cons q trace ih =>
    rcases q with ⟨c, r⟩
    cases c <;> cases r <;> simp [committedIds, ih]

theorem localStep_of_error (t : Int) (m : IntMap) (c : Call) (e : DbError) :
    localStep t m (c, .error e) = m := by
  cases c <;> rfl

theorem localStep_of_ne {t : Int} (m : IntMap) {c : Call} (h : c.transactionId ≠ t) (r : Reply) :
    localStep t m (c, r) = m := by
  cases c <;> simp only [Call.transactionId] at h <;> rcases r with _ | _ | _ <;>
    simp [localStep, h]

/-- When the new call leaves the private maps of the committed transactions alone, the
    write-back grows by the commits of the new call. -/
theorem writeBack_concat {d : IntMap} {trace : List (Call × Reply)} {p : Call × Reply}
    (h : ∀ t ∈ committedIds trace, localStep t (localMap t trace) p = localMap t trace) :
    writeBack d (trace ++ [p]) =
      (committedIds [p]).foldl (installLocal (trace ++ [p])) (writeBack d trace) := by
  unfold writeBack
  rw [committedIds_concat, List.foldl_append]
  congr 1
  exact List.foldl_ext _ _ _ fun d' t ht => by
    funext k; simp only [installLocal, localMap_concat, h t ht]

theorem committedIds_single_of_ne {c : Call} {r : Reply}
    (h : ∀ u, c ≠ .commitTransaction u) : committedIds [(c, r)] = [] := by
  cases c <;> rcases r with _ | _ <;> first | rfl | exact absurd rfl (h _)

theorem mem_beginIds_cons {t : Int} {c : Call} {rest : List Call} (h : t ∈ beginIds rest) :
    t ∈ beginIds (c :: rest) := by
  cases c <;> simp [beginIds, h]

namespace Database

/-- What holds after the calls `pre` of a run in which every transaction is
    `SERIALIZABLE`, with the calls `rest` still to come: the data is the write-back so far;
    each active transaction is `SERIALIZABLE` and holds the private map its calls built;
    committed transactions are gone; and the ids still to be begun are not active, not
    committed, and have built nothing. -/
structure WriteBackInv (d₀ : IntMap) (pre : List (Call × Reply)) (db : Database)
    (rest : List Call) : Prop where
  data : db.data = writeBack d₀ pre
  active : ∀ t txn, db.getTransaction t = .ok txn →
    txn.isolationLevel = .serializable ∧ txn.localData = localMap t pre
  committed : ∀ t ∈ committedIds pre, db.Inactive t
  fresh : ∀ t ∈ beginIds rest,
    db.Inactive t ∧ t ∉ committedIds pre ∧ localMap t pre = fun _ => none

variable {d₀ : IntMap} {pre : List (Call × Reply)} {db : Database} {c : Call}
  {rest : List Call}

theorem committedIds_single_error (c : Call) (e : DbError) :
    committedIds [(c, .error e)] = [] := by
  cases c <;> rfl

/-- A call that throws keeps the invariant. -/
theorem WriteBackInv.step_error (h : WriteBackInv d₀ pre db (c :: rest)) {e : DbError}
    (he : db.exec c = (.error e, db)) :
    WriteBackInv d₀ (pre ++ [(c, (db.exec c).1)]) (db.exec c).2 rest := by
  have hr : (db.exec c).1 = .error e := by rw [he]
  have hd : (db.exec c).2 = db := by rw [he]
  have hloc : ∀ t, localMap t (pre ++ [(c, .error e)]) = localMap t pre := fun t => by
    rw [localMap_concat, localStep_of_error]
  have hcom : committedIds (pre ++ [(c, .error e)]) = committedIds pre := by
    rw [committedIds_concat, committedIds_single_error, List.append_nil]
  rw [hr, hd]
  refine ⟨?_, fun t txn ht => by rw [hloc]; exact h.active t txn ht, hcom ▸ h.committed,
    fun t ht => by rw [hcom, hloc]; exact h.fresh t (mem_beginIds_cons ht)⟩
  rw [h.data, writeBack_concat fun t _ => localStep_of_error _ _ _ _, committedIds_single_error]
  rfl

/-- A call of an active transaction that is not a commit keeps the invariant when it
    leaves the data alone and builds the private map as `localStep` says. -/
theorem WriteBackInv.step_active (h : WriteBackInv d₀ pre db (c :: rest)) {txn : Transaction}
    (hu : db.getTransaction c.transactionId = .ok txn)
    (hcommit : ∀ u, c ≠ .commitTransaction u) (hdata : (db.exec c).2.data = db.data)
    (hself : ∀ txn', (db.exec c).2.getTransaction c.transactionId = .ok txn' →
      txn'.isolationLevel = .serializable ∧
        txn'.localData = localStep c.transactionId (localMap c.transactionId pre)
          (c, (db.exec c).1)) :
    WriteBackInv d₀ (pre ++ [(c, (db.exec c).1)]) (db.exec c).2 rest := by
  have hne : ∀ t, db.Inactive t → t ≠ c.transactionId := fun t ht e => ht txn (e ▸ hu)
  have hloc : ∀ t, t ≠ c.transactionId →
      localMap t (pre ++ [(c, (db.exec c).1)]) = localMap t pre := fun t ht => by
    rw [localMap_concat, localStep_of_ne _ (Ne.symm ht)]
  have hcom : committedIds (pre ++ [(c, (db.exec c).1)]) = committedIds pre := by
    rw [committedIds_concat, committedIds_single_of_ne hcommit, List.append_nil]
  refine ⟨?_, fun t txn' ht => ?_, fun t ht => ?_, fun t ht => ?_⟩
  · rw [hdata, h.data, writeBack_concat fun t ht => localStep_of_ne _
      (Ne.symm (hne t (h.committed t ht))) _, committedIds_single_of_ne hcommit]
    rfl
  · by_cases htu : t = c.transactionId
    · subst htu; rw [localMap_concat]; exact hself txn' ht
    · rw [exec_getTransaction_of_ne (Ne.symm htu)] at ht
      rw [hloc t htu]; exact h.active t txn' ht
  · rw [hcom] at ht
    have hi := h.committed t ht
    intro txn' ht'
    rw [exec_getTransaction_of_ne (Ne.symm (hne t hi))] at ht'
    exact hi txn' ht'
  · obtain ⟨hi, hc, hl⟩ := h.fresh t (mem_beginIds_cons ht)
    refine ⟨fun txn' ht' => hi txn' ?_, hcom ▸ hc, (hloc t (hne t hi)).trans hl⟩
    rwa [exec_getTransaction_of_ne (Ne.symm (hne t hi))] at ht'

theorem serializable_not_writesThrough {txn : Transaction}
    (h : txn.isolationLevel = .serializable) : ¬ txn.WritesThrough := by
  simp [Transaction.WritesThrough, h]

/-- A `SERIALIZABLE` begin of an id not begun again later keeps the invariant. -/
theorem WriteBackInv.step_begin {u : Int}
    (h : WriteBackInv d₀ pre db (.beginTransaction u .serializable :: rest))
    (hnd : u ∉ beginIds rest) :
    WriteBackInv d₀ (pre ++ [(.beginTransaction u .serializable, .ok none)])
      (db.beginTransaction u .serializable) rest := by
  obtain ⟨hi, hc, hl⟩ := h.fresh u (List.mem_cons_self _ _)
  have hloc : ∀ t, localMap t (pre ++ [(.beginTransaction u .serializable, .ok none)]) =
      localMap t pre := fun t => localMap_concat _ _ _
  have hcom : committedIds (pre ++ [(.beginTransaction u .serializable, .ok none)]) =
      committedIds pre := by simp [committedIds_concat, committedIds]
  have hlook : ∀ t, t ≠ u → (db.beginTransaction u .serializable).getTransaction t =
      db.getTransaction t := fun t ht =>
    @exec_getTransaction_of_ne (.beginTransaction u .serializable) t (Ne.symm ht) db
  refine ⟨?_, fun t txn ht => ?_, fun t ht => ?_, fun t ht => ?_⟩
  · rw [writeBack_concat]
    · exact h.data
    · exact fun _ _ => rfl
  · rw [hloc]
    by_cases htu : t = u
    · subst htu
      rw [getTransaction_beginTransaction_self hi] at ht
      cases ht; exact ⟨rfl, hl.symm⟩
    · rw [hlook t htu] at ht; exact h.active t txn ht
  · rw [hcom] at ht
    have htu : t ≠ u := fun e => hc (e ▸ ht)
    intro txn ht'; rw [hlook t htu] at ht'; exact h.committed t ht txn ht'
  · have htu : t ≠ u := fun e => hnd (e ▸ ht)
    obtain ⟨hi', hc', hl'⟩ := h.fresh t (List.mem_cons_of_mem u ht)
    exact ⟨fun txn ht' => hi' txn (by rwa [hlook t htu] at ht'), hcom ▸ hc', (hloc t).trans hl'⟩

/-- A call that only replaces the caller's transaction by a `SERIALIZABLE` one whose private
    map is built as `localStep` says keeps the invariant. -/
theorem WriteBackInv.step_replace (h : WriteBackInv d₀ pre db (c :: rest))
    {txn : Transaction} (hu : db.getTransaction c.transactionId = .ok txn)
    (hcommit : ∀ u, c ≠ .commitTransaction u) (txn' : Transaction)
    (hexec : (db.exec c).2 = ⟨db.data, replaceFirst txn' db.activeTransactions⟩)
    (hid : txn'.transactionId = c.transactionId) (hlev : txn'.isolationLevel = .serializable)
    (hloc : txn'.localData =
      localStep c.transactionId (localMap c.transactionId pre) (c, (db.exec c).1)) :
    WriteBackInv d₀ (pre ++ [(c, (db.exec c).1)]) (db.exec c).2 rest :=
  h.step_active hu hcommit (by rw [hexec]) fun _ ht => by
    rw [hexec, getTransaction_replaceFirst hu hid] at ht
    cases ht
    exact ⟨hlev, hloc⟩

/-- A read of an active transaction keeps the invariant: it answers from the private map,
    or caches the value it reads from the data. -/
theorem WriteBackInv.step_read {u k : Int} {txn : Transaction}
    (h : WriteBackInv d₀ pre db (.read u k :: rest)) (hu : db.getTransaction u = .ok txn) :
    WriteBackInv d₀ (pre ++ [(.read u k, (db.exec (.read u k)).1)]) (db.exec (.read u k)).2
      rest := by
  obtain ⟨hlev, hloc⟩ := h.active u txn hu
  have hwt := serializable_not_writesThrough hlev
  have hid := getTransaction_transactionId hu
  cases hk : txn.localData k with
  | some w =>
    have hread := Transaction.read_of_localData hwt hk db.data
    exact h.step_replace hu (fun _ => Call.noConfusion) txn (by simp [exec_read, hu, hread]) hid
      hlev (by simp [Call.transactionId, exec_read, hu, hread, localStep, ← hloc, hk])
  | none =>
    have hread := Transaction.read_of_localData_none hwt hk db.data
    cases hv : db.data k with
    | none => exact h.step_error (e := .outOfRange) (by simp [exec_read, hu, hread, hv])
    | some v =>
      exact h.step_replace hu (fun _ => Call.noConfusion)
        { txn with localData := Function.update txn.localData k (some v) }
        (by simp [exec_read, hu, hread, hv]) hid hlev (by simp [Call.transactionId, exec_read, hu, hread, hv, localStep, ← hloc, hk])

/-- A write of an active transaction keeps the invariant: it goes to the private map only. -/
theorem WriteBackInv.step_write {u k v : Int} {txn : Transaction}
    (h : WriteBackInv d₀ pre db (.write u k v :: rest)) (hu : db.getTransaction u = .ok txn) :
    WriteBackInv d₀ (pre ++ [(.write u k v, (db.exec (.write u k v)).1)])
      (db.exec (.write u k v)).2 rest := by
  obtain ⟨hlev, hloc⟩ := h.active u txn hu
  have hwt := serializable_not_writesThrough hlev
  exact h.step_replace hu (fun _ => Call.noConfusion) (txn.write k v db.data).1
    (by simp [exec_write, hu, Transaction.write_snd_of_not_writesThrough hwt])
    (by simpa using getTransaction_transactionId hu) (by simpa using hlev)
    (by simp [Call.transactionId, exec_write, hu, localStep, Transaction.write_fst_localData hwt, hloc])

/-- A commit of an active transaction keeps the invariant: it installs the private map
    over the data, as the write-back does for the newly committed id. -/
theorem WriteBackInv.step_commit {u : Int} {txn : Transaction}
    (h : WriteBackInv d₀ pre db (.commitTransaction u :: rest))
    (hu : db.getTransaction u = .ok txn) :
    WriteBackInv d₀ (pre ++ [(.commitTransaction u, (db.exec (.commitTransaction u)).1)])
      (db.exec (.commitTransaction u)).2 rest := by
  obtain ⟨-, hloc⟩ := h.active u txn hu
  have hne : ∀ t, db.Inactive t → t ≠ u := fun t ht e => ht txn (e ▸ hu)
  have hcom : committedIds (pre ++ [(.commitTransaction u, .ok none)]) =
      committedIds pre ++ [u] := by simp [committedIds_concat, committedIds]
  have hl : ∀ t, localMap t (pre ++ [(.commitTransaction u, .ok none)]) = localMap t pre :=
    fun t => localMap_concat _ _ _
  have hlook : ∀ t, t ≠ u → (db.exec (.commitTransaction u)).2.getTransaction t =
      db.getTransaction t := fun t ht => exec_getTransaction_of_ne (Ne.symm ht) db
  simp only [exec_commitTransaction, hu] at hlook ⊢
  refine ⟨?_, fun t txn' ht => ?_, fun t ht => ?_, fun t ht => ?_⟩
  · rw [writeBack_concat]
    · funext k
      simp [committedIds, installLocal, hl, ← hloc, h.data, removeTransaction, Transaction.commit]
    · exact fun _ _ => rfl
  · have htu : t ≠ u := fun e => inactive_removeTransaction _ u txn' (e ▸ ht)
    rw [hlook t htu] at ht; rw [hl]; exact h.active t txn' ht
  · rw [hcom, List.mem_append, List.mem_singleton] at ht
    rcases ht with ht | rfl
    · intro txn' ht'
      rw [hlook t (hne t (h.committed t ht))] at ht'
      exact h.committed t ht txn' ht'
    · exact inactive_removeTransaction _ t
  · obtain ⟨hi, hc, hl'⟩ := h.fresh t ht
    refine ⟨fun txn' ht' => hi txn' (by rwa [hlook t (hne t hi)] at ht'), ?_, (hl t).trans hl'⟩
    rw [hcom, List.mem_append, List.mem_singleton]
    exact fun h' => h'.elim hc (hne t hi)

/-- Every call keeps the invariant. -/
theorem WriteBackInv.exec (h : WriteBackInv d₀ pre db (c :: rest)) (hser : c.beginsSerializable)
    (hnd : (beginIds (c :: rest)).Nodup) :
    WriteBackInv d₀ (pre ++ [(c, (db.exec c).1)]) (db.exec c).2 rest := by
  cases c with
  | beginTransaction u l =>
    simp only [Call.beginsSerializable, beq_iff_eq] at hser
    subst hser
    exact h.step_begin (List.nodup_cons.mp hnd).1
  | read u k =>
    cases hu : db.getTransaction u with
    | error e => exact h.step_error (e := e) (by simp [exec_read, hu])
    | ok txn => exact h.step_read hu
  | write u k v =>
    cases hu : db.getTransaction u with
    | error e => exact h.step_error (e := e) (by simp [exec_write, hu])
    | ok txn => exact h.step_write hu
  | commitTransaction u =>
    cases hu : db.getTransaction u with
    | error e => exact h.step_error (e := e) (by simp [exec_commitTransaction, hu])
    | ok txn => exact h.step_commit hu
  | rollbackTransaction u =>
    cases hu : db.getTransaction u with
    | error e => exact h.step_error (e := e) (by simp [exec_rollbackTransaction, hu])
    | ok txn =>
      refine h.step_active hu (fun _ => Call.noConfusion)
        (by simp [exec_rollbackTransaction, hu, removeTransaction]) fun txn' ht => ?_
      simp only [Call.transactionId, exec_rollbackTransaction, hu] at ht
      exact absurd ht (inactive_removeTransaction _ u txn')

theorem beginIds_sublist (c : Call) (rest : List Call) :
    (beginIds rest).Sublist (beginIds (c :: rest)) := by
  cases c <;> simp [beginIds]

/-- The run lemma. -/
theorem WriteBackInv.run : ∀ (rest : List Call) {pre : List (Call × Reply)} {db : Database},
    WriteBackInv d₀ pre db rest → (∀ c ∈ rest, c.beginsSerializable) → (beginIds rest).Nodup →
    (db.run rest).2.data = writeBack d₀ (pre ++ rest.zip (db.run rest).1)
  | [], _, _, h, _, _ => by simpa using h.data
  | c :: rest, pre, db, h, hser, hnd => by
    have ih := WriteBackInv.run rest (h.exec (hser c (List.mem_cons_self c rest)) hnd)
      (fun c' hc' => hser c' (List.mem_cons_of_mem c hc')) (hnd.sublist (beginIds_sublist c rest))
    simpa [Database.run] using ih

end Database

/-- **At `SERIALIZABLE` the data is a write-back in commit order.** Start from a database
    with no active transaction and run any calls in which every transaction is begun at
    `SERIALIZABLE` and no id is begun twice. The final data is the initial data
    overwritten, in commit order, by the private map of each committed transaction: at
    each key it wrote, the last value it wrote; at each key it only read, the value its
    first read returned. -/
theorem serializable_commit_write_back {db : Database} (hdb : db.activeTransactions = [])
    (calls : List Call) (hser : ∀ c ∈ calls, c.beginsSerializable) (hnd : (beginIds calls).Nodup) :
    (db.run calls).2.data = writeBack db.data (calls.zip (db.run calls).1) := by
  have hi : ∀ t, db.Inactive t := fun t txn ht => by
    rw [Database.getTransaction_eq, hdb] at ht; cases ht
  have h₀ : Database.WriteBackInv db.data [] db calls :=
    ⟨rfl, fun t txn ht => absurd ht (hi t txn), fun _ h => absurd h (List.not_mem_nil _),
      fun t _ => ⟨hi t, List.not_mem_nil _, rfl⟩⟩
  simpa using Database.WriteBackInv.run calls h₀ hser hnd

end HpDb.Isolation
