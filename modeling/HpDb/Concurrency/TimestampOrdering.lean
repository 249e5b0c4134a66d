import HpDb.Concurrency.Serial

/-!
# `TimestampOrdering` (transactions/concurrency_control/timestamp_ordering.cpp)

Basic timestamp ordering without the Thomas write rule. Every data item keeps the
largest start timestamp that read it (`read_ts`) and wrote it (`write_ts`). A read by a
transaction older than `write_ts` aborts it; a write by a transaction older than
`read_ts` or `write_ts` aborts it. Otherwise the read raises `read_ts`, and the write
installs its value at once and raises `write_ts`. Aborting only forgets the
transaction: what it wrote stays.

The mutex is not modelled. `read` and `write` call `abort_transaction` while they hold
it; the model applies the effect of that call. A run of the code stops at such a call,
so every run of the code is a prefix of a run of the model.

A `Sys` pairs the state of the code with the history of the reads and writes that
returned `true` (a ghost variable: the code does not keep it). A read records the value
of the item it read, which the code prints.

Results:
* `timestampOrdering_serializable`: from every reachable state, every call keeps each
  item's `read_ts` and `write_ts` from decreasing; a successful read observes the last
  write among the writers with the largest start timestamp not above the reader's; a
  successful write comes after every read or write of its item by a transaction with a
  larger start timestamp; and replaying the successful operations in increasing start
  timestamp order (`serialOrder`) sees every value that was read and ends with the
  values the items hold.
-/

namespace HpDb.Concurrency

/-- `class Transaction` (lines 8–15). -/
structure Transaction where
  id : Int
  startTs : Nat
  commitTs : Nat
  deriving DecidableEq, Repr

/-- `class DataItem` (lines 17–25). -/
structure DataItem where
  id : Int
  readTs : Nat
  writeTs : Nat
  value : Int
  deriving DecidableEq, Repr

/-- The fields `data_items` and `active_transactions` of `TimestampOrdering`
    (lines 29–30). -/
structure TimestampOrdering where
  dataItems : Int → Option DataItem
  activeTransactions : Int → Option Transaction

namespace TimestampOrdering

/-- A new `TimestampOrdering`: no item, no transaction. -/
def empty : TimestampOrdering := ⟨fun _ => none, fun _ => none⟩

/-- Store `item` under `dataItemId` in `data_items`. -/
def setItem (s : TimestampOrdering) (dataItemId : Int) (item : DataItem) : TimestampOrdering :=
  { s with dataItems := Function.update s.dataItems dataItemId (some item) }

@[simp] theorem setItem_dataItems (s : TimestampOrdering) (x : Int) (item : DataItem) :
    (s.setItem x item).dataItems = Function.update s.dataItems x (some item) := rfl

/-- `begin_transaction` (lines 36–42). -/
def beginTransaction (s : TimestampOrdering) (transactionId : Int) (timestamp : Nat) :
    TimestampOrdering :=
  match s.activeTransactions transactionId with
  | none =>
    { s with activeTransactions :=
        Function.update s.activeTransactions transactionId (some ⟨transactionId, timestamp, 0⟩) }
  | some _ => s

/-- `abort_transaction` (lines 113–123). -/
def abortTransaction (s : TimestampOrdering) (transactionId : Int) : TimestampOrdering :=
  match s.activeTransactions transactionId with
  | none => s
  | some _ =>
    { s with activeTransactions := Function.update s.activeTransactions transactionId none }

/-- `commit_transaction` (lines 98–111): `commit_ts` is set on the transaction, which is
    then erased and deleted. -/
def commitTransaction (s : TimestampOrdering) (transactionId : Int) (_timestamp : Nat) :
    TimestampOrdering :=
  match s.activeTransactions transactionId with
  | none => s
  | some _ =>
    { s with activeTransactions := Function.update s.activeTransactions transactionId none }

/-- `read` (lines 44–69). -/
def read (s : TimestampOrdering) (transactionId dataItemId : Int) : Bool × TimestampOrdering :=
  match s.activeTransactions transactionId with
  | none => (false, s)
  | some txn =>
    match s.dataItems dataItemId with
    | none => (false, s)
    | some item =>
      if txn.startTs < item.writeTs then (false, s.abortTransaction transactionId)
      else
        (true, s.setItem dataItemId { item with readTs := max item.readTs txn.startTs })

/-- `write` (lines 71–96). A missing item is first created as `DataItem(id, 0)`. -/
def write (s : TimestampOrdering) (transactionId dataItemId newValue : Int) :
    Bool × TimestampOrdering :=
  match s.activeTransactions transactionId with
  | none => (false, s)
  | some txn =>
    let item := (s.dataItems dataItemId).getD ⟨dataItemId, 0, 0, 0⟩
    let s := s.setItem dataItemId item
    if txn.startTs < item.readTs ∨ txn.startTs < item.writeTs then
      (false, s.abortTransaction transactionId)
    else
      (true, s.setItem dataItemId
        { item with writeTs := max item.writeTs txn.startTs, value := newValue })

@[simp] theorem abortTransaction_dataItems (s : TimestampOrdering) (t : Int) :
    (s.abortTransaction t).dataItems = s.dataItems := by
  unfold abortTransaction; split <;> rfl

@[simp] theorem beginTransaction_dataItems (s : TimestampOrdering) (t : Int) (ts : Nat) :
    (s.beginTransaction t ts).dataItems = s.dataItems := by
  unfold beginTransaction; split <;> rfl

@[simp] theorem commitTransaction_dataItems (s : TimestampOrdering) (t : Int) (ts : Nat) :
    (s.commitTransaction t ts).dataItems = s.dataItems := by
  unfold commitTransaction; split <;> rfl

/-- What a `read` can do: succeed, raising the item's `read_ts`, or fail and leave every
    item as it was. -/
theorem read_cases (s : TimestampOrdering) (t x : Int) :
    (∃ txn item, s.activeTransactions t = some txn ∧ s.dataItems x = some item ∧
      item.writeTs ≤ txn.startTs ∧
      s.read t x = (true, s.setItem x { item with readTs := max item.readTs txn.startTs })) ∨
    ((s.read t x).1 = false ∧ (s.read t x).2.dataItems = s.dataItems) := by
  unfold read
  split
  · exact .inr ⟨rfl, rfl⟩
  · rename_i txn htxn
    split
    · exact .inr ⟨rfl, rfl⟩
    · rename_i item hitem
      split_ifs with hlt
      · exact .inr ⟨rfl, by simp⟩
      · exact .inl ⟨txn, item, htxn, hitem, by omega, rfl⟩

/-- What a `write` can do: succeed on the existing item or on a new one, or fail and leave
    every item as it was. A new item has timestamps `0`, so a write to it never fails. -/
theorem write_cases (s : TimestampOrdering) (t x v : Int) :
    (∃ txn item, s.activeTransactions t = some txn ∧
      (s.dataItems x = some item ∨ (s.dataItems x = none ∧ item = ⟨x, 0, 0, 0⟩)) ∧
      item.readTs ≤ txn.startTs ∧ item.writeTs ≤ txn.startTs ∧
      s.write t x v =
        (true, s.setItem x { item with writeTs := max item.writeTs txn.startTs, value := v })) ∨
    ((s.write t x v).1 = false ∧ (s.write t x v).2.dataItems = s.dataItems) := by
  unfold write
  split
  · exact .inr ⟨rfl, rfl⟩
  · rename_i txn htxn
    cases hx : s.dataItems x with
    | none =>
      refine .inl ⟨txn, ⟨x, 0, 0, 0⟩, htxn, .inr ⟨rfl, rfl⟩, Nat.zero_le _, Nat.zero_le _, ?_⟩
      simp [setItem, Function.update_idem]
    | some item =>
      simp only [Option.getD_some]
      split_ifs with hlt
      · refine .inr ⟨rfl, ?_⟩
        simp only [abortTransaction_dataItems, setItem_dataItems]
        exact Function.update_eq_self_iff.mpr hx.symm
      · refine .inl ⟨txn, item, htxn, .inl rfl, by omega, by omega, ?_⟩
        simp [setItem, Function.update_idem]

/-- The value every item holds. -/
def values (s : TimestampOrdering) : Store := fun x => (s.dataItems x).map DataItem.value

@[simp] theorem values_setItem (s : TimestampOrdering) (x : Int) (item : DataItem) :
    (s.setItem x item).values = Function.update s.values x (some item.value) := by
  funext y
  by_cases hy : y = x
  · subst hy; simp [values]
  · simp [values, Function.update_noteq hy]

/-- A property of the item under `y` survives storing under `x` an item that has it
    whenever the old one had it. -/
theorem exists_item_setItem {s : TimestampOrdering} {x y : Int} {item : DataItem}
    {P : DataItem → Prop} (hy : ∃ i, s.dataItems y = some i ∧ P i)
    (hx : ∀ i, s.dataItems x = some i → P i → P item) :
    ∃ i, (s.setItem x item).dataItems y = some i ∧ P i := by
  by_cases hyx : y = x
  · subst hyx
    obtain ⟨i, hi, hp⟩ := hy
    exact ⟨item, by simp, hx i hi hp⟩
  · simpa [Function.update_noteq hyx] using hy

end TimestampOrdering

/-! ## Runs with their history -/

/-- A call of the `TimestampOrdering` interface. -/
inductive TOCall where
  | beginTransaction (transactionId : Int) (timestamp : Nat)
  | read (transactionId dataItemId : Int)
  | write (transactionId dataItemId newValue : Int)
  | commitTransaction (transactionId : Int) (timestamp : Nat)
  | abortTransaction (transactionId : Int)
  deriving DecidableEq, Repr

/-- The state of the code and the history of its successful reads and writes. -/
structure Sys where
  state : TimestampOrdering
  hist : List Op

/-- The operation a successful call of `transactionId` adds to the history. -/
def recordOp (s : TimestampOrdering) (kind : OpKind) (transactionId dataItemId value : Int) :
    List Op :=
  match s.activeTransactions transactionId with
  | some txn => [⟨kind, txn.startTs, dataItemId, value⟩]
  | none => []

/-- One call. A read that returns `true` records the value of the item it read. -/
def Sys.step (sys : Sys) : TOCall → Sys
  | .beginTransaction t ts => { sys with state := sys.state.beginTransaction t ts }
  | .read t x =>
    let r := sys.state.read t x
    let value := ((sys.state.dataItems x).map DataItem.value).getD 0
    ⟨r.2, if r.1 then sys.hist ++ recordOp sys.state .read t x value else sys.hist⟩
  | .write t x v =>
    let r := sys.state.write t x v
    ⟨r.2, if r.1 then sys.hist ++ recordOp sys.state .write t x v else sys.hist⟩
  | .commitTransaction t ts => { sys with state := sys.state.commitTransaction t ts }
  | .abortTransaction t => { sys with state := sys.state.abortTransaction t }

/-- The states reachable from a new `TimestampOrdering` by any interleaving of calls. -/
inductive Sys.Reachable : Sys → Prop
  | init : Sys.Reachable ⟨TimestampOrdering.empty, []⟩
  | step {sys : Sys} (c : TOCall) : Sys.Reachable sys → Sys.Reachable (sys.step c)

theorem Sys.Reachable.runCalls {sys : Sys} (h : sys.Reachable) :
    ∀ calls : List TOCall, (calls.foldl Sys.step sys).Reachable
  | [] => h
  | c :: calls => Sys.Reachable.runCalls (h.step c) calls

/-! ## The invariant -/

/-- What every reachable state satisfies. Each item's `write_ts` (`read_ts`) bounds the
    start timestamps of the successful writes (reads) of it, conflicting operations are in
    timestamp order, and the history, replayed in the order it was made, sees every value
    that was read and ends with the values the items hold. -/
structure Inv (sys : Sys) : Prop where
  ordered : ConflictOrdered sys.hist
  writeTs_ge : ∀ op ∈ sys.hist, op.kind = .write →
    ∃ item, sys.state.dataItems op.item = some item ∧ op.ts ≤ item.writeTs
  readTs_ge : ∀ op ∈ sys.hist, op.kind = .read →
    ∃ item, sys.state.dataItems op.item = some item ∧ op.ts ≤ item.readTs
  replay_hist : replay (fun _ => none) sys.hist = some sys.state.values

theorem inv_init : Inv ⟨TimestampOrdering.empty, []⟩ where
  ordered := List.Pairwise.nil
  writeTs_ge := by simp
  readTs_ge := by simp
  replay_hist := rfl

/-- A call that changes neither the items nor the history keeps the invariant. -/
theorem Inv.of_dataItems_eq {sys sys' : Sys} (h : Inv sys) (hh : sys'.hist = sys.hist)
    (hd : sys'.state.dataItems = sys.state.dataItems) : Inv sys' where
  ordered := hh ▸ h.ordered
  writeTs_ge := hh ▸ hd ▸ h.writeTs_ge
  readTs_ge := hh ▸ hd ▸ h.readTs_ge
  replay_hist := by
    have : sys'.state.values = sys.state.values := by funext x; simp [TimestampOrdering.values, hd]
    rw [hh, this]; exact h.replay_hist

/-- A write that succeeds comes after every successful read or write of its item by a
    transaction with a larger start timestamp. -/
theorem Inv.write_after {sys : Sys} (h : Inv sys) {t x v : Int}
    (hw : (sys.state.write t x v).1 = true) :
    ∃ txn, sys.state.activeTransactions t = some txn ∧
      ∀ op ∈ sys.hist, op.item = x → op.ts ≤ txn.startTs := by
  rcases sys.state.write_cases t x v with ⟨txn, item, htxn, hitem, hr, hwt, -⟩ | ⟨hf, -⟩
  · refine ⟨txn, htxn, fun op hop hx => ?_⟩
    cases hk : op.kind
    · obtain ⟨i, hi, hle⟩ := h.readTs_ge op hop hk
      rcases hitem with hitem | ⟨hnone, -⟩ <;> rw [hx] at hi
      · rw [hitem] at hi; cases hi; omega
      · rw [hnone] at hi; cases hi
    · obtain ⟨i, hi, hle⟩ := h.writeTs_ge op hop hk
      rcases hitem with hitem | ⟨hnone, -⟩ <;> rw [hx] at hi
      · rw [hitem] at hi; cases hi; omega
      · rw [hnone] at hi; cases hi
  · rw [hf] at hw; cases hw

/-- A read that succeeds observes the last write of its item, which is also the latest
    write among the writers with the largest start timestamp not above the reader's. -/
theorem Inv.read_observes {sys : Sys} (h : Inv sys) {t x : Int}
    (hr : (sys.state.read t x).1 = true) :
    ∃ txn item, sys.state.activeTransactions t = some txn ∧ sys.state.dataItems x = some item ∧
      (latestWriteUpTo x txn.startTs sys.hist).map Op.value = some item.value := by
  rcases sys.state.read_cases t x with ⟨txn, item, htxn, hitem, hle, -⟩ | ⟨hf, -⟩
  · refine ⟨txn, item, htxn, hitem, ?_⟩
    have hup : ∀ op ∈ sys.hist, op.kind = .write → op.item = x → op.ts ≤ txn.startTs := by
      intro op hop hk hx
      obtain ⟨i, hi, hts⟩ := h.writeTs_ge op hop hk
      rw [hx, hitem] at hi; cases hi; omega
    have hv := replay_lastWrite h.replay_hist x
    simp only [TimestampOrdering.values, hitem, Option.map_some', Option.or_none] at hv
    rw [latestWriteUpTo_eq_lastWrite h.ordered hup, ← hv]
  · rw [hf] at hr; cases hr

theorem Inv.step_read {sys : Sys} (h : Inv sys) (t x : Int) : Inv (sys.step (.read t x)) := by
  rcases sys.state.read_cases t x with ⟨txn, item, htxn, hitem, hle, hread⟩ | ⟨hf, hd⟩
  · have hstep : sys.step (.read t x) = ⟨sys.state.setItem x
        { item with readTs := max item.readTs txn.startTs },
        sys.hist ++ [⟨.read, txn.startTs, x, item.value⟩]⟩ := by
      simp [Sys.step, hread, recordOp, htxn, hitem]
    rw [hstep]
    have hnew : ∀ op ∈ [(⟨.read, txn.startTs, x, item.value⟩ : Op)], op.kind = .read ∧
        op.item = x ∧ op.ts = txn.startTs := by simp
    refine ⟨?_, ?_, ?_, ?_⟩
    · refine List.pairwise_append.mpr ⟨h.ordered, List.pairwise_singleton _ _, ?_⟩
      intro a ha b hb hc
      obtain ⟨hk, hx, hts⟩ := hnew b hb
      have hak : a.kind = .write := by simpa [hk] using hc.2
      obtain ⟨i, hi, hle'⟩ := h.writeTs_ge a ha hak
      rw [hc.1, hx, hitem] at hi; cases hi; omega
    · intro op hop hk
      rcases List.mem_append.mp hop with hop | hop
      · exact TimestampOrdering.exists_item_setItem (h.writeTs_ge op hop hk) fun i hi hp => by
          rw [hitem] at hi; cases hi; exact hp
      · simp [(hnew op hop).1] at hk
    · intro op hop hk
      rcases List.mem_append.mp hop with hop | hop
      · exact TimestampOrdering.exists_item_setItem (h.readTs_ge op hop hk) fun i hi hp => by
          rw [hitem] at hi; cases hi; simp only; omega
      · obtain ⟨-, hx, hts⟩ := hnew op hop
        exact ⟨{ item with readTs := max item.readTs txn.startTs }, by simp [hx],
          by simp only [hts]; omega⟩
    · have hv : sys.state.values x = some item.value := by simp [TimestampOrdering.values, hitem]
      have hvals : (sys.state.setItem x
          { item with readTs := max item.readTs txn.startTs }).values = sys.state.values := by
        rw [TimestampOrdering.values_setItem]
        exact Function.update_eq_self_iff.mpr hv.symm
      rw [replay_append, h.replay_hist, hvals]
      simp [replay, hv]
  · exact h.of_dataItems_eq (by simp [Sys.step, hf]) (by simpa [Sys.step] using hd)

theorem Inv.step_write {sys : Sys} (h : Inv sys) (t x v : Int) :
    Inv (sys.step (.write t x v)) := by
  rcases sys.state.write_cases t x v with ⟨txn, item, htxn, hitem, hr, hw, hwrite⟩ | ⟨hf, hd⟩
  · obtain ⟨txn', htxn', hafter⟩ := h.write_after (by rw [hwrite])
    rw [htxn] at htxn'; cases htxn'
    have hstep : sys.step (.write t x v) = ⟨sys.state.setItem x
        { item with writeTs := max item.writeTs txn.startTs, value := v },
        sys.hist ++ [⟨.write, txn.startTs, x, v⟩]⟩ := by
      simp [Sys.step, hwrite, recordOp, htxn]
    rw [hstep]
    have hold : ∀ i, sys.state.dataItems x = some i → i = item := by
      rcases hitem with hitem | ⟨hnone, -⟩ <;> intro i hi
      · rw [hitem] at hi; cases hi; rfl
      · rw [hnone] at hi; cases hi
    refine ⟨?_, ?_, ?_, ?_⟩
    · refine List.pairwise_append.mpr ⟨h.ordered, List.pairwise_singleton _ _, ?_⟩
      intro a ha b hb hc
      simp only [List.mem_singleton] at hb
      subst hb
      exact hafter a ha hc.1
    · intro op hop hk
      rcases List.mem_append.mp hop with hop | hop
      · exact TimestampOrdering.exists_item_setItem (h.writeTs_ge op hop hk) fun i hi hp => by
          cases hold i hi; simp only; omega
      · simp only [List.mem_singleton] at hop
        subst hop
        exact ⟨{ item with writeTs := max item.writeTs txn.startTs, value := v }, by simp,
          by simp only; omega⟩
    · intro op hop hk
      rcases List.mem_append.mp hop with hop | hop
      · exact TimestampOrdering.exists_item_setItem (h.readTs_ge op hop hk) fun i hi hp => by
          cases hold i hi; exact hp
      · simp only [List.mem_singleton] at hop
        subst hop; cases hk
    · rw [replay_append, h.replay_hist]
      simp [replay]
  · exact h.of_dataItems_eq (by simp [Sys.step, hf]) (by simpa [Sys.step] using hd)

/-- Every call keeps the invariant. -/
theorem Inv.step {sys : Sys} (h : Inv sys) : ∀ c, Inv (sys.step c)
  | .beginTransaction _ _ => h.of_dataItems_eq rfl (by simp [Sys.step])
  | .read t x => h.step_read t x
  | .write t x v => h.step_write t x v
  | .commitTransaction _ _ => h.of_dataItems_eq rfl (by simp [Sys.step])
  | .abortTransaction _ => h.of_dataItems_eq rfl (by simp [Sys.step])

theorem Sys.Reachable.inv {sys : Sys} (h : sys.Reachable) : Inv sys := by
  induction h with
  | init => exact inv_init
  | step c _ ih => exact ih.step c

/-! ## Timestamps never decrease -/

theorem exists_mono_setItem {s : TimestampOrdering} {x y : Int} {item new : DataItem}
    (hx : s.dataItems x = some item)
    (hy : ∀ old, s.dataItems y = some old → old.readTs ≤ new.readTs ∧ old.writeTs ≤ new.writeTs) :
    ∃ item', (s.setItem y new).dataItems x = some item' ∧
      item.readTs ≤ item'.readTs ∧ item.writeTs ≤ item'.writeTs :=
  TimestampOrdering.exists_item_setItem ⟨item, hx, le_rfl, le_rfl⟩ fun old hold hp =>
    ⟨hp.1.trans (hy old hold).1, hp.2.trans (hy old hold).2⟩

/-- No call removes an item or lowers its `read_ts` or `write_ts`. -/
theorem Sys.step_ts_mono (sys : Sys) (c : TOCall) {x : Int} {item : DataItem}
    (hx : sys.state.dataItems x = some item) :
    ∃ item', (sys.step c).state.dataItems x = some item' ∧
      item.readTs ≤ item'.readTs ∧ item.writeTs ≤ item'.writeTs := by
  have same : ∀ s : TimestampOrdering, s.dataItems = sys.state.dataItems →
      ∃ item', s.dataItems x = some item' ∧
        item.readTs ≤ item'.readTs ∧ item.writeTs ≤ item'.writeTs :=
    fun s hs => ⟨item, hs ▸ hx, le_rfl, le_rfl⟩
  cases c with
  | read t y =>
    rcases sys.state.read_cases t y with ⟨txn, old, -, hold, -, hread⟩ | ⟨-, hd⟩
    · simp only [Sys.step, hread]
      exact exists_mono_setItem hx fun o ho => by
        rw [hold] at ho; cases ho; exact ⟨le_max_left _ _, le_rfl⟩
    · exact same _ hd
  | write t y v =>
    rcases sys.state.write_cases t y v with ⟨txn, old, -, hold, -, -, hwrite⟩ | ⟨-, hd⟩
    · simp only [Sys.step, hwrite]
      exact exists_mono_setItem hx fun o ho => by
        rcases hold with hold | ⟨hnone, -⟩
        · rw [hold] at ho; cases ho; exact ⟨le_rfl, le_max_left _ _⟩
        · rw [hnone] at ho; cases ho
    · exact same _ hd
  | _ => exact same _ (by simp [Sys.step])

/-! ## Serializability -/

/-- **Timestamp ordering is serializable.** In every reachable state: (a) no call lowers an
    item's `read_ts` or `write_ts`; (b) a read that returns `true` observes the value of
    the last write among the writers with the largest start timestamp not above the
    reader's; (c) a write that returns `true` comes after every successful read or write of
    its item by a transaction with a larger start timestamp; and the successful
    operations, run one after another in increasing start timestamp order, see every
    value that was read and end with the values the items hold. -/
theorem timestampOrdering_serializable {sys : Sys} (h : sys.Reachable) :
    (∀ c x item, sys.state.dataItems x = some item →
      ∃ item', (sys.step c).state.dataItems x = some item' ∧
        item.readTs ≤ item'.readTs ∧ item.writeTs ≤ item'.writeTs) ∧
    (∀ t x, (sys.state.read t x).1 = true →
      ∃ txn item, sys.state.activeTransactions t = some txn ∧
        sys.state.dataItems x = some item ∧
        (latestWriteUpTo x txn.startTs sys.hist).map Op.value = some item.value) ∧
    (∀ t x v, (sys.state.write t x v).1 = true →
      ∃ txn, sys.state.activeTransactions t = some txn ∧
        ∀ op ∈ sys.hist, op.item = x → op.ts ≤ txn.startTs) ∧
    replay (fun _ => none) (serialOrder sys.hist) = some sys.state.values :=
  ⟨fun c _ _ hx => sys.step_ts_mono c hx, fun _ _ hr => h.inv.read_observes hr,
    fun _ _ _ hw => h.inv.write_after hw,
    (replay_serialOrder h.inv.ordered _).trans h.inv.replay_hist⟩

/-- The calls of `main` (lines 134–154). -/
def mainCalls : List TOCall :=
  [.beginTransaction 1 100, .write 1 1 10, .read 1 1, .commitTransaction 1 150,
    .beginTransaction 2 200, .read 2 1, .write 2 1 20, .commitTransaction 2 250,
    .beginTransaction 3 300, .read 3 1, .commitTransaction 3 350]

theorem mainCalls_serial :
    replay (fun _ => none) (serialOrder (mainCalls.foldl Sys.step ⟨.empty, []⟩).hist) =
      some (mainCalls.foldl Sys.step ⟨.empty, []⟩).state.values :=
  (timestampOrdering_serializable (Sys.Reachable.init.runCalls mainCalls)).2.2.2

end HpDb.Concurrency
