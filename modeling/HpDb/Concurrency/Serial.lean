import Mathlib.Logic.Function.Basic
import Mathlib.Data.List.Basic

/-!
# Histories of reads and writes, and their serial replay

The concurrency strategies of the repository are judged by the history of the reads and
writes they let succeed. An operation records the start timestamp of its transaction,
the item, and the value read or written. `replay` runs a history one operation after
another on a store: a write installs its value, and a read must see the value the store
holds at that point.

`serialOrder` sorts a history by timestamp, stably: the operations of one timestamp stay
in the order they were made. With pairwise distinct start timestamps this runs the
transactions one after another in increasing start timestamp, each in its own order.

Results:
* `serialOrder_perm`, `serialOrder_sorted`, `serialOrder_filter_ts`: `serialOrder` is a
  stable sort by timestamp.
* `replay_serialOrder`: when every two conflicting operations (same item, one of them a
  write) are in timestamp order, replaying the history in `serialOrder` gives the same
  result as replaying it in the order it was made.
-/

namespace HpDb.Concurrency

/-- Whether an operation read or wrote its item. -/
inductive OpKind where
  | read
  | write
  deriving DecidableEq, Repr

/-- A successful read or write: the caller's start timestamp, the item, and the value read
    or written. -/
structure Op where
  kind : OpKind
  ts : Nat
  item : Int
  value : Int
  deriving DecidableEq, Repr

/-- Two operations conflict when they touch the same item and one of them writes it. -/
def Conflict (a b : Op) : Prop := a.item = b.item ∧ (a.kind = .write ∨ b.kind = .write)

instance (a b : Op) : Decidable (Conflict a b) := inferInstanceAs (Decidable (_ ∧ _))

theorem Conflict.symm {a b : Op} (h : Conflict a b) : Conflict b a :=
  ⟨h.1.symm, h.2.symm⟩

/-- Every two conflicting operations of the history are in timestamp order. -/
def ConflictOrdered (hist : List Op) : Prop :=
  hist.Pairwise fun a b => Conflict a b → a.ts ≤ b.ts

/-- Item ↦ value; `none` for an item never written. -/
abbrev Store := Int → Option Int

/-- Run a history on `store`, one operation after another. `none` if some read sees a
    value other than the one it recorded. -/
def replay (store : Store) : List Op → Option Store
  | [] => some store
  | op :: ops =>
    match op.kind with
    | .write => replay (Function.update store op.item (some op.value)) ops
    | .read => if store op.item = some op.value then replay store ops else none

/-- Insert `op` after every operation of timestamp at most `op.ts`. -/
def insertByTs (op : Op) (ops : List Op) : List Op :=
  ops.takeWhile (·.ts ≤ op.ts) ++ op :: ops.dropWhile (·.ts ≤ op.ts)

/-- The history sorted by timestamp, stably (insertion sort). -/
def serialOrder (hist : List Op) : List Op :=
  hist.foldl (fun ops op => insertByTs op ops) []

@[simp] theorem serialOrder_nil : serialOrder [] = [] := rfl

theorem serialOrder_concat (hist : List Op) (op : Op) :
    serialOrder (hist ++ [op]) = insertByTs op (serialOrder hist) := by
  simp [serialOrder]

/-! ## `serialOrder` is a stable sort -/

theorem insertByTs_perm (op : Op) (ops : List Op) : (insertByTs op ops).Perm (op :: ops) := by
  unfold insertByTs
  exact List.perm_middle.trans (by rw [List.takeWhile_append_dropWhile])

theorem serialOrder_perm (hist : List Op) : (serialOrder hist).Perm hist := by
  induction hist using List.reverseRecOn with
  | nil => rfl
  | append_singleton hist op ih =>
    rw [serialOrder_concat]
    exact (insertByTs_perm op _).trans
      ((ih.cons op).trans (List.perm_append_singleton op hist).symm)

/-- In a list sorted by timestamp, what `dropWhile (·.ts ≤ t)` leaves is above `t`. -/
theorem lt_of_mem_dropWhile {ops : List Op} (hs : ops.Pairwise fun a b => a.ts ≤ b.ts)
    {t : Nat} {b : Op} (hb : b ∈ ops.dropWhile (·.ts ≤ t)) : t < b.ts := by
  induction ops with
  | nil => simp at hb
  | cons a ops ih =>
    rw [List.pairwise_cons] at hs
    by_cases ha : a.ts ≤ t
    · rw [List.dropWhile_cons_of_pos (by simpa using ha)] at hb
      exact ih hs.2 hb
    · rw [List.dropWhile_cons_of_neg (by simpa using ha)] at hb
      rcases List.mem_cons.mp hb with rfl | hb
      · omega
      · have := hs.1 b hb; omega

theorem le_of_mem_takeWhile {ops : List Op} {t : Nat} {b : Op}
    (hb : b ∈ ops.takeWhile (·.ts ≤ t)) : b.ts ≤ t := by
  simpa using List.mem_takeWhile_imp hb

theorem insertByTs_sorted {op : Op} {ops : List Op}
    (hs : ops.Pairwise fun a b => a.ts ≤ b.ts) :
    (insertByTs op ops).Pairwise fun a b => a.ts ≤ b.ts := by
  have hsplit := hs
  rw [← List.takeWhile_append_dropWhile (·.ts ≤ op.ts) ops, List.pairwise_append] at hsplit
  unfold insertByTs
  refine List.pairwise_append.mpr ⟨hsplit.1, List.pairwise_cons.mpr ⟨fun b hb => ?_, hsplit.2.1⟩,
    fun a ha b hb => ?_⟩
  · exact (lt_of_mem_dropWhile hs hb).le
  · rcases List.mem_cons.mp hb with rfl | hb
    · exact le_of_mem_takeWhile ha
    · exact hsplit.2.2 a ha b hb

theorem serialOrder_sorted (hist : List Op) :
    (serialOrder hist).Pairwise fun a b => a.ts ≤ b.ts := by
  induction hist using List.reverseRecOn with
  | nil => exact List.Pairwise.nil
  | append_singleton hist op ih => rw [serialOrder_concat]; exact insertByTs_sorted ih

/-- The operations of each timestamp keep the order they were made in. -/
theorem serialOrder_filter_ts (hist : List Op) (t : Nat) :
    (serialOrder hist).filter (·.ts = t) = hist.filter (·.ts = t) := by
  induction hist using List.reverseRecOn with
  | nil => rfl
  | append_singleton hist op ih =>
    have hs := serialOrder_sorted hist
    have hdrop : ((serialOrder hist).dropWhile (·.ts ≤ op.ts)).filter (·.ts = t) =
        if op.ts = t then [] else ((serialOrder hist).dropWhile (·.ts ≤ op.ts)).filter (·.ts = t) := by
      split_ifs with h
      · exact List.filter_eq_nil_iff.mpr fun b hb => by
          have := lt_of_mem_dropWhile hs hb; simp; omega
      · rfl
    rw [serialOrder_concat, insertByTs, List.filter_append, List.filter_cons, hdrop,
      List.filter_append, ← ih, ← List.takeWhile_append_dropWhile (·.ts ≤ op.ts) (serialOrder hist),
      List.filter_append, hdrop]
    split_ifs <;> simp_all

/-! ## Replay -/

theorem replay_append (store : Store) (l₁ l₂ : List Op) :
    replay store (l₁ ++ l₂) = (replay store l₁).bind (replay · l₂) := by
  induction l₁ generalizing store with
  | nil => rfl
  | cons op ops ih =>
    rw [List.cons_append]
    cases hk : op.kind
    · simp only [replay, hk]
      split_ifs <;> simp [ih]
    · simp only [replay, hk, ih]

theorem replay_cons_congr {l₁ l₂ : List Op} (h : ∀ store, replay store l₁ = replay store l₂)
    (store : Store) (op : Op) : replay store (op :: l₁) = replay store (op :: l₂) := by
  cases hk : op.kind <;> simp only [replay, hk, h]

/-- Two operations that do not conflict commute. -/
theorem replay_swap {a b : Op} (h : ¬ Conflict a b) (store : Store) (ops : List Op) :
    replay store (a :: b :: ops) = replay store (b :: a :: ops) := by
  cases ha : a.kind <;> cases hb : b.kind
  · simp only [replay, ha, hb]
    split_ifs <;> rfl
  · have hne : a.item ≠ b.item := fun e => h ⟨e, .inr hb⟩
    simp only [replay, ha, hb, Function.update_noteq hne]
  · have hne : b.item ≠ a.item := fun e => h ⟨e.symm, .inl ha⟩
    simp only [replay, ha, hb, Function.update_noteq hne]
  · have hne : a.item ≠ b.item := fun e => h ⟨e, .inl ha⟩
    simp only [replay, ha, hb, Function.update_comm hne]

/-- An operation that conflicts with none of `ops` can be moved past them. -/
theorem replay_cons_eq_concat {op : Op} {ops : List Op} (h : ∀ b ∈ ops, ¬ Conflict op b)
    (store : Store) : replay store (op :: ops) = replay store (ops ++ [op]) := by
  induction ops generalizing store with
  | nil => rfl
  | cons b ops ih =>
    rw [replay_swap (h b (List.mem_cons_self b ops))]
    exact replay_cons_congr (ih fun c hc => h c (List.mem_cons_of_mem b hc)) store b

/-- **Conflict-ordered histories replay the same in timestamp order.** -/
theorem replay_serialOrder {hist : List Op} (h : ConflictOrdered hist) (store : Store) :
    replay store (serialOrder hist) = replay store hist := by
  induction hist using List.reverseRecOn generalizing store with
  | nil => rfl
  | append_singleton hist op ih =>
    unfold ConflictOrdered at h
    rw [List.pairwise_append] at h
    have hfree : ∀ b ∈ (serialOrder hist).dropWhile (·.ts ≤ op.ts), ¬ Conflict op b := by
      intro b hb hc
      have hlt := lt_of_mem_dropWhile (serialOrder_sorted hist) hb
      have hmem := (serialOrder_perm hist).subset (List.dropWhile_subset _ hb)
      have := h.2.2 b hmem op (List.mem_singleton_self op) hc.symm
      omega
    rw [serialOrder_concat, insertByTs, replay_append, replay_append]
    simp only [replay_cons_eq_concat hfree]
    rw [← replay_append, ← List.append_assoc, List.takeWhile_append_dropWhile, replay_append,
      ih h.1]

/-! ## The write a read sees -/

/-- The last write to `x` in the history. -/
def lastWrite (x : Int) : List Op → Option Op
  | [] => none
  | op :: ops => (lastWrite x ops).or (if op.kind = .write ∧ op.item = x then some op else none)

/-- Among the writes to `x` in the history by transactions of start timestamp at most `t`,
    the last one of those with the largest start timestamp. -/
def latestWriteUpTo (x : Int) (t : Nat) : List Op → Option Op
  | [] => none
  | op :: ops =>
    let later := latestWriteUpTo x t ops
    if op.kind = .write ∧ op.item = x ∧ op.ts ≤ t ∧ later.all (·.ts < op.ts) then some op
    else later

theorem lastWrite_mem {x : Int} {ops : List Op} {w : Op} (h : lastWrite x ops = some w) :
    w ∈ ops ∧ w.kind = .write ∧ w.item = x := by
  induction ops with
  | nil => cases h
  | cons op ops ih =>
    simp only [lastWrite] at h
    cases hl : lastWrite x ops with
    | some w' =>
      rw [hl] at h
      cases h
      obtain ⟨hm, hk, hi⟩ := ih hl
      exact ⟨List.mem_cons_of_mem op hm, hk, hi⟩
    | none =>
      rw [hl] at h
      split_ifs at h with hw
      · cases h; exact ⟨List.mem_cons_self _ _, hw⟩
      · cases h

/-- A replay ends with the value of the last write to each item, or the item's value
    before the replay if the history does not write it. -/
theorem replay_lastWrite {store f : Store} {hist : List Op} (h : replay store hist = some f)
    (x : Int) : f x = ((lastWrite x hist).map Op.value).or (store x) := by
  induction hist generalizing store with
  | nil => cases h; rfl
  | cons op ops ih =>
    cases hk : op.kind
    · simp only [replay, hk] at h
      split_ifs at h
      simp [ih h, lastWrite, hk]
    · simp only [replay, hk] at h
      rw [ih h, lastWrite]
      cases lastWrite x ops <;> by_cases hx : op.item = x
      · subst hx; simp [hk]
      · simp [hk, hx, Function.update_noteq (Ne.symm hx)]
      · rfl
      · rfl

/-- When every write to `x` is by a transaction of start timestamp at most `t`, and the
    writes to `x` are in timestamp order, the latest write up to `t` is the last write. -/
theorem latestWriteUpTo_eq_lastWrite {x : Int} {t : Nat} {hist : List Op}
    (ho : ConflictOrdered hist) (ht : ∀ op ∈ hist, op.kind = .write → op.item = x → op.ts ≤ t) :
    latestWriteUpTo x t hist = lastWrite x hist := by
  induction hist with
  | nil => rfl
  | cons op ops ih =>
    rw [ConflictOrdered, List.pairwise_cons] at ho
    rw [latestWriteUpTo, lastWrite, ih ho.2 fun o ho' => ht o (List.mem_cons_of_mem op ho')]
    cases hl : lastWrite x ops with
    | none =>
      by_cases hw : op.kind = .write ∧ op.item = x
      · simp [hw, ht op (List.mem_cons_self op ops) hw.1 hw.2]
      · simp only [Option.all_none, and_true, Option.none_or]
        rw [if_neg fun h => hw ⟨h.1, h.2.1⟩, if_neg hw]
    | some w =>
      obtain ⟨hm, -, hi⟩ := lastWrite_mem hl
      rw [if_neg]
      · rfl
      · rintro ⟨hk', hi', -, hlt⟩
        have := ho.1 w hm ⟨hi'.trans hi.symm, .inl hk'⟩
        simp only [Option.all_some, decide_eq_true_eq] at hlt
        omega

end HpDb.Concurrency
