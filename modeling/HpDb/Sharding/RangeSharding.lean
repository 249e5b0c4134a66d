import Mathlib.Data.List.Basic

/-!
# `ShardManager` (unnamed/part_014)

A `RangeShard` accepts the keys of `[min_range, max_range]` and stores them in a map. The
`ShardManager` keeps its shards in the order they were added, and `insert`, `retrieve` and
`remove` all go to the first shard that accepts the key. `add_shard` appends, so the first
shard that accepts a key stays the first: overlapping ranges added later never take a key
over.

`std::map<int, std::string>` is read only through `find`, `operator[]` and `erase`, so the
model keeps it as a function. The messages on `std::cerr` are not modelled; those calls
change nothing.

Results:
* `retrieve_run`: after any calls, `retrieve(k)` returns the value of the last
  `insert(k, v)` after the last `remove(k)`, when a shard accepted `k` at that insert;
  otherwise `"Key not found"` if a shard accepts `k` now and `"No shard found for key."` if
  none does. And no call, `add_shard` among them, changes the shard a key is routed to once
  one accepts it.
-/

namespace HpDb.Sharding

/-- `class RangeShard` (lines 7–45). -/
structure RangeShard where
  minRange : Int
  maxRange : Int
  storage : Int → Option String

namespace RangeShard

/-- `RangeShard(min_range, max_range)`: an empty map. -/
def new (minRange maxRange : Int) : RangeShard := ⟨minRange, maxRange, fun _ => none⟩

/-- `can_accept(key)` (lines 12–14). -/
def canAccept (s : RangeShard) (key : Int) : Bool := key ≥ s.minRange && key ≤ s.maxRange

/-- `insert(key, value)` (lines 16–18): `storage[key] = value`. -/
def insert (s : RangeShard) (key : Int) (value : String) : RangeShard :=
  { s with storage := Function.update s.storage key (some value) }

/-- `retrieve(key)` (lines 20–27). -/
def retrieve (s : RangeShard) (key : Int) : String := (s.storage key).getD "Key not found"

/-- `remove(key)` (lines 29–31): `storage.erase(key)`. -/
def remove (s : RangeShard) (key : Int) : RangeShard :=
  { s with storage := Function.update s.storage key none }

@[simp] theorem storage_new (minRange maxRange k : Int) :
    (new minRange maxRange).storage k = none := rfl

@[simp] theorem canAccept_insert (s : RangeShard) (key k : Int) (value : String) :
    (s.insert key value).canAccept k = s.canAccept k := rfl

@[simp] theorem canAccept_remove (s : RangeShard) (key k : Int) :
    (s.remove key).canAccept k = s.canAccept k := rfl

end RangeShard

/-- `class ShardManager` (lines 47–84): the shards in the order they were added. -/
structure ShardManager where
  shards : List RangeShard

namespace ShardManager

/-- An empty manager. -/
def new : ShardManager := ⟨[]⟩

/-- `add_shard(min_range, max_range)` (lines 49–51). -/
def addShard (m : ShardManager) (minRange maxRange : Int) : ShardManager :=
  ⟨m.shards ++ [RangeShard.new minRange maxRange]⟩

/-- The loop of `insert` and `remove` (lines 53–61, 72–80): `f` applied to the first shard
    that accepts `key`, and nothing done when none does. -/
def updateFirst (key : Int) (f : RangeShard → RangeShard) : List RangeShard → List RangeShard
  | [] => []
  | s :: ss => if s.canAccept key then f s :: ss else s :: updateFirst key f ss

/-- `insert(key, value)` (lines 53–61). -/
def insert (m : ShardManager) (key : Int) (value : String) : ShardManager :=
  ⟨updateFirst key (·.insert key value) m.shards⟩

/-- `retrieve(key)` (lines 63–70). -/
def retrieve (m : ShardManager) (key : Int) : String :=
  match m.shards.find? (·.canAccept key) with
  | some s => s.retrieve key
  | none => "No shard found for key."

/-- `remove(key)` (lines 72–80). -/
def remove (m : ShardManager) (key : Int) : ShardManager :=
  ⟨updateFirst key (·.remove key) m.shards⟩

/-- A call of the manager. -/
inductive Op where
  | addShard (minRange maxRange : Int)
  | insert (key : Int) (value : String)
  | retrieve (key : Int)
  | remove (key : Int)
  deriving DecidableEq, Repr

/-- The manager after one call; the result of `retrieve` is dropped. -/
def apply (m : ShardManager) : Op → ShardManager
  | .addShard minRange maxRange => m.addShard minRange maxRange
  | .insert key value => m.insert key value
  | .retrieve _ => m
  | .remove key => m.remove key

/-- The manager after the calls `ops` in turn, from an empty one. -/
def run (ops : List Op) : ShardManager := ops.foldl apply new

/-- The shard `key` is routed to: the position of the first shard that accepts it. -/
def route (m : ShardManager) (key : Int) : Option Nat := m.shards.findIdx? (·.canAccept key)

/-! ## What the calls do to one key -/

/-- What the shard of `k` holds at `k`, and `none` when no shard accepts `k`. -/
def slot (m : ShardManager) (k : Int) : Option (Option String) :=
  (m.shards.find? (·.canAccept k)).map (·.storage k)

theorem retrieve_eq (m : ShardManager) (k : Int) :
    m.retrieve k = ((m.slot k).map (·.getD "Key not found")).getD "No shard found for key." := by
  unfold retrieve slot
  cases m.shards.find? (·.canAccept k) <;> rfl

/-- `updateFirst` changes the slot of `k` only when `k` is the key it was called with. -/
theorem slot_updateFirst (key k : Int) (f : RangeShard → RangeShard)
    (hacc : ∀ s, (f s).canAccept k = s.canAccept k)
    (hst : ∀ s, k ≠ key → (f s).storage k = s.storage k) : ∀ ss : List RangeShard,
    ((updateFirst key f ss).find? (·.canAccept k)).map (·.storage k) =
      (ss.find? (·.canAccept k)).map fun s => if k = key then (f s).storage k else s.storage k
  | [] => rfl
  | s :: ss => by
    by_cases hkk : k = key
    · subst hkk
      by_cases hs : s.canAccept k <;> simp [updateFirst, hs, hacc, List.find?_cons,
        slot_updateFirst k k f hacc hst ss]
    · have hmap : ∀ o : Option RangeShard, o.map (fun s => if k = key then (f s).storage k
          else s.storage k) = o.map (·.storage k) := fun o => by simp [hkk]
      rw [hmap]
      by_cases hk : s.canAccept key
      · by_cases hs : s.canAccept k <;> simp [updateFirst, hk, hs, hacc, hst s hkk, List.find?_cons]
      · have ih := slot_updateFirst key k f hacc hst ss
        rw [hmap] at ih
        by_cases hs : s.canAccept k <;> simp [updateFirst, hk, hs, List.find?_cons, ih]

theorem slot_insert (m : ShardManager) (key k : Int) (value : String) :
    (m.insert key value).slot k = if k = key then (m.slot k).map fun _ => some value
      else m.slot k := by
  simp only [slot, insert]
  rw [slot_updateFirst key k (·.insert key value) (fun _ => rfl)
    fun s hk => Function.update_noteq hk _ _]
  split_ifs with hk
  · subst hk; simp [Option.map_map, Function.comp_def, RangeShard.insert]
  · simp

theorem slot_remove (m : ShardManager) (key k : Int) :
    (m.remove key).slot k = if k = key then (m.slot k).map fun _ => none else m.slot k := by
  simp only [slot, remove]
  rw [slot_updateFirst key k (·.remove key) (fun _ => rfl)
    fun s hk => Function.update_noteq hk _ _]
  split_ifs with hk
  · subst hk; simp [Option.map_map, Function.comp_def, RangeShard.remove]
  · simp

theorem slot_addShard (m : ShardManager) (minRange maxRange k : Int) :
    (m.addShard minRange maxRange).slot k =
      (m.slot k).or (if (RangeShard.new minRange maxRange).canAccept k then some none else none) := by
  simp only [slot, addShard, List.find?_append]
  cases m.shards.find? (·.canAccept k) <;>
    by_cases h : (RangeShard.new minRange maxRange).canAccept k <;> simp [List.find?_cons, h]

/-! ## What the calls say about a key -/

/-- What the calls so far say about key `k`: whether some shard added accepts it, and the
    value of the last `insert(k, v)` after the last `remove(k)`, if a shard accepted `k` at
    that insert. -/
structure Expect where
  covered : Bool
  last : Option String

/-- One call, seen from key `k`. -/
def Op.expect (k : Int) (e : Expect) : Op → Expect
  | .addShard minRange maxRange => { e with covered := e.covered || decide (minRange ≤ k ∧ k ≤ maxRange) }
  | .insert key value => if key = k then { e with last := if e.covered then some value else none } else e
  | .remove key => if key = k then { e with last := none } else e
  | .retrieve _ => e

/-- The calls `ops`, seen from key `k`. -/
def expect (ops : List Op) (k : Int) : Expect := ops.foldl (Op.expect k) ⟨false, none⟩

/-- The manager holds at `k` what the calls say. -/
def Agrees (k : Int) (m : ShardManager) (e : Expect) : Prop :=
  m.slot k = (if e.covered then some e.last else none) ∧ (e.covered = false → e.last = none)

theorem Agrees.step {k : Int} {m : ShardManager} {e : Expect} (h : Agrees k m e) (op : Op) :
    Agrees k (m.apply op) (op.expect k e) := by
  obtain ⟨hs, hl⟩ := h
  cases op with
  | addShard minRange maxRange =>
    refine ⟨?_, fun hc => ?_⟩
    · rw [apply, slot_addShard, hs]
      cases hc : e.covered
      · simp [Op.expect, hc, hl hc, RangeShard.canAccept, RangeShard.new, and_comm]
      · simp [Op.expect, hc]
    · simp only [Op.expect, Bool.or_eq_false_iff] at hc
      exact hl hc.1
  | insert key value =>
    simp only [apply, Op.expect, Agrees]
    rw [slot_insert, hs]
    by_cases hk : key = k
    · subst hk; cases hc : e.covered <;> simp [hc]
    · simpa [hk, Ne.symm hk, hs] using hl
  | retrieve _ => exact ⟨hs, hl⟩
  | remove key =>
    simp only [apply, Op.expect, Agrees]
    rw [slot_remove, hs]
    by_cases hk : key = k
    · subst hk; cases hc : e.covered <;> simp [hc]
    · simpa [hk, Ne.symm hk, hs] using hl

theorem findIdx?_updateFirst (key k : Int) (f : RangeShard → RangeShard)
    (hacc : ∀ s, (f s).canAccept k = s.canAccept k) : ∀ (ss : List RangeShard) (i : Nat),
    (updateFirst key f ss).findIdx? (·.canAccept k) i = ss.findIdx? (·.canAccept k) i
  | [], _ => rfl
  | s :: ss, i => by
    unfold updateFirst
    split_ifs <;> simp only [List.findIdx?_cons, hacc, findIdx?_updateFirst key k f hacc ss]

/-- No call moves a key that a shard accepts to another shard. -/
theorem route_apply {m : ShardManager} {k : Int} {i : Nat} (h : m.route k = some i) (op : Op) :
    (m.apply op).route k = some i := by
  cases op with
  | addShard minRange maxRange =>
    simp only [apply, route, addShard, List.findIdx?_append] at h ⊢
    rw [h, Option.or_some]
  | insert key value =>
    simp only [apply, route, insert]
    rwa [findIdx?_updateFirst key k (·.insert key value) fun _ => rfl]
  | retrieve _ => exact h
  | remove key =>
    simp only [apply, route, remove]
    rwa [findIdx?_updateFirst key k (·.remove key) fun _ => rfl]

theorem retrieve_run (ops : List Op) (k : Int) :
    (run ops).retrieve k = (expect ops k).last.getD
        (if (expect ops k).covered then "Key not found" else "No shard found for key.") ∧
      ∀ (m : ShardManager) (op : Op) (i : Nat), m.route k = some i → (m.apply op).route k = some i := by
  have hrun : ∀ (ops : List Op) (m : ShardManager) (e : Expect), Agrees k m e →
      Agrees k (ops.foldl apply m) (ops.foldl (Op.expect k) e) := fun ops => by
    induction ops with
    | nil => exact fun _ _ h => h
    | cons op ops ih => exact fun m e h => ih _ _ (h.step op)
  obtain ⟨hs, hl⟩ := hrun ops new ⟨false, none⟩ ⟨rfl, fun _ => rfl⟩
  refine ⟨?_, fun m op i h => route_apply h op⟩
  rw [retrieve_eq, run, hs, expect]
  cases hc : (ops.foldl (Op.expect k) ⟨false, none⟩).covered
  · simp [hl hc]
  · simp

end ShardManager

end HpDb.Sharding
