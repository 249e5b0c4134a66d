import Mathlib.Data.List.Basic
import Mathlib.Data.Nat.Find

/-!
# `ConsistentHashing` (networking/tests/networking_tests.go, lines 172–222)

Each node is put on the ring at `numReplicas` virtual points: `addNode` sets
`hashRing[hashKey(id + to_string(i))] = node` for `i < numReplicas`, and `removeNode` erases
the same points. `getNode(key)` returns the node at the first point at or after
`hashKey(key)`, wrapping to the first point of the ring.

`hashFunction` is `std::hash<string>`, whose values the standard leaves to the
implementation: here it is any function, and every result holds for all of them. A node is
given by its `id`, its only field. `hashRing` is a `std::map`: its entries in increasing key
order, an order that `Ring` carries as a field.

The names `id + to_string(i)` of different ids can coincide: `"Node1" + "0"` and
`"Node" + "10"` are both `"Node10"`, and `"Node1" + "23"` and `"Node12" + "3"` are both
`"Node123"`. Every name of `"Node1"` is a name of one of the ten `coveringIds`.

Results:
* `addNode_moves_keys_to_it`: for every hash function and every ring, `addNode(n)` sends
  each key where it went before or to `n`.
* `removeNode_moves_other_keys`: for every hash function, after adding the ten
  `coveringIds` and then `"Node1"`, one of the removals of the `coveringIds` changes
  `getNode("Node10")` from `"Node1"` to something else, although the removed node is not
  `"Node1"`: removing them one by one erases every point of `"Node1"`.
-/

namespace HpDb.Networking

/-- `hashRing[h] = v` on entries in increasing key order. -/
def insertEntry (h : Nat) (v : String) : List (Nat × String) → List (Nat × String)
  | [] => [(h, v)]
  | e :: es => if h < e.1 then (h, v) :: e :: es else if h = e.1 then (h, v) :: es
    else e :: insertEntry h v es

theorem mem_insertEntry {h : Nat} {v : String} {x : Nat × String} :
    ∀ {es : List (Nat × String)}, x ∈ insertEntry h v es → x = (h, v) ∨ x ∈ es
  | [], hx => by simpa [insertEntry] using hx
  | e :: es, hx => by
    unfold insertEntry at hx
    split_ifs at hx
    · simpa using hx
    · simp only [List.mem_cons] at hx ⊢; tauto
    · simp only [List.mem_cons] at hx ⊢
      rcases hx with rfl | hx
      · exact .inr (.inl rfl)
      · exact (mem_insertEntry hx).imp_right .inr

theorem sorted_insertEntry (h : Nat) (v : String) : ∀ {es : List (Nat × String)},
    es.Pairwise (·.1 < ·.1) → (insertEntry h v es).Pairwise (·.1 < ·.1)
  | [], _ => List.pairwise_singleton _ _
  | e :: es, hs => by
    obtain ⟨he, hs'⟩ := List.pairwise_cons.mp hs
    unfold insertEntry
    split_ifs with hlt heq
    · exact List.pairwise_cons.mpr ⟨fun x hx => by
        rcases List.mem_cons.mp hx with rfl | hx
        · exact hlt
        · exact hlt.trans (he x hx), hs⟩
    · exact List.pairwise_cons.mpr ⟨fun x hx => heq ▸ he x hx, hs'⟩
    · refine List.pairwise_cons.mpr ⟨fun x hx => ?_, sorted_insertEntry h v hs'⟩
      rcases mem_insertEntry hx with rfl | hx
      · show e.1 < h; omega
      · exact he x hx

theorem mem_insertEntry_self (h : Nat) (v : String) :
    ∀ es : List (Nat × String), (h, v) ∈ insertEntry h v es
  | [] => List.mem_singleton_self _
  | e :: es => by
    unfold insertEntry
    split_ifs <;> simp [mem_insertEntry_self h v es]

theorem mem_insertEntry_of_mem {h : Nat} {v : String} {x : Nat × String} (hx : x.1 ≠ h) :
    ∀ {es : List (Nat × String)}, x ∈ es → x ∈ insertEntry h v es
  | e :: es, hmem => by
    unfold insertEntry
    split_ifs with hlt heq
    · exact List.mem_cons_of_mem _ hmem
    · rcases List.mem_cons.mp hmem with rfl | hmem
      · exact absurd heq.symm hx
      · exact List.mem_cons_of_mem _ hmem
    · rcases List.mem_cons.mp hmem with rfl | hmem
      · exact List.mem_cons_self _ _
      · exact List.mem_cons_of_mem _ (mem_insertEntry_of_mem hx hmem)

/-- `lower_bound` finds a key that is in the map. -/
theorem find?_of_mem {h : Nat} {v : String} : ∀ {es : List (Nat × String)},
    es.Pairwise (·.1 < ·.1) → (h, v) ∈ es → es.find? (fun e => h ≤ e.1) = some (h, v)
  | e :: es, hs, hmem => by
    obtain ⟨he, hs'⟩ := List.pairwise_cons.mp hs
    rcases List.mem_cons.mp hmem with rfl | hmem
    · simp
    · have hlt : e.1 < h := he _ hmem
      rw [List.find?_cons_of_neg _ (by simpa using hlt)]
      exact find?_of_mem hs' hmem

/-- Setting one point changes `lower_bound` at most to that point. -/
theorem find?_insertEntry (hk h : Nat) (v : String) : ∀ es : List (Nat × String),
    (insertEntry h v es).find? (fun e => hk ≤ e.1) = es.find? (fun e => hk ≤ e.1) ∨
      (insertEntry h v es).find? (fun e => hk ≤ e.1) = some (h, v)
  | [] => by by_cases hh : hk ≤ h <;> simp [insertEntry, hh]
  | e :: es => by
    unfold insertEntry
    split_ifs with hlt heq
    · by_cases hh : hk ≤ h <;> simp [hh]
    · by_cases hh : hk ≤ h
      · simp [hh]
      · left
        rw [List.find?_cons_of_neg _ (by simpa using hh),
          List.find?_cons_of_neg _ (by simpa [← heq] using hh)]
    · by_cases he : hk ≤ e.1
      · simp [he]
      · rw [List.find?_cons_of_neg _ (by simpa using he), List.find?_cons_of_neg _ (by simpa using he)]
        exact find?_insertEntry hk h v es

theorem head?_insertEntry (h : Nat) (v : String) (es : List (Nat × String)) :
    (insertEntry h v es).head? = es.head? ∨ (insertEntry h v es).head? = some (h, v) := by
  cases es with
  | nil => simp [insertEntry]
  | cons e es => unfold insertEntry; split_ifs <;> simp

/-- `map<size_t, Node*> hashRing`: the entries in increasing key order. -/
structure Ring where
  entries : List (Nat × String)
  sorted : entries.Pairwise (·.1 < ·.1)

namespace Ring

/-- The empty map. -/
def empty : Ring := ⟨[], List.Pairwise.nil⟩

/-- `hashRing[h] = v`. -/
def set (r : Ring) (h : Nat) (v : String) : Ring :=
  ⟨insertEntry h v r.entries, sorted_insertEntry h v r.sorted⟩

/-- `hashRing.erase(h)`. -/
def erase (r : Ring) (h : Nat) : Ring :=
  ⟨r.entries.filter (·.1 != h), r.sorted.filter _⟩

/-- The keys of the map. -/
def keys (r : Ring) : List Nat := r.entries.map (·.1)

/-- The node at `lower_bound(h)`, or at `begin()` when that is `end()`; `nullptr` when the
    map is empty. -/
def nodeAt (r : Ring) (h : Nat) : Option String :=
  match r.entries with
  | [] => none
  | first :: _ =>
    match r.entries.find? (fun e => h ≤ e.1) with
    | some e => some e.2
    | none => some first.2

theorem nodeAt_of_find?_some {r : Ring} {h : Nat} {e : Nat × String}
    (he : r.entries.find? (fun e => h ≤ e.1) = some e) : r.nodeAt h = some e.2 := by
  unfold nodeAt
  cases hr : r.entries with
  | nil => rw [hr] at he; simp at he
  | cons first rest => rw [hr] at he; simp only [he]

theorem nodeAt_of_find?_none {r : Ring} {h : Nat}
    (he : r.entries.find? (fun e => h ≤ e.1) = none) : r.nodeAt h = r.entries.head?.map (·.2) := by
  unfold nodeAt
  cases hr : r.entries with
  | nil => rfl
  | cons first rest => rw [hr] at he; simp only [he]; rfl

/-- Setting one point moves a key at most to that point. -/
theorem nodeAt_set (r : Ring) (h : Nat) (v : String) (hk : Nat) :
    (r.set h v).nodeAt hk = r.nodeAt hk ∨ (r.set h v).nodeAt hk = some v := by
  have hset : (r.set h v).entries = insertEntry h v r.entries := rfl
  rcases find?_insertEntry hk h v r.entries with hf | hf
  · cases hfe : r.entries.find? (fun e => hk ≤ e.1) with
    | some e =>
      left
      rw [nodeAt_of_find?_some (hset ▸ hf.trans hfe), nodeAt_of_find?_some hfe]
    | none =>
      rw [nodeAt_of_find?_none (hset ▸ hf.trans hfe), nodeAt_of_find?_none hfe, hset]
      rcases head?_insertEntry h v r.entries with hh | hh
      · exact .inl (by rw [hh])
      · exact .inr (by rw [hh]; rfl)
  · exact .inr (nodeAt_of_find?_some (hset ▸ hf))

theorem nodeAt_foldl_set (hk : Nat) (f : Nat → Nat) (v : String) : ∀ (l : List Nat) (r : Ring),
    (l.foldl (fun r i => r.set (f i) v) r).nodeAt hk = r.nodeAt hk ∨
      (l.foldl (fun r i => r.set (f i) v) r).nodeAt hk = some v
  | [], _ => .inl rfl
  | i :: l, r => by
    rw [List.foldl_cons]
    rcases nodeAt_foldl_set hk f v l (r.set (f i) v) with h | h
    · rw [h]; exact nodeAt_set r (f i) v hk
    · exact .inr h

theorem mem_keys_set {r : Ring} {h x : Nat} {v : String} (hx : x ∈ (r.set h v).keys) :
    x = h ∨ x ∈ r.keys := by
  obtain ⟨e, he, rfl⟩ := List.mem_map.mp hx
  rcases mem_insertEntry he with rfl | he
  · exact .inl rfl
  · exact .inr (List.mem_map_of_mem _ he)

theorem mem_keys_erase {r : Ring} {h x : Nat} : x ∈ (r.erase h).keys ↔ x ≠ h ∧ x ∈ r.keys := by
  simp only [keys, erase, List.mem_map, List.mem_filter, bne_iff_ne, ne_eq]
  constructor
  · rintro ⟨e, ⟨he, hne⟩, rfl⟩; exact ⟨hne, e, he, rfl⟩
  · rintro ⟨hne, e, he, rfl⟩; exact ⟨e, ⟨he, hne⟩, rfl⟩

/-- Setting points to `v` keeps every entry that points to `v`. -/
theorem mem_foldl_set {f : Nat → Nat} {v : String} {x : Nat × String} (hx : x.2 = v) :
    ∀ (l : List Nat) {r : Ring}, x ∈ r.entries →
      x ∈ (l.foldl (fun r i => r.set (f i) v) r).entries
  | [], _, hmem => hmem
  | i :: l, r, hmem => by
    refine mem_foldl_set hx l ?_
    by_cases hi : x.1 = f i
    · obtain ⟨a, b⟩ := x
      simp only at hi hx
      subst hi hx
      exact mem_insertEntry_self _ _ _
    · exact mem_insertEntry_of_mem hi hmem

theorem mem_foldl_set_self {f : Nat → Nat} {v : String} :
    ∀ (l : List Nat) (r : Ring), ∀ i ∈ l, (f i, v) ∈ (l.foldl (fun r i => r.set (f i) v) r).entries
  | i :: l, r, j, hj => by
    rcases List.mem_cons.mp hj with rfl | hj
    · exact mem_foldl_set rfl l (mem_insertEntry_self _ _ _)
    · exact mem_foldl_set_self l _ j hj

theorem mem_keys_foldl_set {f : Nat → Nat} {v : String} {x : Nat} :
    ∀ (l : List Nat) {r : Ring}, x ∈ (l.foldl (fun r i => r.set (f i) v) r).keys →
      x ∈ r.keys ∨ ∃ i ∈ l, x = f i
  | [], _, hx => .inl hx
  | i :: l, r, hx => by
    rcases mem_keys_foldl_set l hx with hx | ⟨j, hj, rfl⟩
    · rcases mem_keys_set hx with rfl | hx
      · exact .inr ⟨i, List.mem_cons_self _ _, rfl⟩
      · exact .inl hx
    · exact .inr ⟨j, List.mem_cons_of_mem _ hj, rfl⟩

theorem mem_keys_foldl_erase {f : Nat → Nat} {x : Nat} :
    ∀ (l : List Nat) {r : Ring}, x ∈ (l.foldl (fun r i => r.erase (f i)) r).keys →
      x ∈ r.keys ∧ ∀ i ∈ l, x ≠ f i
  | [], _, hx => ⟨hx, by simp⟩
  | i :: l, r, hx => by
    obtain ⟨hx, hl⟩ := mem_keys_foldl_erase l hx
    obtain ⟨hne, hx⟩ := mem_keys_erase.mp hx
    exact ⟨hx, fun j hj => (List.mem_cons.mp hj).elim (· ▸ hne) (hl j)⟩

end Ring

/-- `class ConsistentHashing`: the ring, `numReplicas` and `hashFunction`. -/
structure ConsistentHashing where
  hashRing : Ring
  numReplicas : Nat
  hashFunction : String → Nat

namespace ConsistentHashing

/-- `ConsistentHashing(replicas)`; the default is `100`. -/
def new (hashFunction : String → Nat) (replicas : Nat) : ConsistentHashing :=
  ⟨Ring.empty, replicas, hashFunction⟩

/-- `hashKey(key)`. -/
def hashKey (c : ConsistentHashing) (key : String) : Nat := c.hashFunction key

/-- `addNode(node)`. -/
def addNode (c : ConsistentHashing) (id : String) : ConsistentHashing :=
  let ring := (List.range c.numReplicas).foldl
    (fun r i => r.set (c.hashKey (id ++ toString i)) id) c.hashRing
  { c with hashRing := ring }

/-- `removeNode(node)`. -/
def removeNode (c : ConsistentHashing) (id : String) : ConsistentHashing :=
  let ring := (List.range c.numReplicas).foldl
    (fun r i => r.erase (c.hashKey (id ++ toString i))) c.hashRing
  { c with hashRing := ring }

/-- `getNode(key)`. -/
def getNode (c : ConsistentHashing) (key : String) : Option String :=
  c.hashRing.nodeAt (c.hashKey key)

/-! ## What a ring holds -/

theorem addNode_hashRing (c : ConsistentHashing) (id : String) :
    (c.addNode id).hashRing = (List.range c.numReplicas).foldl
      (fun r i => r.set (c.hashKey (id ++ toString i)) id) c.hashRing := rfl

@[simp] theorem hashKey_addNode (c : ConsistentHashing) (id : String) :
    (c.addNode id).hashKey = c.hashKey := rfl

theorem getNode_of_mem {c : ConsistentHashing} {key v : String}
    (h : (c.hashKey key, v) ∈ c.hashRing.entries) : c.getNode key = some v := by
  have hs := c.hashRing.sorted
  unfold getNode Ring.nodeAt
  cases hr : c.hashRing.entries with
  | nil => rw [hr] at h; simp at h
  | cons first rest =>
    rw [hr] at hs h
    simp only [find?_of_mem hs h]

theorem getNode_of_keys_eq_nil {c : ConsistentHashing} (h : c.hashRing.keys = []) (key : String) :
    c.getNode key = none := by
  unfold getNode Ring.nodeAt
  rw [List.map_eq_nil_iff.mp h]

/-- Adding and removing nodes keeps `numReplicas` and `hashFunction`. -/
theorem foldl_fields {f : ConsistentHashing → String → ConsistentHashing}
    (hf : ∀ c id, (f c id).numReplicas = c.numReplicas ∧ (f c id).hashFunction = c.hashFunction) :
    ∀ (ids : List String) (c : ConsistentHashing),
      (ids.foldl f c).numReplicas = c.numReplicas ∧ (ids.foldl f c).hashFunction = c.hashFunction
  | [], _ => ⟨rfl, rfl⟩
  | id :: ids, c => by
    obtain ⟨h₁, h₂⟩ := foldl_fields hf ids (f c id)
    exact ⟨h₁.trans (hf c id).1, h₂.trans (hf c id).2⟩

/-- The points of a ring after adding `ids`: those before, and the names of `ids`. -/
theorem mem_keys_foldl_addNode {x : Nat} : ∀ (ids : List String) {c : ConsistentHashing},
    x ∈ (ids.foldl addNode c).hashRing.keys →
      x ∈ c.hashRing.keys ∨ ∃ id ∈ ids, ∃ i < c.numReplicas, x = c.hashFunction (id ++ toString i)
  | [], _, hx => .inl hx
  | id :: ids, c, hx => by
    rcases mem_keys_foldl_addNode ids hx with hx | ⟨id', hid', i, hi, rfl⟩
    · rcases Ring.mem_keys_foldl_set _ hx with hx | ⟨i, hi, rfl⟩
      · exact .inl hx
      · exact .inr ⟨id, List.mem_cons_self _ _, i, List.mem_range.mp hi, rfl⟩
    · exact .inr ⟨id', List.mem_cons_of_mem _ hid', i, hi, rfl⟩

/-- The points of a ring after removing `ids`: those before but the names of `ids`. -/
theorem mem_keys_foldl_removeNode {x : Nat} : ∀ (ids : List String) {c : ConsistentHashing},
    x ∈ (ids.foldl removeNode c).hashRing.keys →
      x ∈ c.hashRing.keys ∧ ∀ id ∈ ids, ∀ i < c.numReplicas, x ≠ c.hashFunction (id ++ toString i)
  | [], _, hx => ⟨hx, by simp⟩
  | id :: ids, c, hx => by
    obtain ⟨hx, hids⟩ := mem_keys_foldl_removeNode ids hx
    obtain ⟨hx, hid⟩ := Ring.mem_keys_foldl_erase _ hx
    refine ⟨hx, fun id' hid' i hi => ?_⟩
    rcases List.mem_cons.mp hid' with rfl | hid'
    · exact hid i (List.mem_range.mpr hi)
    · exact hids id' hid' i hi

/-- `addNode(node)` moves a key only to `node`: every key goes where it went before, or to the
    new node. -/
theorem addNode_moves_keys_to_it (c : ConsistentHashing) (id key : String) :
    (c.addNode id).getNode key = c.getNode key ∨ (c.addNode id).getNode key = some id := by
  unfold getNode
  rw [hashKey_addNode, addNode_hashRing]
  exact Ring.nodeAt_foldl_set _ _ _ _ _

/-! ## Removing one node moves the keys of another -/

/-- `"Node"` for `0`, and `"Node1" ++ to_string(a)` for the digits `a` from `1` to `9`. -/
def coverId (a : Nat) : String := if a = 0 then "Node" else "Node1" ++ toString a

/-- Ten ids whose virtual points cover every virtual point of `"Node1"`. -/
def coveringIds : List String := (List.range 10).map coverId

/-- The replica of `coverId (i / 10)` whose name is `"Node1" ++ to_string(i)`. -/
def coverReplica (i : Nat) : Nat := if i < 10 then 10 + i else i % 10

theorem name_covered :
    ∀ i < 100, "Node1" ++ toString i = coverId (i / 10) ++ toString (coverReplica i) := by
  decide

/-- The `coveringIds` added to an empty ring of `100` replicas, then `"Node1"`. -/
def coveredRing (hashFunction : String → Nat) : ConsistentHashing :=
  (coveringIds.foldl addNode (new hashFunction 100)).addNode "Node1"

/-- `coveredRing` after removing the first `j` of the `coveringIds` in turn. -/
def afterRemoves (hashFunction : String → Nat) (j : Nat) : ConsistentHashing :=
  (coveringIds.take j).foldl removeNode (coveredRing hashFunction)

theorem foldl_addNode_fields (hashFunction : String → Nat) :
    (coveringIds.foldl addNode (new hashFunction 100)).numReplicas = 100 ∧
      (coveringIds.foldl addNode (new hashFunction 100)).hashFunction = hashFunction :=
  foldl_fields (fun _ _ => ⟨rfl, rfl⟩) coveringIds (new hashFunction 100)

/-- Right after `"Node1"` is added, the key `"Node10"` goes to it. -/
theorem getNode_coveredRing (hashFunction : String → Nat) :
    (afterRemoves hashFunction 0).getNode "Node10" = some "Node1" := by
  obtain ⟨h₁, -⟩ := foldl_addNode_fields hashFunction
  change ((coveringIds.foldl addNode (new hashFunction 100)).addNode "Node1").getNode "Node10" = _
  generalize coveringIds.foldl addNode (new hashFunction 100) = c at h₁
  apply getNode_of_mem
  have hmem := Ring.mem_foldl_set_self (f := fun i => c.hashKey ("Node1" ++ toString i))
    (v := "Node1") (List.range c.numReplicas) c.hashRing 0 (by simp [h₁])
  have hkey : "Node1" ++ toString 0 = "Node10" := by decide
  simp only [hkey] at hmem
  rwa [hashKey_addNode, addNode_hashRing]

/-- Once every covering id is removed, the ring is empty. -/
theorem getNode_afterRemoves_all (hashFunction : String → Nat) :
    (afterRemoves hashFunction 10).getNode "Node10" = none := by
  obtain ⟨h₁, h₂⟩ := foldl_addNode_fields hashFunction
  refine getNode_of_keys_eq_nil (List.eq_nil_iff_forall_not_mem.mpr fun x hx => ?_) _
  obtain ⟨hx, hrem⟩ := mem_keys_foldl_removeNode _ hx
  have hmem : ∀ a < 10, coverId a ∈ coveringIds.take 10 := fun a ha => by
    rw [List.take_of_length_le (by simp [coveringIds])]
    exact List.mem_map_of_mem coverId (List.mem_range.mpr ha)
  replace hrem : ∀ a < 10, ∀ i < 100, x ≠ hashFunction (coverId a ++ toString i) :=
    fun a ha i hi => hrem _ (hmem a ha) i (by simpa [coveredRing, addNode, h₁] using hi)
  rcases Ring.mem_keys_foldl_set _ hx with hx | ⟨i, hi, rfl⟩
  · rcases mem_keys_foldl_addNode _ hx with hx | ⟨id, hid, i, hi, rfl⟩
    · simp [new, Ring.empty, Ring.keys] at hx
    · obtain ⟨a, ha, rfl⟩ := List.mem_map.mp hid
      exact hrem a (List.mem_range.mp ha) i hi rfl
  · rw [List.mem_range, h₁] at hi
    refine hrem (i / 10) (by omega) (coverReplica i) (by unfold coverReplica; split <;> omega) ?_
    rw [← name_covered i hi]
    simp only [hashKey, h₂]

theorem removeNode_moves_other_keys (hashFunction : String → Nat) :
    ("Node1" :: coveringIds).Nodup ∧ ∃ j n, coveringIds[j]? = some n ∧
      (afterRemoves hashFunction j).getNode "Node10" = some "Node1" ∧
      ((afterRemoves hashFunction j).removeNode n).getNode "Node10" ≠ some "Node1" := by
  refine ⟨by decide, ?_⟩
  have hex : ∃ j, (afterRemoves hashFunction j).getNode "Node10" ≠ some "Node1" :=
    ⟨10, by simp [getNode_afterRemoves_all]⟩
  obtain ⟨j, hj⟩ : ∃ j, Nat.find hex = j + 1 := Nat.exists_eq_succ_of_ne_zero fun h0 =>
    Nat.find_spec hex (h0 ▸ getNode_coveredRing hashFunction)
  have hle : Nat.find hex ≤ 10 := Nat.find_min' hex (by simp [getNode_afterRemoves_all])
  have hlt : j < coveringIds.length := by
    rw [coveringIds, List.length_map, List.length_range]; omega
  refine ⟨j, coveringIds[j], List.getElem?_eq_getElem hlt,
    not_not.mp (Nat.find_min hex (by omega)), ?_⟩
  have hstep : afterRemoves hashFunction (j + 1) =
      (afterRemoves hashFunction j).removeNode coveringIds[j] := by
    simp only [afterRemoves, List.take_succ, List.getElem?_eq_getElem hlt, Option.toList_some,
      List.foldl_append, List.foldl_cons, List.foldl_nil]
  rw [← hstep, ← hj]
  exact Nat.find_spec hex

end ConsistentHashing

end HpDb.Networking
