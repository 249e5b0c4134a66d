import Mathlib.Data.List.Nodup

/-!
# `HashIndex` (unnamed/part_007)

A hash index of `numBuckets` buckets, each a `HashBucket`: a `std::list` of key-value pairs
that `insert`, `find` and `remove` scan from the front. `HashIndex` sends a key to bucket
`hashFunc(key) % numBuckets`, and `resize` builds `newNumBuckets` fresh buckets and inserts
every entry of the old ones, bucket by bucket, in list order.

The model keeps `Key` and `Value` abstract, with a decidable equality on keys, and a hash
function into `Nat` (`size_t`). An index into `buckets` outside the vector is undefined
behaviour, and an operation that makes one returns `none`; so does `% 0`, which reads the
index `hashFunc(key)` of an empty vector. `mutexes` is kept by its size only: each
operation locks `mutexes[bucketIndex]`, and the model does not stop there when that index
is out of range, so that the map and the locks can be judged apart. `resize` walks the
`numBuckets` old buckets, which are all of `buckets` in every reachable state.

Results:
* `run_finite_map`: from `HashIndex(numBuckets ≥ 1, hashFunc)`, after any calls with every
  `resize` to at least one bucket, `find` returns the value of the last `insert` of the key
  not followed by a `remove` of it, `remove` returns whether the key is present, and no key
  is stored twice, in one bucket or in two.
* `resize_outgrows_mutexes`: `resize` leaves `mutexes` at its first size, so after the
  calls of `main()` (ten buckets, then `resize(20)`) the key `15` locks `mutexes[15]` of a
  vector of ten.
-/

namespace HpDb.Indexing

/-- `class HashBucket` (lines 10–48): its `std::list` of key-value pairs. -/
structure HashBucket (Key Value : Type) where
  bucket : List (Key × Value)

namespace HashBucket

variable {Key Value : Type} [DecidableEq Key]

/-- The loop of `insert` (lines 16–24): the first entry with `key` takes `value`, and
    without one the pair goes at the back. -/
def insertLoop (key : Key) (value : Value) : List (Key × Value) → List (Key × Value)
  | [] => [(key, value)]
  | e :: es => if e.1 = key then (e.1, value) :: es else e :: insertLoop key value es

/-- `insert(key, value)` (lines 16–24). -/
def insert (b : HashBucket Key Value) (key : Key) (value : Value) : HashBucket Key Value :=
  ⟨insertLoop key value b.bucket⟩

/-- `find(key, value)` (lines 26–34): the value of the first entry with `key`, which the
    source writes to `value` before it returns `true`. -/
def find (b : HashBucket Key Value) (key : Key) : Option Value :=
  (b.bucket.find? (·.1 = key)).map Prod.snd

/-- `remove(key)` (lines 36–44): the bucket without its first entry with `key`, and whether
    there was one. -/
def remove (b : HashBucket Key Value) (key : Key) : HashBucket Key Value × Bool :=
  (⟨b.bucket.eraseP (·.1 = key)⟩, b.bucket.any (·.1 = key))

/-- The keys of the entries, front to back. -/
def keys (b : HashBucket Key Value) : List Key := b.bucket.map Prod.fst

theorem find_insert (b : HashBucket Key Value) (key k : Key) (value : Value) :
    (b.insert key value).find k = if k = key then some value else b.find k := by
  obtain ⟨es⟩ := b
  simp only [insert, find]
  induction es with
  | nil => by_cases h : k = key <;> simp [insertLoop, h, eq_comm]
  | cons e es ih =>
    rw [insertLoop]
    by_cases he : e.1 = key
    · by_cases h : k = key <;> simp [he, h, List.find?_cons, eq_comm]
    · by_cases h : e.1 = k
      · subst h; simp [he, List.find?_cons, Ne.symm he]
      · simpa [he, h, List.find?_cons] using ih

theorem mem_insert {b : HashBucket Key Value} {key : Key} {value : Value} {e : Key × Value}
    (he : e ∈ (b.insert key value).bucket) : e = (key, value) ∨ e ∈ b.bucket := by
  obtain ⟨es⟩ := b
  simp only [insert] at he ⊢
  induction es with
  | nil => simpa [insertLoop] using he
  | cons x es ih =>
    rw [insertLoop] at he
    split_ifs at he with hx
    · rcases List.mem_cons.mp he with rfl | he
      · exact .inl (by rw [hx])
      · exact .inr (List.mem_cons_of_mem _ he)
    · rcases List.mem_cons.mp he with rfl | he
      · exact .inr (List.mem_cons_self _ _)
      · exact (ih he).imp_right (List.mem_cons_of_mem _)

theorem keys_insert (b : HashBucket Key Value) (key : Key) (value : Value) :
    (b.insert key value).keys = if key ∈ b.keys then b.keys else b.keys ++ [key] := by
  obtain ⟨es⟩ := b
  simp only [insert, keys]
  induction es with
  | nil => simp [insertLoop]
  | cons x es ih =>
    rw [insertLoop]
    by_cases hx : x.1 = key
    · simp [hx]
    · simp only [hx, if_false, List.map_cons, ih, List.mem_cons, Ne.symm hx, false_or]
      split_ifs <;> rfl

theorem nodup_insert {b : HashBucket Key Value} (hb : b.keys.Nodup) (key : Key) (value : Value) :
    (b.insert key value).keys.Nodup := by
  rw [keys_insert]
  split_ifs with hk
  · exact hb
  · exact hb.append (List.nodup_singleton _) (List.disjoint_singleton.mpr hk)

theorem find_eq_some {b : HashBucket Key Value} (hb : b.keys.Nodup) {e : Key × Value}
    (he : e ∈ b.bucket) : b.find e.1 = some e.2 := by
  obtain ⟨es⟩ := b
  simp only [find, keys] at hb he ⊢
  induction es with
  | nil => cases he
  | cons x es ih =>
    rw [List.map_cons, List.nodup_cons] at hb
    rcases List.mem_cons.mp he with rfl | he
    · simp
    · have hx : x.1 ≠ e.1 := fun h => hb.1 (h ▸ List.mem_map_of_mem _ he)
      simpa [List.find?_cons, hx] using ih hb.2 he

theorem find_eq_none {b : HashBucket Key Value} {k : Key} (hk : k ∉ b.keys) : b.find k = none := by
  simp only [find, keys, Option.map_eq_none', List.find?_eq_none, decide_eq_true_eq] at hk ⊢
  exact fun e he h => hk (h ▸ List.mem_map_of_mem _ he)

theorem remove_snd (b : HashBucket Key Value) (k : Key) : (b.remove k).2 = (b.find k).isSome := by
  simp only [remove, find, Option.isSome_map]
  induction b.bucket with
  | nil => rfl
  | cons e es ih => by_cases h : e.1 = k <;> simp [List.find?_cons, h, ih]

theorem find_remove {b : HashBucket Key Value} (hb : b.keys.Nodup) (k k' : Key) :
    (b.remove k).1.find k' = if k' = k then none else b.find k' := by
  obtain ⟨es⟩ := b
  simp only [remove, find, keys] at hb ⊢
  induction es with
  | nil => simp
  | cons e es ih =>
    rw [List.map_cons, List.nodup_cons] at hb
    rw [List.eraseP_cons]
    by_cases he : e.1 = k
    · subst he
      rw [show (bif decide (e.1 = e.1) then es else e :: es.eraseP (·.1 = e.1)) = es by simp]
      by_cases h : k' = e.1
      · rw [if_pos h, h]; exact find_eq_none (b := ⟨es⟩) hb.1
      · simp [h, List.find?_cons, Ne.symm h]
    · by_cases h : e.1 = k'
      · subst h; simp [he, List.find?_cons, Ne.symm he]
      · simpa [he, h, List.find?_cons] using ih hb.2

theorem keys_remove_sublist (b : HashBucket Key Value) (k : Key) :
    (b.remove k).1.keys.Sublist b.keys :=
  (List.eraseP_sublist _).map _

theorem mem_remove {b : HashBucket Key Value} {k : Key} {e : Key × Value}
    (he : e ∈ (b.remove k).1.bucket) : e ∈ b.bucket :=
  (List.eraseP_sublist _).subset he

end HashBucket

/-! ## Bucket vectors -/

section Buckets

variable {Key Value : Type} [DecidableEq Key]

/-- `newBuckets[i].insert(key, value)`, `none` when `i` is past the end. -/
def insertAt (bs : List (HashBucket Key Value)) (i : Nat) (key : Key) (value : Value) :
    Option (List (HashBucket Key Value)) :=
  bs[i]?.map fun b => bs.set i (b.insert key value)

/-- `find` through the bucket of `key` among `n` buckets. -/
def lookup (hashFunc : Key → Nat) (n : Nat) (bs : List (HashBucket Key Value)) (key : Key) :
    Option (Option Value) :=
  bs[hashFunc key % n]?.map (·.find key)

/-- A vector of `n ≥ 1` buckets in which every entry sits in the bucket of its hash and no
    bucket holds a key twice. -/
structure Placed (hashFunc : Key → Nat) (n : Nat) (bs : List (HashBucket Key Value)) :
    Prop where
  pos : 0 < n
  length : bs.length = n
  placed : ∀ i b, bs[i]? = some b → ∀ e ∈ b.bucket, hashFunc e.1 % n = i
  nodup : ∀ b ∈ bs, b.keys.Nodup

variable {hashFunc : Key → Nat} {n : Nat} {bs : List (HashBucket Key Value)}

/-- The map a run of inserts builds: `key` now holds `value`. -/
def assign (m : Key → Option Value) (e : Key × Value) : Key → Option Value :=
  Function.update m e.1 (some e.2)

omit [DecidableEq Key] in
theorem placed_replicate (hn : 0 < n) : Placed hashFunc n (List.replicate n ⟨[]⟩ :
    List (HashBucket Key Value)) := by
  refine ⟨hn, List.length_replicate _ _, fun i b hb e he => ?_, fun b hb => ?_⟩
  · obtain rfl := List.eq_of_mem_replicate (List.getElem?_mem hb)
    cases he
  · rw [List.eq_of_mem_replicate hb]; exact List.nodup_nil

theorem lookup_replicate (hn : 0 < n) (k : Key) :
    lookup hashFunc n (List.replicate n ⟨[]⟩ : List (HashBucket Key Value)) k = some none := by
  simp [lookup, List.getElem?_replicate, Nat.mod_lt _ hn, HashBucket.find]

omit [DecidableEq Key] in
theorem Placed.getElem? (hP : Placed hashFunc n bs) (k : Key) :
    ∃ b, bs[hashFunc k % n]? = some b :=
  ⟨_, List.getElem?_eq_getElem (by rw [hP.length]; exact Nat.mod_lt _ hP.pos)⟩

/-- Inserting into the bucket of `key` keeps the vector placed and assigns `key`. -/
theorem Placed.insertAt_some (hP : Placed hashFunc n bs) {m : Key → Option Value} (key : Key)
    (value : Value) (hm : ∀ k, lookup hashFunc n bs k = some (m k)) :
    ∃ bs', insertAt bs (hashFunc key % n) key value = some bs' ∧ Placed hashFunc n bs' ∧
      ∀ k, lookup hashFunc n bs' k = some (assign m (key, value) k) := by
  obtain ⟨b, hb⟩ := hP.getElem? key
  have hi : hashFunc key % n < bs.length := (List.getElem?_eq_some_iff.mp hb).1
  refine ⟨_, by rw [insertAt, hb]; rfl, ⟨hP.pos, by rw [List.length_set, hP.length], ?_, ?_⟩, ?_⟩
  · intro j c hc e he
    rw [List.getElem?_set] at hc
    split_ifs at hc with hj
    · cases hc
      rcases HashBucket.mem_insert he with rfl | he
      · exact hj
      · exact hj ▸ hP.placed _ b hb e he
    · exact hP.placed j c hc e he
  · intro c hc
    rcases List.mem_or_eq_of_mem_set hc with hc | rfl
    · exact hP.nodup c hc
    · exact HashBucket.nodup_insert (hP.nodup b (List.getElem?_mem hb)) _ _
  · intro k
    have hk := hm k
    unfold lookup at hk ⊢
    by_cases hj : hashFunc key % n = hashFunc k % n
    · rw [← hj, List.getElem?_set_self hi]
      rw [← hj, hb] at hk
      simp only [Option.map_some', Option.some.injEq] at hk ⊢
      rw [HashBucket.find_insert, assign]
      by_cases hkk : k = key
      · subst hkk; simp
      · simp [hkk, hk]
    · rw [List.getElem?_set_ne hj, hk, assign, Function.update_noteq]
      rintro rfl
      exact hj rfl

/-- Removing from the bucket of `key` keeps the vector placed, erases `key`, and reports
    whether it was there. -/
theorem Placed.remove (hP : Placed hashFunc n bs) {m : Key → Option Value} (key : Key)
    (hm : ∀ k, lookup hashFunc n bs k = some (m k)) :
    ∃ b, bs[hashFunc key % n]? = some b ∧ (b.remove key).2 = (m key).isSome ∧
      Placed hashFunc n (bs.set (hashFunc key % n) (b.remove key).1) ∧
      ∀ k, lookup hashFunc n (bs.set (hashFunc key % n) (b.remove key).1) k =
        some (Function.update m key none k) := by
  obtain ⟨b, hb⟩ := hP.getElem? key
  have hi : hashFunc key % n < bs.length := (List.getElem?_eq_some_iff.mp hb).1
  have hnd := hP.nodup b (List.getElem?_mem hb)
  have hbk : b.find key = m key := by simpa [lookup, hb] using hm key
  refine ⟨b, hb, by rw [HashBucket.remove_snd, hbk],
    ⟨hP.pos, by rw [List.length_set, hP.length], ?_, ?_⟩, ?_⟩
  · intro j c hc e he
    rw [List.getElem?_set] at hc
    split_ifs at hc with hj
    · cases hc
      exact hj ▸ hP.placed _ b hb e (HashBucket.mem_remove he)
    · exact hP.placed j c hc e he
  · intro c hc
    rcases List.mem_or_eq_of_mem_set hc with hc | rfl
    · exact hP.nodup c hc
    · exact hnd.sublist (HashBucket.keys_remove_sublist b key)
  · intro k
    have hk := hm k
    unfold lookup at hk ⊢
    by_cases hj : hashFunc key % n = hashFunc k % n
    · rw [← hj, List.getElem?_set_self hi]
      rw [← hj, hb] at hk
      simp only [Option.map_some', Option.some.injEq] at hk ⊢
      rw [HashBucket.find_remove hnd]
      by_cases hkk : k = key
      · subst hkk; simp
      · simp [hkk, hk]
    · rw [List.getElem?_set_ne hj, hk, Function.update_noteq]
      rintro rfl
      exact hj rfl

/-- Inserting a list of entries one by one assigns them in order. -/
theorem Placed.foldlM_insertAt : ∀ (es : List (Key × Value)) {bs : List (HashBucket Key Value)}
    {m : Key → Option Value}, Placed hashFunc n bs →
    (∀ k, lookup hashFunc n bs k = some (m k)) →
    ∃ bs', es.foldlM (fun bs e => insertAt bs (hashFunc e.1 % n) e.1 e.2) bs = some bs' ∧
      Placed hashFunc n bs' ∧ ∀ k, lookup hashFunc n bs' k = some (es.foldl assign m k)
  | [], bs, _, hP, hm => ⟨bs, rfl, hP, hm⟩
  | e :: es, _, _, hP, hm => by
    obtain ⟨bs₁, h₁, hP₁, hm₁⟩ := hP.insertAt_some e.1 e.2 hm
    obtain ⟨bs', h', hP', hm'⟩ := Placed.foldlM_insertAt es hP₁ hm₁
    exact ⟨bs', by rw [List.foldlM_cons, h₁]; exact h', hP', hm'⟩

omit [DecidableEq Key] in
/-- No key is in two buckets, nor twice in one. -/
theorem Placed.nodup_keys (hP : Placed hashFunc n bs) : (bs.flatMap (·.keys)).Nodup := by
  refine List.nodup_flatMap.mpr ⟨hP.nodup, List.pairwise_iff_getElem.mpr ?_⟩
  intro i j hi hj hij k hki hkj
  obtain ⟨e, he, rfl⟩ := List.mem_map.mp hki
  obtain ⟨e', he', hee⟩ := List.mem_map.mp hkj
  have h₁ := hP.placed i _ (List.getElem?_eq_getElem hi) e he
  have h₂ := hP.placed j _ (List.getElem?_eq_getElem hj) e' he'
  rw [hee] at h₂
  omega

/-- Assigning entries whose keys are distinct: each key takes its entry's value. -/
theorem foldl_assign_of_nodup : ∀ {es : List (Key × Value)} (f : Key → Option Value) (k : Key),
    (es.map Prod.fst).Nodup → es.foldl assign f k = ((es.find? (·.1 = k)).map Prod.snd).or (f k)
  | [], _, _, _ => rfl
  | e :: es, f, k, hnd => by
    rw [List.map_cons, List.nodup_cons] at hnd
    rw [List.foldl_cons, foldl_assign_of_nodup _ k hnd.2, assign]
    by_cases hk : e.1 = k
    · subst hk
      have : es.find? (·.1 = e.1) = none := List.find?_eq_none.mpr fun x hx h =>
        hnd.1 (of_decide_eq_true h ▸ List.mem_map_of_mem Prod.fst hx)
      simp [this]
    · simp [List.find?_cons, hk, Function.update_noteq (Ne.symm hk)]

/-- The entries of a placed vector, assigned in order from the empty map, give back the map
    it holds. -/
theorem Placed.foldl_assign_entries (hP : Placed hashFunc n bs) {m : Key → Option Value}
    (hm : ∀ k, lookup hashFunc n bs k = some (m k)) :
    (bs.flatMap (·.bucket)).foldl assign (fun _ => none) = m := by
  have hnd : ((bs.flatMap (·.bucket)).map Prod.fst).Nodup := by
    rw [List.map_flatMap]; exact hP.nodup_keys
  funext k
  rw [foldl_assign_of_nodup _ k hnd, Option.or_none]
  obtain ⟨b, hb⟩ := hP.getElem? k
  have hmk : b.find k = m k := by simpa [lookup, hb] using hm k
  rw [← hmk]
  cases hf : (bs.flatMap (·.bucket)).find? (·.1 = k) with
  | none =>
    refine (HashBucket.find_eq_none fun hk => ?_).symm
    obtain ⟨e, he, rfl⟩ := List.mem_map.mp hk
    exact List.find?_eq_none.mp hf e (List.mem_flatMap.mpr ⟨b, List.getElem?_mem hb, he⟩)
      (by simp)
  | some e =>
    have hek : e.1 = k := by simpa using List.find?_some hf
    obtain ⟨c, hc, he⟩ := List.mem_flatMap.mp (List.mem_of_find?_eq_some hf)
    obtain ⟨i, hi⟩ := List.mem_iff_getElem?.mp hc
    have hik := hP.placed i c hi e he
    rw [hek] at hik
    rw [← hik, hb] at hi
    cases hi
    rw [← hek, HashBucket.find_eq_some (hP.nodup b (List.getElem?_mem hb)) he]
    rfl

end Buckets

/-! ## The index -/

/-- `class HashIndex` (lines 51–96). `mutexes` is the size of the vector of mutexes. -/
structure HashIndex (Key Value : Type) where
  numBuckets : Nat
  hashFunc : Key → Nat
  buckets : List (HashBucket Key Value)
  mutexes : Nat

namespace HashIndex

variable {Key Value : Type} [DecidableEq Key]

/-- `HashIndex(numBuckets, hashFunc)` (lines 54–55, 95): `numBuckets` empty buckets and as
    many mutexes. -/
def new (numBuckets : Nat) (hashFunc : Key → Nat) : HashIndex Key Value :=
  ⟨numBuckets, hashFunc, List.replicate numBuckets ⟨[]⟩, numBuckets⟩

/-- `hashFunc(key) % numBuckets`, the bucket and the mutex of `key`. -/
def bucketIndex (h : HashIndex Key Value) (key : Key) : Nat := h.hashFunc key % h.numBuckets

/-- `insert(key, value)` (lines 58–62). -/
def insert (h : HashIndex Key Value) (key : Key) (value : Value) : Option (HashIndex Key Value) :=
  (insertAt h.buckets (h.bucketIndex key) key value).map fun bs => { h with buckets := bs }

/-- `find(key, value)` (lines 65–69). -/
def find (h : HashIndex Key Value) (key : Key) : Option (Option Value) :=
  h.buckets[h.bucketIndex key]?.map (·.find key)

/-- `remove(key)` (lines 72–76). -/
def remove (h : HashIndex Key Value) (key : Key) : Option (HashIndex Key Value × Bool) :=
  h.buckets[h.bucketIndex key]?.map fun b =>
    ({ h with buckets := h.buckets.set (h.bucketIndex key) (b.remove key).1 }, (b.remove key).2)

/-- `resize(newNumBuckets)` (lines 79–89). `mutexes` is not touched. -/
def resize (h : HashIndex Key Value) (newNumBuckets : Nat) : Option (HashIndex Key Value) :=
  (h.buckets.foldlM (fun newBuckets (b : HashBucket Key Value) => b.bucket.foldlM (fun newBuckets e =>
      insertAt newBuckets (h.hashFunc e.1 % newNumBuckets) e.1 e.2) newBuckets)
    (List.replicate newNumBuckets ⟨[]⟩)).map fun newBuckets =>
    { h with buckets := newBuckets, numBuckets := newNumBuckets }

/-- A call on the index. -/
inductive Op (Key Value : Type)
  | insert (key : Key) (value : Value)
  | find (key : Key)
  | remove (key : Key)
  | resize (newNumBuckets : Nat)

/-- The index after one call; the results of `find` and `remove` are dropped. -/
def apply (h : HashIndex Key Value) : Op Key Value → Option (HashIndex Key Value)
  | .insert key value => h.insert key value
  | .find _ => some h
  | .remove key => (h.remove key).map Prod.fst
  | .resize newNumBuckets => h.resize newNumBuckets

/-- The index after the calls `ops` in turn. -/
def run (h : HashIndex Key Value) (ops : List (Op Key Value)) : Option (HashIndex Key Value) :=
  ops.foldlM apply h

/-- One call on a finite map. -/
def Op.step (m : Key → Option Value) : Op Key Value → Key → Option Value
  | .insert key value => assign m (key, value)
  | .remove key => Function.update m key none
  | .find _ | .resize _ => m

/-- The map after `ops`: each key holds the value of its last `insert` not followed by a
    `remove` of it. -/
def stored (ops : List (Op Key Value)) : Key → Option Value := ops.foldl Op.step fun _ => none

/-- The invariant of the index, and the map it holds. -/
def Holds (h : HashIndex Key Value) (m : Key → Option Value) : Prop :=
  Placed h.hashFunc h.numBuckets h.buckets ∧ ∀ k, h.find k = some (m k)

theorem resize_spec {h : HashIndex Key Value} {m : Key → Option Value} (hh : h.Holds m)
    {newNumBuckets : Nat} (hn : 0 < newNumBuckets) :
    ∃ h', h.resize newNumBuckets = some h' ∧ h'.Holds m ∧ h'.mutexes = h.mutexes := by
  obtain ⟨hP, hm⟩ := hh
  suffices ∀ (old : List (HashBucket Key Value)) {nb : List (HashBucket Key Value)}
      {f : Key → Option Value}, Placed h.hashFunc newNumBuckets nb →
      (∀ k, lookup h.hashFunc newNumBuckets nb k = some (f k)) →
      ∃ nb', old.foldlM (fun newBuckets (b : HashBucket Key Value) => b.bucket.foldlM (fun newBuckets e =>
          insertAt newBuckets (h.hashFunc e.1 % newNumBuckets) e.1 e.2) newBuckets) nb =
          some nb' ∧ Placed h.hashFunc newNumBuckets nb' ∧
        ∀ k, lookup h.hashFunc newNumBuckets nb' k =
          some ((old.flatMap (·.bucket)).foldl assign f k) by
    obtain ⟨nb, hnb, hP', hm'⟩ := this h.buckets (placed_replicate hn) (lookup_replicate hn)
    rw [hP.foldl_assign_entries hm] at hm'
    exact ⟨{ h with buckets := nb, numBuckets := newNumBuckets }, by rw [resize, hnb]; rfl,
      ⟨hP', hm'⟩, rfl⟩
  intro old
  induction old with
  | nil => exact fun hP hm => ⟨_, rfl, hP, hm⟩
  | cons b old ih =>
    intro nb f hP hf
    obtain ⟨nb₁, h₁, hP₁, hf₁⟩ := hP.foldlM_insertAt b.bucket hf
    obtain ⟨nb', h', hP', hf'⟩ := ih hP₁ hf₁
    refine ⟨nb', by rw [List.foldlM_cons, h₁]; exact h', hP', fun k => ?_⟩
    rw [hf' k, List.flatMap_cons, List.foldl_append]

/-- One call keeps the invariant and acts on the map as `Op.step`. -/
theorem apply_spec {h : HashIndex Key Value} {m : Key → Option Value} (hh : h.Holds m)
    (op : Op Key Value) (hop : ∀ n, op = .resize n → 0 < n) :
    ∃ h', h.apply op = some h' ∧ h'.Holds (op.step m) ∧ h'.mutexes = h.mutexes := by
  cases op with
  | insert key value =>
    obtain ⟨bs, hbs, hP, hm⟩ := hh.1.insertAt_some key value hh.2
    exact ⟨{ h with buckets := bs }, by simp only [apply, insert, bucketIndex, hbs]; rfl,
      ⟨hP, hm⟩, rfl⟩
  | find key => exact ⟨h, rfl, hh, rfl⟩
  | remove key =>
    obtain ⟨b, hb, -, hP, hm⟩ := hh.1.remove key hh.2
    exact ⟨{ h with buckets := h.buckets.set (h.bucketIndex key) (b.remove key).1 },
      by simp only [apply, remove, bucketIndex, hb]; rfl, ⟨hP, hm⟩, rfl⟩
  | resize n => exact resize_spec hh (hop n rfl)

theorem run_spec : ∀ (ops : List (Op Key Value)) {h : HashIndex Key Value}
    {m : Key → Option Value}, h.Holds m → (∀ n, Op.resize n ∈ ops → 0 < n) →
    ∃ h', h.run ops = some h' ∧ h'.Holds (ops.foldl Op.step m) ∧ h'.mutexes = h.mutexes
  | [], h, _, hh, _ => ⟨h, rfl, hh, rfl⟩
  | op :: ops, _, _, hh, hr => by
    obtain ⟨h₁, h₁eq, hh₁, hmx₁⟩ :=
      apply_spec hh op fun n hn => hr n (hn ▸ List.mem_cons_self _ _)
    obtain ⟨h', h'eq, hh', hmx'⟩ :=
      run_spec ops hh₁ fun n hn => hr n (List.mem_cons_of_mem _ hn)
    exact ⟨h', by rw [run, List.foldlM_cons, h₁eq]; exact h'eq, hh', hmx'.trans hmx₁⟩

theorem holds_new {numBuckets : Nat} (hn : 0 < numBuckets) (hashFunc : Key → Nat) :
    (new numBuckets hashFunc : HashIndex Key Value).Holds fun _ => none :=
  ⟨placed_replicate hn, lookup_replicate hn⟩

/-- **The index is a finite map.** -/
theorem run_finite_map (numBuckets : Nat) (hashFunc : Key → Nat) (ops : List (Op Key Value))
    (hn : 0 < numBuckets) (hr : ∀ n, Op.resize n ∈ ops → 0 < n) :
    ∃ h, (new numBuckets hashFunc).run ops = some h ∧ (∀ k, h.find k = some (stored ops k)) ∧
      (∀ k, ∃ h', h.remove k = some (h', (stored ops k).isSome)) ∧
      (h.buckets.flatMap (·.keys)).Nodup := by
  obtain ⟨h, hrun, ⟨hP, hm⟩, -⟩ := run_spec ops (holds_new hn hashFunc) hr
  refine ⟨h, hrun, hm, fun k => ?_, hP.nodup_keys⟩
  obtain ⟨b, hb, hsnd, -, -⟩ := hP.remove k hm
  exact ⟨_, by simp only [remove, bucketIndex, hb, Option.map_some', hsnd]; rfl⟩

/-- `std::hash<int>` of libstdc++: the key cast to `size_t`, modulo `2^64`. -/
def intHash (key : Int) : Nat := (key % 18446744073709551616).toNat

/-- The calls of `main()` (lines 102–123). -/
def mainCalls : List (Op Int String) :=
  [.insert 1 "Value1", .insert 2 "Value2", .insert 3 "Value3", .find 2, .remove 3, .resize 20]

theorem resize_positive_mainCalls : ∀ n, Op.resize n ∈ mainCalls → 0 < n := by
  intro n hn
  simp only [mainCalls, List.mem_cons, Op.resize.injEq, List.mem_singleton, reduceCtorEq,
    false_or, List.not_mem_nil, or_false] at hn
  omega

theorem run_finite_map_mainCalls :
    0 < 10 ∧ (∀ n, Op.resize n ∈ mainCalls → 0 < n) ∧
      ∃ h, (new 10 intHash).run mainCalls = some h ∧
        (∀ k, h.find k = some (stored mainCalls k)) ∧
        (∀ k, ∃ h', h.remove k = some (h', (stored mainCalls k).isSome)) ∧
        (h.buckets.flatMap (·.keys)).Nodup :=
  ⟨by decide, resize_positive_mainCalls,
    run_finite_map 10 intHash mainCalls (by decide) resize_positive_mainCalls⟩

/-- After the calls of `main()` the key `15` has bucket `15` of twenty, and its mutex index
    `15` is past the end of the ten mutexes. -/
theorem resize_outgrows_mutexes :
    ∃ h, (new 10 intHash).run mainCalls = some h ∧ h.buckets.length = 20 ∧
      h.bucketIndex 15 = 15 ∧ h.mutexes = 10 :=
  ⟨_, rfl, by decide⟩

end HashIndex

end HpDb.Indexing
