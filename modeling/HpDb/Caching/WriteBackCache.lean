import Mathlib.Data.List.Basic

/-!
# `WriteBackCache` (caching/distributed_cache.go, lines 200–294)

The cache keeps `DataBlock`s most recent first. `write` of a cached key updates the block,
marks it dirty and moves it to the front. `write` of a key that is not cached first
evicts the least recently used block when the cache is full, then puts a new block in
front, built by the `DataBlock` constructor with `dirty(false)`. `evict` passes a block
to `write_to_storage` only when it is dirty, and `flush` passes every dirty block and
cleans it. `write_to_storage` only prints; the model records what it is passed as a storage
map, from each key to the last value passed for it.

`cache_map` maps each cached key to its block; the model keeps the list and looks a key up
in it. `evict` on an empty list is undefined behaviour in C++; it happens only at capacity
`0`, and the model then leaves the cache as it is.

Results:
* `write_lost_on_eviction`: at capacity `1`, a value written once and then evicted by a
  write of another key is in neither the cache nor the storage.
* `cached_write_not_lost`: a write that finds its key in the cache is never lost: until
  the key is written again, every block of the key holds the value, and one of them is
  dirty or the storage holds the value.
-/

namespace HpDb.Caching

/-- `struct DataBlock` (lines 209–214). -/
structure DataBlock where
  key : Int
  value : Int
  dirty : Bool
  deriving DecidableEq, Repr

/-- `class WriteBackCache` (lines 217–294): `cache_list`, most recent first, and the storage
    that `write_to_storage` updates. -/
structure WriteBackCache where
  cacheList : List DataBlock
  capacity : Nat
  storage : Int → Option Int

namespace WriteBackCache

/-- The constructor (line 243), over an empty storage. -/
def new (capacity : Nat) : WriteBackCache := ⟨[], capacity, fun _ => none⟩

/-- `write_to_storage` (lines 226–228). -/
def writeToStorage (c : WriteBackCache) (key value : Int) : WriteBackCache :=
  { c with storage := Function.update c.storage key (some value) }

/-- `evict` (lines 231–239): drop the last block, passing it to storage if it is dirty. -/
def evict (c : WriteBackCache) : WriteBackCache :=
  match c.cacheList.getLast? with
  | none => c
  | some block =>
    let c := if block.dirty then c.writeToStorage block.key block.value else c
    { c with cacheList := c.cacheList.dropLast }

/-- `cache_map.find(key)`, followed to its block. -/
def lookup (c : WriteBackCache) (key : Int) : Option DataBlock :=
  c.cacheList.find? fun block => block.key = key

/-- `read` (lines 246–254). -/
def read (c : WriteBackCache) (key : Int) : Int × WriteBackCache :=
  match c.lookup key with
  | none => (-1, c)
  | some block =>
    (block.value, { c with cacheList := block :: c.cacheList.eraseP fun b => b.key = key })

/-- `write` (lines 257–274). -/
def write (c : WriteBackCache) (key value : Int) : WriteBackCache :=
  match c.lookup key with
  | some block =>
    { c with cacheList :=
        { block with value, dirty := true } :: c.cacheList.eraseP fun b => b.key = key }
  | none =>
    let c := if c.capacity ≤ c.cacheList.length then c.evict else c
    { c with cacheList := ⟨key, value, false⟩ :: c.cacheList }

/-- `flush` (lines 277–284). -/
def flush (c : WriteBackCache) : WriteBackCache :=
  let c' := c.cacheList.foldl
    (fun c' block => if block.dirty then c'.writeToStorage block.key block.value else c') c
  { c' with cacheList := c.cacheList.map fun block => { block with dirty := false } }

end WriteBackCache

/-- A call of the cache. -/
inductive CacheOp where
  | read (key : Int)
  | write (key value : Int)
  | flush
  deriving DecidableEq, Repr

namespace WriteBackCache

/-- One call. -/
def step (c : WriteBackCache) : CacheOp → WriteBackCache
  | .read key => (c.read key).2
  | .write key value => c.write key value
  | .flush => c.flush

/-- A run of calls. -/
def run (c : WriteBackCache) (ops : List CacheOp) : WriteBackCache := ops.foldl step c

end WriteBackCache

/-! ## A clean block is dropped -/

/-- `write(1, 100)`, then `write(2, 200)`, which evicts key `1` at capacity `1`. -/
def cleanEviction : List CacheOp := [.write 1 100, .write 2 200]

/-- The block of key `1` was inserted clean, so `evict` dropped it without passing it to
    `write_to_storage`: the value `100` is in neither the cache nor the storage, and
    `read(1)` returns `-1`. -/
theorem write_lost_on_eviction :
    (∀ b ∈ ((WriteBackCache.new 1).run cleanEviction).cacheList, b.key ≠ 1) ∧
      ((WriteBackCache.new 1).run cleanEviction).storage 1 = none ∧
      (((WriteBackCache.new 1).run cleanEviction).read 1).1 = -1 := by
  decide

/-! ## A dirty block is not -/

/-- `find?` and `eraseP` pick the same block: putting it back in front permutes the list. -/
theorem perm_cons_eraseP_of_find? {l : List DataBlock} {p : DataBlock → Bool} {a : DataBlock}
    (h : l.find? p = some a) : (a :: l.eraseP p).Perm l := by
  induction l with
  | nil => cases h
  | cons x xs ih =>
    by_cases hx : p x
    · rw [List.find?_cons_of_pos _ hx, Option.some.injEq] at h
      subst h
      rw [List.eraseP_cons_of_pos hx]
    · rw [List.find?_cons_of_neg _ hx] at h
      rw [List.eraseP_cons_of_neg hx]
      exact (List.Perm.swap x a _).trans ((ih h).cons x)

theorem mem_dropLast_of_ne {l : List DataBlock} {e x : DataBlock} (he : l.getLast? = some e)
    (hx : x ∈ l) (hne : x ≠ e) : x ∈ l.dropLast := by
  have hl := List.dropLast_append_getLast (List.ne_nil_of_mem hx)
  rw [List.getLast?_eq_getLast _ (List.ne_nil_of_mem hx), Option.some.injEq] at he
  rw [← hl, he] at hx
  exact (List.mem_append.mp hx).resolve_right fun h => hne (List.mem_singleton.mp h)

/-- The storage after passing the dirty blocks `bs` in turn, when every block of `k` among
    them holds `v`. -/
theorem storage_foldl_dirty {k v : Int} :
    ∀ (bs : List DataBlock) (c : WriteBackCache), (∀ b ∈ bs, b.key = k → b.value = v) →
      ((∃ b ∈ bs, b.key = k ∧ b.dirty = true) ∨ c.storage k = some v) →
      (bs.foldl (fun c' block => if block.dirty then c'.writeToStorage block.key block.value
        else c') c).storage k = some v
  | [], _, _, h => h.resolve_left fun ⟨_, hb, _⟩ => absurd hb (List.not_mem_nil _)
  | b :: bs, c, hv, h => by
    refine storage_foldl_dirty bs _ (fun b' hb' => hv b' (List.mem_cons_of_mem b hb')) ?_
    by_cases hw : ∃ b' ∈ bs, b'.key = k ∧ b'.dirty = true
    · exact .inl hw
    · refine .inr ?_
      by_cases hd : b.dirty = true
      · by_cases hk : b.key = k
        · simp [hd, WriteBackCache.writeToStorage, ← hk, hv b (List.mem_cons_self b bs) hk]
        · have hs : c.storage k = some v := h.resolve_left fun ⟨b', hb', hk', hd'⟩ =>
            (List.mem_cons.mp hb').elim (fun e => hk (e ▸ hk')) fun hb' => hw ⟨b', hb', hk', hd'⟩
          simp [hd, WriteBackCache.writeToStorage, Function.update_noteq (Ne.symm hk), hs]
      · have hs : c.storage k = some v := h.resolve_left fun ⟨b', hb', hk', hd'⟩ =>
          (List.mem_cons.mp hb').elim (fun e => hd (e ▸ hd')) fun hb' => hw ⟨b', hb', hk', hd'⟩
        simpa [hd] using hs

namespace WriteBackCache

/-- The keys of the cached blocks are distinct, as the keys of `cache_map` are. -/
def KeysNodup (c : WriteBackCache) : Prop := (c.cacheList.map DataBlock.key).Nodup

/-- The cache owes the value `v` to key `k`: every block of `k` holds `v`, and some block
    of `k` is dirty or the storage holds `v` for `k`. -/
def Owes (k v : Int) (c : WriteBackCache) : Prop :=
  (∀ b ∈ c.cacheList, b.key = k → b.value = v) ∧
    ((∃ b ∈ c.cacheList, b.key = k ∧ b.dirty = true) ∨ c.storage k = some v)

theorem Owes.of_subset {k v : Int} {c c' : WriteBackCache} (h : Owes k v c)
    (hsub : ∀ b ∈ c'.cacheList, b.key = k → b ∈ c.cacheList)
    (hsup : ∀ b ∈ c.cacheList, b.key = k → b ∈ c'.cacheList) (hs : c'.storage k = c.storage k) :
    Owes k v c' :=
  ⟨fun b hb hk => h.1 b (hsub b hb hk) hk, h.2.imp (fun ⟨b, hb, hk, hd⟩ => ⟨b, hsup b hb hk, hk, hd⟩)
    (hs ▸ ·)⟩

theorem Owes.evict {k v : Int} {c : WriteBackCache} (h : Owes k v c) : Owes k v c.evict := by
  unfold WriteBackCache.evict
  split
  · exact h
  · rename_i e he
    have hin : ∀ b ∈ c.cacheList.dropLast, b ∈ c.cacheList := fun b hb => List.dropLast_subset _ hb
    have hkeep : ∀ b ∈ c.cacheList, b.key = k ∧ b.dirty = true → ¬ (e.key = k ∧ e.dirty = true) →
        b ∈ c.cacheList.dropLast := fun b hb hbk hed => mem_dropLast_of_ne he hb fun hbe => hed (hbe ▸ hbk)
    by_cases hd : e.dirty = true
    · simp only [hd, ite_true]
      refine ⟨fun b hb hbk => h.1 b (hin b hb) hbk, ?_⟩
      by_cases hek : e.key = k
      · exact .inr (by simp [writeToStorage, ← hek, h.1 e (List.mem_of_getLast?_eq_some he) hek])
      · rcases h.2 with ⟨b, hb, hbk, hbd⟩ | hs
        · exact .inl ⟨b, hkeep b hb ⟨hbk, hbd⟩ fun hed => hek hed.1, hbk, hbd⟩
        · exact .inr (by simpa [writeToStorage, Function.update_noteq (Ne.symm hek)] using hs)
    · simp only [hd, Bool.false_eq_true, ite_false]
      exact ⟨fun b hb hbk => h.1 b (hin b hb) hbk, h.2.imp_left fun ⟨b, hb, hbk, hbd⟩ =>
        ⟨b, hkeep b hb ⟨hbk, hbd⟩ fun hed => hd hed.2, hbk, hbd⟩⟩

theorem Owes.read {k v : Int} {c : WriteBackCache} (h : Owes k v c) (key : Int) :
    Owes k v (c.read key).2 := by
  unfold WriteBackCache.read lookup
  split
  · exact h
  · rename_i block hblock
    have hp := perm_cons_eraseP_of_find? hblock
    exact h.of_subset (fun b hb _ => hp.subset hb) (fun b hb _ => hp.symm.subset hb) rfl

/-- A write of another key keeps what is owed to `k`. -/
theorem Owes.write {k v : Int} {c : WriteBackCache} (h : Owes k v c) {key : Int} (hk : key ≠ k)
    (value : Int) : Owes k v (c.write key value) := by
  unfold WriteBackCache.write lookup
  split
  · rename_i block hblock
    have hp := perm_cons_eraseP_of_find? hblock
    have hbk : block.key = key := by simpa using List.find?_some hblock
    refine h.of_subset (fun b hb hbk' => ?_) (fun b hb hbk' => ?_) rfl
    · rcases List.mem_cons.mp hb with rfl | hb
      · exact absurd (hbk'.symm.trans hbk) (Ne.symm hk)
      · exact hp.subset (List.mem_cons_of_mem _ hb)
    · rcases List.mem_cons.mp (hp.symm.subset hb) with rfl | hb
      · exact absurd (hbk'.symm.trans hbk) (Ne.symm hk)
      · exact List.mem_cons_of_mem _ hb
  · have h' : Owes k v (if c.capacity ≤ c.cacheList.length then c.evict else c) := by
      split_ifs
      · exact h.evict
      · exact h
    refine h'.of_subset (fun b hb hbk' => ?_) (fun b hb _ => List.mem_cons_of_mem _ hb) rfl
    rcases List.mem_cons.mp hb with rfl | hb
    · exact absurd hbk' hk
    · exact hb

theorem Owes.flush {k v : Int} {c : WriteBackCache} (h : Owes k v c) : Owes k v c.flush := by
  refine ⟨fun b hb hk => ?_, .inr (storage_foldl_dirty _ _ h.1 h.2)⟩
  obtain ⟨b', hb', rfl⟩ := List.mem_map.mp hb
  exact h.1 b' hb' hk

theorem Owes.step {k v : Int} {c : WriteBackCache} (h : Owes k v c) :
    ∀ op : CacheOp, (∀ v', op ≠ .write k v') → Owes k v (c.step op)
  | .read key, _ => h.read key
  | .write _ value, hop => h.write (fun e => hop value (e ▸ rfl)) value
  | .flush, _ => h.flush

theorem Owes.run {k v : Int} :
    ∀ (ops : List CacheOp) {c : WriteBackCache}, Owes k v c → (∀ op ∈ ops, ∀ v', op ≠ .write k v') →
      Owes k v (c.run ops)
  | [], _, h, _ => h
  | op :: ops, _, h, hops =>
    Owes.run ops (h.step op (hops op (List.mem_cons_self _ _)))
      fun op' hop' => hops op' (List.mem_cons_of_mem _ hop')

/-! ### The keys stay distinct -/

theorem evict_sublist (c : WriteBackCache) : c.evict.cacheList.Sublist c.cacheList := by
  unfold WriteBackCache.evict
  split
  · exact .refl _
  · split_ifs <;> exact List.dropLast_sublist _

theorem KeysNodup.step {c : WriteBackCache} (h : c.KeysNodup) : ∀ op, (c.step op).KeysNodup
  | .read key => by
    show ((c.read key).2.cacheList.map DataBlock.key).Nodup
    unfold WriteBackCache.read lookup
    split
    · exact h
    · rename_i block hblock
      exact h.perm ((perm_cons_eraseP_of_find? hblock).map _).symm
  | .write key value => by
    show ((c.write key value).cacheList.map DataBlock.key).Nodup
    unfold WriteBackCache.write lookup
    split
    · rename_i block hblock
      have hn := h.perm ((perm_cons_eraseP_of_find? hblock).map DataBlock.key).symm
      simpa using hn
    · rename_i hnone
      have hs : (if c.capacity ≤ c.cacheList.length then c.evict else c).cacheList.Sublist
          c.cacheList := by
        split_ifs
        · exact evict_sublist c
        · exact .refl _
      refine List.nodup_cons.mpr ⟨fun hm => ?_, h.sublist (hs.map _)⟩
      obtain ⟨b, hb, hbk⟩ := List.mem_map.mp hm
      exact absurd (List.find?_eq_none.mp hnone b (hs.subset hb)) (by simpa using hbk)
  | .flush => by
    show ((c.flush).cacheList.map DataBlock.key).Nodup
    simpa [flush, Function.comp_def] using h

theorem KeysNodup.run {c : WriteBackCache} (h : c.KeysNodup) : ∀ ops, (c.run ops).KeysNodup
  | [] => h
  | op :: ops => KeysNodup.run (h.step op) ops

/-- Right after a write that found its key cached, the cache owes the value to the key. -/
theorem owes_write_of_cached {c : WriteBackCache} (h : c.KeysNodup) {k : Int}
    (hhit : c.lookup k ≠ none) (v : Int) : Owes k v (c.write k v) := by
  unfold WriteBackCache.write
  cases hblock : c.lookup k with
  | none => exact absurd hblock hhit
  | some block =>
    have hp := perm_cons_eraseP_of_find? hblock
    have hbk : block.key = k := by simpa using List.find?_some hblock
    have hn : (block.key :: (c.cacheList.eraseP fun b => b.key = k).map DataBlock.key).Nodup := by
      simpa using h.perm (hp.map DataBlock.key).symm
    refine ⟨fun b hb hk => ?_, .inl ⟨_, List.mem_cons_self _ _, hbk, rfl⟩⟩
    rcases List.mem_cons.mp hb with rfl | hb
    · rfl
    · exact absurd (hk ▸ List.mem_map_of_mem DataBlock.key hb) (hbk ▸ (List.nodup_cons.mp hn).1)

end WriteBackCache

/-- **A write that finds its key cached is not lost.** From a new cache of any capacity,
    after any calls `pre`, a `write(k, v)` of a key `k` that is cached, followed by any calls
    `post` that do not write `k`, leaves `v` in every block of `k`, and in a dirty block of
    `k` or in the storage. -/
theorem cached_write_not_lost (capacity : Nat) (pre post : List CacheOp) (k v : Int)
    (hhit : ((WriteBackCache.new capacity).run pre).lookup k ≠ none)
    (hpost : ∀ op ∈ post, ∀ v', op ≠ .write k v') :
    (∀ b ∈ ((WriteBackCache.new capacity).run (pre ++ .write k v :: post)).cacheList,
        b.key = k → b.value = v) ∧
      ((∃ b ∈ ((WriteBackCache.new capacity).run (pre ++ .write k v :: post)).cacheList,
        b.key = k ∧ b.value = v ∧ b.dirty = true) ∨
      ((WriteBackCache.new capacity).run (pre ++ .write k v :: post)).storage k = some v) := by
  have hnd : ((WriteBackCache.new capacity).run pre).KeysNodup :=
    WriteBackCache.KeysNodup.run (c := WriteBackCache.new capacity) List.nodup_nil pre
  have h := (WriteBackCache.owes_write_of_cached hnd hhit v).run post hpost
  rw [WriteBackCache.run, List.foldl_append, List.foldl_cons, ← WriteBackCache.run,
    ← WriteBackCache.run]
  exact ⟨h.1, h.2.imp_left fun ⟨b, hb, hk, hd⟩ => ⟨b, hb, hk, h.1 b hb hk, hd⟩⟩

end HpDb.Caching
