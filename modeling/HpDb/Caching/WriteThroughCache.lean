import Mathlib.Data.List.Basic
import HpDb.Caching.Policy

/-!
# `WriteThroughCache` over `Storage` (caching/write_through_cache.cpp)

`put` appends the pair to `storage.txt` and then caches it, most recent first, dropping the
least recently used pair when the cache holds more than `capacity_`. `get` answers from the
cache when it can; on a miss it reads the file and, when the key is there, `put`s the value
it read back into the cache, which also appends it to the file once more.

`Storage::read` returns the value of the *first* line with the key. The file is append-only,
so that is the first value ever stored for the key, and an evicted key reads back stale.

`cache_map_` maps each cached key to its node of `cache_list_`; the model keeps only the
list and looks a key up in it. `cache_mutex_` is left out. With it, a `get` that misses the
cache and finds the key in the file calls `put`, which locks `cache_mutex_` again while
`get` holds it (lines 43 and 59); `std::mutex` is not recursive, so that `get` never
returns. The model's `get` is the body as it would run if the lock were recursive.

Results:
* `get_returns_first_put`: at capacity `1`, a key written twice and then evicted reads back
  its first value.
-/

namespace HpDb.Caching

/-- The lines of `storage.txt`, oldest first. `Storage::write` prints a line `key:value` and
    `Storage::read` parses it back with `std::stoi`, which returns the two `int`s. -/
abbrev StorageFile := List (Int × Int)

namespace Storage

/-- `Storage::write` (lines 8–16): append a line. -/
def write (file : StorageFile) (key value : Int) : StorageFile := file ++ [(key, value)]

/-- The value of the first line with `key`, if any. -/
def first (file : StorageFile) (key : Int) : Option Int :=
  (file.find? fun line => line.1 = key).map (·.2)

/-- `Storage::read` (lines 18–35): the value of the first line with `key`, `-1` if there is
    none. -/
def read (file : StorageFile) (key : Int) : Int := (first file key).getD (-1)

end Storage

/-- `class WriteThroughCache` (lines 38–90): `cache_list_`, most recent first, and the file
    of its `Storage`. -/
structure WriteThroughCache where
  capacity : Nat
  cacheList : List (Int × Int)
  storage : StorageFile

namespace WriteThroughCache

/-- A new cache over an empty file. -/
def empty (capacity : Nat) : WriteThroughCache := ⟨capacity, [], []⟩

/-- `cache_map_.find(key)`, followed to its node's value. -/
def lookup (c : WriteThroughCache) (key : Int) : Option Int :=
  (c.cacheList.find? fun entry => entry.1 = key).map (·.2)

/-- `put` (lines 58–82). -/
def put (c : WriteThroughCache) (key value : Int) : WriteThroughCache :=
  let storage := Storage.write c.storage key value
  match c.lookup key with
  | some _ =>
    { c with storage, cacheList := (key, value) :: c.cacheList.eraseP fun entry => entry.1 = key }
  | none =>
    let cacheList := (key, value) :: c.cacheList
    { c with storage,
             cacheList := if c.capacity < cacheList.length then cacheList.dropLast else cacheList }

/-- `get` (lines 42–56): the value returned, and the cache after. -/
def get (c : WriteThroughCache) (key : Int) : Int × WriteThroughCache :=
  match c.lookup key with
  | some value =>
    (value, { c with cacheList := (key, value) :: c.cacheList.eraseP fun entry => entry.1 = key })
  | none =>
    let value := Storage.read c.storage key
    if value ≠ -1 then (value, c.put key value) else (value, c)

end WriteThroughCache

namespace WriteThroughCache

/-- One call: what a `get` returns, and the cache after. -/
def step (c : WriteThroughCache) : Op → Option Int × WriteThroughCache
  | .put key value => (none, c.put key value)
  | .get key => ((c.get key).1, (c.get key).2)

/-- A run of calls: what each returns, and the cache at the end. -/
def run (c : WriteThroughCache) : List Op → List (Option Int) × WriteThroughCache
  | [] => ([], c)
  | op :: ops => ((c.step op).1 :: ((c.step op).2.run ops).1, ((c.step op).2.run ops).2)

end WriteThroughCache

/-! ## A key evicted after an overwrite -/

/-- `put(1, 100)`, `put(1, 200)`, `put(2, 300)`, which evicts key `1` at capacity `1`, and
    `get(1)`. -/
def overwriteThenEvict : List Op := [.put 1 100, .put 1 200, .put 2 300, .get 1]

/-- The `get` returns `100`, the first value of key `1`, though the last `put` of key `1`
    wrote `200`. -/
theorem get_returns_first_put :
    ((WriteThroughCache.empty 1).run overwriteThenEvict).1 = [none, none, none, some 100] ∧
      lastPut (overwriteThenEvict.take 3) 1 = some 200 := by
  decide

end HpDb.Caching
