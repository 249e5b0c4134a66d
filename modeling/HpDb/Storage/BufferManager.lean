import HpDb.Caching.Policy

/-!
# `BufferManager` (storage/buffer_manager.cpp)

The buffer pool keeps at most `capacity` pages in `page_table` and their ids in `lru_list`,
most recently fetched first. `fetch_page` of a page in the pool moves its id to the front;
of any other page it first runs `evict_page`, which drops the back of `lru_list`, writing
the page if it is dirty, while the pool holds `capacity` pages or more, and then loads the
page. `mark_dirty`, `flush_page` and `flush_all_pages` set and clear the dirty flags,
writing the pages they clear.

`DiskStorage::write_page` is recorded as the list `written` of the ids it is passed;
`read_page` only prints. A page's 4096 bytes of data are read by nothing here and are left
out, with the mutex, which every public function holds for its whole body. A
`std::unordered_map` is the list of its entries (`HpDb.Containers`), and an id of
`lru_list` that is not in `page_table` makes `page_table[evict_id]` a null pointer, whose
`dirty` is undefined: a call with undefined behaviour is `none`.

Results:
* `run_invariant`: for `capacity ≥ 1` and every call sequence, no call has undefined
  behaviour; `lru_list` is the `capacity` most recently fetched pages, most recent first,
  and holds exactly the keys of `page_table`, each once; `page_table` holds at most
  `capacity` pages; a call after which a page that was dirty is no longer dirty in
  `page_table` passes it to `write_page`; and after a `mark_dirty(p)` of a page in the pool,
  at every later point `p` is dirty in `page_table` or has been passed to `write_page`, so
  it is written before it leaves the pool.
-/

namespace HpDb.Storage

open HpDb.Caching (recency recency_append nodup_recency)

/-- `class Page` (lines 9–16), without its data. -/
structure Page where
  pageId : Int
  dirty : Bool
  deriving DecidableEq, Repr

/-- `class BufferManager` (lines 31–108), and the pages written to the disk. -/
structure BufferManager where
  capacity : Nat
  lruList : List Int
  pageTable : List (Int × Page)
  written : List Int

/-- A call on the buffer pool. -/
inductive Op where
  | fetchPage (pageId : Int)
  | markDirty (pageId : Int)
  | flushPage (pageId : Int)
  | flushAllPages
  deriving DecidableEq, Repr

/-- The page a call fetches. -/
def Op.fetched? : Op → Option Int
  | .fetchPage pageId => some pageId
  | _ => none

/-- The pages the calls fetch, in order. -/
def fetched (ops : List Op) : List Int := ops.filterMap Op.fetched?

namespace BufferManager

/-- `BufferManager(cap, storage)` (lines 59–60). -/
def new (capacity : Nat) : BufferManager := ⟨capacity, [], [], []⟩

/-- The loop of `evict_page` (lines 45–55), for at most `fuel` turns. -/
def evictLoop (b : BufferManager) : Nat → Option BufferManager
  | 0 => if b.capacity ≤ b.pageTable.length then none else some b
  | fuel + 1 =>
    if b.capacity ≤ b.pageTable.length then do
      let evictId ← b.lruList.getLast?
      let page ← b.pageTable.lookup evictId
      evictLoop { b with
        lruList := b.lruList.dropLast
        written := if page.dirty then b.written ++ [page.pageId] else b.written
        pageTable := b.pageTable.filter (·.1 ≠ evictId) } fuel
    else some b

/-- `evict_page()`: each turn pops `lru_list`, so the loop stops, or reads the back of an
    empty list, within `len(lru_list) + 1` turns. -/
def evictPage (b : BufferManager) : Option BufferManager := b.evictLoop (b.lruList.length + 1)

/-- `fetch_page(page_id)` (lines 62–81). -/
def fetchPage (b : BufferManager) (pageId : Int) : Option (Page × BufferManager) :=
  match b.pageTable.lookup pageId with
  | some page => some (page, { b with lruList := pageId :: b.lruList.filter (· ≠ pageId) })
  | none => b.evictPage.map fun b =>
    (⟨pageId, false⟩, { b with pageTable := assign b.pageTable pageId ⟨pageId, false⟩,
                               lruList := pageId :: b.lruList })

/-- `mark_dirty(page_id)` (lines 83–88). -/
def markDirty (b : BufferManager) (pageId : Int) : BufferManager :=
  if (b.pageTable.lookup pageId).isSome then
    { b with pageTable := modify b.pageTable pageId fun page => { page with dirty := true } }
  else b

/-- `flush_page(page_id)` (lines 90–97). -/
def flushPage (b : BufferManager) (pageId : Int) : BufferManager :=
  match b.pageTable.lookup pageId with
  | some page =>
    if page.dirty then
      { b with written := b.written ++ [pageId],
               pageTable := modify b.pageTable pageId fun page => { page with dirty := false } }
    else b
  | none => b

/-- `flush_all_pages()` (lines 99–107), over the entries in the map's order. -/
def flushAllPages (b : BufferManager) : BufferManager :=
  { b with written := b.written ++ (b.pageTable.filter (·.2.dirty)).map (·.1),
           pageTable := b.pageTable.map fun e => (e.1, { e.2 with dirty := false }) }

/-- One call. -/
def step (b : BufferManager) : Op → Option BufferManager
  | .fetchPage pageId => (b.fetchPage pageId).map (·.2)
  | .markDirty pageId => some (b.markDirty pageId)
  | .flushPage pageId => some (b.flushPage pageId)
  | .flushAllPages => some b.flushAllPages

/-- The calls `ops` from a new pool. -/
def run (capacity : Nat) (ops : List Op) : Option BufferManager :=
  ops.foldlM step (new capacity)

/-- `page_id` is in the pool with its dirty flag set. -/
def Dirty (b : BufferManager) (pageId : Int) : Prop :=
  ∃ page, b.pageTable.lookup pageId = some page ∧ page.dirty = true

/-! ## The `capacity` most recently fetched pages -/

theorem take_recency_hit {R : List Int} (hR : R.Nodup) {p : Int} :
    ∀ {n : Nat}, p ∈ R.take n → (p :: R.filter (· ≠ p)).take n = p :: (R.take n).filter (· ≠ p) := by
  induction R with
  | nil => intro n h; simp at h
  | cons x R ih =>
    intro n h
    obtain ⟨hx, hR⟩ := List.nodup_cons.mp hR
    cases n with
    | zero => simp at h
    | succ k =>
      rw [List.take_succ_cons] at h
      by_cases hxp : x = p
      · subst hxp
        have hfil : R.filter (· ≠ x) = R := List.filter_eq_self.mpr fun y hy =>
          decide_eq_true fun hyx : y = x => hx (hyx ▸ hy)
        have hfil' : (R.take k).filter (· ≠ x) = R.take k := List.filter_eq_self.mpr fun y hy =>
          decide_eq_true fun hyx : y = x => hx (hyx ▸ (List.take_sublist _ _).subset hy)
        rw [List.filter_cons_of_neg (by simp), hfil, List.take_succ_cons,
          List.filter_cons_of_neg (by simp), hfil']
      · have hp : p ∈ R.take k := (List.mem_cons.mp h).resolve_left (Ne.symm hxp)
        obtain ⟨j, rfl⟩ : ∃ j, k = j + 1 := ⟨k - 1, by
          have := List.length_pos_of_mem hp; simp at this; omega⟩
        have ih' := ih hR hp
        rw [List.take_succ_cons, List.cons.injEq] at ih'
        rw [List.filter_cons_of_pos (by simpa using hxp), List.take_succ_cons, List.take_succ_cons,
          List.take_succ_cons, List.filter_cons_of_pos (by simpa using hxp), ih'.2]

theorem take_recency_miss {R : List Int} {p : Int} :
    ∀ {n : Nat}, p ∉ R.take n → (R.filter (· ≠ p)).take n = R.take n := by
  induction R with
  | nil => intro n _; simp
  | cons x R ih =>
    intro n h
    cases n with
    | zero => simp
    | succ k =>
      rw [List.take_succ_cons, List.mem_cons, not_or] at h
      rw [List.filter_cons_of_pos (by simpa using Ne.symm h.1), List.take_succ_cons,
        List.take_succ_cons, ih h.2]

theorem filter_ne_getLast {l : List Int} (hnd : l.Nodup) {e : Int} (he : l.getLast? = some e) :
    l.filter (· ≠ e) = l.dropLast :=
  (dropLast_eq_filter id (by rwa [List.map_id]) he).symm

/-! ## The invariant -/

/-- What every run keeps, after the calls `ops`: `lru_list` is the `capacity` most recently
    fetched pages, most recent first, and the keys of `page_table` in some order, and each
    page is stored under its own id. -/
structure Inv (cap : Nat) (ops : List Op) (b : BufferManager) : Prop where
  capacity : b.capacity = cap
  lruList : b.lruList = (recency (fetched ops)).take cap
  keys : (b.pageTable.map (·.1)).Perm b.lruList
  pageId : ∀ p page, (p, page) ∈ b.pageTable → page.pageId = p

section Inv

variable {capacity : Nat} {ops : List Op} {b : BufferManager}

theorem Inv.nodup (h : Inv capacity ops b) : b.lruList.Nodup :=
  h.lruList ▸ (nodup_recency _).sublist (List.take_sublist _ _)

theorem Inv.keysNodup (h : Inv capacity ops b) : (b.pageTable.map (·.1)).Nodup :=
  h.keys.nodup_iff.mpr h.nodup

theorem Inv.length (h : Inv capacity ops b) : b.pageTable.length = b.lruList.length := by
  simpa using h.keys.length_eq

theorem Inv.length_le (h : Inv capacity ops b) : b.lruList.length ≤ capacity := by
  rw [h.lruList]; exact List.length_take_le _ _

theorem Inv.mem (h : Inv capacity ops b) (p : Int) :
    (b.pageTable.lookup p).isSome ↔ p ∈ b.lruList := by
  rw [← h.keys.mem_iff, Option.isSome_iff_ne_none, Ne, lookup_eq_none_iff, not_not]

theorem fetched_append (ops : List Op) (op : Op) :
    fetched (ops ++ [op]) = fetched ops ++ (op.fetched?).toList := by
  simp only [fetched, List.filterMap_append]; cases op <;> rfl

theorem evictLoop_of_lt (hlt : b.pageTable.length < b.capacity) (fuel : Nat) :
    b.evictLoop fuel = some b := by
  cases fuel <;> simp [evictLoop, Nat.not_le.mpr hlt]

/-- `evict_page` on a full pool drops the back of `lru_list`, writing it if it is dirty. -/
theorem Inv.evictPage_full (h : Inv cap ops b) (hc : 1 ≤ cap) (hfull : cap ≤ b.pageTable.length) :
    ∃ e page, b.lruList.getLast? = some e ∧ b.pageTable.lookup e = some page ∧
      ((b.pageTable.filter (·.1 ≠ e)).map (·.1)).Perm b.lruList.dropLast ∧
      b.evictPage = some { b with
        lruList := b.lruList.dropLast
        written := if page.dirty then b.written ++ [e] else b.written
        pageTable := b.pageTable.filter (·.1 ≠ e) } := by
  have hlen := h.length
  have hle := h.length_le
  obtain ⟨e, he⟩ : ∃ e, b.lruList.getLast? = some e := by
    cases he : b.lruList.getLast? with
    | some e => exact ⟨e, rfl⟩
    | none =>
      have h0 : b.lruList.length = 0 := by rw [List.getLast?_eq_none_iff.mp he]; rfl
      omega
  obtain ⟨page, hpage⟩ := Option.isSome_iff_exists.mp
    ((h.mem e).mpr (List.mem_of_getLast?_eq_some he))
  have hid := h.pageId e page (mem_of_lookup hpage)
  have hkeys : ((b.pageTable.filter (·.1 ≠ e)).map (·.1)).Perm b.lruList.dropLast := by
    have hmap : (b.pageTable.filter (·.1 ≠ e)).map (·.1) = (b.pageTable.map (·.1)).filter (· ≠ e) := by
      rw [List.filter_map]; rfl
    rw [hmap, ← filter_ne_getLast h.nodup he]
    exact h.keys.filter _
  have hlt : (b.pageTable.filter (·.1 ≠ e)).length < b.capacity := by
    have := hkeys.length_eq
    simp only [List.length_map, List.length_dropLast] at this
    rw [this, h.capacity]; omega
  refine ⟨e, page, he, hpage, hkeys, ?_⟩
  obtain ⟨n, hn⟩ : ∃ n, b.lruList.length = n + 1 := ⟨b.lruList.length - 1, by omega⟩
  rw [evictPage, hn, evictLoop, if_pos (h.capacity ▸ hfull)]
  simp only [he, hpage, hid, Option.bind_eq_bind, Option.some_bind]
  apply evictLoop_of_lt
  exact hlt

/-- A call that un-dirties a page writes it. -/
def WritesCleaned (b b' : BufferManager) : Prop :=
  b.written <+: b'.written ∧ ∀ p, b.Dirty p → ¬b'.Dirty p → p ∈ b'.written.drop b.written.length

theorem writesCleaned_of_pageTable {b' : BufferManager} (hw : b'.written = b.written)
    (hd : ∀ p, b.Dirty p → b'.Dirty p) : WritesCleaned b b' :=
  ⟨hw ▸ List.prefix_refl _, fun p hp hp' => absurd (hd p hp) hp'⟩

theorem writesCleaned_append {b' : BufferManager} (xs : List Int) (hw : b'.written = b.written ++ xs)
    (hd : ∀ p, b.Dirty p → ¬b'.Dirty p → p ∈ xs) : WritesCleaned b b' :=
  ⟨hw ▸ List.prefix_append _ _, fun p hp hp' => by rw [hw, List.drop_left]; exact hd p hp hp'⟩

/-- Since the first `w` writes, page `p` has been passed to `write_page`, or it is dirty in the
    pool. -/
def WrittenOrDirty (w : Nat) (p : Int) (b : BufferManager) : Prop :=
  b.Dirty p ∨ p ∈ b.written.drop w

/-- A call that writes every page it un-dirties keeps a page written or dirty. -/
theorem WrittenOrDirty.of_writesCleaned {w : Nat} {p : Int} {b' : BufferManager}
    (h : WrittenOrDirty w p b) (hcl : WritesCleaned b b') (hw : w ≤ b.written.length) :
    WrittenOrDirty w p b' := by
  rcases h with hd | hwr
  · by_cases hd' : b'.Dirty p
    · exact .inl hd'
    · exact .inr (List.drop_subset_drop_left _ hw (hcl.2 p hd hd'))
  · obtain ⟨t, ht⟩ := hcl.1
    refine .inr ?_
    rw [← ht, List.drop_append_of_le_length hw]
    exact List.mem_append_left t hwr

/-- `mark_dirty` of a page in the pool sets its dirty flag. -/
theorem dirty_markDirty {p : Int} (hp : (b.pageTable.lookup p).isSome) : (b.markDirty p).Dirty p := by
  obtain ⟨page, hpage⟩ := Option.isSome_iff_exists.mp hp
  exact ⟨{ page with dirty := true }, by simp [markDirty, hpage, lookup_modify], rfl⟩

/-- A call that fetches nothing and keeps `lru_list` and the keys of `page_table`. -/
theorem Inv.nonFetch (h : Inv cap ops b) (op : Op) (hop : op.fetched? = none) {b' : BufferManager}
    (hcap : b'.capacity = b.capacity) (hlru : b'.lruList = b.lruList)
    (hkeys : b'.pageTable.map (·.1) = b.pageTable.map (·.1))
    (hid : ∀ p page, (p, page) ∈ b'.pageTable → page.pageId = p) : Inv cap (ops ++ [op]) b' :=
  ⟨hcap.trans h.capacity, by rw [hlru, h.lruList, fetched_append, hop]; simp,
    hkeys ▸ hlru ▸ h.keys, hid⟩

theorem Inv.pageId_modify (h : Inv cap ops b) (pageId : Int) (dirty : Bool) :
    ∀ p page, (p, page) ∈ modify b.pageTable pageId (fun page => { page with dirty := dirty }) →
      page.pageId = p := by
  intro p page hp
  rcases mem_modify.mp hp with ⟨rfl, y, hy, rfl⟩ | ⟨-, hp⟩
  · exact h.pageId _ y hy
  · exact h.pageId p page hp

theorem recency_fetchPage (ops : List Op) (pageId : Int) :
    recency (fetched (ops ++ [.fetchPage pageId])) =
      pageId :: (recency (fetched ops)).filter (· ≠ pageId) := by
  rw [fetched_append]; exact recency_append _ _

/-- Loading a page behind a table whose keys are `lru`. -/
theorem keys_load {T : List (Int × Page)} {lru : List Int} (hT : (T.map (·.1)).Perm lru)
    (pageId : Int) : ((T ++ [(pageId, Page.mk pageId false)]).map (·.1)).Perm (pageId :: lru) := by
  rw [List.map_append, List.map_singleton]
  exact (List.perm_append_singleton _ _).trans (hT.cons pageId)

theorem pageId_load {T : List (Int × Page)} (hT : ∀ p page, (p, page) ∈ T → page.pageId = p)
    (pageId : Int) : ∀ p page, (p, page) ∈ T ++ [(pageId, Page.mk pageId false)] → page.pageId = p := by
  intro p pg hp
  rcases List.mem_append.mp hp with hp | hp
  · exact hT p pg hp
  · cases List.mem_singleton.mp hp; rfl

/-- `fetch_page` of a page in the pool moves it to the front of `lru_list`. -/
theorem Inv.fetchPage_hit (h : Inv cap ops b) {pageId : Int} {page : Page}
    (hl : b.pageTable.lookup pageId = some page) :
    ∃ b', b.step (.fetchPage pageId) = some b' ∧ Inv cap (ops ++ [.fetchPage pageId]) b' ∧
      WritesCleaned b b' := by
  have hmem := (h.mem pageId).mp (by simp [hl])
  refine ⟨{ b with lruList := pageId :: b.lruList.filter (· ≠ pageId) },
    by simp [BufferManager.step, fetchPage, hl], ⟨h.capacity, ?_, ?_, h.pageId⟩,
    writesCleaned_of_pageTable rfl fun _ hp => hp⟩
  · rw [recency_fetchPage, h.lruList, take_recency_hit (nodup_recency _) (h.lruList ▸ hmem)]
  · have herase : b.lruList.filter (· ≠ pageId) = b.lruList.erase pageId := by
      rw [h.nodup.erase_eq_filter]; congr 1; funext x; by_cases hx : x = pageId <;> simp [hx]
    exact herase ▸ h.keys.trans (List.perm_cons_erase hmem)

/-- `fetch_page` of a page not in a full pool evicts the back of `lru_list`, then loads the
    page. -/
theorem Inv.fetchPage_evict (h : Inv cap ops b) (hc : 1 ≤ cap) {pageId : Int}
    (hl : b.pageTable.lookup pageId = none) (hfull : cap ≤ b.pageTable.length) :
    ∃ b', b.step (.fetchPage pageId) = some b' ∧ Inv cap (ops ++ [.fetchPage pageId]) b' ∧
      WritesCleaned b b' := by
  have hnot : pageId ∉ b.lruList := fun hp => by simpa [hl] using (h.mem pageId).mpr hp
  obtain ⟨e, page, he, hpage, hkeys, hevict⟩ := h.evictPage_full hc hfull
  have hpt' : pageId ∉ (b.pageTable.filter (·.1 ≠ e)).map (·.1) := fun hp =>
    lookup_eq_none_iff.mp hl (((List.filter_sublist _).map _).subset hp)
  refine ⟨{ b with
      lruList := pageId :: b.lruList.dropLast
      written := if page.dirty then b.written ++ [e] else b.written
      pageTable := b.pageTable.filter (·.1 ≠ e) ++ [(pageId, ⟨pageId, false⟩)] },
    by simp only [BufferManager.step, fetchPage, hl, hevict, Option.map_some',
      assign_of_not_mem hpt'], ⟨h.capacity, ?_, keys_load hkeys pageId,
      pageId_load (fun p pg hp => h.pageId p pg (List.mem_filter.mp hp).1) pageId⟩, ?_⟩
  · have hlen : b.lruList.length = cap := by have := h.length; have := h.length_le; omega
    obtain ⟨c, rfl⟩ : ∃ c, cap = c + 1 := ⟨cap - 1, by omega⟩
    have hmiss := congrArg (List.take c) (take_recency_miss (h.lruList ▸ hnot))
    simp only [List.take_take, Nat.min_eq_left (Nat.le_succ c)] at hmiss
    show pageId :: b.lruList.dropLast = _
    rw [recency_fetchPage, List.take_succ_cons, List.dropLast_eq_take, hlen, Nat.add_sub_cancel,
      h.lruList, List.take_take, Nat.min_eq_left (Nat.le_succ c), hmiss]
  · refine writesCleaned_append (if page.dirty then [e] else []) (by split <;> simp) ?_
    rintro q ⟨pg, hq, hd⟩ hq'
    by_cases hqe : q = e
    · subst hqe
      rw [hpage, Option.some.injEq] at hq
      subst hq; simp [hd]
    · have hqp : q ≠ pageId := fun hqp => by rw [hqp, hl] at hq; cases hq
      exact absurd ⟨pg, by rw [lookup_append_of_not_mem hpt', if_neg hqp, lookup_filter_ne,
        if_neg hqe, hq], hd⟩ hq'

/-- `fetch_page` of a page not in a pool with room loads the page. -/
theorem Inv.fetchPage_load (h : Inv cap ops b) {pageId : Int}
    (hl : b.pageTable.lookup pageId = none) (hroom : b.pageTable.length < cap) :
    ∃ b', b.step (.fetchPage pageId) = some b' ∧ Inv cap (ops ++ [.fetchPage pageId]) b' ∧
      WritesCleaned b b' := by
  have hnot : pageId ∉ b.lruList := fun hp => by simpa [hl] using (h.mem pageId).mpr hp
  have hpt : pageId ∉ b.pageTable.map (·.1) := lookup_eq_none_iff.mp hl
  refine ⟨{ b with
      lruList := pageId :: b.lruList
      pageTable := b.pageTable ++ [(pageId, ⟨pageId, false⟩)] },
    by simp only [BufferManager.step, fetchPage, hl, evictPage, evictLoop_of_lt (h.capacity ▸ hroom),
      Option.map_some', assign_of_not_mem hpt], ⟨h.capacity, ?_, keys_load h.keys pageId,
      pageId_load h.pageId pageId⟩, ?_⟩
  · have hshort : (recency (fetched ops)).length < cap := by
      have := h.length; rw [h.lruList, List.length_take] at this; omega
    have hlru : b.lruList = recency (fetched ops) :=
      h.lruList.trans (List.take_of_length_le hshort.le)
    have hfil : (recency (fetched ops)).filter (· ≠ pageId) = recency (fetched ops) :=
      List.filter_eq_self.mpr fun y hy => decide_eq_true fun hyp : y = pageId =>
        hnot (hlru ▸ hyp ▸ hy)
    show pageId :: b.lruList = _
    rw [recency_fetchPage, hfil, hlru, List.take_of_length_le (Nat.succ_le_of_lt hshort)]
  · refine writesCleaned_of_pageTable rfl fun q ⟨pg, hq, hd⟩ => ⟨pg, ?_, hd⟩
    have hqp : q ≠ pageId := fun hqp => by rw [hqp, hl] at hq; cases hq
    simp [lookup_append_of_not_mem hpt, hqp, hq]

/-- `mark_dirty` changes only a dirty flag. -/
theorem Inv.markDirty (h : Inv cap ops b) (pageId : Int) :
    ∃ b', b.step (.markDirty pageId) = some b' ∧ Inv cap (ops ++ [.markDirty pageId]) b' ∧
      WritesCleaned b b' := by
  by_cases hp : (b.pageTable.lookup pageId).isSome
  · refine ⟨{ b with
        pageTable := modify b.pageTable pageId fun page => { page with dirty := true } },
      by simp only [BufferManager.step, BufferManager.markDirty, if_pos hp],
      h.nonFetch (.markDirty pageId) rfl rfl rfl (by simp only [keys_modify])
      (h.pageId_modify pageId true),
      writesCleaned_of_pageTable rfl fun q ⟨pg, hq, hd⟩ => ?_⟩
    by_cases hqp : q = pageId
    · subst hqp; exact ⟨_, by rw [lookup_modify, if_pos rfl, hq]; rfl, rfl⟩
    · exact ⟨pg, by rw [lookup_modify, if_neg hqp, hq], hd⟩
  · exact ⟨b, by simp [BufferManager.step, BufferManager.markDirty, hp],
      h.nonFetch (.markDirty pageId) rfl rfl rfl rfl h.pageId,
      writesCleaned_of_pageTable rfl fun _ hq => hq⟩

/-- `flush_page` writes the page whose dirty flag it clears. -/
theorem Inv.flushPage (h : Inv cap ops b) (pageId : Int) :
    ∃ b', b.step (.flushPage pageId) = some b' ∧ Inv cap (ops ++ [.flushPage pageId]) b' ∧
      WritesCleaned b b' := by
  cases hl : b.pageTable.lookup pageId with
  | some page =>
    by_cases hd : page.dirty
    · refine ⟨{ b with
          written := b.written ++ [pageId]
          pageTable := modify b.pageTable pageId fun page => { page with dirty := false } },
        by simp only [BufferManager.step, BufferManager.flushPage, hl, if_pos hd],
        h.nonFetch (.flushPage pageId) rfl rfl rfl (by simp only [keys_modify])
        (h.pageId_modify pageId false),
        writesCleaned_append [pageId] rfl fun q ⟨pg, hq, hd'⟩ hq' => ?_⟩
      by_cases hqp : q = pageId
      · exact List.mem_singleton.mpr hqp
      · exact absurd ⟨pg, by simp only [lookup_modify, if_neg hqp, hq], hd'⟩ hq'
    · exact ⟨b, by simp [BufferManager.step, BufferManager.flushPage, hl, hd],
        h.nonFetch (.flushPage pageId) rfl rfl rfl rfl h.pageId,
        writesCleaned_of_pageTable rfl fun _ hq => hq⟩
  | none =>
    exact ⟨b, by simp [BufferManager.step, BufferManager.flushPage, hl],
      h.nonFetch (.flushPage pageId) rfl rfl rfl rfl h.pageId,
      writesCleaned_of_pageTable rfl fun _ hq => hq⟩

/-- `flush_all_pages` writes every dirty page. -/
theorem Inv.flushAllPages (h : Inv cap ops b) :
    ∃ b', b.step .flushAllPages = some b' ∧ Inv cap (ops ++ [.flushAllPages]) b' ∧
      WritesCleaned b b' := by
  refine ⟨_, rfl, h.nonFetch .flushAllPages rfl rfl rfl (by simp [BufferManager.flushAllPages]) ?_,
    writesCleaned_append _ rfl fun q ⟨pg, hq, hd⟩ _ => ?_⟩
  · intro p pg hp
    obtain ⟨⟨p', pg'⟩, hp', ⟨⟩⟩ := List.mem_map.mp hp
    exact h.pageId p' pg' hp'
  · exact List.mem_map.mpr ⟨(q, pg), List.mem_filter.mpr ⟨mem_of_lookup hq, hd⟩, rfl⟩

/-- Each call keeps the invariant, has no undefined behaviour, and writes every page it
    un-dirties. -/
theorem Inv.step (h : Inv cap ops b) (hc : 1 ≤ cap) (op : Op) :
    ∃ b', b.step op = some b' ∧ Inv cap (ops ++ [op]) b' ∧ WritesCleaned b b' := by
  cases op with
  | fetchPage pageId =>
    cases hl : b.pageTable.lookup pageId with
    | some page => exact h.fetchPage_hit hl
    | none =>
      by_cases hfull : cap ≤ b.pageTable.length
      · exact h.fetchPage_evict hc hl hfull
      · exact h.fetchPage_load hl (Nat.lt_of_not_le hfull)
  | markDirty pageId => exact h.markDirty pageId
  | flushPage pageId => exact h.flushPage pageId
  | flushAllPages => exact h.flushAllPages

/-- Every run of calls from a pool that holds the invariant keeps it, has no undefined
    behaviour, and keeps each page written or dirty. -/
theorem Inv.foldlM (hc : 1 ≤ cap) : ∀ (post : List Op) {ops : List Op} {b : BufferManager},
    Inv cap ops b → ∃ b', post.foldlM BufferManager.step b = some b' ∧ Inv cap (ops ++ post) b' ∧
      ∀ w p, w ≤ b.written.length → WrittenOrDirty w p b → WrittenOrDirty w p b'
  | [], _, b, h => ⟨b, rfl, by simpa using h, fun _ _ _ h => h⟩
  | op :: post, ops, b, h => by
    obtain ⟨b₁, hb₁, h₁, hcl⟩ := h.step hc op
    obtain ⟨b', hb', h', hwd⟩ := Inv.foldlM hc post h₁
    refine ⟨b', by rw [List.foldlM_cons, hb₁]; exact hb', by simpa using h', fun w p hw hp =>
      hwd w p (hw.trans hcl.1.length_le) (hp.of_writesCleaned hcl hw)⟩

end Inv

/-- Every call sequence runs without undefined behaviour and keeps the invariant. -/
theorem Inv.run (capacity : Nat) (hc : 1 ≤ capacity) (ops : List Op) :
    ∃ b, run capacity ops = some b ∧ Inv capacity ops b := by
  obtain ⟨b, hb, h, -⟩ := Inv.foldlM hc ops (show Inv capacity [] (new capacity) from
    ⟨rfl, List.take_nil.symm, List.Perm.refl _, fun _ _ h => nomatch h⟩)
  exact ⟨b, hb, by simpa using h⟩

/-- After `mark_dirty(p)` of a page in the pool, every later run keeps `p` dirty in the pool
    until `write_page` has been passed `p`. -/
theorem Inv.markDirty_written_or_dirty (capacity : Nat) (hc : 1 ≤ capacity) {pre : List Op}
    (post : List Op) {p : Int} {b₀ : BufferManager} (hb₀ : BufferManager.run capacity pre = some b₀)
    (hp : (b₀.pageTable.lookup p).isSome) :
    ∃ b, BufferManager.run capacity (pre ++ .markDirty p :: post) = some b ∧
      WrittenOrDirty b₀.written.length p b := by
  obtain ⟨b₀', hb₀', h₀⟩ := Inv.run capacity hc pre
  obtain rfl : b₀' = b₀ := Option.some.inj (hb₀'.symm.trans hb₀)
  obtain ⟨b₁, hb₁, h₁, hcl⟩ := h₀.step hc (.markDirty p)
  obtain rfl : b₁ = b₀'.markDirty p := (Option.some.inj hb₁).symm
  obtain ⟨b, hb, -, hwd⟩ := Inv.foldlM hc post h₁
  refine ⟨b, ?_, hwd _ p hcl.1.length_le (.inl (dirty_markDirty hp))⟩
  rw [BufferManager.run, List.foldlM_append, ← BufferManager.run, hb₀', Option.bind_eq_bind,
    Option.some_bind, List.foldlM_cons, hb₁, Option.bind_eq_bind, Option.some_bind]
  exact hb

theorem run_invariant (capacity : Nat) (hc : 1 ≤ capacity) (ops : List Op) :
    ∃ b, run capacity ops = some b ∧
      b.lruList = (recency (fetched ops)).take capacity ∧ b.lruList.Nodup ∧
      (b.pageTable.map (·.1)).Perm b.lruList ∧ b.pageTable.length ≤ capacity ∧
      (∀ op, ∃ b', b.step op = some b' ∧ b.written <+: b'.written ∧
        ∀ p, b.Dirty p → ¬b'.Dirty p → p ∈ b'.written.drop b.written.length) ∧
      ∀ pre p post, ops = pre ++ .markDirty p :: post → ∀ b₀, run capacity pre = some b₀ →
        (b₀.pageTable.lookup p).isSome → b.Dirty p ∨ p ∈ b.written.drop b₀.written.length := by
  obtain ⟨b, hb, h⟩ := Inv.run capacity hc ops
  refine ⟨b, hb, h.lruList, h.nodup, h.keys, h.length.trans_le h.length_le, fun op => ?_,
    fun pre p post hops b₀ hb₀ hp => ?_⟩
  · obtain ⟨b', hb', -, hw⟩ := h.step hc op
    exact ⟨b', hb', hw⟩
  · obtain ⟨b', hb', hwd⟩ := Inv.markDirty_written_or_dirty capacity hc post hb₀ hp
    rw [← hops, hb] at hb'
    exact Option.some.inj hb' ▸ hwd

/-- The calls of `test_buffer_manager` (lines 110–130). -/
def testBufferManager : List Op :=
  [.fetchPage 1, .markDirty 1, .fetchPage 2, .markDirty 2, .fetchPage 3, .markDirty 3,
    .fetchPage 4, .flushAllPages]

/-- Fetching page 4 evicts page 1, which is written; `flush_all_pages` writes 2 and 3. -/
example : ((run 3 testBufferManager).map fun b => (b.lruList, b.written)) =
    some ([4, 3, 2], [1, 2, 3]) := rfl

theorem run_invariant_testBufferManager : 1 ≤ 3 ∧
    ∃ b, run 3 testBufferManager = some b ∧
      b.lruList = (recency (fetched testBufferManager)).take 3 ∧ b.lruList.Nodup ∧
      (b.pageTable.map (·.1)).Perm b.lruList ∧ b.pageTable.length ≤ 3 ∧
      (∀ op, ∃ b', b.step op = some b' ∧ b.written <+: b'.written ∧
        ∀ p, b.Dirty p → ¬b'.Dirty p → p ∈ b'.written.drop b.written.length) ∧
      ∀ pre p post, testBufferManager = pre ++ .markDirty p :: post → ∀ b₀, run 3 pre = some b₀ →
        (b₀.pageTable.lookup p).isSome → b.Dirty p ∨ p ∈ b.written.drop b₀.written.length :=
  ⟨by decide, run_invariant 3 (by decide) testBufferManager⟩

end BufferManager

end HpDb.Storage
