import Mathlib.Data.List.Basic
import HpDb.Containers

/-!
# Row store (storage/storage_formats/row_store.cpp)

A `Table` keeps its rows in pages of at most `pageSize` rows, in an `unordered_map` from
page id to page. Rows go to the page `currentPageId`; when it is full, `insertRow` opens the
page `currentPageId + 1` and inserts there. A row is addressed by its page id and its index in
the page, and `deleteRow` closes the gap in its page: the later rows of the page move down,
and no row moves to another page. `RowStore` keeps the tables by name and reports each call
on standard output.

`int` is `Int`, wrapped to 32 bits by `int32` where an increment or a sum can pass `2^31 - 1`.
`std::unordered_map` is the list of its entries (`HpDb.Containers`), a `shared_ptr` is the
value it points to, and a null `shared_ptr` dereferenced is `none`. `Page` carries
`rowCount = rows.size()`, which its constructor and methods keep, so `rows[rowIndex]` and
`rows.erase(rows.begin() + rowIndex)` stay in the vector.

The specification `Spec.Table` is the list of the pages' rows in id order, the last page the
one inserts go to, and `Spec.Table.impl` lays it out as the code stores it.

Results:
* `run_refines`: on a new table and every sequence of calls with fewer than `2^31 - 1`
  inserts, no call dereferences a null page, each call returns what it returns on the
  specification, and the table is the layout of the specification's.
* `reachable_rows`: every table reached so holds its rows in order and page by page: the
  row at an address is at the position the rows of the earlier pages and its index give,
  a delete there erases it from that position and returns `true`, any other delete
  returns `false` and changes nothing, `getRowCount` is the number of rows, and with a page
  size of at least `1` no page holds more than `pageSize` rows and an insert appends its row
  and returns `true`.
* `reachable_nonpositive_pageSize`: with a page size of at most `0` a table never holds a
  row: every insert returns `false` and adds an empty page.
-/

namespace HpDb.Storage.Formats

/-- `int` arithmetic: `x` wrapped to 32 bits. -/
def int32 (x : Int) : Int := x.bmod 4294967296

theorem int32_of_bounds {x : Int} (h0 : -2147483648 ≤ x) (h1 : x < 2147483648) : int32 x = x := by
  rw [int32, Int.bmod_def]
  split <;> omega

/-- `class Row` (lines 7–19). -/
structure Row where
  data : List String
  deriving DecidableEq, Repr

/-- `Row::displayRow` (lines 13–18): the line it prints. -/
def Row.displayRow (row : Row) : String := String.join (row.data.map (· ++ " | "))

/-- `class Page` (lines 21–64). -/
structure Page where
  pageSize : Int
  rows : List Row
  rowCount : Int
  rowCount_eq : rowCount = rows.length
  deriving DecidableEq, Repr

namespace Page

/-- `Page(int size)` (line 28). -/
def new (size : Int) : Page := ⟨size, [], 0, rfl⟩

/-- `Page::insertRow` (lines 30–37). -/
def insertRow (page : Page) (row : Row) : Bool × Page :=
  if page.rowCount ≥ page.pageSize then (false, page)
  else (true, ⟨page.pageSize, page.rows ++ [row], page.rowCount + 1, by simp [page.rowCount_eq]⟩)

/-- `Page::deleteRow` (lines 39–46). -/
def deleteRow (page : Page) (rowIndex : Int) : Bool × Page :=
  if h : rowIndex < 0 ∨ rowIndex ≥ page.rowCount then (false, page)
  else (true, ⟨page.pageSize, page.rows.eraseIdx rowIndex.toNat, page.rowCount - 1, by
    have := page.rowCount_eq
    rw [List.length_eraseIdx, if_pos (by omega)]
    omega⟩)

/-- `Page::getRow` (lines 48–53); `none` is `nullptr`. -/
def getRow (page : Page) (rowIndex : Int) : Option Row :=
  if rowIndex < 0 ∨ rowIndex ≥ page.rowCount then none else page.rows[rowIndex.toNat]?

/-- `Page::getRowCount` (lines 55–57). -/
def getRowCount (page : Page) : Int := page.rowCount

end Page

/-- `class Table` (lines 66–115); `pages` maps ids to the pages their pointers point to. -/
structure Table where
  pages : List (Int × Page)
  pageSize : Int
  currentPageId : Int
  deriving DecidableEq, Repr

namespace Table

/-- `Table(int size)` (lines 73–75). -/
def new (size : Int) : Table := ⟨assign [] 0 (Page.new size), size, 0⟩

/-- `Table::insertRow` (lines 77–85). `pages[id]->insertRow(row)` changes the page in the
    map; `none` is the null pointer `pages[currentPageId]` adds for an id the map lacks. -/
def insertRow (t : Table) (rowData : List String) : Option (Bool × Table) := do
  let row : Row := ⟨rowData⟩
  let page ← t.pages.lookup t.currentPageId
  if (page.insertRow row).1 then
    pure (true, { t with pages := modify t.pages t.currentPageId fun page => (page.insertRow row).2 })
  else
    let currentPageId := int32 (t.currentPageId + 1)
    pure (((Page.new t.pageSize).insertRow row).1,
      { t with currentPageId,
               pages := modify (assign t.pages currentPageId (Page.new t.pageSize)) currentPageId
                 fun page => (page.insertRow row).2 })

/-- `Table::deleteRow` (lines 87–92). -/
def deleteRow (t : Table) (pageId rowIndex : Int) : Bool × Table :=
  match t.pages.lookup pageId with
  | none => (false, t)
  | some page =>
    ((page.deleteRow rowIndex).1, { t with pages := modify t.pages pageId fun page => (page.deleteRow rowIndex).2 })

/-- `Table::getRow` (lines 94–99). -/
def getRow (t : Table) (pageId rowIndex : Int) : Option Row :=
  (t.pages.lookup pageId).bind (·.getRow rowIndex)

/-- `Table::getRowCount` (lines 108–114), summing in the map's iteration order. -/
def getRowCount (t : Table) : Int :=
  t.pages.foldl (fun totalRows e => int32 (totalRows + e.2.getRowCount)) 0

/-- The rows of the pages in the map's order. -/
def rows (t : Table) : List Row := (t.pages.map (·.2.rows)).flatten

end Table

/-- A call on a table. -/
inductive TableCall where
  | insertRow (rowData : List String)
  | deleteRow (pageId rowIndex : Int)
  | getRow (pageId rowIndex : Int)
  | getRowCount
  deriving DecidableEq, Repr

/-- What a call on a table returns. -/
inductive TableResult where
  | inserted (ok : Bool)
  | deleted (ok : Bool)
  | row (row : Option Row)
  | rowCount (n : Int)
  deriving DecidableEq, Repr

def TableCall.isInsert : TableCall → Bool
  | .insertRow _ => true
  | _ => false

namespace Table

/-- One call; `none` is a null page dereferenced. -/
def step (t : Table) : TableCall → Option (TableResult × Table)
  | .insertRow rowData => (t.insertRow rowData).map fun r => (.inserted r.1, r.2)
  | .deleteRow pageId rowIndex => some (.deleted (t.deleteRow pageId rowIndex).1, (t.deleteRow pageId rowIndex).2)
  | .getRow pageId rowIndex => some (.row (t.getRow pageId rowIndex), t)
  | .getRowCount => some (.rowCount t.getRowCount, t)

/-- The calls in turn, with what each returns. -/
def run (t : Table) : List TableCall → Option (List TableResult × Table)
  | [] => some ([], t)
  | call :: calls => do
    let (r, t) ← t.step call
    let (rs, t) ← run t calls
    pure (r :: rs, t)

end Table

/-! ## Specification -/

namespace Spec

/-- A table as the rows of its pages in id order; inserts go to the last page. -/
structure Table where
  pageSize : Int
  pages : List (List Row)
  pages_ne_nil : pages ≠ []
  deriving DecidableEq, Repr

namespace Table

def new (pageSize : Int) : Table := ⟨pageSize, [[]], List.cons_ne_nil _ _⟩

/-- The rows, page after page. -/
def rows (t : Table) : List Row := t.pages.flatten

/-- The page inserts go to. -/
def current (t : Table) : List Row := t.pages.getLast t.pages_ne_nil

/-- Page `k` changed by `f`. -/
def modifyPage (t : Table) (k : Nat) (f : List Row → List Row) : Table :=
  ⟨t.pageSize, t.pages.modify f k, by
    rw [← List.length_pos, List.length_modify, List.length_pos]; exact t.pages_ne_nil⟩

/-- A new last page. -/
def addPage (t : Table) (rows : List Row) : Table := ⟨t.pageSize, t.pages ++ [rows], by simp⟩

/-- A row goes to the current page while it has room and to a new page otherwise; with a page
    size of at most `0` no page has room, the new one included. -/
def insertRow (t : Table) (row : Row) : Bool × Table :=
  if (t.current.length : Int) < t.pageSize then
    (true, t.modifyPage (t.pages.length - 1) (· ++ [row]))
  else if 0 < t.pageSize then (true, t.addPage [row])
  else (false, t.addPage [])

/-- The row at index `rowIndex` of page `pageId`. -/
def getRow (t : Table) (pageId rowIndex : Int) : Option Row :=
  if pageId < 0 ∨ rowIndex < 0 then none else t.pages[pageId.toNat]?.bind (·[rowIndex.toNat]?)

/-- A delete erases the row at its address, if there is one. -/
def deleteRow (t : Table) (pageId rowIndex : Int) : Bool × Table :=
  if (t.getRow pageId rowIndex).isSome then
    (true, t.modifyPage pageId.toNat (·.eraseIdx rowIndex.toNat))
  else (false, t)

def step (t : Table) : TableCall → TableResult × Table
  | .insertRow rowData => ((.inserted (t.insertRow ⟨rowData⟩).1), (t.insertRow ⟨rowData⟩).2)
  | .deleteRow pageId rowIndex => (.deleted (t.deleteRow pageId rowIndex).1, (t.deleteRow pageId rowIndex).2)
  | .getRow pageId rowIndex => (.row (t.getRow pageId rowIndex), t)
  | .getRowCount => (.rowCount t.rows.length, t)

def run (t : Table) : List TableCall → List TableResult × Table
  | [] => ([], t)
  | call :: calls =>
    let (rs, t') := run (t.step call).2 calls
    ((t.step call).1 :: rs, t')

end Table

end Spec

/-! ## Positions in the rows -/

section Flatten

variable {α : Type}

/-- Element `i` of list `p` is element `offset + i` of the concatenation, where `offset` is
    the length of the lists before `p`. -/
theorem getElem?_flatten_of_bind : ∀ (l : List (List α)) (p i : Nat) {x : α},
    l[p]?.bind (·[i]?) = some x → l.flatten[(l.take p).flatten.length + i]? = some x
  | [], _, _, _, h => by simp at h
  | a :: l, 0, i, x, h => by
    simp only [List.getElem?_cons_zero, Option.some_bind] at h
    rw [List.take_zero, List.flatten_nil, List.length_nil, Nat.zero_add, List.flatten_cons,
      List.getElem?_append_left (List.getElem?_eq_some_iff.mp h).1, h]
  | a :: l, p + 1, i, x, h => by
    rw [List.getElem?_cons_succ] at h
    rw [List.take_succ_cons, List.flatten_cons, List.flatten_cons, List.length_append, Nat.add_assoc,
      List.getElem?_append_right (by omega), Nat.add_sub_cancel_left]
    exact getElem?_flatten_of_bind l p i h

/-- Erasing element `i` of list `p` erases element `offset + i` of the concatenation. -/
theorem flatten_modify_eraseIdx : ∀ (l : List (List α)) (p i : Nat),
    (l[p]?.bind (·[i]?)).isSome →
      (l.modify (·.eraseIdx i) p).flatten = l.flatten.eraseIdx ((l.take p).flatten.length + i)
  | [], _, _, h => by simp at h
  | a :: l, 0, i, h => by
    simp only [List.getElem?_cons_zero, Option.some_bind, Option.isSome_iff_exists,
      List.getElem?_eq_some_iff] at h
    obtain ⟨_, hi, -⟩ := h
    rw [List.modify_zero_cons, List.take_zero, List.flatten_nil, List.length_nil, Nat.zero_add,
      List.flatten_cons, List.flatten_cons, List.eraseIdx_append_of_lt_length hi]
  | a :: l, p + 1, i, h => by
    rw [List.getElem?_cons_succ] at h
    rw [List.modify_succ_cons, List.take_succ_cons, List.flatten_cons, List.flatten_cons,
      List.flatten_cons, List.length_append, Nat.add_assoc,
      List.eraseIdx_append_of_length_le (by omega), Nat.add_sub_cancel_left,
      flatten_modify_eraseIdx l p i h]

theorem modify_append_singleton (f : α → α) (a : α) :
    ∀ l : List α, (l ++ [a]).modify f l.length = l ++ [f a]
  | [] => rfl
  | b :: l => by
    rw [List.cons_append, List.length_cons, List.modify_succ_cons, modify_append_singleton f a l]
    rfl

theorem modify_congr_getElem? {l : List α} {k : Nat} {f g : α → α}
    (h : ∀ x, l[k]? = some x → f x = g x) : l.modify f k = l.modify g k := by
  refine List.ext_getElem? fun n => ?_
  rw [List.getElem?_modify, List.getElem?_modify]
  by_cases hn : k = n
  · subst hn
    cases hx : l[k]? with
    | none => rfl
    | some x => simp [h x hx]
  · simp [hn]

theorem modify_id_getElem? {l : List α} {k : Nat} {f : α → α}
    (h : ∀ x, l[k]? = some x → f x = x) : l.modify f k = l := by
  rw [modify_congr_getElem? (g := id) h]
  refine List.ext_getElem? fun n => ?_
  rw [List.getElem?_modify]
  cases l[n]? <;> simp

theorem exists_of_mem_modify {l : List α} {f : α → α} {k : Nat} {x : α} (h : x ∈ l.modify f k) :
    ∃ y ∈ l, x = y ∨ x = f y := by
  obtain ⟨n, hn⟩ := List.mem_iff_getElem?.mp h
  rw [List.getElem?_modify] at hn
  cases hy : l[n]? with
  | none => simp [hy] at hn
  | some y =>
    refine ⟨y, List.getElem?_mem hy, ?_⟩
    simp only [hy, Option.map_eq_map, Option.map_some', Option.some.injEq] at hn
    split at hn
    · exact .inr hn.symm
    · exact .inl hn.symm

end Flatten

/-! ## How the code lays out a table -/

/-- A page holding `rows`. -/
def Page.ofRows (pageSize : Int) (rows : List Row) : Page := ⟨pageSize, rows, rows.length, rfl⟩

/-- The pages `pages` under the keys `id`, `id + 1`, …, in order. -/
def pageStore (pageSize : Int) : Nat → List (List Row) → List (Int × Page)
  | _, [] => []
  | id, rows :: pages => ((id : Int), Page.ofRows pageSize rows) :: pageStore pageSize (id + 1) pages

/-- How the code stores a table of the specification. -/
def Spec.Table.impl (s : Spec.Table) : Formats.Table :=
  ⟨pageStore s.pageSize 0 s.pages, s.pageSize, s.pages.length - 1⟩

namespace Page

variable (pageSize : Int) (rows : List Row)

theorem insertRow_ofRows (row : Row) : (ofRows pageSize rows).insertRow row =
    if (rows.length : Int) < pageSize then (true, ofRows pageSize (rows ++ [row]))
    else (false, ofRows pageSize rows) := by
  unfold insertRow ofRows
  dsimp only
  split_ifs <;> simp_all; omega

theorem deleteRow_ofRows (rowIndex : Int) : (ofRows pageSize rows).deleteRow rowIndex =
    if 0 ≤ rowIndex ∧ rowIndex < rows.length then
      (true, ofRows pageSize (rows.eraseIdx rowIndex.toNat))
    else (false, ofRows pageSize rows) := by
  unfold deleteRow ofRows
  dsimp only
  split_ifs with h h'
  · omega
  · rfl
  · simp only [Prod.mk.injEq, mk.injEq, true_and]
    rw [List.length_eraseIdx, if_pos (by omega)]
    omega
  · omega

theorem getRow_ofRows (rowIndex : Int) :
    (ofRows pageSize rows).getRow rowIndex = if rowIndex < 0 then none else rows[rowIndex.toNat]? := by
  unfold getRow ofRows
  dsimp only
  split_ifs with h h' <;> first | rfl | omega | skip
  exact (List.getElem?_eq_none (by omega)).symm

end Page

section Layout

variable (pageSize : Int)

theorem lookup_pageStore : ∀ (id : Nat) (pages : List (List Row)) (k : Int),
    (pageStore pageSize id pages).lookup k =
      if k < id then none else pages[(k - id).toNat]?.map (Page.ofRows pageSize)
  | id, [], k => by split <;> rfl
  | id, rows :: pages, k => by
    rw [pageStore, List.lookup_cons]
    by_cases hk : k = id
    · subst hk; simp
    · rw [beq_false_of_ne hk]
      simp only [lookup_pageStore (id + 1) pages k]
      by_cases hlt : k < id
      · rw [if_pos (by omega), if_pos hlt]
      · rw [if_neg (by omega), if_neg hlt, show (k - id).toNat = (k - (id + 1 : Nat)).toNat + 1 by omega,
          List.getElem?_cons_succ]

theorem pageStore_append (rows : List Row) : ∀ (id : Nat) (pages : List (List Row)),
    pageStore pageSize id (pages ++ [rows]) =
      pageStore pageSize id pages ++ [(((id + pages.length : Nat) : Int), Page.ofRows pageSize rows)]
  | id, [] => rfl
  | id, r :: pages => by
    rw [List.cons_append, pageStore, pageStore, pageStore_append rows (id + 1) pages, List.length_cons,
      Nat.add_assoc, Nat.add_comm 1, List.cons_append]

theorem rows_pageStore : ∀ (id : Nat) (pages : List (List Row)),
    (pageStore pageSize id pages).map (·.2.rows) = pages
  | _, [] => rfl
  | id, rows :: pages => congrArg (rows :: ·) (rows_pageStore (id + 1) pages)

theorem length_pageStore (id : Nat) (pages : List (List Row)) :
    (pageStore pageSize id pages).length = pages.length := by
  rw [← List.length_map _ (·.2.rows), rows_pageStore]

theorem mem_pageStore : ∀ {id : Nat} {pages : List (List Row)} {e : Int × Page},
    e ∈ pageStore pageSize id pages → ∃ rows ∈ pages, e.2 = Page.ofRows pageSize rows
  | _, [], _, h => absurd h (List.not_mem_nil _)
  | id, rows :: pages, e, h => by
    rcases List.mem_cons.mp h with rfl | h
    · exact ⟨rows, List.mem_cons_self _ _, rfl⟩
    · obtain ⟨r, hr, he⟩ := mem_pageStore h
      exact ⟨r, List.mem_cons_of_mem _ hr, he⟩

/-- Changing the page under the key `k` changes the page at position `k - id`. -/
theorem modify_pageStore {g : Page → Page} {f : List Row → List Row}
    (hg : ∀ rows, g (Page.ofRows pageSize rows) = Page.ofRows pageSize (f rows)) (k : Int) :
    ∀ (id : Nat) (pages : List (List Row)), modify (pageStore pageSize id pages) k g =
      pageStore pageSize id (if id ≤ k then pages.modify f (k - id).toNat else pages)
  | id, [] => by split <;> simp [pageStore, modify]
  | id, rows :: pages => by
    have ih := modify_pageStore hg k (id + 1) pages
    simp only [modify, List.map_cons, pageStore] at ih ⊢
    by_cases hk : (id : Int) = k
    · subst hk
      rw [if_pos rfl, ih, if_neg (by omega), if_pos le_rfl, Int.sub_self, Int.toNat_zero,
        List.modify_zero_cons, pageStore, hg]
    · rw [if_neg hk, ih]
      by_cases hle : (id : Int) ≤ k
      · rw [if_pos (by omega), if_pos hle, show (k - id).toNat = (k - (id + 1 : Nat)).toNat + 1 by omega,
          List.modify_succ_cons, pageStore]
      · rw [if_neg (by omega), if_neg hle, pageStore]

theorem foldl_rowCount_pageStore : ∀ (id : Nat) (pages : List (List Row)) (acc : Int), 0 ≤ acc →
    acc + pages.flatten.length < 2147483648 →
      (pageStore pageSize id pages).foldl (fun totalRows e => int32 (totalRows + e.2.getRowCount)) acc =
        acc + pages.flatten.length
  | _, [], acc, _, _ => by simp [pageStore]
  | id, rows :: pages, acc, h0, h1 => by
    rw [List.flatten_cons, List.length_append] at h1 ⊢
    have hcount : ((id : Int), Page.ofRows pageSize rows).2.getRowCount = rows.length := rfl
    rw [pageStore, List.foldl_cons, hcount, int32_of_bounds (by omega) (by omega),
      foldl_rowCount_pageStore (id + 1) pages _ (by omega) (by omega)]
    omega

end Layout

namespace Spec.Table

variable (s : Spec.Table)

theorem lookup_impl (k : Int) : s.impl.pages.lookup k =
    if k < 0 then none else s.pages[k.toNat]?.map (Page.ofRows s.pageSize) := by
  simp [impl, lookup_pageStore]

theorem rows_impl : s.impl.rows = s.rows := by
  rw [Formats.Table.rows, impl, rows_pageStore]
  rfl

/-- The rows of the code's first `k` pages are the rows of the specification's first `k`. -/
theorem flatten_take_impl (k : Nat) :
    ((s.impl.pages.take k).map (·.2.rows)).flatten = (s.pages.take k).flatten := by
  rw [List.map_take]
  exact congrArg (fun pages => (pages.take k).flatten) (rows_pageStore s.pageSize 0 s.pages)

theorem getRow_of_getElem? {pageId : Int} (hp : 0 ≤ pageId) {rows : List Row}
    (hpage : s.pages[pageId.toNat]? = some rows) (rowIndex : Int) :
    s.getRow pageId rowIndex = if rowIndex < 0 then none else rows[rowIndex.toNat]? := by
  by_cases hi : rowIndex < 0 <;> simp [getRow, hp, hpage, hi]

theorem getRow_impl (pageId rowIndex : Int) :
    s.impl.getRow pageId rowIndex = s.getRow pageId rowIndex := by
  rw [Formats.Table.getRow, lookup_impl]
  by_cases hp : pageId < 0
  · simp [getRow, hp]
  · cases hpage : s.pages[pageId.toNat]? with
    | none => simp [getRow, hp, hpage]
    | some rows =>
      rw [if_neg hp, Option.map_some', Option.some_bind, Page.getRow_ofRows,
        getRow_of_getElem? s (by omega) hpage]

theorem modify_impl {g : Page → Page} {f : List Row → List Row}
    (hg : ∀ rows, g (Page.ofRows s.pageSize rows) = Page.ofRows s.pageSize (f rows)) (k : Int) :
    modify s.impl.pages k g = pageStore s.pageSize 0 (if 0 ≤ k then s.pages.modify f k.toNat else s.pages) := by
  rw [impl, modify_pageStore s.pageSize hg]
  by_cases hk : 0 ≤ k
  · rw [if_pos (by omega), if_pos hk, show (k - ((0 : Nat) : Int)).toNat = k.toNat by omega]
  · rw [if_neg (by omega), if_neg hk]

theorem deleteRow_impl (pageId rowIndex : Int) : s.impl.deleteRow pageId rowIndex =
    ((s.deleteRow pageId rowIndex).1, (s.deleteRow pageId rowIndex).2.impl) := by
  rw [Formats.Table.deleteRow, lookup_impl]
  by_cases hp : pageId < 0
  · simp [hp, deleteRow, getRow]
  cases hpage : s.pages[pageId.toNat]? with
  | none => simp [hp, hpage, deleteRow, getRow]
  | some rows =>
    let f := fun rows : List Row =>
      if 0 ≤ rowIndex ∧ rowIndex < rows.length then rows.eraseIdx rowIndex.toNat else rows
    have hg : ∀ rows, ((Page.ofRows s.pageSize rows).deleteRow rowIndex).2 =
        Page.ofRows s.pageSize (f rows) := fun rows => by
      rw [Page.deleteRow_ofRows]; simp only [f]; split <;> rfl
    simp only [if_neg hp, hpage, Option.map_some', Page.deleteRow_ofRows]
    rw [modify_impl s hg, if_pos (show 0 ≤ pageId by omega), deleteRow,
      getRow_of_getElem? s (by omega) hpage]
    by_cases hi : 0 ≤ rowIndex ∧ rowIndex < rows.length
    · have hF : s.pages.modify f pageId.toNat = s.pages.modify (·.eraseIdx rowIndex.toNat) pageId.toNat :=
        modify_congr_getElem? fun x hx => by
          rw [hpage] at hx; cases hx; exact if_pos hi
      rw [if_pos hi, if_neg (show ¬rowIndex < 0 by omega), List.getElem?_eq_getElem (by omega),
        Option.isSome_some, if_pos rfl, hF]
      simp [impl, modifyPage]
    · have hF : s.pages.modify f pageId.toNat = s.pages :=
        modify_id_getElem? fun x hx => by
          rw [hpage] at hx; cases hx; exact if_neg hi
      rw [if_neg hi, hF, if_neg]
      · rfl
      · split
        · simp
        · rw [List.getElem?_eq_none (by omega)]; simp

theorem currentPageId_impl : s.impl.currentPageId = s.pages.length - 1 := rfl

theorem insertRow_impl (rowData : List String) (h : s.pages.length < 2147483648) :
    s.impl.insertRow rowData = some ((s.insertRow ⟨rowData⟩).1, (s.insertRow ⟨rowData⟩).2.impl) := by
  have hlen : 0 < s.pages.length := List.length_pos.mpr s.pages_ne_nil
  let f := fun rows : List Row => if (rows.length : Int) < s.pageSize then rows ++ [⟨rowData⟩] else rows
  have hg : ∀ rows, ((Page.ofRows s.pageSize rows).insertRow ⟨rowData⟩).2 =
      Page.ofRows s.pageSize (f rows) := fun rows => by
    rw [Page.insertRow_ofRows]; simp only [f]; split <;> rfl
  have hcur : s.pages[s.pages.length - 1]? = some s.current := by
    rw [current, List.getLast_eq_getElem]; exact List.getElem?_eq_getElem _
  have hid : ((s.pages.length : Int) - 1).toNat = s.pages.length - 1 := by omega
  have hlookup : s.impl.pages.lookup s.impl.currentPageId = some (Page.ofRows s.pageSize s.current) := by
    rw [lookup_impl, currentPageId_impl, if_neg (show ¬((s.pages.length : Int) - 1 < 0) by omega), hid,
      hcur]
    rfl
  rw [Formats.Table.insertRow, hlookup, Option.bind_eq_bind, Option.some_bind, Page.insertRow_ofRows,
    insertRow]
  by_cases hroom : (s.current.length : Int) < s.pageSize
  · have hF : s.pages.modify f (s.pages.length - 1) =
        s.pages.modify (· ++ [⟨rowData⟩]) (s.pages.length - 1) :=
      modify_congr_getElem? fun x hx => by
        rw [hcur] at hx; cases hx; exact if_pos hroom
    simp only [if_pos hroom, if_true]
    rw [modify_impl s hg, currentPageId_impl,
      if_pos (show (0 : Int) ≤ (s.pages.length : Int) - 1 by omega), hid, hF]
    simp only [impl, modifyPage, List.length_modify]
    rfl
  · have hnew : int32 (s.impl.currentPageId + 1) = s.pages.length := by
      rw [currentPageId_impl, Int.sub_add_cancel, int32_of_bounds (by omega) (by omega)]
    have hfresh : (s.pages.length : Int) ∉ s.impl.pages.map (·.1) := lookup_eq_none_iff.mp (by
      rw [lookup_impl, if_neg (by omega)]; simp)
    have happend : assign s.impl.pages s.pages.length (Page.new s.impl.pageSize) =
        pageStore s.pageSize 0 (s.pages ++ [[]]) := by
      rw [assign_of_not_mem hfresh, impl, pageStore_append, Nat.zero_add]
      rfl
    have hlast : (s.pages ++ [[]]).modify f s.pages.length = s.pages ++ [f []] :=
      modify_append_singleton f [] s.pages
    simp only [if_neg hroom, if_false]
    rw [hnew, happend, modify_pageStore s.pageSize hg,
      if_pos (show ((0 : Nat) : Int) ≤ s.pages.length by omega),
      show ((s.pages.length : Int) - ((0 : Nat) : Int)).toNat = s.pages.length by omega, hlast,
      show Page.new s.impl.pageSize = Page.ofRows s.pageSize [] from rfl, Page.insertRow_ofRows]
    by_cases hpos : 0 < s.pageSize <;> simp [f, hpos, impl, addPage]

theorem getRowCount_impl (h : s.rows.length < 2147483648) : s.impl.getRowCount = s.rows.length := by
  rw [rows] at h ⊢
  rw [Formats.Table.getRowCount, impl, foldl_rowCount_pageStore s.pageSize 0 s.pages 0 le_rfl (by omega),
    Int.zero_add]

theorem new_impl (pageSize : Int) : (new pageSize).impl = .new pageSize := rfl

theorem step_impl (c : TableCall) (hp : s.pages.length < 2147483648)
    (hr : s.rows.length < 2147483648) : s.impl.step c = some ((s.step c).1, (s.step c).2.impl) := by
  cases c with
  | insertRow rowData => rw [Formats.Table.step, insertRow_impl s rowData hp]; rfl
  | deleteRow pageId rowIndex => rw [Formats.Table.step, deleteRow_impl]; rfl
  | getRow pageId rowIndex => rw [Formats.Table.step, getRow_impl]; rfl
  | getRowCount => rw [Formats.Table.step, getRowCount_impl s hr]; rfl

/-! ## What the specification keeps -/

/-- No page holds more rows than the page size allows. -/
def Fits (t : Spec.Table) : Prop := ∀ page ∈ t.pages, (page.length : Int) ≤ max t.pageSize 0

theorem pages_modifyPage_last (t : Spec.Table) (f : List Row → List Row) :
    (t.modifyPage (t.pages.length - 1) f).pages = t.pages.dropLast ++ [f t.current] := by
  have h := List.dropLast_append_getLast t.pages_ne_nil
  show t.pages.modify f (t.pages.length - 1) = _
  calc t.pages.modify f (t.pages.length - 1)
      = (t.pages.dropLast ++ [t.current]).modify f t.pages.dropLast.length := by
        rw [current, h, List.length_dropLast]
    _ = _ := modify_append_singleton f t.current t.pages.dropLast

theorem rows_insertRow (t : Spec.Table) (row : Row) :
    (t.insertRow row).2.rows = if 0 < t.pageSize then t.rows ++ [row] else t.rows := by
  have h := List.dropLast_append_getLast t.pages_ne_nil
  unfold insertRow
  split_ifs with hroom hpos
  · rw [rows, pages_modifyPage_last, rows]
    conv_rhs => rw [← h]
    rw [List.flatten_append, List.flatten_append, List.flatten_singleton, List.flatten_singleton,
      List.append_assoc]
    rfl
  · omega
  · simp [rows, addPage]
  · simp [rows, addPage]

theorem pageSize_insertRow (t : Spec.Table) (row : Row) : (t.insertRow row).2.pageSize = t.pageSize := by
  unfold insertRow
  split_ifs <;> rfl

theorem insertRow_fst (t : Spec.Table) (row : Row) : (t.insertRow row).1 = decide (0 < t.pageSize) := by
  unfold insertRow
  split_ifs with hroom hpos
  · exact (decide_eq_true (by omega)).symm
  · exact (decide_eq_true hpos).symm
  · exact (decide_eq_false hpos).symm

theorem insertRow_of_nonpos {t : Spec.Table} (h : t.pageSize ≤ 0) (row : Row) :
    t.insertRow row = (false, t.addPage []) := by
  rw [insertRow, if_neg (by omega), if_neg (by omega)]

theorem length_pages_insertRow (t : Spec.Table) (row : Row) :
    (t.insertRow row).2.pages.length ≤ t.pages.length + 1 := by
  unfold insertRow
  split_ifs <;> simp [modifyPage, addPage]

/-- The row at an address is at position `offset + rowIndex` of the rows, `offset` the number
    of rows on the pages before. -/
theorem getElem?_rows_of_getRow {t : Spec.Table} {pageId rowIndex : Int} {row : Row}
    (h : t.getRow pageId rowIndex = some row) :
    t.rows[(t.pages.take pageId.toNat).flatten.length + rowIndex.toNat]? = some row := by
  unfold getRow at h
  split_ifs at h
  exact getElem?_flatten_of_bind t.pages _ _ h

/-- A delete at an address that holds a row erases it from its position in the rows. -/
theorem deleteRow_of_isSome {t : Spec.Table} {pageId rowIndex : Int}
    (h : (t.getRow pageId rowIndex).isSome) : (t.deleteRow pageId rowIndex).1 = true ∧
      (t.deleteRow pageId rowIndex).2.rows =
        t.rows.eraseIdx ((t.pages.take pageId.toNat).flatten.length + rowIndex.toNat) := by
  rw [deleteRow, if_pos h]
  refine ⟨rfl, ?_⟩
  unfold getRow at h
  split_ifs at h
  · simp at h
  · exact flatten_modify_eraseIdx t.pages _ _ h

theorem deleteRow_of_getRow_none {t : Spec.Table} {pageId rowIndex : Int}
    (h : t.getRow pageId rowIndex = none) : t.deleteRow pageId rowIndex = (false, t) := by
  rw [deleteRow, h]
  rfl

theorem pageSize_deleteRow (t : Spec.Table) (pageId rowIndex : Int) :
    (t.deleteRow pageId rowIndex).2.pageSize = t.pageSize := by
  unfold deleteRow
  split <;> rfl

theorem length_pages_deleteRow (t : Spec.Table) (pageId rowIndex : Int) :
    (t.deleteRow pageId rowIndex).2.pages.length = t.pages.length := by
  unfold deleteRow
  split <;> simp [modifyPage]

theorem length_rows_deleteRow (t : Spec.Table) (pageId rowIndex : Int) :
    (t.deleteRow pageId rowIndex).2.rows.length ≤ t.rows.length := by
  cases h : t.getRow pageId rowIndex with
  | none => rw [deleteRow_of_getRow_none h]
  | some row =>
    rw [(deleteRow_of_isSome (h ▸ rfl : (t.getRow pageId rowIndex).isSome)).2]
    exact List.length_eraseIdx_le _ _

theorem Fits.insertRow {t : Spec.Table} (h : t.Fits) (row : Row) : (t.insertRow row).2.Fits := by
  have hcur := h t.current (List.getLast_mem t.pages_ne_nil)
  unfold Spec.Table.insertRow
  split_ifs with hroom hpos
  · intro page hpage
    rw [pages_modifyPage_last, List.mem_append, List.mem_singleton] at hpage
    rcases hpage with hpage | rfl
    · exact h page (List.dropLast_subset _ hpage)
    · simp only [modifyPage, List.length_append, List.length_singleton]; omega
  all_goals
    intro page hpage
    rcases List.mem_append.mp hpage with hpage | hpage
    · exact h page hpage
    · rw [List.mem_singleton.mp hpage]
      simp only [addPage, List.length_singleton, List.length_nil]
      omega

theorem Fits.deleteRow {t : Spec.Table} (h : t.Fits) (pageId rowIndex : Int) :
    (t.deleteRow pageId rowIndex).2.Fits := by
  unfold Spec.Table.deleteRow
  split
  · intro page hpage
    obtain ⟨y, hy, rfl | rfl⟩ := exists_of_mem_modify hpage
    · exact h page hy
    · have := List.length_eraseIdx_le y rowIndex.toNat
      have := h y hy
      simp only [modifyPage]; omega
  · exact h

theorem fits_new (pageSize : Int) : (new pageSize).Fits := by
  intro page hpage
  rw [List.mem_singleton.mp hpage]
  simp only [new, List.length_nil]; omega

/-- A call adds at most one page and one row, and only an insert does; the page size stays and
    the pages keep to it. -/
theorem step_bounds (t : Spec.Table) (c : TableCall) :
    (t.step c).2.pageSize = t.pageSize ∧
      (t.step c).2.pages.length ≤ t.pages.length + (if c.isInsert then 1 else 0) ∧
      (t.step c).2.rows.length ≤ t.rows.length + (if c.isInsert then 1 else 0) ∧
      (t.Fits → (t.step c).2.Fits) := by
  cases c with
  | insertRow rowData =>
    refine ⟨pageSize_insertRow t _, length_pages_insertRow t _, ?_, fun h => h.insertRow _⟩
    simp only [step, rows_insertRow, TableCall.isInsert]
    split <;> simp
  | deleteRow pageId rowIndex =>
    refine ⟨pageSize_deleteRow t _ _, (length_pages_deleteRow t _ _).le,
      length_rows_deleteRow t _ _, fun h => h.deleteRow _ _⟩
  | getRow pageId rowIndex => exact ⟨rfl, le_rfl, le_rfl, id⟩
  | getRowCount => exact ⟨rfl, le_rfl, le_rfl, id⟩

theorem run_bounds : ∀ (t : Spec.Table) (calls : List TableCall),
    (t.run calls).2.pageSize = t.pageSize ∧
      (t.run calls).2.pages.length ≤ t.pages.length + calls.countP (·.isInsert) ∧
      (t.run calls).2.rows.length ≤ t.rows.length + calls.countP (·.isInsert) ∧
      (t.Fits → (t.run calls).2.Fits)
  | t, [] => ⟨rfl, le_rfl, le_rfl, id⟩
  | t, c :: calls => by
    obtain ⟨h1, h2, h3, h4⟩ := step_bounds t c
    obtain ⟨i1, i2, i3, i4⟩ := run_bounds (t.step c).2 calls
    have hc : (if c.isInsert then 1 else 0) ≤ 1 := by split <;> omega
    rw [List.countP_cons]
    exact ⟨i1.trans h1, by simp only [run]; omega, by simp only [run]; omega, fun h => i4 (h4 h)⟩

theorem run_impl : ∀ (calls : List TableCall) (s : Spec.Table),
    s.pages.length + calls.countP (·.isInsert) < 2147483648 →
    s.rows.length + calls.countP (·.isInsert) < 2147483648 →
      s.impl.run calls = some ((s.run calls).1, (s.run calls).2.impl)
  | [], s, _, _ => rfl
  | c :: calls, s, hp, hr => by
    obtain ⟨-, h2, h3, -⟩ := step_bounds s c
    have hc : (if c.isInsert then 1 else 0) ≤ 1 := by split <;> omega
    rw [List.countP_cons] at hp hr
    rw [Formats.Table.run, step_impl s c (by omega) (by omega), Option.bind_eq_bind, Option.some_bind]
    dsimp only
    rw [run_impl calls _ (by omega) (by omega)]
    rfl

end Spec.Table

/-! ## The code refines the specification -/

theorem run_refines (pageSize : Int) (calls : List TableCall)
    (hinserts : calls.countP (·.isInsert) < 2147483647) :
    (Table.new pageSize).run calls = some (((Spec.Table.new pageSize).run calls).1,
      ((Spec.Table.new pageSize).run calls).2.impl) := by
  rw [← Spec.Table.new_impl]
  exact Spec.Table.run_impl calls _ (by simp only [Spec.Table.new]; simp; omega)
    (by simp only [Spec.Table.new, Spec.Table.rows]; simp; omega)

/-- The calls `main` makes on the table `Users` (lines 176–189). -/
def mainCalls : List TableCall :=
  [.insertRow ["1", "Person1", "person1@website.com"],
   .insertRow ["2", "Person2", "person2@website.com"],
   .insertRow ["3", "Person3", "person3@website.com"],
   .insertRow ["4", "Person4", "person4@website.com"],
   .getRow 0 1, .deleteRow 0 1]

theorem run_refines_main : mainCalls.countP (·.isInsert) < 2147483647 ∧
    (Table.new 3).run mainCalls = some (((Spec.Table.new 3).run mainCalls).1,
      ((Spec.Table.new 3).run mainCalls).2.impl) :=
  ⟨by decide, run_refines 3 mainCalls (by decide)⟩

example : ((Table.new 3).run mainCalls).map (·.1) =
    some [.inserted true, .inserted true, .inserted true, .inserted true,
      .row (some ⟨["2", "Person2", "person2@website.com"]⟩), .deleted true] := by decide

/-- The tables that calls with fewer than `2^31 - 1` inserts reach from `Table(pageSize)`. -/
def Table.Reachable (pageSize : Int) (t : Table) : Prop :=
  ∃ calls : List TableCall, calls.countP (·.isInsert) < 2147483647 ∧
    ∃ results, (Table.new pageSize).run calls = some (results, t)

/-- A reachable table is the layout of a specification table that keeps to its page size. -/
theorem Table.Reachable.exists_spec {pageSize : Int} {t : Table} (h : t.Reachable pageSize) :
    ∃ s : Spec.Table, t = s.impl ∧ s.pageSize = pageSize ∧ s.pages.length < 2147483648 ∧
      s.rows.length < 2147483647 ∧ s.Fits := by
  obtain ⟨calls, hinserts, results, hrun⟩ := h
  rw [run_refines pageSize calls hinserts] at hrun
  obtain ⟨h1, h2, h3, h4⟩ := Spec.Table.run_bounds (.new pageSize) calls
  refine ⟨_, (Prod.mk.inj (Option.some.inj hrun)).2.symm, h1, ?_, ?_, h4 (Spec.Table.fits_new pageSize)⟩
  · have : (Spec.Table.new pageSize).pages.length = 1 := rfl
    omega
  · have : (Spec.Table.new pageSize).rows.length = 0 := rfl
    omega

theorem reachable_rows {pageSize : Int} {t : Table} (h : t.Reachable pageSize) :
    t.getRowCount = t.rows.length ∧
    (∀ pageId rowIndex row, t.getRow pageId rowIndex = some row →
      t.rows[((t.pages.take pageId.toNat).map (·.2.rows)).flatten.length + rowIndex.toNat]? =
        some row ∧
      (t.deleteRow pageId rowIndex).1 = true ∧ (t.deleteRow pageId rowIndex).2.rows =
        t.rows.eraseIdx (((t.pages.take pageId.toNat).map (·.2.rows)).flatten.length +
          rowIndex.toNat)) ∧
    (∀ pageId rowIndex, t.getRow pageId rowIndex = none → t.deleteRow pageId rowIndex = (false, t)) ∧
    (0 < pageSize → (∀ e ∈ t.pages, e.2.getRowCount ≤ pageSize) ∧
      ∀ rowData, ∃ t', t.insertRow rowData = some (true, t') ∧ t'.rows = t.rows ++ [⟨rowData⟩]) := by
  obtain ⟨s, rfl, hsize, hpages, hrows, hfits⟩ := h.exists_spec
  refine ⟨by rw [s.getRowCount_impl (by omega), s.rows_impl], fun pageId rowIndex row hrow => ?_,
    fun pageId rowIndex hnone => ?_, fun hpos => ⟨fun e he => ?_, fun rowData => ?_⟩⟩
  · rw [s.getRow_impl] at hrow
    obtain ⟨hdel, hrows'⟩ := Spec.Table.deleteRow_of_isSome (by rw [hrow]; rfl)
    rw [s.flatten_take_impl, s.deleteRow_impl]
    dsimp only
    rw [Spec.Table.rows_impl, Spec.Table.rows_impl, hrows']
    exact ⟨Spec.Table.getElem?_rows_of_getRow hrow, hdel, rfl⟩
  · rw [s.getRow_impl] at hnone
    rw [s.deleteRow_impl, Spec.Table.deleteRow_of_getRow_none hnone]
  · obtain ⟨rows, hmem, he⟩ := mem_pageStore s.pageSize he
    have := hfits rows hmem
    rw [he]
    show (rows.length : Int) ≤ pageSize
    omega
  · refine ⟨_, by rw [s.insertRow_impl rowData (by omega), Spec.Table.insertRow_fst, hsize,
      decide_eq_true hpos], ?_⟩
    rw [Spec.Table.rows_impl, Spec.Table.rows_insertRow, s.rows_impl, hsize, if_pos hpos]

theorem reachable_rows_main : ∃ t : Table, t.Reachable 3 ∧
    t.getRowCount = t.rows.length ∧
    (∀ pageId rowIndex row, t.getRow pageId rowIndex = some row →
      t.rows[((t.pages.take pageId.toNat).map (·.2.rows)).flatten.length + rowIndex.toNat]? =
        some row ∧
      (t.deleteRow pageId rowIndex).1 = true ∧ (t.deleteRow pageId rowIndex).2.rows =
        t.rows.eraseIdx (((t.pages.take pageId.toNat).map (·.2.rows)).flatten.length +
          rowIndex.toNat)) ∧
    (∀ pageId rowIndex, t.getRow pageId rowIndex = none → t.deleteRow pageId rowIndex = (false, t)) ∧
    ((0 : Int) < 3 → (∀ e ∈ t.pages, e.2.getRowCount ≤ 3) ∧
      ∀ rowData, ∃ t', t.insertRow rowData = some (true, t') ∧ t'.rows = t.rows ++ [⟨rowData⟩]) :=
  have h : Table.Reachable 3 (((Table.new 3).run mainCalls).getD ([], .new 3)).2 :=
    ⟨mainCalls, by decide, _, rfl⟩
  ⟨_, h, reachable_rows h⟩

/-- With a page size of at most `0` a table holds no row, and every insert fails and adds an
    empty page. -/
theorem reachable_nonpositive_pageSize {pageSize : Int} (hsize : pageSize ≤ 0) {t : Table}
    (h : t.Reachable pageSize) : t.rows = [] ∧ ∀ rowData, ∃ t', t.insertRow rowData = some (false, t') ∧
      t'.rows = [] ∧ t'.currentPageId = t.currentPageId + 1 ∧ t'.pages.length = t.pages.length + 1 := by
  obtain ⟨s, rfl, hps, hpages, -, hfits⟩ := h.exists_spec
  have hempty : s.rows = [] := List.flatten_eq_nil_iff.mpr fun page hpage =>
    List.eq_nil_of_length_eq_zero (by have := hfits page hpage; omega)
  have hadd := Spec.Table.insertRow_of_nonpos (t := s) (by omega)
  refine ⟨s.rows_impl ▸ hempty, fun rowData =>
    ⟨_, by rw [s.insertRow_impl rowData (by omega), hadd], ?_, ?_, ?_⟩⟩
  · rw [Spec.Table.rows_impl]
    simpa [Spec.Table.rows, Spec.Table.addPage] using hempty
  · simp [hadd, Spec.Table.impl, Spec.Table.addPage]
  · simp [hadd, Spec.Table.impl, Spec.Table.addPage, length_pageStore]

theorem reachable_nonpositive_pageSize_insertRow : (0 : Int) ≤ 0 ∧ ∃ t : Table, t.Reachable 0 ∧
    t.rows = [] ∧ ∀ rowData, ∃ t', t.insertRow rowData = some (false, t') ∧
      t'.rows = [] ∧ t'.currentPageId = t.currentPageId + 1 ∧ t'.pages.length = t.pages.length + 1 :=
  have h : Table.Reachable 0 (((Table.new 0).run [.insertRow ["1"]]).getD ([], .new 0)).2 :=
    ⟨[.insertRow ["1"]], by decide, _, rfl⟩
  ⟨le_rfl, _, h, reachable_nonpositive_pageSize le_rfl h⟩

end HpDb.Storage.Formats
