import HpDb.Storage.RowStore

/-!
# The tables of a row store (storage/storage_formats/row_store.cpp, `class RowStore`)

`RowStore` keeps its tables in an `unordered_map<string, shared_ptr<Table>>` and reports each
call on standard output. Every call names a table: `createTable` adds a table unless the name is
taken, and the other calls look the table up, report `Table does not exist.` when it is missing,
and otherwise call the `Table` method on it and report what it returned.

The map is the list of its entries. `tables[tableName]` on a name the map holds is its entry,
which the call's `Table` method changes; on a name it lacks, which only `createTable` reaches, it
appends an entry. A call's output is the list of the lines it prints. `displayTable` prints the
pages in the iteration order of the map of pages, which C++ leaves unspecified, and is left out.

Results:
* `step_missing_table`, `createTable_taken`: a call on a table the store lacks prints
  `Table does not exist.` and changes nothing, and `createTable` on a name the store holds prints
  `Table already exists.` and changes nothing.
* `lookup_step_of_ne`: a call on one table leaves every other table as it was.
* `lookup_step_self`: a call on a table the store holds runs the `Table` method on it, and prints
  what `report` makes of the method's result.
* `run_lookup`: over every run, a table the store holds goes through the `Table` calls on it and
  through nothing else.
* `run_createTable_refines`: a table a run creates is, at the end of the run, the layout of the
  specification table after the calls on it, while they hold fewer than `2^31 - 1` inserts.
-/

namespace HpDb.Storage.Formats

/-- `class RowStore` (lines 117–171): the map from table names to tables. -/
structure RowStore where
  tables : List (String × Table)
  deriving DecidableEq, Repr

/-- A call on a row store. -/
inductive StoreCall where
  | createTable (tableName : String) (pageSize : Int)
  | insertRow (tableName : String) (rowData : List String)
  | deleteRow (tableName : String) (pageId rowIndex : Int)
  | getRow (tableName : String) (pageId rowIndex : Int)
  deriving DecidableEq, Repr

namespace StoreCall

/-- The table a call names. -/
def tableName : StoreCall → String
  | .createTable tableName _ => tableName
  | .insertRow tableName _ => tableName
  | .deleteRow tableName _ _ => tableName
  | .getRow tableName _ _ => tableName

/-- The `Table` method a call makes on its table, if it finds it. -/
def tableCall? : StoreCall → Option TableCall
  | .createTable _ _ => none
  | .insertRow _ rowData => some (.insertRow rowData)
  | .deleteRow _ pageId rowIndex => some (.deleteRow pageId rowIndex)
  | .getRow _ pageId rowIndex => some (.getRow pageId rowIndex)

/-- The `Table` method a call makes on the table `name`. -/
def tableCallOn (name : String) (call : StoreCall) : Option TableCall :=
  if call.tableName = name then call.tableCall? else none

end StoreCall

namespace RowStore

/-- `tables[tableName] = table` on a name the map holds. -/
def setTable (store : RowStore) (tableName : String) (table : Table) : RowStore :=
  ⟨store.tables.map fun e => if e.1 = tableName then (tableName, table) else e⟩

/-- `RowStore::createTable` (lines 122–129). -/
def createTable (store : RowStore) (tableName : String) (pageSize : Int) : List String × RowStore :=
  if (store.tables.lookup tableName).isSome then (["Table already exists."], store)
  else
    (["Table " ++ tableName ++ " created with page size " ++ toString pageSize ++ "."],
      ⟨store.tables ++ [(tableName, Table.new pageSize)]⟩)

/-- `RowStore::insertRow` (lines 131–137); `none` is a null page dereferenced. -/
def insertRow (store : RowStore) (tableName : String) (rowData : List String) :
    Option (List String × RowStore) :=
  match store.tables.lookup tableName with
  | none => some (["Table does not exist."], store)
  | some table => (table.insertRow rowData).map fun r => ([], store.setTable tableName r.2)

/-- `RowStore::deleteRow` (lines 139–149). -/
def deleteRow (store : RowStore) (tableName : String) (pageId rowIndex : Int) :
    List String × RowStore :=
  match store.tables.lookup tableName with
  | none => (["Table does not exist."], store)
  | some table =>
    ([if (table.deleteRow pageId rowIndex).1 then "Row deleted successfully." else "Failed to delete row."],
      store.setTable tableName (table.deleteRow pageId rowIndex).2)

/-- `RowStore::getRow` (lines 151–162): `displayRow` prints the row as one line. -/
def getRow (store : RowStore) (tableName : String) (pageId rowIndex : Int) : List String :=
  match store.tables.lookup tableName with
  | none => ["Table does not exist."]
  | some table =>
    match table.getRow pageId rowIndex with
    | some row => [row.displayRow]
    | none => ["Row not found."]

/-- One call, with the lines it prints. -/
def step (store : RowStore) : StoreCall → Option (List String × RowStore)
  | .createTable tableName pageSize => some (store.createTable tableName pageSize)
  | .insertRow tableName rowData => store.insertRow tableName rowData
  | .deleteRow tableName pageId rowIndex => some (store.deleteRow tableName pageId rowIndex)
  | .getRow tableName pageId rowIndex => some (store.getRow tableName pageId rowIndex, store)

/-- The calls in turn, with the lines they print. -/
def run (store : RowStore) : List StoreCall → Option (List String × RowStore)
  | [] => some ([], store)
  | call :: calls => do
    let (out, store) ← store.step call
    let (outs, store) ← run store calls
    pure (out ++ outs, store)

end RowStore

/-- What `RowStore` prints for the result of a `Table` method. -/
def report : TableResult → List String
  | .inserted _ => []
  | .deleted ok => [if ok then "Row deleted successfully." else "Failed to delete row."]
  | .row (some row) => [row.displayRow]
  | .row none => ["Row not found."]
  | .rowCount _ => []

namespace RowStore

variable {store store' : RowStore} {call : StoreCall} {out : List String}

theorem lookup_setTable (store : RowStore) (tableName : String) (table : Table) (name : String) :
    (store.setTable tableName table).tables.lookup name =
      if name = tableName then (store.tables.lookup tableName).map fun _ => table
      else store.tables.lookup name := by
  obtain ⟨tables⟩ := store
  simp only [setTable]
  induction tables with
  | nil => split_ifs <;> rfl
  | cons e tables ih =>
    obtain ⟨k, t⟩ := e
    by_cases hk : k = tableName
    · subst hk
      by_cases hn : name = k
      · subst hn
        simp [List.lookup_cons]
      · simp [hn, List.lookup_cons, ih, beq_eq_false_iff_ne.mpr hn]
    · by_cases hn : name = k
      · subst hn
        simp [hk, List.lookup_cons]
      · simp [hk, hn, List.lookup_cons, ih, beq_eq_false_iff_ne.mpr hn,
          beq_eq_false_iff_ne.mpr (Ne.symm hk)]

/-! ## Failed calls -/

/-- A call on a table the store lacks prints `Table does not exist.` and changes nothing. -/
theorem step_missing_table (hcall : call.tableCall?.isSome)
    (hmissing : store.tables.lookup call.tableName = none) :
    store.step call = some (["Table does not exist."], store) := by
  cases call with
  | createTable => cases hcall
  | insertRow => simp only [step, insertRow, StoreCall.tableName] at hmissing ⊢; rw [hmissing]
  | deleteRow => simp only [step, deleteRow, StoreCall.tableName] at hmissing ⊢; rw [hmissing]
  | getRow => simp only [step, getRow, StoreCall.tableName] at hmissing ⊢; rw [hmissing]

/-- `createTable` on a name the store holds prints `Table already exists.` and changes nothing. -/
theorem createTable_taken {tableName : String} (htaken : (store.tables.lookup tableName).isSome)
    (pageSize : Int) : store.createTable tableName pageSize = (["Table already exists."], store) := by
  rw [createTable, if_pos htaken]

/-! ## Calls on one table -/

/-- A call on one table leaves every other table as it was. -/
theorem lookup_step_of_ne (hstep : store.step call = some (out, store')) {name : String}
    (hne : name ≠ call.tableName) : store'.tables.lookup name = store.tables.lookup name := by
  cases call with
  | createTable tableName pageSize =>
    simp only [step, createTable, Option.some.injEq] at hstep
    split_ifs at hstep <;> cases hstep
    · rfl
    · rw [List.lookup_append]
      simp only [StoreCall.tableName] at hne
      cases h : store.tables.lookup name
      · simp [List.lookup_cons, beq_false_of_ne hne]
      · rfl
  | insertRow tableName rowData =>
    simp only [step, insertRow] at hstep
    split at hstep
    · cases hstep; rfl
    · obtain ⟨r, -, hr⟩ := Option.map_eq_some'.mp hstep
      cases hr
      rw [lookup_setTable, if_neg (show ¬name = tableName from hne)]
  | deleteRow tableName pageId rowIndex =>
    simp only [step, deleteRow, Option.some.injEq] at hstep
    split at hstep <;> cases hstep
    · rfl
    · rw [lookup_setTable, if_neg (show ¬name = tableName from hne)]
  | getRow tableName pageId rowIndex =>
    simp only [step, Option.some.injEq, Prod.mk.injEq] at hstep
    rw [← hstep.2]

/-- A call on a table the store holds runs the `Table` method on it and prints the report of
    the method's result. -/
theorem lookup_step_self {tc : TableCall} (htc : call.tableCall? = some tc) {table : Table}
    (htable : store.tables.lookup call.tableName = some table)
    (hstep : store.step call = some (out, store')) :
    ∃ r table', table.step tc = some (r, table') ∧ out = report r ∧
      store'.tables.lookup call.tableName = some table' := by
  cases call with
  | createTable => cases htc
  | insertRow tableName rowData =>
    cases htc
    simp only [step, insertRow, StoreCall.tableName] at hstep htable ⊢
    rw [htable] at hstep
    obtain ⟨r, hr, he⟩ := Option.map_eq_some'.mp hstep
    cases he
    refine ⟨.inserted r.1, r.2, by simp [Table.step, hr], rfl, ?_⟩
    rw [lookup_setTable, if_pos rfl, htable]
    rfl
  | deleteRow tableName pageId rowIndex =>
    cases htc
    simp only [step, deleteRow, StoreCall.tableName] at hstep htable ⊢
    rw [htable, Option.some.injEq] at hstep
    cases hstep
    refine ⟨_, _, rfl, rfl, ?_⟩
    rw [lookup_setTable, if_pos rfl, htable]
    rfl
  | getRow tableName pageId rowIndex =>
    cases htc
    simp only [step, getRow, StoreCall.tableName, Option.some.injEq, Prod.mk.injEq] at hstep htable
    obtain ⟨rfl, rfl⟩ := hstep
    refine ⟨_, _, rfl, ?_, htable⟩
    rw [htable]
    dsimp only
    cases table.getRow pageId rowIndex <;> rfl

/-! ## Runs -/

theorem run_cons_eq_some {calls : List StoreCall} :
    store.run (call :: calls) = some (out, store') ↔ ∃ out₁ store₁ outs,
      store.step call = some (out₁, store₁) ∧ store₁.run calls = some (outs, store') ∧
        out = out₁ ++ outs := by
  simp only [run, Option.bind_eq_bind, Option.bind_eq_some, Prod.exists]
  constructor
  · rintro ⟨out₁, store₁, hstep, outs, store₂, hrun, he⟩
    cases he
    exact ⟨out₁, store₁, outs, hstep, hrun, rfl⟩
  · rintro ⟨out₁, store₁, outs, hstep, hrun, rfl⟩
    exact ⟨out₁, store₁, hstep, outs, store', hrun, rfl⟩

/-- Over every run, a table the store holds goes through the `Table` calls on it and through
    nothing else. -/
theorem run_lookup (name : String) : ∀ (calls : List StoreCall) (store store' : RowStore)
    (out : List String) (table : Table), store.run calls = some (out, store') →
    store.tables.lookup name = some table →
    ∃ rs table', table.run (calls.filterMap (·.tableCallOn name)) = some (rs, table') ∧
      store'.tables.lookup name = some table'
  | [], store, store', out, table, hrun, htable => by
    cases hrun
    exact ⟨[], table, rfl, htable⟩
  | call :: calls, store, store', out, table, hrun, htable => by
    obtain ⟨out₁, store₁, outs, hstep, hrest, -⟩ := run_cons_eq_some.mp hrun
    by_cases hname : call.tableName = name
    · cases htc : call.tableCall? with
      | none =>
        cases call with
        | createTable tableName pageSize =>
          have htaken : (store.tables.lookup tableName).isSome := by
            rw [show tableName = name from hname, htable]; rfl
          simp only [step, createTable, if_pos htaken, Option.some.injEq, Prod.mk.injEq] at hstep
          obtain ⟨-, rfl⟩ := hstep
          rw [List.filterMap_cons_none (by simp [StoreCall.tableCallOn, htc])]
          exact run_lookup name calls _ _ _ table hrest htable
        | _ => cases htc
      | some tc =>
        obtain ⟨r, table₁, hts, -, hl⟩ := lookup_step_self htc (hname ▸ htable) hstep
        obtain ⟨rs, table', hrs, hl'⟩ := run_lookup name calls _ _ _ table₁ hrest (hname ▸ hl)
        refine ⟨r :: rs, table', ?_, hl'⟩
        rw [List.filterMap_cons_some (show call.tableCallOn name = some tc by
            simp [StoreCall.tableCallOn, hname, htc]), Table.run, hts, Option.bind_eq_bind,
          Option.some_bind]
        dsimp only
        rw [hrs]
        rfl
    · rw [List.filterMap_cons_none (by simp [StoreCall.tableCallOn, hname])]
      exact run_lookup name calls _ _ _ table hrest
        ((lookup_step_of_ne hstep (Ne.symm hname)).trans htable)

/-- A table a run creates is, at the end of the run, the layout of the specification table after
    the calls on it, while they hold fewer than `2^31 - 1` inserts. -/
theorem run_createTable_refines {tableName : String} (hmissing : store.tables.lookup tableName = none)
    (pageSize : Int) (calls : List StoreCall)
    (hinserts : (calls.filterMap (·.tableCallOn tableName)).countP (·.isInsert) < 2147483647)
    (hrun : store.run (.createTable tableName pageSize :: calls) = some (out, store')) :
    store'.tables.lookup tableName =
      some ((Spec.Table.new pageSize).run (calls.filterMap (·.tableCallOn tableName))).2.impl := by
  obtain ⟨out₁, store₁, outs, hstep, hrest, -⟩ := run_cons_eq_some.mp hrun
  simp only [step, createTable, if_neg (show ¬(store.tables.lookup tableName).isSome by
    rw [hmissing]; exact Bool.false_ne_true), Option.some.injEq, Prod.mk.injEq] at hstep
  obtain ⟨-, rfl⟩ := hstep
  have hnew : (store.tables ++ [(tableName, Table.new pageSize)]).lookup tableName =
      some (Table.new pageSize) := by
    rw [List.lookup_append, hmissing]
    simp [List.lookup_cons]
  obtain ⟨rs, table', hrs, hl⟩ := run_lookup tableName calls _ _ _ _ hrest hnew
  rw [← Spec.Table.new_impl, Spec.Table.run_impl _ _ (by simp only [Spec.Table.new]; simp; omega)
    (by simp only [Spec.Table.new, Spec.Table.rows]; simp; omega)] at hrs
  cases hrs
  exact hl

/-- The calls of `main` (lines 173–195) but its two `displayTable` calls. -/
def mainStoreCalls : List StoreCall :=
  [.createTable "Users" 3,
   .insertRow "Users" ["1", "Person1", "person1@website.com"],
   .insertRow "Users" ["2", "Person2", "person2@website.com"],
   .insertRow "Users" ["3", "Person3", "person3@website.com"],
   .insertRow "Users" ["4", "Person4", "person4@website.com"],
   .getRow "Users" 0 1, .deleteRow "Users" 0 1]

example : ((RowStore.mk []).run mainStoreCalls).map (·.1) =
    some ["Table Users created with page size 3.", "2 | Person2 | person2@website.com | ",
      "Row deleted successfully."] := by
  decide

theorem run_createTable_refines_main :
    (RowStore.mk []).tables.lookup "Users" = none ∧
      (mainStoreCalls.tail.filterMap (·.tableCallOn "Users")).countP (·.isInsert) < 2147483647 ∧
      ∃ out store', (RowStore.mk []).run mainStoreCalls = some (out, store') ∧
        store'.tables.lookup "Users" =
          some ((Spec.Table.new 3).run (mainStoreCalls.tail.filterMap (·.tableCallOn "Users"))).2.impl := by
  obtain ⟨⟨out, store'⟩, hrun⟩ := Option.isSome_iff_exists.mp
    (show ((RowStore.mk []).run mainStoreCalls).isSome by decide)
  exact ⟨rfl, by decide, out, store', hrun, run_createTable_refines (by rfl) 3 mainStoreCalls.tail (by decide) hrun⟩

end RowStore

end HpDb.Storage.Formats
