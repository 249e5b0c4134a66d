import Mathlib.Data.List.Perm.Basic
import HpDb.Transactions.WriteAheadLog

/-!
# Column store (unnamed/part_011)

A `ColumnStore` keeps typed columns in an `unordered_map` from names to columns. A column is a
`TypedColumn<T>` for `T` = `int`, `float` or `std::string`: `appendValue` parses the value it is
given with `std::stoi` or `std::stof`, and `getValue` prints the value at an index back with
`std::to_string`. `rowCount` is the size of the column the map's iteration begins with, and
`display` prints the names, then one line per row up to `rowCount`, each value read with
`getValue`, which throws `out_of_range` past the end of its column.

The iteration order of an `unordered_map` is left to the library: `rowCount` and `display` take
it as an argument, a list of the entries, and the results hold for every permutation. A
`float` is of any type `F`, with `std::stof` and `std::to_string(float)` as arguments. An
exception is the `error` of an `Except` with its `what()`; `std::stoi` is
`HpDb.Transactions.stoi`, whose exceptions say `stoi`, as libstdc++'s do. A `display` that
throws has printed the lines before; the model keeps the exception only.

Results:
* `display_ok_iff`: `display` returns, rather than throws, exactly when no column is shorter
  than the one the iteration begins with.
* `display_ok_every_order_iff`: hence it returns whatever order the map iterates in exactly
  when all columns hold the same number of values.
* `getValue_appendValue`: the value appended to a column is read back at its index:
  `std::to_string(std::stoi(value))` for an `INT` column, the value itself for a `STRING` one.
  `getValue_appendValue_toDecimal`: in particular an `int` appended in decimal is read back as
  it was appended.
-/

namespace HpDb.Storage.Formats

open HpDb.Transactions (stoi toDecimal)

/-- `enum class DataType` (lines 13–17). -/
inductive DataType where
  | INT
  | FLOAT
  | STRING
  deriving DecidableEq, Repr

/-- `determineDataType(typeStr)` (lines 162–172). -/
def determineDataType (typeStr : String) : Except String DataType :=
  if typeStr = "INT" then .ok .INT
  else if typeStr = "FLOAT" then .ok .FLOAT
  else if typeStr = "STRING" then .ok .STRING
  else .error "Invalid data type"

/-- `TypedColumn<T>` (lines 30–73) for `T` = `int`, `float` and `std::string`: its `data`. -/
inductive Column (F : Type) where
  | int (data : List Int)
  | float (data : List F)
  | string (data : List String)

namespace Column

variable {F : Type}

/-- `getType()` (lines 70–72): the type `addColumn` constructs the column with. -/
def getType : Column F → DataType
  | .int _ => .INT
  | .float _ => .FLOAT
  | .string _ => .STRING

/-- `size()` (lines 66–68). -/
def size : Column F → Nat
  | .int data => data.length
  | .float data => data.length
  | .string data => data.length

/-- `appendValue(value)` (lines 39–49), with `stof` for `std::stof`. -/
def appendValue (stof : String → Except String F) (column : Column F) (value : String) :
    Except String (Column F) :=
  match column with
  | .int data =>
    match stoi value.data with
    | some v => .ok (.int (data ++ [v]))
    | none => .error "stoi"
  | .float data => (stof value).map fun v => .float (data ++ [v])
  | .string data => .ok (.string (data ++ [value]))

/-- The bound check of `getValue` (lines 52–54) and the value at `index`, printed by
    `toString`. -/
def valueAt {α : Type} (toString : α → String) (data : List α) (index : Nat) : Except String String :=
  match data[index]? with
  | some v => .ok (toString v)
  | none => .error "Index out of range"

/-- `getValue(index)` (lines 51–64), with `floatToString` for `std::to_string(float)`. -/
def getValue (floatToString : F → String) (column : Column F) (index : Nat) : Except String String :=
  match column with
  | .int data => valueAt (fun v => ⟨toDecimal v⟩) data index
  | .float data => valueAt floatToString data index
  | .string data => valueAt id data index

theorem valueAt_ok_iff {α : Type} (toString : α → String) (data : List α) (index : Nat) :
    (∃ s, valueAt toString data index = .ok s) ↔ index < data.length := by
  cases h : data[index]? with
  | none => simp [valueAt, h, List.getElem?_eq_none_iff.mp h]
  | some v => simp [valueAt, h, (List.getElem?_eq_some_iff.mp h).1]

theorem getValue_ok_iff (floatToString : F → String) (column : Column F) (index : Nat) :
    (∃ s, column.getValue floatToString index = .ok s) ↔ index < column.size := by
  cases column <;> exact valueAt_ok_iff _ _ _

end Column

/-- `class ColumnStore` (lines 76–159): the map from column names to columns. -/
structure ColumnStore (F : Type) where
  columns : List (String × Column F)

namespace ColumnStore

variable {F : Type}

/-- `addColumn(name, type)` (lines 82–100); the `default` of the `switch` is unreachable. -/
def addColumn (store : ColumnStore F) (name : String) (type : DataType) :
    Except String (ColumnStore F) :=
  if (store.columns.lookup name).isSome then .error "Column already exists"
  else
    let column : Column F :=
      match type with
      | .INT => .int []
      | .FLOAT => .float []
      | .STRING => .string []
    .ok ⟨store.columns ++ [(name, column)]⟩

/-- `appendValue(columnName, value)` (lines 103–109): the column found changes in place. -/
def appendValue (stof : String → Except String F) (store : ColumnStore F)
    (columnName value : String) : Except String (ColumnStore F) :=
  match store.columns.lookup columnName with
  | none => .error "Column not found"
  | some column =>
    (column.appendValue stof value).map fun column' =>
      ⟨store.columns.map fun e => if e.1 = columnName then (columnName, column') else e⟩

/-- `getValue(columnName, rowIndex)` (lines 112–118). -/
def getValue (floatToString : F → String) (store : ColumnStore F) (columnName : String)
    (rowIndex : Nat) : Except String String :=
  match store.columns.lookup columnName with
  | none => .error "Column not found"
  | some column => column.getValue floatToString rowIndex

/-- `getColumnType(columnName)` (lines 129–135). -/
def getColumnType (store : ColumnStore F) (columnName : String) : Except String DataType :=
  match store.columns.lookup columnName with
  | none => .error "Column not found"
  | some column => .ok column.getType

/-- `rowCount()` (lines 121–126) over the entries in the map's iteration order: the size of the
    first. -/
def rowCount : List (String × Column F) → Nat
  | [] => 0
  | e :: _ => e.2.size

/-- `display()` (lines 138–158) over the entries in the map's iteration order, with the lines
    it prints. -/
def display (floatToString : F → String) (entries : List (String × Column F)) :
    Except String (List String) :=
  if entries.isEmpty then .ok ["No columns in store"]
  else do
    let rows ← (List.range (rowCount entries)).mapM fun row => do
      let values ← entries.mapM fun e => e.2.getValue floatToString row
      pure (String.join (values.map (· ++ "\t")))
    pure (String.join (entries.map (·.1 ++ "\t")) :: rows)

/-! ## `display` -/

theorem mapM_ok_iff {α β : Type} (f : α → Except String β) :
    ∀ xs : List α, (∃ ys, xs.mapM f = .ok ys) ↔ ∀ x ∈ xs, ∃ y, f x = .ok y
  | [] => ⟨fun _ x hx => absurd hx (List.not_mem_nil x), fun _ => ⟨[], rfl⟩⟩
  | x :: xs => by
    rw [List.mapM_cons, List.forall_mem_cons, ← mapM_ok_iff f xs]
    cases f x with
    | error e => simp [bind, Except.bind]
    | ok y =>
      cases xs.mapM f with
      | error e => simp [bind, Except.bind]
      | ok ys => simp [bind, Except.bind, pure, Except.pure]

theorem bind_pure_ok_iff {α β : Type} (m : Except String α) (g : α → β) :
    (∃ b, (m >>= fun a => pure (g a)) = .ok b) ↔ ∃ a, m = .ok a := by
  cases m <;> simp [bind, Except.bind, pure, Except.pure]

/-- `display` returns, rather than throws, exactly when no column is shorter than the one the
    iteration begins with. -/
theorem display_ok_iff (floatToString : F → String) (entries : List (String × Column F)) :
    (∃ lines, display floatToString entries = .ok lines) ↔
      ∀ e ∈ entries, rowCount entries ≤ e.2.size := by
  cases entries with
  | nil => simp [display]
  | cons first rest =>
    simp only [display, List.isEmpty_cons, Bool.false_eq_true, ↓reduceIte]
    rw [bind_pure_ok_iff, mapM_ok_iff]
    simp only [List.mem_range, bind_pure_ok_iff, mapM_ok_iff, Column.getValue_ok_iff]
    exact ⟨fun h e he => Nat.le_of_not_lt fun hlt => Nat.lt_irrefl _ (h _ hlt e he),
      fun h row hrow e he => Nat.lt_of_lt_of_le hrow (h e he)⟩

/-- `display` returns whatever order the map iterates in exactly when all columns hold the same
    number of values. -/
theorem display_ok_every_order_iff (floatToString : F → String) (store : ColumnStore F) :
    (∀ entries, entries.Perm store.columns → ∃ lines, display floatToString entries = .ok lines) ↔
      ∀ e ∈ store.columns, ∀ e' ∈ store.columns, e.2.size = e'.2.size := by
  classical
  constructor
  · intro h e he e' he'
    have hle : ∀ a ∈ store.columns, ∀ b ∈ store.columns, a.2.size ≤ b.2.size := by
      intro a ha b hb
      have hperm := (List.perm_cons_erase ha).symm
      exact (display_ok_iff floatToString _).mp (h _ hperm) b (hperm.symm.subset hb)
    exact Nat.le_antisymm (hle e he e' he') (hle e' he' e he)
  · intro h entries hperm
    refine (display_ok_iff floatToString entries).mpr fun e he => ?_
    cases entries with
    | nil => exact absurd he (List.not_mem_nil _)
    | cons first rest =>
      exact (h first (hperm.subset (List.mem_cons_self _ _)) e (hperm.subset he)).le

/-! ## Reading back what was appended -/

theorem lookup_map_set (columns : List (String × Column F)) (columnName : String)
    (column' : Column F) (hcol : (columns.lookup columnName).isSome) :
    (columns.map fun e => if e.1 = columnName then (columnName, column') else e).lookup columnName =
      some column' := by
  induction columns with
  | nil => cases hcol
  | cons e columns ih =>
    obtain ⟨k, c⟩ := e
    by_cases hk : k = columnName
    · subst hk
      simp [List.lookup_cons]
    · have hne : (columnName == k) = false := beq_eq_false_iff_ne.mpr (Ne.symm hk)
      simp only [List.lookup_cons, hne] at hcol
      simp only [List.map_cons, hk, if_false, List.lookup_cons, hne]
      exact ih hcol

/-- The value appended to a column is read back at its index: the column reads back as it
    would alone. -/
theorem getValue_appendValue (stof : String → Except String F) (floatToString : F → String)
    {store store' : ColumnStore F} {columnName value : String} {column : Column F}
    (hcol : store.columns.lookup columnName = some column)
    (happend : store.appendValue stof columnName value = .ok store') :
    ∃ column', column.appendValue stof value = .ok column' ∧
      store'.columns.lookup columnName = some column' ∧
      store'.getValue floatToString columnName column.size =
        column'.getValue floatToString column.size := by
  rw [appendValue, hcol] at happend
  dsimp only at happend
  cases hc : column.appendValue stof value with
  | error e => rw [hc] at happend; cases happend
  | ok column' =>
    rw [hc] at happend
    cases happend
    have hl := lookup_map_set store.columns columnName column' (by rw [hcol]; rfl)
    exact ⟨column', rfl, hl, by rw [getValue, hl]⟩

/-- An `INT` column reads back `std::to_string(std::stoi(value))`, a `STRING` column the value. -/
theorem getValue_appendValue_int (stof : String → Except String F) (floatToString : F → String)
    {data : List Int} {value : String} {column' : Column F}
    (h : (Column.int data).appendValue stof value = .ok column') :
    ∃ v, stoi value.data = some v ∧ column'.getValue floatToString data.length = .ok ⟨toDecimal v⟩ := by
  simp only [Column.appendValue] at h
  split at h
  · rename_i v hv
    cases h
    exact ⟨v, hv, by simp [Column.getValue, Column.valueAt]⟩
  · cases h

theorem getValue_appendValue_string (stof : String → Except String F) (floatToString : F → String)
    {data : List String} {value : String} {column' : Column F}
    (h : (Column.string data).appendValue stof value = .ok column') :
    column'.getValue floatToString data.length = .ok value := by
  simp only [Column.appendValue, Except.ok.injEq] at h
  subst h
  simp [Column.getValue, Column.valueAt]

/-- An `int` appended to an `INT` column in decimal is read back as it was appended. -/
theorem getValue_appendValue_toDecimal (stof : String → Except String F)
    (floatToString : F → String) {store : ColumnStore F} {columnName : String} {data : List Int}
    (hcol : store.columns.lookup columnName = some (.int data)) {i : Int}
    (h0 : -2147483648 ≤ i) (h1 : i ≤ 2147483647) :
    ∃ store', store.appendValue stof columnName ⟨toDecimal i⟩ = .ok store' ∧
      store'.getValue floatToString columnName data.length = .ok ⟨toDecimal i⟩ := by
  have happ : (Column.int data : Column F).appendValue stof ⟨toDecimal i⟩ = .ok (.int (data ++ [i])) := by
    simp [Column.appendValue, HpDb.Transactions.stoi_toDecimal h0 h1]
  have hstore : store.appendValue stof columnName ⟨toDecimal i⟩ = .ok ⟨store.columns.map fun e =>
      if e.1 = columnName then (columnName, .int (data ++ [i])) else e⟩ := by
    rw [appendValue, hcol]
    dsimp only
    rw [happ]
    rfl
  refine ⟨_, hstore, ?_⟩
  obtain ⟨column', hc, -, hget⟩ := getValue_appendValue stof floatToString hcol hstore
  rw [happ] at hc
  cases hc
  rw [show data.length = (Column.int data : Column F).size from rfl, hget]
  simp [Column.getValue, Column.valueAt, Column.size]

end ColumnStore

end HpDb.Storage.Formats
