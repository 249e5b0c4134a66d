import Mathlib.Data.List.Basic

/-!
# `CostEstimator` (query_processor/optimizer/plan_generator.cpp, lines 187–352)

`estimate_cost` dispatches on the node's type. The cost of a join adds those of
`children[0]` and `children[1]`; the costs of an aggregation, a sort and a filter add that of
`children[0]`. A scan, a sort, an insert, an update and a delete compute
`node->rows * node->width` in `int` before dividing by a `double`; a join multiplies the
`double` `output_rows` by the width instead.

`int` is `BitVec 32`, read as a signed number, and a product outside the range of `int` is
undefined behaviour: `mulInt` is `none` there, and so is the whole estimate. So is reading
`children[0]` or `children[1]` past the end of the vector. A `double` is a `Float`; no result
here reads its value.

Results:
* `estimate_cost_overflows`: a scan, a sort, an insert, an update and a delete of `65536` rows
  of width `32768`, both in the range of `int` and not negative, evaluate
  `rows * width = 2^31`, past `INT_MAX`.
-/

namespace HpDb.Query.Cost

/-- `DISK_IO_COST` (line 188). -/
def DISK_IO_COST : Float := 5.0

/-- `MEMORY_ACCESS_COST` (line 189). -/
def MEMORY_ACCESS_COST : Float := 1.0

/-- `CPU_COST` (line 190). -/
def CPU_COST : Float := 0.5

/-- `struct PlanCost` (lines 194–204). -/
structure PlanCost where
  diskIoCost : Float
  memoryAccessCost : Float
  cpuCost : Float
  networkCost : Float

/-- `enum class NodeType` (lines 207–216). -/
inductive NodeType where
  | SCAN | JOIN | AGGREGATION | SORT | FILTER | INSERT | UPDATE | DELETE
  deriving DecidableEq, Repr

/-- `struct PlanNode` (lines 219–225). -/
structure PlanNode where
  nodeType : NodeType
  rows : BitVec 32
  width : BitVec 32
  selectivity : Float
  children : List PlanNode

/-- `a * b` fits in `int`. -/
def FitsInt (a b : BitVec 32) : Prop :=
  -2147483648 ≤ a.toInt * b.toInt ∧ a.toInt * b.toInt ≤ 2147483647

instance (a b : BitVec 32) : Decidable (FitsInt a b) := inferInstanceAs (Decidable (_ ∧ _))

/-- `a * b` in `int`: `none` where the product leaves the range of `int`, which is
    undefined. -/
def mulInt (a b : BitVec 32) : Option (BitVec 32) := if FitsInt a b then some (a * b) else none

/-- An `int` converted to `double`. -/
def toDouble (x : BitVec 32) : Float := Float.ofInt x.toInt

/-- `estimate_scan_cost(node)` (lines 257–262). -/
def estimateScanCost (node : PlanNode) : Option PlanCost := do
  let rowsWidth ← mulInt node.rows node.width
  let diskIo := toDouble rowsWidth / 1024.0
  let memoryAccess := diskIo * 0.8
  let cpu := toDouble node.rows * CPU_COST
  pure ⟨diskIo * DISK_IO_COST, memoryAccess * MEMORY_ACCESS_COST, cpu, 0.0⟩

/-- The cost of `estimate_insert_cost`, `estimate_update_cost` and `estimate_delete_cost`
    (lines 318–351): the disk I/O of `rows * width` bytes, and the CPU cost `cpu` of the
    rows. -/
def estimateWriteCost (cpu : Float → Float) (node : PlanNode) : Option PlanCost := do
  let rowsWidth ← mulInt node.rows node.width
  let diskIo := toDouble rowsWidth / 1024.0
  pure ⟨diskIo * DISK_IO_COST, 0.0, cpu (toDouble node.rows), 0.0⟩

/-- `estimate_insert_cost(node)` (lines 318–327). -/
def estimateInsertCost : PlanNode → Option PlanCost :=
  estimateWriteCost fun rows => rows * CPU_COST * 0.8

/-- `estimate_update_cost(node)` (lines 330–339). -/
def estimateUpdateCost : PlanNode → Option PlanCost :=
  estimateWriteCost fun rows => rows * CPU_COST

/-- `estimate_delete_cost(node)` (lines 342–351). -/
def estimateDeleteCost : PlanNode → Option PlanCost :=
  estimateWriteCost fun rows => rows * CPU_COST * 0.5

mutual
/-- `estimate_cost(node)` (lines 232–253). -/
def estimateCost : PlanNode → Option PlanCost
  | node@⟨.SCAN, _, _, _, _⟩ => estimateScanCost node
  | ⟨.JOIN, rows, width, _, children⟩ => estimateJoinCost rows width children
  | ⟨.AGGREGATION, rows, _, _, children⟩ => estimateAggregationCost rows children
  | ⟨.SORT, rows, width, _, children⟩ => estimateSortCost rows width children
  | ⟨.FILTER, rows, _, selectivity, children⟩ => estimateFilterCost rows selectivity children
  | node@⟨.INSERT, _, _, _, _⟩ => estimateInsertCost node
  | node@⟨.UPDATE, _, _, _, _⟩ => estimateUpdateCost node
  | node@⟨.DELETE, _, _, _, _⟩ => estimateDeleteCost node

/-- `estimate_join_cost(node)` (lines 265–277), on the node's rows, width and children. -/
def estimateJoinCost (rows width : BitVec 32) : List PlanNode → Option PlanCost
  | left :: right :: _ => do
    let leftCost ← estimateCost left
    let rightCost ← estimateCost right
    let outputRows := toDouble rows
    let memoryAccess := outputRows * toDouble width / 1024.0
    let cpu := outputRows * CPU_COST * 2
    pure ⟨leftCost.diskIoCost + rightCost.diskIoCost,
      leftCost.memoryAccessCost + rightCost.memoryAccessCost + memoryAccess * MEMORY_ACCESS_COST,
      leftCost.cpuCost + rightCost.cpuCost + cpu, 0.0⟩
  | _ => none

/-- `estimate_aggregation_cost(node)` (lines 280–289), on the node's rows and children. -/
def estimateAggregationCost (rows : BitVec 32) : List PlanNode → Option PlanCost
  | child :: _ => do
    let inputCost ← estimateCost child
    let cpu := toDouble rows * CPU_COST * 1.5
    pure ⟨inputCost.diskIoCost, inputCost.memoryAccessCost, inputCost.cpuCost + cpu, 0.0⟩
  | [] => none

/-- `estimate_sort_cost(node)` (lines 292–302), on the node's rows, width and children. -/
def estimateSortCost (rows width : BitVec 32) : List PlanNode → Option PlanCost
  | child :: _ => do
    let inputCost ← estimateCost child
    let rowsWidth ← mulInt rows width
    let memoryAccess := toDouble rowsWidth / 512.0
    let cpu := toDouble rows * CPU_COST * 2
    pure ⟨inputCost.diskIoCost, inputCost.memoryAccessCost + memoryAccess * MEMORY_ACCESS_COST,
      inputCost.cpuCost + cpu, 0.0⟩
  | [] => none

/-- `estimate_filter_cost(node)` (lines 305–315), on the node's rows, selectivity and
    children. -/
def estimateFilterCost (rows : BitVec 32) (selectivity : Float) : List PlanNode → Option PlanCost
  | child :: _ => do
    let inputCost ← estimateCost child
    let outputRows := toDouble rows * selectivity
    let cpu := outputRows * CPU_COST * 0.5
    pure ⟨inputCost.diskIoCost, inputCost.memoryAccessCost, inputCost.cpuCost + cpu, 0.0⟩
  | [] => none
end

/-- The plan of `main()` (lines 356–358): an aggregation over a join of a scan with itself. -/
def mainPlan : PlanNode :=
  let scanNode : PlanNode := ⟨.SCAN, 100000, 128, 1.0, []⟩
  let joinNode : PlanNode := ⟨.JOIN, 50000, 256, 1.0, [scanNode, scanNode]⟩
  ⟨.AGGREGATION, 5000, 256, 1.0, [joinNode]⟩

example : (estimateCost mainPlan).isSome = true := by decide

/-- A scan of `65536` rows of width `32768`. -/
def overflowScan : PlanNode := ⟨.SCAN, 65536, 32768, 1.0, []⟩

/-- **`estimate_cost` overflows `int`.** `65536` rows of width `32768` are in the range of
    `int` and not negative, but `rows * width = 2^31` is past `INT_MAX`, and a scan, a sort
    (of any input), an insert, an update and a delete of them all evaluate it. -/
theorem estimate_cost_overflows :
    overflowScan.rows.toInt = 65536 ∧ overflowScan.width.toInt = 32768 ∧
      overflowScan.rows.toInt * overflowScan.width.toInt = 2147483648 ∧
      ∀ t ∈ [NodeType.SCAN, .SORT, .INSERT, .UPDATE, .DELETE],
        (estimateCost { overflowScan with nodeType := t, children := [⟨.SCAN, 1, 1, 1.0, []⟩] }).isSome
          = false := by
  decide

end HpDb.Query.Cost
