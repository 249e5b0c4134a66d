import Mathlib.Data.List.Sort

/-!
# `RTree` (unnamed/part_005)

An R-tree with at most `MAX_CHILDREN = 4` children a node. Every node is a `Node`: an
inserted rectangle is a new node with `leaf = true` and no children, hung below the leaf
that `chooseLeaf` picks, so the nodes that hold entries also have `leaf = true`. After an
insert `adjustTree` walks the `parent` pointers up, recomputing each box and splitting each
full node; `splitNode` sorts the children by `xmin` and moves the upper half to a new
node. A split root gets a new root above it.

The nodes live in a heap: `Node*` is an index into `nodes`, and `new Node` appends. A
`bounding_box` is `none` until it is first assigned: `Node(bool)` leaves it uninitialised,
and reading it is undefined behaviour, as is following a null pointer; the operations then
return `none`. Coordinates are exact integers, so every enlargement is below the
`FLT_MAX` that `chooseLeaf` starts from. `std::sort` is not stable; `splitNode` here keeps
children with equal `xmin` in their order, one of the orders the source allows. Every walk
up or down the tree takes fuel, and running out of fuel also returns `none`.

Results:
* `search_returns_leaf_box`: `searchHelper` returns the box of every node with
  `leaf = true` it reaches, and the node holding the entries is such a node. On the
  rectangles of `main()`, `search` returns the box around all three, `(0, 0, 30, 30)`,
  where the inserted rectangles that meet the query are the first two.
* `split_leaves_stale_parent`: after four inserts the root splits. The two entries moved
  to the new node still point to the old one as their parent, and the new root's box is
  never assigned.
-/

namespace HpDb.Indexing.Spatial

/-- `MAX_CHILDREN` (line 6). -/
def MAX_CHILDREN : Nat := 4

/-- `struct Rect` (lines 9–34). -/
structure Rect where
  xmin : Int
  ymin : Int
  xmax : Int
  ymax : Int
  deriving DecidableEq, Repr

namespace Rect

/-- `intersects`. -/
def intersects (r other : Rect) : Bool :=
  !(r.xmin > other.xmax || r.xmax < other.xmin || r.ymin > other.ymax || r.ymax < other.ymin)

/-- `area`. -/
def area (r : Rect) : Int := (r.xmax - r.xmin) * (r.ymax - r.ymin)

/-- The rectangle `enlarged` of `enlargement`, and one step of the loop of
    `updateBoundingBox`: the least rectangle around both. -/
def extend (r other : Rect) : Rect :=
  ⟨min r.xmin other.xmin, min r.ymin other.ymin, max r.xmax other.xmax, max r.ymax other.ymax⟩

/-- `enlargement`. -/
def enlargement (r other : Rect) : Int := (r.extend other).area - r.area

end Rect

/-- `struct Node` (lines 36–62). `boundingBox` is `none` until it is first assigned. -/
structure Node where
  boundingBox : Option Rect
  leaf : Bool
  children : List Nat
  parent : Option Nat
  deriving DecidableEq, Repr

/-- `Node(bool is_leaf)`. -/
def Node.new (leaf : Bool) : Node := ⟨none, leaf, [], none⟩

/-- `isFull()`. -/
def Node.isFull (x : Node) : Bool := decide (MAX_CHILDREN ≤ x.children.length)

/-- `class RTree` (lines 64–176): the heap of nodes and the `root` pointer. -/
structure RTree where
  nodes : List Node
  root : Nat
  deriving DecidableEq, Repr

namespace RTree

/-- `RTree()`: a root leaf. -/
def new : RTree := ⟨[Node.new true], 0⟩

/-- `*p`. -/
def get (t : RTree) (p : Nat) : Option Node := t.nodes[p]?

/-- `p->bounding_box`. -/
def box (t : RTree) (p : Nat) : Option Rect := t.get p >>= (·.boundingBox)

/-- A write through `p`. -/
def modify (t : RTree) (p : Nat) (f : Node → Node) : Option RTree :=
  (t.get p).map fun x => { t with nodes := t.nodes.set p (f x) }

/-- `new Node(...)`: the heap with `x` appended, and its address. -/
def alloc (t : RTree) (x : Node) : RTree × Nat :=
  ({ t with nodes := t.nodes ++ [x] }, t.nodes.length)

/-- `p->updateBoundingBox()` (lines 44–53). -/
def updateBoundingBox (t : RTree) (p : Nat) : Option RTree := do
  let x ← t.get p
  match x.children with
  | [] => some t
  | c₀ :: _ =>
    let b₀ ← t.box c₀
    let b ← x.children.foldlM (fun b c => (t.box c).map b.extend) b₀
    t.modify p fun y => { y with boundingBox := some b }

/-- `splitNode(p)` (lines 132–154): the tree and the address of the new node. The children
    are not told of their new parent. -/
def splitNode (t : RTree) (p : Nat) : Option (RTree × Nat) := do
  let x ← t.get p
  let keyed ← x.children.mapM fun c => (t.box c).map fun b => (b.xmin, c)
  let children := (keyed.insertionSort fun a b => a.1 ≤ b.1).map Prod.snd
  let mid := children.length / 2
  let (t, q) := t.alloc { Node.new x.leaf with children := children.drop mid }
  let t ← t.modify p fun y => { y with children := children.take mid }
  let t ← t.updateBoundingBox p
  let t ← t.updateBoundingBox q
  some (t, q)

/-- `adjustTree(p)` (lines 109–130); `none` is `nullptr`. A split root gets a new root whose
    box is not computed. -/
def adjustTree : Nat → RTree → Option Nat → Option RTree
  | _, t, none => some t
  | 0, _, some _ => none
  | fuel + 1, t, some p => do
    let t ← t.updateBoundingBox p
    let x ← t.get p
    if x.isFull then
      let (t, q) ← t.splitNode p
      if p = t.root then
        let (t, r) := t.alloc { Node.new false with children := [p, q] }
        let t ← t.modify p fun y => { y with parent := some r }
        let t ← t.modify q fun y => { y with parent := some r }
        some { t with root := r }
      else
        let pp ← x.parent
        let t ← t.modify pp fun y => { y with children := y.children ++ [q] }
        let t ← t.modify q fun y => { y with parent := some pp }
        adjustTree fuel t (some pp)
    else adjustTree fuel t x.parent

/-- `chooseLeaf(p, rect)` (lines 93–107): down the child of least enlargement, the first of
    equal ones, to a node with `leaf = true`. -/
def chooseLeaf : Nat → RTree → Nat → Rect → Option Nat
  | 0, _, _, _ => none
  | fuel + 1, t, p, rect => do
    let x ← t.get p
    if x.leaf then some p
    else
      let best ← x.children.foldlM (fun best c => (t.box c).map fun b =>
        let e := b.enlargement rect
        match best with
        | some (_, m) => if e < m then some (c, e) else best
        | none => some (c, e)) none
      let (c, _) ← best
      chooseLeaf fuel t c rect

/-- `insert(rect)` (lines 77–84). -/
def insert (fuel : Nat) (t : RTree) (rect : Rect) : Option RTree := do
  let l ← chooseLeaf fuel t t.root rect
  let (t, q) := t.alloc { Node.new true with boundingBox := some rect, parent := some l }
  let t ← t.modify l fun y => { y with children := y.children ++ [q] }
  adjustTree fuel t (some l)

/-- `searchHelper(p, rect, result)` (lines 156–166): the boxes it appends. -/
def searchHelper : Nat → RTree → Rect → Nat → Option (List Rect)
  | 0, _, _, _ => none
  | fuel + 1, t, rect, p => do
    let x ← t.get p
    let b ← x.boundingBox
    if !b.intersects rect then some []
    else if x.leaf then some [b]
    else (x.children.mapM (searchHelper fuel t rect)).map List.flatten

/-- `search(rect)` (lines 86–90). -/
def search (fuel : Nat) (t : RTree) (rect : Rect) : Option (List Rect) :=
  searchHelper fuel t rect t.root

/-- The calls `insert(r)` for the rectangles `rs` in turn, on a new tree. -/
def insertAll (fuel : Nat) (rs : List Rect) : Option RTree := rs.foldlM (insert fuel) new

/-! ## `search` returns the box of the leaf -/

/-- `r1`, `r2`, `r3` of `main()` (lines 180–182). -/
def mainRects : List Rect := [⟨0, 0, 10, 10⟩, ⟨5, 5, 15, 15⟩, ⟨20, 20, 30, 30⟩]

/-- `search_area` of `main()` (line 188). -/
def searchArea : Rect := ⟨0, 0, 15, 15⟩

theorem search_returns_leaf_box :
    ((insertAll 4 mainRects).bind fun t => t.search 4 searchArea) = some [⟨0, 0, 30, 30⟩] ∧
      mainRects.filter (·.intersects searchArea) = [⟨0, 0, 10, 10⟩, ⟨5, 5, 15, 15⟩] := by
  decide

/-! ## A split leaves stale parents -/

/-- Four rectangles with distinct `xmin`: the fourth insert splits the root. -/
def splitRects : List Rect := [⟨0, 0, 1, 1⟩, ⟨2, 0, 3, 1⟩, ⟨4, 0, 5, 1⟩, ⟨6, 0, 7, 1⟩]

theorem split_leaves_stale_parent :
    ∃ t, insertAll 4 splitRects = some t ∧ t.root = 6 ∧
      (t.get 6).map (fun x => (x.boundingBox, x.children)) = some (none, [0, 5]) ∧
      (t.get 0).map (·.children) = some [1, 2] ∧ (t.get 5).map (·.children) = some [3, 4] ∧
      (t.get 3).map (·.parent) = some (some 0) ∧ (t.get 4).map (·.parent) = some (some 0) :=
  ⟨_, rfl, by decide⟩

end RTree

end HpDb.Indexing.Spatial
