import HpDb.Indexing.BTree

/-!
# `BTreeNode` of indexing/trie_index/trie_index.cpp (lines 148–418)

The second B-tree of the repository, with deletion. Here a node owns raw arrays: `keys` has
`2 * t - 1` slots from `new int[...]`, uninitialised until written, and `children` has
`2 * t` `shared_ptr` slots, empty until written. `n` counts the keys in use. `remove` and
its helpers shift these slots in loops and leave behind whatever they do not overwrite.

The model keeps every slot. A key slot is `none` until it is first written. Reading it, or
reading any slot outside its array, or following an empty child pointer, is undefined
behaviour, and the operation returns `none`. Every recursion and every `while` loop that
walks down the tree takes fuel, and running out of fuel also returns `none`; the theorems
below exhibit runs that return `some`, so neither happened there. Nodes are values: a node
belongs to the one slot of its parent that points to it. `t` is `MIN_DEGREE` in every node.
`search` reads `keys[i]` after its loop even when `i == n`; where that slot was never
written the read is undefined, and the model's `search` returns `none`.

`toBTree` reads a node as the node of unnamed/part_006 (`HpDb.Indexing.BTreeNode`): its
first `n` keys and, unless it is a leaf, its first `n + 1` children. This lets the B-tree
invariant `BTreeNode.Valid` and the traversal of that module judge this one.

Results:
* `remove_pred_unordered`: `getPred` walks to `children[n - 1]` of each node instead of
  `children[n]`, so on a valid tree of height two `remove(100)` moves the largest key of the
  wrong subtree into the root. The keys after it in the left subtree then exceed the root
  key, and the traversal is out of order.
* `search_finds_stale_key`: `search` compares `keys[i] == key` at `i == n` without checking
  `i < n`, so after inserting `1, 2, 3` into an empty leaf and removing `3`, `search(3)`
  finds the stale slot and returns the node.
-/

namespace HpDb.Indexing.TrieIndex

/-- `const int MIN_DEGREE = 3` (line 152), the `t` of every node. -/
def MIN_DEGREE : Int := 3

/-- `class BTreeNode` (lines 154–190). `keys` are the `2 * t - 1` slots of the key array,
    `none` while uninitialised; `children` are the `2 * t` pointer slots, `none` while
    empty. -/
structure Node where
  leaf : Bool
  keys : List (Option Int)
  children : List (Option Node)
  n : Int

/-! ## Array slots -/

/-- Slot `i` of an array, or `none` outside its bounds. -/
def rd {α : Type} (a : List α) (i : Int) : Option α :=
  if 0 ≤ i then a[i.toNat]? else none

/-- `a[i] = x`, or `none` outside the bounds of `a`. -/
def wr {α : Type} (a : List α) (i : Int) (x : α) : Option (List α) :=
  if 0 ≤ i ∧ i < a.length then some (a.set i.toNat x) else none

/-- `keys[i]` as an `int`: undefined while the slot is uninitialised. -/
def readKey (keys : List (Option Int)) (i : Int) : Option Int := (rd keys i).join

/-- `keys[dst] = keys[src]`. -/
def moveKey (keys : List (Option Int)) (dst src : Int) : Option (List (Option Int)) :=
  readKey keys src >>= fun k => wr keys dst (some k)

/-- `children[dst] = children[src]`: copying an empty pointer is defined. -/
def moveChild (cs : List (Option Node)) (dst src : Int) : Option (List (Option Node)) :=
  rd cs src >>= wr cs dst

/-- `for (int i = lo; i < hi; ++i) body(i)`. -/
def forUp {σ : Type} (lo hi : Int) (body : Int → σ → Option σ) (s : σ) : Option σ :=
  go (hi - lo).toNat lo s
where
  go : Nat → Int → σ → Option σ
    | 0, _, s => some s
    | c + 1, i, s => body i s >>= go c (i + 1)

/-- `for (int i = hi; i >= lo; --i) body(i)`. -/
def forDown {σ : Type} (hi lo : Int) (body : Int → σ → Option σ) (s : σ) : Option σ :=
  go (hi - lo + 1).toNat hi s
where
  go : Nat → Int → σ → Option σ
    | 0, _, s => some s
    | c + 1, i, s => body i s >>= go c (i - 1)

namespace Node

/-- `BTreeNode(bool leaf)` (lines 192–199): fresh arrays and `n = 0`. -/
def new (leaf : Bool) : Node :=
  ⟨leaf, List.replicate (2 * MIN_DEGREE - 1).toNat none,
    List.replicate (2 * MIN_DEGREE).toNat none, 0⟩

/-- `keys[i]` of the node. -/
def key (x : Node) (i : Int) : Option Int := readKey x.keys i

/-- `children[i]`, dereferenced: undefined when the slot is empty or out of bounds. -/
def child (x : Node) (i : Int) : Option Node := (rd x.children i).join

/-- `keys[i] = k`. -/
def setKey (x : Node) (i k : Int) : Option Node :=
  (wr x.keys i (some k)).map fun keys => { x with keys }

/-- `children[i] = c`. -/
def setChild (x : Node) (i : Int) (c : Node) : Option Node :=
  (wr x.children i (some c)).map fun children => { x with children }

/-- `while (i < n && cond(keys[i])) i++`, from `i`, with at most `count` steps. The loops of
    `findKey` and `search` start at `0` and take at most `n` steps. -/
def scanKeys (x : Node) (cond : Int → Bool) : Nat → Int → Option Int
  | 0, i => some i
  | c + 1, i =>
    if i < x.n then
      x.key i >>= fun k => if cond k then scanKeys x cond c (i + 1) else some i
    else some i

/-- `while (i >= 0 && keys[i] > key) { keys[i + 1] = keys[i]; i--; }` of `insertNonFull`,
    from `i = n - 1`; the internal-node loop of the same function does not move the keys
    (`shift = false`). It stops after at most `n` steps, at `i = -1`. -/
def insertScan (key : Int) (shift : Bool) :
    Nat → Int → List (Option Int) → Option (Int × List (Option Int))
  | 0, i, keys => some (i, keys)
  | c + 1, i, keys =>
    if 0 ≤ i then
      readKey keys i >>= fun k =>
        if k > key then
          (if shift then moveKey keys (i + 1) i else some keys) >>= insertScan key shift c (i - 1)
        else some (i, keys)
    else some (i, keys)

/-- `findKey(key)` (lines 201–206): the first slot whose key is not below `key`. -/
def findKey (x : Node) (key : Int) : Option Int := x.scanKeys (· < key) x.n.toNat 0

/-! ## Deletion -/

/-- `removeFromLeaf(idx)` (lines 236–240). -/
def removeFromLeaf (x : Node) (idx : Int) : Option Node :=
  (forUp (idx + 1) x.n (fun i keys => moveKey keys (i - 1) i) x.keys).map
    fun keys => { x with keys, n := x.n - 1 }

/-- The loop of `getPred` (lines 259–265) from `cur`: down `children[cur->n - 1]` to a
    leaf, then its last key. -/
def predFrom : Nat → Node → Option Int
  | 0, _ => none
  | fuel + 1, cur =>
    if cur.leaf then cur.key (cur.n - 1) else cur.child (cur.n - 1) >>= predFrom fuel

/-- The loop of `getSucc` (lines 267–273) from `cur`: down `children[0]` to a leaf, then its
    first key. -/
def succFrom : Nat → Node → Option Int
  | 0, _ => none
  | fuel + 1, cur => if cur.leaf then cur.key 0 else cur.child 0 >>= succFrom fuel

/-- `getPred(idx)`. -/
def getPred (fuel : Nat) (x : Node) (idx : Int) : Option Int := x.child idx >>= predFrom fuel

/-- `getSucc(idx)`. -/
def getSucc (fuel : Nat) (x : Node) (idx : Int) : Option Int :=
  x.child (idx + 1) >>= succFrom fuel

/-- `borrowFromPrev(idx)` (lines 288–307). The pointer moved into `child->children[0]` is
    guarded by the `leaf` of this node, not of `child`. -/
def borrowFromPrev (x : Node) (idx : Int) : Option Node := do
  let child ← x.child idx
  let sibling ← x.child (idx - 1)
  let ckeys ← forDown (child.n - 1) 0 (fun i keys => moveKey keys (i + 1) i) child.keys
  let cch ← if !child.leaf then
      forDown child.n 0 (fun i cs => moveChild cs (i + 1) i) child.children
    else some child.children
  let k ← x.key (idx - 1)
  let ckeys ← wr ckeys 0 (some k)
  let cch ← if !x.leaf then do
      let c ← rd sibling.children sibling.n
      wr cch 0 c
    else some cch
  let sk ← sibling.key (sibling.n - 1)
  let x ← x.setKey (idx - 1) sk
  let x ← x.setChild idx { child with keys := ckeys, children := cch, n := child.n + 1 }
  x.setChild (idx - 1) { sibling with n := sibling.n - 1 }

/-- `borrowFromNext(idx)` (lines 309–330). -/
def borrowFromNext (x : Node) (idx : Int) : Option Node := do
  let child ← x.child idx
  let sibling ← x.child (idx + 1)
  let k ← x.key idx
  let ckeys ← wr child.keys child.n (some k)
  let cch ← if !child.leaf then do
      let c ← rd sibling.children 0
      wr child.children (child.n + 1) c
    else some child.children
  let sk ← sibling.key 0
  let x ← x.setKey idx sk
  let skeys ← forUp 1 sibling.n (fun i keys => moveKey keys (i - 1) i) sibling.keys
  let sch ← if !sibling.leaf then
      forUp 1 (sibling.n + 1) (fun i cs => moveChild cs (i - 1) i) sibling.children
    else some sibling.children
  let x ← x.setChild idx { child with keys := ckeys, children := cch, n := child.n + 1 }
  x.setChild (idx + 1) { sibling with keys := skeys, children := sch, n := sibling.n - 1 }

/-- `merge(idx)` (lines 332–354): `keys[idx]` and the keys and children of `children[idx + 1]`
    move into `children[idx]`, and the keys and children of this node after them move down
    one slot. The last slots keep their old contents. -/
def merge (x : Node) (idx : Int) : Option Node := do
  let child ← x.child idx
  let sibling ← x.child (idx + 1)
  let k ← x.key idx
  let ckeys ← wr child.keys (MIN_DEGREE - 1) (some k)
  let ckeys ← forUp 0 sibling.n
    (fun i keys => sibling.key i >>= fun sk => wr keys (i + MIN_DEGREE) (some sk)) ckeys
  let cch ← if !child.leaf then
      forUp 0 (sibling.n + 1)
        (fun i cs => rd sibling.children i >>= wr cs (i + MIN_DEGREE)) child.children
    else some child.children
  let keys ← forUp (idx + 1) x.n (fun i keys => moveKey keys (i - 1) i) x.keys
  let children ← forUp (idx + 2) (x.n + 1) (fun i cs => moveChild cs (i - 1) i) x.children
  let x : Node := { x with keys, children, n := x.n - 1 }
  x.setChild idx { child with keys := ckeys, children := cch, n := child.n + sibling.n + 1 }

/-- `fill(idx)` (lines 275–286). -/
def fill (x : Node) (idx : Int) : Option Node := do
  let prevRich ← if idx ≠ 0 then (x.child (idx - 1)).map fun c => decide (MIN_DEGREE ≤ c.n)
    else some false
  if prevRich then x.borrowFromPrev idx
  else do
    let nextRich ← if idx ≠ x.n then (x.child (idx + 1)).map fun c => decide (MIN_DEGREE ≤ c.n)
      else some false
    if nextRich then x.borrowFromNext idx
    else if idx ≠ x.n then x.merge idx
    else x.merge (idx - 1)

/-- `children[i]->f(...)`: apply `f` to child `i` and store the result back. -/
def updateChild (x : Node) (i : Int) (f : Node → Option Node) : Option Node :=
  x.child i >>= f >>= x.setChild i

/-- `removeFromNonLeaf(idx)` (lines 242–257), given `remove` on the children. -/
def removeFromNonLeaf (remove : Node → Int → Option Node) (fuel : Nat) (x : Node)
    (idx : Int) : Option Node := do
  let key ← x.key idx
  let c ← x.child idx
  if MIN_DEGREE ≤ c.n then
    let pred ← x.getPred fuel idx
    let x ← x.setKey idx pred
    x.updateChild idx (remove · pred)
  else
    let c' ← x.child (idx + 1)
    if MIN_DEGREE ≤ c'.n then
      let succ ← x.getSucc fuel idx
      let x ← x.setKey idx succ
      x.updateChild (idx + 1) (remove · succ)
    else
      let x ← x.merge idx
      x.updateChild idx (remove · key)

/-- `remove(key)` (lines 208–234). A key absent from a leaf leaves it unchanged (the source
    prints a message). -/
def remove : Nat → Node → Int → Option Node
  | 0, _, _ => none
  | fuel + 1, x, key => do
    let idx ← x.findKey key
    let found ← if idx < x.n then (x.key idx).map (· == key) else some false
    if found then
      if x.leaf then x.removeFromLeaf idx else x.removeFromNonLeaf (remove fuel) fuel idx
    else if x.leaf then some x
    else
      let flag := idx == x.n
      let c ← x.child idx
      let x ← if c.n < MIN_DEGREE then x.fill idx else some x
      if flag && idx > x.n then x.updateChild (idx - 1) (remove fuel · key)
      else x.updateChild idx (remove fuel · key)

/-! ## Search and insertion -/

/-- `search(key)` (lines 356–368): `some none` is `nullptr`. `keys[i]` is read even when the
    loop stopped at `i == n`. -/
def search : Nat → Node → Int → Option (Option Node)
  | 0, _, _ => none
  | fuel + 1, x, key => do
    let i ← x.scanKeys (key > ·) x.n.toNat 0
    let k ← x.key i
    if k == key then some (some x)
    else if x.leaf then some none
    else x.child i >>= fun c => search fuel c key

/-- `splitChild(i, y)` (lines 394–418), with `y = children[i]`. -/
def splitChild (x : Node) (i : Int) (y : Node) : Option Node := do
  let z := new y.leaf
  let zkeys ← forUp 0 (MIN_DEGREE - 1)
    (fun j keys => y.key (j + MIN_DEGREE) >>= fun k => wr keys j (some k)) z.keys
  let zch ← if !y.leaf then
      forUp 0 MIN_DEGREE (fun j cs => rd y.children (j + MIN_DEGREE) >>= wr cs j) z.children
    else some z.children
  let x ← x.setChild i { y with n := MIN_DEGREE - 1 }
  let children ← forDown x.n (i + 1) (fun j cs => moveChild cs (j + 1) j) x.children
  let z : Node := { z with keys := zkeys, children := zch, n := MIN_DEGREE - 1 }
  let children ← wr children (i + 1) (some z)
  let keys ← forDown (x.n - 1) i (fun j keys => moveKey keys (j + 1) j) x.keys
  let m ← y.key (MIN_DEGREE - 1)
  let keys ← wr keys i (some m)
  some { x with keys, children, n := x.n + 1 }

/-- `insertNonFull(key)` (lines 370–392). -/
def insertNonFull : Nat → Node → Int → Option Node
  | 0, _, _ => none
  | fuel + 1, x, key =>
    if x.leaf then do
      let (i, keys) ← insertScan key true x.n.toNat (x.n - 1) x.keys
      let keys ← wr keys (i + 1) (some key)
      some { x with keys, n := x.n + 1 }
    else do
      let (i, _) ← insertScan key false x.n.toNat (x.n - 1) x.keys
      let c ← x.child (i + 1)
      let (x, i) ← if c.n = 2 * MIN_DEGREE - 1 then do
          let x ← x.splitChild (i + 1) c
          let k ← x.key (i + 1)
          some (x, if k < key then i + 1 else i)
        else some (x, i)
      x.updateChild (i + 1) (insertNonFull fuel · key)

/-! ## Reading a node as a part_006 node -/

mutual
/-- The keys `keys[0..n)` and, for an internal node, the children `children[0..n]`. -/
def toBTree : Node → Option BTreeNode
  | ⟨leaf, keys, children, n⟩ => do
    let ks ← (keys.take n.toNat).mapM id
    let cs ← if leaf then some [] else toBTreeChildren children (n.toNat + 1)
    some ⟨leaf, ks, cs⟩
/-- The first `count` children, none of them empty. -/
def toBTreeChildren : List (Option Node) → Nat → Option (List BTreeNode)
  | _, 0 => some []
  | [], _ + 1 => none
  | none :: _, _ + 1 => none
  | some c :: cs, count + 1 => do
    let b ← toBTree c
    let bs ← toBTreeChildren cs count
    some (b :: bs)
end

/-! ## Deletion breaks the order -/

/-- A leaf holding `ks`; the other key slots were never written. -/
def leafOf (ks : List Int) : Node :=
  ⟨true, ks.map some ++ List.replicate (5 - ks.length) none, List.replicate 6 none, ks.length⟩

/-- An internal node holding `ks` over the children `cs`. -/
def branchOf (ks : List Int) (cs : List Node) : Node :=
  ⟨false, ks.map some ++ List.replicate (5 - ks.length) none,
    cs.map some ++ List.replicate (6 - cs.length) none, ks.length⟩

/-- A B-tree of height two whose left subtree has three keys. -/
def predExample : Node :=
  branchOf [100]
    [branchOf [10, 20, 30] [leafOf [1, 2], leafOf [11, 12], leafOf [21, 22], leafOf [31, 32]],
      branchOf [110, 120] [leafOf [101, 102], leafOf [111, 112], leafOf [121, 122]]]

theorem remove_pred_unordered :
    (∃ b, toBTree predExample = some b ∧ BTreeNode.Valid true 2 none none b) ∧
    ∃ b, (predExample.remove 10 100).bind toBTree = some b ∧
      b.traverse = [1, 2, 10, 11, 12, 20, 21, 30, 31, 32, 22, 101, 102, 110, 111, 112, 120,
        121, 122] ∧ ∀ h, ¬ BTreeNode.Valid true h none none b :=
  ⟨⟨_, rfl, by decide⟩, _, rfl, rfl, fun _ hv => absurd hv.sorted (by decide)⟩

/-! ## `search` reads a stale slot -/

/-- `insertNonFull(1)`, `insertNonFull(2)`, `insertNonFull(3)` into a new leaf root, then
    `remove(3)`. -/
def staleExample : Option Node :=
  (new true).insertNonFull 1 1 >>= (insertNonFull 1 · 2) >>= (insertNonFull 1 · 3) >>=
    (remove 1 · 3)

theorem search_finds_stale_key :
    ∃ x b, staleExample = some x ∧ toBTree x = some b ∧ b.traverse = [1, 2] ∧
      (x.search 1 3).map Option.isSome = some true :=
  ⟨_, _, rfl, rfl, rfl, rfl⟩

end Node

end HpDb.Indexing.TrieIndex
