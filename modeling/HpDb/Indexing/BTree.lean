import Mathlib.Data.List.Sort

/-!
# `BTree` (unnamed/part_006)

The B-tree of minimum degree `MIN_DEGREE = 3`. A node holds `numKeys` keys in a fixed array
of `2 * MIN_DEGREE - 1` slots and, unless it is a leaf, `numKeys + 1` children in an array
of `2 * MIN_DEGREE` slots; the model keeps only the slots in use. `insert` splits a full
root under a new root, and `insertNonFull` splits a full child before it descends into it,
so the node it inserts into always has room.

The invariant `BTreeNode.Valid` is the textbook one, indexed by the height of the node and
the key range it lies in: at most five keys, at least two below the root, one child more
than keys in an internal node, all leaves at the same depth, and the keys of child `i`
between `keys[i-1]` and `keys[i]`. Bounds are not strict, since `insert` keeps duplicates.

Results:
* `BTreeNode.Valid.search_isSome`: in a valid node, `search k` finds a node exactly when
  `k` is in the traversal.
* `BTreeNode.Valid.insertNonFull`: `insertNonFull` into a valid node with room keeps it
  valid and adds `k` to its traversal; `BTree.Valid.insert` lifts this to `insert`.
* `BTree.insertAll_valid`: after any sequence of inserts the tree is valid, its traversal
  is the sorted multiset of the inserted keys, and `search` finds exactly them.
-/

namespace HpDb.Indexing

/-- `MIN_DEGREE` (line 6). -/
def MIN_DEGREE : Nat := 3

@[simp] theorem MIN_DEGREE_eq : MIN_DEGREE = 3 := rfl

/-- `class BTreeNode` (lines 8–26): `leaf`, the keys `keys[0..numKeys)`, and the children
    `children[0..numKeys]` of an internal node. The slots past these are never read. -/
structure BTreeNode where
  leaf : Bool
  keys : List Int
  children : List BTreeNode

namespace BTreeNode

mutual
/-- `traverse` (lines 48–60): the keys in order, each child before the key that follows
    it. -/
def traverse : BTreeNode → List Int
  | ⟨true, keys, _⟩ => keys
  | ⟨false, keys, children⟩ => traverseChildren keys children
/-- The loop of `traverse` over `children[i]` and `keys[i]`, then `children[numKeys]`. -/
def traverseChildren : List Int → List BTreeNode → List Int
  | key :: keys, child :: children => child.traverse ++ key :: traverseChildren keys children
  | [], child :: _ => child.traverse
  | _, [] => []
end

mutual
/-- `search` (lines 62–74): the node that holds `k`, or `nullptr`. -/
def search : BTreeNode → Int → Option BTreeNode
  | ⟨leaf, keys, children⟩, k =>
    let i := (keys.takeWhile (k > ·)).length
    if keys[i]? = some k then some ⟨leaf, keys, children⟩
    else if leaf then none
    else searchChild children i k
/-- `children[i]->search(k)`. -/
def searchChild : List BTreeNode → Nat → Int → Option BTreeNode
  | [], _, _ => none
  | child :: _, 0, k => child.search k
  | _ :: children, i + 1, k => searchChild children i k
end

/-- Where `insertNonFull` puts `k`: its loop `while (i >= 0 && keys[i] > k) i--` runs from
    the last key down past every key above `k`, and ends with `i + 1` keys before the
    slot. -/
def insertPos (keys : List Int) (k : Int) : Nat := (keys.reverse.dropWhile (· > k)).length

/-- `y->keys[MIN_DEGREE - 1]`, the key `splitChild` moves up. -/
def median (y : BTreeNode) : Int := y.keys.getD (MIN_DEGREE - 1) 0

/-- `y` after `splitChild`: its first `MIN_DEGREE - 1` keys and `MIN_DEGREE` children. -/
def splitLeft (y : BTreeNode) : BTreeNode :=
  ⟨y.leaf, y.keys.take (MIN_DEGREE - 1), y.children.take MIN_DEGREE⟩

/-- The node `z` of `splitChild`: the last `MIN_DEGREE - 1` keys of `y` and, unless `y` is a
    leaf, its last `MIN_DEGREE` children. -/
def splitRight (y : BTreeNode) : BTreeNode :=
  ⟨y.leaf, (y.keys.drop MIN_DEGREE).take (MIN_DEGREE - 1),
    if y.leaf then [] else (y.children.drop MIN_DEGREE).take MIN_DEGREE⟩

/-- `splitChild(i, y)` (lines 127–148), called with `y = children[i]`: `y` keeps its first
    half, `z` goes in at `i + 1`, and the median of `y` goes in at `keys[i]`. -/
def splitChild (t : BTreeNode) (i : Nat) (y : BTreeNode) : BTreeNode :=
  ⟨t.leaf, t.keys.take i ++ y.median :: t.keys.drop i,
    t.children.take i ++ y.splitLeft :: y.splitRight :: t.children.drop (i + 1)⟩

theorem sizeOf_take_le {α : Type} [SizeOf α] (l : List α) (n : Nat) :
    sizeOf (l.take n) ≤ sizeOf l := by
  induction l generalizing n with
  | nil => simp
  | cons a l ih => cases n <;> simp [ih]; omega

theorem sizeOf_drop_le {α : Type} [SizeOf α] (l : List α) (n : Nat) :
    sizeOf (l.drop n) ≤ sizeOf l := by
  induction l generalizing n with
  | nil => simp
  | cons a l ih =>
    cases n with
    | zero => exact Nat.le_refl _
    | succ n => have := ih n; simp only [List.drop_succ_cons, List.cons.sizeOf_spec]; omega

theorem sizeOf_splitLeft_le (y : BTreeNode) : sizeOf y.splitLeft ≤ sizeOf y := by
  obtain ⟨leaf, keys, children⟩ := y
  have := sizeOf_take_le keys (MIN_DEGREE - 1)
  have := sizeOf_take_le children MIN_DEGREE
  simp only [splitLeft, mk.sizeOf_spec]
  omega

theorem sizeOf_splitRight_le (y : BTreeNode) : sizeOf y.splitRight ≤ sizeOf y := by
  obtain ⟨leaf, keys, children⟩ := y
  have := (sizeOf_take_le _ (MIN_DEGREE - 1)).trans (sizeOf_drop_le keys MIN_DEGREE)
  have := (sizeOf_take_le _ MIN_DEGREE).trans (sizeOf_drop_le children MIN_DEGREE)
  have : sizeOf ([] : List BTreeNode) ≤ sizeOf children := by
    cases children <;> simp only [List.nil.sizeOf_spec, List.cons.sizeOf_spec] <;> omega
  simp only [splitRight, mk.sizeOf_spec]
  split <;> omega

/-- `insertNonFull` (lines 99–125). In an internal node a full child is split first
    (`splitChild`), and `k` goes into the half whose range holds it. Only the termination
    proof reads `_hc`, that the child is one of `children`. -/
def insertNonFull : BTreeNode → Int → BTreeNode
  | ⟨true, keys, children⟩, k =>
    let i := insertPos keys k
    ⟨true, keys.take i ++ k :: keys.drop i, children⟩
  | ⟨false, keys, children⟩, k =>
    let i := insertPos keys k
    match _hc : children[i]? with
    | none => ⟨false, keys, children⟩
    | some c =>
      if c.keys.length = 2 * MIN_DEGREE - 1 then
        if c.median < k then
          ⟨false, keys.take i ++ c.median :: keys.drop i,
            children.take i ++ c.splitLeft :: c.splitRight.insertNonFull k ::
              children.drop (i + 1)⟩
        else
          ⟨false, keys.take i ++ c.median :: keys.drop i,
            children.take i ++ c.splitLeft.insertNonFull k :: c.splitRight ::
              children.drop (i + 1)⟩
      else ⟨false, keys, children.set i (c.insertNonFull k)⟩
termination_by t => sizeOf t
decreasing_by
  all_goals
    have : sizeOf c < sizeOf children := List.sizeOf_lt_of_mem (List.getElem?_mem _hc)
    simp only [mk.sizeOf_spec]
  · have := sizeOf_splitRight_le c; omega
  · have := sizeOf_splitLeft_le c; omega
  · omega

theorem insertPos_le (keys : List Int) (k : Int) : insertPos keys k ≤ keys.length :=
  (List.IsSuffix.length_le (List.dropWhile_suffix _)).trans_eq (List.length_reverse _)

theorem modify_append_of_length {α : Type} {f : α → α} {l₁ : List α} {n : Nat}
    (h : l₁.length = n) (l₂ : List α) (j : Nat) :
    (l₁ ++ l₂).modify f (n + j) = l₁ ++ l₂.modify f j := by
  subst h
  induction l₁ with
  | nil => simp
  | cons a l₁ ih => rw [List.length_cons, Nat.add_right_comm, List.cons_append,
      List.modify_succ_cons, ih, List.cons_append]

/-- The full-child case of `insertNonFull` is `splitChild` followed by the insertion into
    `children[i]` or `children[i + 1]`, as the source writes it. -/
theorem insertNonFull_of_full {keys : List Int} {children : List BTreeNode} {k : Int}
    {c : BTreeNode} (hc : children[insertPos keys k]? = some c)
    (hfull : c.keys.length = 2 * MIN_DEGREE - 1) :
    insertNonFull ⟨false, keys, children⟩ k =
      let s := splitChild ⟨false, keys, children⟩ (insertPos keys k) c
      let j := if s.keys.getD (insertPos keys k) 0 < k then insertPos keys k + 1
        else insertPos keys k
      ⟨false, s.keys, s.children.modify (·.insertNonFull k) j⟩ := by
  have hle := insertPos_le keys k
  have hlen : (children.take (insertPos keys k)).length = insertPos keys k :=
    List.length_take_of_le (List.getElem?_eq_some_iff.mp hc).1.le
  have hmed : (keys.take (insertPos keys k) ++ c.median :: keys.drop (insertPos keys k)).getD
      (insertPos keys k) 0 = c.median := by
    rw [List.getD_eq_getElem?_getD, List.getElem?_append_right (by simp), List.length_take,
      Nat.min_eq_left hle, Nat.sub_self, List.getElem?_cons_zero, Option.getD_some]
  rw [BTreeNode.insertNonFull]
  split
  · rename_i hnone; rw [hnone] at hc; cases hc
  · rename_i c' hc'
    rw [hc'] at hc; cases hc
    simp only [splitChild, if_pos hfull, hmed]
    split_ifs
    · rw [modify_append_of_length hlen _ 1, List.modify_succ_cons, List.modify_zero_cons]
    · have h₀ := modify_append_of_length (f := (·.insertNonFull k)) hlen
        (c.splitLeft :: c.splitRight :: children.drop (insertPos keys k + 1)) 0
      rw [Nat.add_zero, List.modify_zero_cons] at h₀
      rw [h₀]

end BTreeNode

/-- `class BTree` (lines 28–46): the root, `nullptr` while the tree is empty. -/
structure BTree where
  root : Option BTreeNode

namespace BTree

/-- `BTree()`. -/
def new : BTree := ⟨none⟩

/-- `BTree::insert` (lines 76–97). A full root is split under a new root first. -/
def insert (t : BTree) (k : Int) : BTree :=
  match t.root with
  | none => ⟨some ⟨true, [k], []⟩⟩
  | some root =>
    if root.keys.length = 2 * MIN_DEGREE - 1 then
      let s := BTreeNode.splitChild ⟨false, [], [root]⟩ 0 root
      let i := if s.keys.getD 0 0 < k then 1 else 0
      ⟨some ⟨s.leaf, s.keys, s.children.modify (·.insertNonFull k) i⟩⟩
    else ⟨some (root.insertNonFull k)⟩

/-- `BTree::search`. -/
def search (t : BTree) (k : Int) : Option BTreeNode := t.root.bind (·.search k)

/-- `BTree::traverse`: the keys it prints. -/
def traverse (t : BTree) : List Int := (t.root.map BTreeNode.traverse).getD []

/-- The tree after the calls `insert(k)` for the keys `ks` in turn. -/
def insertAll (ks : List Int) : BTree := ks.foldl insert new

end BTree

/-! ## The B-tree invariant -/

namespace BTreeNode

instance (l : List BTreeNode) : Decidable (l = []) := decidable_of_iff l.isEmpty List.isEmpty_iff

/-- `k` is at least the lower bound; `none` is the left edge of the key space. -/
def AtLeast : Option Int → Int → Prop
  | none, _ => True
  | some lo, k => lo ≤ k

/-- `k` is at most the upper bound; `none` is the right edge. -/
def AtMost : Option Int → Int → Prop
  | none, _ => True
  | some hi, k => k ≤ hi

instance : ∀ lo k, Decidable (AtLeast lo k)
  | none, _ => inferInstanceAs (Decidable True)
  | some lo, k => inferInstanceAs (Decidable (lo ≤ k))

instance : ∀ hi k, Decidable (AtMost hi k)
  | none, _ => inferInstanceAs (Decidable True)
  | some hi, k => inferInstanceAs (Decidable (k ≤ hi))

/-- `k` lies in `[lo, hi]`. Bounds are not strict: equal keys may sit on either side of a
    separator, since `insert` keeps duplicates. -/
def InRange (lo hi : Option Int) (k : Int) : Prop := AtLeast lo k ∧ AtMost hi k

instance (lo hi : Option Int) (k : Int) : Decidable (InRange lo hi k) :=
  inferInstanceAs (Decidable (_ ∧ _))

/-- The children `cs` of a node with keys `ks` inside `[lo, hi]`: child `i` satisfies `P`
    within `[keys[i-1], keys[i]]`, each key lies between the key before it and `hi`, and
    there is one child more than keys. -/
def Chain (P : Option Int → Option Int → BTreeNode → Prop) :
    Option Int → List Int → List BTreeNode → Option Int → Prop
  | lo, [], [c], hi => P lo hi c
  | lo, k :: ks, c :: cs, hi => P lo (some k) c ∧ InRange lo hi k ∧ Chain P (some k) ks cs hi
  | _, _, _, _ => False

instance decChain (P : Option Int → Option Int → BTreeNode → Prop)
    [∀ lo hi c, Decidable (P lo hi c)] :
    ∀ lo ks cs hi, Decidable (Chain P lo ks cs hi)
  | _, [], [], _ => isFalse (by simp [Chain])
  | lo, [], [c], hi => inferInstanceAs (Decidable (P lo hi c))
  | _, [], _ :: _ :: _, _ => isFalse (by simp [Chain])
  | _, _ :: _, [], _ => isFalse (by simp [Chain])
  | lo, k :: ks, c :: cs, hi =>
    have := decChain P (some k) ks cs hi
    inferInstanceAs (Decidable (_ ∧ _ ∧ _))

/-- `Valid isRoot h lo hi t`: `t` is a B-tree of minimum degree `MIN_DEGREE` whose leaves
    all lie `h` levels down, with keys in `[lo, hi]`. Every node holds at most
    `2 * MIN_DEGREE - 1` keys, and at least `MIN_DEGREE - 1` unless it is the root; a leaf
    holds its keys in non-decreasing order and no children; an internal node with `n` keys
    has `n + 1` children, and child `i` lies between `keys[i-1]` and `keys[i]`. -/
def Valid (isRoot : Bool) : Nat → Option Int → Option Int → BTreeNode → Prop
  | 0, lo, hi, ⟨leaf, keys, children⟩ =>
    leaf = true ∧ children = [] ∧ keys.length ≤ 2 * MIN_DEGREE - 1 ∧
      (isRoot = false → MIN_DEGREE - 1 ≤ keys.length) ∧ keys.Pairwise (· ≤ ·) ∧
      ∀ k ∈ keys, InRange lo hi k
  | h + 1, lo, hi, ⟨leaf, keys, children⟩ =>
    leaf = false ∧ keys.length ≤ 2 * MIN_DEGREE - 1 ∧
      (isRoot = false → MIN_DEGREE - 1 ≤ keys.length) ∧ Chain (Valid false h) lo keys children hi

instance decValid (isRoot : Bool) :
    ∀ h lo hi t, Decidable (Valid isRoot h lo hi t)
  | 0, _, _, ⟨_, _, _⟩ => inferInstanceAs (Decidable (_ ∧ _ ∧ _ ∧ _ ∧ _ ∧ _))
  | h + 1, _, _, ⟨_, _, _⟩ =>
    have := decValid false h
    inferInstanceAs (Decidable (_ ∧ _ ∧ _ ∧ _))


/-! ### Bounds and chains -/

theorem AtLeast.trans {lo : Option Int} {a b : Int} (h : AtLeast lo a) (hab : a ≤ b) :
    AtLeast lo b := by
  cases lo with
  | none => trivial
  | some l => exact Int.le_trans h hab

theorem AtMost.trans {hi : Option Int} {a b : Int} (h : AtMost hi b) (hab : a ≤ b) :
    AtMost hi a := by
  cases hi with
  | none => trivial
  | some u => exact Int.le_trans hab h

/-- The lower bound of child `i`: `lo` for the first child, `keys[i - 1]` after it. -/
def lowerAt (lo : Option Int) (ks : List Int) : Nat → Option Int
  | 0 => lo
  | i + 1 => ks[i]?

theorem lowerAt_cons (lo : Option Int) (k : Int) (ks : List Int) (i : Nat) :
    lowerAt lo (k :: ks) (i + 1) = lowerAt (some k) ks i := by
  cases i <;> simp [lowerAt]

section Chain

variable {P : Option Int → Option Int → BTreeNode → Prop}

theorem Chain.length_eq : ∀ {lo : Option Int} {ks : List Int} {cs : List BTreeNode}
    {hi : Option Int}, Chain P lo ks cs hi → cs.length = ks.length + 1
  | _, [], [_], _, _ => rfl
  | _, _ :: _, _ :: _, _, h => by simp [Chain.length_eq h.2.2]
  | _, [], [], _, h | _, [], _ :: _ :: _, _, h | _, _ :: _, [], _, h => by simp [Chain] at h

theorem Chain.mono {Q : Option Int → Option Int → BTreeNode → Prop}
    (hPQ : ∀ lo hi c, P lo hi c → Q lo hi c) : ∀ {lo : Option Int} {ks : List Int}
    {cs : List BTreeNode} {hi : Option Int}, Chain P lo ks cs hi → Chain Q lo ks cs hi
  | _, [], [_], _, h => hPQ _ _ _ h
  | _, _ :: _, _ :: _, _, h => ⟨hPQ _ _ _ h.1, h.2.1, Chain.mono hPQ h.2.2⟩
  | _, [], [], _, h | _, [], _ :: _ :: _, _, h | _, _ :: _, [], _, h => by simp [Chain] at h

/-- The keys of a chain are in order and inside its bounds. -/
theorem Chain.keys : ∀ {lo : Option Int} {ks : List Int} {cs : List BTreeNode}
    {hi : Option Int}, Chain P lo ks cs hi → ks.Pairwise (· ≤ ·) ∧ ∀ k ∈ ks, InRange lo hi k
  | _, [], _, _, _ => ⟨.nil, by simp⟩
  | _, k :: _, _ :: _, _, h => by
    obtain ⟨hs, hr⟩ := Chain.keys h.2.2
    refine ⟨.cons (fun x hx => (hr x hx).1) hs, ?_⟩
    rintro x (_ | ⟨_, hx⟩)
    · exact h.2.1
    · exact ⟨h.2.1.1.trans (hr x hx).1, (hr x hx).2⟩
  | _, _ :: _, [], _, h => by simp [Chain] at h

/-- Child `i` satisfies `P` within its bounds. -/
theorem Chain.child : ∀ {i : Nat} {lo : Option Int} {ks : List Int} {cs : List BTreeNode}
    {hi : Option Int} {c : BTreeNode}, Chain P lo ks cs hi → cs[i]? = some c →
    P (lowerAt lo ks i) (ks[i]?.or hi) c
  | 0, _, [], [_], _, _, h, hc => by
    simp only [List.getElem?_cons_zero, Option.some.injEq] at hc
    subst hc; simpa [lowerAt] using h
  | 0, _, _ :: _, _ :: _, _, _, h, hc => by
    simp only [List.getElem?_cons_zero, Option.some.injEq] at hc
    subst hc; simpa [lowerAt] using h.1
  | i + 1, _, k :: ks, _ :: cs, _, _, h, hc => by
    rw [lowerAt_cons, List.getElem?_cons_succ]
    exact Chain.child h.2.2 (by simpa using hc)
  | i + 1, _, [], [_], _, _, _, hc => by simp at hc
  | _, _, [], [], _, _, h, _ | _, _, [], _ :: _ :: _, _, _, h, _
  | _, _, _ :: _, [], _, _, h, _ => by simp [Chain] at h

/-- Replacing child `i` by a node that satisfies `P` within the same bounds. -/
theorem Chain.set {c' : BTreeNode} : ∀ {i : Nat} {lo : Option Int} {ks : List Int}
    {cs : List BTreeNode} {hi : Option Int}, Chain P lo ks cs hi → i < cs.length →
    P (lowerAt lo ks i) (ks[i]?.or hi) c' → Chain P lo ks (cs.set i c') hi
  | 0, _, [], [_], _, _, _, hc => by simpa [lowerAt] using hc
  | 0, _, _ :: _, _ :: _, _, h, _, hc => ⟨by simpa [lowerAt] using hc, h.2⟩
  | i + 1, _, _ :: _, _ :: _, _, h, hi, hc =>
    ⟨h.1, h.2.1, Chain.set h.2.2 (by simpa using hi)
      (by rwa [lowerAt_cons, List.getElem?_cons_succ] at hc)⟩
  | i + 1, _, [], [_], _, _, hi, _ => by simp at hi
  | _, _, [], [], _, h, _, _ | _, _, [], _ :: _ :: _, _, h, _, _
  | _, _, _ :: _, [], _, h, _, _ => by simp [Chain] at h

/-- Replacing child `i` by `y`, a new key `m` and `z`, the split of the child around `m`. -/
theorem Chain.split {m : Int} {y z : BTreeNode} : ∀ {i : Nat} {lo : Option Int}
    {ks : List Int} {cs : List BTreeNode} {hi : Option Int}, Chain P lo ks cs hi →
    i < cs.length → P (lowerAt lo ks i) (some m) y → P (some m) (ks[i]?.or hi) z →
    InRange (lowerAt lo ks i) (ks[i]?.or hi) m →
    Chain P lo (ks.take i ++ m :: ks.drop i) (cs.take i ++ y :: z :: cs.drop (i + 1)) hi
  | 0, _, [], [_], _, _, _, hy, hz, hm => by
    simp only [lowerAt, List.getElem?_nil, Option.none_or] at hy hz hm
    exact ⟨hy, hm, hz⟩
  | 0, _, k :: _, _ :: _, _, h, _, hy, hz, hm => by
    simp only [lowerAt, List.getElem?_cons_zero, Option.or_some] at hy hz hm
    exact ⟨hy, ⟨hm.1, h.2.1.2.trans hm.2⟩, hz, ⟨hm.2, h.2.1.2⟩, h.2.2⟩
  | i + 1, _, _ :: _, _ :: _, _, h, hi, hy, hz, hm => by
    rw [lowerAt_cons] at hy hm
    rw [List.getElem?_cons_succ] at hz hm
    exact ⟨h.1, h.2.1, Chain.split h.2.2 (by simpa using hi) hy hz hm⟩
  | i + 1, _, [], [_], _, _, hi, _, _, _ => by simp at hi
  | _, _, [], [], _, h, _, _, _, _ | _, _, [], _ :: _ :: _, _, h, _, _, _, _
  | _, _, _ :: _, [], _, h, _, _, _, _ => by simp [Chain] at h

end Chain

/-! ### Where `insertNonFull` and `search` stop in a node -/

theorem insertPos_append_singleton (ks : List Int) (x k : Int) :
    insertPos (ks ++ [x]) k = if k < x then insertPos ks k else ks.length + 1 := by
  by_cases hx : k < x <;> simp [insertPos, List.dropWhile_cons, hx]

/-- In a sorted node the keys before `insertPos` are at most `k` and those from it on are
    above `k`. -/
theorem insertPos_spec {ks : List Int} (hs : ks.Pairwise (· ≤ ·)) (k : Int) :
    insertPos ks k ≤ ks.length ∧ (∀ x ∈ ks.take (insertPos ks k), x ≤ k) ∧
      ∀ x ∈ ks.drop (insertPos ks k), k < x := by
  induction ks using List.reverseRecOn with
  | nil => simp [insertPos]
  | append_singleton ks x ih =>
    obtain ⟨hs', -, hx⟩ := List.pairwise_append.mp hs
    rw [insertPos_append_singleton]
    split_ifs with hkx
    · obtain ⟨hle, htake, hdrop⟩ := ih hs'
      refine ⟨by simp; omega, by rwa [List.take_append_of_le_length hle], ?_⟩
      rw [List.drop_append_of_le_length hle]
      intro y hy
      rcases List.mem_append.mp hy with hy | hy
      · exact hdrop y hy
      · rwa [List.mem_singleton.mp hy]
    · refine ⟨by simp, ?_, by simp⟩
      rw [List.take_of_length_le (by simp)]
      intro y hy
      rcases List.mem_append.mp hy with hy | hy
      · exact Int.le_trans (hx y hy x (List.mem_singleton_self x)) (Int.not_lt.mp hkx)
      · rw [List.mem_singleton.mp hy]; exact Int.not_lt.mp hkx

theorem searchPos_cons (x k : Int) (ks : List Int) :
    ((x :: ks).takeWhile (k > ·)).length =
      if k > x then (ks.takeWhile (k > ·)).length + 1 else 0 := by
  by_cases h : k > x <;> simp [List.takeWhile_cons, h]

/-- In a sorted node, `search` stops at `k` exactly when `k` is one of the keys. -/
theorem getElem?_searchPos {ks : List Int} (hs : ks.Pairwise (· ≤ ·)) (k : Int) :
    ks[(ks.takeWhile (k > ·)).length]? = some k ↔ k ∈ ks := by
  induction ks with
  | nil => simp
  | cons x ks ih =>
    obtain ⟨hx, hs⟩ := List.pairwise_cons.mp hs
    rw [searchPos_cons, List.mem_cons]
    split_ifs with hkx
    · rw [List.getElem?_cons_succ, ih hs]
      exact ⟨.inr, fun h => h.resolve_left (by omega)⟩
    · rw [List.getElem?_cons_zero, Option.some.injEq]
      refine ⟨fun h => .inl h.symm, ?_⟩
      rintro (h | h)
      · exact h.symm
      · have := hx k h; omega

/-! ### The traversal around one child -/

/-- The part of `traverse` before child `i`: the children `cs` and the keys `ks` after
    them. -/
def prefixPart (ks : List Int) (cs : List BTreeNode) : List Int :=
  (List.zipWith (fun c k => c.traverse ++ [k]) cs ks).flatten

/-- The part of `traverse` after a child: the keys `ks` and the children `cs` after them. -/
def suffixPart : List Int → List BTreeNode → List Int
  | [], _ => []
  | k :: ks, cs => k :: traverseChildren ks cs

theorem traverseChildren_append {ks₁ : List Int} {cs₁ : List BTreeNode} (ks₂ : List Int)
    (cs₂ : List BTreeNode) (h : cs₁.length = ks₁.length) :
    traverseChildren (ks₁ ++ ks₂) (cs₁ ++ cs₂) = prefixPart ks₁ cs₁ ++ traverseChildren ks₂ cs₂ := by
  induction ks₁ generalizing cs₁ with
  | nil =>
    cases cs₁ with
    | nil => simp [prefixPart]
    | cons => simp at h
  | cons k ks₁ ih =>
    cases cs₁ with
    | nil => simp at h
    | cons c cs₁ =>
      simp only [List.cons_append, traverseChildren, List.append_eq, ih (by simpa using h), prefixPart,
        List.nil_append,
        List.zipWith_cons_cons, List.flatten_cons, List.append_assoc, List.singleton_append]

theorem traverseChildren_cons (ks : List Int) (c : BTreeNode) (cs : List BTreeNode) :
    traverseChildren ks (c :: cs) = c.traverse ++ suffixPart ks cs := by
  cases ks <;> simp [traverseChildren, suffixPart]

/-- With child `i` replaced by `c`, the traversal is what comes before child `i`, then `c`,
    then what comes after. -/
theorem traverseChildren_at {ks : List Int} {cs : List BTreeNode} {i : Nat}
    (hi : i ≤ ks.length) (hlen : cs.length = ks.length + 1) (c : BTreeNode) :
    traverseChildren ks (cs.take i ++ c :: cs.drop (i + 1)) =
      prefixPart (ks.take i) (cs.take i) ++ c.traverse ++ suffixPart (ks.drop i) (cs.drop (i + 1)) := by
  conv_lhs => rw [← List.take_append_drop i ks]
  rw [traverseChildren_append _ _ (by simp; omega), traverseChildren_cons, List.append_assoc]

theorem traverseChildren_of_getElem? {ks : List Int} {cs : List BTreeNode} {i : Nat}
    {c : BTreeNode} (hi : i ≤ ks.length) (hlen : cs.length = ks.length + 1)
    (hc : cs[i]? = some c) :
    traverseChildren ks cs =
      prefixPart (ks.take i) (cs.take i) ++ c.traverse ++ suffixPart (ks.drop i) (cs.drop (i + 1)) := by
  have hi' : i < cs.length := by omega
  conv_lhs => rw [← List.take_append_drop i cs, List.drop_eq_getElem_cons hi',
    (List.getElem?_eq_some_iff.mp hc).2]
  exact traverseChildren_at hi hlen c

/-- With child `i` split into `y`, `m` and `z`. -/
theorem traverseChildren_split {ks : List Int} {cs : List BTreeNode} {i : Nat}
    (hi : i ≤ ks.length) (hlen : cs.length = ks.length + 1) (m : Int) (y z : BTreeNode) :
    traverseChildren (ks.take i ++ m :: ks.drop i) (cs.take i ++ y :: z :: cs.drop (i + 1)) =
      prefixPart (ks.take i) (cs.take i) ++ (y.traverse ++ m :: z.traverse) ++
        suffixPart (ks.drop i) (cs.drop (i + 1)) := by
  rw [traverseChildren_append _ _ (by simp; omega)]
  simp [traverseChildren, traverseChildren_cons]

theorem mem_traverseChildren_of_mem : ∀ {ks : List Int} {cs : List BTreeNode} {k : Int},
    cs.length = ks.length + 1 → k ∈ ks → k ∈ traverseChildren ks cs
  | x :: ks, _ :: cs, k, hlen, hk => by
    rcases List.mem_cons.mp hk with rfl | hk
    · simp [traverseChildren]
    · simp [traverseChildren, mem_traverseChildren_of_mem (by simpa using hlen) hk]
  | [], _, _, _, hk => absurd hk (List.not_mem_nil _)
  | _ :: _, [], _, hlen, _ => by simp at hlen

/-! ### Order and search -/

section Chain

variable {P : Option Int → Option Int → BTreeNode → Prop}

/-- The traversal of a chain stays within its bounds. -/
theorem Chain.bounds (hP : ∀ lo hi c, P lo hi c → ∀ x ∈ c.traverse, InRange lo hi x) :
    ∀ {lo : Option Int} {ks : List Int} {cs : List BTreeNode} {hi : Option Int},
    Chain P lo ks cs hi → ∀ x ∈ traverseChildren ks cs, InRange lo hi x
  | _, [], [_], _, h => hP _ _ _ h
  | _, k :: _, _ :: _, _, h => by
    intro x hx
    simp only [traverseChildren, List.mem_append, List.mem_cons] at hx
    rcases hx with hx | rfl | hx
    · exact ⟨(hP _ _ _ h.1 x hx).1, h.2.1.2.trans (hP _ _ _ h.1 x hx).2⟩
    · exact h.2.1
    · have := Chain.bounds hP h.2.2 x hx
      exact ⟨h.2.1.1.trans this.1, this.2⟩
  | _, [], [], _, h | _, [], _ :: _ :: _, _, h | _, _ :: _, [], _, h => by simp [Chain] at h

/-- The traversal of a chain of sorted children is sorted. -/
theorem Chain.sorted (hP : ∀ lo hi c, P lo hi c →
      c.traverse.Pairwise (· ≤ ·) ∧ ∀ x ∈ c.traverse, InRange lo hi x) :
    ∀ {lo : Option Int} {ks : List Int} {cs : List BTreeNode} {hi : Option Int},
    Chain P lo ks cs hi → (traverseChildren ks cs).Pairwise (· ≤ ·)
  | _, [], [_], _, h => (hP _ _ _ h).1
  | _, k :: _, _ :: _, _, h => by
    have hb := Chain.bounds (fun lo hi c hc => (hP lo hi c hc).2) h.2.2
    obtain ⟨hs, hr⟩ := hP _ _ _ h.1
    refine List.pairwise_append.mpr ⟨hs, List.pairwise_cons.mpr
      ⟨fun x hx => (hb x hx).1, Chain.sorted hP h.2.2⟩, fun a ha b hb' => ?_⟩
    rcases List.mem_cons.mp hb' with rfl | hb'
    · exact (hr a ha).2
    · exact Int.le_trans (hr a ha).2 (hb b hb').1
  | _, [], [], _, h | _, [], _ :: _ :: _, _, h | _, _ :: _, [], _, h => by simp [Chain] at h

/-- Below the keys, `search` follows the one child whose bounds can hold `k`. -/
theorem Chain.searchChild_isSome {k : Int} (hP : ∀ lo hi c, P lo hi c → ((c.search k).isSome ↔ k ∈ c.traverse))
    (hb : ∀ lo hi c, P lo hi c → ∀ x ∈ c.traverse, InRange lo hi x) :
    ∀ {lo : Option Int} {ks : List Int} {cs : List BTreeNode} {hi : Option Int},
    Chain P lo ks cs hi → ks[(ks.takeWhile (k > ·)).length]? ≠ some k →
    ((searchChild cs (ks.takeWhile (k > ·)).length k).isSome ↔ k ∈ traverseChildren ks cs)
  | _, [], [_], _, h, _ => by simpa [searchChild, traverseChildren] using hP _ _ _ h
  | _, x :: ks, c :: cs, _, h, hne => by
    rw [searchPos_cons] at hne ⊢
    split_ifs at hne ⊢ with hkx
    · rw [List.getElem?_cons_succ] at hne
      rw [searchChild, Chain.searchChild_isSome hP hb h.2.2 hne, traverseChildren]
      simp only [List.mem_append, List.mem_cons]
      have : k ∉ c.traverse := fun hc => by have := (hb _ _ _ h.1 k hc).2; simp [AtMost] at this; omega
      exact ⟨fun h => .inr (.inr h), fun h => (h.resolve_left this).resolve_left (by omega)⟩
    · rw [List.getElem?_cons_zero, ne_eq, Option.some.injEq] at hne
      rw [searchChild, hP _ _ _ h.1, traverseChildren]
      simp only [List.mem_append, List.mem_cons]
      have : k ∉ traverseChildren ks cs := fun hc => by
        have := (Chain.bounds hb h.2.2 k hc).1; simp [AtLeast] at this; omega
      exact ⟨.inl, fun h => (h.resolve_right (by rintro (rfl | h); exacts [hne rfl, this h]))⟩
  | _, [], [], _, h, _ | _, [], _ :: _ :: _, _, h, _ | _, _ :: _, [], _, h, _ => by
    simp [Chain] at h

end Chain

theorem Valid.bounds : ∀ {h : Nat} {r : Bool} {lo hi : Option Int} {t : BTreeNode},
    Valid r h lo hi t → ∀ x ∈ t.traverse, InRange lo hi x
  | 0, _, _, _, ⟨_, _, _⟩, hv => by
    obtain ⟨rfl, -, -, -, -, hr⟩ := hv
    exact hr
  | _ + 1, _, _, _, ⟨_, _, _⟩, hv => by
    obtain ⟨rfl, -, -, hc⟩ := hv
    exact Chain.bounds (fun _ _ _ hc => Valid.bounds hc) hc

/-- The traversal of a B-tree is sorted. -/
theorem Valid.sorted : ∀ {h : Nat} {r : Bool} {lo hi : Option Int} {t : BTreeNode},
    Valid r h lo hi t → t.traverse.Pairwise (· ≤ ·)
  | 0, _, _, _, ⟨_, _, _⟩, hv => by
    obtain ⟨rfl, -, -, -, hs, -⟩ := hv
    exact hs
  | _ + 1, _, _, _, ⟨_, _, _⟩, hv => by
    obtain ⟨rfl, -, -, hc⟩ := hv
    exact Chain.sorted (fun _ _ _ hc => ⟨Valid.sorted hc, Valid.bounds hc⟩) hc

/-- `search` finds exactly the keys of the tree. -/
theorem Valid.search_isSome {k : Int} : ∀ {h : Nat} {r : Bool} {lo hi : Option Int} {t : BTreeNode},
    Valid r h lo hi t → ((t.search k).isSome ↔ k ∈ t.traverse)
  | 0, _, _, _, ⟨_, keys, _⟩, hv => by
    obtain ⟨rfl, -, -, -, hs, -⟩ := hv
    rw [search, traverse, ← getElem?_searchPos hs k]
    by_cases h : keys[(keys.takeWhile (k > ·)).length]? = some k <;> simp [h]
  | _ + 1, _, _, _, ⟨_, keys, children⟩, hv => by
    obtain ⟨rfl, -, -, hc⟩ := hv
    rw [search, traverse]
    by_cases h : keys[(keys.takeWhile (k > ·)).length]? = some k
    · simpa [h] using mem_traverseChildren_of_mem hc.length_eq (List.getElem?_mem h)
    · simp only [h, if_false, Bool.false_eq_true]
      exact Chain.searchChild_isSome (fun _ _ _ hc => Valid.search_isSome hc)
        (fun _ _ _ hc => Valid.bounds hc) hc h

/-! ### Insertion keeps the invariant -/

theorem Valid.keys_le : ∀ {h : Nat} {r : Bool} {lo hi : Option Int} {t : BTreeNode},
    Valid r h lo hi t → t.keys.length ≤ 2 * MIN_DEGREE - 1
  | 0, _, _, _, ⟨_, _, _⟩, hv => hv.2.2.1
  | _ + 1, _, _, _, ⟨_, _, _⟩, hv => hv.2.1

/-- A root with at least `MIN_DEGREE - 1` keys is also a valid non-root node. -/
theorem Valid.nonRoot : ∀ {h : Nat} {lo hi : Option Int} {t : BTreeNode},
    Valid true h lo hi t → MIN_DEGREE - 1 ≤ t.keys.length → Valid false h lo hi t
  | 0, _, _, ⟨_, _, _⟩, hv, hk => ⟨hv.1, hv.2.1, hv.2.2.1, fun _ => hk, hv.2.2.2.2⟩
  | _ + 1, _, _, ⟨_, _, _⟩, hv, hk => ⟨hv.1, hv.2.1, fun _ => hk, hv.2.2.2⟩

/-- A chain splits at any key into the chains on either side of it. -/
theorem Chain.split_at {P : Option Int → Option Int → BTreeNode → Prop} {m : Int}
    {ks₂ : List Int} {cs₂ : List BTreeNode} : ∀ {lo : Option Int} (ks₁ : List Int)
    (cs₁ : List BTreeNode) {hi : Option Int}, cs₁.length = ks₁.length + 1 →
    Chain P lo (ks₁ ++ m :: ks₂) (cs₁ ++ cs₂) hi →
    Chain P lo ks₁ cs₁ (some m) ∧ InRange lo hi m ∧ Chain P (some m) ks₂ cs₂ hi
  | _, [], [_], _, _, h => h
  | _, k :: ks₁, _ :: cs₁, _, hlen, h => by
    obtain ⟨hc, hk, hrest⟩ := h
    obtain ⟨h₁, hm, h₂⟩ := Chain.split_at ks₁ cs₁ (by simpa using hlen) hrest
    exact ⟨⟨hc, ⟨hk.1, hm.1⟩, h₁⟩, ⟨hk.1.trans hm.1, hm.2⟩, h₂⟩
  | _, [], [], _, hlen, _ | _, [], _ :: _ :: _, _, hlen, _ | _, _ :: _, [], _, hlen, _ => by
    simp at hlen

/-- A sorted run of keys splits at any key into the runs on either side of it. -/
theorem split_sorted (ks₁ : List Int) {ks₂ : List Int} {m : Int} {lo hi : Option Int}
    (hs : (ks₁ ++ m :: ks₂).Pairwise (· ≤ ·)) (hr : ∀ k ∈ ks₁ ++ m :: ks₂, InRange lo hi k) :
    (ks₁.Pairwise (· ≤ ·) ∧ ∀ k ∈ ks₁, InRange lo (some m) k) ∧ InRange lo hi m ∧
      ks₂.Pairwise (· ≤ ·) ∧ ∀ k ∈ ks₂, InRange (some m) hi k := by
  obtain ⟨hs₁, hs₂, hx⟩ := List.pairwise_append.mp hs
  obtain ⟨hm, hs₂⟩ := List.pairwise_cons.mp hs₂
  refine ⟨⟨hs₁, fun k hk => ⟨(hr k (by simp [hk])).1, hx k hk m (List.mem_cons_self m ks₂)⟩⟩,
    hr m (by simp), hs₂, fun k hk => ⟨hm k hk, (hr k (by simp [hk])).2⟩⟩

/-- Splitting a full node: both halves are valid nodes of the same height on either side of
    the median, and the traversal is theirs around the median. -/
theorem Valid.split {h : Nat} {lo hi : Option Int} {y : BTreeNode} (hv : Valid false h lo hi y)
    (hfull : y.keys.length = 2 * MIN_DEGREE - 1) :
    Valid false h lo (some y.median) y.splitLeft ∧ Valid false h (some y.median) hi y.splitRight ∧
      InRange lo hi y.median ∧ y.splitRight.keys.length = MIN_DEGREE - 1 ∧
      y.splitLeft.keys.length = MIN_DEGREE - 1 ∧
      y.traverse = y.splitLeft.traverse ++ y.median :: y.splitRight.traverse := by
  obtain ⟨leaf, keys, children⟩ := y
  match h, keys, hfull with
  | 0, [a₀, a₁, a₂, a₃, a₄], _ =>
    obtain ⟨rfl, rfl, -, -, hs, hr⟩ := hv
    obtain ⟨⟨hs₁, hr₁⟩, hm, hs₂, hr₂⟩ :=
      split_sorted [a₀, a₁] hs hr
    simp only [splitLeft, splitRight, median, MIN_DEGREE]
    exact ⟨⟨rfl, rfl, by simp, fun _ => by simp, by simpa using hs₁, by simpa using hr₁⟩,
      ⟨rfl, rfl, by simp, fun _ => by simp, by simpa using hs₂, by simpa using hr₂⟩,
      by simpa using hm, by simp, by simp, by simp [traverse]⟩
  | _ + 1, [a₀, a₁, a₂, a₃, a₄], _ =>
    obtain ⟨rfl, -, -, hc⟩ := hv
    match children, hc.length_eq with
    | [c₀, c₁, c₂, c₃, c₄, c₅], _ =>
      obtain ⟨h₁, hm, h₂⟩ := Chain.split_at [a₀, a₁] [c₀, c₁, c₂] rfl hc
      simp only [splitLeft, splitRight, median, MIN_DEGREE]
      exact ⟨⟨rfl, by simp, fun _ => by simp, by simpa using h₁⟩,
        ⟨rfl, by simp, fun _ => by simp, by simpa using h₂⟩, by simpa using hm, by simp, by simp,
        by simp [traverse, traverseChildren]⟩

theorem perm_middle_of_perm {k : Int} {A M M' D : List Int} (h : M'.Perm (k :: M)) :
    (A ++ M' ++ D).Perm (k :: (A ++ M ++ D)) := by
  simpa only [List.append_assoc] using ((h.append_right D).append_left A).trans List.perm_middle

/-- The bounds of the child that `insertNonFull` descends into hold `k`. -/
theorem inRange_insertPos {lo hi : Option Int} {keys : List Int} {k : Int}
    (hk : InRange lo hi k) (hle : insertPos keys k ≤ keys.length) (htake : ∀ x ∈ keys.take (insertPos keys k), x ≤ k)
    (hdrop : ∀ x ∈ keys.drop (insertPos keys k), k < x) :
    InRange (lowerAt lo keys (insertPos keys k)) (keys[insertPos keys k]?.or hi) k := by
  constructor
  · cases hi : insertPos keys k with
    | zero => exact hk.1
    | succ j =>
      show AtLeast keys[j]? k
      cases hj : keys[j]? with
      | none => rw [List.getElem?_eq_none_iff] at hj; omega
      | some x =>
        have : x ∈ keys.take (insertPos keys k) := by
          rw [hi]; exact List.mem_iff_getElem?.mpr ⟨j, by simp [List.getElem?_take, hj]⟩
        exact htake x this
  · cases hj : keys[insertPos keys k]? with
    | none => simpa using hk.2
    | some x =>
      have : x ∈ keys.drop (insertPos keys k) :=
        List.mem_iff_getElem?.mpr ⟨0, by simpa [List.getElem?_drop] using hj⟩
      exact Int.le_of_lt (hdrop x this)

/-- `insertNonFull` into a node that is not full keeps it a valid node of the same height
    and bounds, and adds `k` to its traversal. -/
theorem Valid.insertNonFull {k : Int} : ∀ {h : Nat} {r : Bool} {lo hi : Option Int}
    {t : BTreeNode}, Valid r h lo hi t → t.keys.length < 2 * MIN_DEGREE - 1 →
    InRange lo hi k →
    Valid r h lo hi (t.insertNonFull k) ∧ (t.insertNonFull k).traverse.Perm (k :: t.traverse)
  | 0, r, lo, hi, ⟨leaf, keys, children⟩, hv, hlen, hk => by
    obtain ⟨rfl, rfl, -, hroot, hs, hr⟩ := hv
    simp only [MIN_DEGREE_eq] at hlen hroot
    obtain ⟨-, htake, hdrop⟩ := insertPos_spec hs k
    have hsplit := List.take_append_drop (insertPos keys k) keys
    rw [BTreeNode.insertNonFull, traverse, traverse]
    refine ⟨⟨rfl, rfl, ?_, fun hr' => ?_, ?_, ?_⟩, ?_⟩
    · simp; omega
    · have := hroot hr'; simp; omega
    · rw [← hsplit] at hs
      refine List.pairwise_append.mpr ⟨List.pairwise_append.mp hs |>.1,
        List.pairwise_cons.mpr ⟨fun b hb => Int.le_of_lt (hdrop b hb),
          List.pairwise_append.mp hs |>.2.1⟩, fun a ha b hb => ?_⟩
      rcases List.mem_cons.mp hb with rfl | hb
      · exact htake a ha
      · exact (List.pairwise_append.mp hs).2.2 a ha b hb
    · intro x hx
      rcases List.mem_append.mp hx with hx | hx
      · exact hr x (List.mem_of_mem_take hx)
      · rcases List.mem_cons.mp hx with rfl | hx
        · exact hk
        · exact hr x (List.mem_of_mem_drop hx)
    · exact List.perm_middle.trans (by rw [hsplit])
  | h + 1, r, lo, hi, ⟨leaf, keys, children⟩, hv, hlen, hk => by
    obtain ⟨rfl, -, hroot, hc⟩ := hv
    simp only [MIN_DEGREE_eq] at hlen hroot
    have hlc := hc.length_eq
    obtain ⟨hle, htake, hdrop⟩ := insertPos_spec hc.keys.1 k
    have hkc := inRange_insertPos hk hle htake hdrop
    have hi : insertPos keys k < children.length := by omega
    obtain ⟨c, hci⟩ : ∃ c, children[insertPos keys k]? = some c :=
      ⟨_, List.getElem?_eq_getElem hi⟩
    have hcv := hc.child hci
    have htr := traverseChildren_of_getElem? hle hlc hci
    rw [BTreeNode.insertNonFull]
    split
    · rename_i hnone; rw [hnone] at hci; cases hci
    · rename_i c' hc'
      rw [hc'] at hci; cases hci
      split_ifs with hfull hlt <;> simp only [traverse] <;> rw [htr]
      · -- the child is full and `k` goes right of the median
        obtain ⟨hL, hR, hm, hlenR, -, hsplit⟩ := hcv.split hfull
        obtain ⟨hR', hpR⟩ := Valid.insertNonFull hR (by rw [hlenR]; decide)
          ⟨Int.le_of_lt hlt, hkc.2⟩
        refine ⟨⟨rfl, by simp; omega, fun hr => by have := hroot hr; simp; omega,
          hc.split hi hL hR' hm⟩, ?_⟩
        rw [traverseChildren_split hle hlc, hsplit]
        exact perm_middle_of_perm
          (((hpR.cons _).trans (List.Perm.swap _ _ _)).append_left _ |>.trans List.perm_middle)
      · -- the child is full and `k` goes left of the median
        obtain ⟨hL, hR, hm, -, hlenL, hsplit⟩ := hcv.split hfull
        obtain ⟨hL', hpL⟩ := Valid.insertNonFull hL (by rw [hlenL]; decide)
          ⟨hkc.1, Int.not_lt.mp hlt⟩
        refine ⟨⟨rfl, by simp; omega, fun hr => by have := hroot hr; simp; omega,
          hc.split hi hL' hR hm⟩, ?_⟩
        rw [traverseChildren_split hle hlc, hsplit]
        exact perm_middle_of_perm (hpL.append_right _)
      · -- the child has room
        obtain ⟨hc', hpc⟩ := Valid.insertNonFull hcv (by have := hcv.keys_le; omega) hkc
        refine ⟨⟨rfl, by simp; omega, fun hr => by simpa using hroot hr, hc.set hi hc'⟩, ?_⟩
        rw [List.set_eq_take_append_cons_drop, if_pos hi, traverseChildren_at hle hlc]
        exact perm_middle_of_perm hpc

end BTreeNode

namespace BTree

open BTreeNode

/-- A tree whose root, if any, is a B-tree root of some height. -/
def Valid (t : BTree) : Prop := ∀ root ∈ t.root, ∃ h, BTreeNode.Valid true h none none root

theorem splitChild_root (y : BTreeNode) :
    splitChild ⟨false, [], [y]⟩ 0 y = ⟨false, [y.median], [y.splitLeft, y.splitRight]⟩ := rfl

/-- The root made by splitting a full root: one key over two valid halves. -/
theorem valid_splitRoot {h : Nat} {m : Int} {y z : BTreeNode}
    (hy : BTreeNode.Valid false h none (some m) y) (hz : BTreeNode.Valid false h (some m) none z) :
    BTreeNode.Valid true (h + 1) none none ⟨false, [m], [y, z]⟩ :=
  ⟨rfl, by simp, by simp, hy, ⟨trivial, trivial⟩, hz⟩

theorem traverse_splitRoot (m : Int) (y z : BTreeNode) :
    BTreeNode.traverse ⟨false, [m], [y, z]⟩ = y.traverse ++ m :: z.traverse := by
  simp [BTreeNode.traverse, traverseChildren]

/-- `insert` keeps a valid tree valid and adds `k` to its traversal. -/
theorem Valid.insert {t : BTree} (hv : t.Valid) (k : Int) :
    (t.insert k).Valid ∧ (t.insert k).traverse.Perm (k :: t.traverse) := by
  obtain ⟨_ | root⟩ := t
  · refine ⟨fun r hr => ⟨0, ?_⟩, List.Perm.refl _⟩
    cases hr
    simp [BTreeNode.Valid, InRange, AtLeast, AtMost]
  · obtain ⟨h, hroot⟩ := hv root rfl
    simp only [BTree.insert, splitChild_root, List.getD_cons_zero]
    split_ifs with hfull hlt
    · -- the root is full and `k` goes right of the median
      obtain ⟨hL, hR, -, hlenR, -, hsplit⟩ :=
        (hroot.nonRoot (by simp [hfull])).split hfull
      obtain ⟨hR', hpR⟩ := hR.insertNonFull (by simp [hlenR]) ⟨Int.le_of_lt hlt, trivial⟩
      refine ⟨fun r hr => ⟨h + 1, ?_⟩, ?_⟩
      · cases hr; exact valid_splitRoot hL hR'
      · simp only [BTree.traverse, Option.map_some', Option.getD_some, List.modify_succ_cons,
          List.modify_zero_cons, traverse_splitRoot, hsplit]
        exact ((hpR.cons _).trans (List.Perm.swap _ _ _)).append_left _ |>.trans List.perm_middle
    · -- the root is full and `k` goes left of the median
      obtain ⟨hL, hR, -, -, hlenL, hsplit⟩ :=
        (hroot.nonRoot (by simp [hfull])).split hfull
      obtain ⟨hL', hpL⟩ := hL.insertNonFull (by simp [hlenL]) ⟨trivial, Int.not_lt.mp hlt⟩
      refine ⟨fun r hr => ⟨h + 1, ?_⟩, ?_⟩
      · cases hr; exact valid_splitRoot hL' hR
      · simp only [BTree.traverse, Option.map_some', Option.getD_some, List.modify_zero_cons,
          traverse_splitRoot, hsplit]
        exact hpL.append_right _
    · -- the root has room
      obtain ⟨hroot', hp⟩ := hroot.insertNonFull (by have := hroot.keys_le; omega) ⟨trivial, trivial⟩
      exact ⟨fun r hr => by cases hr; exact ⟨h, hroot'⟩, hp⟩

/-- A run of inserts keeps the tree valid, and its traversal gains exactly the inserted
    keys. -/
theorem Valid.foldl_insert (ks : List Int) : ∀ {t : BTree}, t.Valid →
    (ks.foldl BTree.insert t).Valid ∧
      (ks.foldl BTree.insert t).traverse.Perm (t.traverse ++ ks) := by
  induction ks with
  | nil => exact fun hv => ⟨hv, by simp⟩
  | cons k ks ih =>
    intro t hv
    obtain ⟨hv', hp⟩ := hv.insert k
    obtain ⟨hv'', hp'⟩ := ih hv'
    exact ⟨hv'', hp'.trans ((hp.append_right ks).trans List.perm_middle.symm)⟩

theorem valid_new : new.Valid := fun _ hr => by cases hr

@[simp] theorem traverse_new : new.traverse = [] := rfl

/-- B-tree insertion keeps the invariant; the traversal is the sorted multiset of the keys
    inserted, and `search` finds exactly them. -/
theorem insertAll_valid (ks : List Int) :
    (insertAll ks).Valid ∧ (insertAll ks).traverse = ks.insertionSort (· ≤ ·) ∧
      ∀ k, ((insertAll ks).search k).isSome ↔ k ∈ ks := by
  obtain ⟨hv, hp⟩ := Valid.foldl_insert ks valid_new
  rw [traverse_new, List.nil_append] at hp
  unfold insertAll
  refine ⟨hv, ?_⟩
  cases hr : (ks.foldl insert new).root with
  | none =>
    obtain rfl : ks = [] := List.perm_nil.mp (by simpa [traverse, hr] using hp.symm)
    simp [traverse, search, new]
  | some root =>
    obtain ⟨h, hroot⟩ := hv root hr
    rw [traverse, hr, Option.map_some', Option.getD_some] at hp
    refine ⟨?_, fun k => ?_⟩
    · rw [traverse, hr, Option.map_some', Option.getD_some]
      exact List.eq_of_perm_of_sorted (hp.trans (List.perm_insertionSort _ ks).symm)
        hroot.sorted (List.sorted_insertionSort _ ks)
    · rw [search, hr, Option.some_bind, hroot.search_isSome, hp.mem_iff]

end BTree

end HpDb.Indexing
