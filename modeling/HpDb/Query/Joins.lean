import Mathlib.Data.List.Perm.Basic

/-!
# The three join algorithms of part_004 (lines 157–244)

`nestedLoopJoin` pairs every left row with every right row of the same id: it is the join
the other two are compared with. `hashJoin` builds an `unordered_map<int, string>` from
the right table, so each id keeps only the value of its last right row, and probes it once
per left row. `mergeJoin` sorts both tables by id with `std::sort` and walks them with two
cursors, moving both forward on a match.

`std::sort` is not stable: it may return the rows of one id in any order. `MergeJoinResult`
is therefore what `mergeJoin` may return, one result for each pair of orders the two sorts
may produce.

Results:
* `hashJoin_drops_repeated_right_id`: a right table that repeats an id loses rows.
* `hashJoin_perm_iff`: `hashJoin` returns the multiset of `nestedLoopJoin` exactly when no
  id of a left row occurs twice in the right table, and equals it row for row exactly then.
* `mergeJoin_drops_equal_key_pairs`: two left rows with one id and one right row with it
  give one joined row for every order `std::sort` may choose, where `nestedLoopJoin` gives
  two.
* `mergeJoin_perm_of_nodup`: with the ids of each table pairwise distinct, every result
  of `mergeJoin` is a permutation of `nestedLoopJoin`.
-/

namespace HpDb.Query

/-- `struct Row` (lines 157–163). -/
structure Row where
  id : Int
  value : String
  deriving DecidableEq, Repr

/-- `struct JoinedRow` (lines 166–173). -/
structure JoinedRow where
  id : Int
  leftValue : String
  rightValue : String
  deriving DecidableEq, Repr

/-! ## The algorithms -/

/-- The inner loop of `nestedLoopJoin` (lines 236–240): `leftRow` joined with each right
    row of its id, in the order of the right table. -/
def joinRow (rightTable : List Row) (leftRow : Row) : List JoinedRow :=
  (rightTable.filter fun rightRow => leftRow.id = rightRow.id).map fun rightRow =>
    ⟨leftRow.id, leftRow.value, rightRow.value⟩

/-- `nestedLoopJoin` (lines 231–244). -/
def nestedLoopJoin (leftTable rightTable : List Row) : List JoinedRow :=
  leftTable.flatMap (joinRow rightTable)

theorem nestedLoopJoin_cons (leftRow : Row) (leftTable rightTable : List Row) :
    nestedLoopJoin (leftRow :: leftTable) rightTable =
      joinRow rightTable leftRow ++ nestedLoopJoin leftTable rightTable := rfl

/-- The build phase of `hashJoin` (lines 189–192): `hashTable[row.id] = row.value` for each
    right row in turn. -/
def buildHashTable (rightTable : List Row) : Int → Option String :=
  rightTable.foldl (fun hashTable row => Function.update hashTable row.id (some row.value))
    fun _ => none

/-- `hashJoin` (lines 185–202): the probe phase, one joined row for each left row whose id
    is in the table. -/
def hashJoin (leftTable rightTable : List Row) : List JoinedRow :=
  let hashTable := buildHashTable rightTable
  leftTable.filterMap fun leftRow =>
    (hashTable leftRow.id).map fun rightValue => ⟨leftRow.id, leftRow.value, rightValue⟩

/-- The `while` loop of `mergeJoin` (lines 213–225) on the two sorted tables. -/
def mergeLoop : List Row → List Row → List JoinedRow
  | l :: ls, r :: rs =>
    if l.id = r.id then ⟨l.id, l.value, r.value⟩ :: mergeLoop ls rs
    else if l.id < r.id then mergeLoop ls (r :: rs)
    else mergeLoop (l :: ls) rs
  | _, _ => []
termination_by ls rs => ls.length + rs.length

/-- What `std::sort` with `a.id < b.id` (lines 209–210) may leave in a table: a
    permutation of it in which the ids do not decrease. -/
def SortedById (table sorted : List Row) : Prop :=
  sorted.Perm table ∧ sorted.Pairwise fun a b => a.id ≤ b.id

/-- What `mergeJoin` (lines 205–228) may return: the merge loop on any orders of the two
    tables that `std::sort` may produce. -/
def MergeJoinResult (leftTable rightTable : List Row) (result : List JoinedRow) : Prop :=
  ∃ l r, SortedById leftTable l ∧ SortedById rightTable r ∧ result = mergeLoop l r

/-- `std::sort` has an outcome: `List.mergeSort` is one. -/
theorem sortedById_mergeSort (table : List Row) :
    SortedById table (table.mergeSort fun a b => a.id ≤ b.id) :=
  ⟨List.mergeSort_perm _ _, by
    simpa using @List.sorted_mergeSort Row (fun a b => decide (a.id ≤ b.id))
      (fun _ _ _ h₁ h₂ => by simp only [decide_eq_true_eq] at *; omega)
      (fun a b => by simpa using Int.le_total a.id b.id) table⟩

theorem mergeJoinResult_nonempty (leftTable rightTable : List Row) :
    ∃ result, MergeJoinResult leftTable rightTable result :=
  ⟨_, _, _, sortedById_mergeSort leftTable, sortedById_mergeSort rightTable, rfl⟩

/-! ## The hash table keeps the last row of each id -/

theorem buildHashTable_apply (rightTable : List Row) (k : Int) :
    buildHashTable rightTable k =
      ((rightTable.filter fun row => k = row.id).getLast?).map Row.value := by
  induction rightTable using List.reverseRecOn with
  | nil => rfl
  | append_singleton rows row ih =>
    rw [buildHashTable, List.foldl_append, ← buildHashTable, List.foldl_cons, List.foldl_nil,
      Function.update_apply, List.filter_append]
    by_cases hk : k = row.id
    · simp [hk]
    · simp [hk, ih]

/-- One left row of `hashJoin`: joined with the last right row of its id, if any. -/
theorem hashJoin_cons (leftRow : Row) (leftTable rightTable : List Row) :
    hashJoin (leftRow :: leftTable) rightTable =
      (((rightTable.filter fun row => leftRow.id = row.id).getLast?).map fun rightRow =>
        (⟨leftRow.id, leftRow.value, rightRow.value⟩ : JoinedRow)).toList ++
      hashJoin leftTable rightTable := by
  simp only [hashJoin, List.filterMap_cons, buildHashTable_apply, Option.map_map]
  cases (rightTable.filter fun row => leftRow.id = row.id).getLast? <;> rfl

theorem length_joinRow (rightTable : List Row) (leftRow : Row) :
    (joinRow rightTable leftRow).length =
      rightTable.countP fun rightRow => leftRow.id = rightRow.id := by
  simp [joinRow, List.countP_eq_length_filter]

/-- A right table with at most one row of the id of `leftRow`: the hash table finds that
    row, as the nested loop does. -/
theorem joinRow_of_countP_le_one {rightTable : List Row} {leftRow : Row}
    (h : (rightTable.countP fun rightRow => leftRow.id = rightRow.id) ≤ 1) :
    (((rightTable.filter fun row => leftRow.id = row.id).getLast?).map fun rightRow =>
      (⟨leftRow.id, leftRow.value, rightRow.value⟩ : JoinedRow)).toList =
      joinRow rightTable leftRow := by
  rw [List.countP_eq_length_filter] at h
  unfold joinRow
  generalize rightTable.filter (fun row => leftRow.id = row.id) = F at h ⊢
  rcases F with _ | ⟨x, _ | ⟨y, ys⟩⟩
  · rfl
  · rfl
  · simp at h

theorem length_hashRow_le (rightTable : List Row) (leftRow : Row) :
    (((rightTable.filter fun row => leftRow.id = row.id).getLast?).map fun rightRow =>
      (⟨leftRow.id, leftRow.value, rightRow.value⟩ : JoinedRow)).toList.length ≤
      min 1 (rightTable.countP fun rightRow => leftRow.id = rightRow.id) := by
  rw [List.countP_eq_length_filter]
  generalize rightTable.filter (fun row => leftRow.id = row.id) = F
  rcases F with _ | ⟨x, xs⟩
  · rfl
  · simp only [List.getLast?_cons, Option.map_some', Option.toList_some, List.length_cons,
      List.length_nil]
    omega

/-! ## Hash join against nested-loop join -/

theorem hashJoin_eq_of_countP_le_one {leftTable rightTable : List Row}
    (h : ∀ leftRow ∈ leftTable,
      (rightTable.countP fun rightRow => leftRow.id = rightRow.id) ≤ 1) :
    hashJoin leftTable rightTable = nestedLoopJoin leftTable rightTable := by
  induction leftTable with
  | nil => rfl
  | cons leftRow leftTable ih =>
    rw [hashJoin_cons, nestedLoopJoin_cons,
      joinRow_of_countP_le_one (h leftRow (List.mem_cons_self _ _)),
      ih fun r hr => h r (List.mem_cons_of_mem _ hr)]

/-- `hashJoin` is never longer than `nestedLoopJoin`, and shorter as soon as some left row
    has two right rows of its id. -/
theorem length_hashJoin_lt {leftTable rightTable : List Row} :
    (hashJoin leftTable rightTable).length ≤ (nestedLoopJoin leftTable rightTable).length ∧
      ((∃ leftRow ∈ leftTable,
        2 ≤ rightTable.countP fun rightRow => leftRow.id = rightRow.id) →
        (hashJoin leftTable rightTable).length < (nestedLoopJoin leftTable rightTable).length) := by
  induction leftTable with
  | nil => simp [hashJoin, nestedLoopJoin]
  | cons leftRow leftTable ih =>
    rw [hashJoin_cons, nestedLoopJoin_cons, List.length_append, List.length_append,
      length_joinRow]
    have hrow := length_hashRow_le rightTable leftRow
    refine ⟨by omega, fun ⟨r, hr, h2⟩ => ?_⟩
    rcases List.mem_cons.mp hr with rfl | hr
    · omega
    · have := ih.2 ⟨r, hr, h2⟩
      omega

/-- **When the hash join is right.** `hashJoin` returns the multiset of `nestedLoopJoin`
    exactly when no left row has two right rows of its id, and under the same condition the
    two agree row for row. -/
theorem hashJoin_perm_iff (leftTable rightTable : List Row) :
    ((hashJoin leftTable rightTable).Perm (nestedLoopJoin leftTable rightTable) ↔
      ∀ leftRow ∈ leftTable, (rightTable.countP fun rightRow => leftRow.id = rightRow.id) ≤ 1) ∧
    (hashJoin leftTable rightTable = nestedLoopJoin leftTable rightTable ↔
      ∀ leftRow ∈ leftTable, (rightTable.countP fun rightRow => leftRow.id = rightRow.id) ≤ 1) := by
  have hperm : (hashJoin leftTable rightTable).Perm (nestedLoopJoin leftTable rightTable) →
      ∀ leftRow ∈ leftTable, (rightTable.countP fun rightRow => leftRow.id = rightRow.id) ≤ 1 :=
    fun hp leftRow hl => by
      by_contra h2
      exact absurd hp.length_eq (length_hashJoin_lt.2 ⟨leftRow, hl, by omega⟩).ne
  exact ⟨⟨hperm, fun h => (hashJoin_eq_of_countP_le_one h).symm ▸ .refl _⟩,
    ⟨fun he => hperm (he ▸ .refl _), hashJoin_eq_of_countP_le_one⟩⟩

/-- A left row, and two right rows of its id. -/
def repeatedRightId : List Row × List Row :=
  ([⟨1, "a"⟩], [⟨1, "x"⟩, ⟨1, "y"⟩])

/-- The hash table keeps only `"y"`: `hashJoin` returns one row where the nested loop
    returns two. -/
theorem hashJoin_drops_repeated_right_id :
    hashJoin repeatedRightId.1 repeatedRightId.2 = [⟨1, "a", "y"⟩] ∧
      nestedLoopJoin repeatedRightId.1 repeatedRightId.2 = [⟨1, "a", "x"⟩, ⟨1, "a", "y"⟩] ∧
      ¬ (hashJoin repeatedRightId.1 repeatedRightId.2).Perm
        (nestedLoopJoin repeatedRightId.1 repeatedRightId.2) := by
  refine ⟨by decide, by decide, fun h => absurd h.length_eq ?_⟩
  decide

/-! ## Merge join against nested-loop join -/

theorem joinRow_eq_nil {rightTable : List Row} {leftRow : Row}
    (h : ∀ r ∈ rightTable, leftRow.id ≠ r.id) : joinRow rightTable leftRow = [] := by
  simp only [joinRow, List.map_eq_nil_iff, List.filter_eq_nil_iff, decide_eq_true_eq]
  exact h

/-- A right row whose id no left row has adds nothing. -/
theorem nestedLoopJoin_cons_right {leftTable rightTable : List Row} {r : Row}
    (h : ∀ l ∈ leftTable, l.id ≠ r.id) :
    nestedLoopJoin leftTable (r :: rightTable) = nestedLoopJoin leftTable rightTable := by
  unfold nestedLoopJoin
  refine List.flatMap_congr fun l hl => ?_
  simp [joinRow, List.filter_cons, h l hl]

/-- In a table whose ids strictly increase, no row has an id below the first one's. -/
theorem id_le_of_mem_cons {x y : Row} {xs : List Row} (h : ∀ y ∈ xs, x.id < y.id)
    (hy : y ∈ x :: xs) : x.id ≤ y.id := by
  rcases List.mem_cons.mp hy with rfl | hy
  · exact Int.le_refl _
  · exact Int.le_of_lt (h y hy)

/-- On tables whose ids strictly increase, the merge loop is the nested-loop join. -/
theorem mergeLoop_eq_nestedLoopJoin :
    ∀ {l r : List Row}, l.Pairwise (fun a b => a.id < b.id) →
      r.Pairwise (fun a b => a.id < b.id) → mergeLoop l r = nestedLoopJoin l r
  | [], r, _, _ => by simp [mergeLoop, nestedLoopJoin]
  | l :: ls, [], _, _ => by simp [mergeLoop, nestedLoopJoin, joinRow]
  | l :: ls, r :: rs, hl, hr => by
    rw [List.pairwise_cons] at hl hr
    rw [mergeLoop]
    split_ifs with he hlt
    · rw [mergeLoop_eq_nestedLoopJoin hl.2 hr.2, nestedLoopJoin_cons,
        nestedLoopJoin_cons_right fun l' hl' => by have := hl.1 l' hl'; omega]
      simp only [joinRow, List.filter_cons, he, decide_True, ite_true, List.map_cons,
        List.singleton_append]
      rw [List.filter_eq_nil_iff.mpr fun r' hr' => by have := hr.1 r' hr'; simp; omega]
      rfl
    · rw [mergeLoop_eq_nestedLoopJoin hl.2 (List.pairwise_cons.mpr hr), nestedLoopJoin_cons,
        joinRow_eq_nil fun r' hr' => by have := id_le_of_mem_cons hr.1 hr'; omega]
      rfl
    · rw [mergeLoop_eq_nestedLoopJoin (List.pairwise_cons.mpr hl) hr.2,
        nestedLoopJoin_cons_right fun l' hl' => by have := id_le_of_mem_cons hl.1 hl'; omega]
termination_by l r => l.length + r.length

/-- The nested-loop join of permuted tables is a permutation of their join. -/
theorem nestedLoopJoin_perm {l l' r r' : List Row} (hl : l.Perm l') (hr : r.Perm r') :
    (nestedLoopJoin l r).Perm (nestedLoopJoin l' r') :=
  (List.Perm.flatMap_right _ hl).trans <|
    List.Perm.flatMap_left l' fun _ _ => (hr.filter _).map _

/-- Sorted with distinct ids is strictly sorted. -/
theorem SortedById.strict {table sorted : List Row} (h : SortedById table sorted)
    (hnd : (table.map Row.id).Nodup) : sorted.Pairwise fun a b => a.id < b.id := by
  have hnd' : (sorted.map Row.id).Nodup := hnd.perm (h.1.map Row.id).symm
  exact (h.2.and (List.pairwise_map.mp hnd')).imp fun ⟨h₁, h₂⟩ => by omega

/-- **Merge join is right on distinct ids.** If neither table repeats an id, every result
    `mergeJoin` may return is a permutation of `nestedLoopJoin`. -/
theorem mergeJoin_perm_of_nodup {leftTable rightTable : List Row}
    (hl : (leftTable.map Row.id).Nodup) (hr : (rightTable.map Row.id).Nodup)
    {result : List JoinedRow} (h : MergeJoinResult leftTable rightTable result) :
    result.Perm (nestedLoopJoin leftTable rightTable) := by
  obtain ⟨l, r, hsl, hsr, rfl⟩ := h
  rw [mergeLoop_eq_nestedLoopJoin (hsl.strict hl) (hsr.strict hr)]
  exact nestedLoopJoin_perm hsl.1 hsr.1

/-- `generateTestData` (lines 247–257): the tables `main` joins. -/
def generateTestData : List Row × List Row :=
  ([⟨1, "Left_One"⟩, ⟨2, "Left_Two"⟩, ⟨3, "Left_Three"⟩],
    [⟨2, "Right_Two"⟩, ⟨3, "Right_Three"⟩, ⟨4, "Right_Four"⟩])

/-- On the tables of `main`, which are sorted with distinct ids, the merge join returns the
    nested-loop join up to order. -/
theorem generateTestData_mergeJoin :
    (generateTestData.1.map Row.id).Nodup ∧ (generateTestData.2.map Row.id).Nodup ∧
      MergeJoinResult generateTestData.1 generateTestData.2
        (mergeLoop generateTestData.1 generateTestData.2) ∧
      (mergeLoop generateTestData.1 generateTestData.2).Perm
        (nestedLoopJoin generateTestData.1 generateTestData.2) :=
  have hres : MergeJoinResult generateTestData.1 generateTestData.2
      (mergeLoop generateTestData.1 generateTestData.2) :=
    ⟨_, _, ⟨.refl _, by decide⟩, ⟨.refl _, by decide⟩, rfl⟩
  ⟨by decide, by decide, hres, mergeJoin_perm_of_nodup (by decide) (by decide) hres⟩

/-- Two left rows of id `1`, one right row of id `1`. -/
def repeatedLeftId : List Row × List Row :=
  ([⟨1, "a"⟩, ⟨1, "b"⟩], [⟨1, "x"⟩])

/-- Whatever order `std::sort` leaves the two left rows in, the loop matches the first
    with the right row, moves both cursors, and stops: one joined row, where the nested
    loop returns two. -/
theorem mergeJoin_drops_equal_key_pairs :
    (∃ result, MergeJoinResult repeatedLeftId.1 repeatedLeftId.2 result) ∧
      ∀ result, MergeJoinResult repeatedLeftId.1 repeatedLeftId.2 result →
        result.length = 1 ∧ (nestedLoopJoin repeatedLeftId.1 repeatedLeftId.2).length = 2 ∧
        ¬ result.Perm (nestedLoopJoin repeatedLeftId.1 repeatedLeftId.2) := by
  refine ⟨mergeJoinResult_nonempty _ _, fun result ⟨l, r, hl, hr, hres⟩ => ?_⟩
  have hr' : r = [⟨1, "x"⟩] := List.perm_singleton.mp hr.1
  have hlen : result.length = 1 := by
    have h2 : l.length = 2 := hl.1.length_eq
    rcases l with _ | ⟨p, _ | ⟨q, _ | ⟨w, rest⟩⟩⟩ <;> simp only [List.length_cons,
      List.length_nil] at h2 <;> try omega
    have hp : p.id = 1 := by
      have hmem := hl.1.subset (List.mem_cons_self p [q])
      simp only [repeatedLeftId, List.mem_cons, List.mem_singleton, List.not_mem_nil,
        or_false] at hmem
      rcases hmem with rfl | rfl <;> rfl
    subst hr' hres
    rw [mergeLoop, if_pos hp]
    simp [mergeLoop]
  exact ⟨hlen, by decide, fun h => absurd (hlen ▸ h.length_eq) (by decide)⟩

end HpDb.Query
