import Mathlib.Data.List.Basic
import HpDb.CLib

/-!
# `NoSQLParser` (unnamed/part_004, lines 1–152)

`parse` splits the query into words, takes the first two as the operation and the
collection, and hands the words to `parseInsert`, `parseSelect`, `parseUpdate` or
`parseDelete`. These read the fields and conditions as pairs of words in loops
`for (i = start; i < bound; i += 2)` that read `tokens[i]` and `tokens[i + 1]`.

`tokens[i]` past the end of the vector is undefined behaviour; every read of the model goes
through `tokens[i]?`, and `parse` returns `none` at the first read past the end. The
message of an unknown operation on `std::cerr` is not modelled. A `std::map` is kept as a
function, written in the order of the calls to `addField` and `addCondition`.

Results:
* `parse_isSome_iff`: `parse` reads only inside `tokens` exactly when there are two words
  and, for the operation named, the words from the start of each loop of pairs to its end
  are even in number.
* `parse_reads_past_end`: the empty query, `SELECT` alone, and `INSERT INTO users name`
  read past the end of `tokens`.
-/

namespace HpDb.Query.NoSQL

/-- `class Query` (lines 7–38): the operation, the collection, and the two maps. -/
structure Query where
  operation : List Char
  collection : List Char
  fields : List Char → Option (List Char)
  conditions : List Char → Option (List Char)

/-- The map after `m[key] = value` for the pairs `kvs` in turn. -/
def addAll (m : List Char → Option (List Char)) (kvs : List (List Char × List Char)) :
    List Char → Option (List Char) :=
  kvs.foldl (fun m kv => Function.update m kv.1 (some kv.2)) m

/-- `for (size_t i = start; i < bound; i += 2)` reading `tokens[i]` and `tokens[i + 1]`,
    run `k = (bound - start + 1) / 2` times from `i`. -/
def pairLoop (tokens : List (List Char)) : Nat → Nat → Option (List (List Char × List Char))
  | 0, _ => some []
  | k + 1, i => do
    let key ← tokens[i]?
    let value ← tokens[i + 1]?
    let rest ← pairLoop tokens k (i + 2)
    some ((key, value) :: rest)

/-- The pairs read from `start` while `i < bound`. -/
def pairs (tokens : List (List Char)) (start bound : Nat) : Option (List (List Char × List Char)) :=
  pairLoop tokens ((bound - start + 1) / 2) start

/-- `for (size_t i = 2; i < wherePos; ++i) query.addField(tokens[i], "")`, run `k` times
    from `i`. -/
def fieldLoop (tokens : List (List Char)) : Nat → Nat → Option (List (List Char × List Char))
  | 0, _ => some []
  | k + 1, i => do
    let key ← tokens[i]?
    let rest ← fieldLoop tokens k (i + 1)
    some ((key, []) :: rest)

/-- `findPosition(tokens, keyword)` (lines 112–119): the first position of `keyword`, or
    `tokens.size()`. -/
def findPosition (tokens : List (List Char)) (keyword : List Char) : Nat :=
  tokens.findIdx (· == keyword)

/-- `parseWhereClause(tokens, wherePos, query)` (lines 125–129). -/
def parseWhereClause (tokens : List (List Char)) (wherePos : Nat) (query : Query) :
    Option Query :=
  (pairs tokens (wherePos + 1) tokens.length).map fun kvs =>
    { query with conditions := addAll query.conditions kvs }

/-- `if (wherePos < tokens.size()) parseWhereClause(...)`. -/
def whereIfPresent (tokens : List (List Char)) (wherePos : Nat) (query : Query) : Option Query :=
  if wherePos < tokens.length then parseWhereClause tokens wherePos query else some query

/-- `parseInsert(tokens, query)` (lines 72–77). -/
def parseInsert (tokens : List (List Char)) (query : Query) : Option Query :=
  (pairs tokens 3 tokens.length).map fun kvs => { query with fields := addAll query.fields kvs }

/-- `parseSelect(tokens, query)` (lines 79–89). -/
def parseSelect (tokens : List (List Char)) (query : Query) : Option Query := do
  let wherePos := findPosition tokens "WHERE".toList
  let kvs ← fieldLoop tokens (wherePos - 2) 2
  whereIfPresent tokens wherePos { query with fields := addAll query.fields kvs }

/-- `parseUpdate(tokens, query)` (lines 91–102). -/
def parseUpdate (tokens : List (List Char)) (query : Query) : Option Query := do
  let setPos := findPosition tokens "SET".toList
  let wherePos := findPosition tokens "WHERE".toList
  let kvs ← pairs tokens (setPos + 1) wherePos
  whereIfPresent tokens wherePos { query with fields := addAll query.fields kvs }

/-- `parseDelete(tokens, query)` (lines 104–110). -/
def parseDelete (tokens : List (List Char)) (query : Query) : Option Query :=
  whereIfPresent tokens (findPosition tokens "WHERE".toList) query

/-- `parse(query)` (lines 42–69). -/
def parse (query : List Char) : Option Query := do
  let tokens := words query
  let operation ← tokens[0]?
  let collection ← tokens[1]?
  let parsedQuery : Query := ⟨operation, collection, fun _ => none, fun _ => none⟩
  if operation = "INSERT".toList then parseInsert tokens parsedQuery
  else if operation = "SELECT".toList then parseSelect tokens parsedQuery
  else if operation = "UPDATE".toList then parseUpdate tokens parsedQuery
  else if operation = "DELETE".toList then parseDelete tokens parsedQuery
  else some parsedQuery

/-! ## Which reads stay inside `tokens` -/

/-- One iteration of the loop of pairs: it reads `tokens[i]` and `tokens[i + 1]`. -/
theorem pairLoop_succ (tokens : List (List Char)) (k i : Nat) :
    pairLoop tokens (k + 1) i = if h : i + 1 < tokens.length then
      (pairLoop tokens k (i + 2)).map ((tokens[i], tokens[i + 1]) :: ·) else none := by
  split_ifs with h
  · simp [pairLoop, List.getElem?_eq_getElem h, List.getElem?_eq_getElem (Nat.lt_of_succ_lt h)]
    cases pairLoop tokens k (i + 2) <;> rfl
  · by_cases hi : i < tokens.length
    · simp [pairLoop, List.getElem?_eq_getElem hi, List.getElem?_eq_none (Nat.not_lt.mp h)]
    · simp [pairLoop, List.getElem?_eq_none (Nat.not_lt.mp hi)]

theorem pairLoop_isSome (tokens : List (List Char)) : ∀ k i,
    (pairLoop tokens k i).isSome ↔ k = 0 ∨ i + 2 * k ≤ tokens.length
  | 0, _ => by simp [pairLoop]
  | k + 1, i => by
    rw [pairLoop_succ]
    split_ifs with h
    · rw [Option.isSome_map', false_or, pairLoop_isSome tokens k (i + 2)]; omega
    · simp only [Option.isSome_none, Bool.false_eq_true, false_or, false_iff]; omega

/-- One iteration of the loop of fields: it reads `tokens[i]`. -/
theorem fieldLoop_succ (tokens : List (List Char)) (k i : Nat) :
    fieldLoop tokens (k + 1) i = if h : i < tokens.length then
      (fieldLoop tokens k (i + 1)).map ((tokens[i], []) :: ·) else none := by
  split_ifs with h
  · simp [fieldLoop, List.getElem?_eq_getElem h]
    cases fieldLoop tokens k (i + 1) <;> rfl
  · simp [fieldLoop, List.getElem?_eq_none (Nat.not_lt.mp h)]

theorem fieldLoop_isSome (tokens : List (List Char)) : ∀ k i,
    (fieldLoop tokens k i).isSome ↔ k = 0 ∨ i + k ≤ tokens.length
  | 0, _ => by simp [fieldLoop]
  | k + 1, i => by
    rw [fieldLoop_succ]
    split_ifs with h
    · rw [Option.isSome_map', false_or, fieldLoop_isSome tokens k (i + 1)]; omega
    · simp only [Option.isSome_none, Bool.false_eq_true, false_or, false_iff]; omega

theorem pairs_isSome (tokens : List (List Char)) (start bound : Nat) :
    (pairs tokens start bound).isSome ↔
      bound ≤ start ∨ start + 2 * ((bound - start + 1) / 2) ≤ tokens.length := by
  rw [pairs, pairLoop_isSome]
  omega

theorem findPosition_le (tokens : List (List Char)) (keyword : List Char) :
    findPosition tokens keyword ≤ tokens.length :=
  List.findIdx_le_length _

theorem whereIfPresent_isSome (tokens : List (List Char)) (wherePos : Nat) (query : Query) :
    (whereIfPresent tokens wherePos query).isSome ↔ (tokens.length - (wherePos + 1)) % 2 = 0 := by
  unfold whereIfPresent
  split_ifs with h
  · rw [parseWhereClause, Option.isSome_map', pairs_isSome]; omega
  · simp only [Option.isSome_some, true_iff]; omega

theorem parseInsert_isSome (tokens : List (List Char)) (query : Query) :
    (parseInsert tokens query).isSome ↔ (tokens.length - 3) % 2 = 0 := by
  rw [parseInsert, Option.isSome_map', pairs_isSome]; omega

theorem parseSelect_isSome (tokens : List (List Char)) (query : Query) :
    (parseSelect tokens query).isSome ↔
      (tokens.length - (findPosition tokens "WHERE".toList + 1)) % 2 = 0 := by
  have hw := findPosition_le tokens "WHERE".toList
  obtain ⟨kvs, hkvs⟩ := Option.isSome_iff_exists.mp
    ((fieldLoop_isSome tokens (findPosition tokens "WHERE".toList - 2) 2).mpr (by omega))
  simp only [parseSelect, hkvs, Option.bind_eq_bind, Option.some_bind, whereIfPresent_isSome]

theorem parseUpdate_isSome (tokens : List (List Char)) (query : Query) :
    (parseUpdate tokens query).isSome ↔
      (findPosition tokens "WHERE".toList < tokens.length ∨
          (tokens.length - (findPosition tokens "SET".toList + 1)) % 2 = 0) ∧
        (tokens.length - (findPosition tokens "WHERE".toList + 1)) % 2 = 0 := by
  have hw := findPosition_le tokens "WHERE".toList
  have hp := pairs_isSome tokens (findPosition tokens "SET".toList + 1)
    (findPosition tokens "WHERE".toList)
  simp only [parseUpdate, Option.bind_eq_bind]
  cases h : pairs tokens (findPosition tokens "SET".toList + 1) (findPosition tokens "WHERE".toList)
  · simp only [h, Option.isSome_none, Bool.false_eq_true, false_iff, Option.none_bind] at hp ⊢
    omega
  · simp only [h, Option.isSome_some, true_iff, Option.some_bind, whereIfPresent_isSome] at hp ⊢
    omega

/-- The words on which every read of `parse` stays inside them: at least two, and from the
    start of each loop of pairs that the operation runs to its bound, an even number. -/
def InBounds (tokens : List (List Char)) : Prop :=
  2 ≤ tokens.length ∧
    (tokens.head? = some "INSERT".toList → (tokens.length - 3) % 2 = 0) ∧
    (tokens.head? = some "SELECT".toList ∨ tokens.head? = some "UPDATE".toList ∨
        tokens.head? = some "DELETE".toList →
      (tokens.length - (findPosition tokens "WHERE".toList + 1)) % 2 = 0) ∧
    (tokens.head? = some "UPDATE".toList →
      findPosition tokens "WHERE".toList < tokens.length ∨
        (tokens.length - (findPosition tokens "SET".toList + 1)) % 2 = 0)

instance : DecidablePred InBounds := fun _ => inferInstanceAs (Decidable (_ ∧ _))

/-- **`parse` reads inside `tokens` exactly on `InBounds`.** -/
theorem parse_isSome_iff (query : List Char) : (parse query).isSome ↔ InBounds (words query) := by
  unfold parse InBounds
  generalize words query = tokens
  match tokens with
  | [] => simp
  | [_] => simp
  | operation :: collection :: rest =>
    simp only [List.getElem?_cons_zero, List.getElem?_cons_succ, Option.bind_eq_bind,
      Option.some_bind, List.head?_cons, Option.some.injEq, List.length_cons]
    split_ifs with hi hs hu hd <;> subst_vars
    · rw [parseInsert_isSome]; simp
    · rw [parseSelect_isSome]; simp
    · rw [parseUpdate_isSome]; simp; exact and_comm
    · rw [parseDelete, whereIfPresent_isSome]; simp
    · exact iff_of_true rfl ⟨by omega, fun h => (hi h).elim,
        fun h => (h.elim hs fun h => h.elim hu hd).elim, fun h => (hu h).elim⟩

example : ["INSERT INTO users name Mike age 30", "SELECT name age FROM users WHERE id 123",
    "UPDATE users SET name Mike age 31 WHERE id 123", "DELETE FROM users WHERE id 123"].all
      fun q => decide (InBounds (words q.toList)) := by decide

/-- The empty query reads `tokens[0]`, `SELECT` alone reads `tokens[1]`, and
    `INSERT INTO users name` reads `tokens[4]`, each one past the last word. -/
theorem parse_reads_past_end :
    parse "".toList = none ∧ parse "SELECT".toList = none ∧
      (words "INSERT INTO users name".toList).length = 4 ∧
      parse "INSERT INTO users name".toList = none :=
  ⟨rfl, rfl, rfl, rfl⟩

end HpDb.Query.NoSQL
