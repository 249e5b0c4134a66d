import Mathlib.Data.List.Sort
import HpDb.CLib

/-!
# `InvertedIndex` (indexing/full_text_search/inverted_index.cpp)

`tokenize` splits a document at white space, as `ss >> token` does, strips every
punctuation character from each word and lower-cases it. `addDocument` gives the document
the next id and adds the id to the set of each of its tokens. `search` looks the query up
after lower-casing it, but it neither strips its punctuation nor splits it at white space.

Characters are classified as in `HpDb.CLib`. A `std::set<int>` is the increasing list of
its elements, and `docIdToFile[docId]` of an id never written is the empty string. Ids are
`Nat`s: the source's `int currentDocId++` is undefined past `INT_MAX`, so `search_run`
describes the code for runs of fewer than `2^31` documents.

Results:
* `search_run`: after any calls `addDocument(filename, content)`, `search(q)` returns, in
  the order the documents were added, the file names of the documents whose tokens contain
  `to_lowercase(q)`.
* `search_misses_punctuated_query`: the query `Hello!` has the single token `hello`, which
  the document `Hello world` contains, but `search("Hello!")` returns nothing.
-/

namespace HpDb.Indexing

/-- `to_lowercase(s)` (lines 14–18). -/
def toLowercase (s : List Char) : List Char := s.map Char.toLower

/-- `tokenize(content)` (lines 21–31). -/
def tokenize (content : List Char) : List (List Char) :=
  (words content).map fun token => toLowercase (token.filter (!isPunct ·))

/-- `std::set<int>::insert`, on the increasing list of the elements. -/
def setInsert (s : List Nat) (d : Nat) : List Nat :=
  if d ∈ s then s else s.orderedInsert (· ≤ ·) d

/-- `class InvertedIndex` (lines 34–80). -/
structure InvertedIndex where
  index : List Char → Option (List Nat)
  docIdToFile : Nat → Option String
  currentDocId : Nat

namespace InvertedIndex

/-- `InvertedIndex()`. -/
def new : InvertedIndex := ⟨fun _ => none, fun _ => none, 0⟩

/-- The loop `for (token : tokens) index[token].insert(docId)`. -/
def addTokens (docId : Nat) (index : List Char → Option (List Nat)) (tokens : List (List Char)) :
    List Char → Option (List Nat) :=
  tokens.foldl (fun index token =>
    Function.update index token (some (setInsert ((index token).getD []) docId))) index

/-- `addDocument(filename, content)` (lines 46–53). -/
def addDocument (ii : InvertedIndex) (filename : String) (content : List Char) : InvertedIndex :=
  ⟨addTokens ii.currentDocId ii.index (tokenize content),
    Function.update ii.docIdToFile ii.currentDocId (some filename), ii.currentDocId + 1⟩

/-- `search(query)` (lines 56–68). -/
def search (ii : InvertedIndex) (query : List Char) : List String :=
  match ii.index (toLowercase query) with
  | some docIds => docIds.map fun docId => (ii.docIdToFile docId).getD ""
  | none => []

/-- The index after `addDocument(filename, content)` for the documents `docs` in turn. -/
def run (docs : List (String × List Char)) : InvertedIndex :=
  docs.foldl (fun ii doc => ii.addDocument doc.1 doc.2) new

/-! ## Sets of ids -/

theorem setInsert_of_mem {s : List Nat} {d : Nat} (h : d ∈ s) : setInsert s d = s := if_pos h

theorem mem_setInsert (s : List Nat) (d : Nat) : d ∈ setInsert s d := by
  unfold setInsert
  split_ifs with h
  · exact h
  · exact (List.mem_orderedInsert _).mpr (.inl rfl)

theorem setInsert_of_lt {s : List Nat} {d : Nat} (h : ∀ x ∈ s, x < d) : setInsert s d = s ++ [d] := by
  rw [setInsert, if_neg fun hd => Nat.lt_irrefl d (h d hd)]
  induction s with
  | nil => rfl
  | cons x s ih =>
    rw [List.orderedInsert, if_neg (Nat.not_le.mpr (h x (List.mem_cons_self _ _))),
      ih fun y hy => h y (List.mem_cons_of_mem _ hy), List.cons_append]

theorem addTokens_apply (docId : Nat) (index : List Char → Option (List Nat))
    (tokens : List (List Char)) (t : List Char) :
    addTokens docId index tokens t =
      if t ∈ tokens then some (setInsert ((index t).getD []) docId) else index t := by
  induction tokens generalizing index with
  | nil => rfl
  | cons token tokens ih =>
    rw [addTokens, List.foldl_cons, ← addTokens, ih]
    by_cases ht : t = token
    · subst ht
      simp [setInsert_of_mem (mem_setInsert _ docId)]
    · simp [ht, Function.update_noteq ht]

/-! ## What `search` returns -/

/-- The index after the documents `docs`: the next id is their number, each id names its
    file, and the set of each token holds the ids of the documents that contain it. -/
structure Indexes (docs : List (String × List Char)) (ii : InvertedIndex) : Prop where
  currentDocId : ii.currentDocId = docs.length
  docIdToFile : ∀ d, d < docs.length → ii.docIdToFile d = docs[d]?.map Prod.fst
  index : ∀ t, (ii.index t = none ∧ ∀ doc ∈ docs, t ∉ tokenize doc.2) ∨
    ∃ docIds, ii.index t = some docIds ∧ (∀ d ∈ docIds, d < docs.length) ∧
      docIds.map (fun d => (ii.docIdToFile d).getD "") =
        (docs.filter fun doc => t ∈ tokenize doc.2).map Prod.fst

theorem indexes_new : Indexes [] new :=
  ⟨rfl, fun _ h => absurd h (Nat.not_lt_zero _), fun _ => .inl ⟨rfl, fun _ h => nomatch h⟩⟩

theorem Indexes.addDocument {docs : List (String × List Char)} {ii : InvertedIndex}
    (h : Indexes docs ii) (filename : String) (content : List Char) :
    Indexes (docs ++ [(filename, content)]) (ii.addDocument filename content) := by
  have hcur := h.currentDocId
  have hlen : (docs ++ [(filename, content)]).length = docs.length + 1 := by simp
  have hfile : ∀ d, d < docs.length → (ii.addDocument filename content).docIdToFile d =
      ii.docIdToFile d := fun d hd => Function.update_noteq (by omega) _ _
  have hnew : (ii.addDocument filename content).docIdToFile docs.length = some filename := by
    rw [← hcur]; exact Function.update_same _ _ _
  have hmap : ∀ docIds : List Nat, (∀ d ∈ docIds, d < docs.length) →
      docIds.map (fun d => ((ii.addDocument filename content).docIdToFile d).getD "") =
        docIds.map fun d => (ii.docIdToFile d).getD "" := fun docIds hlt =>
    List.map_congr_left fun d hd => by rw [hfile d (hlt d hd)]
  refine ⟨by simp [InvertedIndex.addDocument, hcur], fun d hd => ?_, fun t => ?_⟩
  · rcases Nat.lt_succ_iff_lt_or_eq.mp (hlen ▸ hd) with hd | rfl
    · rw [hfile d hd, h.docIdToFile d hd, List.getElem?_append_left hd]
    · rw [hnew, List.getElem?_append_right (Nat.le_refl _), Nat.sub_self]
      rfl
  · have hidx : (ii.addDocument filename content).index t =
        if t ∈ tokenize content then some (setInsert ((ii.index t).getD []) docs.length)
        else ii.index t := by
      rw [← hcur]; exact addTokens_apply _ _ _ _
    rw [hidx, List.filter_append, List.map_append, hlen]
    by_cases ht : t ∈ tokenize content
    · rw [if_pos ht]
      refine .inr ⟨_, rfl, ?_, ?_⟩ <;> rcases h.index t with ⟨hn, hno⟩ | ⟨docIds, hs, hlt, heq⟩
      · simp [hn, setInsert]
      · rw [hs, Option.getD_some, setInsert_of_lt (hcur ▸ hlt)]
        intro d hd
        rcases List.mem_append.mp hd with hd | hd
        · exact Nat.lt_succ_of_lt (hlt d hd)
        · rw [List.mem_singleton.mp hd]; exact Nat.lt_succ_self _
      · rw [hn, Option.getD_none, setInsert, if_neg (List.not_mem_nil _),
          List.filter_eq_nil_iff.mpr fun doc hd => by simpa using hno doc hd]
        simp [hnew, ht]
      · rw [hs, Option.getD_some, setInsert_of_lt (hcur ▸ hlt), List.map_append, hmap docIds hlt,
          heq]
        simp [hnew, ht]
    · rw [if_neg ht]
      rcases h.index t with ⟨hn, hno⟩ | ⟨docIds, hs, hlt, heq⟩
      · refine .inl ⟨hn, fun doc hd => ?_⟩
        rcases List.mem_append.mp hd with hd | hd
        · exact hno doc hd
        · rw [List.mem_singleton.mp hd]; exact ht
      · refine .inr ⟨docIds, hs, fun d hd => Nat.lt_succ_of_lt (hlt d hd), ?_⟩
        rw [hmap docIds hlt, heq]
        simp [ht]

/-- **`search` looks up the lower-cased query.** After any documents, `search(q)` returns
    the file names of the documents whose tokens contain `to_lowercase(q)`, in the order
    they were added. -/
theorem search_run (docs : List (String × List Char)) (q : List Char) :
    (run docs).search q = (docs.filter fun doc => toLowercase q ∈ tokenize doc.2).map Prod.fst := by
  have h : Indexes docs (run docs) := by
    induction docs using List.reverseRecOn with
    | nil => exact indexes_new
    | append_singleton docs doc ih =>
      rw [run, List.foldl_append, List.foldl_cons, List.foldl_nil, ← run]
      exact ih.addDocument doc.1 doc.2
  unfold search
  rcases h.index (toLowercase q) with ⟨hn, hno⟩ | ⟨docIds, hs, -, heq⟩
  · rw [hn, List.filter_eq_nil_iff.mpr fun doc hd => by simpa using hno doc hd]
    rfl
  · rw [hs]; exact heq

/-- A document with the word `Hello`, and the query `Hello!`. -/
theorem search_misses_punctuated_query :
    tokenize "Hello!".toList = ["hello".toList] ∧
      "hello".toList ∈ tokenize "Hello world".toList ∧
      (run [("document1.txt", "Hello world".toList)]).search "Hello!".toList = [] := by
  decide

end InvertedIndex

end HpDb.Indexing
