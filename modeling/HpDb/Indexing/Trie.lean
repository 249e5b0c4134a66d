import Mathlib.Data.List.Nodup

/-!
# `Trie` (indexing/trie_index/trie_index.cpp, lines 1–112)

A trie of `TrieNode`s, each with a map from characters to children and a flag that a word
ends there. `insert` walks the word, creating missing children; `search_prefix` walks it
and fails at the first missing child; `remove_helper` clears the flag at the end of the
word and deletes, on the way back up, every node left with no children that ends no word.

The map is a list of entries. `lookup` finds the first entry for a character, `erase`
removes every entry for it, and a new child is appended; the map never holds two entries
for one character. `collect_words` visits the children in the order of the list; the
order of an `unordered_map` is unspecified, and no result below depends on it.

The shape `TrieNode.WF`, kept by every call, is what makes the prefix queries exact: no
node has two children for one character, and every child leads to a word.

Results:
* `Trie.run_implements_set`: after any sequence of `insert` and `remove`, `search` finds
  exactly the stored words (those whose last insert is not followed by a remove),
  `starts_with(p)` for a nonempty `p` holds exactly when a stored word starts with `p`,
  and `get_words_with_prefix(p)` lists each stored word that starts with `p` once, and
  nothing else.
* `Trie.remove_iff_only_word`: `remove(w)` returns the "delete this node" flag of the
  root, which is `true` exactly when `w` was the only stored word.
* `Trie.remove_stored_returns_false`: after the inserts of `main()`, `remove("apple")`
  returns `false` although `"apple"` was stored.
-/

namespace HpDb.Indexing

/-- `class TrieNode` (lines 6–12). `children` is the `unordered_map<char, TrieNode*>`, as a
    list of entries. -/
structure TrieNode where
  children : List (Char × TrieNode)
  isEndOfWord : Bool

namespace TrieNode

/-- `new TrieNode()`. -/
def new : TrieNode := ⟨[], false⟩

/-- The entries of `children` after the child at `ch` was changed by `f` through its pointer. -/
def modifyChild (children : List (Char × TrieNode)) (ch : Char) (f : TrieNode → TrieNode) :
    List (Char × TrieNode) :=
  children.map fun e => if e.1 = ch then (e.1, f e.2) else e

/-- `search_prefix` (lines 36–45) from `node`: the node at the end of the path, or
    `nullptr`. -/
def searchPrefix : TrieNode → List Char → Option TrieNode
  | node, [] => some node
  | node, ch :: rest => (node.children.lookup ch).bind (searchPrefix · rest)

/-- The body of `search` (lines 67–70) from `node`. -/
def search (node : TrieNode) (word : List Char) : Bool :=
  match node.searchPrefix word with
  | some n => n.isEndOfWord
  | none => false

/-- `if (node->children.find(ch) == node->children.end()) node->children[ch] = new
    TrieNode();` -/
def ensureChild (children : List (Char × TrieNode)) (ch : Char) : List (Char × TrieNode) :=
  if (children.lookup ch).isNone then children ++ [(ch, new)] else children

/-- The loop of `insert` (lines 56–65) from `node`. -/
def insert : TrieNode → List Char → TrieNode
  | ⟨children, _⟩, [] => ⟨children, true⟩
  | ⟨children, isEnd⟩, ch :: rest => ⟨modifyChild (ensureChild children ch) ch (·.insert rest), isEnd⟩

/-- `remove_helper(node, word, depth)` (lines 91–111) on the part of the word from `depth`
    on: the node afterwards and the flag it returns, "delete this node". -/
def removeHelper : TrieNode → List Char → TrieNode × Bool
  | ⟨children, isEnd⟩, [] =>
    if !isEnd then (⟨children, isEnd⟩, false) else (⟨children, false⟩, children.isEmpty)
  | ⟨children, isEnd⟩, ch :: rest =>
    match children.lookup ch with
    | none => (⟨children, isEnd⟩, false)
    | some child =>
      if (child.removeHelper rest).2 then
        let children := children.filter (·.1 != ch)
        (⟨children, isEnd⟩, children.isEmpty && !isEnd)
      else (⟨modifyChild children ch fun _ => (child.removeHelper rest).1, isEnd⟩, false)

mutual
/-- `collect_words(node, current_prefix, words)` (lines 25–34): the words it appends. -/
def collectWords : TrieNode → List Char → List (List Char)
  | ⟨children, isEnd⟩, cur => (if isEnd then [cur] else []) ++ collectChildren children cur
/-- The loop of `collect_words` over the children. -/
def collectChildren : List (Char × TrieNode) → List Char → List (List Char)
  | [], _ => []
  | (ch, child) :: rest, cur => collectWords child (cur ++ [ch]) ++ collectChildren rest cur
end

/-! ## The children map -/

section Lookup

variable (l : List (Char × TrieNode)) (ch c : Char)

theorem lookup_cons_ite (k : Char) (v : TrieNode) :
    ((k, v) :: l).lookup c = if c = k then some v else l.lookup c := by
  by_cases h : c = k
  · simp [List.lookup_cons, h]
  · rw [List.lookup_cons, beq_false_of_ne h, if_neg h]

@[simp] theorem lookup_modifyChild (f : TrieNode → TrieNode) :
    (modifyChild l ch f).lookup c = if c = ch then (l.lookup c).map f else l.lookup c := by
  induction l with
  | nil => simp [modifyChild]
  | cons e l ih =>
    obtain ⟨k, v⟩ := e
    rw [modifyChild, List.map_cons, ← modifyChild]
    by_cases hk : k = ch
    · subst hk
      rw [if_pos rfl, lookup_cons_ite, lookup_cons_ite, ih]
      by_cases hc : c = k <;> simp [hc]
    · rw [if_neg hk, lookup_cons_ite, lookup_cons_ite, ih]
      by_cases hc : c = ch
      · subst hc; simp [hk, Ne.symm hk]
      · simp [hc]

theorem lookup_append_singleton (x : TrieNode) :
    (l ++ [(ch, x)]).lookup c = (l.lookup c).or (if c = ch then some x else none) := by
  induction l with
  | nil => rw [List.nil_append, lookup_cons_ite]; simp
  | cons e l ih =>
    obtain ⟨k, v⟩ := e
    rw [List.cons_append, lookup_cons_ite, lookup_cons_ite, ih]
    split_ifs <;> simp

@[simp] theorem lookup_ensureChild :
    (ensureChild l ch).lookup c = if c = ch then some ((l.lookup ch).getD new) else l.lookup c := by
  rw [ensureChild]
  by_cases hc : c = ch
  · subst hc; cases h : l.lookup c <;> simp [h, lookup_append_singleton]
  · split <;> simp [hc, lookup_append_singleton]

@[simp] theorem lookup_filter :
    (l.filter (·.1 != ch)).lookup c = if c = ch then none else l.lookup c := by
  induction l with
  | nil => simp
  | cons e l ih =>
    obtain ⟨k, v⟩ := e
    rw [List.filter_cons]
    by_cases hk : k = ch
    · subst hk
      rw [if_neg (by simp), ih, lookup_cons_ite]
      by_cases hc : c = k <;> simp [hc]
    · rw [if_pos (by simpa using hk), lookup_cons_ite, lookup_cons_ite, ih]
      by_cases hc : c = ch
      · subst hc; simp [Ne.symm hk]
      · simp [hc]

theorem mem_of_lookup {v : TrieNode} (h : l.lookup c = some v) : (c, v) ∈ l := by
  induction l with
  | nil => simp at h
  | cons e l ih =>
    obtain ⟨k, w⟩ := e
    rw [lookup_cons_ite] at h
    split_ifs at h with hc
    · cases h; subst hc; exact List.mem_cons_self _ _
    · exact List.mem_cons_of_mem _ (ih h)

theorem lookup_eq_none : l.lookup c = none ↔ c ∉ l.map (·.1) := by
  induction l with
  | nil => simp
  | cons e l ih =>
    obtain ⟨k, w⟩ := e
    rw [lookup_cons_ite, List.map_cons, List.mem_cons, not_or, ← ih]
    by_cases hc : c = k <;> simp [hc]

theorem lookup_of_mem {v : TrieNode} (hn : (l.map (·.1)).Nodup) (h : (c, v) ∈ l) :
    l.lookup c = some v := by
  induction l with
  | nil => simp at h
  | cons e l ih =>
    obtain ⟨k, w⟩ := e
    rw [List.map_cons, List.nodup_cons] at hn
    rw [lookup_cons_ite]
    rcases List.mem_cons.mp h with h | h
    · cases h; simp
    · have hc : c ≠ k := fun hc => hn.1 (hc ▸ List.mem_map_of_mem (·.1) h)
      rw [if_neg hc, ih hn.2 h]

end Lookup

/-! ## `search` -/

theorem search_cons (node : TrieNode) (c : Char) (s : List Char) :
    node.search (c :: s) = ((node.children.lookup c).map (·.search s)).getD false := by
  simp only [search, searchPrefix]
  cases node.children.lookup c <;> rfl

@[simp] theorem search_nil (node : TrieNode) : node.search [] = node.isEndOfWord := rfl

@[simp] theorem search_new (s : List Char) : new.search s = false := by
  cases s <;> simp [search_cons, new]

/-- The words below `p`: those of the node that `search_prefix(p)` finds. -/
theorem search_append (node : TrieNode) (p s : List Char) :
    node.search (p ++ s) = ((node.searchPrefix p).map (·.search s)).getD false := by
  induction p generalizing node with
  | nil => rfl
  | cons c p ih =>
    rw [List.cons_append, search_cons, searchPrefix]
    cases node.children.lookup c <;> simp [ih]

/-- `insert(w)` adds `w` to the words of the trie. -/
theorem search_insert (w : List Char) :
    ∀ (node : TrieNode) (v : List Char), (node.insert w).search v = (v == w || node.search v) := by
  induction w with
  | nil =>
    rintro ⟨children, isEnd⟩ (_ | ⟨c, s⟩)
    · simp [insert]
    · simp [insert, search_cons]
  | cons ch rest ih =>
    rintro ⟨children, isEnd⟩ (_ | ⟨c, s⟩)
    · simp [insert]
    · rw [insert, search_cons, search_cons, lookup_modifyChild, lookup_ensureChild]
      by_cases hc : c = ch
      · subst hc; cases children.lookup c <;> simp [ih]
      · simp [hc]

/-- When `remove_helper` says "delete this node", the node has no children and ends no
    word. -/
theorem removeHelper_fst_of_snd {node : TrieNode} {w : List Char}
    (h : (node.removeHelper w).2 = true) : (node.removeHelper w).1 = new := by
  obtain ⟨children, isEnd⟩ := node
  cases w with
  | nil =>
    cases isEnd <;> simp_all [removeHelper, new]
  | cons ch rest =>
    simp only [removeHelper] at h ⊢
    split at h
    · simp at h
    · split_ifs at h ⊢ with hd
      · simp only [Bool.and_eq_true, List.isEmpty_iff, Bool.not_eq_true'] at h
        rw [h.1, h.2]; rfl

/-- `remove(w)` takes `w` out of the words of the trie. -/
theorem search_removeHelper (w : List Char) :
    ∀ (node : TrieNode) (v : List Char),
      (node.removeHelper w).1.search v = (v != w && node.search v) := by
  induction w with
  | nil =>
    rintro ⟨children, isEnd⟩ (_ | ⟨c, s⟩) <;> cases isEnd <;> simp [removeHelper, search_cons]
  | cons ch rest ih =>
    rintro ⟨children, isEnd⟩ (_ | ⟨c, s⟩)
    · rw [removeHelper]; split <;> [rfl; split_ifs <;> rfl]
    · rw [removeHelper, search_cons]
      by_cases hc : c = ch
      · subst hc
        have hcs : (c :: s != c :: rest) = (s != rest) := by
          rw [Bool.eq_iff_iff, bne_iff_ne, bne_iff_ne, ne_eq, List.cons.injEq]; simp
        split
        · rename_i hl; simp [search_cons, hl]
        · rename_i child hl
          have hs := ih child s
          split_ifs with hd
          · rw [removeHelper_fst_of_snd hd, search_new] at hs
            simp [search_cons, hl, hcs, hs]
          · simp [search_cons, hl, hs, hcs]
      · have hv : (c :: s != ch :: rest) = true := by simp [hc]
        split
        · simp [hv, search_cons]
        · split_ifs <;> simp [hv, search_cons, hc]

/-! ## The shape that `remove` keeps -/

mutual
/-- Every child of every node leads to a word, and no node has two children for one
    character. `remove_helper` deletes each node that no longer leads to a word. -/
def WF : TrieNode → Prop
  | ⟨children, _⟩ => (children.map (·.1)).Nodup ∧ WFChildren children
/-- `WF` of each child. -/
def WFChildren : List (Char × TrieNode) → Prop
  | [] => True
  | (_, child) :: rest => (∃ s, child.search s = true) ∧ WF child ∧ WFChildren rest
end

theorem wfChildren_iff (l : List (Char × TrieNode)) :
    WFChildren l ↔ ∀ e ∈ l, (∃ s, e.2.search s = true) ∧ WF e.2 := by
  induction l with
  | nil => simp [WFChildren]
  | cons e l ih => obtain ⟨c, child⟩ := e; simp [WFChildren, ih, and_assoc]

theorem wf_iff (children : List (Char × TrieNode)) (isEnd : Bool) :
    WF ⟨children, isEnd⟩ ↔ (children.map (·.1)).Nodup ∧
      ∀ e ∈ children, (∃ s, e.2.search s = true) ∧ WF e.2 := by
  rw [WF, wfChildren_iff]

theorem wf_new : WF new := (wf_iff _ _).mpr ⟨List.nodup_nil, by simp⟩

theorem WF.child {node : TrieNode} (h : WF node) {c : Char} {child : TrieNode}
    (hc : node.children.lookup c = some child) : (∃ s, child.search s = true) ∧ WF child := by
  obtain ⟨children, isEnd⟩ := node
  exact ((wf_iff _ _).mp h).2 _ (mem_of_lookup _ _ hc)

theorem children_ne_nil_or_isEnd {node : TrieNode} (h : ∃ s, node.search s = true) :
    node.children ≠ [] ∨ node.isEndOfWord = true := by
  obtain ⟨_ | _, _ | _⟩ := node
  · obtain ⟨_ | _, hs⟩ := h <;> simp [search_cons, new] at hs
  all_goals simp

/-- In a `WF` node, a node leads to a word exactly when it has a child or ends a word. -/
theorem WF.exists_word_iff {node : TrieNode} (h : WF node) :
    (∃ s, node.search s = true) ↔ node.children ≠ [] ∨ node.isEndOfWord = true := by
  refine ⟨children_ne_nil_or_isEnd, ?_⟩
  obtain ⟨children, isEnd⟩ := node
  rintro (hc | he)
  · obtain ⟨⟨c, child⟩, l, rfl⟩ := List.exists_cons_of_ne_nil hc
    obtain ⟨s, hs⟩ := ((wf_iff _ _).mp h).2 _ (List.mem_cons_self _ _) |>.1
    exact ⟨c :: s, by simpa [search_cons, lookup_cons_ite] using hs⟩
  · exact ⟨[], he⟩

theorem map_fst_modifyChild (l : List (Char × TrieNode)) (ch : Char) (f : TrieNode → TrieNode) :
    (modifyChild l ch f).map (·.1) = l.map (·.1) := by
  simp only [modifyChild, List.map_map]
  congr 1; funext e; simp only [Function.comp]; split <;> rfl

theorem mem_ensureChild {l : List (Char × TrieNode)} {ch : Char} {e : Char × TrieNode}
    (h : e ∈ ensureChild l ch) : e ∈ l ∨ e = (ch, new) := by
  unfold ensureChild at h
  split at h
  · simpa using h
  · exact .inl h

/-- `insert` keeps the shape. -/
theorem WF.insert (w : List Char) : ∀ {node : TrieNode}, WF node → WF (node.insert w) := by
  induction w with
  | nil => rintro ⟨children, isEnd⟩ h; exact (wf_iff _ _).mpr ((wf_iff _ _).mp h)
  | cons ch rest ih =>
    rintro ⟨children, isEnd⟩ h
    obtain ⟨hn, hc⟩ := (wf_iff _ _).mp h
    refine (wf_iff _ _).mpr ⟨?_, ?_⟩
    · rw [map_fst_modifyChild, ensureChild]
      split
      · rename_i hl
        rw [List.map_append, List.nodup_append]
        refine ⟨hn, List.nodup_singleton _, ?_⟩
        simpa [List.disjoint_singleton] using (lookup_eq_none _ _).mp (Option.isNone_iff_eq_none.mp hl)
      · exact hn
    · intro e he
      obtain ⟨e', he', rfl⟩ := List.mem_map.mp he
      have hwf : WF e'.2 := by
        rcases mem_ensureChild he' with he' | rfl
        · exact (hc _ he').2
        · exact wf_new
      split
      · exact ⟨⟨rest, by simp [search_insert]⟩, ih hwf⟩
      · rename_i hne
        rcases mem_ensureChild he' with he' | rfl
        · exact hc _ he'
        · exact absurd rfl hne

/-- A node that led to a word and that `remove_helper` does not delete still leads to one. -/
theorem exists_word_removeHelper {node : TrieNode} {w : List Char}
    (hwf : WF (node.removeHelper w).1) (hw : ∃ s, node.search s = true)
    (hd : (node.removeHelper w).2 = false) : ∃ s, (node.removeHelper w).1.search s = true := by
  obtain ⟨children, isEnd⟩ := node
  cases w with
  | nil =>
    cases isEnd
    · simpa [removeHelper] using hw
    · refine hwf.exists_word_iff.mpr (.inl ?_)
      simpa [removeHelper] using hd
  | cons ch rest =>
    refine hwf.exists_word_iff.mpr ?_
    simp only [removeHelper] at hd ⊢
    cases hl : children.lookup ch with
    | none => simp only [hl]; exact children_ne_nil_or_isEnd hw
    | some child =>
      simp only [hl] at hd ⊢
      split_ifs at hd ⊢
      · simpa [or_iff_not_imp_left] using hd
      · left
        rw [ne_eq, ← List.map_eq_nil_iff (f := Prod.fst), map_fst_modifyChild, List.map_eq_nil_iff]
        exact List.ne_nil_of_mem (mem_of_lookup _ _ hl)

/-- `remove_helper` keeps the shape. -/
theorem WF.removeHelper_fst (w : List Char) :
    ∀ {node : TrieNode}, WF node → WF (node.removeHelper w).1 := by
  induction w with
  | nil =>
    rintro ⟨children, isEnd⟩ h
    cases isEnd
    · exact h
    · exact (wf_iff _ _).mpr ((wf_iff _ _).mp h)
  | cons ch rest ih =>
    rintro ⟨children, isEnd⟩ h
    obtain ⟨hn, hc⟩ := (wf_iff _ _).mp h
    rw [removeHelper]
    split
    · exact h
    · rename_i child hl
      obtain ⟨hw, hwf⟩ := h.child hl
      split_ifs with hd
      · exact (wf_iff _ _).mpr ⟨((List.filter_sublist children).map (·.1)).nodup hn,
          fun e he => hc e (List.mem_filter.mp he).1⟩
      · refine (wf_iff _ _).mpr ⟨by rwa [map_fst_modifyChild], fun e he => ?_⟩
        obtain ⟨e', he', rfl⟩ := List.mem_map.mp he
        split
        · exact ⟨exists_word_removeHelper (ih hwf) hw (by simpa using hd), ih hwf⟩
        · exact hc e' he'

theorem WF.searchPrefix {p : List Char} : ∀ {node n : TrieNode}, WF node →
    node.searchPrefix p = some n → WF n := by
  induction p with
  | nil => rintro node n h hn; cases hn; exact h
  | cons c p ih =>
    intro node n h hn
    simp only [TrieNode.searchPrefix, Option.bind_eq_some] at hn
    obtain ⟨child, hc, hn⟩ := hn
    exact ih (h.child hc).2 hn

/-- In a trie of that shape, every node at the end of a nonempty path leads to a word. -/
theorem WF.exists_word_of_searchPrefix {p : List Char} : ∀ {node n : TrieNode}, WF node →
    p ≠ [] → node.searchPrefix p = some n → ∃ s, n.search s = true := by
  induction p with
  | nil => intro _ _ _ hp; exact absurd rfl hp
  | cons c p ih =>
    intro node n h _ hn
    simp only [TrieNode.searchPrefix, Option.bind_eq_some] at hn
    obtain ⟨child, hc, hn⟩ := hn
    obtain ⟨hw, hwf⟩ := h.child hc
    cases p with
    | nil => cases hn; exact hw
    | cons => exact ih hwf (List.cons_ne_nil _ _) hn

/-! ## `collect_words` -/

mutual
theorem mem_collectWords : ∀ (node : TrieNode) (cur w : List Char), WF node →
    (w ∈ node.collectWords cur ↔ ∃ s, w = cur ++ s ∧ node.search s = true)
  | ⟨children, isEnd⟩, cur, w, h => by
    rw [collectWords, List.mem_append, mem_collectChildren children cur w h.2]
    constructor
    · rintro (hw | ⟨⟨c, child⟩, he, s, rfl, hs⟩)
      · split at hw
        · rename_i he; exact ⟨[], by simpa using hw, he⟩
        · simp at hw
      · exact ⟨c :: s, rfl, by simpa [search_cons, lookup_of_mem _ _ h.1 he] using hs⟩
    · rintro ⟨_ | ⟨c, s⟩, rfl, hs⟩
      · left; simp_all
      · right
        rw [search_cons] at hs
        cases hc : children.lookup c with
        | none => simp [hc] at hs
        | some child =>
          exact ⟨(c, child), mem_of_lookup _ _ hc, s, rfl, by simpa [hc] using hs⟩
theorem mem_collectChildren : ∀ (l : List (Char × TrieNode)) (cur w : List Char), WFChildren l →
    (w ∈ collectChildren l cur ↔ ∃ e ∈ l, ∃ s, w = cur ++ e.1 :: s ∧ e.2.search s = true)
  | [], _, _, _ => by simp [collectChildren]
  | (c, child) :: rest, cur, w, h => by
    rw [collectChildren, List.mem_append, mem_collectWords child _ w h.2.1,
      mem_collectChildren rest cur w h.2.2]
    simp
end

mutual
theorem nodup_collectWords : ∀ (node : TrieNode) (cur : List Char), WF node →
    (node.collectWords cur).Nodup
  | ⟨children, isEnd⟩, cur, h => by
    rw [collectWords, List.nodup_append]
    refine ⟨by split <;> simp, nodup_collectChildren children cur h.1 h.2, fun w hw hw' => ?_⟩
    obtain ⟨e, -, s, rfl, -⟩ := (mem_collectChildren children cur _ h.2).mp hw'
    split at hw <;> simp at hw
theorem nodup_collectChildren : ∀ (l : List (Char × TrieNode)) (cur : List Char),
    (l.map (·.1)).Nodup → WFChildren l → (collectChildren l cur).Nodup
  | [], _, _, _ => by simp [collectChildren]
  | (c, child) :: rest, cur, hn, h => by
    rw [List.map_cons, List.nodup_cons] at hn
    rw [collectChildren, List.nodup_append]
    refine ⟨nodup_collectWords child _ h.2.1, nodup_collectChildren rest cur hn.2 h.2.2,
      fun w hw hw' => ?_⟩
    obtain ⟨s, rfl, -⟩ := (mem_collectWords child _ w h.2.1).mp hw
    obtain ⟨e, he, s', heq, -⟩ := (mem_collectChildren rest cur _ h.2.2).mp hw'
    simp only [List.append_assoc, List.singleton_append, List.append_cancel_left_eq,
      List.cons.injEq] at heq
    exact hn.1 (by rw [heq.1]; exact List.mem_map_of_mem (·.1) he)
end

/-! ## What `remove_helper` returns -/

/-- "Delete this node" is only returned along a stored word. -/
theorem search_of_removeHelper_snd (w : List Char) :
    ∀ {node : TrieNode}, (node.removeHelper w).2 = true → node.search w = true := by
  induction w with
  | nil => rintro ⟨children, isEnd⟩ h; cases isEnd <;> simp_all [removeHelper]
  | cons ch rest ih =>
    rintro ⟨children, isEnd⟩ h
    rw [removeHelper] at h
    rw [search_cons]
    cases hl : children.lookup ch with
    | none => simp [hl] at h
    | some child =>
      simp only [hl] at h
      split_ifs at h with hd
      simpa using ih hd

/-- In a trie of that shape, `remove_helper` returns "delete this node" exactly when `w` is
    the only word below the node. -/
theorem WF.removeHelper_snd_iff {node : TrieNode} (h : WF node) (w : List Char) :
    (node.removeHelper w).2 = true ↔ ∀ v, node.search v = (v == w) := by
  constructor
  · intro hd v
    have hv := search_removeHelper w node v
    rw [removeHelper_fst_of_snd hd, search_new] at hv
    by_cases hvw : v = w
    · subst hvw; simp [search_of_removeHelper_snd v hd]
    · rw [beq_false_of_ne hvw]; simpa [hvw] using hv.symm
  · intro hw
    by_contra hd
    obtain ⟨s, hs⟩ := exists_word_removeHelper (h.removeHelper_fst w) ⟨w, by simp [hw]⟩
      (by simpa using hd)
    rw [search_removeHelper, hw] at hs
    simp at hs

end TrieNode

/-- `class Trie` (lines 14–112). -/
structure Trie where
  root : TrieNode

namespace Trie

/-- `Trie()`. -/
def new : Trie := ⟨TrieNode.new⟩

/-- `insert(word)`. -/
def insert (t : Trie) (word : List Char) : Trie := ⟨t.root.insert word⟩

/-- `search(word)`. -/
def search (t : Trie) (word : List Char) : Bool := t.root.search word

/-- `starts_with(prefix)`. -/
def startsWith (t : Trie) (pre : List Char) : Bool := (t.root.searchPrefix pre).isSome

/-- `get_words_with_prefix(prefix)` (lines 76–84). -/
def getWordsWithPrefix (t : Trie) (pre : List Char) : List (List Char) :=
  match t.root.searchPrefix pre with
  | none => []
  | some node => node.collectWords pre

/-- `remove(word)`: the trie afterwards and the result. -/
def remove (t : Trie) (word : List Char) : Trie × Bool :=
  (⟨(t.root.removeHelper word).1⟩, (t.root.removeHelper word).2)

/-! ## A set of words -/

/-- A call that changes the trie. -/
inductive Op
  | insert (word : List Char)
  | remove (word : List Char)

/-- The trie after one call; the result of `remove` is dropped. -/
def apply (t : Trie) : Op → Trie
  | .insert word => t.insert word
  | .remove word => (t.remove word).1

/-- The trie after the calls `ops` in turn, from `Trie()`. -/
def run (ops : List Op) : Trie := ops.foldl apply new

/-- One call on the set of stored words. -/
def Op.step (S : List Char → Bool) : Op → List Char → Bool
  | .insert word, w => w == word || S w
  | .remove word, w => w != word && S w

/-- The set of stored words after `ops`: the words whose last insert is not followed by a
    remove of them. -/
def stored (ops : List Op) : List Char → Bool := ops.foldl Op.step fun _ => false

/-- One call keeps the shape and acts on the words as on a set. -/
theorem apply_spec {t : Trie} (h : t.root.WF) (op : Op) :
    (t.apply op).root.WF ∧ ∀ w, (t.apply op).search w = Op.step t.search op w := by
  cases op with
  | insert word => exact ⟨h.insert word, TrieNode.search_insert word t.root⟩
  | remove word => exact ⟨h.removeHelper_fst word, TrieNode.search_removeHelper word t.root⟩

theorem foldl_apply_spec (ops : List Op) : ∀ {t : Trie} {S : List Char → Bool}, t.root.WF →
    (∀ w, t.search w = S w) →
    (ops.foldl apply t).root.WF ∧ ∀ w, (ops.foldl apply t).search w = ops.foldl Op.step S w := by
  induction ops with
  | nil => exact fun h hS => ⟨h, hS⟩
  | cons op ops ih =>
    intro t S h hS
    obtain rfl : t.search = S := funext hS
    obtain ⟨h', hS'⟩ := apply_spec h op
    exact ih h' hS'

theorem run_spec (ops : List Op) :
    (run ops).root.WF ∧ ∀ w, (run ops).search w = stored ops w :=
  foldl_apply_spec ops TrieNode.wf_new TrieNode.search_new

theorem startsWith_iff {t : Trie} (h : t.root.WF) {p : List Char} (hp : p ≠ []) :
    t.startsWith p = true ↔ ∃ w, t.search w = true ∧ p <+: w := by
  unfold startsWith
  constructor
  · intro hsome
    obtain ⟨n, hn⟩ := Option.isSome_iff_exists.mp hsome
    obtain ⟨s, hs⟩ := h.exists_word_of_searchPrefix hp hn
    exact ⟨p ++ s, by simpa [search, TrieNode.search_append, hn] using hs, List.prefix_append p s⟩
  · rintro ⟨_, hw, s, rfl⟩
    rw [search, TrieNode.search_append] at hw
    cases hn : t.root.searchPrefix p <;> simp_all

theorem getWordsWithPrefix_spec {t : Trie} (h : t.root.WF) (p : List Char) :
    (t.getWordsWithPrefix p).Nodup ∧
      ∀ w, w ∈ t.getWordsWithPrefix p ↔ t.search w = true ∧ p <+: w := by
  unfold getWordsWithPrefix
  cases hn : t.root.searchPrefix p with
  | none =>
    refine ⟨List.nodup_nil, fun w => ⟨fun hw => absurd hw (List.not_mem_nil _), ?_⟩⟩
    rintro ⟨hw, s, rfl⟩
    simp [search, TrieNode.search_append, hn] at hw
  | some n =>
    have hwf := h.searchPrefix hn
    refine ⟨TrieNode.nodup_collectWords n p hwf, fun w => ?_⟩
    rw [TrieNode.mem_collectWords n p w hwf]
    constructor
    · rintro ⟨s, rfl, hs⟩
      exact ⟨by simpa [search, TrieNode.search_append, hn] using hs, List.prefix_append p s⟩
    · rintro ⟨hw, s, rfl⟩
      exact ⟨s, rfl, by simpa [search, TrieNode.search_append, hn] using hw⟩

/-- After any calls, the trie holds exactly the stored words: `search` finds them,
    `starts_with` finds their nonempty prefixes, and `get_words_with_prefix` lists each of
    them with the prefix once. -/
theorem run_implements_set (ops : List Op) :
    (∀ w, (run ops).search w = stored ops w) ∧
      (∀ p, p ≠ [] → ((run ops).startsWith p = true ↔ ∃ w, stored ops w = true ∧ p <+: w)) ∧
      ∀ p, ((run ops).getWordsWithPrefix p).Nodup ∧
        ∀ w, w ∈ (run ops).getWordsWithPrefix p ↔ stored ops w = true ∧ p <+: w := by
  obtain ⟨hwf, hs⟩ := run_spec ops
  refine ⟨hs, fun p hp => ?_, fun p => ?_⟩
  · simp only [startsWith_iff hwf hp, hs]
  · simpa only [hs] using getWordsWithPrefix_spec hwf p

/-! ## What `remove` returns -/

/-- The words `main()` inserts (lines 119–124). -/
def mainWords : List (List Char) :=
  ["apple", "app", "application", "banana", "band", "bandwidth"].map String.toList

theorem remove_stored_returns_false :
    (run (mainWords.map .insert)).search "apple".toList = true ∧
      ((run (mainWords.map .insert)).remove "apple".toList).2 = false := by
  decide

/-- `remove(w)` returns `true` exactly when `w` was the only stored word. -/
theorem remove_iff_only_word (ops : List Op) (w : List Char) :
    ((run ops).remove w).2 = true ↔ ∀ v, stored ops v = (v == w) := by
  obtain ⟨hwf, hs⟩ := run_spec ops
  simp only [remove, ← hs]
  exact hwf.removeHelper_snd_iff w

end Trie

end HpDb.Indexing
