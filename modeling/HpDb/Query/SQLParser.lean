import Mathlib.Data.List.Basic
import HpDb.CLib

/-!
# `SQLParser` (query_processor/parser/sql_parser.cpp)

`Tokenizer::nextToken` skips white space and returns one token: a run of letters and digits
that starts with a letter is a keyword or an `IDENTIFIER`, a run of digits a `NUMBER`,
`, ; = *` their own types, any other character `UNKNOWN`, and at the end of the input
`UNKNOWN ""`, again at every later call. `SQLParser` reads one token ahead. `parseSelect`
reads `SELECT`, an identifier, then consumes one token whatever it is where `FROM` should
be, an identifier, and a condition if the next token is `WHERE`; `parse` returns without
looking at what follows.

Characters are classified as in `HpDb.CLib`. The tokenizer keeps its remaining input, and
its `k`-th token is `tokenAt sql k`. The AST is an inductive type, and an exception is the
`.error` of its message.

Results:
* `parse_ok_iff`: `parse` returns exactly when the tokens are `SELECT`, an identifier, any
  token, an identifier, and, if the fifth is `WHERE`, an identifier, `=` and a number.
* `parse_ok_of_matchesGrammar`: every input of the grammar
  `SELECT IDENTIFIER FROM IDENTIFIER [WHERE IDENTIFIER EQUALS NUMBER] [SEMICOLON]` is parsed.
* `parse_accepts_outside_grammar`: `SELECT a b c` and `SELECT a FROM b c` are parsed too.
* `tokenizer_reaches_end`: on every input `s`, the calls of `nextToken` reach the end of the
  input within `|s| + 1` calls, and the tokens before it spell `s` without its white space.
-/

namespace HpDb.Query.SQL

/-- `enum class TokenType` (lines 10–12). -/
inductive TokenType where
  | SELECT | INSERT | UPDATE | DELETE | FROM | WHERE | INTO | VALUES | SET | AND | OR
  | IDENTIFIER | NUMBER | COMMA | SEMICOLON | EQUALS | STAR | UNKNOWN
  deriving DecidableEq, Repr

/-- `struct Token` (lines 15–18). -/
structure Token where
  type : TokenType
  value : List Char
  deriving DecidableEq, Repr

/-- `Tokenizer::keywords` (lines 96–101). -/
def keywords : List (List Char × TokenType) :=
  [("SELECT".toList, .SELECT), ("INSERT".toList, .INSERT), ("UPDATE".toList, .UPDATE),
    ("DELETE".toList, .DELETE), ("FROM".toList, .FROM), ("WHERE".toList, .WHERE),
    ("INTO".toList, .INTO), ("VALUES".toList, .VALUES), ("SET".toList, .SET),
    ("AND".toList, .AND), ("OR".toList, .OR)]

/-- The characters of a keyword or an identifier after the first (line 117). -/
def isAlnum (c : Char) : Bool := c.isAlpha || c.isDigit

/-- `Tokenizer::nextToken()` (lines 109–136), on the input left from `pos` on. -/
def nextToken (input : List Char) : Token × List Char :=
  match input.dropWhile isSpace with
  | [] => (⟨.UNKNOWN, []⟩, [])
  | currentChar :: rest =>
    if currentChar.isAlpha then
      let keyword := (currentChar :: rest).takeWhile isAlnum
      let rest := (currentChar :: rest).dropWhile isAlnum
      match keywords.lookup keyword with
      | some type => (⟨type, keyword⟩, rest)
      | none => (⟨.IDENTIFIER, keyword⟩, rest)
    else if currentChar.isDigit then
      (⟨.NUMBER, (currentChar :: rest).takeWhile Char.isDigit⟩,
        (currentChar :: rest).dropWhile Char.isDigit)
    else if currentChar = ',' then (⟨.COMMA, [',']⟩, rest)
    else if currentChar = ';' then (⟨.SEMICOLON, [';']⟩, rest)
    else if currentChar = '=' then (⟨.EQUALS, ['=']⟩, rest)
    else if currentChar = '*' then (⟨.STAR, ['*']⟩, rest)
    else (⟨.UNKNOWN, [currentChar]⟩, rest)

/-- The token of the `k + 1`-th call of `nextToken` on `sql`, and the input left after it. -/
def tokenAt (sql : List Char) : Nat → Token × List Char
  | 0 => nextToken sql
  | k + 1 => nextToken (tokenAt sql k).2

/-- The type of the `k`-th token of `sql`. -/
def typeAt (sql : List Char) (k : Nat) : TokenType := (tokenAt sql k).1.type

/-- `ASTIdentifier`, `ASTValue`, `ASTBinaryExpression` and `ASTSQLCommand` (lines 27–90). -/
inductive ASTNode where
  | identifier (identifier : List Char)
  | value (value : List Char)
  | binaryExpression (left right : ASTNode) (op : List Char)
  | sqlCommand (command : List Char) (children : List ASTNode)
  deriving Repr

/-- `class SQLParser` (lines 140–195): the token read ahead and the tokenizer's input. -/
structure SQLParser where
  currentToken : Token
  input : List Char

namespace SQLParser

/-- `consumeToken()` (line 144). -/
def consumeToken (p : SQLParser) : SQLParser := ⟨(nextToken p.input).1, (nextToken p.input).2⟩

/-- `SQLParser(sql)` (lines 185–187); the token before the first `consumeToken` is never
    read. -/
def new (sql : List Char) : SQLParser := consumeToken ⟨⟨.UNKNOWN, []⟩, sql⟩

/-- `parseIdentifier()` (lines 146–152). -/
def parseIdentifier (p : SQLParser) : Except String (ASTNode × SQLParser) :=
  if p.currentToken.type ≠ .IDENTIFIER then throw "Expected identifier"
  else pure (.identifier p.currentToken.value, p.consumeToken)

/-- `parseValue()` (lines 154–160). -/
def parseValue (p : SQLParser) : Except String (ASTNode × SQLParser) :=
  if p.currentToken.type ≠ .NUMBER then throw "Expected number"
  else pure (.value p.currentToken.value, p.consumeToken)

/-- `parseCondition()` (lines 162–169). -/
def parseCondition (p : SQLParser) : Except String (ASTNode × SQLParser) := do
  let (left, p) ← p.parseIdentifier
  if p.currentToken.type ≠ .EQUALS then throw "Expected \x27=\x27"
  let (right, p) ← p.consumeToken.parseValue
  pure (.binaryExpression left right ['='], p)

/-- `parseSelect()` (lines 171–182). -/
def parseSelect (p : SQLParser) : Except String (ASTNode × SQLParser) := do
  let (column, p) ← p.consumeToken.parseIdentifier
  let (table, p) ← p.consumeToken.parseIdentifier
  if p.currentToken.type = .WHERE then
    let (condition, p) ← p.consumeToken.parseCondition
    pure (.sqlCommand "SELECT".toList [column, table, condition], p)
  else pure (.sqlCommand "SELECT".toList [column, table], p)

/-- `parse()` (lines 189–194). -/
def parse (p : SQLParser) : Except String ASTNode :=
  if p.currentToken.type = .SELECT then p.parseSelect.map Prod.fst
  else throw "Unknown SQL command"

/-- The parser that has read the `k + 1` first tokens of `sql`. -/
def after (sql : List Char) (k : Nat) : SQLParser := ⟨(tokenAt sql k).1, (tokenAt sql k).2⟩

@[simp] theorem new_eq (sql : List Char) : new sql = after sql 0 := rfl

@[simp] theorem consumeToken_after (sql : List Char) (k : Nat) :
    (after sql k).consumeToken = after sql (k + 1) := rfl

@[simp] theorem currentToken_after (sql : List Char) (k : Nat) :
    (after sql k).currentToken.type = typeAt sql k := rfl

/-! ## What each parsing function reads -/

theorem parseIdentifier_after (sql : List Char) (k : Nat) :
    (after sql k).parseIdentifier = if typeAt sql k = .IDENTIFIER then
      .ok (.identifier (tokenAt sql k).1.value, after sql (k + 1)) else .error "Expected identifier" := by
  unfold parseIdentifier; split_ifs <;> first | rfl | simp_all

theorem parseValue_after (sql : List Char) (k : Nat) :
    (after sql k).parseValue = if typeAt sql k = .NUMBER then
      .ok (.value (tokenAt sql k).1.value, after sql (k + 1)) else .error "Expected number" := by
  unfold parseValue; split_ifs <;> first | rfl | simp_all

theorem exists_bind_eq_ok {α β : Type} (x : Except String α) (f : α → Except String β) :
    (∃ r, (x >>= f) = .ok r) ↔ ∃ a, x = .ok a ∧ ∃ r, f a = .ok r := by
  cases x <;> simp [bind, Except.bind]

theorem exists_ite_ok_and {P : Prop} [Decidable P] (x : ASTNode × SQLParser) (e : String)
    (Q : ASTNode × SQLParser → Prop) :
    (∃ a, (if P then Except.ok x else Except.error e) = Except.ok a ∧ Q a) ↔ P ∧ Q x := by
  split_ifs with h <;> simp [h]

theorem parseCondition_after_ok (sql : List Char) (k : Nat) :
    (∃ r, (after sql k).parseCondition = .ok r) ↔
      typeAt sql k = .IDENTIFIER ∧ typeAt sql (k + 1) = .EQUALS ∧ typeAt sql (k + 2) = .NUMBER := by
  unfold parseCondition
  rw [exists_bind_eq_ok, parseIdentifier_after, exists_ite_ok_and]
  refine and_congr_right fun _ => ?_
  by_cases he : typeAt sql (k + 1) = .EQUALS
  · simp only [currentToken_after, he, ne_eq, not_true_eq_false, if_false, true_and, pure_bind,
      consumeToken_after, parseValue_after, exists_bind_eq_ok, exists_ite_ok_and]
    exact and_iff_left ⟨_, rfl⟩
  · simp only [currentToken_after, he, ne_eq, not_false_eq_true, if_true, false_and, iff_false]
    exact fun ⟨_, h⟩ => nomatch h

/-- What `parseSelect` reads, on any parser: two identifiers after a token each, and a
    condition after `WHERE`. -/
theorem parseSelect_ok_iff (p : SQLParser) :
    (∃ r, p.parseSelect = .ok r) ↔
      ∃ a, p.consumeToken.parseIdentifier = .ok a ∧
        ∃ b, a.2.consumeToken.parseIdentifier = .ok b ∧
          (b.2.currentToken.type = .WHERE → ∃ r, b.2.consumeToken.parseCondition = .ok r) := by
  unfold parseSelect
  refine (exists_bind_eq_ok _ _).trans (exists_congr fun ⟨_, _⟩ => and_congr_right fun _ => ?_)
  refine (exists_bind_eq_ok _ _).trans (exists_congr fun ⟨_, _⟩ => and_congr_right fun _ => ?_)
  dsimp only
  split_ifs with hw
  · simp only [hw, true_implies]
    exact (exists_bind_eq_ok _ _).trans ⟨fun ⟨a, ha, _⟩ => ⟨a, ha⟩, fun ⟨a, ha⟩ => ⟨a, ha, _, rfl⟩⟩
  · simp only [hw, false_implies, iff_true]
    exact ⟨_, rfl⟩

theorem parseSelect_after_ok (sql : List Char) :
    (∃ r, (after sql 0).parseSelect = .ok r) ↔
      typeAt sql 1 = .IDENTIFIER ∧ typeAt sql 3 = .IDENTIFIER ∧
        (typeAt sql 4 = .WHERE →
          typeAt sql 5 = .IDENTIFIER ∧ typeAt sql 6 = .EQUALS ∧ typeAt sql 7 = .NUMBER) := by
  rw [parseSelect_ok_iff, consumeToken_after, parseIdentifier_after, exists_ite_ok_and, consumeToken_after,
    parseIdentifier_after, exists_ite_ok_and, currentToken_after, consumeToken_after, parseCondition_after_ok]

end SQLParser

open SQLParser

/-! ## What `parse` accepts -/

/-- **What `parse` accepts.** `SQLParser(sql).parse()` returns exactly when the tokens of
    `sql` are `SELECT`, an identifier, any token, an identifier, and, if the fifth is
    `WHERE`, an identifier, `=` and a number; the tokens after those are never read. -/
theorem parse_ok_iff (sql : List Char) :
    (∃ ast, (SQLParser.new sql).parse = .ok ast) ↔
      typeAt sql 0 = .SELECT ∧ typeAt sql 1 = .IDENTIFIER ∧ typeAt sql 3 = .IDENTIFIER ∧
        (typeAt sql 4 = .WHERE →
          typeAt sql 5 = .IDENTIFIER ∧ typeAt sql 6 = .EQUALS ∧ typeAt sql 7 = .NUMBER) := by
  rw [new_eq, ← parseSelect_after_ok]
  unfold parse
  by_cases h₀ : typeAt sql 0 = .SELECT
  · simp only [currentToken_after, h₀, if_true, true_and]
    cases (after sql 0).parseSelect <;> simp [Except.map]
  · simp [h₀, throw, throwThe, MonadExceptOf.throw]

/-- The token sequences of the grammar
    `SELECT IDENTIFIER FROM IDENTIFIER [WHERE IDENTIFIER EQUALS NUMBER] [SEMICOLON]`. -/
def grammar : List (List TokenType) :=
  let select := [.SELECT, .IDENTIFIER, .FROM, .IDENTIFIER]
  let condition := [.WHERE, .IDENTIFIER, .EQUALS, .NUMBER]
  [select, select ++ [.SEMICOLON], select ++ condition, select ++ condition ++ [.SEMICOLON]]

/-- The token `nextToken` returns once only white space is left. -/
def endOfInput : Token := ⟨.UNKNOWN, []⟩

/-- The tokens of `sql` are a sequence of `grammar` followed by the end of the input. -/
def MatchesGrammar (sql : List Char) : Prop :=
  ∃ types ∈ grammar, (List.range types.length).map (typeAt sql) = types ∧
    (tokenAt sql types.length).1 = endOfInput

instance : DecidablePred MatchesGrammar := fun _ =>
  inferInstanceAs (Decidable (∃ types ∈ grammar, _))

/-- Every sentence of the grammar is parsed. -/
theorem parse_ok_of_matchesGrammar (sql : List Char) (h : MatchesGrammar sql) :
    ∃ ast, (SQLParser.new sql).parse = .ok ast := by
  obtain ⟨types, htypes, hmap, hend⟩ := h
  have hend : typeAt sql types.length = .UNKNOWN := by rw [typeAt, hend]; rfl
  rw [parse_ok_iff]
  simp only [grammar, List.cons_append, List.singleton_append, List.nil_append, List.mem_cons,
    List.mem_singleton, List.not_mem_nil, or_false] at htypes
  rcases htypes with rfl | rfl | rfl | rfl <;>
    simp only [List.length_cons, List.length_nil, List.range_succ, List.range_zero, List.map_append,
      List.map_cons, List.map_nil, List.nil_append, List.cons_append, List.cons.injEq] at hmap hend <;>
    simp_all

/-- The statement of `main()`. -/
def mainSql : List Char := "SELECT column1 FROM table1 WHERE column1 = 10;".toList

theorem parse_ok_of_matchesGrammar_mainSql :
    MatchesGrammar mainSql ∧ ∃ ast, (SQLParser.new mainSql).parse = .ok ast :=
  ⟨by decide, parse_ok_of_matchesGrammar mainSql (by decide)⟩

/-- A token other than `FROM` where `FROM` should be, and a token after the statement. -/
theorem parse_accepts_outside_grammar :
    ¬MatchesGrammar "SELECT a b c".toList ∧ (∃ ast, (SQLParser.new "SELECT a b c".toList).parse = .ok ast) ∧
      ¬MatchesGrammar "SELECT a FROM b c".toList ∧
      ∃ ast, (SQLParser.new "SELECT a FROM b c".toList).parse = .ok ast :=
  ⟨by decide, ⟨_, rfl⟩, by decide, ⟨_, rfl⟩⟩

/-! ## The tokenizer runs to the end of the input -/

/-- The characters of `s` that `isspace` rejects. -/
def nonSpace (s : List Char) : List Char := s.filter fun c => !isSpace c

theorem isSpace_eq_false_of_isAlnum {c : Char} (h : isAlnum c = true) : isSpace c = false := by
  by_contra hs
  simp only [isSpace, Bool.not_eq_false, Bool.or_eq_true, decide_eq_true_eq] at hs
  rcases hs with (((((rfl | rfl) | rfl) | rfl) | rfl) | rfl) <;> revert h <;> decide

theorem nonSpace_cons {c : Char} (hc : isSpace c = false) (rest : List Char) :
    nonSpace (c :: rest) = c :: nonSpace rest :=
  List.filter_cons_of_pos (by simp [hc])

theorem nonSpace_append (a b : List Char) : nonSpace (a ++ b) = nonSpace a ++ nonSpace b :=
  List.filter_append _ _

theorem nonSpace_dropWhile_isSpace (s : List Char) : nonSpace (s.dropWhile isSpace) = nonSpace s := by
  have htake : nonSpace (s.takeWhile isSpace) = [] :=
    List.filter_eq_nil_iff.mpr fun c hc => by simp [List.mem_takeWhile_imp hc]
  conv_rhs => rw [← List.takeWhile_append_dropWhile isSpace s, nonSpace_append, htake, List.nil_append]

/-- A maximal run of characters of `p`, none of them white space, starting at `c`. -/
theorem munch_spec {p : Char → Bool} (hp : ∀ c, p c = true → isSpace c = false) {c : Char}
    (hc : p c = true) (rest : List Char) :
    nonSpace (c :: rest) = (c :: rest).takeWhile p ++ nonSpace ((c :: rest).dropWhile p) ∧
      (c :: rest).takeWhile p ≠ [] ∧ ((c :: rest).dropWhile p).length ≤ rest.length := by
  have htake : nonSpace ((c :: rest).takeWhile p) = (c :: rest).takeWhile p :=
    List.filter_eq_self.mpr fun x hx => by simp [hp x (List.mem_takeWhile_imp hx)]
  refine ⟨?_, by simp [List.takeWhile_cons_of_pos hc], ?_⟩
  · conv_lhs => rw [← List.takeWhile_append_dropWhile p (c :: rest), nonSpace_append, htake]
  · rw [List.dropWhile_cons_of_pos hc]
    exact (List.dropWhile_suffix p).length_le

/-- **One call of `nextToken`.** At the end of the input it returns `UNKNOWN ""` and leaves
    nothing; otherwise it returns a token whose value is not empty and is the next
    non-space characters of the input, and leaves less input than it was given. -/
theorem nextToken_spec (input : List Char) :
    (nonSpace input = [] ∧ nextToken input = (endOfInput, [])) ∨
      (nonSpace input = (nextToken input).1.value ++ nonSpace (nextToken input).2 ∧
        (nextToken input).1.value ≠ [] ∧ (nextToken input).2.length < input.length) := by
  have hskip := nonSpace_dropWhile_isSpace input
  have hlen := (List.dropWhile_suffix isSpace (l := input)).length_le
  cases hd : input.dropWhile isSpace with
  | nil =>
    rw [hd] at hskip
    exact .inl ⟨hskip.symm, by simp [nextToken, hd, endOfInput]⟩
  | cons c rest =>
    have hc : isSpace c = false := by
      simpa [hd] using List.head_dropWhile_not isSpace input (by simp [hd])
    rw [hd] at hskip
    rw [hd, List.length_cons] at hlen
    refine .inr ?_
    by_cases ha : c.isAlpha
    · have hm := munch_spec (p := isAlnum) (fun _ h => isSpace_eq_false_of_isAlnum h)
        (show isAlnum c = true by simp [isAlnum, ha]) rest
      simp only [nextToken, hd, ha, if_true]
      split <;> exact ⟨hskip.symm.trans hm.1, hm.2.1, by simp only; omega⟩
    by_cases hdig : c.isDigit
    · have hm := munch_spec (p := Char.isDigit)
        (fun x (h : x.isDigit = true) => isSpace_eq_false_of_isAlnum (by simp [isAlnum, h])) hdig rest
      simp only [nextToken, hd, ha, hdig, if_true, if_false, Bool.false_eq_true]
      exact ⟨hskip.symm.trans hm.1, hm.2.1, by omega⟩
    obtain ⟨t, ht⟩ : ∃ t, nextToken input = (⟨t, [c]⟩, rest) := by
      simp only [nextToken, hd, ha, hdig, if_false, Bool.false_eq_true]
      split_ifs <;> subst_vars <;> exact ⟨_, rfl⟩
    rw [ht]
    exact ⟨hskip.symm.trans (nonSpace_cons hc rest), List.cons_ne_nil _ _, by simp only; omega⟩

theorem tokenAt_succ_nextToken (sql : List Char) (k : Nat) :
    tokenAt sql (k + 1) = tokenAt (nextToken sql).2 k := by
  induction k with
  | zero => rfl
  | succ k ih => rw [tokenAt, ih]; rfl

/-- **The tokenizer reaches the end and keeps every character.** For every input `s`, the
    `k + 1`-th call of `nextToken`, for some `k ≤ |s|`, is the first to return the end of
    the input, `UNKNOWN ""`; the values of the `k` tokens before it, in order, are the
    characters of `s` other than white space. -/
theorem tokenizer_reaches_end (sql : List Char) :
    ∃ k ≤ sql.length, (tokenAt sql k).1 = endOfInput ∧ (∀ i < k, (tokenAt sql i).1 ≠ endOfInput) ∧
      (List.range k).flatMap (fun i => (tokenAt sql i).1.value) = nonSpace sql := by
  obtain ⟨n, h⟩ : ∃ n, sql.length = n := ⟨_, rfl⟩
  induction n using Nat.strong_induction_on generalizing sql with
  | _ n ih =>
    rcases nextToken_spec sql with ⟨hns, hend⟩ | ⟨hns, hne, hlt⟩
    · exact ⟨0, Nat.zero_le _, by simp [tokenAt, hend], fun _ h => absurd h (Nat.not_lt_zero _),
        by simp [hns]⟩
    · obtain ⟨k, hk, hendk, hbefore, hcat⟩ := ih _ (h ▸ hlt) (nextToken sql).2 rfl
      refine ⟨k + 1, by omega, by rw [tokenAt_succ_nextToken]; exact hendk, fun i hi => ?_, ?_⟩
      · cases i with
        | zero => exact fun he => hne (by rw [show (nextToken sql).1 = endOfInput from he]; rfl)
        | succ j => rw [tokenAt_succ_nextToken]; exact hbefore j (by omega)
      · rw [List.range_succ_eq_map, List.flatMap_cons, hns]
        simp only [List.flatMap_map, Function.comp_def, tokenAt_succ_nextToken, hcat]
        rfl

example : (List.range 4).flatMap (fun i => (tokenAt mainSql i).1.value) = "SELECTcolumn1FROMtable1".toList ∧
    (tokenAt "a  =1;".toList 4).1 = endOfInput := by
  decide

end HpDb.Query.SQL
