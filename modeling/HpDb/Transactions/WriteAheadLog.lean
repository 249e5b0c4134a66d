import Mathlib.Data.List.Basic
import HpDb.CLib

/-!
# The write-ahead log of `transactions/transactions.cpp` (lines 230–325)

`WriteLog` appends a record to the log file as one line: six fields joined by commas
(the type, the transaction id, the page id, the old data, the new data and the
timestamp). `ReadLogs` cuts the file into lines and parses each with `ParseLogRecord`,
which cuts the line at commas and converts the numeric fields with `std::stoi` and
`std::stoll`. It parses the timestamp as well, but then builds the record with the
constructor, and the constructor stamps it with the current time of
`std::chrono::system_clock`.

The file is its contents; a missing file reads as empty. The clock is an input: `clock i`
is the reading taken by the `i`-th record `ReadLogs` builds. `int` and `long long` are
`BitVec 32` and `BitVec 64`, printed and parsed as signed numbers (`BitVec.toInt`).

Results:
* `readLogs_writeLog`: write any records with data free of commas and line breaks to an
  empty log and read it back; every field comes back, except that the `i`-th record is
  stamped `clock i`.
* `readLogs_restamps`: a record is read back stamped with the clock's reading at the
  read, not with the timestamp it was written with.
-/

namespace HpDb.Transactions

/-- `enum class LogRecordType` (lines 231–236). -/
inductive LogRecordType where
  | beginTransaction
  | commitTransaction
  | abortTransaction
  | update
  deriving DecidableEq, Repr

/-- `static_cast<int>(type)`. -/
def LogRecordType.toInt : LogRecordType → Int
  | .beginTransaction => 0
  | .commitTransaction => 1
  | .abortTransaction => 2
  | .update => 3

/-- `static_cast<LogRecordType>(v)`, `none` for an int that none of the four names has. -/
def LogRecordType.ofInt? (v : Int) : Option LogRecordType :=
  if v = 0 then some .beginTransaction
  else if v = 1 then some .commitTransaction
  else if v = 2 then some .abortTransaction
  else if v = 3 then some .update
  else none

/-- `struct LogRecord` (lines 239–245). -/
structure LogRecord where
  type : LogRecordType
  transactionId : BitVec 32
  pageId : BitVec 32
  oldData : String
  newData : String
  timestamp : BitVec 64
  deriving DecidableEq, Repr

/-- The constructor of `LogRecord` (lines 247–250); `now` is the reading of
    `system_clock::now().time_since_epoch().count()`. -/
def LogRecord.new (type : LogRecordType) (txId pgId : BitVec 32) (oldD newD : String)
    (now : BitVec 64) : LogRecord :=
  ⟨type, txId, pgId, oldD, newD, now⟩

/-- `std::to_string` of a signed integer: `-` before a negative value, then the decimal
    digits. -/
def toDecimal (i : Int) : List Char :=
  if i < 0 then '-' :: Nat.toDigits 10 i.natAbs else Nat.toDigits 10 i.natAbs

/-- The six fields `ToString` prints, in order. -/
def LogRecord.fields (r : LogRecord) : List (List Char) :=
  [toDecimal r.type.toInt, toDecimal r.transactionId.toInt, toDecimal r.pageId.toInt,
    r.oldData.data, r.newData.data, toDecimal r.timestamp.toInt]

/-- `LogRecord::ToString` (lines 252–257): the fields joined by commas, and a line break. -/
def LogRecord.toString (r : LogRecord) : List Char :=
  [','].intercalate r.fields ++ ['\n']

/-! ## Reading -/

/-- `std::getline(in, token, delim)` repeated to the end of the stream (the loops of
    `ReadLogs` with `'\n'` and of `ParseLogRecord` with `','`): the pieces between
    delimiters, `piece` being what is read of the current one. `getline` fails only when it
    is at the end before reading anything, so a last piece is returned when it is not
    empty. -/
def getlineAll (delim : Char) : List Char → List Char → List (List Char)
  | [], piece => if piece = [] then [] else [piece]
  | c :: cs, piece =>
    if c = delim then piece :: getlineAll delim cs [] else getlineAll delim cs (piece ++ [c])

/-- The sign `strtol` reads: `true` for `-`. -/
def readSign : List Char → Bool × List Char
  | c :: cs => if c = '-' then (true, cs) else if c = '+' then (false, cs) else (false, c :: cs)
  | [] => (false, [])

/-- The value of a run of decimal digits. -/
def digitsValue (ds : List Char) : Nat :=
  ds.foldl (fun n c => 10 * n + (c.toNat - '0'.toNat)) 0

/-- `std::stoi` and `std::stoll`, for the range `[lo, hi]` of `int` or `long long`: skip
    white space, read a sign and the longest run of digits. `none` is the exception thrown
    when there is no digit (`invalid_argument`) or the value is out of range
    (`out_of_range`). -/
def stoInt (lo hi : Int) (s : List Char) : Option Int :=
  let (neg, s) := readSign (s.dropWhile isSpace)
  let ds := s.takeWhile Char.isDigit
  let v : Int := if neg then -(digitsValue ds : Int) else digitsValue ds
  if ds = [] ∨ v < lo ∨ hi < v then none else some v

/-- `std::stoi`. -/
def stoi : List Char → Option Int := stoInt (-2147483648) 2147483647

/-- `std::stoll`. -/
def stoll : List Char → Option Int := stoInt (-9223372036854775808) 9223372036854775807

/-- `ParseLogRecord` (lines 308–324), with the clock reading its constructor takes. The
    source indexes `parts` without a bound check, which is undefined past its end; the
    model fails there. The timestamp is parsed (and can throw) but not used. -/
def parseLogRecord (line : List Char) (now : BitVec 64) : Option LogRecord := do
  let parts := getlineAll ',' line []
  let type ← (parts[0]?.bind stoi).bind LogRecordType.ofInt?
  let txId ← parts[1]?.bind stoi
  let pageId ← parts[2]?.bind stoi
  let oldData ← parts[3]?
  let newData ← parts[4]?
  let _timestamp ← parts[5]?.bind stoll
  pure (LogRecord.new type (BitVec.ofInt 32 txId) (BitVec.ofInt 32 pageId) ⟨oldData⟩
    ⟨newData⟩ now)

/-- `WriteAheadLog` (lines 261–306): the contents of its log file. -/
structure WriteAheadLog where
  file : List Char

/-- A log over an empty file. -/
def WriteAheadLog.empty : WriteAheadLog := ⟨[]⟩

/-- `WriteLog` (lines 272–279): append the record's line. -/
def WriteAheadLog.writeLog (wal : WriteAheadLog) (r : LogRecord) : WriteAheadLog :=
  ⟨wal.file ++ r.toString⟩

/-- The loop of `ReadLogs` (lines 287–290); the record built from the `i`-th line reads the
    clock `clock i`. -/
def readLines (clock : Nat → BitVec 64) : Nat → List (List Char) → Option (List LogRecord)
  | _, [] => some []
  | i, line :: lines => do
    let r ← parseLogRecord line (clock i)
    let rs ← readLines clock (i + 1) lines
    pure (r :: rs)

/-- `ReadLogs` (lines 282–292). -/
def WriteAheadLog.readLogs (wal : WriteAheadLog) (clock : Nat → BitVec 64) :
    Option (List LogRecord) :=
  readLines clock 0 (getlineAll '\n' wal.file [])

/-- The first record `SimulateTransaction` writes for transaction `1` (line 330), made
    when the clock read `1731110400000000000` (nanoseconds since the epoch). -/
def beginRecord : LogRecord :=
  LogRecord.new .beginTransaction 1 (-1) "" "" 1731110400000000000

/-! ## Cutting at a delimiter -/

theorem getlineAll_of_not_mem {d : Char} {xs : List Char} (h : d ∉ xs) (piece : List Char) :
    getlineAll d xs piece = if piece ++ xs = [] then [] else [piece ++ xs] := by
  induction xs generalizing piece with
  | nil => simp [getlineAll]
  | cons c xs ih =>
    have hc : c ≠ d := fun e => h (e ▸ List.mem_cons_self c xs)
    rw [getlineAll, if_neg hc, ih fun hm => h (List.mem_cons_of_mem c hm)]
    simp

theorem getlineAll_append {d : Char} {xs : List Char} (h : d ∉ xs) (rest piece : List Char) :
    getlineAll d (xs ++ d :: rest) piece = (piece ++ xs) :: getlineAll d rest [] := by
  induction xs generalizing piece with
  | nil => simp [getlineAll]
  | cons c xs ih =>
    have hc : c ≠ d := fun e => h (e ▸ List.mem_cons_self c xs)
    rw [List.cons_append, getlineAll, if_neg hc, ih fun hm => h (List.mem_cons_of_mem c hm)]
    simp

theorem intercalate_cons {d : Char} (f : List Char) {fs : List (List Char)} (h : fs ≠ []) :
    [d].intercalate (f :: fs) = f ++ d :: [d].intercalate fs := by
  obtain ⟨g, gs, rfl⟩ := List.exists_cons_of_ne_nil h
  simp [List.intercalate]

/-- Cutting at `d` undoes joining with `d`, when no piece holds `d` and the last is not
    empty. -/
theorem getlineAll_intercalate {d : Char} (last : List Char) (hl : last ≠ []) (hd : d ∉ last) :
    ∀ fields : List (List Char), (∀ f ∈ fields, d ∉ f) →
      getlineAll d ([d].intercalate (fields ++ [last])) [] = fields ++ [last]
  | [], _ => by simp [List.intercalate, getlineAll_of_not_mem hd, hl]
  | f :: fields, h => by
    rw [List.cons_append, intercalate_cons f (by simp), getlineAll_append (h f (by simp)),
      getlineAll_intercalate last hl hd fields fun f hf => h f (List.mem_cons_of_mem _ hf)]
    simp

/-! ## `std::stoi` reads back `std::to_string` -/

theorem digitsValue_concat (ds : List Char) (c : Char) :
    digitsValue (ds ++ [c]) = 10 * digitsValue ds + (c.toNat - '0'.toNat) := by
  simp [digitsValue]

/-- The digits `Nat.toDigitsCore` puts before `ds`, with enough fuel: a non-empty run of
    decimal digits of value `n`. -/
theorem toDigitsCore_spec : ∀ (fuel n : Nat) (ds : List Char), n < fuel →
    ∃ l, Nat.toDigitsCore 10 fuel n ds = l ++ ds ∧ l ≠ [] ∧ (∀ c ∈ l, c.isDigit) ∧
      digitsValue l = n
  | 0, _, _, h => absurd h (Nat.not_lt_zero _)
  | fuel + 1, n, ds, h => by
    have hdig : ∀ d < 10, (Nat.digitChar d).isDigit ∧
        (Nat.digitChar d).toNat - '0'.toNat = d := by decide
    obtain ⟨hd, hv⟩ := hdig (n % 10) (Nat.mod_lt _ (by omega))
    have hstep : Nat.toDigitsCore 10 (fuel + 1) n ds =
        if n / 10 = 0 then Nat.digitChar (n % 10) :: ds
        else Nat.toDigitsCore 10 fuel (n / 10) (Nat.digitChar (n % 10) :: ds) := rfl
    by_cases hn : n / 10 = 0
    · refine ⟨[Nat.digitChar (n % 10)], by simp [hstep, hn], by simp, by simpa, ?_⟩
      simp only [digitsValue, List.foldl]
      omega
    · obtain ⟨l, hl, hne, hall, hval⟩ :=
        toDigitsCore_spec fuel (n / 10) (Nat.digitChar (n % 10) :: ds) (by omega)
      refine ⟨l ++ [Nat.digitChar (n % 10)], by simp [hstep, hn, hl], by simp,
        fun c hc => ?_, ?_⟩
      · rcases List.mem_append.mp hc with hc | hc
        · exact hall c hc
        · simp_all
      · rw [digitsValue_concat, hval, hv]
        omega

/-- `std::to_string` of a natural number: a non-empty run of decimal digits of its value. -/
theorem toDigits_spec (n : Nat) :
    Nat.toDigits 10 n ≠ [] ∧ (∀ c ∈ Nat.toDigits 10 n, c.isDigit) ∧
      digitsValue (Nat.toDigits 10 n) = n := by
  obtain ⟨l, hl, hne, hall, hval⟩ := toDigitsCore_spec (n + 1) n [] (Nat.lt_succ_self n)
  have hd : Nat.toDigits 10 n = l := by simpa using hl
  exact hd ▸ ⟨hne, hall, hval⟩

theorem ne_of_isDigit {c d : Char} (h : c.isDigit) (hd : d.toNat < 48) : c ≠ d := by
  rintro rfl
  have h1 : 48 ≤ c.toNat := (Bool.and_eq_true _ _ ▸ h).1 |> of_decide_eq_true
  omega

theorem toNat_lt_of_isSpace {c : Char} (h : isSpace c) : c.toNat < 48 := by
  simp only [isSpace, Bool.or_eq_true, decide_eq_true_eq] at h
  rcases h with (((((rfl | rfl) | rfl) | rfl) | rfl) | rfl) <;> decide

theorem isSpace_of_isDigit {c : Char} (h : c.isDigit) : isSpace c = false :=
  Bool.eq_false_iff.mpr fun hs => ne_of_isDigit h (toNat_lt_of_isSpace hs) rfl

/-- The characters of `to_string`: digits, and a leading `-`. -/
theorem mem_toDecimal {i : Int} {c : Char} (h : c ∈ toDecimal i) : c.isDigit ∨ c = '-' := by
  have hall := (toDigits_spec i.natAbs).2.1
  unfold toDecimal at h
  split at h
  · exact (List.mem_cons.mp h).elim .inr fun h => .inl (hall c h)
  · exact .inl (hall c h)

theorem toDecimal_ne_nil (i : Int) : toDecimal i ≠ [] := by
  unfold toDecimal
  split <;> simp [(toDigits_spec i.natAbs).1]

theorem not_mem_toDecimal {i : Int} {d : Char} (hd : d.toNat < 48) (hm : d ≠ '-') :
    d ∉ toDecimal i := fun h =>
  (mem_toDecimal h).elim (fun h => ne_of_isDigit h hd rfl) hm

/-- `strtol` skips no space in front of `to_string` and reads its sign. -/
theorem readSign_toDecimal (i : Int) :
    readSign ((toDecimal i).dropWhile isSpace) = (decide (i < 0), Nat.toDigits 10 i.natAbs) := by
  obtain ⟨hne, hall, -⟩ := toDigits_spec i.natAbs
  obtain ⟨c, cs, hcs⟩ := List.exists_cons_of_ne_nil hne
  have hc := hall c (hcs ▸ List.mem_cons_self c cs)
  unfold toDecimal
  split
  · simp [*, List.dropWhile, readSign, isSpace]
  · simp [*, List.dropWhile, readSign, isSpace_of_isDigit hc,
      ne_of_isDigit hc (by decide : '-'.toNat < 48), ne_of_isDigit hc (by decide : '+'.toNat < 48)]

theorem stoInt_toDecimal {lo hi i : Int} (hlo : lo ≤ i) (hhi : i ≤ hi) :
    stoInt lo hi (toDecimal i) = some i := by
  obtain ⟨hne, hall, hval⟩ := toDigits_spec i.natAbs
  have hv : (if decide (i < 0) then -((i.natAbs : Nat) : Int) else ((i.natAbs : Nat) : Int)) = i := by
    by_cases h : i < 0
    · rw [if_pos (decide_eq_true h)]; omega
    · rw [if_neg (by simpa using h)]; omega
  simp only [stoInt, readSign_toDecimal, List.takeWhile_eq_self_iff.mpr hall, hval, hne, false_or, hv]
  rw [if_neg (by omega)]

theorem stoi_toDecimal {i : Int} (h0 : -2147483648 ≤ i) (h1 : i ≤ 2147483647) :
    stoi (toDecimal i) = some i :=
  stoInt_toDecimal h0 h1

theorem stoll_toDecimal {i : Int} (h0 : -9223372036854775808 ≤ i)
    (h1 : i ≤ 9223372036854775807) :
    stoll (toDecimal i) = some i :=
  stoInt_toDecimal h0 h1

theorem LogRecordType.ofInt?_toInt (t : LogRecordType) : LogRecordType.ofInt? t.toInt = some t := by
  cases t <;> rfl

theorem LogRecordType.toInt_range (t : LogRecordType) : 0 ≤ t.toInt ∧ t.toInt ≤ 3 := by
  cases t <;> decide

theorem ofInt_toInt {w : Nat} (x : BitVec w) : BitVec.ofInt w x.toInt = x := by
  apply BitVec.eq_of_toNat_eq
  rw [BitVec.toNat_ofInt, BitVec.toInt_eq_toNat_bmod, Int.bmod_emod,
    Int.emod_eq_of_lt (by omega) (by exact_mod_cast x.isLt)]
  simp

/-- An `int` lies between `INT_MIN` and `INT_MAX`. -/
theorem toInt_bounds32 (x : BitVec 32) : -2147483648 ≤ x.toInt ∧ x.toInt ≤ 2147483647 := by
  have := x.isLt
  rw [BitVec.toInt_eq_toNat_cond]
  split <;> omega

/-- A `long long` lies between `LLONG_MIN` and `LLONG_MAX`. -/
theorem toInt_bounds64 (x : BitVec 64) :
    -9223372036854775808 ≤ x.toInt ∧ x.toInt ≤ 9223372036854775807 := by
  have := x.isLt
  rw [BitVec.toInt_eq_toNat_cond]
  split <;> omega

/-! ## Reading back what was written -/

/-- No comma and no line break in the data, so that the record's line cuts back into its
    fields. -/
def LogRecord.Printable (r : LogRecord) : Prop :=
  ',' ∉ r.oldData.data ∧ '\n' ∉ r.oldData.data ∧ ',' ∉ r.newData.data ∧ '\n' ∉ r.newData.data

instance (r : LogRecord) : Decidable r.Printable := inferInstanceAs (Decidable (_ ∧ _ ∧ _ ∧ _))

/-- The line of a record parses back to the record, stamped with the clock reading. -/
theorem parseLogRecord_fields {r : LogRecord} (h : r.Printable) (now : BitVec 64) :
    parseLogRecord ([','].intercalate r.fields) now = some { r with timestamp := now } := by
  have hsplit : getlineAll ',' ([','].intercalate r.fields) [] = r.fields := by
    have hne : toDecimal r.timestamp.toInt ≠ [] := toDecimal_ne_nil _
    refine getlineAll_intercalate _ hne (not_mem_toDecimal (by decide) (by decide))
      [_, _, _, _, _] ?_
    simp only [List.mem_cons, List.mem_singleton, List.not_mem_nil, or_false]
    rintro f (rfl | rfl | rfl | rfl | rfl)
    all_goals first | exact not_mem_toDecimal (by decide) (by decide) | exact h.1 | exact h.2.2.1
  obtain ⟨t0, t1⟩ := r.type.toInt_range
  obtain ⟨i0, i1⟩ := toInt_bounds32 r.transactionId
  obtain ⟨p0, p1⟩ := toInt_bounds32 r.pageId
  obtain ⟨s0, s1⟩ := toInt_bounds64 r.timestamp
  simp only [parseLogRecord]
  rw [hsplit]
  simp only [LogRecord.fields, List.getElem?_cons_zero, List.getElem?_cons_succ,
    Option.bind_eq_bind, Option.some_bind]
  rw [stoi_toDecimal (i := r.type.toInt) (by omega) (by omega), Option.some_bind,
    LogRecordType.ofInt?_toInt, Option.some_bind, stoi_toDecimal i0 i1, Option.some_bind,
    stoi_toDecimal p0 p1, Option.some_bind, stoll_toDecimal s0 s1, Option.some_bind,
    ofInt_toInt, ofInt_toInt]
  rfl

theorem mem_intercalate {d x : Char} :
    ∀ {fields : List (List Char)}, x ∈ [d].intercalate fields → x = d ∨ ∃ f ∈ fields, x ∈ f
  | [], h => by simp [List.intercalate] at h
  | [f], h => .inr ⟨f, List.mem_singleton_self f, by simpa [List.intercalate] using h⟩
  | f :: g :: fields, h => by
    rw [intercalate_cons f (List.cons_ne_nil g fields)] at h
    rcases List.mem_append.mp h with h | h
    · exact .inr ⟨f, List.mem_cons_self f _, h⟩
    · rcases List.mem_cons.mp h with h | h
      · exact .inl h
      · rcases mem_intercalate h with h | ⟨f', hf', h⟩
        · exact .inl h
        · exact .inr ⟨f', List.mem_cons_of_mem f hf', h⟩

theorem newline_not_mem_fields {r : LogRecord} (h : r.Printable) :
    '\n' ∉ [','].intercalate r.fields := fun hm => by
  rcases mem_intercalate hm with hm | ⟨f, hf, hm⟩
  · exact absurd hm (by decide)
  · simp only [LogRecord.fields, List.mem_cons, List.mem_singleton, List.not_mem_nil,
      or_false] at hf
    rcases hf with rfl | rfl | rfl | rfl | rfl | rfl
    all_goals first
      | exact not_mem_toDecimal (by decide) (by decide) hm | exact h.2.1 hm | exact h.2.2.2 hm

theorem writeLog_foldl_file (records : List LogRecord) (wal : WriteAheadLog) :
    (records.foldl WriteAheadLog.writeLog wal).file =
      wal.file ++ (records.map LogRecord.toString).flatten := by
  induction records generalizing wal with
  | nil => simp
  | cons r rs ih => simp [ih, WriteAheadLog.writeLog]

theorem getlineAll_toString :
    ∀ records : List LogRecord, (∀ r ∈ records, r.Printable) →
      getlineAll '\n' (records.map LogRecord.toString).flatten [] =
        records.map fun r => [','].intercalate r.fields
  | [], _ => rfl
  | r :: rs, h => by
    rw [List.map_cons, List.flatten_cons, LogRecord.toString, List.append_assoc,
      List.singleton_append, getlineAll_append (newline_not_mem_fields (h r (List.mem_cons_self r rs))),
      getlineAll_toString rs fun r hr => h r (List.mem_cons_of_mem _ hr)]
    simp

theorem readLines_fields (clock : Nat → BitVec 64) :
    ∀ (records : List LogRecord) (i : Nat), (∀ r ∈ records, r.Printable) →
      readLines clock i (records.map fun r => [','].intercalate r.fields) =
        some (records.mapIdx fun j r => { r with timestamp := clock (i + j) })
  | [], _, _ => rfl
  | r :: rs, i, h => by
    simp only [List.map_cons, readLines, parseLogRecord_fields (h r (List.mem_cons_self r rs)),
      readLines_fields clock rs (i + 1) (fun r hr => h r (List.mem_cons_of_mem _ hr)),
      List.mapIdx_cons, Option.bind_eq_bind, Option.some_bind]
    simp [Nat.add_assoc, Nat.add_comm 1]

/-- **Everything but the timestamp comes back.** Write any records whose data hold no comma
    and no line break to an empty log, then read it: `ReadLogs` returns as many records, in
    order, each equal to the one written except that the `i`-th is stamped `clock i`. -/
theorem readLogs_writeLog (records : List LogRecord) (h : ∀ r ∈ records, r.Printable)
    (clock : Nat → BitVec 64) :
    (records.foldl WriteAheadLog.writeLog .empty).readLogs clock =
      some (records.mapIdx fun i r => { r with timestamp := clock i }) := by
  rw [WriteAheadLog.readLogs, writeLog_foldl_file, WriteAheadLog.empty, List.nil_append,
    getlineAll_toString records h]
  simpa using readLines_fields clock records 0 h

/-- The round trip on `beginRecord`, read back 100 ms after it was made. -/
theorem readLogs_writeLog_beginRecord :
    (∀ r ∈ [beginRecord], r.Printable) ∧
      ([beginRecord].foldl WriteAheadLog.writeLog .empty).readLogs
          (fun _ => 1731110400100000000) =
        some ([beginRecord].mapIdx fun _ r => { r with timestamp := 1731110400100000000 }) :=
  ⟨by decide, readLogs_writeLog [beginRecord] (by decide) fun _ => 1731110400100000000⟩

/-! ## The timestamp does not survive -/

/-- Written to an empty log and read back 100 ms later, the record comes back stamped with
    the time of the read, not the time it was made. -/
theorem readLogs_restamps :
    (WriteAheadLog.empty.writeLog beginRecord).readLogs (fun _ => 1731110400100000000) =
      some [{ beginRecord with timestamp := 1731110400100000000 }] ∧
    beginRecord.timestamp = 1731110400000000000 := by
  decide

end HpDb.Transactions
