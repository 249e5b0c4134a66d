import Mathlib.Data.List.Basic
import HpDb.Containers

/-!
# Configuration loader (config/config_loader.go)

A `Config` holds four sections of typed fields. `Validate` checks six conditions in turn and
returns the error of the first that fails. `GetConfigValue` reads a value by a dotted key such
as `"server.host"`: it splits the key at each `.` and walks the parts from the `*Config`,
switching on the dynamic type of the value it holds. `LoadConfig` and `SaveConfig` choose YAML
or JSON by the lower-cased extension of the path.

A Go `string` is a `String`. The strings modelled are valid UTF-8, in which the byte `.` is the
character `'.'` and stands in no multibyte sequence, so `strings.Split(key, ".")` is
`List.splitOn '.'` on the characters. An `int` is an `Int` (nothing is computed with one), and a
`time.Duration` is its `Int` count of nanoseconds. The `interface{}` of `GetConfigValue` is
`Value`: a pointer to a struct is the struct it points to, and the type switch of the loop is
`Value.switch`. A nil `error` is `none`, or the `ok` of an `Except`.

`strings.ToLower` is `Char.toLower` on each character. The two differ only on letters outside
ASCII, and Go lowers none of those to a letter of `.yaml`, `.yml` or `.json` (the two it lowers
to ASCII, `İ` and the Kelvin sign, become `i` and `k`), so the format chosen is the same.
`filepath.Ext` is the Unix one. Reading and writing files and the YAML and JSON encoders are
library calls: the loaders and savers take them as arguments, with their errors as strings.

Results:
* `split_append_dot`, `eq_append_dot_of_split`: `strings.Split` cuts `p ++ "." ++ q` into
  `[p, q]` when neither part has a `.`, and a key it cuts into two parts is made so.
* `getConfigValue_eq_ok_iff`: `GetConfigValue` accepts exactly the section names and, for each
  section, its name, a `.` and the name of one of its fields (`Config.paths`), and returns the
  section or the field; it never reads past a field.
* `getConfigValue_unknown_section`, `getConfigValue_unknown_field`,
  `getConfigValue_past_field`: every other key gets the error of the `default` case of the
  first part that cannot be read, naming that part, or, for a key that goes on past a field,
  `invalid config key path` with the whole key.
* `validate_eq_validateByKeys`: `Validate` is the list of checks `checks`, each on the values
  `GetConfigValue` reads at its keys: the error returned is the message of the first check
  that fails. `checks_message_names_key`: each single-key check's message begins with its key.
* `loadConfig_saveConfig`: when the encoders' output decodes back and a written file reads
  back, `LoadConfig` returns the configuration `SaveConfig` saved, at every path it accepts.
-/

namespace HpDb.Configuration

/-- `type ServerConfig` (lines 25–31). -/
structure ServerConfig where
  host : String
  port : Int
  timeout : Int
  readTimeout : Int
  writeTimeout : Int
  deriving DecidableEq, Repr

/-- `type DatabaseConfig` (lines 34–41). -/
structure DatabaseConfig where
  driver : String
  host : String
  port : Int
  username : String
  password : String
  name : String
  deriving DecidableEq, Repr

/-- `type LoggingConfig` (lines 44–48). -/
structure LoggingConfig where
  level : String
  format : String
  output : String
  deriving DecidableEq, Repr

/-- `type SecurityConfig` (lines 51–56). -/
structure SecurityConfig where
  enableTLS : Bool
  tlsCertPath : String
  tlsKeyPath : String
  allowedOrigins : String
  deriving DecidableEq, Repr

/-- `type Config` (lines 17–22). -/
structure Config where
  server : ServerConfig
  database : DatabaseConfig
  logging : LoggingConfig
  security : SecurityConfig
  deriving DecidableEq, Repr

/-! ## `Validate` -/

/-- `(*Config).Validate` (lines 102–122); `none` is a nil error. -/
def Config.validate (c : Config) : Option String :=
  if c.server.host = "" then some "server host cannot be empty"
  else if c.server.port = 0 then some "server port cannot be zero"
  else if c.database.driver = "" then some "database driver cannot be empty"
  else if c.database.host = "" then some "database host cannot be empty"
  else if c.logging.level = "" then some "logging level cannot be empty"
  else if c.security.enableTLS && (c.security.tlsCertPath == "" || c.security.tlsKeyPath == "") then
    some "TLS is enabled, but certificate and key paths are not provided"
  else none

/-! ## `GetConfigValue` -/

/-- The values `GetConfigValue` holds in its `interface{}`. -/
inductive Value where
  | config (v : Config)
  | server (v : ServerConfig)
  | database (v : DatabaseConfig)
  | logging (v : LoggingConfig)
  | security (v : SecurityConfig)
  | string (s : String)
  | int (n : Int)
  | duration (d : Int)
  | bool (b : Bool)
  deriving DecidableEq, Repr

/-- The cases of `case *Config` (lines 172–184). -/
def Config.cases (v : Config) : List (String × Value) :=
  [("server", .server v.server), ("database", .database v.database),
    ("logging", .logging v.logging), ("security", .security v.security)]

/-- The cases of `case *ServerConfig` (lines 185–199). -/
def ServerConfig.cases (v : ServerConfig) : List (String × Value) :=
  [("host", .string v.host), ("port", .int v.port), ("timeout", .duration v.timeout),
    ("read_timeout", .duration v.readTimeout), ("write_timeout", .duration v.writeTimeout)]

/-- The cases of `case *DatabaseConfig` (lines 200–216). -/
def DatabaseConfig.cases (v : DatabaseConfig) : List (String × Value) :=
  [("driver", .string v.driver), ("host", .string v.host), ("port", .int v.port),
    ("username", .string v.username), ("password", .string v.password), ("name", .string v.name)]

/-- The cases of `case *LoggingConfig` (lines 217–227). -/
def LoggingConfig.cases (v : LoggingConfig) : List (String × Value) :=
  [("level", .string v.level), ("format", .string v.format), ("output", .string v.output)]

/-- The cases of `case *SecurityConfig` (lines 228–240). -/
def SecurityConfig.cases (v : SecurityConfig) : List (String × Value) :=
  [("enable_tls", .bool v.enableTLS), ("tls_cert_path", .string v.tlsCertPath),
    ("tls_key_path", .string v.tlsKeyPath), ("allowed_origins", .string v.allowedOrigins)]

/-- The type switch of the loop (lines 171–243): for a pointer to a struct, the error its
    `default` case reports and its cases; `none` for any other value. -/
def Value.switch : Value → Option (String × List (String × Value))
  | .config v => some ("unknown config key: ", v.cases)
  | .server v => some ("unknown server config key: ", v.cases)
  | .database v => some ("unknown database config key: ", v.cases)
  | .logging v => some ("unknown logging config key: ", v.cases)
  | .security v => some ("unknown security config key: ", v.cases)
  | _ => none

/-- One `switch part`: the value of the first case that names `part`, or the `default` case's
    `fmt.Errorf("...: %s", part)`. -/
def selectField (unknown : String) (cases : List (String × Value)) (part : String) :
    Except String Value :=
  match cases.lookup part with
  | some value => .ok value
  | none => .error (unknown ++ part)

/-- One turn of the loop (lines 170–244); the outer `default` reports the whole key. -/
def step (key : String) (value : Value) (part : String) : Except String Value :=
  match value.switch with
  | some (unknown, cases) => selectField unknown cases part
  | none => .error ("invalid config key path: " ++ key)

/-- `strings.Split(key, ".")` (line 167). -/
def split (key : String) : List String := (key.data.splitOn '.').map String.mk

/-- `(*Config).GetConfigValue` (lines 166–246). -/
def Config.getConfigValue (c : Config) (key : String) : Except String Value :=
  (split key).foldlM (step key) (.config c)

/-! ## Splitting a key -/

theorem split_ne_nil (key : String) : split key ≠ [] := by
  rw [split, ne_eq, List.map_eq_nil_iff]
  exact List.splitOnP_ne_nil _ _

/-- The parts of a key, joined by `.`, are the key. -/
theorem data_eq_intercalate_split (key : String) :
    key.data = ['.'].intercalate ((split key).map String.data) := by
  rw [split, List.map_map, show String.data ∘ String.mk = id from rfl, List.map_id]
  exact (List.intercalate_splitOn _ '.').symm

theorem split_append_dot {p q : String} (hp : '.' ∉ p.data) (hq : '.' ∉ q.data) :
    split (p ++ "." ++ q) = [p, q] := by
  have h : (p ++ "." ++ q).data = ['.'].intercalate [p.data, q.data] := by
    simp [List.intercalate]
  rw [split, h, List.splitOn_intercalate _ '.' (by simp [hp, hq]) (by simp)]
  rfl

theorem split_of_not_mem {p : String} (hp : '.' ∉ p.data) : split p = [p] := by
  have h : p.data = ['.'].intercalate [p.data] := by simp [List.intercalate]
  rw [split, h, List.splitOn_intercalate _ '.' (by simp [hp]) (by simp)]
  rfl

theorem eq_of_split_eq_singleton {key p : String} (h : split key = [p]) : key = p :=
  String.ext (by rw [data_eq_intercalate_split key, h]; simp [List.intercalate])

theorem eq_append_dot_of_split {key p q : String} (h : split key = [p, q]) : key = p ++ "." ++ q :=
  String.ext (by rw [data_eq_intercalate_split key, h]; simp [List.intercalate])

/-! ## What `GetConfigValue` reads -/

/-- The keys `GetConfigValue` accepts, with the values it returns: each section by its name, and
    each field of a section by the section's name, a `.` and the field's name. -/
def Config.paths (c : Config) : List (String × Value) :=
  c.cases.flatMap fun entry =>
    entry :: match entry.2.switch with
      | some (_, cases) => cases.map fun field => (entry.1 ++ "." ++ field.1, field.2)
      | none => []

theorem selectField_eq_ok {unknown : String} {cases : List (String × Value)} {part : String}
    {v : Value} : selectField unknown cases part = .ok v ↔ cases.lookup part = some v := by
  cases h : cases.lookup part <;> simp [selectField, h]

theorem step_eq_ok {key : String} {value : Value} {part : String} {v : Value} :
    step key value part = .ok v ↔
      ∃ unknown cases, value.switch = some (unknown, cases) ∧ cases.lookup part = some v := by
  cases h : value.switch with
  | none => simp [step, h]
  | some e =>
    obtain ⟨unknown, cases⟩ := e
    simp only [step, h, selectField_eq_ok, Option.some.injEq]
    exact ⟨fun hl => ⟨_, _, rfl, hl⟩, fun ⟨_, _, he, hl⟩ => by cases he; exact hl⟩

/-- The sections: names with no `.`, each a struct whose fields have names with no `.` and hold
    values that are not structs. -/
theorem mem_cases {c : Config} {p : String} {v : Value} (h : (p, v) ∈ c.cases) :
    '.' ∉ p.data ∧ ∃ unknown cases, v.switch = some (unknown, cases) ∧
      (cases.map (·.1)).Nodup ∧ ∀ field ∈ cases, '.' ∉ field.1.data ∧ field.2.switch = none := by
  simp only [Config.cases, List.mem_cons, Prod.mk.injEq, List.not_mem_nil, or_false] at h
  rcases h with ⟨rfl, rfl⟩ | ⟨rfl, rfl⟩ | ⟨rfl, rfl⟩ | ⟨rfl, rfl⟩ <;>
    refine ⟨by decide, _, _, rfl, ?_, ?_⟩ <;>
    simp [ServerConfig.cases, DatabaseConfig.cases, LoggingConfig.cases, SecurityConfig.cases,
      Value.switch]

theorem nodup_keys_cases (c : Config) : (c.cases.map (·.1)).Nodup := by
  simp only [Config.cases, List.map_cons, List.map_nil]
  decide

theorem bind_eq_ok {α β : Type} {x : Except String α} {f : α → Except String β} {b : β} :
    x >>= f = .ok b ↔ ∃ a, x = .ok a ∧ f a = .ok b := by
  cases x <;> simp [bind, Except.bind]

theorem ok_bind {α β : Type} (a : α) (f : α → Except String β) : (.ok a : Except String α) >>= f = f a :=
  rfl

theorem pure_eq_ok {α : Type} (a : α) : (pure a : Except String α) = .ok a := rfl

theorem getConfigValue_cons (c : Config) (key p : String) (rest : List String)
    (hs : split key = p :: rest) :
    c.getConfigValue key =
      selectField "unknown config key: " c.cases p >>= fun v => rest.foldlM (step key) v := by
  rw [Config.getConfigValue, hs, List.foldlM_cons]
  rfl

/-- `GetConfigValue` returns a value exactly at the keys of `paths`, and the value `paths` gives. -/
theorem getConfigValue_eq_ok_iff (c : Config) (key : String) (v : Value) :
    c.getConfigValue key = .ok v ↔ (key, v) ∈ c.paths := by
  constructor
  · intro h
    obtain ⟨p, rest, hs⟩ := List.exists_cons_of_ne_nil (split_ne_nil key)
    obtain ⟨sv, hsel, h⟩ := bind_eq_ok.mp (getConfigValue_cons c key p rest hs ▸ h)
    have hp := mem_of_lookup (selectField_eq_ok.mp hsel)
    obtain ⟨-, unknown, cases, hsw, -, hfields⟩ := mem_cases hp
    rw [Config.paths, List.mem_flatMap]
    refine ⟨(p, sv), hp, ?_⟩
    match rest, hs, h with
    | [], hs, h =>
      cases h
      rw [eq_of_split_eq_singleton hs]
      exact List.mem_cons_self _ _
    | q :: rest, hs, h =>
      rw [List.foldlM_cons] at h
      obtain ⟨x, hq, h⟩ := bind_eq_ok.mp h
      obtain ⟨unknown', cases', hsw', hx⟩ := step_eq_ok.mp hq
      rw [hsw] at hsw'
      cases hsw'
      have hqx := mem_of_lookup hx
      match rest, hs, h with
      | [], hs, h =>
        cases h
        rw [eq_append_dot_of_split hs, hsw]
        exact List.mem_cons_of_mem _ (List.mem_map.mpr ⟨(q, _), hqx, rfl⟩)
      | r :: rest, hs, h =>
        have hr : step key x r = .error ("invalid config key path: " ++ key) := by
          rw [step, (hfields _ hqx).2]
        rw [List.foldlM_cons, hr] at h
        cases h
  · intro h
    rw [Config.paths, List.mem_flatMap] at h
    obtain ⟨⟨p, sv⟩, hp, h⟩ := h
    obtain ⟨hpdot, unknown, cases, hsw, hnodup, hfields⟩ := mem_cases hp
    have hsel : selectField "unknown config key: " c.cases p = .ok sv :=
      selectField_eq_ok.mpr (lookup_of_mem (nodup_keys_cases c) hp)
    rw [hsw] at h
    rcases List.mem_cons.mp h with h | h
    · obtain ⟨rfl, rfl⟩ := Prod.mk.inj h
      rw [getConfigValue_cons c _ _ [] (split_of_not_mem hpdot), hsel]
      rfl
    · obtain ⟨⟨q, x⟩, hq, he⟩ := List.mem_map.mp h
      obtain ⟨rfl, rfl⟩ := Prod.mk.inj he
      have hstep : step (p ++ "." ++ q) sv q = .ok x :=
        step_eq_ok.mpr ⟨unknown, cases, hsw, lookup_of_mem hnodup hq⟩
      rw [getConfigValue_cons c _ p [q] (split_append_dot hpdot (hfields _ hq).1), hsel]
      simp only [bind, Except.bind, List.foldlM_cons, List.foldlM_nil, hstep]
      rfl

example (c : Config) : c.getConfigValue "database.name" = .ok (.string c.database.name) := rfl

theorem foldlM_step_of_error {key part e : String} {value : Value} (rest : List String)
    (h : step key value part = .error e) : (part :: rest).foldlM (step key) value = .error e := by
  rw [List.foldlM_cons, h]
  rfl

theorem selectField_of_mem {c : Config} {p : String} {sv : Value} (hp : (p, sv) ∈ c.cases) :
    selectField "unknown config key: " c.cases p = .ok sv :=
  selectField_eq_ok.mpr (lookup_of_mem (nodup_keys_cases c) hp)

/-- A key whose first part names no section: the error names that part. -/
theorem getConfigValue_unknown_section {c : Config} {key p : String} {rest : List String}
    (hs : split key = p :: rest) (hp : p ∉ ["server", "database", "logging", "security"]) :
    c.getConfigValue key = .error ("unknown config key: " ++ p) := by
  have hnone : c.cases.lookup p = none :=
    List.lookup_eq_none_iff.mpr fun e he =>
      bne_iff_ne.mpr fun h => hp (by rw [h]; exact List.mem_map_of_mem (·.1) he)
  rw [getConfigValue_cons c key p rest hs, selectField, hnone]
  rfl

/-- A key whose second part names no field of its section: the error of the section's
    `default` case names that part. -/
theorem getConfigValue_unknown_field {c : Config} {key p q : String} {rest : List String}
    (hs : split key = p :: q :: rest) {sv : Value} (hp : (p, sv) ∈ c.cases) {unknown : String}
    {cases : List (String × Value)} (hsw : sv.switch = some (unknown, cases))
    (hq : q ∉ cases.map (·.1)) :
    c.getConfigValue key = .error (unknown ++ q) := by
  have hnone : cases.lookup q = none :=
    List.lookup_eq_none_iff.mpr fun e he =>
      bne_iff_ne.mpr fun h => hq (by rw [h]; exact List.mem_map_of_mem (·.1) he)
  rw [getConfigValue_cons c key p _ hs, selectField_of_mem hp]
  exact foldlM_step_of_error rest (by simp only [step, hsw, selectField, hnone])

/-- A key that goes on past a field: the error names the whole key. -/
theorem getConfigValue_past_field {c : Config} {key p q r : String} {rest : List String}
    (hs : split key = p :: q :: r :: rest) {sv : Value} (hp : (p, sv) ∈ c.cases) {unknown : String}
    {cases : List (String × Value)} (hsw : sv.switch = some (unknown, cases))
    (hq : q ∈ cases.map (·.1)) :
    c.getConfigValue key = .error ("invalid config key path: " ++ key) := by
  obtain ⟨-, unknown', cases', hsw', hnodup, hfields⟩ := mem_cases hp
  rw [hsw] at hsw'
  cases hsw'
  obtain ⟨⟨q, x⟩, hqx, rfl⟩ := List.mem_map.mp hq
  have hstep : step key sv q = .ok x := step_eq_ok.mpr ⟨_, _, hsw, lookup_of_mem hnodup hqx⟩
  rw [getConfigValue_cons c key p _ hs, selectField_of_mem hp]
  show (q :: r :: rest).foldlM (step key) sv = _
  rw [List.foldlM_cons, hstep]
  exact foldlM_step_of_error rest (by rw [step, (hfields _ hqx).2])

/-! ## What `Validate` checks -/

/-- A check of `Validate` on values `GetConfigValue` reads: the keys it reads, whether the values
    there fail it, and its error. -/
structure Check where
  keys : List String
  fails : List Value → Bool
  message : String

/-- The checks of `Validate`, in its order. -/
def checks : List Check :=
  [⟨["server.host"], (· == [.string ""]), "server host cannot be empty"⟩,
    ⟨["server.port"], (· == [.int 0]), "server port cannot be zero"⟩,
    ⟨["database.driver"], (· == [.string ""]), "database driver cannot be empty"⟩,
    ⟨["database.host"], (· == [.string ""]), "database host cannot be empty"⟩,
    ⟨["logging.level"], (· == [.string ""]), "logging level cannot be empty"⟩,
    ⟨["security.enable_tls", "security.tls_cert_path", "security.tls_key_path"],
      fun
        | [.bool enableTLS, .string cert, .string key] => enableTLS && (cert == "" || key == "")
        | _ => false,
      "TLS is enabled, but certificate and key paths are not provided"⟩]

/-- The error of the first check that fails on the values `GetConfigValue` reads at its keys. -/
def validateByKeys (c : Config) : Option String :=
  checks.findSome? fun check =>
    match check.keys.mapM c.getConfigValue with
    | .ok values => if check.fails values then some check.message else none
    | .error _ => none

/-- `Validate` reads the fields at the keys of `checks`, in their order, and returns the message
    of the first check that fails. -/
theorem validate_eq_validateByKeys (c : Config) : c.validate = validateByKeys c := by
  have hserver : c.getConfigValue "server.host" = .ok (.string c.server.host) := rfl
  have hport : c.getConfigValue "server.port" = .ok (.int c.server.port) := rfl
  have hdriver : c.getConfigValue "database.driver" = .ok (.string c.database.driver) := rfl
  have hdatabase : c.getConfigValue "database.host" = .ok (.string c.database.host) := rfl
  have hlevel : c.getConfigValue "logging.level" = .ok (.string c.logging.level) := rfl
  have htls : c.getConfigValue "security.enable_tls" = .ok (.bool c.security.enableTLS) := rfl
  have hcert : c.getConfigValue "security.tls_cert_path" = .ok (.string c.security.tlsCertPath) := rfl
  have hkey : c.getConfigValue "security.tls_key_path" = .ok (.string c.security.tlsKeyPath) := rfl
  simp only [validateByKeys, checks, List.findSome?, List.mapM_cons, List.mapM_nil, hserver, hport,
    hdriver, hdatabase, hlevel, htls, hcert, hkey, ok_bind, pure_eq_ok, Config.validate, beq_iff_eq, List.cons.injEq, Value.string.injEq,
    Value.int.injEq, and_true]
  by_cases h1 : c.server.host = ""
  · simp only [h1, ↓reduceIte]
  by_cases h2 : c.server.port = 0
  · simp only [h1, h2, ↓reduceIte]
  by_cases h3 : c.database.driver = ""
  · simp only [h1, h2, h3, ↓reduceIte]
  by_cases h4 : c.database.host = ""
  · simp only [h1, h2, h3, h4, ↓reduceIte]
  by_cases h5 : c.logging.level = ""
  · simp only [h1, h2, h3, h4, h5, ↓reduceIte]
  simp only [h1, h2, h3, h4, h5, ↓reduceIte]
  split <;> rfl

/-- Each check on one key names that key: its message begins with the key, with `.` read as a
    space. -/
theorem checks_message_names_key : ∀ check ∈ checks, check.keys.length = 1 →
    ((check.keys.headD "").data.map fun ch => if ch = '.' then ' ' else ch).isPrefixOf
      check.message.data := by
  decide

/-! ## `LoadConfig` and `SaveConfig` -/

/-- `filepath.Ext` on Unix, on the characters of the path from its end: the suffix from the
    last `.` of the last element, or nothing. `acc` holds the characters already passed. -/
def extFrom (acc : List Char) : List Char → List Char
  | [] => []
  | c :: rest => if c = '/' then [] else if c = '.' then c :: acc else extFrom (c :: acc) rest

/-- `filepath.Ext(path)`. -/
def ext (path : String) : String := ⟨extFrom [] path.data.reverse⟩

/-- The encodings of a configuration file. -/
inductive Format where
  | yaml
  | json
  deriving DecidableEq, Repr

/-- The encoding `LoadConfig` and `SaveConfig` choose (lines 60–68 and 126–134):
    `strings.ToLower(filepath.Ext(configPath))` is `.yaml` or `.yml`, or `.json`. -/
def format (configPath : String) : Option Format :=
  let ext : String := ⟨(ext configPath).data.map Char.toLower⟩
  if ext = ".yaml" ∨ ext = ".yml" then some .yaml
  else if ext = ".json" then some .json
  else none

section Files

-- The file system, reached only through `ioutil.ReadFile` and `ioutil.WriteFile`.
variable {FileSystem : Type}

/-- `loadYAMLConfig` and `loadJSONConfig` (lines 72–99), which differ only in the decoder and
    the name in its error. -/
def loadWith (name : String) (readFile : FileSystem → String → Except String (List UInt8))
    (unmarshal : List UInt8 → Except String Config) (fs : FileSystem) (path : String) :
    Except String Config :=
  match readFile fs path with
  | .error err => .error ("failed to read config file: " ++ err)
  | .ok fileData =>
    match unmarshal fileData with
    | .error err => .error ("failed to unmarshal " ++ name ++ " config: " ++ err)
    | .ok config => .ok config

/-- `saveYAMLConfig` and `saveJSONConfig` (lines 138–163); the result is the file system
    after a nil error. -/
def saveWith (name : String) (marshal : Config → Except String (List UInt8))
    (writeFile : FileSystem → String → List UInt8 → Except String FileSystem)
    (config : Config) (fs : FileSystem) (path : String) : Except String FileSystem :=
  match marshal config with
  | .error err => .error ("failed to marshal " ++ name ++ " config: " ++ err)
  | .ok fileData =>
    match writeFile fs path fileData with
    | .error err => .error ("failed to write config file: " ++ err)
    | .ok fs => .ok fs

variable (readFile : FileSystem → String → Except String (List UInt8))
  (writeFile : FileSystem → String → List UInt8 → Except String FileSystem)
  (yamlMarshal jsonMarshal : Config → Except String (List UInt8))
  (yamlUnmarshal jsonUnmarshal : List UInt8 → Except String Config)

/-- `loadYAMLConfig` (lines 72–84). -/
def loadYAMLConfig : FileSystem → String → Except String Config :=
  loadWith "yaml" readFile yamlUnmarshal

/-- `loadJSONConfig` (lines 87–99). -/
def loadJSONConfig : FileSystem → String → Except String Config :=
  loadWith "json" readFile jsonUnmarshal

/-- `saveYAMLConfig` (lines 138–149). -/
def saveYAMLConfig : Config → FileSystem → String → Except String FileSystem :=
  saveWith "yaml" yamlMarshal writeFile

/-- `saveJSONConfig` (lines 152–163); `json.MarshalIndent(config, "", "  ")` is `jsonMarshal`. -/
def saveJSONConfig : Config → FileSystem → String → Except String FileSystem :=
  saveWith "json" jsonMarshal writeFile

/-- `LoadConfig` (lines 59–69). -/
def loadConfig (fs : FileSystem) (configPath : String) : Except String Config :=
  match format configPath with
  | some .yaml => loadYAMLConfig readFile yamlUnmarshal fs configPath
  | some .json => loadJSONConfig readFile jsonUnmarshal fs configPath
  | none => .error "unsupported config file format"

/-- `SaveConfig` (lines 125–135). -/
def saveConfig (config : Config) (fs : FileSystem) (configPath : String) : Except String FileSystem :=
  match format configPath with
  | some .yaml => saveYAMLConfig writeFile yamlMarshal config fs configPath
  | some .json => saveJSONConfig writeFile jsonMarshal config fs configPath
  | none => .error "unsupported config file format"

/-! ### Saving, then loading -/

/-- A file `saveWith` wrote, `loadWith` reads back as the configuration saved, when the decoder
    inverts the encoder and a written file reads back. -/
theorem loadWith_saveWith {name name' : String} {marshal : Config → Except String (List UInt8)}
    {unmarshal : List UInt8 → Except String Config}
    (hcodec : ∀ config data, marshal config = .ok data → unmarshal data = .ok config)
    (hfile : ∀ fs path data fs', writeFile fs path data = .ok fs' → readFile fs' path = .ok data)
    {config : Config} {fs fs' : FileSystem} {path : String}
    (hsave : saveWith name marshal writeFile config fs path = .ok fs') :
    loadWith name' readFile unmarshal fs' path = .ok config := by
  unfold saveWith at hsave
  split at hsave
  · cases hsave
  · rename_i data hm
    split at hsave
    · cases hsave
    · rename_i hw
      cases hsave
      simp only [loadWith, hfile _ _ _ _ hw, hcodec _ _ hm]

/-- `LoadConfig` reads back the configuration `SaveConfig` saved, at every path `SaveConfig`
    accepts: the two choose the same format, and each format's loader undoes its saver. -/
theorem loadConfig_saveConfig
    (hyaml : ∀ config data, yamlMarshal config = .ok data → yamlUnmarshal data = .ok config)
    (hjson : ∀ config data, jsonMarshal config = .ok data → jsonUnmarshal data = .ok config)
    (hfile : ∀ fs path data fs', writeFile fs path data = .ok fs' → readFile fs' path = .ok data)
    {config : Config} {fs fs' : FileSystem} {configPath : String}
    (hsave : saveConfig writeFile yamlMarshal jsonMarshal config fs configPath = .ok fs') :
    loadConfig readFile yamlUnmarshal jsonUnmarshal fs' configPath = .ok config := by
  unfold saveConfig at hsave
  unfold loadConfig
  split at hsave
  · exact loadWith_saveWith readFile writeFile hyaml hfile hsave
  · exact loadWith_saveWith readFile writeFile hjson hfile hsave
  · cases hsave

end Files

end HpDb.Configuration
