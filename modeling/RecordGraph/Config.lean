import RecordGraph.Sqlite.Store
import RecordGraph.Text.Blank
import RecordGraph.Toml.Read

/-!
# Configuration

A `Config` says which database to use and how. It is read from a document of settings, none of them
unknown, and has to make sense: every kind of database has its own form of URL and its own timeout.

* `Config.parse`: the configuration that a text describes.
* `Config.load`: the same from a file.
* `Config.connect`: the database of a configuration.
-/
namespace RecordGraph

/-- Which database to use, and how. -/
structure Config where
  backend : Backend
  /-- A path for SQLite, a URL for the others. -/
  url : String
  /-- How long to wait for a locked database. -/
  busyTimeoutMs : Option UInt64
  /-- How long a statement may take. -/
  statementTimeoutMs : Option UInt64
  versions : VersionKind
  /-- Every statement is logged. -/
  logsSql : Bool
  deriving DecidableEq

/-- Settings that make no sense together. -/
inductive ConfigFault where
  | emptyUrl
  | postgresqlUrl
  | mysqlUrl
  | statementTimeout
  | busyTimeout
  deriving DecidableEq, Repr

/-- Why there is no configuration. -/
inductive ConfigError where
  | notFound (path : String)
  | unreadable (path : String)
  | malformed
  | invalid (fault : ConfigFault)
  deriving DecidableEq

/-- What a file gives when it is read. -/
inductive FileContent where
  | missing
  | unreadable
  | text (s : String)

def ConfigFault.message : ConfigFault → String
  | .emptyUrl => "url must not be empty"
  | .postgresqlUrl => "PostgreSQL url must start with postgres://"
  | .mysqlUrl => "MySQL url must start with mysql://"
  | .statementTimeout => "statement_timeout_ms applies to PostgreSQL only"
  | .busyTimeout => "busy_timeout_ms applies to SQLite only"

/-- The name of the kind of an error. -/
def ConfigError.kind : ConfigError → String
  | .notFound _ => "NotFound"
  | .unreadable _ => "Io"
  | .malformed => "Parse"
  | .invalid _ => "Invalid"

/-- The words of an error. -/
def ConfigError.message : ConfigError → String
  | .notFound path => "config not found: " ++ path
  | .unreadable path => "failed to read " ++ path
  | .malformed => "failed to parse config"
  | .invalid fault => "invalid config: " ++ fault.message

namespace Config

/-- The name of a database of SQLite that lives in memory. -/
def memoryPath : String := ":memory:"

/-- A database in memory, and no other settings. -/
def memory : Config := ⟨.sqlite, memoryPath, none, none, .clock, false⟩

/-- The settings there are. -/
def settings : List String :=
  ["dialect", "url", "busy_timeout_ms", "statement_timeout_ms", "version_strategy", "log_sql"]

/-- A setting that may be left out. -/
def optional? (entries : Toml.Entries) (name : String) (read : Toml → Option α) :
    Option (Option α) :=
  match entries.lookup name with
  | none => some none
  | some v => (read v).map some

/-- The configuration in a document, whatever sense it makes. -/
def ofEntries? (entries : Toml.Entries) : Option Config := do
  if entries.any fun e => !settings.contains e.1 then none
  let dialect ← entries.lookup "dialect"
  let backend ← dialect.choice?.bind Backend.ofName?
  let url ← entries.lookup "url"
  let url ← url.text?
  let busyTimeoutMs ← optional? entries "busy_timeout_ms" Toml.unsigned?
  let statementTimeoutMs ← optional? entries "statement_timeout_ms" Toml.unsigned?
  let versions ← optional? entries "version_strategy" (·.choice?.bind VersionKind.ofName?)
  let logsSql ← optional? entries "log_sql" Toml.boolean?
  some {
    backend, url, busyTimeoutMs, statementTimeoutMs
    versions := versions.getD .clock
    logsSql := logsSql.getD false }

def startsWith (start s : String) : Bool := start.toList.isPrefixOf s.toList

/-- What is wrong with the settings; of several faults the first counts. -/
def fault? (c : Config) : Option ConfigFault :=
  if Text.isBlankText c.url then some .emptyUrl
  else match c.backend with
    | .sqlite => if c.statementTimeoutMs.isSome then some .statementTimeout else none
    | .postgresql =>
      if !startsWith "postgres" c.url then some .postgresqlUrl
      else if c.busyTimeoutMs.isSome then some .busyTimeout
      else none
    | .mysql =>
      if !startsWith "mysql://" c.url then some .mysqlUrl
      else if c.busyTimeoutMs.isSome then some .busyTimeout
      else none

/-- The configuration that a text describes. -/
def parse (s : String) : Except ConfigError Config :=
  match (Toml.parse? s).bind ofEntries? with
  | none => .error .malformed
  | some c => match c.fault? with
    | some fault => .error (.invalid fault)
    | none => .ok c

/-- The configuration in a file. -/
def load (path : String) : FileContent → Except ConfigError Config
  | .missing => .error (.notFound path)
  | .unreadable => .error (.unreadable path)
  | .text s => parse s

/-- The path of a database of SQLite, which a scheme may precede. -/
def path (c : Config) : String :=
  if startsWith "sqlite://" c.url then String.ofList (c.url.toList.drop 9) else c.url

/-- The database of a configuration, where `canOpen` says which files can be opened. A database
in memory and a temporary one, which has no path, always can. -/
def connect (c : Config) (canOpen : String → Bool) : Except Error Sqlite.Store :=
  match c.backend with
  | .sqlite =>
    if c.path = memoryPath ∨ c.path = "" ∨ canOpen c.path then
      .ok (.empty (.fresh c.versions))
    else .error (.connection (.cannotOpen c.path))
  | other => .error (.connection (.noDriver other.name))

end Config

end RecordGraph
