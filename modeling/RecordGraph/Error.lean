import RecordGraph.Node.Op
import RecordGraph.Text.Utf8
import RecordGraph.Value.Basic
import RecordGraph.Value.Receiver

/-!
# Errors

An `Error` says what went wrong by its cause; `Error.message` is the only place where causes become
words. Every group of causes has a `stated` one for what a backend or a caller reports in words of
its own.

* `Error.withCleanup`: an error, and the failure of the cleanup after it.
* `Error.isLockConflict`, `isUniqueViolation`, `isNotFound`: what a caller may recover from; a
  combined error is what its first part is.
-/
namespace RecordGraph

/-- A query that cannot be compiled. Nodes and tables stand here by their text. -/
inductive QueryFault where
  | unknownTable (name : String)
  | cannotTraverse (node : String)
  | unknownColumn (table key : String)
  | unknownReference (table identifier : String)
  | unknownReverse (table identifier : String)
  | unknownManyMany (table identifier : String)
  | rootNotTable (node : String)
  | groupedExpression (node : String)
  | selectNotGrouped (node : String)
  | cannotSelect (node : String)
  | calculationTarget (name node : String)
  | duplicateCalculation (name : String)
  | unknownCalculation (name : String)
  /-- A calculation that is needed to expand itself. -/
  | endlessCalculation (name : String)
  | notRelationship (node : String)
  | notRootedAt (node table : String)
  | notInQuery (node : String)
  | selectsNothing (table : String)
  | subqueryWidth (table : String) (width : Nat)
  | needsText (op : Op) (node : String)
  | operandCount (op : Op) (count : Nat)
  /-- A stream of records cannot fold the rows of a to-many join. -/
  | toManyStream
  | stated (text : String)
  deriving DecidableEq

/-- An inconsistent schema. -/
inductive SchemaFault where
  | duplicateTable (name : String)
  | unknownTable (name : String)
  | unknownReferenceColumn (table identifier column : String)
  | duplicateColumn (table column : String)
  | lockNotInteger (table column : String)
  | noPrimaryKey (table : String)
  | manyPrimaryKeys (table : String)
  | manyLocks (table : String)
  | duplicateRelation (table identifier : String)
  | stated (text : String)
  deriving DecidableEq

/-- A raw value that its column's receiver refuses. -/
inductive DecodeFault where
  | notUtf8 (fault : Utf8.Fault)
  /-- An unsigned integer beyond the signed ones. -/
  | tooLarge
  /-- A negative integer where none may be. -/
  | tooSmall
  | notInteger (text : String)
  | notUnsigned (text : String)
  | notNumber (text : String)
  | notBoolean (text : String)
  | notTimestamp (text : String)
  | secondsOutOfRange (seconds : Int64)
  | tooWide (value : Int) (bits : Nat)
  | notUuid
  | notUlid (value : Value)
  /-- A kind of value that the receiver never takes. -/
  | unexpected (value : Value)
  | stated (text : String)
  deriving DecidableEq

/-- Misuse of a record. -/
inductive RecordFault where
  | unknownColumn (table key : String)
  | lockColumn (table column : String)
  | keyChange (table : String)
  | unknownRelation (table identifier : String)
  | toMany (table identifier : String)
  | toOne (table identifier : String)
  | noKeyAssigned (table : String)
  | noKeyReturned (table : String)
  | noKeyValue (table : String)
  | versionNotLoaded (table column : String)
  | stated (text : String)
  deriving DecidableEq

/-- Where a transaction stands. -/
inductive TransactionState where
  | active
  | committed
  | rolledBack
  deriving DecidableEq, Repr, Inhabited

def TransactionState.name : TransactionState → String
  | .active => "Active"
  | .committed => "Committed"
  | .rolledBack => "RolledBack"

/-- Misuse of a transaction. -/
inductive TransactionFault where
  | cannotCommit (state : TransactionState)
  | stated (text : String)
  deriving DecidableEq

/-- A connection that cannot be opened. -/
inductive ConnectionFault where
  /-- No way to reach this kind of database. -/
  | noDriver (backend : String)
  | cannotOpen (path : String)
  | stated (text : String)
  deriving DecidableEq

/-- What can go wrong. -/
inductive Error where
  /-- A guarded write met a row that was changed or removed since it was loaded. -/
  | optimisticLock (table key : String)
  /-- A unique or primary key constraint refused a write. -/
  | uniqueValue (table : String) (source : Option String)
  | recordNotFound (what : String)
  /-- What else a statement failed with. -/
  | query (operation sql : String) (args : List Value) (source : String)
  | invalidQuery (fault : QueryFault)
  | schema (fault : SchemaFault)
  | decode (column : String) (receiver : Receiver) (fault : DecodeFault)
  | record (fault : RecordFault)
  | transaction (fault : TransactionFault)
  | serialization (text : String)
  | connection (fault : ConnectionFault)
  /-- An error, and the failure of the cleanup that followed it. -/
  | aggregate (primary secondary : Error)
  deriving DecidableEq

instance : Inhabited Error := ⟨.recordNotFound ""⟩

def QueryFault.message : QueryFault → String
  | .unknownTable name => "unknown table " ++ name
  | .cannotTraverse node => "cannot traverse from " ++ node
  | .unknownColumn table key => "unknown column " ++ table ++ "." ++ key
  | .unknownReference table identifier => "unknown reference " ++ table ++ "." ++ identifier
  | .unknownReverse table identifier => "unknown reverse reference " ++ table ++ "." ++ identifier
  | .unknownManyMany table identifier =>
    "unknown many-many relation " ++ table ++ "." ++ identifier
  | .rootNotTable node => "query root " ++ node ++ " is not a table"
  | .groupedExpression node => "group by " ++ node ++ ": only columns can be grouped"
  | .selectNotGrouped node => "select " ++ node ++ " is not in the group by list"
  | .cannotSelect node => "cannot select " ++ node ++ "; declare it as a calculation"
  | .calculationTarget name node =>
    "calculation " ++ name ++ " must target a table or relation, not " ++ node
  | .duplicateCalculation name => "duplicate calculation alias " ++ name
  | .unknownCalculation name => "unknown calculation alias " ++ name
  | .endlessCalculation name => "calculation alias " ++ name ++ " is needed to expand itself"
  | .notRelationship node => node ++ " is not a relationship"
  | .notRootedAt node table => node ++ " is not rooted at " ++ table
  | .notInQuery node => node ++ " is not part of this query"
  | .selectsNothing table => "query on " ++ table ++ " selects nothing"
  | .subqueryWidth table width =>
    "subquery on " ++ table ++ " must select exactly one column, selects " ++ toString width
  | .needsText op node => op.name ++ " needs a text value, got " ++ node
  | .operandCount op count => op.name ++ " does not take " ++ toString count ++ " operand(s)"
  | .toManyStream => "load_cursor cannot stream a query with to-many joins; use load"
  | .stated text => text

def SchemaFault.message : SchemaFault → String
  | .duplicateTable name => "duplicate table " ++ name
  | .unknownTable name => "unknown table " ++ name
  | .unknownReferenceColumn table identifier column =>
    "reference " ++ table ++ "." ++ identifier ++ " names unknown column " ++ column
  | .duplicateColumn table column => "duplicate column " ++ table ++ "." ++ column
  | .lockNotInteger table column =>
    "lock column " ++ table ++ "." ++ column ++ " must be an integer"
  | .noPrimaryKey table => "table " ++ table ++ " has no primary key"
  | .manyPrimaryKeys table => "table " ++ table ++ " has more than one primary key column"
  | .manyLocks table => "table " ++ table ++ " has more than one lock column"
  | .duplicateRelation table identifier => "duplicate relation " ++ table ++ "." ++ identifier
  | .stated text => text

def DecodeFault.message : DecodeFault → String
  | .notUtf8 fault => fault.message
  | .tooLarge => "number too large to fit in target type"
  | .tooSmall => "number too small to fit in target type"
  | .notInteger text => Text.quoted text ++ " is not an integer"
  | .notUnsigned text => Text.quoted text ++ " is not an unsigned integer"
  | .notNumber text => Text.quoted text ++ " is not a number"
  | .notBoolean text => Text.quoted text ++ " is not a boolean"
  | .notTimestamp text => Text.quoted text ++ " is not a timestamp"
  | .secondsOutOfRange seconds => toString seconds.toInt ++ " is out of range"
  | .tooWide value bits => toString value ++ " does not fit in " ++ toString bits ++ " bits"
  | .notUuid => "not a UUID"
  | .notUlid value => value.shown ++ " is not a ULID"
  | .unexpected value => "unexpected " ++ value.shown
  | .stated text => text

def RecordFault.message : RecordFault → String
  | .unknownColumn table key => table ++ " has no column " ++ key
  | .lockColumn table column => table ++ "." ++ column ++ " is a lock column"
  | .keyChange table => "cannot change the primary key of a saved " ++ table
  | .unknownRelation table identifier => table ++ " has no relation " ++ identifier
  | .toMany table identifier => table ++ "." ++ identifier ++ " is a to-many relation"
  | .toOne table identifier => table ++ "." ++ identifier ++ " is a to-one relation"
  | .noKeyAssigned table => "database assigned no key to new " ++ table
  | .noKeyReturned table => "insert into " ++ table ++ " returned no key"
  | .noKeyValue table => table ++ " has no primary key value"
  | .versionNotLoaded table column =>
    table ++ "." ++ column ++ " was not loaded; it is needed to guard the write"
  | .stated text => text

def TransactionFault.message : TransactionFault → String
  | .cannotCommit state => "cannot commit a transaction that is " ++ state.name
  | .stated text => text

def ConnectionFault.message : ConnectionFault → String
  | .noDriver backend => "no " ++ backend ++ " driver compiled in"
  | .cannotOpen path => "unable to open database file: " ++ path
  | .stated text => text

namespace Error

/-- The name of the kind of an error. -/
def kind : Error → String
  | .optimisticLock _ _ => "OptimisticLock"
  | .uniqueValue _ _ => "UniqueValue"
  | .recordNotFound _ => "RecordNotFound"
  | .query _ _ _ _ => "Query"
  | .invalidQuery _ => "InvalidQuery"
  | .schema _ => "Schema"
  | .decode _ _ _ => "Decode"
  | .record _ => "Record"
  | .transaction _ => "Transaction"
  | .serialization _ => "Serialization"
  | .connection _ => "Connection"
  | .aggregate _ _ => "Aggregate"

/-- An error of a kind that says nothing but the words it is given. -/
def stated? (kind text : String) : Option Error :=
  [.recordNotFound text, .invalidQuery (.stated text), .schema (.stated text),
    .record (.stated text), .transaction (.stated text), .serialization text,
    .connection (.stated text)].find? fun (e : Error) => e.kind == kind

/-- The words of an error. -/
def message : Error → String
  | .optimisticLock table key => "optimistic lock conflict on " ++ table ++ " (key " ++ key ++ ")"
  | .uniqueValue table _ => "unique constraint violated on " ++ table
  | .recordNotFound what => "record not found: " ++ what
  | .query operation sql _ source =>
    operation ++ " failed: " ++ source ++ " (sql: " ++ sql ++ ")"
  | .invalidQuery fault => "invalid query: " ++ fault.message
  | .schema fault => "schema error: " ++ fault.message
  | .decode column receiver fault =>
    "cannot decode column " ++ column ++ " as " ++ receiver.name ++ ": " ++ fault.message
  | .record fault => "record error: " ++ fault.message
  | .transaction fault => "transaction error: " ++ fault.message
  | .serialization text => "serialization error: " ++ text
  | .connection fault => "connection error: " ++ fault.message
  | .aggregate primary secondary =>
    primary.message ++ " (additionally: " ++ secondary.message ++ ")"

/-- The words of the failure beneath an error. -/
def source? : Error → Option String
  | .uniqueValue _ source => source
  | .query _ _ _ source => some source
  | _ => none

/-- The error that is left when a cleanup follows a failure. -/
def withCleanup (e : Error) : Except Error Unit → Error
  | .ok () => e
  | .error secondary => .aggregate e secondary

/-- The outcome of an action and the cleanup after it. -/
def combine (outcome cleanup : Except Error Unit) : Except Error Unit :=
  match outcome with
  | .ok () => cleanup
  | .error e => .error (e.withCleanup cleanup)

def isLockConflict : Error → Bool
  | .optimisticLock _ _ => true
  | .aggregate primary _ => primary.isLockConflict
  | _ => false

def isUniqueViolation : Error → Bool
  | .uniqueValue _ _ => true
  | .aggregate primary _ => primary.isUniqueViolation
  | _ => false

def isNotFound : Error → Bool
  | .recordNotFound _ => true
  | .aggregate primary _ => primary.isNotFound
  | _ => false

end Error

end RecordGraph
