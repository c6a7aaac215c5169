import RecordGraph.Sql.Dialect

/-!
# Fragments of SQL

A `Sql` is a list of chunks: text, identifiers and arguments. Identifiers are quoted and arguments
numbered only when the whole is rendered, so fragments may be put together in any order and still
get one sequence of placeholders. Arguments never become text.

* `Sql.render`: the statement of a dialect.
* `Statement.text`: a statement and its arguments in messages.
-/
namespace RecordGraph

/-- A piece of SQL. -/
inductive Chunk where
  | raw (text : String)
  | ident (name : String)
  | param (v : Value)
  deriving DecidableEq

/-- A fragment of SQL. -/
structure Sql where
  chunks : List Chunk
  deriving DecidableEq

/-- The text of a statement, and its arguments in the order of their placeholders. -/
structure Statement where
  sql : String
  args : List Value
  deriving DecidableEq

namespace Sql

def empty : Sql := ⟨[]⟩

instance : Inhabited Sql := ⟨empty⟩

def raw (text : String) : Sql := ⟨[.raw text]⟩

def ident (name : String) : Sql := ⟨[.ident name]⟩

def param (v : Value) : Sql := ⟨[.param v]⟩

def push (s : Sql) (c : Chunk) : Sql := ⟨s.chunks ++ [c]⟩

def pushRaw (s : Sql) (text : String) : Sql := s.push (.raw text)

def pushIdent (s : Sql) (name : String) : Sql := s.push (.ident name)

def pushParam (s : Sql) (v : Value) : Sql := s.push (.param v)

def append (s t : Sql) : Sql := ⟨s.chunks ++ t.chunks⟩

instance : Append Sql := ⟨append⟩

/-- Fragments with a separator between them. -/
def join (separator : String) : List Sql → Sql
  | [] => empty
  | [s] => s
  | s :: rest => s ++ raw separator ++ join separator rest

def parens (s : Sql) : Sql := raw "(" ++ s ++ raw ")"

/-- `"label"."column"` -/
def qualified (label column : String) : Sql := (ident label).pushRaw "." |>.pushIdent column

/-- `NAME(a, b, …)` -/
def func (name : String) (args : List Sql) : Sql := raw name ++ raw "(" ++ join ", " args ++ raw ")"

/-- `s AS "name"` -/
def named (s : Sql) (name : String) : Sql := s.pushRaw " AS " |>.pushIdent name

def isEmpty (s : Sql) : Bool := s.chunks.isEmpty

/-- The arguments in order. -/
def params (s : Sql) : List Value := s.chunks.filterMap fun
  | .param v => some v
  | _ => none

/-- The text of chunks whose first argument has the given number. -/
def textFrom (d : Dialect) (index : Nat) : List Chunk → String
  | [] => ""
  | .raw text :: rest => text ++ textFrom d index rest
  | .ident name :: rest => d.quote name ++ textFrom d index rest
  | .param _ :: rest => d.placeholder index ++ textFrom d (index + 1) rest

/-- The statement of a fragment. -/
def render (s : Sql) (d : Dialect) : Statement := ⟨textFrom d 1 s.chunks, s.params⟩

end Sql

/-- A statement in messages: its text, and its arguments behind it. -/
def Statement.text (s : Statement) : String :=
  if s.args.isEmpty then s.sql
  else s.sql ++ " -- [" ++ ", ".intercalate (s.args.map Value.shown) ++ "]"

/-- A statement without arguments. -/
def Statement.plain (sql : String) : Statement := ⟨sql, []⟩

end RecordGraph
