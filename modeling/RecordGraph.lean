import RecordGraph.Number.Decimal
import RecordGraph.Number.Literal
import RecordGraph.Text.Quoted
import RecordGraph.Text.Blank
import RecordGraph.Text.Utf8
import RecordGraph.Time.Read
import RecordGraph.Value.Basic
import RecordGraph.Value.Ulid
import RecordGraph.Value.Receiver
import RecordGraph.Error
import RecordGraph.Value.Decode
import RecordGraph.Json.Read
import RecordGraph.Json.Fields
import RecordGraph.Schema.Basic
import RecordGraph.Node.Chain
import RecordGraph.Codec.NodeText
import RecordGraph.Codec.NodeBinary
import RecordGraph.Sql.Operation
import RecordGraph.Sql.TableDefinition
import RecordGraph.Sqlite.Store
import RecordGraph.JoinTree.Basic
import RecordGraph.Query.Resolution
import RecordGraph.NameMap
import RecordGraph.Sql.Command
import RecordGraph.Version
import RecordGraph.Connection.Basic
import RecordGraph.Transaction
import RecordGraph.Cursor
import RecordGraph.Record.Export
import RecordGraph.Record.Save
import RecordGraph.Record.Unpack
import RecordGraph.Query.Run
import RecordGraph.Connection.Script
import RecordGraph.Config
import RecordGraph.Proofs.NameMap
import RecordGraph.Proofs.Record.GroupBy
import RecordGraph.Proofs.Record.Lossless
import RecordGraph.Proofs.Locking.Interleaving
import RecordGraph.Proofs.JoinTree.Rearranged
import RecordGraph.Proofs.JoinTree.Asked
import RecordGraph.Proofs.Query.NamesFound
import RecordGraph.Proofs.Record.ChangesSent
import RecordGraph.Proofs.Query.SavedAsLoaded
import RecordGraph.Proofs.Record.SingleRow
import RecordGraph.Proofs.Record.Resumed
import RecordGraph.Proofs.Sql.Scoping
import RecordGraph.Proofs.Query.Scoped
import RecordGraph.Proofs.Record.RolledBack
import RecordGraph.Proofs.Query.SameText
import RecordGraph.Proofs.Query.Streamed
import RecordGraph.Proofs.Codec.NodeText
import RecordGraph.Proofs.Schema.Consistent
import RecordGraph.Proofs.Schema.Wired
import RecordGraph.Proofs.Schema.Resolved
import RecordGraph.Proofs.JoinTree.Refused
import RecordGraph.Proofs.Query.Expanded
import RecordGraph.Proofs.Sql.Formula
import RecordGraph.Proofs.Sql.Spelled
import RecordGraph.Proofs.Query.Regrouped
import RecordGraph.Proofs.JoinTree.RootRows
import RecordGraph.Proofs.Query.Counted
import RecordGraph.Proofs.Locking.Reused
import RecordGraph.Proofs.Connection.Transactions
import RecordGraph.Proofs.Query.Closed
import RecordGraph.Proofs.Codec.BothForms
import RecordGraph.Proofs.Node.Identity
import RecordGraph.Proofs.Sql.Patterns
import RecordGraph.Proofs.JoinTree.GroupedReads
import RecordGraph.Proofs.Record.GroupedRows
import RecordGraph.Proofs.Record.Edited
import RecordGraph.Proofs.Value.Decode
import RecordGraph.Proofs.Sqlite.Stored
import RecordGraph.Proofs.Time.Stored
import RecordGraph.Proofs.Version
import RecordGraph.Proofs.Value.Integers
import RecordGraph.Proofs.Query.Operands
import RecordGraph.Proofs.Schema.Dependencies
import RecordGraph.Proofs.Record.Unkeyed
import RecordGraph.Proofs.Record.AssignedKeys
import RecordGraph.Proofs.Schema.ColumnNames
import RecordGraph.Proofs.Schema.ForeignKeyTypes
import RecordGraph.Proofs.Sqlite.Unsigned
import RecordGraph.Proofs.Query.Delivered
import RecordGraph.Proofs.Time.Computed
import RecordGraph.Proofs.Record.Exported
import RecordGraph.Proofs.JoinTree.DeclaredKeys
import RecordGraph.Proofs.Sql.QuotedNames
import RecordGraph.Proofs.Value.UlidNumbers
import RecordGraph.Proofs.Record.Slots
