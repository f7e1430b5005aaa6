import Uniorm.Foundation.Transition
import Uniorm.Foundation.Text
import Uniorm.Connection.Target
import Uniorm.Connection.Session
import Uniorm.Pool.Registry
import Uniorm.Sql.Token
import Uniorm.Sql.Condition
import Uniorm.Builder.Dialect
import Uniorm.Builder.Dynamic
import Uniorm.Odbc.Driver
import Uniorm.Odbc.BlockFetch
import Uniorm.Pool.Machine
import Uniorm.Pool.Accounting
import Uniorm.Pool.Lease
import Uniorm.Foundation.Threads
import Uniorm.Async.Queue
import Uniorm.Async.Operation
import Uniorm.Async.Machine
import Uniorm.Async.Fifo
import Uniorm.Async.Teardown
import Uniorm.Async.References
import Uniorm.Async.Turns
import Uniorm.Async.Barrier
import Uniorm.Async.Answers
import Uniorm.Async.Held
import Uniorm.Async.Told
import Uniorm.Async.Progress
import Uniorm.Async.Answered
import Uniorm.Async.Callback
import Uniorm.Async.Wedged
import Uniorm.Async.Facade
import Uniorm.Async.Exclusive
import Uniorm.Async.Task
import Uniorm.Connection.Scopes
import Uniorm.Libpq.Server
import Uniorm.Libpq.Connection
import Uniorm.Libpq.Mirror
import Uniorm.Libpq.Durability
import Uniorm.Foundation.Action
import Uniorm.Orm.Mapping
import Uniorm.Orm.Statement
import Uniorm.Orm.Backend
import Uniorm.Orm.Write
import Uniorm.Orm.Sweep
import Uniorm.Orm.Batch
import Uniorm.Orm.Counts
import Uniorm.Orm.Channels
import Uniorm.Foundation.Scanner
import Uniorm.Foundation.Sorted
import Uniorm.Sql.Placeholder
import Uniorm.Sql.Segment
import Uniorm.Libpq.SqlText
import Uniorm.Libpq.Lexical
import Uniorm.Libpq.Parameters
import Uniorm.Oracle.SqlText
import Uniorm.Oracle.Parameters
import Uniorm.Builder.Expression
import Uniorm.Orm.Query
import Uniorm.Backend.Placeholders
import Uniorm.Backend.Rendered
import Uniorm.Backend.CoreText
import Uniorm.Schema.Meta
import Uniorm.Schema.Column
import Uniorm.Orm.Resolution
import Uniorm.Orm.Registry
import Uniorm.Cpp.Token
import Uniorm.Gen.Naming
import Uniorm.Gen.Schema
import Uniorm.Gen.Header
import Uniorm.Gen.Spelling
import Uniorm.Foundation.Scan
import Uniorm.Ddl.Scanner
import Uniorm.Ddl.Reader
import Uniorm.Ddl.Script
import Uniorm.Ddl.Lexeme
import Uniorm.Ddl.Follow
import Uniorm.Ddl.Run
import Uniorm.Ddl.Neutral
import Uniorm.Ddl.Routine
import Uniorm.Ddl.Effect
import Uniorm.Connection.StatementCache
import Uniorm.Pool.Timeout
import Uniorm.Orm.Session
import Uniorm.Sql.Atom
import Uniorm.Builder.Meaning
import Uniorm.Orm.Where
import Uniorm.Orm.Binding
import Uniorm.Pool.Scheduler
import Uniorm.Async.Workers
import Uniorm.Cpp.Comment
import Uniorm.Gen.Comments
import Uniorm.Foundation.Memory
import Uniorm.Foundation.Calendar
import Uniorm.Value.Timestamp
import Uniorm.Value.SqlValue
import Uniorm.Orm.Staging
import Uniorm.Orm.Columnar
import Uniorm.Libpq.Native
import Uniorm.Libpq.Fetch
import Uniorm.Libpq.Reads
import Uniorm.Libpq.Cells
import Uniorm.Libpq.Blocks
import Uniorm.Libpq.Lossless
import Uniorm.Libpq.Agreement
import Uniorm.Value.Clock
import Uniorm.Libpq.Temporal
import Uniorm.Libpq.Conninfo
import Uniorm.Odbc.ConnectionString
import Uniorm.Foundation.Grammar
import Uniorm.Oracle.Lexical
import Uniorm.Oracle.Native
import Uniorm.Oracle.Fetch
import Uniorm.Oracle.Blocks
import Uniorm.Oracle.Whole
import Uniorm.Backend.Integers
import Uniorm.Ddl.Items
import Uniorm.Ddl.Target
import Uniorm.Ddl.Alter
import Uniorm.Ddl.Additions
import Uniorm.Ddl.Altered
import Uniorm.Foundation.Digits
import Uniorm.Value.Decimal
import Uniorm.Value.Literal
import Uniorm.Value.Accepted
import Uniorm.Value.Reading
import Uniorm.Value.Order
import Uniorm.Value.Integral
import Uniorm.Gen.Members
import Uniorm.Gen.Config
import Uniorm.Gen.Sections
import Uniorm.Ddl.Lead
import Uniorm.Ddl.Value
import Uniorm.Ddl.Prefixes
import Uniorm.Ddl.Distinct
import Uniorm.Ddl.Keys
import Uniorm.Gen.Reader
import Uniorm.Libpq.Bytea
import Uniorm.Foundation.Wildcard
import Uniorm.Odbc.CatalogPattern
import Uniorm.Oracle.NumberWidth
import Uniorm.Ddl.Tokens
import Uniorm.Ddl.Skippers
import Uniorm.Foundation.Blame
import Uniorm.Ddl.Blames
import Uniorm.Ddl.Endings
import Uniorm.Foundation.Indexed
import Uniorm.Ddl.ByIndex
import Uniorm.Ddl.Agreement
import Uniorm.Ddl.Places
import Uniorm.Backend.Registry
import Uniorm.Ddl.Again
import Uniorm.Ddl.Written
import Uniorm.Ddl.WrittenColumn
import Uniorm.Ddl.WrittenTable
import Uniorm.Ddl.RoundTrip
import Uniorm.Ddl.Accepted
import Uniorm.Sql.Prepared
import Uniorm.Orm.Asked
import Uniorm.Ddl.History
import Uniorm.Foundation.Letters
import Uniorm.Foundation.Lists
import Uniorm.Gen.LastKeys
import Uniorm.Gen.Written
import Uniorm.Gen.ReadBack
