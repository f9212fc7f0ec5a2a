import SeSqlite.Lib.Runs
import SeSqlite.Lib.Probing
import SeSqlite.Lib.ByteFile
import SeSqlite.Lib.UnrolledList
import SeSqlite.Lib.PartialInverse
import SeSqlite.Lib.Traverse
import SeSqlite.Lib.NestedLoop
import SeSqlite.Hash
import SeSqlite.BiHash
import SeSqlite.Names
import SeSqlite.VacuumFlag
import SeSqlite.Contexts
import SeSqlite.LabelIds
import SeSqlite.ObjectLabels
import SeSqlite.AccessVector
import SeSqlite.Avc
import SeSqlite.Schema.Operations
import SeSqlite.Schema.Keys
import SeSqlite.Schema.Survival
import SeSqlite.Schema.Settled
import SeSqlite.Schema.Runs
import SeSqlite.Schema.Relabel
import SeSqlite.Reopen
import SeSqlite.Sql.Insert
import SeSqlite.Sql.Constraints
import SeSqlite.Sql.Dml
import SeSqlite.Sql.Copy
import SeSqlite.LabelColumn
import SeSqlite.Integrity
import SeSqlite.Vacuum
import SeSqlite.Select
import SeSqlite.Bytes
import SeSqlite.Wal.Index
import SeSqlite.Wal.Mergesort
import SeSqlite.Lib.Threads
import SeSqlite.Wal.Protocol
import SeSqlite.Wal.Invariant
import SeSqlite.Wal.Steps
import SeSqlite.Wal.Iterator
import SeSqlite.Wal.Moves
import SeSqlite.Wal.Isolation
import SeSqlite.Os.LockSafety
import SeSqlite.Fkey.Connection
import SeSqlite.Fkey.Enforcement
import SeSqlite.Vdbe.Transactions
import SeSqlite.Wal.Frames
import SeSqlite.Wal.LogFile
import SeSqlite.Wal.Writer
import SeSqlite.Wal.Recovery
import SeSqlite.Btree.FreeList
import SeSqlite.Btree.FreeSearch
import SeSqlite.Btree.PageCount
import SeSqlite.Btree.PageRuns
import SeSqlite.Btree.PayloadRoundTrip
import SeSqlite.Util.CheckedInt
import SeSqlite.Util.VarintCode
import SeSqlite.Lib.SharedLocks
import SeSqlite.Os.ShmLock
import SeSqlite.Expression.Implies
import SeSqlite.Where.OrTerm
import SeSqlite.Where.Scan
import SeSqlite.Where.Transitive
import SeSqlite.Where.Distinct
import SeSqlite.Util.Atoi64
import SeSqlite.Util.Collations
import SeSqlite.Vdbe.ValueOrder
import SeSqlite.StoredText
import SeSqlite.ContextRules
import SeSqlite.Vdbe.MakeRecord
import SeSqlite.Pager.MemJournal
import SeSqlite.Pager.AtomicWrite
import SeSqlite.Vdbe.Seek
import SeSqlite.Fts3.MergeHint
import SeSqlite.Rtree
import SeSqlite.Async
