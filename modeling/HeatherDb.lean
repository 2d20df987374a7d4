import HeatherDb.Lib.OrderedTable
import HeatherDb.Lib.Faults
import HeatherDb.VecOps
import HeatherDb.Config
import HeatherDb.Read
import HeatherDb.Scan
import HeatherDb.Write
import HeatherDb.Nearest
import HeatherDb.Lib.Absorb
import HeatherDb.Merge
import HeatherDb.Store
import HeatherDb.Inner
import HeatherDb.Collection
import HeatherDb.Exact
import HeatherDb.Batch
import HeatherDb.Arrays
import HeatherDb.Guard
import HeatherDb.Writes
import HeatherDb.Consolidation
import HeatherDb.Stored
import HeatherDb.Lib.Runs
import HeatherDb.Runs
import HeatherDb.Durability
import HeatherDb.Recoverable
import HeatherDb.Rollback
import HeatherDb.Documents
import HeatherDb.Reads
import HeatherDb.Versions
import HeatherDb.Handlers
import HeatherDb.Frame
import HeatherDb.Hive
import HeatherDb.Life
import HeatherDb.DocumentIds
import HeatherDb.Postings
import HeatherDb.Filed
import HeatherDb.Registry
import HeatherDb.HiveCache
import HeatherDb.Index
import HeatherDb.Sequence
import HeatherDb.Lib.Bytes
import HeatherDb.Lib.Parser
import HeatherDb.Lib.Crc32
import HeatherDb.Codec
import HeatherDb.Layout
import HeatherDb.Envelope
import HeatherDb.Assumed
import HeatherDb.RoundTrip
import HeatherDb.Strict
import HeatherDb.Damage
import HeatherDb.Audit
import HeatherDb.Lib.Router
import HeatherDb.Users
import HeatherDb.Tokens
import HeatherDb.DbConfig
import HeatherDb.Auth
import HeatherDb.Server
import HeatherDb.Backup
import HeatherDb.Separate
import HeatherDb.Creates
import HeatherDb.Boot
import HeatherDb.FailedCreate
import HeatherDb.Drops
import HeatherDb.AuditLog
import HeatherDb.AuditRuns
import HeatherDb.AuditNumbers
import HeatherDb.AuditLedger
import HeatherDb.AuditQueries
import HeatherDb.Attention
import HeatherDb.Lib.Greatest
import HeatherDb.TopK
import HeatherDb.LeaveOneOut
import HeatherDb.Prefilter
import HeatherDb.Lib.GramSchmidt
import HeatherDb.Lib.FirstBest
import HeatherDb.Reals
import HeatherDb.Projection
import HeatherDb.Evidence
import HeatherDb.EvidenceLedger
import HeatherDb.Mixture
import HeatherDb.Rounds
import HeatherDb.Duplicates
import HeatherDb.Description
import HeatherDb.Ungated
import HeatherDb.Lib.Greedy
import HeatherDb.Lib.LogSumExp
import HeatherDb.Algebra
import HeatherDb.Keyed
import HeatherDb.Addition
import HeatherDb.Unbounded
import HeatherDb.StaysFinite
import HeatherDb.Requests
import HeatherDb.Carried
import HeatherDb.Verify
import HeatherDb.Lib.Ranking
import HeatherDb.Roles
import HeatherDb.Search
import HeatherDb.Gated
import HeatherDb.Building
import HeatherDb.Neighbors
import HeatherDb.UnitSphere
import HeatherDb.Analyze
import HeatherDb.PlainSearch
import HeatherDb.Lib.Fourier
import HeatherDb.Spectra
import HeatherDb.Binding
import HeatherDb.Permutation
import HeatherDb.Rotation
import HeatherDb.AuditNames
import HeatherDb.Thresholds
import HeatherDb.Partners
import HeatherDb.KdArena
import HeatherDb.GraphSearch
import HeatherDb.RestorePaths
import HeatherDb.DeleteSnapshot
import HeatherDb.Compose
import HeatherDb.Hybrids
import HeatherDb.Renumber
import HeatherDb.ErrorBound
import HeatherDb.UserStore
import HeatherDb.Credentials
import HeatherDb.Descent
import HeatherDb.Routing
import HeatherDb.Dream
import HeatherDb.Ladder
import HeatherDb.Laws
