/-
# The access log

`audit.rs`: who read what. The settings of a database's log come with its
`db.toml`. A record is stored under its time and its number in the log, so the
order of the keys is that of time.

Key definitions: `AuditVisibility`, `AuditConfig`, `AuditRecord`, `AuditKey`,
`AuditQuery`.
-/
import HeatherDb.VecOps
import HeatherDb.Lib.OrderedTable

namespace HeatherDb

/-- Who may read a database's log. -/
inductive AuditVisibility where
  | root
  | dbUsers
deriving DecidableEq, Repr

structure AuditConfig where
  enabled : Bool
  /-- Stored records; the oldest are pruned past this. -/
  maxEntries : ℕ
  /-- 0 keeps records of any age. -/
  retentionDays : ℕ
  /-- Buffered records that make a flush due. -/
  flushThreshold : ℕ
  flushIntervalSecs : ℕ
  /-- Records past this are dropped and counted. -/
  maxBuffer : ℕ
  storeRawQuery : Bool
  visibility : AuditVisibility
deriving DecidableEq, Repr

namespace AuditConfig

/-- `AuditConfig::default` -/
def standard : AuditConfig where
  enabled := true
  maxEntries := 1000000
  retentionDays := 90
  flushThreshold := 256
  flushIntervalSecs := 2
  maxBuffer := 16384
  storeRawQuery := false
  visibility := .root

/-- The age bound in milliseconds, a product of `u64`. -/
def retentionMs (c : AuditConfig) : Option ℕ :=
  if c.retentionDays = 0 then none else some (c.retentionDays * 24 * 60 * 60 * 1000 % UInt64.size)

end AuditConfig

/-! ### Records -/

/-- One recorded access. `F` is the number format of a raw query. -/
structure AuditRecord (F : Type) where
  /-- The number of the record in the log. -/
  seq : ℕ
  /-- Unix milliseconds. -/
  timestampMs : ℕ
  user : String
  scope : String
  database : String
  collection : String
  route : String
  status : ℕ
  resultCount : ℕ
  locationIds : List ℕ
  documentIds : List ℕ
  queryHash : Option String
  queryRaw : Option (List F)

/-- `[timestamp_ms | seq]`, whose big-endian bytes are in the order of the
pair. -/
abbrev AuditKey := ℕ ×ₗ ℕ

def auditKey (timestampMs seq : ℕ) : AuditKey := toLex (timestampMs, seq)

def keyTimestamp (k : AuditKey) : ℕ := (ofLex k).1

def keySeq (k : AuditKey) : ℕ := (ofLex k).2

@[simp] theorem keyTimestamp_auditKey (timestampMs seq : ℕ) :
    keyTimestamp (auditKey timestampMs seq) = timestampMs := rfl

@[simp] theorem keySeq_auditKey (timestampMs seq : ℕ) : keySeq (auditKey timestampMs seq) = seq := rfl

/-- Keys in order are in the order of time. -/
theorem keyTimestamp_le {k k' : AuditKey} (h : k < k') : keyTimestamp k ≤ keyTimestamp k' := by
  rcases Prod.Lex.lt_iff.mp h with h | h
  · exact h.le
  · exact h.1.le

/-- The stored log. A row that does not decode is `none`. -/
abbrev AuditTable (F : Type) := OrderedTable AuditKey (Option (AuditRecord F))

/-! ### Queries -/

/-- The filters of a query; the time bounds are inclusive. -/
structure AuditQuery where
  user : Option String
  collection : Option String
  route : Option String
  sinceMs : Option ℕ
  untilMs : Option ℕ
  /-- Rows returned. -/
  limit : ℕ
  /-- Rows examined. -/
  maxScan : ℕ

/-- `AuditQuery::matches` -/
def AuditQuery.selects {F : Type} (q : AuditQuery) (rec : AuditRecord F) : Bool :=
  q.user.all (· == rec.user) && q.collection.all (· == rec.collection) && q.route.all (· == rec.route)

end HeatherDb
