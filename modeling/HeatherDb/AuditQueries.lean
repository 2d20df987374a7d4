/-
# What a query of the access log sees

`Hive::query_audit` flushes and then scans. Its flush moves the buffer to disk,
so what was accepted before it is on disk by the time of the scan, unless
another flush had taken it out of the buffer and has not committed yet: then it
is in neither place that the query looks at (`query_sees_iff`).

Key definitions: `AuditEvent.succeeds`, `queryAudit`, `AuditLedger.InReach`.
Key theorems: `followed_run`, `query_sees_iff`, `query_misses`.
-/
import HeatherDb.AuditLedger

namespace HeatherDb

open OrderedTable AuditSystem AuditLedger

variable {F : Type}

/-- The events of one life of a log in which no transaction fails. -/
def AuditEvent.succeeds : AuditEvent F → Bool
  | .commit _ _ fails => !fails
  | .prune _ _ fails => !fails
  | .reopen _ => false
  | _ => true

/-- The steps of `query_audit` up to its scan, with those of others between. -/
def queryAudit (caller now : ℕ) (first between last : List (AuditEvent F)) : List (AuditEvent F) :=
  first ++ .take caller :: (between ++ .commit caller now false :: last)

/-- Whether a query is for a record: its filters and its window. -/
def AuditQuery.wants (q : AuditQuery) (record : AuditRecord F) : Bool :=
  q.sinceMs.all (· ≤ record.timestampMs) && q.untilMs.all (record.timestampMs ≤ ·) && q.selects record

/-- A record that this log has written is on a row that the query finds in the
scan. -/
def AuditLedger.InReach (l : AuditLedger F) (q : AuditQuery) (record : AuditRecord F) : Prop :=
  record ∈ l.written ∧ record ∈ l.sys.stored.entries.reverse.filterMap q.hit

/-- A query finds the row of a record that it is for. -/
theorem AuditQuery.hit_of_wants {q : AuditQuery} {record : AuditRecord F} (h : q.wants record = true) :
    q.hit (record.key, some record) = some record := by
  obtain ⟨hwindow, hselects⟩ := Bool.and_eq_true_iff.mp h
  rw [hit, AuditRecord.key, keyTimestamp_auditKey, if_pos hwindow]
  exact Option.filter_eq_some_iff.mpr ⟨rfl, hselects⟩

namespace AuditLedger

variable {l : AuditLedger F} {record : AuditRecord F}

/-- A record whose call is over stays out of the buffer and out of the drops. -/
theorem passed_next (h : l.Accounted) (hpassed : record ∈ l.passed) {e : AuditEvent F} (he : e.succeeds = true) :
    record ∈ (l.next e).passed ∧ (record ∉ l.rejected → record ∉ (l.next e).rejected) ∧
      (record ∉ l.sys.log.buffer → record ∉ (l.next e).sys.log.buffer) := by
  -- the record of a call in progress is another
  have hother {caller record'} (hcall : l.sys.calls.get caller = some ⟨record', true⟩) : record ≠ record' := by
    rintro rfl
    have hn := h.numbers record.seq
    have hcalls := count_calls_delete hcall record.seq
    have hone : 0 < (l.passed.map (·.seq)).count record.seq := List.count_pos_iff.mpr (List.mem_map_of_mem hpassed)
    rw [if_pos rfl] at hcalls
    split_ifs at hn <;> omega
  unfold next
  cases hs : l.sys.step e with
  | none => exact ⟨hpassed, id, id⟩
  | some sys =>
    show record ∈ (l.note sys e).passed ∧ (_ → record ∉ (l.note sys e).rejected) ∧
      (_ → record ∉ (l.note sys e).sys.log.buffer)
    cases step_cases hs with
    | record => exact ⟨hpassed, id, id⟩
    | stamp => exact ⟨hpassed, id, id⟩
    | drop hcall =>
      rw [note_drop hcall]
      exact ⟨List.mem_append_left _ hpassed, fun hnot => by simp [hnot, hother hcall], id⟩
    | keep hcall =>
      rw [note_keep hcall]
      exact ⟨List.mem_append_left _ hpassed, id, fun hnot => by simp [hnot, hother hcall]⟩
    | take => exact ⟨hpassed, id, fun _ => List.not_mem_nil⟩
    | commit hbatch =>
      rw [note_commit hbatch]
      exact ⟨hpassed, id, id⟩
    | fail => simp [AuditEvent.succeeds] at he
    | prune => exact ⟨hpassed, id, id⟩
    | failPrune => simp [AuditEvent.succeeds] at he
    | reopen => simp [AuditEvent.succeeds] at he

/-- An event that succeeds loses nothing. -/
theorem lost_next (hlost : l.lost = []) {e : AuditEvent F} (he : e.succeeds = true) : (l.next e).lost = [] := by
  refine (lost_next_iff l ?_).mpr ⟨hlost, ?_⟩
  · rintro config rfl
    simp [AuditEvent.succeeds] at he
  · rintro ⟨caller, now, rfl, -⟩
    simp [AuditEvent.succeeds] at he

theorem lost_run : ∀ (es : List (AuditEvent F)) {l : AuditLedger F}, l.lost = [] → (∀ e ∈ es, e.succeeds = true) →
    (es.foldl next l).lost = []
  | [], _, hlost, _ => hlost
  | e :: es, _, hlost, hes =>
    lost_run es (lost_next hlost (hes e List.mem_cons_self)) fun e' he' => hes e' (List.mem_cons_of_mem e he')

/-- What a run without failures keeps of a record whose call is over. -/
structure Followed (record : AuditRecord F) (l : AuditLedger F) : Prop where
  accounted : l.Accounted
  lost : l.lost = []
  passed : record ∈ l.passed
  accepted : record ∉ l.rejected

theorem followed_run (es : List (AuditEvent F)) (h : Followed record l) (hes : ∀ e ∈ es, e.succeeds = true) :
    Followed record (es.foldl next l) ∧
      (record ∉ l.sys.log.buffer → record ∉ (es.foldl next l).sys.log.buffer) := by
  induction es generalizing l with
  | nil => exact ⟨h, id⟩
  | cons e es ih =>
    have he := hes e List.mem_cons_self
    obtain ⟨hpassed, haccepted, hbuffer⟩ := passed_next h.accounted h.passed he
    have hnext : Followed record (l.next e) :=
      ⟨accounted_next h.accounted e, lost_next h.lost he, hpassed, haccepted h.accepted⟩
    obtain ⟨hrun, hout⟩ := ih hnext fun e' he' => hes e' (List.mem_cons_of_mem e he')
    exact ⟨hrun, fun hnot => hout (hbuffer hnot)⟩

/-- Once it is out of the buffer, an accepted record is held by a flush or has
been written. -/
theorem mem_written_or_inFlushes (h : Followed record l) (hbuffer : record ∉ l.sys.log.buffer) :
    record ∈ l.sys.inFlushes ∨ record ∈ l.written := by
  have hplace := h.accounted.places.mem_iff.mp h.passed
  simp only [List.mem_append, hbuffer, h.accepted, h.lost, List.not_mem_nil, or_false, false_or] at hplace
  exact hplace

/-- The flush of a query empties the buffer. -/
theorem buffer_take {caller : ℕ} (hidle : l.sys.flushes.get caller = none) :
    (l.next (.take caller)).sys.log.buffer = [] := by
  simp [next, step, hidle, note]

/-- **A query sees the records that no flush holds.** Over every interleaving of
calls and flushes without a failure: a record accepted before the query, that
the query is for and that was not pruned, is in reach of its scan just if no
flush is still holding it then. -/
theorem query_sees_iff (config : AuditConfig) (t : AuditTable F) (before first between last : List (AuditEvent F))
    (caller now : ℕ) (q : AuditQuery) (record : AuditRecord F)
    (hcalm : ∀ e ∈ before ++ queryAudit caller now first between last, e.succeeds = true)
    (hidle : ((before ++ first).foldl next (start config t)).sys.flushes.get caller = none)
    (hpassed : record ∈ (before.foldl next (start config t)).passed)
    (haccepted : record ∉ (before.foldl next (start config t)).rejected) (hwants : q.wants record = true)
    (hkept : record ∉ ((before ++ queryAudit caller now first between last).foldl next (start config t)).removed) :
    ((before ++ queryAudit caller now first between last).foldl next (start config t)).InReach q record ↔
      record ∉ ((before ++ queryAudit caller now first between last).foldl next (start config t)).sys.inFlushes := by
  have hall (e) (he : e ∈ before ++ first ++ .take caller :: (between ++ .commit caller now false :: last)) :
      e.succeeds = true := hcalm e (by rwa [queryAudit, ← List.append_assoc])
  have hcalled : Followed record (before.foldl next (start config t)) :=
    ⟨accounted_run before config t, lost_run before rfl fun e he => hcalm e (List.mem_append_left _ he),
      hpassed, haccepted⟩
  -- up to the flush of the query, its taking of the buffer, and on to the scan
  have hparts : (before ++ queryAudit caller now first between last).foldl next (start config t) =
      (between ++ .commit caller now false :: last).foldl next
        ([.take caller].foldl next (first.foldl next (before.foldl next (start config t)))) := by
    rw [queryAudit, List.foldl_append, List.foldl_append]
    rfl
  rw [hparts] at hkept ⊢
  rw [List.foldl_append] at hidle
  have hfirst := (followed_run first hcalled fun e he => hall e (by simp [he])).1
  have htake := (followed_run [.take caller] hfirst (by simp [AuditEvent.succeeds])).1
  have hbuffer := buffer_take hidle
  obtain ⟨hscan, hout⟩ := followed_run (between ++ .commit caller now false :: last) htake
    fun e he => hall e (by simp only [List.mem_append, List.mem_cons] at he ⊢; tauto)
  have hout := hout (by simp [hbuffer])
  constructor
  · rintro ⟨hwritten, -⟩
    exact hscan.accounted.notMem_inFlushes hwritten
  · intro hheld
    have hwritten := (mem_written_or_inFlushes hscan hout).resolve_left hheld
    rcases hscan.accounted.rows record hwritten with ⟨hrow, -⟩ | ⟨-, hremoved⟩
    · refine ⟨hwritten, List.mem_filterMap.mpr ⟨(record.key, some record), ?_, AuditQuery.hit_of_wants hwants⟩⟩
      exact List.mem_reverse.mpr (get_eq_some_iff.mp hrow)
    · exact absurd hremoved hkept

/-- A query without filters. -/
def anyOne : AuditQuery := ⟨none, none, none, none, none, 1, 1⟩

/-- A query finds the record that its own flush brings to disk. -/
theorem query_sees_buffered :
    ((readTaken.take 3 ++ queryAudit 1 10 [] [] []).foldl next (start .standard OrderedTable.empty)).InReach anyOne
      (readAt 10 0 "ada") := by
  have hcalm : ∀ e ∈ readTaken.take 3 ++ queryAudit 1 10 [] [] [], e.succeeds = true := by
    simp [readTaken, queryAudit, AuditEvent.succeeds]
  have hremoved : ((readTaken.take 3 ++ queryAudit 1 10 [] [] []).foldl next
      (start .standard OrderedTable.empty)).removed.isEmpty = true := by
    decide +kernel
  have hkept := List.eq_nil_iff_forall_not_mem.mp (List.isEmpty_iff.mp hremoved) (readAt 10 0 "ada")
  have hheld : ((readTaken.take 3 ++ queryAudit 1 10 [] [] []).foldl next
      (start .standard OrderedTable.empty)).sys.inFlushes.isEmpty = true := by
    decide +kernel
  have hiff := query_sees_iff .standard OrderedTable.empty (readTaken.take 3) [] [] [] 1 10 anyOne (readAt 10 0 "ada")
    hcalm rfl (List.mem_singleton_self _) List.not_mem_nil rfl hkept
  exact hiff.mpr (List.eq_nil_iff_forall_not_mem.mp (List.isEmpty_iff.mp hheld) _)

/-- Another flush has taken the record; the flush of the query finds the buffer
empty, and the scan finds no row. -/
theorem query_misses : ¬∀ (config : AuditConfig) (t : AuditTable ℚ) (before first between last : List (AuditEvent ℚ))
    (caller now : ℕ) (q : AuditQuery) (record : AuditRecord ℚ),
    (∀ e ∈ before ++ queryAudit caller now first between last, e.succeeds = true) →
      ((before ++ first).foldl next (start config t)).sys.flushes.get caller = none →
      record ∈ (before.foldl next (start config t)).passed → record ∉ (before.foldl next (start config t)).rejected →
      q.wants record = true →
      record ∉ ((before ++ queryAudit caller now first between last).foldl next (start config t)).removed →
      ((before ++ queryAudit caller now first between last).foldl next (start config t)).InReach q record := by
  intro h
  have hcalm : ∀ e ∈ readTaken ++ queryAudit 1 10 [] [] [], e.succeeds = true := by
    simp [readTaken, queryAudit, AuditEvent.succeeds]
  have hreach := h .standard OrderedTable.empty readTaken [] [] [] 1 10 anyOne (readAt 10 0 "ada") hcalm rfl
    (List.mem_singleton_self _) List.not_mem_nil rfl List.not_mem_nil
  exact absurd hreach.1 List.not_mem_nil

end AuditLedger

end HeatherDb
