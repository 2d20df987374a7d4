/-
# The access log at work

`AuditLog` in use by any number of callers at once. `record` is three steps: it
takes a number, it reads the clock, and under the lock it puts the record into
the buffer, or drops it where the buffer is full. `flush` is two: it takes the
buffer away under the lock, and later its transaction goes through or fails.
Between the steps of one call the others take theirs, the clock shows what it
will, and the process may end, with what is in memory, and open the log again.

Key definitions: `AuditLog`, `AuditSystem`, `AuditEvent`, `AuditSystem.next`,
`AuditSystem.inFlushes`.
Key theorems: `step_cases`, `next_induction`.
-/
import HeatherDb.AuditLog
import HeatherDb.Lib.Runs

namespace HeatherDb

open OrderedTable

variable {F α : Type}

/-- The log in memory. -/
structure AuditLog (F : Type) where
  config : AuditConfig
  buffer : List (AuditRecord F)
  /-- The number of the next record. -/
  seq : ℕ
  dropped : ℕ

/-- `Store::last_audit_seq`: the number in the last key. -/
def lastAuditSeq (t : OrderedTable AuditKey α) : Option ℕ := t.keys.getLast?.map keySeq

namespace AuditLog

/-- `AuditLog::open` -/
def openOn (config : AuditConfig) (t : AuditTable F) : AuditLog F where
  config := config
  buffer := []
  seq := (lastAuditSeq t).elim 0 (· + 1)
  dropped := 0

/-- The end of `record`, under the lock: whether a flush is due, and the log. -/
def push (log : AuditLog F) (record : AuditRecord F) : Bool × AuditLog F :=
  if log.config.maxBuffer ≤ log.buffer.length then (true, { log with dropped := log.dropped + 1 })
  else (decide (log.config.flushThreshold ≤ log.buffer.length + 1), { log with buffer := log.buffer ++ [record] })

end AuditLog

/-- A call of `record` that has taken its number; `stamped` once it has read the
clock. -/
structure AuditCall (F : Type) where
  record : AuditRecord F
  stamped : Bool

/-- A log over its store, with the calls in progress by caller: what each
`record` carries, and what each `flush` took from the buffer. -/
structure AuditSystem (F : Type) where
  log : AuditLog F
  stored : AuditTable F
  calls : OrderedTable ℕ (AuditCall F)
  flushes : OrderedTable ℕ (List (AuditRecord F))

inductive AuditEvent (F : Type) where
  /-- A caller enters `record`. -/
  | record (caller : ℕ) (record : AuditRecord F)
  | stamp (caller now : ℕ)
  | push (caller : ℕ)
  /-- A caller enters `flush`, by itself, by a tick, by a full buffer or by a
  query. -/
  | take (caller : ℕ)
  /-- Its transaction ends. -/
  | commit (caller now : ℕ) (fails : Bool)
  /-- A transaction that prunes; for `Hive::prune_audit_before` the first bound is
  `u64::MAX`. -/
  | prune (maxEntries cutoff : ℕ) (fails : Bool)
  /-- The process ends and the log is opened again. -/
  | reopen (config : AuditConfig)

namespace AuditSystem

/-- The log of a store, opened. -/
def opened (config : AuditConfig) (t : AuditTable F) : AuditSystem F :=
  ⟨.openOn config t, t, OrderedTable.empty, OrderedTable.empty⟩

/-- What an event leaves, if it can come now. -/
def step (s : AuditSystem F) : AuditEvent F → Option (AuditSystem F)
  | .record caller record =>
    if s.log.config.enabled && (s.calls.get caller).isNone then
      some { s with
        log := { s.log with seq := s.log.seq + 1 }
        calls := s.calls.put caller ⟨{ record with seq := s.log.seq }, false⟩ }
    else none
  | .stamp caller now =>
    match s.calls.get caller with
    | some ⟨record, false⟩ => some { s with calls := s.calls.put caller ⟨{ record with timestampMs := now }, true⟩ }
    | _ => none
  | .push caller =>
    match s.calls.get caller with
    | some ⟨record, true⟩ => some { s with log := (s.log.push record).2, calls := s.calls.delete caller }
    | _ => none
  | .take caller =>
    if (s.flushes.get caller).isNone then
      some { s with log := { s.log with buffer := [] }, flushes := s.flushes.put caller s.log.buffer }
    else none
  | .commit caller now fails =>
    (s.flushes.get caller).map fun batch =>
      { s with
        stored := if fails then s.stored else s.log.config.flush now batch s.stored
        flushes := s.flushes.delete caller }
  | .prune maxEntries cutoff fails =>
    some { s with stored := if fails then s.stored else (pruneAudit maxEntries cutoff s.stored).2 }
  | .reopen config => some (opened config s.stored)

/-- An event that cannot come now changes nothing. -/
def next (s : AuditSystem F) (e : AuditEvent F) : AuditSystem F := (s.step e).getD s

/-! ### What a step does -/

/-- The steps, one constructor for each way that one can go. -/
inductive Step (s : AuditSystem F) : AuditEvent F → AuditSystem F → Prop
  | record {caller record} (henabled : s.log.config.enabled = true) (hidle : s.calls.get caller = none) :
    Step s (.record caller record)
      { s with
        log := { s.log with seq := s.log.seq + 1 }
        calls := s.calls.put caller ⟨{ record with seq := s.log.seq }, false⟩ }
  | stamp {caller now record} (hcall : s.calls.get caller = some ⟨record, false⟩) :
    Step s (.stamp caller now) { s with calls := s.calls.put caller ⟨{ record with timestampMs := now }, true⟩ }
  | drop {caller record} (hcall : s.calls.get caller = some ⟨record, true⟩)
      (hfull : s.log.config.maxBuffer ≤ s.log.buffer.length) :
    Step s (.push caller)
      { s with log := { s.log with dropped := s.log.dropped + 1 }, calls := s.calls.delete caller }
  | keep {caller record} (hcall : s.calls.get caller = some ⟨record, true⟩)
      (hroom : s.log.buffer.length < s.log.config.maxBuffer) :
    Step s (.push caller)
      { s with log := { s.log with buffer := s.log.buffer ++ [record] }, calls := s.calls.delete caller }
  | take {caller} (hidle : s.flushes.get caller = none) :
    Step s (.take caller)
      { s with log := { s.log with buffer := [] }, flushes := s.flushes.put caller s.log.buffer }
  | commit {caller now batch} (hbatch : s.flushes.get caller = some batch) :
    Step s (.commit caller now false)
      { s with stored := s.log.config.flush now batch s.stored, flushes := s.flushes.delete caller }
  | fail {caller now batch} (hbatch : s.flushes.get caller = some batch) :
    Step s (.commit caller now true) { s with flushes := s.flushes.delete caller }
  | prune {maxEntries cutoff} :
    Step s (.prune maxEntries cutoff false) { s with stored := (pruneAudit maxEntries cutoff s.stored).2 }
  | failPrune {maxEntries cutoff} : Step s (.prune maxEntries cutoff true) s
  | reopen {config} : Step s (.reopen config) (opened config s.stored)

theorem step_cases {s s' : AuditSystem F} {e : AuditEvent F} (h : s.step e = some s') : Step s e s' := by
  cases e with
  | record caller record =>
    simp only [step, Option.ite_none_right_eq_some, Bool.and_eq_true, Option.isNone_iff_eq_none,
      Option.some.injEq] at h
    obtain ⟨⟨henabled, hidle⟩, rfl⟩ := h
    exact .record henabled hidle
  | stamp caller now =>
    simp only [step] at h
    split at h
    · cases h
      exact .stamp ‹_›
    · cases h
  | push caller =>
    simp only [step] at h
    split at h
    · next record hcall =>
      cases h
      by_cases hfull : s.log.config.maxBuffer ≤ s.log.buffer.length
      · rw [AuditLog.push, if_pos hfull]
        exact .drop hcall hfull
      · rw [AuditLog.push, if_neg hfull]
        exact .keep hcall (not_le.mp hfull)
    · cases h
  | take caller =>
    simp only [step, Option.ite_none_right_eq_some, Option.isNone_iff_eq_none, Option.some.injEq] at h
    obtain ⟨hidle, rfl⟩ := h
    exact .take hidle
  | commit caller now fails =>
    obtain ⟨batch, hbatch, rfl⟩ := Option.map_eq_some_iff.mp h
    cases fails with
    | false => exact .commit hbatch
    | true => exact .fail hbatch
  | prune maxEntries cutoff fails =>
    cases h
    cases fails with
    | false => exact .prune
    | true => exact .failPrune
  | reopen config =>
    cases h
    exact .reopen

/-- What a step keeps is kept. -/
theorem next_induction {P : AuditSystem F → Prop} {s : AuditSystem F} (e : AuditEvent F) (h : P s)
    (hstep : ∀ s', Step s e s' → P s') : P (s.next e) := by
  unfold next
  cases hs : s.step e with
  | none => exact h
  | some s' => exact hstep s' (step_cases hs)

/-! ### What is in memory -/

/-- The records that flushes have taken. -/
def inFlushes (s : AuditSystem F) : List (AuditRecord F) := s.flushes.values.flatten

end AuditSystem

variable {calls : OrderedTable ℕ (AuditCall F)} {flushes : OrderedTable ℕ (List (AuditRecord F))} {caller : ℕ}

/-- A call that begins adds its number. -/
theorem count_calls_put (call : AuditCall F) (h : calls.get caller = none) (n : ℕ) :
    ((calls.put caller call).values.map (·.record.seq)).count n =
      (calls.values.map (·.record.seq)).count n + if call.record.seq = n then 1 else 0 := by
  have hput := (values_put_perm calls caller call).map (·.record.seq)
  rw [delete_of_get_none h] at hput
  rw [hput.count_eq n, List.map_cons, List.count_cons]
  simp only [beq_iff_eq]

/-- A call that ends gives its number back. -/
theorem count_calls_delete {call : AuditCall F} (h : calls.get caller = some call) (n : ℕ) :
    (calls.values.map (·.record.seq)).count n =
      ((calls.delete caller).values.map (·.record.seq)).count n + if call.record.seq = n then 1 else 0 := by
  rw [((values_perm_of_get h).map (·.record.seq)).count_eq n, List.map_cons, List.count_cons]
  simp only [beq_iff_eq]

/-- A call that reads the clock keeps its number. -/
theorem count_calls_stamp {record : AuditRecord F} {b : Bool} (h : calls.get caller = some ⟨record, b⟩) (now n : ℕ) :
    ((calls.put caller ⟨{ record with timestampMs := now }, true⟩).values.map (·.record.seq)).count n =
      (calls.values.map (·.record.seq)).count n := by
  have hput := (values_put_perm calls caller ⟨{ record with timestampMs := now }, true⟩).map (·.record.seq)
  have hget := (values_perm_of_get h).map (·.record.seq)
  rw [List.map_cons] at hput
  exact (hput.trans hget.symm).count_eq n

theorem flushes_put_perm (batch : List (AuditRecord F)) (h : flushes.get caller = none) :
    (flushes.put caller batch).values.flatten.Perm (batch ++ flushes.values.flatten) := by
  have hput := values_put_perm flushes caller batch
  rw [delete_of_get_none h] at hput
  exact hput.flatten

theorem flushes_perm_of_get {batch : List (AuditRecord F)} (h : flushes.get caller = some batch) :
    flushes.values.flatten.Perm (batch ++ (flushes.delete caller).values.flatten) :=
  (values_perm_of_get h).flatten

/-! ### What is on disk -/

/-- Pruning deletes rows and changes none. -/
theorem pruneAudit_sublist (maxEntries minTs : ℕ) (t : OrderedTable AuditKey α) :
    (pruneAudit maxEntries minTs t).2.entries.Sublist t.entries := by
  rw [entries_pruneAudit]
  exact List.filter_sublist.trans (List.drop_sublist _ _)

theorem get_pruneAudit {maxEntries minTs : ℕ} {t : OrderedTable AuditKey α} (k : AuditKey)
    (h : (pruneAudit maxEntries minTs t).2.get k ≠ none) : (pruneAudit maxEntries minTs t).2.get k = t.get k := by
  obtain ⟨v, hv⟩ := Option.ne_none_iff_exists'.mp h
  rw [hv, eq_comm, get_eq_some_iff]
  exact (pruneAudit_sublist _ _ t).subset (get_eq_some_iff.mp hv)

end HeatherDb
