/-
# What becomes of a record

A ledger beside the log: which records have come to the end of `record`, which
of them the counter of drops counted, which a transaction wrote, and which
pruning took off the disk again. A flush that fails after it took its batch
puts the batch nowhere, so that its records have none of the fates
(`conserved_iff`).

Key definitions: `AuditLedger`, `AuditFate`, `AuditLedger.Conserved`,
`AuditLedger.Accounted`.
Key theorems: `accounted_next`, `lost_next_iff`, `conserved_iff`.
-/
import HeatherDb.AuditNumbers

namespace HeatherDb

open OrderedTable AuditSystem

variable {F : Type}

/-- A log, and what happened to its records since it was opened. -/
structure AuditLedger (F : Type) where
  sys : AuditSystem F
  /-- Those whose call of `record` is over. -/
  passed : List (AuditRecord F)
  /-- Those at which the counter of drops went up. -/
  rejected : List (AuditRecord F)
  written : List (AuditRecord F)
  removed : List (AuditRecord F)
  /-- Those whose flush failed. -/
  lost : List (AuditRecord F)

inductive AuditFate where
  | buffered
  | persisted
  | removed
  | dropped

namespace AuditLedger

def start (config : AuditConfig) (t : AuditTable F) : AuditLedger F := ⟨opened config t, [], [], [], [], []⟩

/-- Those whose row a pruning took away. -/
def prunedOf (records : List (AuditRecord F)) (before after : AuditTable F) : List (AuditRecord F) :=
  records.filter fun record => (before.get record.key).isSome && (after.get record.key).isNone

/-- The ledger after an event that led to `sys`. -/
def note (l : AuditLedger F) (sys : AuditSystem F) : AuditEvent F → AuditLedger F
  | .push caller =>
    let records := (l.sys.calls.get caller).toList.map (·.record)
    { l with
      sys
      passed := l.passed ++ records
      rejected := if l.sys.log.dropped < sys.log.dropped then l.rejected ++ records else l.rejected }
  | .commit caller _ fails =>
    let batch := (l.sys.flushes.get caller).getD []
    if fails then { l with sys, lost := l.lost ++ batch }
    else
      { l with
        sys
        written := l.written ++ batch
        removed := l.removed ++ prunedOf (l.written ++ batch) (putAll (batchRows batch) l.sys.stored) sys.stored }
  | .prune _ _ _ => { l with sys, removed := l.removed ++ prunedOf l.written l.sys.stored sys.stored }
  | .reopen config => start config l.sys.stored
  | _ => { l with sys }

def next (l : AuditLedger F) (e : AuditEvent F) : AuditLedger F := (l.sys.step e).elim l (l.note · e)

/-- The record has a fate. -/
def Has (l : AuditLedger F) (record : AuditRecord F) : AuditFate → Prop
  | .buffered => record ∈ l.sys.log.buffer
  | .persisted => record ∈ l.written ∧ l.sys.stored.get record.key = some (some record)
  | .removed => record ∈ l.removed
  | .dropped => record ∈ l.rejected

/-- Every record is buffered, persisted, removed or counted as dropped, and only
one of them. -/
def Conserved (l : AuditLedger F) : Prop :=
  l.sys.log.dropped = l.rejected.length ∧ ∀ record ∈ l.passed, ∃! fate, l.Has record fate

/-- The event is the failure of a flush that has taken records. -/
def LosesBatch (l : AuditLedger F) (e : AuditEvent F) : Prop :=
  ∃ caller now, e = .commit caller now true ∧ ∃ batch ∈ l.sys.flushes.get caller, batch ≠ []

/-- What holds of a ledger between any two steps. -/
structure Accounted (l : AuditLedger F) : Prop where
  places : l.passed.Perm (l.sys.log.buffer ++ l.sys.inFlushes ++ l.written ++ l.rejected ++ l.lost)
  numbers : ∀ n, (l.sys.calls.values.map (·.record.seq)).count n + (l.passed.map (·.seq)).count n ≤
    if n < l.sys.log.seq then 1 else 0
  dropped : l.sys.log.dropped = l.rejected.length
  rows : ∀ record ∈ l.written, (l.sys.stored.get record.key = some (some record) ∧ record ∉ l.removed) ∨
    (l.sys.stored.get record.key = none ∧ record ∈ l.removed)
  removed : l.removed ⊆ l.written

theorem accounted_start (config : AuditConfig) (t : AuditTable F) : (start config t).Accounted where
  places := .nil
  numbers _ := Nat.zero_le _
  dropped := rfl
  rows _ h := absurd h List.not_mem_nil
  removed := List.nil_subset _

namespace Accounted

variable {l : AuditLedger F}

/-- A record is in one place, once. -/
theorem count_le [DecidableEq (AuditRecord F)] (h : l.Accounted) (record : AuditRecord F) :
    l.sys.log.buffer.count record + l.sys.inFlushes.count record + l.written.count record + l.rejected.count record +
      l.lost.count record ≤ 1 := by
  have hplaces := h.places.count_eq record
  simp only [List.count_append] at hplaces
  have hnumber := h.numbers record.seq
  have hmap : l.passed.count record ≤ (l.passed.map (·.seq)).count record.seq := List.count_le_count_map
  split_ifs at hnumber <;> omega

theorem apart (h : l.Accounted) (record : AuditRecord F) :
    ¬(record ∈ l.sys.log.buffer ∧ record ∈ l.written) ∧
      ¬(record ∈ l.sys.log.buffer ∧ record ∈ l.rejected) ∧
      ¬(record ∈ l.written ∧ record ∈ l.rejected) ∧
      (record ∈ l.lost → record ∉ l.sys.log.buffer ∧ record ∉ l.written ∧ record ∉ l.rejected) := by
  classical
  have hone := h.count_le record
  simp only [← List.count_pos_iff]
  omega

theorem notMem_inFlushes (h : l.Accounted) {record : AuditRecord F} (hwritten : record ∈ l.written) :
    record ∉ l.sys.inFlushes := by
  classical
  have hone := h.count_le record
  simp only [← List.count_pos_iff] at hwritten ⊢
  omega

/-- A number names its record. -/
theorem eq_of_seq (h : l.Accounted) {r r' : AuditRecord F} (hr : r ∈ l.passed) (hr' : r' ∈ l.passed)
    (hseq : r.seq = r'.seq) : r = r' := by
  have hnodup : (l.passed.map (·.seq)).Nodup := List.nodup_iff_count_le_one.mpr fun n => by
    have hn := h.numbers n
    split_ifs at hn <;> omega
  exact List.inj_on_of_nodup_map hnodup hr hr' hseq

/-- What pruning leaves of a row that was there. -/
theorem mem_prunedOf {records : List (AuditRecord F)} {before after : AuditTable F} {record : AuditRecord F}
    (hmem : record ∈ records) (hbefore : before.get record.key = some (some record)) :
    record ∈ prunedOf records before after ↔ after.get record.key = none := by
  simp [prunedOf, hmem, hbefore]

/-- Pruning takes rows off the disk, and the ledger takes note. -/
theorem rows_of_prune {written removed : List (AuditRecord F)} {before : AuditTable F} {maxEntries minTs : ℕ}
    (hrows : ∀ record ∈ written, (before.get record.key = some (some record) ∧ record ∉ removed) ∨
      (before.get record.key = none ∧ record ∈ removed)) :
    ∀ record ∈ written,
      ((pruneAudit maxEntries minTs before).2.get record.key = some (some record) ∧
          record ∉ removed ++ prunedOf written before (pruneAudit maxEntries minTs before).2) ∨
        ((pruneAudit maxEntries minTs before).2.get record.key = none ∧
          record ∈ removed ++ prunedOf written before (pruneAudit maxEntries minTs before).2) := by
  intro record hmem
  rcases hrows record hmem with ⟨hrow, hnot⟩ | ⟨hrow, hremoved⟩
  · by_cases hafter : (pruneAudit maxEntries minTs before).2.get record.key = none
    · exact Or.inr ⟨hafter, List.mem_append_right _ ((mem_prunedOf hmem hrow).mpr hafter)⟩
    · refine Or.inl ⟨(get_pruneAudit _ hafter).trans hrow, ?_⟩
      rw [List.mem_append, mem_prunedOf hmem hrow]
      exact not_or.mpr ⟨hnot, hafter⟩
  · refine Or.inr ⟨?_, List.mem_append_left _ hremoved⟩
    by_contra hafter
    exact hafter ((get_pruneAudit _ hafter).trans hrow)

/-- A batch brings its records to disk and moves no other. -/
theorem rows_of_batch (h : l.Accounted) {caller : ℕ} {batch : List (AuditRecord F)}
    (hbatch : l.sys.flushes.get caller = some batch) :
    ∀ record ∈ l.written ++ batch,
      ((putAll (batchRows batch) l.sys.stored).get record.key = some (some record) ∧ record ∉ l.removed) ∨
        ((putAll (batchRows batch) l.sys.stored).get record.key = none ∧ record ∈ l.removed) := by
  classical
  have hflushes : l.sys.inFlushes.Perm (batch ++ (l.sys.flushes.delete caller).values.flatten) :=
    flushes_perm_of_get hbatch
  have hpassed {record} (hmem : record ∈ l.written ++ batch) : record ∈ l.passed := by
    rw [h.places.mem_iff]
    rcases List.mem_append.mp hmem with hmem | hmem
    · simp [hmem]
    · simp [hflushes.mem_iff, hmem]
  have hapart {record} (hwritten : record ∈ l.written) (hmem : record ∈ batch) : False := by
    have hone := h.count_le record
    have hflushed := hflushes.count_eq record
    rw [List.count_append] at hflushed
    have hw := List.count_pos_iff.mpr hwritten
    have hb := List.count_pos_iff.mpr hmem
    omega
  -- a row of the batch under the key of a record is that of the record
  have hkey {record record'} (hmem : record ∈ l.written ++ batch) (hmem' : record' ∈ batch)
      (hsame : record'.key = record.key) : record' = record :=
    h.eq_of_seq (hpassed (List.mem_append_right _ hmem')) (hpassed hmem) (congrArg keySeq hsame)
  intro record hmem
  rcases List.mem_append.mp hmem with hwritten | hnew
  · have hother : record.key ∉ (batchRows batch).map (·.1) := by
      intro hin
      rw [batchRows, List.map_map] at hin
      obtain ⟨record', hmem', hsame⟩ := List.mem_map.mp hin
      exact hapart hwritten (hkey hmem hmem' hsame ▸ hmem')
    rw [get_putAll_of_notMem _ hother]
    exact h.rows record hwritten
  · refine Or.inl ⟨get_putAll _ (List.mem_map_of_mem hnew) fun row hrow => ?_, fun hremoved => ?_⟩
    swap
    · exact hapart (h.removed hremoved) hnew
    obtain ⟨record', hmem', hsame⟩ := List.mem_map.mp hrow
    obtain ⟨hsamekey, rfl⟩ := Prod.mk.inj hsame
    rw [hkey hmem hmem' hsamekey]

end Accounted

variable {l : AuditLedger F} {caller : ℕ} {record : AuditRecord F} {batch : List (AuditRecord F)}

theorem note_drop (hcall : l.sys.calls.get caller = some ⟨record, true⟩) :
    l.note { l.sys with
        log := { l.sys.log with dropped := l.sys.log.dropped + 1 }
        calls := l.sys.calls.delete caller } (.push caller) =
    { l with
      sys := { l.sys with
        log := { l.sys.log with dropped := l.sys.log.dropped + 1 }
        calls := l.sys.calls.delete caller }
      passed := l.passed ++ [record]
      rejected := l.rejected ++ [record] } := by
  simp [note, hcall]

theorem note_keep (hcall : l.sys.calls.get caller = some ⟨record, true⟩) :
    l.note { l.sys with
        log := { l.sys.log with buffer := l.sys.log.buffer ++ [record] }
        calls := l.sys.calls.delete caller } (.push caller) =
    { l with
      sys := { l.sys with
        log := { l.sys.log with buffer := l.sys.log.buffer ++ [record] }
        calls := l.sys.calls.delete caller }
      passed := l.passed ++ [record] } := by
  simp [note, hcall]

theorem note_commit (hbatch : l.sys.flushes.get caller = some batch) (now : ℕ) :
    l.note { l.sys with
        stored := l.sys.log.config.flush now batch l.sys.stored
        flushes := l.sys.flushes.delete caller } (.commit caller now false) =
    { l with
      sys := { l.sys with
        stored := l.sys.log.config.flush now batch l.sys.stored
        flushes := l.sys.flushes.delete caller }
      written := l.written ++ batch
      removed := l.removed ++ prunedOf (l.written ++ batch) (putAll (batchRows batch) l.sys.stored)
        (l.sys.log.config.flush now batch l.sys.stored) } := by
  simp [note, hbatch]

theorem note_fail (hbatch : l.sys.flushes.get caller = some batch) (now : ℕ) :
    l.note { l.sys with flushes := l.sys.flushes.delete caller } (.commit caller now true) =
      { l with sys := { l.sys with flushes := l.sys.flushes.delete caller }, lost := l.lost ++ batch } := by
  simp [note, hbatch]

/-- A record that passes keeps the number its call had. -/
theorem Accounted.numbers_passed (h : l.Accounted) (hcall : l.sys.calls.get caller = some ⟨record, true⟩) (n : ℕ) :
    ((l.sys.calls.delete caller).values.map (·.record.seq)).count n + ((l.passed ++ [record]).map (·.seq)).count n ≤
      if n < l.sys.log.seq then 1 else 0 := by
  have hn := h.numbers n
  have hcalls := count_calls_delete hcall n
  dsimp only at hcalls
  simp only [List.map_append, List.count_append, List.map_singleton, List.count_singleton, beq_iff_eq]
  omega

/-- **A step keeps the account.** -/
theorem accounted_next (h : l.Accounted) (e : AuditEvent F) : (l.next e).Accounted := by
  unfold next
  cases hs : l.sys.step e with
  | none => exact h
  | some sys =>
    show (l.note sys e).Accounted
    cases step_cases hs with
    | @record caller record _ hidle =>
      refine { h with numbers := fun n => ?_ }
      have hn := h.numbers n
      have hcalls := count_calls_put ⟨{ record with seq := l.sys.log.seq }, false⟩ hidle n
      show _ + _ ≤ if n < l.sys.log.seq + 1 then 1 else 0
      dsimp only [note] at hcalls ⊢
      split_ifs at hn hcalls ⊢ <;> omega
    | @stamp caller now record hcall =>
      refine { h with numbers := fun n => ?_ }
      have hn := h.numbers n
      have hcalls := count_calls_stamp hcall now n
      show _ + _ ≤ if n < l.sys.log.seq then 1 else 0
      dsimp only [note]
      omega
    | drop hcall =>
      rw [note_drop hcall]
      classical
      refine { h with places := ?_, numbers := h.numbers_passed hcall, dropped := by simp [h.dropped] }
      refine List.perm_iff_count.mpr fun r => ?_
      have hr := h.places.count_eq r
      simp only [inFlushes, List.count_append] at hr ⊢
      omega
    | keep hcall =>
      rw [note_keep hcall]
      classical
      refine { h with places := List.perm_iff_count.mpr fun r => ?_, numbers := h.numbers_passed hcall }
      have hr := h.places.count_eq r
      simp only [inFlushes, List.count_append] at hr ⊢
      omega
    | take hidle =>
      classical
      refine { h with places := List.perm_iff_count.mpr fun r => ?_ }
      have hr := h.places.count_eq r
      have hflushes := (flushes_put_perm l.sys.log.buffer hidle).count_eq r
      simp only [note, inFlushes, List.count_append, List.count_nil] at hr hflushes ⊢
      omega
    | @commit caller now batch hbatch =>
      rw [note_commit hbatch]
      refine { h with places := ?_, rows := Accounted.rows_of_prune (h.rows_of_batch hbatch), removed := ?_ }
      · classical
        refine List.perm_iff_count.mpr fun r => ?_
        have hr := h.places.count_eq r
        have hflushes := (flushes_perm_of_get hbatch).count_eq r
        simp only [inFlushes, List.count_append] at hr hflushes ⊢
        omega
      · exact List.append_subset.mpr ⟨List.subset_append_of_subset_left _ h.removed, List.filter_subset_self _⟩
    | fail hbatch =>
      rw [note_fail hbatch]
      classical
      refine { h with places := List.perm_iff_count.mpr fun r => ?_ }
      have hr := h.places.count_eq r
      have hflushes := (flushes_perm_of_get hbatch).count_eq r
      simp only [inFlushes, List.count_append] at hr hflushes ⊢
      omega
    | prune =>
      exact { h with
        rows := Accounted.rows_of_prune h.rows
        removed := List.append_subset.mpr ⟨h.removed, List.filter_subset_self _⟩ }
    | failPrune =>
      have hnone : prunedOf l.written l.sys.stored l.sys.stored = [] := by
        refine List.filter_eq_nil_iff.mpr fun record _ => ?_
        cases l.sys.stored.get record.key <;> simp
      simp only [note, hnone, List.append_nil]
      exact h
    | reopen => exact accounted_start _ _

/-- **Records are lost by the failure of a flush that has taken them, and only
so.** -/
theorem lost_next_iff (l : AuditLedger F) {e : AuditEvent F} (hlife : ∀ config, e ≠ .reopen config) :
    (l.next e).lost = [] ↔ l.lost = [] ∧ ¬l.LosesBatch e := by
  have hother (hne : ∀ caller now, e ≠ .commit caller now true) (hkeep : (l.next e).lost = l.lost) :
      (l.next e).lost = [] ↔ l.lost = [] ∧ ¬l.LosesBatch e := by
    rw [hkeep, iff_self_and]
    rintro - ⟨caller, now, he, -⟩
    exact hne caller now he
  unfold next at hother ⊢
  cases e with
  | commit caller now fails =>
    cases fails with
    | false =>
      refine hother (by simp) ?_
      cases hs : l.sys.step (.commit caller now false) <;> rfl
    | true =>
      cases hbatch : l.sys.flushes.get caller with
      | none => simp [step, LosesBatch, hbatch]
      | some batch => simp [step, LosesBatch, note, hbatch]
  | reopen config => exact absurd rfl (hlife config)
  | record caller record =>
    refine hother (by simp) ?_
    cases hs : l.sys.step (.record caller record) <;> rfl
  | stamp caller now =>
    refine hother (by simp) ?_
    cases hs : l.sys.step (.stamp caller now) <;> rfl
  | push caller =>
    refine hother (by simp) ?_
    cases hs : l.sys.step (.push caller) <;> rfl
  | take caller =>
    refine hother (by simp) ?_
    cases hs : l.sys.step (.take caller) <;> rfl
  | prune maxEntries cutoff fails =>
    refine hother (by simp) ?_
    cases hs : l.sys.step (.prune maxEntries cutoff fails) <;> rfl

/-- Between flushes, records are conserved if none is lost. -/
theorem conserved_iff_lost (h : l.Accounted) (hidle : l.sys.flushes = OrderedTable.empty) :
    l.Conserved ↔ l.lost = [] := by
  have hnone : l.sys.inFlushes = [] := by
    rw [inFlushes, hidle]
    rfl
  have hplaces {record} : record ∈ l.passed ↔
      record ∈ l.sys.log.buffer ∨ record ∈ l.written ∨ record ∈ l.rejected ∨ record ∈ l.lost := by
    rw [h.places.mem_iff, hnone]
    simp
  constructor
  · rintro ⟨-, hfates⟩
    refine List.eq_nil_iff_forall_not_mem.mpr fun record hlost => ?_
    obtain ⟨hbuffer, hwritten, hrejected⟩ := (h.apart record).2.2.2 hlost
    obtain ⟨fate, hfate, -⟩ := hfates record (hplaces.mpr (Or.inr (Or.inr (Or.inr hlost))))
    cases fate with
    | buffered => exact hbuffer hfate
    | persisted => exact hwritten hfate.1
    | removed => exact hwritten (h.removed hfate)
    | dropped => exact hrejected hfate
  · intro hlost
    refine ⟨h.dropped, fun record hmem => ?_⟩
    obtain ⟨hbw, hbr, hwr, -⟩ := h.apart record
    rcases hplaces.mp hmem with hbuffer | hwritten | hrejected | hgone
    · refine ⟨.buffered, hbuffer, fun fate hfate => ?_⟩
      cases fate with
      | buffered => rfl
      | persisted => exact absurd ⟨hbuffer, hfate.1⟩ hbw
      | removed => exact absurd ⟨hbuffer, h.removed hfate⟩ hbw
      | dropped => exact absurd ⟨hbuffer, hfate⟩ hbr
    · rcases h.rows record hwritten with ⟨hrow, hremoved⟩ | ⟨hrow, hremoved⟩
      · refine ⟨.persisted, ⟨hwritten, hrow⟩, fun fate hfate => ?_⟩
        cases fate with
        | buffered => exact absurd ⟨hfate, hwritten⟩ hbw
        | persisted => rfl
        | removed => exact absurd hfate hremoved
        | dropped => exact absurd ⟨hwritten, hfate⟩ hwr
      · refine ⟨.removed, hremoved, fun fate hfate => ?_⟩
        cases fate with
        | buffered => exact absurd ⟨hfate, hwritten⟩ hbw
        | persisted => exact absurd (hfate.2.symm.trans hrow) (by simp)
        | removed => rfl
        | dropped => exact absurd ⟨hwritten, hfate⟩ hwr
    · refine ⟨.dropped, hrejected, fun fate hfate => ?_⟩
      cases fate with
      | buffered => exact absurd ⟨hfate, hrejected⟩ hbr
      | persisted => exact absurd ⟨hfate.1, hrejected⟩ hwr
      | removed => exact absurd ⟨h.removed hfate, hrejected⟩ hwr
      | dropped => rfl
    · rw [hlost] at hgone
      exact absurd hgone List.not_mem_nil

/-- What a run keeps. -/
theorem accounted_run (es : List (AuditEvent F)) (config : AuditConfig) (t : AuditTable F) :
    (es.foldl next (start config t)).Accounted :=
  (Run.foldl next es (start config t)).invariant (accounted_start config t) fun h hs => hs ▸ accounted_next h _

/-- **Records are conserved where no flush fails with a batch.** At any moment
between flushes of the life of an opened log, whatever the callers, the clock
and the retention. -/
theorem conserved_iff (config : AuditConfig) (t : AuditTable F) (es : List (AuditEvent F))
    (hlife : ∀ config, .reopen config ∉ es)
    (hidle : (es.foldl next (start config t)).sys.flushes = OrderedTable.empty) :
    (es.foldl next (start config t)).Conserved ↔
      Along (fun l e => ¬l.LosesBatch e) (fun e l => l.next e) es (start config t) := by
  have hsteps (e) (he : e ∈ es) (l : AuditLedger F) : (l.next e).lost = [] ↔ l.lost = [] ∧ ¬l.LosesBatch e :=
    lost_next_iff l fun config heq => hlife config (heq ▸ he)
  have hrun := Along.iff_foldl (P := fun l : AuditLedger F => l.lost = []) hsteps (start config t)
  rw [conserved_iff_lost (accounted_run es config t) hidle]
  exact hrun.trans (and_iff_right rfl)

/-- One read, up to the moment when a flush has taken its record. -/
def readTaken : List (AuditEvent ℚ) := [.record 0 (readAt 0 0 "ada"), .stamp 0 10, .push 0, .take 0]

theorem conserved_of_commit :
    ((readTaken ++ [AuditEvent.commit 0 10 false]).foldl next (start .standard OrderedTable.empty)).Conserved := by
  have hidle : ((readTaken ++ [AuditEvent.commit 0 10 false]).foldl next
      (start .standard OrderedTable.empty)).sys.flushes = OrderedTable.empty := by
    rfl
  have hlife : ∀ config, .reopen config ∉ readTaken ++ [AuditEvent.commit 0 10 false] := by simp [readTaken]
  have hiff := conserved_iff .standard OrderedTable.empty _ hlife hidle
  exact hiff.mpr (Along.of_forall (by simp [readTaken, LosesBatch]) _)

/-- When the transaction fails the record is nowhere, and counted nowhere. -/
theorem not_conserved : ¬∀ (config : AuditConfig) (t : AuditTable ℚ) (es : List (AuditEvent ℚ)),
    (∀ config, .reopen config ∉ es) → (es.foldl next (start config t)).sys.flushes = OrderedTable.empty →
      (es.foldl next (start config t)).Conserved := by
  intro h
  have hconserved := h .standard OrderedTable.empty (readTaken ++ [.commit 0 10 true]) (by simp [readTaken]) rfl
  obtain ⟨fate, hfate, -⟩ := hconserved.2 (readAt 10 0 "ada") (List.mem_singleton_self _)
  cases fate with
  | buffered => exact absurd hfate List.not_mem_nil
  | persisted => exact absurd hfate.1 List.not_mem_nil
  | removed => exact absurd hfate List.not_mem_nil
  | dropped => exact absurd hfate List.not_mem_nil

end AuditLedger

end HeatherDb
