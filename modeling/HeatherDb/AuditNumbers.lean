/-
# The numbers of the access log

The counter goes on from the number in the last key. The keys are in the order
of time first, so that number is the greatest only if no record with a smaller
one has a later time. A call takes its number before it reads the clock: the two
orders agree as long as no call reads a time before that of a record with a
smaller number, or after that of one with a greater number (`ReadsInOrder`).
Where the last is the greatest at every opening, a number is in one place at a
time, in memory or on disk (`Numbered`), and below the counter; where it is not,
numbers come again.

Key definitions: `copies`, `Numbered`, `readings`, `ReadsInOrder`, `KeepsNumbers`.
Key theorems: `numbered_next`, `inOrder_next`, `numbers_unique_iff`,
`numbers_unique`, `numbers_come_again`.
-/
import HeatherDb.AuditRuns

namespace HeatherDb

open OrderedTable

variable {F α : Type}

/-- The numbers on disk. -/
def storedNumbers (t : OrderedTable AuditKey α) : List ℕ := t.keys.map keySeq

/-- The record with the greatest key has the greatest number. -/
def LastIsGreatest (t : OrderedTable AuditKey α) : Prop :=
  ∀ last ∈ t.keys.getLast?, ∀ n ∈ storedNumbers t, n ≤ keySeq last

instance (t : OrderedTable AuditKey α) : Decidable (LastIsGreatest t) := by
  unfold LastIsGreatest
  infer_instance

/-- The key that a record is stored under. -/
def AuditRecord.key (record : AuditRecord F) : AuditKey := auditKey record.timestampMs record.seq

/-- A step keeps numbers unique: an opening resumes above all that are on disk,
an append overwrites nothing, and no number is on disk twice. -/
def KeepsNumbers (s : AuditSystem F) (e : AuditEvent F) : Prop :=
  (∀ config, e = .reopen config → ∀ n ∈ storedNumbers s.stored, n < (s.next e).log.seq) ∧
    (∀ caller now, e = .commit caller now false → ∀ batch ∈ s.flushes.get caller,
      (batch.map AuditRecord.key).Nodup ∧ ∀ record ∈ batch, s.stored.get record.key = none) ∧
    (storedNumbers (s.next e).stored).Nodup

namespace AuditSystem

/-- How many records have a number, in memory and on disk. -/
def copies (s : AuditSystem F) (n : ℕ) : ℕ :=
  (s.calls.values.map (·.record.seq)).count n + (s.log.buffer.map (·.seq)).count n + (s.inFlushes.map (·.seq)).count n +
    (storedNumbers s.stored).count n

/-- A number below the counter is in one place at most, and one above in none. -/
def Numbered (s : AuditSystem F) : Prop := ∀ n, s.copies n ≤ if n < s.log.seq then 1 else 0

end AuditSystem

/-! ### What is on disk -/

theorem storedNumbers_pruneAudit (maxEntries minTs : ℕ) (t : OrderedTable AuditKey α) :
    (storedNumbers (pruneAudit maxEntries minTs t).2).Sublist (storedNumbers t) :=
  ((pruneAudit_sublist maxEntries minTs t).map Prod.fst).map keySeq

/-- A flush brings the numbers of its batch to disk. -/
theorem count_storedNumbers_flush (c : AuditConfig) (now : ℕ) (batch : List (AuditRecord F))
    (t : AuditTable F) (n : ℕ) :
    (storedNumbers (c.flush now batch t)).count n ≤ (batch.map (·.seq)).count n + (storedNumbers t).count n := by
  obtain ⟨keys, hkeys, hsub⟩ := keys_putAll_subperm (batchRows batch) t
  calc (storedNumbers (c.flush now batch t)).count n
      ≤ (storedNumbers (putAll (batchRows batch) t)).count n := (storedNumbers_pruneAudit _ _ _).count_le n
    _ = (keys.map keySeq).count n := ((hkeys.map keySeq).count_eq n).symm
    _ ≤ (((batchRows batch).map (·.1) ++ t.keys).map keySeq).count n := (hsub.map keySeq).count_le n
    _ = (batch.map (·.seq)).count n + (storedNumbers t).count n := by
        rw [List.map_append, List.count_append, batchRows, List.map_map, List.map_map]
        rfl

/-! ### The invariant -/

namespace AuditSystem

theorem numbered_opened {config : AuditConfig} {t : AuditTable F} (hnodup : (storedNumbers t).Nodup)
    (hbelow : ∀ n ∈ storedNumbers t, n < (opened config t).log.seq) : Numbered (opened config t) := by
  intro n
  show 0 + 0 + 0 + (storedNumbers t).count n ≤ if n < (opened config t).log.seq then 1 else 0
  by_cases hn : n ∈ storedNumbers t
  · rw [if_pos (hbelow n hn), List.count_eq_one_of_mem hnodup hn]
  · rw [List.count_eq_zero_of_not_mem hn]
    omega

/-- The counter resumes above all that are on disk when the last is the
greatest. -/
theorem below_openOn_iff (config : AuditConfig) (t : AuditTable F) :
    (∀ n ∈ storedNumbers t, n < (AuditLog.openOn config t).seq) ↔ LastIsGreatest t := by
  unfold LastIsGreatest AuditLog.openOn lastAuditSeq
  cases hlast : t.keys.getLast? with
  | none =>
    have hempty : storedNumbers t = [] := by rw [storedNumbers, List.getLast?_eq_none_iff.mp hlast, List.map_nil]
    simp [hempty]
  | some last => simp [Nat.lt_succ_iff]

theorem Numbered.copies_le {s : AuditSystem F} (h : s.Numbered) (n : ℕ) : s.copies n ≤ 1 :=
  (h n).trans (by split_ifs <;> omega)

theorem Numbered.nodup {s : AuditSystem F} (h : s.Numbered) : (storedNumbers s.stored).Nodup :=
  List.nodup_iff_count_le_one.mpr fun n => (Nat.le_add_left _ _).trans (h.copies_le n)

/-- **A number is in one place at a time.** -/
theorem numbered_next {s : AuditSystem F} {e : AuditEvent F} (h : s.Numbered)
    (hopen : ∀ config, e = .reopen config → LastIsGreatest s.stored) : (s.next e).Numbered := by
  refine next_induction e h fun s' hs n => ?_
  have hn := h n
  unfold copies inFlushes at hn ⊢
  cases hs with
  | @record caller record _ hidle =>
    have hcalls := count_calls_put ⟨{ record with seq := s.log.seq }, false⟩ hidle n
    dsimp only at hcalls ⊢
    -- the number taken was in no place before
    split_ifs at hn hcalls ⊢ <;> omega
  | @stamp caller now record hcall =>
    have hcalls := count_calls_stamp hcall now n
    dsimp only
    omega
  | drop hcall =>
    have hcalls := count_calls_delete hcall n
    dsimp only
    omega
  | keep hcall =>
    have hcalls := count_calls_delete hcall n
    dsimp only at hcalls ⊢
    rw [List.map_append, List.count_append, List.map_singleton, List.count_singleton]
    simp only [beq_iff_eq]
    omega
  | take hidle =>
    have hflushes := ((flushes_put_perm s.log.buffer hidle).map (·.seq)).count_eq n
    rw [List.map_append, List.count_append] at hflushes
    dsimp only
    rw [hflushes, List.map_nil, List.count_nil]
    omega
  | @commit caller now batch hbatch =>
    have hflushes := ((flushes_perm_of_get hbatch).map (·.seq)).count_eq n
    rw [List.map_append, List.count_append] at hflushes
    have hdisk := count_storedNumbers_flush s.log.config now batch s.stored n
    dsimp only
    omega
  | fail hbatch =>
    have hflushes := ((flushes_perm_of_get hbatch).map (·.seq)).count_eq n
    rw [List.map_append, List.count_append] at hflushes
    dsimp only
    omega
  | @prune maxEntries cutoff =>
    have hdisk := (storedNumbers_pruneAudit maxEntries cutoff s.stored).count_le n
    dsimp only
    omega
  | failPrune => exact hn
  | @reopen config =>
    exact numbered_opened h.nodup ((below_openOn_iff config s.stored).mpr (hopen config rfl)) n

end AuditSystem

/-! ### Clock readings -/

/-- The number of a record and its time. -/
def AuditRecord.reading (record : AuditRecord F) : ℕ × ℕ := (record.seq, record.timestampMs)

/-- Of a call that has read the clock. -/
def AuditCall.reading (call : AuditCall F) : Option (ℕ × ℕ) :=
  if call.stamped then some call.record.reading else none

def keyReading (k : AuditKey) : ℕ × ℕ := (keySeq k, keyTimestamp k)

/-- Of two readings the one with the smaller number is not the later. -/
def InOrder (readings : List (ℕ × ℕ)) : Prop := ∀ a ∈ readings, ∀ b ∈ readings, a.1 < b.1 → a.2 ≤ b.2

/-- A time between those of the numbers below and above. -/
def ReadBetween (readings : List (ℕ × ℕ)) (n now : ℕ) : Prop :=
  ∀ r ∈ readings, (r.1 < n → r.2 ≤ now) ∧ (n < r.1 → now ≤ r.2)

instance (readings : List (ℕ × ℕ)) (n now : ℕ) : Decidable (ReadBetween readings n now) := by
  unfold ReadBetween
  infer_instance

theorem InOrder.mono {rs rs' : List (ℕ × ℕ)} (h : InOrder rs) (hsub : rs' ⊆ rs) : InOrder rs' :=
  fun a ha b hb => h a (hsub ha) b (hsub hb)

theorem InOrder.cons {rs : List (ℕ × ℕ)} {n now : ℕ} (h : InOrder rs) (hnow : ReadBetween rs n now) :
    InOrder ((n, now) :: rs) := by
  intro a ha b hb hlt
  rcases List.mem_cons.mp ha with rfl | ha <;> rcases List.mem_cons.mp hb with rfl | hb
  · exact absurd hlt (lt_irrefl _)
  · exact (hnow b hb).2 hlt
  · exact (hnow a ha).1 hlt
  · exact h a ha b hb hlt

/-- Where the readings on disk are in order, the last key has the greatest
number. -/
theorem lastIsGreatest_of_inOrder {t : OrderedTable AuditKey α} (h : InOrder (t.keys.map keyReading)) :
    LastIsGreatest t := by
  intro last hlast n hn
  obtain ⟨k, hk, rfl⟩ := List.mem_map.mp hn
  obtain ⟨before, hkeys⟩ := List.getLast?_eq_some_iff.mp hlast
  have hsorted := keys_sorted t
  rw [hkeys] at hk hsorted
  rcases List.mem_append.mp hk with hbefore | hself
  · have hlt : k < last := (List.pairwise_append.mp hsorted).2.2 k hbefore last List.mem_cons_self
    by_contra! hgreater
    have hmem (k' : AuditKey) (hk' : k' ∈ before ++ [last]) : keyReading k' ∈ t.keys.map keyReading :=
      List.mem_map_of_mem (hkeys ▸ hk')
    have hback : keyTimestamp k ≤ keyTimestamp last := keyTimestamp_le hlt
    have hforth : keyTimestamp last ≤ keyTimestamp k :=
      h _ (hmem last (by simp)) _ (hmem k hk) hgreater
    -- of two keys with one time the later has the greater number
    rcases Prod.Lex.lt_iff.mp hlt with htime | ⟨_, hseq⟩
    · exact absurd hforth (not_le.mpr htime)
    · exact absurd hseq (not_lt.mpr hgreater.le)
  · rw [List.mem_singleton.mp hself]

namespace AuditSystem

/-- The readings that the log has, in calls, in the buffer, in flushes and on
disk. -/
def readings (s : AuditSystem F) : List (ℕ × ℕ) :=
  s.calls.values.filterMap AuditCall.reading ++ s.log.buffer.map AuditRecord.reading ++
    s.inFlushes.map AuditRecord.reading ++ s.stored.keys.map keyReading

/-- A call that reads the clock reads a time in the order of the numbers. -/
def ReadsInOrder (s : AuditSystem F) : AuditEvent F → Prop
  | .stamp caller now =>
    ∀ call ∈ s.calls.get caller, call.stamped = false → ReadBetween s.readings call.record.seq now
  | _ => True

instance (s : AuditSystem F) : DecidablePred s.ReadsInOrder := fun e => by
  unfold ReadsInOrder
  cases e <;> infer_instance

theorem mem_readings {s : AuditSystem F} {r : ℕ × ℕ} :
    r ∈ s.readings ↔ (∃ call ∈ s.calls.values, call.reading = some r) ∨ (∃ record ∈ s.log.buffer, record.reading = r) ∨
      (∃ record ∈ s.inFlushes, record.reading = r) ∨ ∃ k ∈ s.stored.keys, keyReading k = r := by
  simp only [readings, List.mem_append, List.mem_filterMap, List.mem_map, or_assoc]

/-- A flush brings the readings of its batch to disk. -/
theorem mem_keys_flush {c : AuditConfig} {now : ℕ} {batch : List (AuditRecord F)} {t : AuditTable F} {k : AuditKey}
    (h : k ∈ (c.flush now batch t).keys) : (∃ record ∈ batch, record.reading = keyReading k) ∨ k ∈ t.keys := by
  obtain ⟨keys, hperm, hsub⟩ := keys_putAll_subperm (batchRows batch) t
  have hput : k ∈ (putAll (batchRows batch) t).keys := ((pruneAudit_sublist _ _ _).map Prod.fst).subset h
  have hmem : k ∈ (batchRows batch).map (·.1) ++ t.keys := hsub.subset (hperm.symm.subset hput)
  rcases List.mem_append.mp hmem with hbatch | hold
  · rw [batchRows, List.map_map] at hbatch
    obtain ⟨record, hrecord, rfl⟩ := List.mem_map.mp hbatch
    exact .inl ⟨record, hrecord, rfl⟩
  · exact .inr hold

/-- The only new reading of a step is that of a call that reads the clock. -/
theorem inOrder_next {s : AuditSystem F} {e : AuditEvent F} (h : InOrder s.readings) (hread : s.ReadsInOrder e) :
    InOrder (s.next e).readings := by
  refine next_induction (P := fun s => InOrder s.readings) e h fun s' hs => ?_
  cases hs with
  | @record caller record _ hidle =>
    refine h.mono fun r hr => ?_
    rw [mem_readings] at hr ⊢
    refine hr.imp_left ?_
    rintro ⟨call, hcall, hreading⟩
    rcases List.mem_cons.mp ((values_put_perm _ _ _).subset hcall) with rfl | hcall
    · cases hreading
    · rw [delete_of_get_none hidle] at hcall
      exact ⟨call, hcall, hreading⟩
  | @stamp caller now record hcall =>
    refine (h.cons (hread ⟨record, false⟩ hcall rfl)).mono fun r hr => ?_
    rw [mem_readings] at hr
    rw [List.mem_cons, mem_readings]
    rcases hr with ⟨call, hmem, hreading⟩ | hr
    · rcases List.mem_cons.mp ((values_put_perm _ _ _).subset hmem) with rfl | hmem
      · exact .inl (Option.some.inj hreading).symm
      · exact .inr (.inl ⟨call, (values_perm_of_get hcall).symm.subset (List.mem_cons_of_mem _ hmem), hreading⟩)
    · exact .inr (.inr hr)
  | @drop caller record hcall _ =>
    refine h.mono fun r hr => ?_
    rw [mem_readings] at hr ⊢
    refine hr.imp_left ?_
    rintro ⟨call, hmem, hreading⟩
    exact ⟨call, (values_perm_of_get hcall).symm.subset (List.mem_cons_of_mem _ hmem), hreading⟩
  | @keep caller record hcall _ =>
    refine h.mono fun r hr => ?_
    have hcalls := (values_perm_of_get hcall).symm.subset
    rw [mem_readings] at hr ⊢
    rcases hr with ⟨call, hmem, hreading⟩ | ⟨record', hmem, hreading⟩ | hr
    · exact .inl ⟨call, hcalls (List.mem_cons_of_mem _ hmem), hreading⟩
    · rcases List.mem_append.mp hmem with hmem | hmem
      · exact .inr (.inl ⟨record', hmem, hreading⟩)
      · -- the record of the call, which had read the clock
        cases List.mem_singleton.mp hmem
        exact .inl ⟨_, hcalls List.mem_cons_self, congrArg some hreading⟩
    · exact .inr (.inr hr)
  | take hidle =>
    refine h.mono fun r hr => ?_
    rw [mem_readings] at hr ⊢
    rcases hr with hr | ⟨record, hmem, _⟩ | ⟨record, hmem, hreading⟩ | hr
    · exact .inl hr
    · cases hmem
    · rcases List.mem_append.mp ((flushes_put_perm s.log.buffer hidle).subset hmem) with hmem | hmem
      · exact .inr (.inl ⟨record, hmem, hreading⟩)
      · exact .inr (.inr (.inl ⟨record, hmem, hreading⟩))
    · exact .inr (.inr (.inr hr))
  | @commit caller now batch hbatch =>
    refine h.mono fun r hr => ?_
    have hflushes := (flushes_perm_of_get hbatch).symm.subset
    rw [mem_readings] at hr ⊢
    rcases hr with hr | hr | ⟨record, hmem, hreading⟩ | ⟨k, hk, hreading⟩
    · exact .inl hr
    · exact .inr (.inl hr)
    · exact .inr (.inr (.inl ⟨record, hflushes (List.mem_append_right _ hmem), hreading⟩))
    · rcases mem_keys_flush hk with ⟨record, hrecord, hkey⟩ | hold
      · exact .inr (.inr (.inl ⟨record, hflushes (List.mem_append_left _ hrecord), hkey.trans hreading⟩))
      · exact .inr (.inr (.inr ⟨k, hold, hreading⟩))
  | fail hbatch =>
    refine h.mono fun r hr => ?_
    rw [mem_readings] at hr ⊢
    rcases hr with hr | hr | ⟨record, hmem, hreading⟩ | hr
    · exact .inl hr
    · exact .inr (.inl hr)
    · have hold := (flushes_perm_of_get hbatch).symm.subset (List.mem_append_right _ hmem)
      exact .inr (.inr (.inl ⟨record, hold, hreading⟩))
    · exact .inr (.inr (.inr hr))
  | prune =>
    refine h.mono fun r hr => ?_
    rw [mem_readings] at hr ⊢
    refine hr.imp_right (.imp_right (.imp_right ?_))
    rintro ⟨k, hk, hreading⟩
    exact ⟨k, ((pruneAudit_sublist _ _ _).map Prod.fst).subset hk, hreading⟩
  | failPrune => exact h
  | reopen =>
    -- what was in memory is gone
    refine h.mono fun r hr => ?_
    rw [mem_readings] at hr ⊢
    rcases hr with ⟨_, hmem, _⟩ | ⟨_, hmem, _⟩ | ⟨_, hmem, _⟩ | hr
    · cases hmem
    · cases hmem
    · cases hmem
    · exact .inr (.inr (.inr hr))

/-- The readings on disk are among those that the log has. -/
theorem lastIsGreatest_stored {s : AuditSystem F} (h : InOrder s.readings) : LastIsGreatest s.stored :=
  lastIsGreatest_of_inOrder (h.mono (List.subset_append_right _ _))

end AuditSystem

/-! ### The claim about histories -/

open AuditSystem

/-- An append of numbers in one place at a time overwrites nothing. -/
theorem append_fresh {s : AuditSystem F} (h : s.Numbered) {caller : ℕ} {batch : List (AuditRecord F)}
    (hbatch : s.flushes.get caller = some batch) :
    (batch.map AuditRecord.key).Nodup ∧ ∀ record ∈ batch, s.stored.get record.key = none := by
  have hplaces (n : ℕ) : (batch.map (·.seq)).count n + (storedNumbers s.stored).count n ≤ 1 := by
    have hflushes := ((flushes_perm_of_get hbatch).map (·.seq)).count_eq n
    rw [List.map_append, List.count_append] at hflushes
    have hcopies := h.copies_le n
    unfold copies inFlushes at hcopies
    omega
  constructor
  · have hseqs : (batch.map (·.seq)).Nodup := List.nodup_iff_count_le_one.mpr fun n => by
      have hn := hplaces n
      omega
    have hkeys : ((batch.map AuditRecord.key).map keySeq).Nodup := by
      rw [List.map_map]
      exact hseqs
    exact hkeys.of_map _
  · intro record hmem
    rw [get_eq_none_iff]
    intro hkey
    have hbatch : 0 < (batch.map (·.seq)).count record.seq :=
      List.count_pos_iff.mpr (List.mem_map_of_mem hmem)
    have hstored : 0 < (storedNumbers s.stored).count record.seq :=
      List.count_pos_iff.mpr (List.mem_map_of_mem (f := keySeq) hkey)
    have hone := hplaces record.seq
    omega

/-- Numbers are unique if and only if every opening finds the greatest one
last. -/
theorem numbers_unique_iff (config : AuditConfig) (es : List (AuditEvent F)) :
    Along KeepsNumbers (fun e s => s.next e) es (opened config OrderedTable.empty) ↔
      Along (fun s e => ∀ config, e = .reopen config → LastIsGreatest s.stored) (fun e s => s.next e) es
        (opened config OrderedTable.empty) := by
  constructor
  · refine Along.mono fun s e h config he => ?_
    subst he
    exact (below_openOn_iff config s.stored).mp (h.1 config rfl)
  · have hstart : (opened config (OrderedTable.empty : AuditTable F)).Numbered :=
      numbered_opened List.nodup_nil fun n hn => absurd hn List.not_mem_nil
    refine Along.invariant (P := Numbered) (fun {s e} hs hopen => ?_) hstart
    have hnext : (s.next e).Numbered := numbered_next hs hopen
    refine ⟨⟨?_, ?_, hnext.nodup⟩, hnext⟩
    · intro config he
      subst he
      exact (below_openOn_iff config s.stored).mpr (hopen config rfl)
    · intro caller now _ batch hbatch
      exact append_fresh hs hbatch

/-- **Numbers are unique as long as the clock is read in their order.** Over
every history of a log from its first opening, whatever the interleaving of its
callers. -/
theorem numbers_unique (config : AuditConfig) (es : List (AuditEvent F))
    (h : Along ReadsInOrder (fun e s => s.next e) es (opened config OrderedTable.empty)) :
    Along KeepsNumbers (fun e s => s.next e) es (opened config OrderedTable.empty) := by
  refine (numbers_unique_iff config es).mpr (h.invariant (P := fun s => InOrder s.readings) ?_ ?_)
  · intro s e hs hread
    exact ⟨fun _ _ => lastIsGreatest_stored hs, inOrder_next hs hread⟩
  · intro a ha
    cases ha

/-- Two calls take the numbers 0 and 1 and read the clock the other way round;
after a flush the log is opened again, and a third call follows a clock set
back. -/
def turnedRound : List (AuditEvent ℚ) :=
  [.record 0 (readAt 0 0 "ada"), .record 1 (readAt 0 0 "bob"), .stamp 1 10, .stamp 0 20, .push 0, .push 1, .take 0,
    .commit 0 20 false, .reopen .standard, .record 0 (readAt 0 0 "eve"), .stamp 0 10, .push 0, .take 0,
      .commit 0 20 false]

/-- The clock stands still for the two calls, and again for a third after the
log was opened again; caller 1 comes to the buffer first. -/
def orderlyRound : List (AuditEvent ℚ) :=
  [.record 0 (readAt 0 0 "ada"), .record 1 (readAt 0 0 "bob"), .stamp 1 10, .stamp 0 10, .push 1, .push 0, .take 0,
    .commit 0 20 false, .reopen .standard, .record 0 (readAt 0 0 "eve"), .stamp 0 10, .push 0, .take 0,
      .commit 0 20 false]

theorem numbers_unique_orderly :
    Along KeepsNumbers (fun e s => s.next e) orderlyRound (opened .standard OrderedTable.empty) ∧
      storedNumbers (orderlyRound.foldl AuditSystem.next (opened .standard OrderedTable.empty)).stored = [0, 1, 2] :=
  ⟨numbers_unique _ _ (by decide +kernel), by decide +kernel⟩

/-- The log goes on from number 1, which bob's record has. -/
theorem numbers_come_again : ¬∀ (config : AuditConfig) (es : List (AuditEvent ℚ)),
    Along KeepsNumbers (fun e s => s.next e) es (opened config OrderedTable.empty) := by
  intro h
  have hrun := h .standard turnedRound
  have hopening : 1 < 1 := hrun.2.2.2.2.2.2.2.2.1.1 .standard rfl 1 (by decide +kernel)
  exact absurd hopening (lt_irrefl 1)

end HeatherDb
