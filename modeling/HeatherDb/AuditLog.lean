/-
# Retention and paging of the access log

`AuditLog::flush` and `AuditLog::query` with the walks of `store.rs` under
them. Pruning walks from the oldest record: it dooms as many as are too many,
then those too old, and stops at the first that is neither. A query walks from
the newest: a row outside of the window counts as scanned, the walk ends at the
first row before the window, and the limit is looked at after a row is taken.

What is left is the newest records that are not too old (`entries_pruneAudit`),
and what is found is the first rows that match among the newest scanned
(`query_eq`).

Key definitions: `pruneAudit`, `scanAuditDesc`, `AuditConfig.flush`,
`AuditQuery.run`.
Key theorems: `entries_pruneAudit`, `query_eq`, `retention_and_paging_exact`.
-/
import HeatherDb.Audit
import Mathlib.Data.List.DropRight

namespace HeatherDb

open OrderedTable

variable {F α β : Type}

/-! ### The store -/

/-- The keys that pruning deletes, from the oldest on. -/
def doomed (minTs : ℕ) : ℕ → List AuditKey → List AuditKey
  | _, [] => []
  | excess, k :: ks =>
    if 0 < excess then k :: doomed minTs (excess - 1) ks
    else if 0 < minTs ∧ keyTimestamp k < minTs then k :: doomed minTs excess ks
    else []

/-- `Store::prune_audit`: how many records were removed, and what is left. -/
def pruneAudit (maxEntries minTs : ℕ) (t : OrderedTable AuditKey α) : ℕ × OrderedTable AuditKey α :=
  let excess := t.entries.length - maxEntries
  if excess = 0 ∧ minTs = 0 then (0, t)
  else ((doomed minTs excess t.keys).length, deleteAll (doomed minTs excess t.keys) t)

/-- The walk of `Store::scan_audit_desc` over the rows to come. `visit` says
whether to go on. -/
def scanRows (sinceMs untilMs : Option ℕ) (maxScan : ℕ) (visit : β → α → β × Bool) : ℕ → List (AuditKey × α) → β → β
  | _, [], b => b
  | scanned, row :: rows, b =>
    if maxScan < scanned + 1 then b
    else if untilMs.any (· < keyTimestamp row.1) then scanRows sinceMs untilMs maxScan visit (scanned + 1) rows b
    else if sinceMs.any (keyTimestamp row.1 < ·) then b
    else
      match visit b row.2 with
      | (b, true) => scanRows sinceMs untilMs maxScan visit (scanned + 1) rows b
      | (b, false) => b

def scanAuditDesc (sinceMs untilMs : Option ℕ) (maxScan : ℕ) (visit : β → α → β × Bool) (t : OrderedTable AuditKey α)
    (b : β) : β :=
  scanRows sinceMs untilMs maxScan visit 0 t.entries.reverse b

/-! ### The log -/

/-- The age bound of a flush. -/
def AuditConfig.minTs (c : AuditConfig) (now : ℕ) : ℕ := c.retentionMs.elim 0 (now - ·)

/-- The rows that a batch is written to. -/
def batchRows (batch : List (AuditRecord F)) : List (AuditKey × Option (AuditRecord F)) :=
  batch.map fun rec => (auditKey rec.timestampMs rec.seq, some rec)

/-- What the transaction of a flush leaves; one of an empty buffer only prunes. -/
def AuditConfig.flush (c : AuditConfig) (now : ℕ) (batch : List (AuditRecord F)) (t : AuditTable F) : AuditTable F :=
  (pruneAudit c.maxEntries (c.minTs now) (putAll (batchRows batch) t)).2

/-- What a query does with a row: one that does not decode is skipped. -/
def AuditQuery.visit (q : AuditQuery) (out : List (AuditRecord F)) :
    Option (AuditRecord F) → List (AuditRecord F) × Bool
  | some rec =>
    if q.selects rec then (out ++ [rec], decide ((out ++ [rec]).length < q.limit)) else (out, true)
  | none => (out, true)

/-- `AuditLog::query` -/
def AuditQuery.run (q : AuditQuery) (t : AuditTable F) : List (AuditRecord F) :=
  scanAuditDesc q.sinceMs q.untilMs q.maxScan q.visit t []

/-! ### Pruning -/

/-- Time in the order of the keys. -/
theorem timestamps_sorted (t : OrderedTable AuditKey α) :
    t.entries.Pairwise fun x y => keyTimestamp x.1 ≤ keyTimestamp y.1 :=
  t.sorted.imp keyTimestamp_le

theorem doomed_zero (minTs : ℕ) : ∀ ks : List AuditKey,
    doomed minTs 0 ks = ks.takeWhile fun k => decide (keyTimestamp k < minTs)
  | [] => rfl
  | k :: ks => by
    rw [doomed, if_neg (lt_irrefl 0), List.takeWhile_cons]
    by_cases hold : keyTimestamp k < minTs
    · rw [if_pos ⟨by omega, hold⟩, if_pos (by simpa using hold), doomed_zero minTs ks]
    · rw [if_neg fun h => hold h.2, if_neg (by simpa using hold)]

/-- Pruning dooms the first keys: those too many, then those too old. -/
theorem doomed_eq (minTs : ℕ) : ∀ (excess : ℕ) (ks : List AuditKey),
    doomed minTs excess ks =
      ks.take excess ++ (ks.drop excess).takeWhile fun k => decide (keyTimestamp k < minTs)
  | 0, ks => by simpa using doomed_zero minTs ks
  | _ + 1, [] => by simp [doomed]
  | excess + 1, k :: ks => by
    rw [doomed, if_pos (Nat.succ_pos excess), Nat.add_sub_cancel, doomed_eq minTs excess ks]
    rfl

/-- In a list in the order of time, the rows before a time are the first. -/
theorem dropWhile_eq_filter {minTs : ℕ} : ∀ {rows : List (AuditKey × α)},
    (rows.Pairwise fun x y => keyTimestamp x.1 ≤ keyTimestamp y.1) →
    rows.dropWhile (fun row => decide (keyTimestamp row.1 < minTs)) =
      rows.filter fun row => decide (minTs ≤ keyTimestamp row.1)
  | [], _ => rfl
  | row :: rows, h => by
    obtain ⟨hrow, hrows⟩ := List.pairwise_cons.mp h
    rw [List.dropWhile_cons, List.filter_cons]
    by_cases hold : keyTimestamp row.1 < minTs
    · rw [if_pos (by simpa using hold), if_neg (by simpa using hold)]
      exact dropWhile_eq_filter hrows
    · have hkept : ∀ row' ∈ rows, decide (minTs ≤ keyTimestamp row'.1) = true := fun row' hmem =>
        decide_eq_true ((not_lt.mp hold).trans (hrow row' hmem))
      rw [if_neg (by simpa using hold), if_pos (by simpa using hold), List.filter_eq_self.mpr hkept]

theorem drop_length_takeWhile (p : α → Bool) (rows : List α) :
    rows.drop (rows.takeWhile p).length = rows.dropWhile p := by
  calc rows.drop (rows.takeWhile p).length
      = (rows.takeWhile p ++ rows.dropWhile p).drop (rows.takeWhile p).length := by rw [List.takeWhile_append_dropWhile]
    _ = rows.dropWhile p := List.drop_left

/-- **Pruning keeps those of the newest `maxEntries` that are not too old.** -/
theorem entries_pruneAudit (maxEntries minTs : ℕ) (t : OrderedTable AuditKey α) :
    (pruneAudit maxEntries minTs t).2.entries =
      (t.entries.rtake maxEntries).filter fun row => decide (minTs ≤ keyTimestamp row.1) := by
  have hdoomed : (deleteAll (doomed minTs (t.entries.length - maxEntries) t.keys) t).entries =
      (t.entries.rtake maxEntries).filter fun row => decide (minTs ≤ keyTimestamp row.1) := by
    set excess := t.entries.length - maxEntries
    set old := (t.keys.drop excess).takeWhile fun k => decide (keyTimestamp k < minTs)
    -- the doomed keys are the first ones, so what is left is a suffix
    have hfirst : doomed minTs excess t.keys = t.keys.take (excess + old.length) := by
      rw [doomed_eq, List.take_add, ← List.prefix_iff_eq_take.mp (List.takeWhile_prefix _)]
    have hold : old = ((t.entries.drop excess).takeWhile fun row => decide (keyTimestamp row.1 < minTs)).map (·.1) := by
      calc old = ((t.entries.drop excess).map (·.1)).takeWhile fun k => decide (keyTimestamp k < minTs) := by
            rw [List.map_drop]
            rfl
        _ = _ := List.takeWhile_map
    have hlater : (t.entries.drop excess).Pairwise fun x y => keyTimestamp x.1 ≤ keyTimestamp y.1 :=
      (timestamps_sorted t).sublist (List.drop_sublist _ _)
    calc (deleteAll (doomed minTs excess t.keys) t).entries
        = (t.entries.drop excess).drop old.length := by rw [hfirst, entries_deleteAll_take, List.drop_drop]
      _ = (t.entries.drop excess).dropWhile fun row => decide (keyTimestamp row.1 < minTs) := by
          rw [hold, List.length_map, drop_length_takeWhile]
      _ = (t.entries.rtake maxEntries).filter fun row => decide (minTs ≤ keyTimestamp row.1) :=
          dropWhile_eq_filter hlater
  unfold pruneAudit
  dsimp only
  split_ifs with hnone
  · obtain ⟨hall, rfl⟩ := hnone
    simp [List.rtake, hall]
  · exact hdoomed

/-! ### Queries -/

/-- The record of a row in the time window of a query, if it is selected. -/
def AuditQuery.hit (q : AuditQuery) (row : AuditKey × Option (AuditRecord F)) : Option (AuditRecord F) :=
  if q.sinceMs.all (· ≤ keyTimestamp row.1) && q.untilMs.all (keyTimestamp row.1 ≤ ·) then row.2.filter q.selects
  else none

/-- A row after the window is no hit. -/
theorem AuditQuery.hit_of_late {q : AuditQuery} {row : AuditKey × Option (AuditRecord F)}
    (h : q.untilMs.any (· < keyTimestamp row.1) = true) : q.hit row = none := by
  unfold hit
  cases huntil : q.untilMs with
  | none => simp [huntil] at h
  | some limit =>
    have hlate : ¬keyTimestamp row.1 ≤ limit := by simpa [huntil] using h
    simp [hlate]

/-- A row before the window is no hit. -/
theorem AuditQuery.hit_of_early {q : AuditQuery} {row : AuditKey × Option (AuditRecord F)}
    (h : q.sinceMs.any (keyTimestamp row.1 < ·) = true) : q.hit row = none := by
  unfold hit
  cases hsince : q.sinceMs with
  | none => simp [hsince] at h
  | some limit =>
    have hearly : ¬limit ≤ keyTimestamp row.1 := by simpa [hsince] using h
    simp [hearly]

theorem AuditQuery.hit_of_window {q : AuditQuery} {row : AuditKey × Option (AuditRecord F)}
    (huntil : ¬q.untilMs.any (· < keyTimestamp row.1) = true)
    (hsince : ¬q.sinceMs.any (keyTimestamp row.1 < ·) = true) :
    q.hit row = row.2.filter q.selects := by
  unfold hit
  rw [if_pos]
  cases hs : q.sinceMs <;> cases hu : q.untilMs <;> simp_all

/-- Before a row that is before the window, all are. -/
theorem AuditQuery.hits_of_early {q : AuditQuery} {row : AuditKey × Option (AuditRecord F)}
    {rows : List (AuditKey × Option (AuditRecord F))} (h : q.sinceMs.any (keyTimestamp row.1 < ·) = true)
    (hsorted : ∀ row' ∈ rows, keyTimestamp row'.1 ≤ keyTimestamp row.1) (n : ℕ) :
    (rows.take n).filterMap q.hit = [] := by
  refine List.filterMap_eq_nil_iff.mpr fun row' hmem => hit_of_early ?_
  cases hsince : q.sinceMs with
  | none => simp [hsince] at h
  | some limit =>
    have hlt : keyTimestamp row.1 < limit := by simpa [hsince] using h
    have hle := hsorted row' (List.mem_of_mem_take hmem)
    simp only [Option.any_some, decide_eq_true_eq]
    omega

/-- The walk from the newest row finds the first hits among those it may
examine. -/
theorem scanRows_eq (q : AuditQuery) : ∀ {rows : List (AuditKey × Option (AuditRecord F))} {scanned : ℕ}
    {out : List (AuditRecord F)}, (rows.Pairwise fun x y => keyTimestamp y.1 ≤ keyTimestamp x.1) →
      out.length < q.limit →
    scanRows q.sinceMs q.untilMs q.maxScan q.visit scanned rows out =
      (out ++ (rows.take (q.maxScan - scanned)).filterMap q.hit).take q.limit
  | [], scanned, out, _, hroom => by
    rw [scanRows, List.take_nil, List.filterMap_nil, List.append_nil, List.take_of_length_le hroom.le]
  | row :: rows, scanned, out, hsorted, hroom => by
    obtain ⟨hrow, hrows⟩ := List.pairwise_cons.mp hsorted
    rw [scanRows]
    by_cases hspent : q.maxScan < scanned + 1
    · have hzero : q.maxScan - scanned = 0 := by omega
      rw [if_pos hspent, hzero, List.take_zero, List.filterMap_nil, List.append_nil, List.take_of_length_le hroom.le]
    have hbudget : q.maxScan - scanned = q.maxScan - (scanned + 1) + 1 := by omega
    rw [if_neg hspent, hbudget, List.take_succ_cons]
    by_cases hlate : q.untilMs.any (· < keyTimestamp row.1) = true
    · rw [if_pos hlate, List.filterMap_cons_none (AuditQuery.hit_of_late hlate)]
      exact scanRows_eq q hrows hroom
    rw [if_neg hlate]
    by_cases hearly : q.sinceMs.any (keyTimestamp row.1 < ·) = true
    · rw [if_pos hearly, List.filterMap_cons_none (AuditQuery.hit_of_early hearly),
        AuditQuery.hits_of_early hearly hrow, List.append_nil, List.take_of_length_le hroom.le]
    rw [if_neg hearly]
    have hhit := AuditQuery.hit_of_window hlate hearly
    have hskip : q.hit row = none → q.visit out row.2 = (out, true) := by
      intro hnone
      rw [hhit] at hnone
      cases hvalue : row.2 with
      | none => rfl
      | some rec =>
        have hout : q.selects rec = false := by simpa [hvalue, Option.filter_some] using hnone
        simp [AuditQuery.visit, hout]
    cases hfound : q.hit row with
    | none =>
      rw [hskip hfound, List.filterMap_cons_none hfound]
      exact scanRows_eq q hrows hroom
    | some rec =>
      obtain ⟨hvalue, hselects⟩ := Option.filter_eq_some_iff.mp (hhit.symm.trans hfound)
      have hvisit : q.visit out row.2 = (out ++ [rec], decide ((out ++ [rec]).length < q.limit)) := by
        rw [hvalue, AuditQuery.visit, if_pos hselects]
      rw [hvisit, List.filterMap_cons_some hfound]
      by_cases hmore : (out ++ [rec]).length < q.limit
      · rw [decide_eq_true hmore]
        show scanRows q.sinceMs q.untilMs q.maxScan q.visit (scanned + 1) rows (out ++ [rec]) = _
        rw [scanRows_eq q hrows hmore, List.append_assoc, List.singleton_append]
      · have hfull : (out ++ [rec]).length = q.limit := by
          rw [List.length_append, List.length_singleton] at hmore ⊢
          omega
        rw [decide_eq_false hmore]
        show out ++ [rec] = _
        symm
        calc (out ++ rec :: (rows.take (q.maxScan - (scanned + 1))).filterMap q.hit).take q.limit
            = ((out ++ [rec]) ++ (rows.take (q.maxScan - (scanned + 1))).filterMap q.hit).take q.limit := by simp
          _ = out ++ [rec] := by rw [List.take_append_of_le_length hfull.ge, List.take_of_length_le hfull.le]

/-- **A query returns, newest first, the first hits among the newest rows that
it may examine.** -/
theorem query_eq (q : AuditQuery) (t : AuditTable F) (hlimit : 1 ≤ q.limit) :
    q.run t = ((t.entries.reverse.take q.maxScan).filterMap q.hit).take q.limit := by
  have hsorted : t.entries.reverse.Pairwise fun x y => keyTimestamp y.1 ≤ keyTimestamp x.1 :=
    List.pairwise_reverse.mpr (timestamps_sorted t)
  have hroom : ([] : List (AuditRecord F)).length < q.limit := hlimit
  rw [AuditQuery.run, scanAuditDesc, scanRows_eq q hsorted hroom, List.nil_append, Nat.sub_zero]

/-- **Retention and paging are exact.** A flush leaves, of the old and the new
records, those of the newest `maxEntries` that are not before its bound, as
pruning does for every pair of bounds; a query returns the first `limit` rows of
its window that match among the newest `maxScan`. -/
theorem retention_and_paging_exact (batch : List (AuditRecord F)) (t : AuditTable F) :
    (∀ (c : AuditConfig) now, (c.flush now batch t).entries =
        ((putAll (batchRows batch) t).entries.rtake c.maxEntries).filter
          fun row => decide (c.minTs now ≤ keyTimestamp row.1)) ∧
      (∀ maxEntries cutoff, (pruneAudit maxEntries cutoff (putAll (batchRows batch) t)).2.entries =
        ((putAll (batchRows batch) t).entries.rtake maxEntries).filter fun row =>
          decide (cutoff ≤ keyTimestamp row.1)) ∧
      ∀ q : AuditQuery, 1 ≤ q.limit →
        q.run t = ((t.entries.reverse.take q.maxScan).filterMap q.hit).take q.limit :=
  ⟨fun _ _ => entries_pruneAudit _ _ _, fun _ _ => entries_pruneAudit _ _ _, fun q => query_eq q t⟩

/-- A record of a user at a time. -/
def readAt (timestampMs seq : ℕ) (user : String) : AuditRecord ℚ :=
  ⟨seq, timestampMs, user, "root", "default", "c", "read", 200, 1, [seq], [], none, none⟩

/-- The budget of three rows is spent on one after the window, one that does not
match, and the match. -/
theorem retention_and_paging_budget : (AuditQuery.mk (some "ada") none none none (some 40) 2 3).run
    (putAll (batchRows [readAt 10 0 "ada", readAt 20 1 "ada", readAt 30 2 "bob", readAt 50 3 "ada"])
      OrderedTable.empty) =
    [readAt 20 1 "ada"] :=
  ((retention_and_paging_exact [] _).2.2 _ (by decide)).trans (by rfl)

end HeatherDb
