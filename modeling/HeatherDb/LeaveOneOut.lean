/-
# Leave-one-out reads

A location is kept from answering in two ways: by activating one more and
dropping it (`readAttentionTraced` with an index), or by barring it from the
candidates (`readAttentionExcluding`). Where the similarities are distinct the
`k + 1` greatest without one of them are the `k` greatest of the others
(`activateLocked_exclude`), so both read the same. They part where nothing is
left: the first reads an empty activation, the second answers that the memory
is empty.

The sweep over many queries withholds from each the location that answers for
it. `heldOut` is the read that its caller would make of one query.

Key definitions: `DistinctSims`, `topLocation`, `ReadAttentionLooBatch`, `heldOut`.
Key theorems: `activateLocked_exclude`, `looOne_cases`, `leave_one_out_agrees_iff`,
`leave_one_out_parts`.
-/
import HeatherDb.TopK

namespace HeatherDb

open Scalar Narrow

variable {F S : Type} [Scalar F]

/-! ### The code -/

/-- The index of the most similar activated location. -/
def topLocationLocked (inner : EAMInner F S) (query : List F) : Except HeatherError ℕ :=
  match (activateLocked inner query none none).head? with
  | some i => .ok i
  | none => .error .emptyMemory

/-- `top_location`: the stored location that answers for this query. -/
def topLocation (inner : EAMInner F S) (query : List F) : Except HeatherError ℕ := do
  validateVector query
  checkValid inner
  checkQuery inner query
  topLocationLocked inner query

/-- What a parallel sweep collects: all values in the order of the queries, or
one of the errors there are. -/
inductive Collected {α : Type} (outcomes : List (Except HeatherError α)) : Except HeatherError (List α) → Prop
  | all {values : List α} (h : outcomes = values.map .ok) : Collected outcomes (.ok values)
  | failed {e : HeatherError} (h : .error e ∈ outcomes) : Collected outcomes (.error e)

section Reads

variable [Exponential F]

/-- One query of the sweep, under the lock of all. -/
def looOne (inner : EAMInner F S) (scale : F) (query : List F) : Except HeatherError (List F) := do
  validateVector query
  checkQuery inner query
  let own ← topLocationLocked inner query
  pure (attentionLocked inner query scale (some own) none).result

/-- `read_attention_loo_batch` -/
inductive ReadAttentionLooBatch (inner : EAMInner F S) (queries : List (List F)) (scale : F) :
    Except HeatherError (List (List F)) → Prop
  | empty (h : queries = []) : ReadAttentionLooBatch inner queries scale (.ok [])
  | refused {e : HeatherError} (hsome : queries ≠ []) (h : checkValid inner = .error e) :
    ReadAttentionLooBatch inner queries scale (.error e)
  | swept {r : Except HeatherError (List (List F))} (hsome : queries ≠ []) (h : checkValid inner = .ok ())
    (hr : Collected (queries.map (looOne inner scale)) r) : ReadAttentionLooBatch inner queries scale r

/-- A query's read with its own top location barred. -/
def heldOut (inner : EAMInner F S) (scale : F) (query : List F) : Except HeatherError (List F) := do
  let own ← topLocation inner query
  let trace ← readAttentionExcluding inner query scale [own]
  pure trace.result

end Reads

/-! ### Distinct similarities -/

/-- `lt` is a strict order, as it is of IEEE numbers, `NaN` among them. -/
class IEEELess (F : Type) [Scalar F] : Prop where
  irrefl : ∀ x : F, lt x x = false
  trans : ∀ {x y z : F}, lt x y = true → lt y z = true → lt x z = true

/-- Of two similarities to the query one is less. -/
def DistinctSims (query : List F) (locations : List (HardLocation F)) : Prop :=
  ∀ i < locations.length, ∀ j < locations.length, i ≠ j →
    lt (similarity query locations i) (similarity query locations j) = true ∨
      lt (similarity query locations j) (similarity query locations i) = true

@[simp] theorem length_entriesOf (query : List F) (locations : List (HardLocation F)) (candidates : List ℕ) :
    (entriesOf query locations candidates).length = candidates.length := List.length_map _

theorem DistinctSims.apart {query : List F} {locations : List (HardLocation F)} (h : DistinctSims query locations) :
    ∀ a ∈ entriesOf query locations (List.range locations.length),
      ∀ b ∈ entriesOf query locations (List.range locations.length), a ≠ b → lt a.2 b.2 = true ∨ lt b.2 a.2 = true := by
  intro a ha b hb hab
  obtain ⟨i, hi, rfl⟩ := List.mem_map.mp ha
  obtain ⟨j, hj, rfl⟩ := List.mem_map.mp hb
  exact h i (List.mem_range.mp hi) j (List.mem_range.mp hj) fun hij => hab (by rw [hij])

/-- How many of the entries are less similar. -/
def below (entries : List (ℕ × F)) (e : ℕ × F) : ℕ := entries.countP fun x => lt x.2 e.2

section Order

variable [IEEELess F] {entries : List (ℕ × F)} {a b : ℕ × F}

theorem below_lt (ha : a ∈ entries) (hlt : lt a.2 b.2 = true) : below entries a < below entries b := by
  have hmono : ∀ l : List (ℕ × F), (l.countP fun x => lt x.2 a.2) ≤ l.countP fun x => lt x.2 b.2 := fun l =>
    List.countP_mono_left fun x _ hx => IEEELess.trans hx hlt
  obtain ⟨front, back, rfl⟩ := List.append_of_mem ha
  have hfront := hmono front
  have hback := hmono back
  -- `a` itself is below `b` only
  unfold below
  simp only [List.countP_append, List.countP_cons, IEEELess.irrefl, hlt]
  simp only [Bool.false_eq_true, ↓reduceIte]
  omega

/-- Distinct similarities are as good as numbers. -/
theorem compares_below (h : ∀ a ∈ entries, ∀ b ∈ entries, a ≠ b → lt a.2 b.2 = true ∨ lt b.2 a.2 = true) :
    Compares (below entries) entries := by
  intro a ha b hb
  refine ⟨below_lt ha, fun hless => ?_⟩
  by_cases hab : a = b
  · exact absurd hless (hab ▸ lt_irrefl _)
  · rcases h a ha b hb hab with hlt | hgt
    · exact hlt
    · exact absurd (below_lt hb hgt) hless.not_gt

theorem below_injOn (h : ∀ a ∈ entries, ∀ b ∈ entries, a ≠ b → lt a.2 b.2 = true ∨ lt b.2 a.2 = true)
    (a : ℕ × F) (ha : a ∈ entries) (b : ℕ × F) (hb : b ∈ entries)
    (hkey : below entries a = below entries b) : a = b := by
  by_contra hab
  rcases h a ha b hb hab with hlt | hgt
  · exact absurd hkey (below_lt ha hlt).ne
  · exact absurd hkey (below_lt hb hgt).ne'

/-- **One more activated and one dropped** is one barred beforehand. -/
theorem topK_without (h : ∀ a ∈ entries, ∀ b ∈ entries, a ≠ b → lt a.2 b.2 = true ∨ lt b.2 a.2 = true) (k : ℕ)
    {keep : ℕ × F → Bool} (hone : (entries.countP fun a => !keep a) ≤ 1) :
    ((topK (k + 1) entries).filter keep).take k = topK k (entries.filter keep) := by
  have hkeys := compares_below h
  have hsub : entries.filter keep ⊆ entries := List.filter_subset_self _
  obtain ⟨hmore, hsorted⟩ := greatest_topK hkeys (k + 1)
  obtain ⟨hrest, hsorted'⟩ := greatest_topK (hkeys.subset hsub) k
  refine (hmore.without hsorted hone).unique hrest ?_ ?_ hsorted'
  · exact fun a ha b hb => below_injOn h a (hsub ha) b (hsub hb)
  · exact (hsorted.filter keep).sublist (List.take_sublist k _)

end Order

/-! ### Activations -/

/-- The entries of all locations but one. -/
theorem entriesOf_filter (query : List F) (locations : List (HardLocation F)) (ex : ℕ) :
    entriesOf query locations ((List.range locations.length).filter (· ≠ ex)) =
      (entriesOf query locations (List.range locations.length)).filter (·.1 ≠ ex) := by
  rw [entriesOf, entriesOf, List.filter_map]
  rfl

/-- The candidates of a subset activation, bounded by `k` alone. -/
theorem activateLocked_allowed {inner : EAMInner F S} {barred : List ℕ} (query : List F) :
    activateLocked inner query none (some (inner.allowed barred)) =
      (topK inner.config.k (entriesOf query inner.locations (inner.allowed barred))).map (·.1) := by
  have hall : (inner.allowed barred).filter (· < inner.locations.length) = inner.allowed barred :=
    List.filter_eq_self.mpr fun i hi => decide_eq_true (mem_allowed.mp hi).1
  set entries := entriesOf query inner.locations (inner.allowed barred) with hentries
  have hlength : entries.length ≤ inner.locations.length :=
    (List.length_map _).trans_le (length_allowed_le inner barred)
  have hbound : topK (min inner.config.k inner.locations.length) entries = topK inner.config.k entries := by
    rw [← topK_min (min inner.config.k inner.locations.length), Nat.min_assoc, Nat.min_eq_right hlength, topK_min]
  simp only [activateLocked, Option.isSome_none, Bool.false_eq_true, if_false, Nat.add_zero]
  rw [activateSubset_eq, hall, ← hentries, hbound, List.unzip_fst]

/-- **Both ways activate the same locations.** -/
theorem activateLocked_exclude [Narrow F S] [IEEELess F] {inner : EAMInner F S} (harrays : Indexed inner)
    (hshaped : Shaped inner.config.d inner.locations) {query : List F} (hdistinct : DistinctSims query inner.locations)
    (ex : ℕ) :
    activateLocked inner query (some ex) none = activateLocked inner query none (some (inner.allowed [ex])) := by
  set entries := entriesOf query inner.locations (List.range inner.locations.length) with hentries
  have hallowed : inner.allowed [ex] = (List.range inner.locations.length).filter (· ≠ ex) :=
    List.filter_congr fun i _ => by simp
  have hone : (entries.countP fun a => !decide (a.1 ≠ ex)) ≤ 1 := by
    have hcount := List.nodup_iff_count_le_one.mp (List.nodup_range (n := inner.locations.length)) ex
    rw [hentries, entriesOf, List.countP_map]
    refine le_trans (List.countP_mono_left fun i _ hi => ?_) hcount
    simpa using hi
  have hbound := topK_min (inner.config.k + 1) entries
  rw [length_entriesOf, List.length_range] at hbound
  rw [activateLocked_allowed, hallowed, entriesOf_filter, ← hentries,
    ← topK_without hdistinct.apart inner.config.k hone]
  simp only [activateLocked, Option.isSome_some, if_true]
  rw [activateAutoFull_eq harrays hshaped, scored_eq_entriesOf, ← hentries, hbound, List.unzip_fst, List.filter_map,
    List.map_take]
  rfl

/-! ### Reads -/

variable [Exponential F]

/-- The checks of a read have nothing against this query. -/
def Accepts (inner : EAMInner F S) (query : List F) : Prop :=
  validateVector query = .ok () ∧ query.length = inner.config.d

/-- The query is read, and there is one location for it to activate. -/
def Alone (inner : EAMInner F S) (query : List F) : Prop :=
  inner.locations.length = 1 ∧ 0 < inner.config.k ∧ Accepts inner query

section Checks

variable {inner : EAMInner F S} {query : List F}

omit [Exponential F] in
theorem checkQuery_of_accepts (h : Accepts inner query) (hsome : inner.locations ≠ []) :
    checkQuery inner query = .ok () := by
  unfold checkQuery
  rw [if_neg (not_not.mpr h.2), if_neg (by simpa using hsome)]

/-- A query that is refused, or an empty memory, ends every read alike. -/
theorem reads_refused (hvalid : checkValid inner = .ok ())
    (h : ¬(Accepts inner query ∧ inner.locations ≠ [])) (scale : F) :
    ∃ e, (∀ ex, readAttentionTraced inner query scale ex = .error e) ∧
      (∀ barred, readAttentionExcluding inner query scale barred = .error e) ∧
      looOne inner scale query = .error e ∧ heldOut inner scale query = .error e := by
  cases hvector : validateVector query with
  | error e =>
    refine ⟨e, fun ex => ?_, fun barred => ?_, ?_, ?_⟩
    · rw [readAttentionTraced, hvector]
      rfl
    · rw [readAttentionExcluding, hvector]
      rfl
    · rw [looOne, hvector]
      rfl
    · rw [heldOut, topLocation, hvector]
      rfl
  | ok u =>
    cases hquery : checkQuery inner query with
    | error e =>
      refine ⟨e, fun ex => ?_, fun barred => ?_, ?_, ?_⟩
      · rw [readAttentionTraced, hvector, hvalid, hquery]
        rfl
      · rw [readAttentionExcluding, hvector, hvalid, hquery]
        rfl
      · rw [looOne, hvector, hquery]
        rfl
      · rw [heldOut, topLocation, hvector, hvalid, hquery]
        rfl
    | ok u' =>
      exfalso
      unfold checkQuery at hquery
      split_ifs at hquery with hd hempty
      exact h ⟨⟨hvector, not_not.mp hd⟩, by simpa using hempty⟩

variable (hvalid : checkValid inner = .ok ()) (haccepts : Accepts inner query) (hsome : inner.locations ≠ [])

include hvalid haccepts hsome

theorem traced_of_accepts (scale : F) (ex : Option ℕ) :
    readAttentionTraced inner query scale ex = .ok (attentionLocked inner query scale ex none) := by
  rw [readAttentionTraced, haccepts.1, hvalid, checkQuery_of_accepts haccepts hsome]
  rfl

theorem excluding_of_accepts (scale : F) (barred : List ℕ) :
    readAttentionExcluding inner query scale barred =
      if (inner.allowed barred).isEmpty then .error .emptyMemory
      else .ok (attentionLocked inner query scale none (some (inner.allowed barred))) := by
  rw [readAttentionExcluding, haccepts.1, hvalid, checkQuery_of_accepts haccepts hsome]
  by_cases hempty : (inner.allowed barred).isEmpty = true
  · rw [if_pos hempty, if_pos hempty]
    rfl
  · rw [if_neg hempty, if_neg hempty]
    rfl

end Checks

variable [Narrow F S]

omit [Exponential F] [Scalar F] [Narrow F S] in
/-- Nothing is left of one location when it is barred. -/
theorem allowed_isEmpty_iff {inner : EAMInner F S} (hsome : inner.locations ≠ []) (ex : ℕ) :
    (inner.allowed [ex]).isEmpty = true ↔ inner.locations.length = 1 ∧ ex = 0 := by
  have hpos := List.length_pos_iff.mpr hsome
  rw [List.isEmpty_iff, List.eq_nil_iff_forall_not_mem]
  constructor
  · intro hnone
    have hat : ∀ i < inner.locations.length, i = ex := fun i hi => by
      by_contra hne
      exact hnone i (mem_allowed.mpr ⟨hi, by simpa using hne⟩)
    have hzero := hat 0 hpos
    refine ⟨?_, hzero.symm⟩
    by_contra hmore
    have hone := hat 1 (by omega)
    omega
  · rintro ⟨hone, rfl⟩ i hi
    obtain ⟨hlt, hnot⟩ := mem_allowed.mp hi
    exact hnot (List.mem_singleton.mpr (by omega))

section Agreement

variable [IEEELess F] {inner : EAMInner F S} (hvalid : checkValid inner = .ok ()) (harrays : Indexed inner)
  (hshaped : Shaped inner.config.d inner.locations)

include hvalid harrays hshaped

/-- **Excluding and barring one location** read the same unless it is the only
one. -/
theorem exclude_eq_barred_iff {query : List F} (hdistinct : DistinctSims query inner.locations) (scale : F) (ex : ℕ) :
    readAttentionTraced inner query scale (some ex) = readAttentionExcluding inner query scale [ex] ↔
      ¬(inner.locations.length = 1 ∧ ex = 0 ∧ Accepts inner query) := by
  by_cases hreads : Accepts inner query ∧ inner.locations ≠ []
  swap
  · obtain ⟨e, htraced, hexcluding, -, -⟩ := reads_refused hvalid hreads scale
    refine iff_of_true ((htraced _).trans (hexcluding _).symm) ?_
    rintro ⟨hone, -, haccepts⟩
    exact hreads ⟨haccepts, List.length_pos_iff.mp (by omega)⟩
  obtain ⟨haccepts, hsome⟩ := hreads
  have hnothing := allowed_isEmpty_iff hsome ex
  rw [traced_of_accepts hvalid haccepts hsome, excluding_of_accepts hvalid haccepts hsome]
  by_cases hempty : (inner.allowed [ex]).isEmpty = true
  · obtain ⟨hone, hzero⟩ := hnothing.mp hempty
    rw [if_pos hempty]
    exact iff_of_false (by simp) (not_not.mpr ⟨hone, hzero, haccepts⟩)
  · rw [if_neg hempty, attentionLocked, attentionLocked, activateLocked_exclude harrays hshaped hdistinct]
    exact iff_of_true rfl fun ⟨hone, hzero, _⟩ => hempty (hnothing.mpr ⟨hone, hzero⟩)

omit [Exponential F] hvalid in
/-- The top location is one of the memory's, and there is one if anything is
activated. -/
theorem topLocationLocked_cases {query : List F} (hdistinct : DistinctSims query inner.locations)
    (hsome : inner.locations ≠ []) :
    (inner.config.k = 0 ∧ topLocationLocked inner query = .error .emptyMemory) ∨
      (0 < inner.config.k ∧ ∃ own < inner.locations.length, topLocationLocked inner query = .ok own) := by
  have hpos := List.length_pos_iff.mpr hsome
  obtain ⟨hgreatest, -⟩ := greatest_topK (compares_below hdistinct.apart) inner.config.k
  have hlength := hgreatest.length
  rw [length_entriesOf, List.length_range] at hlength
  unfold topLocationLocked
  rw [activateLocked_scan harrays hshaped, scored_eq_entriesOf]
  cases htop : topK inner.config.k (entriesOf query inner.locations (List.range inner.locations.length)) with
  | nil =>
    rw [htop, List.length_nil] at hlength
    exact .inl ⟨by omega, rfl⟩
  | cons e rest =>
    rw [htop, List.length_cons] at hlength
    obtain ⟨i, hi, rfl⟩ := List.mem_map.mp (hgreatest.mem (htop ▸ List.mem_cons_self))
    exact .inr ⟨by omega, i, List.mem_range.mp hi, rfl⟩

/-- **One query of the sweep** is the read with its own location barred, unless
that is the only one. -/
theorem looOne_cases {query : List F} (hdistinct : DistinctSims query inner.locations) (scale : F) :
    (¬Alone inner query ∧ looOne inner scale query = heldOut inner scale query) ∨
      (Alone inner query ∧ (∃ v, looOne inner scale query = .ok v) ∧
        heldOut inner scale query = .error .emptyMemory) := by
  by_cases hreads : Accepts inner query ∧ inner.locations ≠ []
  swap
  · obtain ⟨e, -, -, hloo, hheld⟩ := reads_refused hvalid hreads scale
    refine .inl ⟨fun ⟨hone, _, haccepts⟩ => ?_, hloo.trans hheld.symm⟩
    exact hreads ⟨haccepts, List.length_pos_iff.mp (by omega)⟩
  obtain ⟨haccepts, hsome⟩ := hreads
  have hchecked := checkQuery_of_accepts haccepts hsome
  rw [looOne, heldOut, topLocation, haccepts.1, hvalid, hchecked]
  rcases topLocationLocked_cases harrays hshaped hdistinct hsome with ⟨hk, htop⟩ | ⟨hk, own, hown, htop⟩
  · rw [htop]
    exact .inl ⟨fun ⟨_, hpos, _⟩ => by omega, rfl⟩
  · have hexcluding := excluding_of_accepts hvalid haccepts hsome scale [own]
    have hnothing := allowed_isEmpty_iff hsome own
    rw [htop]
    by_cases hempty : (inner.allowed [own]).isEmpty = true
    · obtain ⟨hone, -⟩ := hnothing.mp hempty
      rw [if_pos hempty] at hexcluding
      refine .inr ⟨⟨hone, hk, haccepts⟩, ⟨_, rfl⟩, ?_⟩
      show readAttentionExcluding inner query scale [own] >>= _ = _
      rw [hexcluding]
      rfl
    · rw [if_neg hempty] at hexcluding
      refine .inl ⟨fun ⟨hone, _, _⟩ => hempty (hnothing.mpr ⟨hone, by omega⟩), ?_⟩
      show Except.ok (attentionLocked inner query scale (some own) none).result =
        readAttentionExcluding inner query scale [own] >>= _
      rw [hexcluding, attentionLocked, activateLocked_exclude harrays hshaped hdistinct]
      rfl

/-- **The sweep** answers as the reads of its queries would, unless all of them
withhold the only location. -/
theorem sweep_iff {queries : List (List F)}
    (hdistinct : ∀ query ∈ queries, DistinctSims query inner.locations) (scale : F) :
    (∀ r, ReadAttentionLooBatch inner queries scale r → Collected (queries.map (heldOut inner scale)) r) ↔
      ¬(inner.locations.length = 1 ∧ 0 < inner.config.k ∧ queries ≠ [] ∧ ∀ query ∈ queries, Accepts inner query) := by
  have hcases := fun query hq => looOne_cases hvalid harrays hshaped (hdistinct query hq) scale
  constructor
  · rintro hagree ⟨hone, hk, hsome, haccepts⟩
    have halone : ∀ query ∈ queries, (∃ v, looOne inner scale query = .ok v) ∧
        heldOut inner scale query = .error .emptyMemory := fun query hq => by
      rcases hcases query hq with ⟨hnot, -⟩ | ⟨-, hparts⟩
      · exact absurd ⟨hone, hk, haccepts query hq⟩ hnot
      · exact hparts
    have hread : queries.map (looOne inner scale) =
        (queries.map fun query => (looOne inner scale query).toOption.getD []).map .ok := by
      rw [List.map_map]
      refine List.map_congr_left fun query hq => ?_
      obtain ⟨v, hv⟩ := (halone query hq).1
      rw [Function.comp_apply, hv]
      rfl
    have hcollected := hagree _ (.swept hsome hvalid (.all hread))
    obtain ⟨query, rest, rfl⟩ := List.exists_cons_of_ne_nil hsome
    cases hcollected with
    | all h =>
      have hheld := (halone query List.mem_cons_self).2
      rw [List.map_cons, hheld] at h
      simp at h
  · intro hnot r hr
    cases hr with
    | empty h =>
      subst h
      exact .all rfl
    | refused hsome h =>
      rw [hvalid] at h
      simp at h
    | swept hsome h hr =>
      cases hr with
      | failed herror =>
        obtain ⟨query, hq, hloo⟩ := List.mem_map.mp herror
        rcases hcases query hq with ⟨-, hsame⟩ | ⟨-, ⟨v, hv⟩, -⟩
        · exact .failed (List.mem_map.mpr ⟨query, hq, hsame.symm.trans hloo⟩)
        · rw [hloo] at hv
          simp at hv
      | @all values hvalues =>
        -- a query that was read passed the checks
        have haccepts : ∀ query ∈ queries, Accepts inner query := fun query hq => by
          by_contra hrefused
          obtain ⟨e, -, -, hloo, -⟩ := reads_refused hvalid (fun hreads => hrefused hreads.1) scale
          have hin := List.mem_map_of_mem (f := looOne inner scale) hq
          rw [hvalues, hloo] at hin
          simp at hin
        have hsame : queries.map (heldOut inner scale) = queries.map (looOne inner scale) :=
          List.map_congr_left fun query hq => by
            rcases hcases query hq with ⟨-, hsame⟩ | ⟨⟨hone, hk, -⟩, -, -⟩
            · exact hsame.symm
            · exact absurd ⟨hone, hk, hsome, haccepts⟩ hnot
        rw [hsame]
        exact .all hvalues

end Agreement

variable [Scalar S]

/-- **Leave-one-out reads agree**, excluding or barring, one by one or in a
sweep, exactly if they do not withhold the only location. -/
theorem leave_one_out_agrees_iff [SeededUniform F] [IEEELess F] {name : String} {collectionId : ℕ}
    {hive hive' : Hive F S} (hnone : hive.handles = []) (hcache : hive.collections.get name = none)
    (hreg : hive.store.registry.get name = some collectionId) (hnew : hive.store.Untouched collectionId)
    {es : List (HiveEvent F)} (hrun : Run (Life name) hive es hive') {h : ℕ} {s : Session F S}
    (hs : hive'.session h = some s) (scale : F) :
    (∀ query ex, DistinctSims query s.collection.inner.locations →
      (readAttentionTraced s.collection.inner query scale (some ex) =
          readAttentionExcluding s.collection.inner query scale [ex] ↔
        ¬(s.collection.inner.locations.length = 1 ∧ ex = 0 ∧ Accepts s.collection.inner query))) ∧
      ∀ queries, (∀ query ∈ queries, DistinctSims query s.collection.inner.locations) →
        ((∀ r, ReadAttentionLooBatch s.collection.inner queries scale r →
            Collected (queries.map (heldOut s.collection.inner scale)) r) ↔
          ¬(s.collection.inner.locations.length = 1 ∧ 0 < s.collection.inner.config.k ∧ queries ≠ [] ∧
            ∀ query ∈ queries, Accepts s.collection.inner query)) := by
  have hr := recoverable_of_run hnone hcache hreg hnew hrun hs
  have hvalid : checkValid s.collection.inner = .ok () := by
    rw [checkValid, hr.valid]
    rfl
  exact ⟨fun query ex hdistinct => exclude_eq_barred_iff hvalid hr.arrays hr.shaped hdistinct scale ex,
    fun queries hdistinct => sweep_iff hvalid hr.arrays hr.shaped hdistinct scale⟩

instance : IEEELess ℚ where
  irrefl x := decide_eq_false (lt_irrefl x)
  trans h h' := decide_eq_true ((of_decide_eq_true h).trans (of_decide_eq_true h'))

/-- With two locations the second is excluded or barred. -/
theorem leave_one_out_agrees_two : ∃ s : Session ℚ ℚ, s.collection.inner.locations.length = 2 ∧
    readAttentionTraced s.collection.inner [1] 1 (some 1) = readAttentionExcluding s.collection.inner [1] 1 [1] ∧
    ∀ r, ReadAttentionLooBatch s.collection.inner [[1]] 1 r →
      Collected ([[1]].map (heldOut s.collection.inner 1)) r := by
  obtain ⟨es, hrun⟩ := life_twiceWritten
  obtain ⟨s, hs⟩ : ∃ s, twiceWritten.session 0 = some s := Option.isSome_iff_exists.mp (by decide +kernel)
  have hstored : (twiceWritten.session 0).all fun s => decide (s.collection.inner.locations.length = 2 ∧
      lt (similarity [1] s.collection.inner.locations 0) (similarity [1] s.collection.inner.locations 1) = true) := by
    decide +kernel
  rw [hs, Option.all_some, decide_eq_true_iff] at hstored
  obtain ⟨htwo, hless⟩ := hstored
  have hdistinct : DistinctSims [1] s.collection.inner.locations := by
    intro i hi j hj hij
    obtain ⟨rfl, rfl⟩ | ⟨rfl, rfl⟩ : (i = 0 ∧ j = 1) ∨ (i = 1 ∧ j = 0) := by omega
    · exact .inl hless
    · exact .inr hless
  obtain ⟨hsingle, hsweep⟩ :=
    leave_one_out_agrees_iff rfl rfl rfl smallHive_untouched hrun hs 1
  refine ⟨s, htwo, (hsingle [1] 1 hdistinct).mpr fun ⟨hone, _⟩ => by omega, ?_⟩
  refine (hsweep [[1]] fun query hq => ?_).mpr fun ⟨hone, _⟩ => by omega
  obtain rfl := List.mem_singleton.mp hq
  exact hdistinct

/-- **The only location withheld**: excluding it reads nothing, barring it is
an error, and a sweep reads nothing too. -/
theorem leave_one_out_parts : ∃ es hive' s, Run (Life "c") smallHive es hive' ∧ hive'.session 0 = some s ∧
    s.collection.inner.locations ≠ [] ∧ DistinctSims [1] s.collection.inner.locations ∧
    readAttentionTraced s.collection.inner [1] 1 (some 0) ≠ readAttentionExcluding s.collection.inner [1] 1 [0] ∧
    ∃ r, ReadAttentionLooBatch s.collection.inner [[1]] 1 r ∧
      ¬Collected ([[1]].map (heldOut s.collection.inner 1)) r := by
  let hive := smallHive.created.calling (.write [1])
  have hcreate : Life "c" smallHive (.create "c" (.ok 0)) smallHive.created :=
    smallHive.life_create (by decide +kernel)
  have hwrite : Life "c" smallHive.created (smallHive.created.answer (.write [1])) hive :=
    smallHive.created.life_call _ (by decide +kernel)
  have hrun := (Run.single hcreate).snoc hwrite
  obtain ⟨s, hs⟩ : ∃ s, hive.session 0 = some s := Option.isSome_iff_exists.mp (by decide +kernel)
  have hstored : (hive.session 0).all fun s => decide (s.collection.inner.locations.length = 1 ∧
      s.collection.inner.config.k = 1 ∧ s.collection.inner.config.d = 1) := by
    decide +kernel
  rw [hs, Option.all_some, decide_eq_true_iff] at hstored
  obtain ⟨hone, hk, hd⟩ := hstored
  have hr := recoverable_of_run rfl rfl rfl smallHive_untouched hrun hs
  have hvalid : checkValid s.collection.inner = .ok () := by
    rw [checkValid, hr.valid]
    rfl
  have hdistinct : DistinctSims [1] s.collection.inner.locations := fun i hi j hj hij => by omega
  have haccepts : Accepts s.collection.inner [1] := ⟨by decide +kernel, hd.symm⟩
  have hsingle := exclude_eq_barred_iff hvalid hr.arrays hr.shaped hdistinct 1 0
  have hdistinct' : ∀ query ∈ [[1]], DistinctSims query s.collection.inner.locations := fun query hq =>
    List.mem_singleton.mp hq ▸ hdistinct
  have hsweep := sweep_iff hvalid hr.arrays hr.shaped hdistinct' 1
  refine ⟨_, hive, s, hrun, hs, List.length_pos_iff.mp (by omega), hdistinct,
    fun hsame => hsingle.mp hsame ⟨hone, rfl, haccepts⟩, ?_⟩
  by_contra hagree
  push Not at hagree
  exact hsweep.mp hagree ⟨hone, by omega, by simp, fun query hq => List.mem_singleton.mp hq ▸ haccepts⟩

end HeatherDb
