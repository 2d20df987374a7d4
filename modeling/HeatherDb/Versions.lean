/-
# What the version counter tells

Every call that can change memory counts it in the version before it changes
anything, so a version seen twice means the memory in between stood still
(`step_version`), with one exception: a compression never counts. A call that
fails after it touched memory keeps the count.

Key definitions: `Call.MergesNothing`, `Session.versionNumber`.
Key theorems: `step_version`, `run_version`, `checked_load_saw_every_change`.
-/
import HeatherDb.Durability

namespace HeatherDb

open Scalar Narrow Program

variable {F S : Type} [Scalar F] [Narrow F S]

/-! ### What a call does to the version -/

abbrev Session.versionNumber (s : Session F S) : ℕ := s.collection.inner.version

/-- A failed call left the collection alone, or its memory was read back at a version. -/
theorem Failed.version {v : ℕ} {s s' : Session F S} (h : Failed v s s') :
    s'.collection = s.collection ∨ s'.versionNumber = v := by
  have hrecovered : ∀ {t : Session F S} {inner : EAMInner F S}, Recovered t v inner → inner.version = v := by
    intro t inner hr
    unfold Recovered at hr
    split at hr
    · rw [hr]
    · exact hr.2
  cases h with
  | unchanged => exact Or.inl rfl
  | materialized => exact Or.inl rfl
  | recovered rng hr => exact Or.inr (hrecovered hr)
  | recoveredMaterialized rng hr => exact Or.inr (hrecovered hr)

variable [SeededUniform F]

namespace Call

/-- A compression finds no pair to merge. -/
def MergesNothing (s : Session F S) : Call F → Prop
  | .compress kappa lambda => (s.compression kappa lambda).2 = []
  | _ => True

end Call

variable [Scalar S]

/-- A compression that merges nothing leaves the collection alone. -/
theorem compress_idle {s s' : Session F S} {kappa lambda : F} {r : Except HeatherError (Reply F)}
    (hidle : (s.compression kappa lambda).2 = []) (hstep : Step s (.compress kappa lambda, r) s') :
    s'.collection = s.collection := by
  obtain ⟨-, plan, fs', hrun⟩ := hstep
  have hbind : Call.run (.compress kappa lambda) ⟨s, plan.map (Option.map .storage)⟩ =
      (compress kappa lambda >>= fun result => pure (.compressed result))
        ⟨s, plan.map (Option.map .storage)⟩ := rfl
  have hrun' := hbind.symm.trans hrun
  rcases compress_idle_cases hidle (plan.map (Option.map .storage)) with ⟨e, fs, h⟩ | ⟨fs, h⟩
  · rw [bind_of_error h, Prod.mk.injEq, World.mk.injEq] at hrun'
    rw [← hrun'.2.1]
  · rw [bind_of_ok h, pure_apply, Prod.mk.injEq, World.mk.injEq] at hrun'
    rw [← hrun'.2.1]
    rfl

/-- A successful call counts, unless it leaves the collection alone or
compresses it. -/
theorem effect_version (s : Session F S) (c : Call F) :
    (c.effect s).versionNumber = s.versionNumber + 1 ∨ (c.effect s).collection = s.collection ∨
      ∃ kappa lambda, c = .compress kappa lambda := by
  have hwrote : ∀ xs n p, (s.wrote xs n p).versionNumber = s.versionNumber + 1 := fun xs n p =>
    (batch_config s.collection.inner.bumpVersion xs s.rng).2
  cases c with
  | write input => exact Or.inl (hwrote _ _ _)
  | writeTwo address counter opts => exact Or.inl (hwrote _ _ _)
  | writeBatch inputs => exact Or.inl (hwrote _ _ _)
  | writeWithMetadata input metadata => exact Or.inl (hwrote _ _ _)
  | writeBatchWithMetadata items =>
    rw [Call.effect]
    split_ifs
    · exact Or.inr (Or.inl rfl)
    · exact Or.inl (hwrote _ _ _)
  | merge =>
    refine Or.inl ?_
    rw [Call.effect, Session.merged]
    dsimp only
    split_ifs <;> rfl
  | compress kappa lambda => exact Or.inr (Or.inr ⟨kappa, lambda, rfl⟩)
  | loadSnapshotChecked snapshot config expected => exact Or.inl rfl
  | deleteDocument writeIndex => exact Or.inr (Or.inl rfl)

/-- A write of any pattern counts. -/
theorem effect_version_of_write (s : Session F S) {c : Call F} (hw : c.IsWrite) (hne : c.patterns ≠ []) :
    (c.effect s).versionNumber = s.versionNumber + 1 := by
  have hwrote : ∀ xs n p, (s.wrote xs n p).versionNumber = s.versionNumber + 1 := fun xs n p =>
    (batch_config s.collection.inner.bumpVersion xs s.rng).2
  cases c with
  | writeBatchWithMetadata items =>
    have hitems : items ≠ [] := by
      rintro rfl
      exact hne rfl
    rw [Call.effect, if_neg hitems]
    apply hwrote
  | write input => apply hwrote
  | writeTwo address counter opts => apply hwrote
  | writeBatch inputs => apply hwrote
  | writeWithMetadata input metadata => apply hwrote
  | _ => exact hw.elim

/-- No successful call takes the version back. -/
theorem le_effect_version (s : Session F S) (c : Call F) : s.versionNumber ≤ (c.effect s).versionNumber := by
  rcases effect_version s c with h | h | ⟨kappa, lambda, rfl⟩
  · omega
  · exact (congrArg (·.inner.version) h).ge
  · rw [Call.effect, Session.compressed]
    dsimp only
    split_ifs <;> exact le_refl _

/-- A successful call leaves the memory readable. -/
theorem effect_valid (s : Session F S) (c : Call F) :
    (c.effect s).collection.inner.valid = s.collection.inner.valid := by
  have hwrote : ∀ xs n p, (s.wrote xs n p).collection.inner.valid = s.collection.inner.valid := fun xs n p =>
    batch_valid s.collection.inner.bumpVersion xs s.rng
  cases c with
  | writeBatchWithMetadata items =>
    rw [Call.effect]
    split_ifs
    · rfl
    · apply hwrote
  | merge =>
    rw [Call.effect, Session.merged]
    dsimp only
    split_ifs <;> rfl
  | compress kappa lambda =>
    rw [Call.effect, Session.compressed]
    dsimp only
    split_ifs <;> rfl
  | loadSnapshotChecked snapshot config expected => rfl
  | deleteDocument writeIndex => rfl
  | write input => apply hwrote
  | writeTwo address counter opts => apply hwrote
  | writeBatch inputs => apply hwrote
  | writeWithMetadata input metadata => apply hwrote

/-- **A call counts in the version, or leaves the collection alone**, unless
it is a compression that merges. -/
theorem step_version {s s' : Session F S} {e : Event F} (hstep : Step s e s') (hidle : e.1.MergesNothing s) :
    s'.collection = s.collection ∨ s'.versionNumber = s.versionNumber + 1 := by
  obtain ⟨c, r⟩ := e
  by_cases hcompress : ∃ kappa lambda, c = .compress kappa lambda
  · obtain ⟨kappa, lambda, rfl⟩ := hcompress
    exact Or.inl (compress_idle hidle hstep)
  have hfailed : c.failedVersion s = s.versionNumber + 1 := by
    cases c with
    | compress kappa lambda => exact absurd ⟨kappa, lambda, rfl⟩ hcompress
    | _ => rfl
  rcases step_cases hstep with ⟨e, -, hf⟩ | ⟨-, -, rfl⟩
  · rw [hfailed] at hf
    exact hf.version
  · rcases effect_version s c with h | h | h
    · exact Or.inr h
    · exact Or.inl h
    · exact absurd h hcompress

/-- A step of such a call. -/
def CountedStep (s : Session F S) (e : Event F) (s' : Session F S) : Prop :=
  Step s e s' ∧ e.1.MergesNothing s

/-- A run whose version did not grow left the collection alone. -/
theorem run_version {s s' : Session F S} {es : List (Event F)} (h : Run CountedStep s es s') :
    s'.collection = s.collection ∨ s.versionNumber < s'.versionNumber := by
  refine h.invariant (P := fun t => t.collection = s.collection ∨ s.versionNumber < t.versionNumber)
    (Or.inl rfl) fun {t e t'} ht hs => ?_
  have hle : s.versionNumber ≤ t.versionNumber := by
    rcases ht with heq | hlt
    · exact (congrArg (·.inner.version) heq).ge
    · exact hlt.le
  rcases step_version hs.1 hs.2 with heq | hone
  · rcases ht with h | hlt
    · exact Or.inl (heq.trans h)
    · have hsame : t'.versionNumber = t.versionNumber := congrArg (·.inner.version) heq
      exact Or.inr (by omega)
  · exact Or.inr (by omega)

omit [SeededUniform F] [Scalar F] [Scalar S] [Narrow F S] in
/-- The version observed is the collection's. -/
theorem version_observed {s : Session F S} {fs : List (Option HeatherError)} {v : ℕ}
    {w : World HeatherError (Session F S)} (h : version ⟨s, fs⟩ = (.ok v, w)) :
    s.collection.inner.valid = true ∧ s.versionNumber = v ∧ w = ⟨s, fs⟩ := by
  unfold version at h
  rcases readInner_cases s fs with ⟨hv, hread⟩ | hread
  · rw [bind_of_ok hread, pure_apply, Prod.mk.injEq, Except.ok.injEq] at h
    exact ⟨hv, h.1, h.2.symm⟩
  · rw [bind_of_error hread, Prod.mk.injEq] at h
    simp at h

/-- **A checked load saw every change.** If a client saw the version `v` and
later replaced the memory it expected at `v`, then the memory was the same at
every moment between, as long as no compression merged a pair there. -/
theorem checked_load_saw_every_change {s t s' s'' : Session F S} {before after : List (Event F)} {v : ℕ}
    {fs : List (Option HeatherError)} {w : World HeatherError (Session F S)}
    (hseen : version ⟨s, fs⟩ = (.ok v, w)) (hbefore : Run CountedStep s before t)
    (hafter : Run CountedStep t after s') {snapshot : Snapshot F} {config : EAMConfig F} {r : Reply F}
    (hload : Step s' (.loadSnapshotChecked snapshot config (some v), .ok r) s'') :
    t.collection.inner.locations = s.collection.inner.locations := by
  obtain ⟨-, hv, -⟩ := version_observed hseen
  have hexpected : s'.versionNumber = v := by
    rcases step_cases hload with ⟨e, he, -⟩ | ⟨hacc, -, -⟩
    · simp at he
    · exact hacc.1 v rfl
  have hnot : ¬ s.versionNumber < t.versionNumber := by
    rcases run_version hafter with heq | hlt
    · have hsame : s'.versionNumber = t.versionNumber := congrArg (·.inner.version) heq
      omega
    · omega
  rw [(run_version hbefore).resolve_right hnot]

omit [SeededUniform F] [Scalar F] [Scalar S] [Narrow F S] in
/-- The version a client sees. -/
theorem version_eq {s : Session F S} (hv : s.collection.inner.valid = true) (fs : List (Option HeatherError)) :
    version ⟨s, fs⟩ = (.ok s.versionNumber, ⟨s, fs⟩) :=
  bind_of_ok (readInner_valid hv fs) _

/-- An idle compression between. -/
theorem checked_load_saw_idle_compression :
    (Call.effect (smallSession false) (.compress 1 0)).collection.inner.locations =
      (smallSession false).collection.inner.locations :=
  checked_load_saw_every_change (version_eq rfl [])
    (.single ⟨step_of_isOk (c := .compress 1 0) (by decide +kernel),
      show (Session.compression (smallSession false) 1 0).2 = [] by decide +kernel⟩) .nil
    (step_of_isOk (c := .loadSnapshotChecked ⟨[], by simp⟩ (smallConfig false) (some 0)) (by decide +kernel))

/-- **A compression goes unseen**: a checked load succeeds at the version from
before a compression that merged two locations. -/
theorem compression_unseen : ∃ s' s'' r r', version ⟨threeWritten, []⟩ =
      (.ok threeWritten.versionNumber, ⟨threeWritten, []⟩) ∧
    Step threeWritten (.compress 1 0, .ok r) s' ∧
    Step s' (.loadSnapshotChecked ⟨[], by simp⟩ (smallConfig false) (some threeWritten.versionNumber), .ok r')
      s'' ∧
    s'.collection.inner.locations.length ≠ threeWritten.collection.inner.locations.length := by
  refine ⟨Call.effect threeWritten (.compress 1 0), _, _, _, version_eq agrees_threeWritten.valid [],
    step_of_isOk (c := .compress 1 0) (by decide +kernel),
    step_of_isOk (c := .loadSnapshotChecked ⟨[], by simp⟩ (smallConfig false) (some threeWritten.versionNumber))
      (by decide +kernel), by decide +kernel⟩

end HeatherDb
