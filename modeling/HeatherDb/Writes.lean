/-
# What a write does

One theorem per write: it failed, or it returned and left the session that
`Session.wrote` describes, a pure function of the session before. What each
of the writes chooses to store is `writePuts`, `batchPuts`, `documentPuts` and
`documentBatchPuts`.

Key definitions: `Session.written`, `Session.wrote`.
Key theorems: `writeTwo_cases`, `writeBatch_cases`, `writeWithMetadata_cases`,
`writeBatchWithMetadata_cases`.
-/
import HeatherDb.Batch
import HeatherDb.Guard

namespace HeatherDb

open Scalar Narrow Program AtomicMutation

variable {F S : Type} [Scalar F] [Scalar S] [Narrow F S]

/-! ### Writes -/

/-- The memory after these writes, `n` of them documents. -/
def Session.written (s : Session F S) (xs : List (Pattern F)) (n : ℕ) : Batch F S :=
  let b := s.collection.inner.bumpVersion.batch xs s.rng
  { b with inner := b.inner.countDocuments n }

/-- The session after writes that stored these records. -/
def Session.wrote (s : Session F S) (xs : List (Pattern F)) (n : ℕ) (p : Puts F) : Session F S :=
  s.mutated (s.written xs n).inner (s.written xs n).rng p

/-- The adaptive write of a call that makes one. -/
def Session.adapted (s : Session F S) (x : Pattern F) : Adapted F S :=
  s.collection.inner.bumpVersion.adapt x s.rng

/-- What `writeTwo` stores. -/
def writePuts (s : Session F S) (x : Pattern F) : Puts F where
  locations := touchedLocations (s.adapted x).inner (s.adapted x).result
  documents := []
  postings := []
  metadata := counters (s.adapted x).inner

/-- What `writeBatch` stores. -/
def batchPuts (s : Session F S) (inputs : List (List F)) : Puts F :=
  let b := s.written (inputs.map .single) 0
  { locations := (b.allModified.filter (· < b.inner.locations.length)).map (locationAt b.inner.locations) ++
      b.allNewLocs
    documents := []
    postings := []
    metadata := counters b.inner }

/-- What `writeWithMetadata` stores. -/
def documentPuts (s : Session F S) (input : List F) (metadata : List UInt8) : Puts F :=
  let a := s.adapted (.single input)
  let docId := s.collection.inner.docNextId
  { locations := touchedLocations a.inner a.result
    documents :=
      [(docId, documentRecord s.store.precision s.collection.inner.config a.result input metadata)]
    postings := (activatedIds a.inner a.result).map fun locId => (locId, [docId])
    metadata := documentCounters (a.inner.countDocuments 1) }

/-- What `writeBatchWithMetadata` stores. -/
def documentBatchPuts (s : Session F S) (items : List (List F × List UInt8)) : Puts F :=
  let b := s.written (items.map fun item => .single item.1) items.length
  let docNextId := s.collection.inner.docNextId
  { locations := (b.touched s.collection.inner.locations.length).map (locationAt b.inner.locations)
    documents := (items.zip b.writes).zipIdx.map fun p =>
      (docNextId + p.2, documentRecord s.store.precision b.inner.config p.1.2.result p.1.1.1 p.1.1.2)
    postings := batchPostings b docNextId
    metadata := documentCounters b.inner }

/-- The memory a write leaves before its transaction. -/
def AtomicMutation.adapted (m : AtomicMutation F S) (x : Pattern F) : AtomicMutation F S :=
  { m with
    rng := (m.inner.bumpVersion.adapt x m.rng).rng
    inner := (m.inner.bumpVersion.adapt x m.rng).inner
    dirty := true }

theorem adaptOnce_bind {α : Type} (x : Pattern F)
    (f : WriteResult F → Program HeatherError (AtomicMutation F S) α) (m : AtomicMutation F S)
    (fs : List (Option HeatherError)) :
    (adaptOnce x >>= f) ⟨m, fs⟩ =
      f (m.inner.bumpVersion.adapt x m.rng).result ⟨m.adapted x, fs⟩ := rfl

omit [Scalar F] in
theorem checkWrite_ok {d : ℕ} {address counter : List F} {u : Unit} (h : checkWrite d address counter = .ok u) :
    address.length = d ∧ counter.length = d := by
  unfold checkWrite at h
  split_ifs at h with hd
  simpa [not_or] using hd

/-- The dimensions a write was accepted with. -/
def Session.Fits (s : Session F S) (xs : List (Pattern F)) : Prop :=
  ∀ x ∈ xs, x.address.length = s.collection.inner.config.d ∧ x.counter.length = s.collection.inner.config.d

/-- The same memory under another version and document counter. -/
def EAMInner.counted (inner : EAMInner F S) (version docNextId : ℕ) : EAMInner F S :=
  { inner with version := version, docNextId := docNextId }

omit [Scalar S] in
theorem appendAddresses_counted (inner : EAMInner F S) (v n start : ℕ) :
    (inner.counted v n).appendAddresses start = (inner.appendAddresses start).counted v n := by
  have happ : ((inner.counted v n).locations.drop start).foldl EAMInner.appendAddress (inner.counted v n) =
      EAMInner.counted ((inner.locations.drop start).foldl EAMInner.appendAddress inner) v n :=
    List.foldl_hom (EAMInner.counted · v n) fun _ _ => rfl
  unfold EAMInner.appendAddresses
  rw [happ]
  unfold EAMInner.refreshLandmarks EAMInner.counted
  dsimp only
  split_ifs <;> rfl

omit [Scalar S] in
/-- The arrays do not depend on the version and the document counter. -/
theorem settle_counted (inner : EAMInner F S) (v n : ℕ) (result : WriteResult F) :
    (inner.counted v n).settle result = (inner.settle result).counted v n := by
  have hsync : (inner.counted v n).syncAddresses result.modifiedIndices =
      (inner.syncAddresses result.modifiedIndices).counted v n :=
    List.foldl_hom (EAMInner.counted · v n) fun _ _ => rfl
  unfold EAMInner.settle
  rw [hsync]
  generalize inner.syncAddresses result.modifiedIndices = inner
  unfold EAMInner.appendLocations
  split_ifs
  · rfl
  · exact appendAddresses_counted (EAMInner.extendIdLookup
      { inner with locations := inner.locations ++ result.newLocations } inner.locations.length) v n
      inner.locations.length

omit [Scalar S] in
theorem settle_countDocuments (inner : EAMInner F S) (n : ℕ) (result : WriteResult F) :
    (inner.countDocuments n).settle result = (inner.settle result).countDocuments n := by
  have hsame := sameState_settle inner result
  have hsettle : (inner.countDocuments n).settle result =
      (inner.settle result).counted inner.version (inner.docNextId + n) := settle_counted _ _ _ _
  rw [hsettle, EAMInner.countDocuments, hsame.docNextId, EAMInner.counted, ← hsame.version]

/-- **A write** failed, or happened as a whole. -/
theorem writeTwo_cases (address counter : List F) (opts : WriteOpts F) (s : Session F S)
    (fs : List (Option HeatherError)) :
    (∃ e fs' s', writeTwo address counter opts ⟨s, fs⟩ = (.error e, ⟨s', fs'⟩) ∧
        Failed (s.collection.inner.version + 1) s s') ∨
      s.Fits [⟨address, counter, opts⟩] ∧ ∃ fs', writeTwo address counter opts ⟨s, fs⟩ =
        (.ok (), ⟨s.wrote [⟨address, counter, opts⟩] 0 (writePuts s ⟨address, counter, opts⟩), fs'⟩) := by
  unfold writeTwo
  cases h1 : validateVector address with
  | error e => exact Or.inl ⟨e, fs, s, rfl, .unchanged⟩
  | ok u =>
  rw [ofExcept_ok_bind]
  refine failed_or_checked fun h2 hv h3 => ?_
  rw [h2, ofExcept_ok_bind]
  have h3 : checkWrite s.collection.inner.config.d address counter = .ok () := h3
  have hfit : s.Fits [⟨address, counter, opts⟩] := fun x hx => by
    obtain rfl := List.mem_singleton.mp hx
    exact checkWrite_ok h3
  refine (mutation_cases (m := (AtomicMutation.begin s).adapted ⟨address, counter, opts⟩)
    (p := writePuts s ⟨address, counter, opts⟩) (a := ())
    (i := (s.written [⟨address, counter, opts⟩] 0).inner)
    (k := fun _ => do edit (·.settle (s.adapted ⟨address, counter, opts⟩).result); commit)
    hv ?_ (fun _ => rfl) rfl rfl rfl rfl rfl rfl).imp id fun h => ⟨hfit, h⟩
  rw [get_bind]
  simp only [begin, h3, ofExcept_ok_bind, adaptOnce_bind, get_bind]
  rfl

theorem write_cases (input : List F) (s : Session F S) (fs : List (Option HeatherError)) :
    (∃ e fs' s', write input ⟨s, fs⟩ = (.error e, ⟨s', fs'⟩) ∧
        Failed (s.collection.inner.version + 1) s s') ∨
      s.Fits [.single input] ∧ ∃ fs', write input ⟨s, fs⟩ =
        (.ok (), ⟨s.wrote [.single input] 0 (writePuts s (.single input)), fs'⟩) :=
  writeTwo_cases input input .default s fs

/-- The memory a batch leaves before its transaction. -/
def AtomicMutation.batched (m : AtomicMutation F S) (xs : List (Pattern F)) : AtomicMutation F S :=
  { m with
    rng := (m.inner.bumpVersion.batch xs m.rng).rng
    inner := (m.inner.bumpVersion.batch xs m.rng).inner
    dirty := true }

theorem adaptBatch_bind {α : Type} (xs : List (Pattern F))
    (f : Batch F S → Program HeatherError (AtomicMutation F S) α) (m : AtomicMutation F S)
    (fs : List (Option HeatherError)) :
    (adaptBatch xs >>= f) ⟨m, fs⟩ = f (m.inner.bumpVersion.batch xs m.rng) ⟨m.batched xs, fs⟩ := rfl

theorem writeBatch_cases (inputs : List (List F)) (s : Session F S) (fs : List (Option HeatherError)) :
    (∃ e fs' s', writeBatch inputs ⟨s, fs⟩ = (.error e, ⟨s', fs'⟩) ∧
        Failed (s.collection.inner.version + 1) s s') ∨
      s.Fits (inputs.map .single) ∧ ∃ fs', writeBatch inputs ⟨s, fs⟩ =
        (.ok (), ⟨s.wrote (inputs.map .single) 0 (batchPuts s inputs), fs'⟩) := by
  unfold writeBatch
  refine failed_or_checked fun h1 hv h3 => ?_
  rw [h1, ofExcept_ok_bind]
  have h3 : (inputs.forM fun input => checkWrite s.collection.inner.config.d input input) = .ok () := h3
  have hfit : s.Fits (inputs.map .single) := fun x hx => by
    obtain ⟨input, hin, rfl⟩ := List.mem_map.mp hx
    exact checkWrite_ok (forM_ok h3 input hin)
  have hb := batch_config s.collection.inner.bumpVersion (inputs.map .single) s.rng
  refine (mutation_cases (m := (AtomicMutation.begin s).batched (inputs.map .single))
    (p := batchPuts s inputs) (a := ()) (i := (s.written (inputs.map .single) 0).inner)
    (k := fun _ => commit) hv ?_ (fun _ => rfl) rfl rfl rfl hb.1 rfl rfl).imp ?_ fun h => ⟨hfit, h⟩
  · rw [get_bind]
    simp only [begin, h3, ofExcept_ok_bind, adaptBatch_bind, get_bind]
    rfl
  · rw [show ((AtomicMutation.begin s).batched (inputs.map .single)).inner.version =
      s.collection.inner.version + 1 from hb.2]
    exact id

theorem writeWithMetadata_cases (input : List F) (metadata : List UInt8) (s : Session F S)
    (fs : List (Option HeatherError)) :
    (∃ e fs' s', writeWithMetadata input metadata ⟨s, fs⟩ = (.error e, ⟨s', fs'⟩) ∧
        Failed (s.collection.inner.version + 1) s s') ∨
      s.Fits [.single input] ∧ ∃ fs', writeWithMetadata input metadata ⟨s, fs⟩ =
        (.ok s.collection.inner.docNextId,
          ⟨s.wrote [.single input] 1 (documentPuts s input metadata), fs'⟩) := by
  unfold writeWithMetadata
  refine failed_or_checked fun h1 hv h3 => ?_
  rw [h1, ofExcept_ok_bind]
  have h3 : checkWrite s.collection.inner.config.d input input = .ok () := h3
  have hfit : s.Fits [.single input] := fun x hx => by
    obtain rfl := List.mem_singleton.mp hx
    exact checkWrite_ok h3
  have hsettle := settle_countDocuments (s.adapted (.single input)).inner 1
    (s.adapted (.single input)).result
  refine (mutation_cases (m := { (AtomicMutation.begin s).adapted (.single input) with
      inner := (s.adapted (.single input)).inner.countDocuments 1 })
    (p := documentPuts s input metadata) (a := s.collection.inner.docNextId)
    (i := (s.written [.single input] 1).inner)
    (k := fun _ => do
      edit (·.settle (s.adapted (.single input)).result)
      commit
      pure s.collection.inner.docNextId)
    hv ?_ (fun fs => ?_) rfl rfl rfl rfl rfl rfl).imp id fun h => ⟨hfit, h⟩
  · rw [get_bind]
    simp only [begin, h3, ofExcept_ok_bind, adaptOnce_bind]
    rfl
  · show (Except.ok _, World.mk (AtomicMutation.mk _ _ _ _
      (((s.adapted (.single input)).inner.countDocuments 1).settle _) _ _) fs) = _
    rw [hsettle]
    rfl

theorem writeBatchWithMetadata_cases (items : List (List F × List UInt8)) (s : Session F S)
    (fs : List (Option HeatherError)) :
    (∃ e fs' s', writeBatchWithMetadata items ⟨s, fs⟩ = (.error e, ⟨s', fs'⟩) ∧
        Failed (s.collection.inner.version + 1) s s') ∨
      (items = [] ∧ writeBatchWithMetadata items ⟨s, fs⟩ = (.ok [], ⟨s, fs⟩)) ∨
      (items ≠ [] ∧ s.Fits (items.map fun item => .single item.1) ∧
        ∃ fs', writeBatchWithMetadata items ⟨s, fs⟩ =
        (.ok (List.range' s.collection.inner.docNextId items.length),
          ⟨s.wrote (items.map fun item => .single item.1) items.length (documentBatchPuts s items), fs'⟩)) := by
  unfold writeBatchWithMetadata
  refine failed_or_checked fun h1 hv h3 => ?_
  rw [h1, ofExcept_ok_bind]
  have h3 : (items.forM fun item => checkWrite s.collection.inner.config.d item.1 item.1) = .ok () := h3
  by_cases hemp : items = []
  · subst hemp
    refine Or.inr (Or.inl ⟨rfl, atomicMutation_valid (m := .begin s) hv ?_⟩)
    rw [get_bind]
    rfl
  have hne : items.isEmpty = false := by simpa using hemp
  have hfit : s.Fits (items.map fun item => .single item.1) := fun x hx => by
    obtain ⟨item, hin, rfl⟩ := List.mem_map.mp hx
    exact checkWrite_ok (forM_ok h3 item hin)
  have hb := batch_config s.collection.inner.bumpVersion (items.map fun item => .single item.1) s.rng
  refine (mutation_cases (m := { (AtomicMutation.begin s).batched (items.map fun item => .single item.1) with
      inner := (s.written (items.map fun item => .single item.1) items.length).inner })
    (p := documentBatchPuts s items) (a := List.range' s.collection.inner.docNextId items.length)
    (i := (s.written (items.map fun item => .single item.1) items.length).inner)
    (k := fun _ => do
      commit
      pure (List.range' s.collection.inner.docNextId items.length))
    hv ?_ (fun _ => rfl) rfl rfl rfl hb.1 rfl rfl).imp ?_ fun h => Or.inr ⟨hemp, hfit, h⟩
  · rw [get_bind]
    simp only [begin, h3, ofExcept_ok_bind, adaptBatch_bind, hne, Bool.false_eq_true, ↓reduceIte]
    rfl
  · rw [show ((s.written (items.map fun item => .single item.1) items.length).inner).version =
      s.collection.inner.version + 1 from hb.2]
    exact id

end HeatherDb
