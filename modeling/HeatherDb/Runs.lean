/-
# Calls and runs

A call is one of the operations that change a collection or its documents,
and an event is a call with the answer it got. Each call runs whole under the
collection's lock, so the calls of any number of clients are one list of
events (`Run Step`); the storage answers each of its steps as it likes, with
success or an error of its own.

Every event of a run either failed, and left what `Failed` allows, or had the
call's whole effect (`step_cases`).

Key definitions: `Call`, `Reply`, `Step`, `Call.effect`.
Key theorem: `step_cases`.
-/
import HeatherDb.Consolidation
import HeatherDb.Lib.Runs
import HeatherDb.Writes

namespace HeatherDb

open Scalar Narrow Program

/-- Locations to load, the vectors of each of one length. Every caller's are:
`bulk_load` checks both lengths and the algebra keeps them, and the encoder of a
location asserts it; `load_snapshot_checked` itself looks at addresses only. -/
structure Snapshot (F : Type) where
  locations : List (HardLocation F)
  lengths : ∀ loc ∈ locations, loc.counter.length = loc.address.length

/-- A call that can change a collection or its documents. -/
inductive Call (F : Type) where
  | write (input : List F)
  | writeTwo (address counter : List F) (opts : WriteOpts F)
  | writeBatch (inputs : List (List F))
  | writeWithMetadata (input : List F) (metadata : List UInt8)
  | writeBatchWithMetadata (items : List (List F × List UInt8))
  | merge
  | compress (kappa lambda : F)
  | loadSnapshotChecked (snapshot : Snapshot F) (config : EAMConfig F) (expected : Option ℕ)
  | deleteDocument (writeIndex : ℕ)

/-- What a call returns. -/
inductive Reply (F : Type) where
  | done
  | documents (ids : List ℕ)
  | merges (n : ℕ)
  | compressed (result : CompressResult F)
  | deleted (existed : Bool)

variable {F S : Type} [Narrow F S]

/-! ### Where runs start -/

/-- The store has no record of the collection. -/
structure Store.Untouched (store : Store F) (collectionId : ℕ) : Prop where
  locations : ∀ id, store.locationAt? collectionId id = none
  documents : ∀ id, store.getDocument collectionId id = none
  metadata : ∀ key, store.loadMetadata collectionId key = none
  postings : ∀ id, store.docIndex.get ⟨collectionId, id⟩ = none

theorem Store.Untouched.loadU64 {store : Store F} {collectionId : ℕ} (h : store.Untouched collectionId)
    (key : String) (default : ℕ) : store.loadU64 collectionId key default = .ok default := by
  rw [Store.loadU64, h.metadata]

variable [Scalar F]

/-- A new collection in its store. -/
def Session.fresh (collectionId : ℕ) (name : String) (config : EAMConfig F) (rng : Rng F) (store : Store F) :
    Session F S :=
  { store := store.putAll collectionId (newPuts config rng)
    rng := (randomLocations config rng).2
    collection := ⟨collectionId, name, .opened config (randomLocations config rng).1 config.l0 config.eta0 0⟩ }

/-- **A creation** failed and changed nothing, or opened a new collection. -/
theorem new_cases (collectionId : ℕ) (name : String) (config : EAMConfig F) (rng : Rng F) (store : Store F)
    (fs : List (Option HeatherError)) :
    (∃ e fs', Collection.new (S := S) collectionId name config rng ⟨store, fs⟩ = (.error e, ⟨store, fs'⟩)) ∨
      ∃ fs', Collection.new (S := S) collectionId name config rng ⟨store, fs⟩ =
        (.ok ((Session.fresh collectionId name config rng store).collection,
          (Session.fresh (S := S) collectionId name config rng store).rng),
          ⟨(Session.fresh (S := S) collectionId name config rng store).store, fs'⟩) := by
  unfold Collection.new
  rcases transaction_cases (w := ⟨store, fs⟩) (f := putTransaction collectionId (newPuts config rng))
    (steady_putTransaction collectionId (newPuts config rng) store) with ⟨e, fs', h⟩ | ⟨fs', h⟩
  · exact Or.inl ⟨e, fs', bind_of_error h _⟩
  · exact Or.inr ⟨fs', bind_of_ok h _⟩

variable [Scalar S]

/-- The random locations of a new collection. -/
theorem randomLocations_ok (config : EAMConfig F) (rng : Rng F) :
    (randomLocations config rng).1.map (·.id) = List.range config.l0 ∧
      Shaped config.d (randomLocations config rng).1 := by
  unfold randomLocations
  generalize config.l0 = n
  induction n with
  | zero => exact ⟨rfl, by simp [Shaped]⟩
  | succ n ih =>
    rw [List.range_succ, List.foldl_append]
    simp only [List.foldl_cons, List.foldl_nil, List.map_append, ih.1, List.map_cons, HardLocation.id_new,
      List.map_nil, true_and]
    intro loc hloc
    rcases List.mem_append.mp hloc with hloc | hloc
    · exact ih.2 loc hloc
    · obtain rfl := List.mem_singleton.mp hloc
      simp [HardLocation.new]

/-! ### Calls -/

variable [SeededUniform F]

namespace Call

def run : Call F → Program HeatherError (Session F S) (Reply F)
  | .write input => do HeatherDb.write input; pure .done
  | .writeTwo address counter opts => do HeatherDb.writeTwo address counter opts; pure .done
  | .writeBatch inputs => do HeatherDb.writeBatch inputs; pure .done
  | .writeWithMetadata input metadata => do
    let id ← HeatherDb.writeWithMetadata input metadata
    pure (.documents [id])
  | .writeBatchWithMetadata items => do
    let ids ← HeatherDb.writeBatchWithMetadata items
    pure (.documents ids)
  | .merge => do
    let n ← HeatherDb.merge
    pure (.merges n)
  | .compress kappa lambda => do
    let result ← HeatherDb.compress kappa lambda
    pure (.compressed result)
  | .loadSnapshotChecked snapshot config expected => do
    HeatherDb.loadSnapshotChecked snapshot.locations config expected
    pure .done
  | .deleteDocument writeIndex => do
    let existed ← HeatherDb.deleteDocument writeIndex
    pure (.deleted existed)

/-- The patterns a call writes. -/
def patterns : Call F → List (Pattern F)
  | .write input => [.single input]
  | .writeTwo address counter opts => [⟨address, counter, opts⟩]
  | .writeBatch inputs => inputs.map .single
  | .writeWithMetadata input _ => [.single input]
  | .writeBatchWithMetadata items => items.map fun item => .single item.1
  | _ => []

/-- The documents a call writes. -/
def documents : Call F → List (List F × List UInt8)
  | .writeWithMetadata input metadata => [(input, metadata)]
  | .writeBatchWithMetadata items => items
  | _ => []

/-- The session after the call's whole effect. -/
def effect (s : Session F S) : Call F → Session F S
  | .write input => s.wrote [.single input] 0 (writePuts s (.single input))
  | .writeTwo address counter opts =>
    s.wrote [⟨address, counter, opts⟩] 0 (writePuts s ⟨address, counter, opts⟩)
  | .writeBatch inputs => s.wrote (inputs.map .single) 0 (batchPuts s inputs)
  | .writeWithMetadata input metadata => s.wrote [.single input] 1 (documentPuts s input metadata)
  | .writeBatchWithMetadata items =>
    if items = [] then s
    else s.wrote (items.map fun item => .single item.1) items.length (documentBatchPuts s items)
  | .merge => s.merged
  | .compress kappa lambda => s.compressed kappa lambda
  | .loadSnapshotChecked snapshot config _ => s.replaced snapshot.locations config
  | .deleteDocument writeIndex =>
    { s with store := s.store.withoutDocument s.collection.collectionId writeIndex }

/-- The answer to a call that had its effect. -/
def reply (s : Session F S) : Call F → Reply F
  | .write _ | .writeTwo .. | .writeBatch _ | .loadSnapshotChecked .. => .done
  | .writeWithMetadata .. => .documents [s.collection.inner.docNextId]
  | .writeBatchWithMetadata items => .documents (List.range' s.collection.inner.docNextId items.length)
  | .merge => .merges (knnMerge s.collection.inner.locations s.collection.inner.config).1.mergeCount
  | .compress kappa lambda => .compressed (s.compressResult kappa lambda)
  | .deleteDocument writeIndex =>
    .deleted (s.store.getDocument s.collection.collectionId writeIndex).isSome

/-- The documents a call and its answer say were written. -/
def written (c : Call F) : Except HeatherError (Reply F) → List (Document F)
  | .ok (.documents ids) => ids.zip c.documents
  | _ => []

/-- What the code checked of a call that had its effect. -/
def Accepted (s : Session F S) : Call F → Prop
  | .loadSnapshotChecked snapshot config expected =>
    (∀ v, expected = some v → s.collection.inner.version = v) ∧
      ∀ loc ∈ snapshot.locations, loc.address.length = config.d
  | c => s.Fits c.patterns

/-- The version of memory read back by a call that failed. -/
def failedVersion (s : Session F S) : Call F → ℕ
  | .compress .. => s.collection.inner.version
  | _ => s.collection.inner.version + 1

end Call

/-- A call with the answer it got. -/
abbrev Event (F : Type) := Call F × Except HeatherError (Reply F)

/-- The document was found deleted or deleted. -/
def Event.Deletes (id : ℕ) (e : Event F) : Prop := ∃ r, e = (.deleteDocument id, .ok r)

/-- A call that returned, whatever the storage did at each of its steps. -/
def Step (s : Session F S) (e : Event F) (s' : Session F S) : Prop :=
  e.2 ≠ .error .hang ∧ ∃ (plan : List (Option String)) (fs' : List (Option HeatherError)),
    e.1.run ⟨s, plan.map (Option.map .storage)⟩ = (e.2, ⟨s', fs'⟩)

omit [Scalar S] [SeededUniform F] in
/-- An answer passed on. -/
theorem map_cases {α β : Type} {m : Program HeatherError (Session F S) α} {g : α → β} {s : Session F S}
    {v : ℕ} {a : α} {t : Session F S} {P : Prop} {fs : List (Option HeatherError)}
    (h : (∃ e fs' s', m ⟨s, fs⟩ = (.error e, ⟨s', fs'⟩) ∧ Failed v s s') ∨
      P ∧ ∃ fs', m ⟨s, fs⟩ = (.ok a, ⟨t, fs'⟩)) :
    (∃ e fs' s', (do let a ← m; pure (g a)) ⟨s, fs⟩ = (Except.error e, ⟨s', fs'⟩) ∧ Failed v s s') ∨
      P ∧ ∃ fs', (do let a ← m; pure (g a)) ⟨s, fs⟩ = (Except.ok (g a), ⟨t, fs'⟩) := by
  rcases h with ⟨e, fs', s', h, hf⟩ | ⟨hp, fs', h⟩
  · exact Or.inl ⟨e, fs', s', bind_of_error h _, hf⟩
  · exact Or.inr ⟨hp, fs', bind_of_ok h _⟩

/-- Every call failed, or had its whole effect. -/
theorem Call.run_cases (c : Call F) (s : Session F S) (fs : List (Option HeatherError)) :
    (∃ e fs' s', c.run ⟨s, fs⟩ = (.error e, ⟨s', fs'⟩) ∧ Failed (c.failedVersion s) s s') ∨
      c.Accepted s ∧ ∃ fs', c.run ⟨s, fs⟩ = (.ok (c.reply s), ⟨c.effect s, fs'⟩) := by
  cases c with
  | write input => exact map_cases (write_cases input s fs)
  | writeTwo address counter opts => exact map_cases (writeTwo_cases address counter opts s fs)
  | writeBatch inputs => exact map_cases (writeBatch_cases inputs s fs)
  | writeWithMetadata input metadata => exact map_cases (writeWithMetadata_cases input metadata s fs)
  | writeBatchWithMetadata items =>
    refine map_cases ?_
    rcases writeBatchWithMetadata_cases items s fs with h | ⟨rfl, h⟩ | ⟨hemp, hfit, fs', h⟩
    · exact Or.inl h
    · exact Or.inr ⟨by simp [Accepted, Session.Fits, patterns], fs, h⟩
    · refine Or.inr ⟨hfit, fs', ?_⟩
      rw [h]
      simp only [effect, if_neg hemp]
  | merge => exact map_cases ((merge_cases s fs).imp id fun h => ⟨by simp [Accepted, Session.Fits, patterns], h⟩)
  | compress kappa lambda =>
    exact map_cases ((compress_cases kappa lambda s fs).imp id
      fun h => ⟨by simp [Accepted, Session.Fits, patterns], h⟩)
  | loadSnapshotChecked snapshot config expected =>
    exact map_cases ((loadSnapshotChecked_cases snapshot.locations config expected s fs).imp id
      fun ⟨hv, hl, h⟩ => ⟨⟨hv, hl⟩, h⟩)
  | deleteDocument writeIndex =>
    refine map_cases ((deleteDocument_cases writeIndex s fs).imp (fun ⟨e, fs', h⟩ => ⟨e, fs', s, h, .unchanged⟩)
      fun h => ⟨by simp [Accepted, Session.Fits, patterns], h⟩)

/-- **A step failed or was the call's whole effect.** -/
theorem step_cases {s s' : Session F S} {c : Call F} {r : Except HeatherError (Reply F)} (h : Step s (c, r) s') :
    (∃ e, r = .error e ∧ Failed (c.failedVersion s) s s') ∨
      c.Accepted s ∧ r = .ok (c.reply s) ∧ s' = c.effect s := by
  obtain ⟨-, plan, fs', h⟩ := h
  rcases c.run_cases s (plan.map (Option.map .storage)) with ⟨e, fs'', t, hrun, hf⟩ | ⟨hacc, fs'', hrun⟩
  · rw [hrun] at h
    simp only [Prod.mk.injEq, World.mk.injEq] at h
    obtain ⟨rfl, rfl, -⟩ := h
    exact Or.inl ⟨e, rfl, hf⟩
  · rw [hrun] at h
    simp only [Prod.mk.injEq, World.mk.injEq] at h
    obtain ⟨hr, hs, -⟩ := h
    exact Or.inr ⟨hacc, hr.symm, hs.symm⟩

/-- A call that succeeds when no storage step fails has its effect then. -/
theorem step_of_isOk {s : Session F S} {c : Call F} (h : (c.run ⟨s, []⟩).1.isOk = true) :
    Step s (c, .ok (c.reply s)) (c.effect s) := by
  refine ⟨by simp, [], ?_⟩
  rcases c.run_cases s [] with ⟨e, fs', t, hrun, -⟩ | ⟨-, fs', hrun⟩
  · simp [hrun, Except.isOk, Except.toBool] at h
  · exact ⟨fs', hrun⟩

/-- A call that a planned storage error stops. -/
theorem exists_step_of_storage {s : Session F S} {c : Call F} (plan : List (Option String))
    (h : (match (c.run ⟨s, plan.map (Option.map .storage)⟩).1 with
      | .error (.storage _) => true
      | _ => false) = true) : ∃ e s', Step s (c, .error e) s' := by
  rcases hrun : c.run ⟨s, plan.map (Option.map .storage)⟩ with ⟨r, s', fs'⟩
  rw [hrun] at h
  match r, h with
  | .error (.storage msg), _ => exact ⟨.storage msg, s', by simp, plan, fs', hrun⟩

end HeatherDb
