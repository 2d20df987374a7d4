/-
# What a consolidation does

One theorem each for merge, compression, the snapshot load and the deletion of
a document, of the same form as those of the writes.

Key definitions: `Store.migrated`, `Session.merged`, `Session.compressed`,
`Session.replaced`.
Key theorems: `merge_cases`, `compress_cases`, `loadSnapshotChecked_cases`,
`deleteDocument_cases`.
-/
import HeatherDb.Guard

namespace HeatherDb

open Scalar Narrow Program AtomicMutation

variable {F S : Type} [Narrow F S]

/-! ### Consolidations -/

/-- A removed location's postings at the end of its survivor's. -/
def Store.migrated (collectionId : ℕ) (s : Store F) (e : ℕ × ℕ) : Store F :=
  let removedDocs := s.docIdsForLocation collectionId e.1
  if removedDocs = [] then s.deleteDocIndexEntry collectionId e.1
  else (s.putDocIndexEntry collectionId e.2 (s.docIdsForLocation collectionId e.2 ++ removedDocs)).deleteDocIndexEntry
    collectionId e.1

/-- A removed location's postings at the end of its chain, and no record. -/
def Store.absorbed (collectionId : ℕ) (parent : List (ℕ × ℕ)) (s : Store F) (removed : ℕ) : Store F :=
  Store.deleteLocation
    (match Absorb.resolve parent (parent.length + 1) removed with
      | none => s
      | some finalSurv => s.migrated collectionId (removed, finalSurv)) collectionId removed

theorem steady_migratePostings (collectionId : ℕ) (txn : Store F) (e : ℕ × ℕ) :
    Steady (txn.migratePostings collectionId e) (txn.migrated collectionId e) := by
  unfold Store.migratePostings Store.migrated
  dsimp only
  split_ifs
  · exact (Steady.pure _).bind (Store.steady_write _)
  · exact (Store.steady_write _).bind (Store.steady_write _)

theorem steady_absorbRemoved (collectionId : ℕ) (parent : List (ℕ × ℕ)) (txn : Store F) (removed : ℕ) :
    Steady (txn.absorbRemoved collectionId parent removed) (txn.absorbed collectionId parent removed) := by
  unfold Store.absorbRemoved Store.absorbed
  cases Absorb.resolve parent (parent.length + 1) removed with
  | none => exact Steady.fail _ _
  | some finalSurv => exact (steady_migratePostings _ _ _).bind (Store.steady_write _)

variable [Scalar F]

/-- The store after a merge that removed these locations. -/
def Store.mergedInto (s : Store F) (collectionId : ℕ) (result : MergeResult) : Store F :=
  result.removedIds.foldl (fun s id => s.deleteLocation collectionId id)
    (result.mergeMap.foldl (Store.migrated collectionId) s)

/-- The store after a compression that left these locations. -/
def Store.compressedInto (s : Store F) (collectionId : ℕ) (left : List (HardLocation F))
    (parent : List (ℕ × ℕ)) : Store F :=
  left.foldl (fun s loc => s.putLocation collectionId loc)
    ((parent.map (·.1)).foldl (Store.absorbed collectionId parent) s)

omit [Scalar F] in
theorem steady_mergeTransaction (collectionId : ℕ) (result : MergeResult) (txn : Store F) :
    Steady (mergeTransaction collectionId result txn) ((), txn.mergedInto collectionId result) :=
  (Steady.foldlM (fun _ _ => steady_migratePostings _ _ _) _ _).bind
    ((Steady.foldlM (fun _ _ => Store.steady_write _) _ _).bind (Steady.pure _))

theorem steady_compressTransaction (collectionId : ℕ) (left : List (HardLocation F)) (parent : List (ℕ × ℕ))
    (txn : Store F) :
    Steady (compressTransaction collectionId left parent txn)
      ((), txn.compressedInto collectionId left parent) :=
  (Steady.foldlM (fun _ _ => steady_absorbRemoved _ _ _ _) _ _).bind
    ((Steady.foldlM (fun _ _ => Store.steady_write _) _ _).bind (Steady.pure _))

/-- The session after a merge. -/
def Session.merged [SeededUniform F] (s : Session F S) : Session F S :=
  let inner := s.collection.inner.bumpVersion
  let merged := knnMerge s.collection.inner.locations s.collection.inner.config
  if merged.1.removedIds = [] then s.materialized.remember { inner with locations := merged.2 } s.rng
  else
    { store := s.materialized.store.mergedInto s.collection.collectionId merged.1
      rng := s.rng
      collection :=
        { s.collection with inner := EAMInner.rebuildGraphCache { inner with locations := merged.2 } } }

/-- What compression leaves, and its merges. -/
def Session.compression (s : Session F S) (kappa lambda : F) : List (HardLocation F) × List (ℕ × ℕ) :=
  let before := s.collection.inner.locations
  compressLoop kappa lambda (totalWeight before) before.length before []

/-- The session after a compression. -/
def Session.compressed (s : Session F S) (kappa lambda : F) : Session F S :=
  let after := s.compression kappa lambda
  if after.2 = [] then s.materialized
  else
    { store := s.materialized.store.compressedInto s.collection.collectionId after.1 after.2
      rng := s.rng
      collection :=
        { s.collection with
          inner := EAMInner.rebuildGraphCache { s.collection.inner with locations := after.1 } } }

/-- The result of a compression. -/
def Session.compressResult (s : Session F S) (kappa lambda : F) : CompressResult F :=
  let before := s.collection.inner.locations
  let after := s.compression kappa lambda
  { locationsBefore := before.length
    locationsAfter := after.1.length
    descriptionLengthBefore := descriptionLengthOf kappa (totalWeight before) before
    descriptionLengthAfter := descriptionLengthOf kappa (totalWeight before) after.1
    merges := after.2.length }

theorem storeMerge_bind {α : Type} (result : MergeResult)
    (k : Unit → Program HeatherError (AtomicMutation F S) α) (m : AtomicMutation F S)
    (fs : List (Option HeatherError)) :
    (∃ e fs', (storeMerge result >>= k) ⟨m, fs⟩ = (.error e, ⟨m, fs'⟩)) ∨
      ∃ fs', (storeMerge result >>= k) ⟨m, fs⟩ = k () ⟨if result.removedIds = [] then m else
        { m with
          store := m.store.mergedInto m.collectionId result
          inner := m.inner.rebuildGraphCache
          dirty := true }, fs'⟩ := by
  unfold storeMerge
  split_ifs with h
  · exact Or.inr ⟨fs, rfl⟩
  · rcases inTransaction_cases (m := m) (steady_mergeTransaction m.collectionId result m.store) fs with
      ⟨e, fs', ht⟩ | ⟨fs', ht⟩
    · refine Or.inl ⟨e, fs', ?_⟩
      rw [bind_assoc, get_bind, bind_assoc, bind_of_error ht]
    · refine Or.inr ⟨fs', ?_⟩
      rw [bind_assoc, get_bind, bind_assoc, bind_of_ok ht, edit, modify_bind]

theorem storeCompressed_bind {α : Type} (left : List (HardLocation F)) (parent : List (ℕ × ℕ))
    (k : Unit → Program HeatherError (AtomicMutation F S) α) (m : AtomicMutation F S)
    (fs : List (Option HeatherError)) :
    (∃ e fs', (storeCompressed left parent >>= k) ⟨m, fs⟩ =
        (.error e, ⟨{ m with inner := { m.inner with locations := left }, dirty := true }, fs'⟩)) ∨
      ∃ fs', (storeCompressed left parent >>= k) ⟨m, fs⟩ = k () ⟨if parent = [] then m else
        { m with
          store := m.store.compressedInto m.collectionId left parent
          inner := EAMInner.rebuildGraphCache { m.inner with locations := left }
          dirty := true }, fs'⟩ := by
  unfold storeCompressed
  split_ifs with h
  · exact Or.inr ⟨fs, rfl⟩
  · rcases inTransaction_cases (m := { m with inner := { m.inner with locations := left }, dirty := true })
      (steady_compressTransaction m.collectionId left parent m.store) fs with ⟨e, fs', ht⟩ | ⟨fs', ht⟩
    · refine Or.inl ⟨e, fs', ?_⟩
      rw [bind_assoc, edit, modify_bind, bind_assoc, get_bind, bind_assoc, bind_of_error ht]
    · refine Or.inr ⟨fs', ?_⟩
      rw [bind_assoc, edit, modify_bind, bind_assoc, get_bind, bind_assoc, bind_of_ok ht, edit, modify_bind]

/-- **A merge** failed, or happened as a whole. -/
theorem merge_cases [SeededUniform F] (s : Session F S) (fs : List (Option HeatherError)) :
    (∃ e fs' s', merge ⟨s, fs⟩ = (.error e, ⟨s', fs'⟩) ∧ Failed (s.collection.inner.version + 1) s s') ∨
      ∃ fs', merge ⟨s, fs⟩ =
        (.ok (knnMerge s.collection.inner.locations s.collection.inner.config).1.mergeCount,
          ⟨s.merged, fs'⟩) := by
  by_cases hv : s.collection.inner.valid = true
  swap
  · exact Or.inl ⟨_, _, s, atomicMutation_invalid (by simpa using hv) _ _, .unchanged⟩
  set merged := knnMerge s.collection.inner.locations s.collection.inner.config with hmerged
  -- the memory after the merge, before its transaction
  let m : AtomicMutation F S := ⟨s.materialized.store, s.rng, s.collection.collectionId, s.collection.name,
    { s.collection.inner.bumpVersion with locations := merged.2 }, false, true⟩
  let done : AtomicMutation F S := if merged.1.removedIds = [] then m else
    { m with
      store := m.store.mergedInto m.collectionId merged.1
      inner := m.inner.rebuildGraphCache
      dirty := true }
  refine (consolidation_cases (m := m) (n := { done with committed := true }) (a := merged.1.mergeCount) hv rfl
    (fun fs => ?_) rfl rfl rfl rfl rfl rfl rfl).imp id fun ⟨fs', h⟩ => ⟨fs', h.trans ?_⟩
  · rcases storeMerge_bind merged.1 (fun _ => do commit; pure merged.1.mergeCount) m fs with
      ⟨e, fs', h⟩ | ⟨fs', h⟩
    · exact Or.inl ⟨e, fs', h⟩
    · exact Or.inr ⟨fs', h⟩
  · by_cases hr : merged.1.removedIds = []
    · have hdone : done = m := if_pos hr
      have hs : s.merged = s.materialized.remember m.inner s.rng := if_pos hr
      rw [hs, hdone]
      rfl
    · have hdone : done = _ := if_neg hr
      have hs : s.merged = _ := if_neg hr
      rw [hs, hdone]

/-- A compression that merges nothing stores documents inline, or fails and
changes nothing. -/
theorem compress_idle_cases {kappa lambda : F} {s : Session F S}
    (hidle : (s.compression kappa lambda).2 = []) (fs : List (Option HeatherError)) :
    (∃ e fs', compress kappa lambda ⟨s, fs⟩ = (.error e, ⟨s, fs'⟩)) ∨
      ∃ fs', compress kappa lambda ⟨s, fs⟩ = (.ok (s.compressResult kappa lambda), ⟨s.materialized, fs'⟩) := by
  by_cases hv : s.collection.inner.valid = true
  swap
  · exact Or.inl ⟨_, _, atomicMutation_invalid (by simpa using hv) _ _⟩
  refine materialization_cases (n := { AtomicMutation.materialized s with committed := true })
    (a := s.compressResult kappa lambda) hv rfl (fun fs => ⟨fs, ?_⟩) rfl
  have hstore : storeCompressed (F := F) (S := S) (s.compression kappa lambda).1
      (s.compression kappa lambda).2 = pure () := by rw [storeCompressed, if_pos hidle]
  rw [get_bind]
  show (storeCompressed (s.compression kappa lambda).1 (s.compression kappa lambda).2 >>= _) _ = _
  rw [hstore]
  rfl

/-- **A compression** failed, or happened as a whole; it never counts in the
version. -/
theorem compress_cases (kappa lambda : F) (s : Session F S) (fs : List (Option HeatherError)) :
    (∃ e fs' s', compress kappa lambda ⟨s, fs⟩ = (.error e, ⟨s', fs'⟩) ∧
        Failed s.collection.inner.version s s') ∨
      ∃ fs', compress kappa lambda ⟨s, fs⟩ =
        (.ok (s.compressResult kappa lambda), ⟨s.compressed kappa lambda, fs'⟩) := by
  by_cases hr : (s.compression kappa lambda).2 = []
  · have hs : s.compressed kappa lambda = s.materialized := if_pos hr
    rw [hs]
    exact (compress_idle_cases hr fs).imp_left fun ⟨e, fs', h⟩ => ⟨e, fs', s, h, .unchanged⟩
  by_cases hv : s.collection.inner.valid = true
  swap
  · exact Or.inl ⟨_, _, s, atomicMutation_invalid (by simpa using hv) _ _, .unchanged⟩
  set after := s.compression kappa lambda with hafter
  -- the memory before the second transaction
  let m : AtomicMutation F S := ⟨s.materialized.store, s.rng, s.collection.collectionId, s.collection.name,
    { s.collection.inner with locations := after.1 }, false, true⟩
  let done : AtomicMutation F S :=
    { AtomicMutation.materialized s with
      store := s.materialized.store.compressedInto s.collection.collectionId after.1 after.2
      inner := EAMInner.rebuildGraphCache { s.collection.inner with locations := after.1 }
      dirty := true }
  refine (consolidation_cases (m := m) (n := { done with committed := true })
    (a := s.compressResult kappa lambda) hv rfl (fun fs => ?_) rfl rfl rfl rfl rfl rfl rfl).imp id
    fun ⟨fs', h⟩ => ⟨fs', h.trans ?_⟩
  · rcases storeCompressed_bind after.1 after.2 (fun _ => do commit; pure (s.compressResult kappa lambda))
      (.materialized s) fs with ⟨e, fs', h⟩ | ⟨fs', h⟩
    · exact Or.inl ⟨e, fs', h⟩
    · rw [if_neg hr] at h
      exact Or.inr ⟨fs', h⟩
  · have hs : s.compressed kappa lambda = _ := if_neg hr
    rw [hs]
    rfl

/-! ### Snapshots -/

/-- The store after a snapshot took the place of these locations. -/
def Store.replacedBy (s : Store F) (collectionId : ℕ) (old : List (HardLocation F)) (locations : List (HardLocation F))
    (config : EAMConfig F) : Store F :=
  (old.foldl (fun s loc => s.deleteLocation collectionId loc.id) s).putAll collectionId
    (snapshotPuts locations config)

/-- The session after a snapshot load. -/
def Session.replaced (s : Session F S) (locations : List (HardLocation F)) (config : EAMConfig F) : Session F S :=
  { store := s.materialized.store.replacedBy s.collection.collectionId s.collection.inner.locations locations config
    rng := s.rng
    collection :=
      { s.collection with
        inner := EAMInner.rebuildGraphCache
          { s.collection.inner.bumpVersion with
            locations := locations
            config := config
            nextId := nextIdOf locations } } }

theorem steady_snapshotTransaction (collectionId : ℕ) (old : List (HardLocation F)) (locations : List (HardLocation F))
    (config : EAMConfig F) (txn : Store F) :
    Steady (snapshotTransaction collectionId old locations config txn)
      ((), txn.replacedBy collectionId old locations config) :=
  (Steady.foldlM (fun _ _ => Store.steady_write _) _ _).bind ((steady_persist _ _ _).bind (Steady.pure _))

/-- **A snapshot load** failed, or replaced the memory whose version it expected. -/
theorem loadSnapshotChecked_cases (locations : List (HardLocation F)) (config : EAMConfig F) (expected : Option ℕ)
    (s : Session F S) (fs : List (Option HeatherError)) :
    (∃ e fs' s', loadSnapshotChecked locations config expected ⟨s, fs⟩ = (.error e, ⟨s', fs'⟩) ∧
        Failed (s.collection.inner.version + 1) s s') ∨
      ((∀ v, expected = some v → s.collection.inner.version = v) ∧
        (∀ loc ∈ locations, loc.address.length = config.d) ∧
        ∃ fs', loadSnapshotChecked locations config expected ⟨s, fs⟩ =
          (.ok (), ⟨s.replaced locations config, fs'⟩)) := by
  unfold loadSnapshotChecked
  cases h1 : config.validate with
  | error e => exact Or.inl ⟨e, fs, s, rfl, .unchanged⟩
  | ok u =>
  rw [ofExcept_ok_bind]
  refine failed_or_checked fun h2 hv h3 => ?_
  rw [h2, ofExcept_ok_bind]
  have h3 : checkVersion s.collection.name s.collection.inner.version expected = .ok () := h3
  have hversion : ∀ v, expected = some v → s.collection.inner.version = v := by
    rintro v rfl
    simp only [checkVersion] at h3
    split_ifs at h3 with heq
    exact heq
  have hlengths : ∀ loc ∈ locations, loc.address.length = config.d := fun loc hmem => by
    have := forM_ok h2 loc hmem
    split_ifs at this with heq
    exact heq
  -- the memory before the second transaction
  let m : AtomicMutation F S := ⟨s.materialized.store, s.rng, s.collection.collectionId, s.collection.name,
    s.collection.inner.bumpVersion, false, true⟩
  let done : AtomicMutation F S :=
    { m with
      store := m.store.replacedBy m.collectionId m.inner.locations locations config
      inner := EAMInner.rebuildGraphCache
        { m.inner with
          locations := locations
          config := config
          nextId := nextIdOf locations }
      committed := true }
  refine (consolidation_cases (m := m) (n := done) (a := ()) hv (k := fun _ => do
    edit (·.bumpVersion)
    let m ← get
    inTransaction (snapshotTransaction m.collectionId m.inner.locations locations config)
    edit fun inner => EAMInner.rebuildGraphCache
      { inner with
        locations := locations
        config := config
        nextId := nextIdOf locations }
    commit) ?_ (fun fs => ?_) rfl rfl rfl rfl rfl rfl rfl).imp id fun h => ⟨hversion, hlengths, h⟩
  · rw [get_bind]
    simp only [begin, h3, ofExcept_ok_bind]
  · rw [edit, modify_bind, get_bind]
    rcases inTransaction_cases (m := m)
      (steady_snapshotTransaction m.collectionId m.inner.locations locations config m.store) fs with
      ⟨e, fs', h⟩ | ⟨fs', h⟩
    · exact Or.inl ⟨e, fs', bind_of_error h _⟩
    · exact Or.inr ⟨fs', bind_of_ok h _⟩

/-- An expected version that is not the collection's is refused, and nothing changes. -/
theorem loadSnapshotChecked_conflict {locations : List (HardLocation F)} {config : EAMConfig F} {v : ℕ} {s : Session F S}
    (hconfig : config.validate = .ok ()) (haddr : checkAddresses config locations = .ok ())
    (hv : s.collection.inner.valid = true) (hne : s.collection.inner.version ≠ v)
    (fs : List (Option HeatherError)) :
    ∃ msg, loadSnapshotChecked locations config (some v) ⟨s, fs⟩ = (.error (.conflict msg), ⟨s, fs⟩) := by
  unfold loadSnapshotChecked
  rw [hconfig, haddr, ofExcept_ok_bind, ofExcept_ok_bind]
  obtain ⟨msg, hmsg⟩ : ∃ msg, checkVersion s.collection.name s.collection.inner.version (some v) =
      .error (.conflict msg) := ⟨_, if_neg hne⟩
  refine ⟨msg, atomicMutation_valid (m := .begin s) hv ?_⟩
  rw [get_bind]
  simp only [begin, hmsg, ofExcept_error_bind]

/-! ### Where errors come from -/

omit [Scalar F] in
theorem blames_write (txn : Store F) : Blames (Store.write txn) := Blames.step.bind fun _ => Blames.pure txn

theorem blames_persist (collectionId : ℕ) (p : Puts F) (txn : Store F) : Blames (txn.persist collectionId p) := by
  unfold Store.persist
  refine (Blames.foldlM (fun _ _ => blames_write _) _ _).bind fun txn => ?_
  refine (Blames.foldlM (fun _ _ => blames_write _) _ _).bind fun txn => ?_
  refine (Blames.foldlM (fun _ _ => blames_write _) _ _).bind fun txn => ?_
  exact Blames.foldlM (fun _ _ => blames_write _) _ _

omit [Scalar F] [Narrow F S] in
theorem blames_inTransaction {α : Type} {body : Store F → Program HeatherError (Store F) (α × Store F)}
    (h : ∀ txn, Blames (body txn)) : Blames (inTransaction (S := S) body) :=
  (Blames.transaction h).zoom _ _

omit [Scalar F] in
theorem blames_materializeDocumentRefs : Blames (materializeDocumentRefs (F := F) (S := S)) := by
  unfold materializeDocumentRefs
  refine Blames.get_bind fun m => ?_
  rw [mapM_ok (inlineDocument_eq _ _)]
  refine (Blames.pure _).bind fun rewritten => ?_
  dsimp only
  split_ifs
  · exact Blames.pure ()
  · apply blames_inTransaction
    intro txn
    exact (Blames.foldlM (fun _ _ => blames_write _) _ _).bind fun _ => Blames.pure _

/-- The guard of a valid memory adds no error. -/
theorem atomicMutation_blamesAt {α : Type} {s : Session F S} (hv : s.collection.inner.valid = true)
    {body : Program HeatherError (AtomicMutation F S) α} {fs : List (Option HeatherError)}
    (hbody : BlamesAt body ⟨.begin s, fs⟩) : BlamesAt (atomicMutation body) ⟨s, fs⟩ := by
  obtain ⟨hsuffix, herror⟩ := hbody
  rcases hb : body ⟨.begin s, fs⟩ with ⟨r, ⟨m, fs'⟩⟩
  rw [hb] at hsuffix herror
  rw [BlamesAt, atomicMutation_valid hv hb]
  exact ⟨hsuffix, herror⟩

theorem blames_snapshotTransaction (collectionId : ℕ) (old : List (HardLocation F)) (locations : List (HardLocation F))
    (config : EAMConfig F) (txn : Store F) : Blames (snapshotTransaction collectionId old locations config txn) :=
  (Blames.foldlM (fun _ _ => blames_write _) _ _).bind fun _ => (blames_persist _ _ _).bind fun _ => Blames.pure _

/-- A snapshot in order that expects no version fails only with the storage. -/
theorem loadSnapshot_blames {locations : List (HardLocation F)} {config : EAMConfig F} (hconfig : config.validate = .ok ())
    (haddr : checkAddresses config locations = .ok ()) {s : Session F S}
    {fs : List (Option HeatherError)} {e : HeatherError} {w : World HeatherError (Session F S)}
    (h : loadSnapshot locations config ⟨s, fs⟩ = (.error e, w)) : e = recoveryFailed ∨ some e ∈ fs := by
  unfold loadSnapshot loadSnapshotChecked at h
  rw [hconfig, haddr, ofExcept_ok_bind, ofExcept_ok_bind] at h
  by_cases hv : s.collection.inner.valid = true
  · right
    set body : Program HeatherError (AtomicMutation F S) Unit := do
      let m ← get
      ofExcept (checkVersion m.name m.inner.version none)
      materializeDocumentRefs
      edit (·.bumpVersion)
      let m ← get
      inTransaction (snapshotTransaction m.collectionId m.inner.locations locations config)
      edit fun inner => EAMInner.rebuildGraphCache
        { inner with
          locations := locations
          config := config
          nextId := nextIdOf locations }
      commit
    have hbody : Blames body := by
      refine Blames.get_bind fun m => (Blames.pure ()).bind fun _ => ?_
      refine blames_materializeDocumentRefs.bind fun _ => (Blames.modify _).bind fun _ => Blames.get_bind fun m => ?_
      refine (blames_inTransaction fun txn => blames_snapshotTransaction _ _ _ _ txn).bind fun _ => ?_
      exact (Blames.modify _).bind fun _ => Blames.modify _
    exact (atomicMutation_blamesAt hv (hbody ⟨.begin s, fs⟩)).2 e (congrArg (·.1) h)
  · left
    have hrun := (atomicMutation_invalid (by simpa using hv) _ fs).symm.trans h
    rw [Prod.mk.injEq, Except.error.injEq] at hrun
    exact hrun.1.symm

/-! ### Deletions -/

/-- The store without a document. -/
def Store.withoutDocument (s : Store F) (collectionId writeIndex : ℕ) : Store F :=
  let rewrites := (s.docIndex.under collectionId).entries.filter fun e => writeIndex ∈ e.2
  rewrites.foldl (fun s e => s.dropFromList collectionId writeIndex e)
    (if (s.getDocument collectionId writeIndex).isSome then s.deleteDocument collectionId writeIndex else s)

omit [Scalar F] in
theorem steady_deleteDocumentEverywhere (txn : Store F) (collectionId writeIndex : ℕ) :
    Steady (txn.deleteDocumentEverywhere collectionId writeIndex)
      ((txn.getDocument collectionId writeIndex).isSome, txn.withoutDocument collectionId writeIndex) := by
  unfold Store.deleteDocumentEverywhere Store.withoutDocument
  dsimp only
  split_ifs
  · exact (Store.steady_write _).bind
      ((Steady.foldlM (fun _ _ => Store.steady_write _) _ _).bind (Steady.pure _))
  · exact (Steady.pure _).bind ((Steady.foldlM (fun _ _ => Store.steady_write _) _ _).bind (Steady.pure _))

omit [Narrow F S] [Scalar F] in
/-- **A deletion** failed and changed nothing, or happened as a whole. -/
theorem deleteDocument_cases (writeIndex : ℕ) (s : Session F S) (fs : List (Option HeatherError)) :
    (∃ e fs', deleteDocument writeIndex ⟨s, fs⟩ = (.error e, ⟨s, fs'⟩)) ∨
      ∃ fs', deleteDocument writeIndex ⟨s, fs⟩ =
        (.ok (s.store.getDocument s.collection.collectionId writeIndex).isSome,
          ⟨{ s with store := s.store.withoutDocument s.collection.collectionId writeIndex }, fs'⟩) := by
  unfold deleteDocument readInner
  rw [bind_assoc, get_bind]
  cases hv : checkValid s.collection.inner with
  | error e => exact Or.inl ⟨e, fs, by rw [bind_assoc, ofExcept_error_bind]⟩
  | ok u =>
  rw [bind_assoc, ofExcept_ok_bind, pure_bind, get_bind]
  rcases transaction_cases (w := ⟨s.store, fs⟩)
    (f := fun txn => txn.deleteDocumentEverywhere s.collection.collectionId writeIndex)
    (steady_deleteDocumentEverywhere s.store s.collection.collectionId writeIndex) with ⟨e, fs', h⟩ | ⟨fs', h⟩
  · exact Or.inl ⟨e, fs', by simp [zoom, h]⟩
  · exact Or.inr ⟨fs', by simp [zoom, h]⟩

end HeatherDb
