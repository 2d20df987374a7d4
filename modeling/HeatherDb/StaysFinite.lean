/-
# What stays finite

A database whose records and memories are finite (`FiniteHive`) stays so over
writes, whatever the storage does: a program that keeps the memory under the
guard finite at every step leaves a finite one, be it committed, untouched or
read back (`Ensures.guarded`). Writes validate their vectors. A snapshot load
does not: it keeps a memory finite if the snapshot is.

Key definitions: `FiniteStore`, `FiniteMemory`, `FiniteSession`, `FiniteHive`.
Key theorems: `FiniteBatch.next`, `Ensures.guarded`, `finite_writeBatch`,
`finite_writeBatchWithMetadata`, `finite_loadSnapshotChecked`.
-/
import HeatherDb.Hive
import HeatherDb.Unbounded

namespace HeatherDb

open Scalar Narrow HeatherDb.Valued Unbounded Program AtomicMutation

variable {F S : Type} [Scalar F] [Narrow F S] [Unbounded F]

/-! ### Records -/

/-- Every record that is read back is finite. -/
structure FiniteStore (config : EAMConfig F) (store : Store F) : Prop where
  locations : ∀ key r loc, store.locations.get key = some r → decodeLocation r = .ok loc → FiniteLocation config loc
  documents : ∀ key v metadata, store.documents.get key = some (.document v metadata) → FiniteVec v
  counters : ∀ key x, store.metadata.get key = some (.f64 x) → isFinite x = true

/-- Records worth storing. -/
structure FinitePuts (config : EAMConfig F) (p : Puts F) : Prop where
  locations : FiniteLocations config p.locations
  documents : ∀ d ∈ p.documents, ∀ v metadata, d.2 = .document v metadata → FiniteVec v
  counters : ∀ kv ∈ p.metadata, ∀ x, kv.2 = .f64 x → isFinite x = true

namespace FiniteStore

variable {config : EAMConfig F} {store : Store F}

omit [Unbounded F] in
theorem empty (p : Precision) : FiniteStore config (.empty p) := by
  refine ⟨fun key r loc h => ?_, fun key v metadata h => ?_, fun key x h => ?_⟩ <;>
    · rw [Store.empty, OrderedTable.get_empty] at h
      cases h

omit [Unbounded F] in
theorem putLocation [NarrowsFinite F] (h : FiniteStore config store) (collectionId : ℕ) {loc : HardLocation F}
    (hloc : FiniteLocation config loc) : FiniteStore config (store.putLocation collectionId loc) := by
  refine { h with locations := fun key r loc' hget hdec => ?_ }
  rw [Store.putLocation, OrderedTable.get_put] at hget
  split_ifs at hget
  · obtain rfl := Option.some.inj hget
    unfold encodeLocation at hdec
    split_ifs at hdec
    · obtain rfl := Except.ok.inj hdec
      exact ⟨hloc.address.atPrecision _, hloc.address.atPrecision _, hloc.writeCount, hloc.damped⟩
    · rw [decodeLocation] at hdec
      split_ifs at hdec
      obtain rfl := Except.ok.inj hdec
      exact ⟨hloc.address.atPrecision _, hloc.counter.atPrecision _, hloc.writeCount, hloc.damped⟩
  · exact h.locations key r loc' hget hdec

omit [Unbounded F] in
theorem deleteLocation (h : FiniteStore config store) (collectionId id : ℕ) :
    FiniteStore config (store.deleteLocation collectionId id) := by
  refine { h with locations := fun key r loc' hget hdec => ?_ }
  rw [Store.deleteLocation, OrderedTable.get_delete] at hget
  split_ifs at hget
  exact h.locations key r loc' hget hdec

omit [Unbounded F] in
theorem putDocument (h : FiniteStore config store) (collectionId writeIndex : ℕ) {r : DocumentRecord F}
    (hr : ∀ v metadata, r = .document v metadata → FiniteVec v) :
    FiniteStore config (store.putDocument collectionId writeIndex r) := by
  refine { h with documents := fun key v metadata hget => ?_ }
  rw [Store.putDocument, OrderedTable.get_put] at hget
  split_ifs at hget
  · exact hr v metadata (Option.some.inj hget)
  · exact h.documents key v metadata hget

omit [Unbounded F] in
theorem putMetadata (h : FiniteStore config store) (collectionId : ℕ) (key : String) {value : Metadatum F}
    (hvalue : ∀ x, value = .f64 x → isFinite x = true) :
    FiniteStore config (store.putMetadata collectionId key value) := by
  refine { h with counters := fun key' x hget => ?_ }
  rw [Store.putMetadata, OrderedTable.get_put] at hget
  split_ifs at hget
  · exact hvalue x (Option.some.inj hget)
  · exact h.counters key' x hget

omit [Unbounded F] in
theorem appendDocsToLocation (h : FiniteStore config store) (collectionId locationId : ℕ) (docIds : List ℕ) :
    FiniteStore config (store.appendDocsToLocation collectionId locationId docIds) := by
  unfold Store.appendDocsToLocation
  split_ifs
  · exact h
  · exact ⟨h.locations, h.documents, h.counters⟩

end FiniteStore

namespace FiniteStore

variable {config : EAMConfig F} {store : Store F}

omit [Unbounded F] in
theorem putDocuments (h : FiniteStore config store) (collectionId : ℕ) {documents : List (ℕ × DocumentRecord F)}
    (hdocuments : ∀ d ∈ documents, ∀ v metadata, d.2 = .document v metadata → FiniteVec v) :
    FiniteStore config (documents.foldl (fun s d => s.putDocument collectionId d.1 d.2) store) :=
  List.foldlRecOn (motive := FiniteStore config) _ _ h fun _ h d hd => h.putDocument _ _ (hdocuments d hd)

omit [Unbounded F] in
/-- **Finite records stored** leave a finite store. -/
theorem putAll [NarrowsFinite F] (h : FiniteStore config store) (collectionId : ℕ) {p : Puts F}
    (hp : FinitePuts config p) : FiniteStore config (store.putAll collectionId p) := by
  have hlocations : FiniteStore config (p.locations.foldl (fun s loc => s.putLocation collectionId loc) store) :=
    List.foldlRecOn (motive := FiniteStore config) _ _ h fun _ h loc hloc => h.putLocation _ (hp.locations loc hloc)
  have hdocuments := hlocations.putDocuments collectionId hp.documents
  refine List.foldlRecOn (motive := FiniteStore config) _ _ ?_ fun _ h kv hkv => h.putMetadata _ _ (hp.counters kv hkv)
  exact List.foldlRecOn (motive := FiniteStore config) _ _ hdocuments fun _ h e _ => h.appendDocsToLocation _ _ _

omit [Unbounded F] in
/-- A snapshot stored in place of other locations. -/
theorem replacedBy [NarrowsFinite F] (h : FiniteStore config store) (collectionId : ℕ) (old : List (HardLocation F))
    {locations : List (HardLocation F)} (hsnapshot : FiniteLocations config locations) :
    FiniteStore config (store.replacedBy collectionId old locations config) := by
  have hold : FiniteStore config (old.foldl (fun s loc => s.deleteLocation collectionId loc.id) store) :=
    List.foldlRecOn (motive := FiniteStore config) _ _ h fun _ h loc _ => h.deleteLocation _ _
  refine hold.putAll _ ⟨hsnapshot, List.forall_mem_nil _, fun kv hkv x hx => ?_⟩
  simp only [snapshotPuts, List.mem_cons, List.not_mem_nil, or_false] at hkv
  rcases hkv with rfl | rfl <;> cases hx

omit [Unbounded F] in
/-- Documents stored inline with the addresses they refer to. -/
theorem materialize [NarrowsFinite F] (h : FiniteStore config store) (collectionId : ℕ) {inner : EAMInner F S}
    (hlocations : FiniteLocations config inner.locations) :
    FiniteStore config (store.materialize collectionId inner) := by
  refine h.putDocuments collectionId fun d hd v metadata hv => ?_
  obtain ⟨⟨n, r⟩, -, hinlined⟩ := List.mem_filterMap.mp hd
  cases r with
  | document | damaged => cases hinlined
  | reference id md =>
    obtain ⟨address, haddress, rfl⟩ := Option.map_eq_some_iff.mp hinlined
    obtain ⟨loc, hloc, -, rfl⟩ := mem_of_locationAddress haddress
    cases hv
    exact (hlocations loc hloc).address.atPrecision _

end FiniteStore

/-! ### Memories -/

/-- A memory of finite locations under this configuration. -/
structure FiniteMemory (config : EAMConfig F) (inner : EAMInner F S) : Prop where
  config_eq : inner.config = config
  locations : FiniteLocations config inner.locations
  eta : isFinite inner.eta = true

/-- A collection with its store and generator. -/
structure FiniteSession (config : EAMConfig F) (s : Session F S) : Prop where
  store : FiniteStore config s.store
  memory : FiniteMemory config s.collection.inner
  rng : FiniteRng s.rng

/-- A memory under the guard, with its store and generator. -/
structure FiniteGuard (config : EAMConfig F) (m : AtomicMutation F S) : Prop where
  store : FiniteStore config m.store
  memory : FiniteMemory config m.inner
  rng : FiniteRng m.rng

/-- A batch in progress: what its writes created is stored next. -/
structure FiniteBatch (config : EAMConfig F) (b : Batch F S) : Prop where
  memory : FiniteMemory config b.inner
  rng : FiniteRng b.rng
  created : FiniteLocations config b.allNewLocs

/-- A pattern that the engine takes as its inputs come. -/
structure FinitePattern (x : Pattern F) : Prop where
  address : FiniteVec x.address
  counter : FiniteVec x.counter
  gate : x.opts.gate = false

omit [Unbounded F] in
theorem finitePattern_single {v : List F} (h : FiniteVec v) : FinitePattern (.single v) := ⟨h, h, rfl⟩

section Sessions

variable {config : EAMConfig F} (hconfig : FiniteConfig config)

include hconfig

/-- A collection read back is finite. -/
theorem finite_load {collectionId : ℕ} {name : String} {store : Store F} (h : FiniteStore config store)
    {col : Collection F S} (hload : Collection.load collectionId name store config = .ok col) :
    FiniteMemory config col.inner := by
  obtain ⟨locations, nextId, docNextId, eta, hlocations, -, heta, -, -, rfl⟩ := load_inv hload
  refine ⟨rfl, fun loc hloc => ?_, ?_⟩
  · obtain ⟨id, hid⟩ := (Store.mem_loadAllLocations_iff hlocations).mp hloc
    obtain ⟨r, hr, hdec⟩ := Option.bind_eq_some_iff.mp hid
    cases hrec : decodeLocation r with
    | error e =>
      rw [hrec] at hdec
      cases hdec
    | ok loc' =>
      rw [hrec] at hdec
      obtain rfl := Option.some.inj hdec
      exact h.locations _ r _ hr hrec
  · unfold Store.loadF64 at heta
    split at heta
    · exact Except.ok.inj heta ▸ hconfig.eta0
    · rename_i x hx
      exact Except.ok.inj heta ▸ h.counters _ x hx
    · cases heta

/-- **One write of a batch** keeps it finite. -/
theorem FiniteBatch.next [Scalar S] {b : Batch F S} (h : FiniteBatch config b) {x : Pattern F} (hx : FinitePattern x) :
    FiniteBatch config (b.next x) := by
  obtain ⟨⟨hcfg, hlocations, heta⟩, hrng, hcreated⟩ := h
  subst hcfg
  have hwritten := finite_adaptiveWriteTwo hconfig heta hrng hx.gate hx.address hx.counter hlocations
    b.inner.nextId b.inner.writeScan
  have hsame := sameState_settle (b.inner.adapt x b.rng).inner (b.inner.adapt x b.rng).result
  refine ⟨⟨hsame.config, ?_, hsame.eta.symm ▸ hwritten.eta⟩, hwritten.rng, ?_⟩
  · rw [Batch.next, hsame.locations]
    exact List.forall_mem_append.mpr ⟨hwritten.locations, hwritten.created⟩
  · rw [allNewLocs_next]
    exact List.forall_mem_append.mpr ⟨hcreated, hwritten.created⟩

/-- A batch of finite writes. -/
theorem finite_batch [Scalar S] {inner : EAMInner F S} (h : FiniteMemory config inner) {rng : Rng F}
    (hrng : FiniteRng rng) {xs : List (Pattern F)} (hxs : ∀ x ∈ xs, FinitePattern x) :
    FiniteBatch config (inner.batch xs rng) :=
  List.foldlRecOn (motive := FiniteBatch config) xs Batch.next ⟨h, hrng, List.forall_mem_nil _⟩ fun _ hb x hx =>
    hb.next hconfig (hxs x hx)

/-! ### Programs -/

/-- **The guard** leaves a finite memory if its body keeps one: the body's, or
the one read back. -/
theorem Ensures.guarded {α : Type} {body : Program HeatherError (AtomicMutation F S) α} {Q : α → Prop}
    (h : Ensures (FiniteGuard config) body Q) : Ensures (FiniteSession config) (atomicMutation body) Q := by
  intro w hw
  unfold atomicMutation
  cases hvalid : checkValid w.state.collection.inner with
  | error e => exact ⟨hw, fun a ha => by cases ha⟩
  | ok u =>
    obtain ⟨hkeep, hpost⟩ := h ⟨.begin w.state, w.faults⟩ ⟨hw.store, hw.memory, hw.rng⟩
    refine ⟨⟨hkeep.store, ?_, hkeep.rng⟩, hpost⟩
    show FiniteMemory config (if _ then _ else _)
    split_ifs
    · exact hkeep.memory
    · unfold AtomicMutation.recovered
      rw [hkeep.memory.config_eq]
      split
      · rename_i loaded hload
        have hloaded := finite_load hconfig hkeep.store hload
        exact ⟨hloaded.config_eq, hloaded.locations, hloaded.eta⟩
      · exact ⟨hkeep.memory.config_eq, hkeep.memory.locations, hkeep.memory.eta⟩

omit hconfig [Unbounded F] [Narrow F S] in
/-- A transaction under the guard. -/
theorem finite_inTransaction {α : Type} {body : Store F → Program HeatherError (Store F) (α × Store F)}
    {v : Store F → α × Store F} (hbody : ∀ txn, Steady (body txn) (v txn))
    {m : AtomicMutation F S} (hm : FiniteGuard config m) (hv : FiniteStore config (v m.store).2)
    (fs : List (Option HeatherError)) : FiniteGuard config (inTransaction body ⟨m, fs⟩).2.state := by
  rcases inTransaction_cases (m := m) (hbody m.store) fs with ⟨e, fs', h⟩ | ⟨fs', h⟩
  · rw [h]
    exact hm
  · rw [h]
    exact ⟨hv, hm.memory, hm.rng⟩

omit hconfig [Unbounded F] in
theorem finite_persist [NarrowsFinite F] {p : Puts F} (hp : FinitePuts config p) :
    Ensures (FiniteGuard (S := S) config) (persist p) fun _ => True := fun w hw =>
  ⟨finite_inTransaction (fun txn => steady_putTransaction w.state.collectionId p txn) hw (hw.store.putAll _ hp) _,
    fun _ _ => trivial⟩

omit hconfig [Narrow F S] [Unbounded F] in
theorem finite_commit : Ensures (FiniteGuard (S := S) config) commit fun _ => True :=
  Ensures.modify fun _ h => ⟨h.store, h.memory, h.rng⟩

omit hconfig [Narrow F S] [Unbounded F] in
theorem finite_edit {f : EAMInner F S → EAMInner F S}
    (hf : ∀ inner, FiniteMemory config inner → FiniteMemory config (f inner)) :
    Ensures (FiniteGuard config) (edit f) fun _ => True :=
  Ensures.modify fun _ h => ⟨h.store, hf _ h.memory, h.rng⟩

omit hconfig [Narrow F S] [Unbounded F] in
theorem finite_bumpVersion : Ensures (FiniteGuard (S := S) config) (edit (·.bumpVersion)) fun _ => True :=
  finite_edit fun _ h => ⟨h.config_eq, h.locations, h.eta⟩

omit hconfig [Narrow F S] [Unbounded F] in
theorem finite_countDocuments (n : ℕ) :
    Ensures (FiniteGuard (S := S) config) (edit (·.countDocuments n)) fun _ => True :=
  finite_edit fun _ h => ⟨h.config_eq, h.locations, h.eta⟩

theorem finite_adaptBatch [Scalar S] {xs : List (Pattern F)} (hxs : ∀ x ∈ xs, FinitePattern x) :
    Ensures (FiniteGuard (S := S) config) (adaptBatch xs) (FiniteBatch config) := by
  refine finite_bumpVersion.bind fun _ _ => ?_
  refine Ensures.get_bind fun m hm => ?_
  have hbatch := finite_batch hconfig hm.memory hm.rng hxs
  refine (Ensures.modify fun _ h => ⟨h.store, h.memory, hbatch.rng⟩).bind fun _ _ => ?_
  exact (finite_edit fun _ _ => hbatch.memory).bind fun _ _ => Ensures.pure hbatch

omit hconfig [Narrow F S] [Unbounded F] in
theorem finite_counters {inner : EAMInner F S} (h : FiniteMemory config inner) :
    ∀ kv ∈ counters inner, ∀ x, kv.2 = .f64 x → isFinite x = true := by
  intro kv hkv x hx
  simp only [counters, List.mem_cons, List.not_mem_nil, or_false] at hkv
  rcases hkv with rfl | rfl
  · cases hx
  · cases hx
    exact h.eta

omit hconfig [Narrow F S] [Unbounded F] in
theorem finite_documentCounters {inner : EAMInner F S} (h : FiniteMemory config inner) :
    ∀ kv ∈ documentCounters inner, ∀ x, kv.2 = .f64 x → isFinite x = true := by
  intro kv hkv x hx
  rcases List.mem_append.mp hkv with hkv | hkv
  · exact finite_counters h kv hkv x hx
  · obtain rfl := List.mem_singleton.mp hkv
    cases hx

omit hconfig [Unbounded F] in
/-- A document is stored by reference or with its vector rounded. -/
theorem finite_documentRecord [NarrowsFinite F] {input : List F} (h : FiniteVec input) (precision : Precision)
    (result : WriteResult F) (metadata : List UInt8) {v : List F} {md : List UInt8}
    (hv : documentRecord precision config result input metadata = .document v md) : FiniteVec v := by
  unfold documentRecord at hv
  split at hv
  · cases hv
  · cases hv
    exact h.atPrecision _

/-- **A batch of writes** validates its vectors. -/
theorem finite_writeBatch [Scalar S] [NarrowsFinite F] (inputs : List (List F)) :
    Ensures (FiniteSession (S := S) config) (writeBatch inputs) fun _ => ∀ v ∈ inputs, FiniteVec v := by
  refine Ensures.ofExcept.bind fun _ hvalid => ?_
  have hinputs : ∀ v ∈ inputs, FiniteVec v := fun v hv => finiteVec_of_validate (forM_ok hvalid v hv)
  have hpatterns : ∀ x ∈ inputs.map Pattern.single, FinitePattern x := fun x hx => by
    obtain ⟨v, hv, rfl⟩ := List.mem_map.mp hx
    exact finitePattern_single (hinputs v hv)
  refine Ensures.mono (Q := fun _ => True) (Ensures.guarded hconfig ?_) fun _ _ => hinputs
  refine Ensures.get_bind fun _ _ => Ensures.ofExcept.bind fun _ _ => ?_
  refine (finite_adaptBatch hconfig hpatterns).bind fun b hb => Ensures.get_bind fun m hm => ?_
  have hputs : FiniteLocations config ((b.allModified.filter (· < m.inner.locations.length)).map
      (locationAt m.inner.locations) ++ b.allNewLocs) :=
    List.forall_mem_append.mpr ⟨List.forall_mem_map.mpr fun i _ => finiteLocation_at hconfig hm.memory.locations i,
      hb.created⟩
  exact (finite_persist ⟨hputs, List.forall_mem_nil _, finite_counters hm.memory⟩).bind fun _ _ => finite_commit

theorem finite_writeBatchWithMetadata [Scalar S] [NarrowsFinite F] (items : List (List F × List UInt8)) :
    Ensures (FiniteSession (S := S) config) (writeBatchWithMetadata items) fun _ =>
      ∀ item ∈ items, FiniteVec item.1 := by
  refine Ensures.ofExcept.bind fun _ hvalid => ?_
  have hitems : ∀ item ∈ items, FiniteVec item.1 := fun item hitem => finiteVec_of_validate (forM_ok hvalid item hitem)
  have hpatterns : ∀ x ∈ items.map fun item => Pattern.single item.1, FinitePattern x := fun x hx => by
    obtain ⟨item, hitem, rfl⟩ := List.mem_map.mp hx
    exact finitePattern_single (hitems item hitem)
  refine Ensures.mono (Q := fun _ => True) (Ensures.guarded hconfig ?_) fun _ _ => hitems
  refine Ensures.get_bind fun start _ => Ensures.ofExcept.bind fun _ _ => ?_
  split_ifs
  · exact Ensures.pure trivial
  refine (finite_adaptBatch hconfig hpatterns).bind fun b hb => ?_
  refine (finite_countDocuments items.length).bind fun _ _ => Ensures.get_bind fun m hm => ?_
  refine (finite_persist ⟨?_, ?_, finite_documentCounters hm.memory⟩).bind fun _ _ =>
    finite_commit.bind fun _ _ => Ensures.pure trivial
  · exact List.forall_mem_map.mpr fun i _ => finiteLocation_at hconfig hm.memory.locations i
  · intro d hd v md hv
    obtain ⟨p, hp, rfl⟩ := List.mem_map.mp hd
    obtain ⟨hitem, -⟩ := List.of_mem_zip (List.fst_mem_of_mem_zipIdx hp)
    exact finite_documentRecord (hitems _ hitem) _ _ _ hv

omit hconfig [Unbounded F] in
/-- Documents stored inline under the guard. -/
theorem finite_materializeDocumentRefs [NarrowsFinite F] :
    Ensures (FiniteGuard (S := S) config) materializeDocumentRefs fun _ => True := by
  rintro ⟨m, fs⟩ hm
  rcases materialize_cases m fs with ⟨e, fs', h⟩ | ⟨fs', h⟩
  · rw [h]
    exact ⟨hm, fun _ _ => trivial⟩
  · rw [h]
    exact ⟨⟨hm.store.materialize _ hm.memory.locations, hm.memory, hm.rng⟩, fun _ _ => trivial⟩

/-- **A snapshot load** keeps a memory finite if the snapshot is: nothing
validates it. -/
theorem finite_loadSnapshotChecked [NarrowsFinite F] {locations : List (HardLocation F)}
    (h : FiniteLocations config locations) (expected : Option ℕ) :
    Ensures (FiniteSession (S := S) config) (loadSnapshotChecked locations config expected) fun _ => True := by
  refine Ensures.ofExcept.bind fun _ _ => Ensures.ofExcept.bind fun _ _ => Ensures.guarded hconfig ?_
  refine Ensures.get_bind fun _ _ => Ensures.ofExcept.bind fun _ _ => ?_
  refine finite_materializeDocumentRefs.bind fun _ _ => ?_
  refine finite_bumpVersion.bind fun _ _ => Ensures.get_bind fun m hm => ?_
  have hreplaced : Ensures (FiniteGuard (S := S) config)
      (inTransaction (snapshotTransaction m.collectionId m.inner.locations locations config)) fun _ => True :=
    fun w hw => ⟨finite_inTransaction (steady_snapshotTransaction m.collectionId m.inner.locations locations config) hw
      (hw.store.replacedBy _ _ h) _, fun _ _ => trivial⟩
  refine hreplaced.bind fun _ _ => (finite_edit fun inner hinner => ?_).bind fun _ _ => finite_commit
  exact ⟨rfl, h, hinner.eta⟩

/-! ### Handles -/

omit hconfig [Unbounded F] in
theorem FiniteStore.registered {store : Store F} (h : FiniteStore config store) (name : String) :
    FiniteStore config (store.registered name).2 := by
  unfold Store.registered
  cases store.registry.get name with
  | some existing => exact h
  | none => exact ⟨h.locations, h.documents, h.counters⟩

theorem finite_randomLocations {rng : Rng F} (hrng : FiniteRng rng) :
    FiniteLocations config (randomLocations config rng).1 ∧ FiniteRng (randomLocations config rng).2 := by
  refine List.foldlRecOn (motive := fun acc : List (HardLocation F) × Rng F =>
    FiniteLocations config acc.1 ∧ FiniteRng acc.2) _ _ ⟨List.forall_mem_nil _, hrng⟩ fun acc hacc i _ => ?_
  obtain ⟨hunit, hrng'⟩ := hacc.2.randomUnitVector config.d
  exact ⟨List.forall_mem_append.mpr ⟨hacc.1, List.forall_mem_singleton.mpr (finiteLocation_new hconfig hunit i)⟩, hrng'⟩

/-- What a name opens as is finite. -/
theorem finite_opens [NarrowsFinite F] {rng : Rng F} (hrng : FiniteRng rng) {store : Store F}
    (hstore : FiniteStore config store) {collectionId : ℕ} {name : String} {s : Session F S}
    (hopens : Hive.Opens config rng store collectionId name s) :
    FiniteSession config s := by
  cases hopens with
  | new =>
    obtain ⟨hlocations, hrng'⟩ := finite_randomLocations hconfig hrng
    refine ⟨hstore.putAll _ ⟨hlocations, List.forall_mem_nil _, fun kv hkv x hx => ?_⟩,
      ⟨rfl, hlocations, hconfig.eta0⟩, hrng'⟩
    simp only [newPuts, List.mem_cons, List.not_mem_nil, or_false] at hkv
    rcases hkv with rfl | rfl | rfl <;> cases hx
    exact hconfig.eta0
  | load hlocations hne hload => exact ⟨hstore, finite_load hconfig hstore hload, hrng⟩

end Sessions

/-- A database of finite numbers. -/
structure FiniteHive (config : EAMConfig F) (hive : Hive F S) : Prop where
  config_eq : hive.config = config
  store : FiniteStore config hive.store
  rng : FiniteRng hive.rng
  memories : ∀ col ∈ hive.handles, FiniteMemory config col.inner

namespace FiniteHive

variable {config : EAMConfig F} {hive : Hive F S}

omit [Unbounded F] [Narrow F S] in
theorem openAt {store : Store F} (hstore : FiniteStore config store) {rng : Rng F} (hrng : FiniteRng rng)
    (hopen : Hive.openAt store config rng = .ok hive) : FiniteHive config hive := by
  obtain rfl := Hive.openAt_inv hopen
  exact ⟨rfl, ⟨hstore.locations, hstore.documents, hstore.counters⟩, hrng, List.forall_mem_nil _⟩

omit [Narrow F S] [Unbounded F] in
theorem session (hhive : FiniteHive config hive) {h : ℕ} {s : Session F S} (hs : hive.session h = some s) :
    FiniteSession config s := by
  obtain ⟨col, hcol, rfl⟩ := Option.map_eq_some_iff.mp hs
  exact ⟨hhive.store, hhive.memories col (List.mem_of_getElem? hcol), hhive.rng⟩

omit [Narrow F S] [Unbounded F] in
theorem withSession (hhive : FiniteHive config hive) (h : ℕ) {s : Session F S} (hs : FiniteSession config s) :
    FiniteHive config (hive.withSession h s) := by
  refine ⟨hhive.config_eq, hs.store, hs.rng, fun col hcol => ?_⟩
  rcases List.mem_or_eq_of_mem_set hcol with hcol | rfl
  · exact hhive.memories col hcol
  · exact hs.memory

/-- Opening a name, whatever the storage does. -/
theorem getOrCreateCollection [NarrowsFinite F] (hconfig : FiniteConfig config) (name : String) :
    Ensures (FiniteHive (S := S) config) (Hive.getOrCreateCollection name) fun _ => True := by
  rintro ⟨hive, fs⟩ hw
  rw [Hive.getOrCreateCollection_eq]
  have hregistered := hw.store.registered name
  rcases Hive.createCollection_cases name hive fs with
    ⟨k, -, hcached⟩ | ⟨-, ⟨e, fs', store, herror, hstore⟩ | ⟨s, fs', hopens, hok⟩⟩
  · rw [hcached]
    exact ⟨hw, fun _ _ => trivial⟩
  · rw [herror]
    have hkeep : FiniteStore config store := by
      rcases hstore with rfl | rfl
      · exact hw.store
      · exact hregistered
    exact ⟨⟨hw.config_eq, hkeep, hw.rng, hw.memories⟩, fun _ _ => trivial⟩
  · rw [hok]
    rw [hw.config_eq] at hopens
    have hs := finite_opens hconfig hw.rng hregistered hopens
    refine ⟨⟨hw.config_eq, hs.store, hs.rng, fun col hcol => ?_⟩, fun _ _ => trivial⟩
    rcases List.mem_append.mp hcol with hcol | hcol
    · exact hw.memories col hcol
    · obtain rfl := List.mem_singleton.mp hcol
      exact hs.memory

end FiniteHive

end HeatherDb
