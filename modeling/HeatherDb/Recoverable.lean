/-
# Memory and store in order

`Recoverable` is what every call keeps, whether it succeeds or fails, and
whatever it wrote: the memory's arrays describe its locations, ids are below
the next one, and the store has every counter and no location that the memory
does not know. Unlike `Agrees` it does not ask that the store's locations are
the memory's. It is enough for the store to load, and what loads is in order
again (`Recoverable.reopened`); so it holds of every state a run reaches
(`recoverable_step`).

Key definitions: `Known`, `Recoverable`.
Key theorems: `Recoverable.reopened`, `recoverable_effect`, `recoverable_step`.
-/
import HeatherDb.Arrays
import HeatherDb.Durability

namespace HeatherDb

open Scalar Narrow Program Store

variable {F S : Type} [Narrow F S]

/-! ### Stored locations -/

/-- Every stored location is under its own id, one of `ids`, and has `d`
dimensions. -/
def Known (d : ℕ) (ids : List ℕ) (collectionId : ℕ) (t : OrderedTable (Scoped ℕ ℕ) (LocationRecord F)) : Prop :=
  ∀ id r, decodeAt t collectionId id = some r →
    r.id = id ∧ id ∈ ids ∧ r.address.length = d ∧ r.counter.length = d

namespace Known

variable {d collectionId : ℕ} {ids ids' : List ℕ} {t : OrderedTable (Scoped ℕ ℕ) (LocationRecord F)}

theorem mono (h : Known d ids collectionId t) (hsub : ∀ k ∈ ids, k ∈ ids') : Known d ids' collectionId t :=
  fun id r hr => ⟨(h id r hr).1, hsub id (h id r hr).2.1, (h id r hr).2.2⟩

/-- Known locations put. -/
theorem putAll [Scalar F] (h : Known d ids collectionId t) (precision : Precision) {ls : List (HardLocation F)}
    (hids : ∀ loc ∈ ls, loc.id ∈ ids) (hshaped : Shaped d ls) :
    Known d ids collectionId (t.putAll (ls.map (locationEntry precision collectionId))) := by
  intro id r hr
  by_cases hid : id ∈ ls.map (·.id)
  · obtain ⟨loc, hloc, rfl, r', hr', hkey, haddress, hcounter⟩ :=
      exists_decodeAt_putAll_shape t precision collectionId hshaped.sameLengths hid
    obtain rfl : r' = r := Option.some.inj (hr'.symm.trans hr)
    exact ⟨hkey, hids loc hloc, haddress.trans (hshaped loc hloc).1, hcounter.trans (hshaped loc hloc).2⟩
  · rw [decodeAt_putAll_of_notMem _ hid] at hr
    exact h id r hr

/-- Locations deleted are known no longer. -/
theorem deleteAll (h : Known d ids collectionId t) {removed : List ℕ}
    (hcover : ∀ k ∈ ids, k ∈ ids' ∨ k ∈ removed) :
    Known d ids' collectionId (t.deleteAll (removed.map fun id => ⟨collectionId, id⟩)) := by
  intro id r hr
  rw [decodeAt_deleteAll] at hr
  split_ifs at hr with hremoved
  obtain ⟨hid, hmem, hlen⟩ := h id r hr
  exact ⟨hid, (hcover id hmem).resolve_right hremoved, hlen⟩

/-- Where no location is stored any dimension will do. -/
theorem of_empty (h : ∀ id, decodeAt t collectionId id = none) : Known d ids collectionId t := fun id r hr => by
  rw [h id] at hr
  simp at hr

end Known

/-! ### Memory and store -/

variable [Scalar F]

/-- The memory is in order, and what the store has of the collection loads. -/
structure Recoverable (store : Store F) (collectionId : ℕ) (inner : EAMInner F S) : Prop where
  valid : inner.valid = true
  arrays : Indexed inner
  shaped : Shaped inner.config.d inner.locations
  fresh : ∀ loc ∈ inner.locations, loc.id < inner.nextId
  known : Known inner.config.d (inner.locations.map (·.id)) collectionId store.locations
  nextId : store.loadU64 collectionId "next_id" 0 = .ok inner.nextId
  eta : ∀ eta0, ∃ x, store.loadF64 collectionId "eta" eta0 = .ok x
  docNextId : ∃ n, store.loadU64 collectionId "doc_next_id" 0 = .ok n

/-- A session's memory and store. -/
abbrev Session.Recoverable (s : Session F S) : Prop :=
  HeatherDb.Recoverable s.store s.collection.collectionId s.collection.inner

namespace Recoverable

variable {store store' : Store F} {collectionId : ℕ} {inner : EAMInner F S}

omit [Scalar F] in
/-- Documents and posting lists do not matter. -/
theorem of_store (h : Recoverable store collectionId inner) (hl : store'.locations = store.locations)
    (hm : store'.metadata = store.metadata) : Recoverable store' collectionId inner := by
  have hload : ∀ key, store'.loadMetadata collectionId key = store.loadMetadata collectionId key := fun key => by
    rw [loadMetadata, hm, loadMetadata]
  exact
    { valid := h.valid
      arrays := h.arrays
      shaped := h.shaped
      fresh := h.fresh
      known := hl ▸ h.known
      nextId := (loadU64_congr 0 (hload _)).trans h.nextId
      eta := fun eta0 => (h.eta eta0).imp fun _ hx => (loadF64_congr eta0 (hload _)).trans hx
      docNextId := h.docNextId.imp fun _ hn => (loadU64_congr 0 (hload _)).trans hn }

/-- The store loads under the memory's configuration. -/
theorem load (h : Recoverable store collectionId inner) (name : String) : ∃ loaded : Collection F S,
    Collection.load collectionId name store inner.config = .ok loaded := by
  obtain ⟨x, heta⟩ := h.eta inner.config.eta0
  obtain ⟨locations, hlocations⟩ : ∃ locations, store.loadAllLocations collectionId = .ok locations :=
    ⟨_, loadAllLocations_eq store collectionId⟩
  obtain ⟨n, hnext⟩ : ∃ n, store.loadU64 collectionId "next_id" locations.length = .ok n :=
    (loadU64_default h.nextId _).elim (fun h => ⟨_, h⟩) fun h => ⟨_, h.2⟩
  obtain ⟨docNextId, hdoc⟩ := h.docNextId
  refine ⟨_, load_eq hlocations hnext heta hdoc fun loc hloc => ?_⟩
  obtain ⟨id, hat⟩ := (mem_loadAllLocations_iff hlocations).mp hloc
  exact (h.known id loc hat).2.2.1

/-- **What loads is in order again**, under whatever configuration it loads. -/
theorem reopened (h : Recoverable store collectionId inner) {name : String} {config : EAMConfig F}
    {loaded : Collection F S} (hload : Collection.load collectionId name store config = .ok loaded) (v : ℕ) :
    Recoverable store collectionId { loaded.inner with version := v } := by
  obtain ⟨locations, nextId, docNextId, eta, hlocations, hnext, -, hdoc, hdim, rfl⟩ := load_inv hload
  have hat : ∀ loc ∈ locations, decodeAt store.locations collectionId loc.id = some loc := by
    intro loc hloc
    obtain ⟨id, hat⟩ := (mem_loadAllLocations_iff hlocations).mp hloc
    rw [(h.known id loc hat).1]
    exact hat
  have hold : ∀ loc ∈ locations, loc.id < inner.nextId := by
    intro loc hloc
    obtain ⟨old, hmem, heq⟩ := List.mem_map.mp (h.known _ loc (hat loc hloc)).2.1
    exact heq ▸ h.fresh old hmem
  -- without the counter there is no location either, and the default is right
  obtain rfl : nextId = inner.nextId := by
    rcases loadU64_default h.nextId locations.length with hsame | ⟨hzero, hdefault⟩
    · exact Except.ok.inj (hnext.symm.trans hsame)
    · have hempty : locations = [] := List.eq_nil_iff_forall_not_mem.mpr fun loc hloc => by
        have := hold loc hloc
        omega
      rw [hempty] at hnext hdefault
      have hlen := Except.ok.inj (hnext.symm.trans hdefault)
      exact hlen.trans hzero
  -- one location of the old dimension and the new makes them equal
  have hd : ∀ loc ∈ locations, inner.config.d = config.d := by
    intro loc hloc
    cases locations with
    | nil => simp at hloc
    | cons first rest =>
      have hfirst := (h.known _ first (hat first List.mem_cons_self)).2.2.1
      unfold Collection.checkDimension at hdim
      rw [List.head?_cons] at hdim
      dsimp only at hdim
      split_ifs at hdim with heq
      exact hfirst.symm.trans heq
  have hshaped : Shaped config.d locations := fun loc hloc => by
    have hlen := (h.known _ loc (hat loc hloc)).2.2
    rw [hd loc hloc] at hlen
    exact hlen
  refine
    { valid := rfl
      arrays := ⟨looks_buildIdLookup locations, rfl, rfl⟩
      shaped := hshaped
      fresh := hold
      known := fun id r hr => ?_
      nextId := h.nextId
      eta := h.eta
      docNextId := h.docNextId }
  · have hmem := (mem_loadAllLocations_iff hlocations).mpr ⟨id, hr⟩
    obtain ⟨hid, -, -⟩ := h.known id r hr
    exact ⟨hid, hid ▸ List.mem_map_of_mem hmem, hshaped r hmem⟩

/-- Memory read back from its store. -/
theorem recovered {s : Session F S} (h : s.Recoverable) {v : ℕ} {inner : EAMInner F S} (hr : Recovered s v inner) :
    Recoverable s.store s.collection.collectionId inner := by
  obtain ⟨loaded, hload⟩ := h.load s.collection.name
  unfold Recovered at hr
  rw [hload] at hr
  subst hr
  exact h.reopened hload v

omit [Scalar F] in
/-- Materializing touches neither the locations nor the counters. -/
theorem materialized {s : Session F S} (h : s.Recoverable) : s.materialized.Recoverable := by
  have hstore : s.materialized.store = _ := materialize_eq _ _ _
  exact h.of_store (congrArg Store.locations hstore :) (congrArg Store.metadata hstore :)

/-- Memory read back has the stored document counter. -/
theorem docNextId_recovered {s : Session F S} (h : s.Recoverable) {v : ℕ} {inner : EAMInner F S}
    (hr : Recovered s v inner) :
    s.store.loadU64 s.collection.collectionId "doc_next_id" 0 = .ok inner.docNextId := by
  obtain ⟨loaded, hload⟩ := h.load s.collection.name
  unfold Recovered at hr
  rw [hload] at hr
  obtain ⟨_, _, _, _, -, -, -, hdoc, -, rfl⟩ := load_inv hload
  subst hr
  exact hdoc

/-- What a failed call leaves is in order. -/
theorem failed {s s' : Session F S} (h : s.Recoverable) {v : ℕ} (hf : Failed v s s') : s'.Recoverable := by
  cases hf with
  | unchanged => exact h
  | materialized => exact h.materialized
  | recovered rng hr => exact h.recovered hr
  | recoveredMaterialized rng hr => exact h.materialized.recovered hr

/-- A failed call leaves the document counter right if it was. -/
theorem failed_docNextId {s s' : Session F S} (h : s.Recoverable)
    (hdoc : s.store.loadU64 s.collection.collectionId "doc_next_id" 0 = .ok s.collection.inner.docNextId) {v : ℕ}
    (hf : Failed v s s') :
    s'.store.loadU64 s'.collection.collectionId "doc_next_id" 0 = .ok s'.collection.inner.docNextId := by
  have hstore : s.materialized.store = _ := materialize_eq _ _ _
  cases hf with
  | unchanged => exact hdoc
  | materialized => exact (loadU64_congr 0 (congrArg (loadMetadata · _ _) hstore :)).trans hdoc
  | recovered rng hr => exact h.docNextId_recovered hr
  | recoveredMaterialized rng hr => exact h.materialized.docNextId_recovered hr

end Recoverable

/-! ### What a call leaves -/

/-- **A new collection is in order** where the store has nothing of it yet. -/
theorem recoverable_fresh {collectionId : ℕ} (name : String) (config : EAMConfig F) (rng : Rng F) {store : Store F}
    (hlocations : ∀ id, store.locationAt? collectionId id = none)
    (hdoc : ∃ n, store.loadU64 collectionId "doc_next_id" 0 = .ok n) :
    (Session.fresh (S := S) collectionId name config rng store).Recoverable := by
  have hstore : (Session.fresh (S := S) collectionId name config rng store).store = _ :=
    putAll_eq collectionId (newPuts config rng) store
  obtain ⟨hids, hshaped⟩ := randomLocations_ok config rng
  have hkeys : ((newPuts config rng).metadata.map (·.1)).Nodup := by simp [newPuts]
  refine
    { valid := rfl
      arrays := indexed_opened _ _ _ _ _
      shaped := hshaped
      fresh := fun loc hloc => ?_
      known := ?_
      nextId := loadU64_of_some _ (loadMetadata_putAll _ hkeys (by simp [newPuts]; rfl))
      eta := fun eta0 => ⟨_, loadF64_of_some _ (loadMetadata_putAll _ hkeys (by simp [newPuts]; rfl))⟩
      docNextId := ?_ }
  · have hmem : loc.id ∈ (randomLocations config rng).1.map (·.id) := List.mem_map_of_mem hloc
    rw [hids] at hmem
    exact List.mem_range.mp hmem
  · have htable : (Session.fresh (S := S) collectionId name config rng store).store.locations = _ :=
      congrArg Store.locations hstore
    have hknown : Known config.d ((randomLocations config rng).1.map (·.id)) collectionId store.locations :=
      .of_empty hlocations
    rw [htable]
    exact hknown.putAll _ (fun loc hloc => List.mem_map_of_mem hloc) hshaped
  · have hkey : "doc_next_id" ∉ (newPuts config rng).metadata.map (·.1) := by simp [newPuts]
    exact hdoc.imp fun _ hn => (loadU64_congr 0 (loadMetadata_putAll_of_notMem _ hkey)).trans hn

/-- A collection without records is in order, opened without locations. -/
theorem recoverable_untouched {collectionId : ℕ} (config : EAMConfig F) {store : Store F}
    (h : store.Untouched collectionId) :
    Recoverable store collectionId (.opened config [] 0 config.eta0 0 : EAMInner F S) where
  valid := rfl
  arrays := indexed_opened _ _ _ _ _
  shaped := by simp [Shaped, EAMInner.opened]
  fresh := by simp [EAMInner.opened]
  known := .of_empty h.locations
  nextId := h.loadU64 _ _
  eta eta0 := ⟨eta0, by rw [loadF64, h.metadata]⟩
  docNextId := ⟨0, h.loadU64 _ _⟩

/-- Writes that store locations they leave, or stale copies of those. -/
theorem Recoverable.wrote [Scalar S] {s : Session F S} (h : s.Recoverable) {xs : List (Pattern F)} (hfit : s.Fits xs)
    {n : ℕ} {p : Puts F} (hids : ∀ q ∈ p.locations, q.id ∈ (s.written xs n).inner.locations.map (·.id))
    (hshaped : Shaped s.collection.inner.config.d p.locations)
    (hmeta : n = 0 ∧ p.metadata = counters (s.written xs n).inner ∨
      p.metadata = documentCounters (s.written xs n).inner) : (s.wrote xs n p).Recoverable := by
  have hg := Session.written_grown h.shaped hfit
  have hconfig : (s.written xs n).inner.config = s.collection.inner.config := hg.config
  have hgrown : (s.written xs n).inner.locations.map (·.id) = _ := hg.ids
  have hkeys := written_metadata_nodup hmeta
  have hstore : (s.wrote xs n p).store = _ := putAll_eq s.collection.collectionId p s.store
  have hbumped : Indexed s.collection.inner.bumpVersion := ⟨h.arrays.looks, h.arrays.matrix, h.arrays.matrix32⟩
  have harrays := hbumped.batch h.shaped hfit s.rng
  refine
    { valid := hg.valid.trans h.valid
      arrays := ⟨harrays.looks, harrays.matrix, harrays.matrix32⟩
      shaped := ?_
      fresh := fun loc hloc => ?_
      known := ?_
      nextId := loadU64_of_some _ (loadMetadata_putAll _ hkeys (written_counters_mem hmeta (by simp [counters]; rfl)))
      eta := fun eta0 =>
        ⟨_, loadF64_of_some _ (loadMetadata_putAll _ hkeys (written_counters_mem hmeta (by simp [counters]; rfl)))⟩
      docNextId := (stored_docNextId hmeta).elim (fun hsame => hsame.2 ▸ h.docNextId) fun hnext => ⟨_, hnext⟩ }
  · show Shaped (s.written xs n).inner.config.d _
    rw [hconfig]
    exact hg.shaped
  · have hmem : loc.id ∈ (s.written xs n).inner.locations.map (·.id) := List.mem_map_of_mem hloc
    rw [hgrown, List.mem_append] at hmem
    have hnext : s.collection.inner.nextId ≤ (s.written xs n).inner.nextId := hg.next
    rcases hmem with hmem | hmem
    · obtain ⟨old, hold, heq⟩ := List.mem_map.mp hmem
      have := h.fresh old hold
      show loc.id < (s.written xs n).inner.nextId
      omega
    · have hlt : loc.id < s.collection.inner.nextId +
          ((s.written xs n).inner.nextId - s.collection.inner.nextId) := (List.mem_range'_1.mp hmem).2
      show loc.id < (s.written xs n).inner.nextId
      omega
  · have htable : (s.wrote xs n p).store.locations = _ := congrArg Store.locations hstore
    show Known (s.written xs n).inner.config.d ((s.written xs n).inner.locations.map (·.id)) _ _
    rw [hconfig, htable]
    refine Known.putAll (h.known.mono fun k hk => ?_) _ hids hshaped
    rw [hgrown]
    exact List.mem_append_left _ hk

namespace Recoverable

/-- Records of a write that are locations it leaves. -/
theorem wrote_of_records [Scalar S] {s : Session F S} (h : s.Recoverable) {xs : List (Pattern F)} (hfit : s.Fits xs)
    {n : ℕ} {p : Puts F} (hrec : Records s.collection.inner.locations (s.written xs n).inner.locations p.locations)
    (hmeta : n = 0 ∧ p.metadata = counters (s.written xs n).inner ∨
      p.metadata = documentCounters (s.written xs n).inner) : (s.wrote xs n p).Recoverable := by
  have hg := Session.written_grown h.shaped hfit
  refine h.wrote hfit (fun q hq => ?_) (hrec.shaped hg.shaped) hmeta
  obtain ⟨loc, hloc, hs⟩ := hrec.put q hq
  exact hs.id ▸ List.mem_map_of_mem hloc

/-- A batch may store locations as they were when it created them. -/
theorem wroteBatch [Scalar S] {s : Session F S} (h : s.Recoverable) {inputs : List (List F)}
    (hfit : s.Fits (inputs.map .single)) : (s.wrote (inputs.map .single) 0 (batchPuts s inputs)).Recoverable := by
  have hg := Session.written_grown h.shaped hfit
  have hgrown : (s.written (inputs.map .single) 0).inner.locations.map (·.id) = _ := hg.ids
  have hcreated : (s.written (inputs.map .single) 0).allNewLocs.map (·.id) = _ := hg.createdIds
  refine h.wrote hfit (fun q hq => ?_) (shaped_batchPuts h.shaped hfit) (Or.inl ⟨rfl, rfl⟩)
  rcases List.mem_append.mp hq with hq | hq
  · obtain ⟨i, hi, rfl⟩ := List.mem_map.mp hq
    exact List.mem_map_of_mem (locationAt_mem (by simpa using (List.mem_filter.mp hi).2))
  · rw [hgrown, ← hcreated]
    exact List.mem_append_right _ (List.mem_map_of_mem hq)

/-- What a consolidation leaves, with its counters untouched and its locations
known to the store. -/
theorem consolidated {store store' : Store F} {collectionId : ℕ} {inner : EAMInner F S}
    (h : Recoverable store collectionId inner) {left : List (HardLocation F)} {merges : List (ℕ × ℕ)} (version : ℕ)
    (hcons : Consolidated inner.locations merges left)
    (hload : ∀ key, store'.loadMetadata collectionId key = store.loadMetadata collectionId key)
    (hknown : Known inner.config.d (left.map (·.id)) collectionId store'.locations) :
    Recoverable store' collectionId (EAMInner.rebuildGraphCache { inner with locations := left, version := version }) where
  valid := h.valid
  arrays := indexed_rebuildGraphCache _
  shaped := hcons.shaped _ h.shaped
  fresh loc hloc := by
    obtain ⟨old, hold, heq⟩ := List.mem_map.mp (hcons.within loc.id (List.mem_map_of_mem hloc))
    exact heq ▸ h.fresh old hold
  known := hknown
  nextId := (loadU64_congr 0 (hload _)).trans h.nextId
  eta eta0 := (h.eta eta0).imp fun _ hx => (loadF64_congr eta0 (hload _)).trans hx
  docNextId := h.docNextId.imp fun _ hn => (loadU64_congr 0 (hload _)).trans hn

/-- A merge leaves the stored locations it did not remove. -/
theorem merged [SeededUniform F] {s : Session F S} (h : s.Recoverable) : s.merged.Recoverable := by
  have hm := h.materialized
  obtain ⟨hcons, hremoved⟩ := knnMerge_consolidated s.collection.inner.locations s.collection.inner.config
  unfold Session.merged
  dsimp only
  split_ifs with hr
  · -- nothing was removed, so the arrays still fit
    have hidle := knnMerge_idle hr
    rw [hidle]
    exact ⟨hm.valid, ⟨hm.arrays.looks, hm.arrays.matrix, hm.arrays.matrix32⟩, hm.shaped, hm.fresh, hm.known,
      hm.nextId, hm.eta, hm.docNextId⟩
  · have hstore := mergedInto_eq s.collection.collectionId s.materialized.store
      (knnMerge s.collection.inner.locations s.collection.inner.config).1
    refine hm.consolidated (s.collection.inner.version + 1) hcons
      (fun key => (congrArg (loadMetadata · _ key) hstore :)) ?_
    have htable := congrArg Store.locations hstore
    rw [hremoved] at htable
    rw [htable]
    exact hm.known.deleteAll hcons.covers

/-- A compression stores what it leaves. -/
theorem compressed {s : Session F S} (h : s.Recoverable) (kappa lambda : F) :
    (s.compressed kappa lambda).Recoverable := by
  have hm := h.materialized
  have hcons := compression_consolidated s kappa lambda
  unfold Session.compressed
  dsimp only
  split_ifs with hr
  · exact hm
  · have hstore := compressedInto_eq s.collection.collectionId s.materialized.store
      (s.compression kappa lambda).1 (s.compression kappa lambda).2
    refine hm.consolidated s.collection.inner.version hcons
      (fun key => (congrArg (loadMetadata · _ key) hstore :)) ?_
    have htable := congrArg Store.locations hstore
    rw [htable]
    exact (hm.known.deleteAll hcons.covers).putAll _ (fun loc hloc => List.mem_map_of_mem hloc)
      (hcons.shaped _ h.shaped)

/-- A snapshot takes the place of every stored location. -/
theorem replaced {s : Session F S} (h : s.Recoverable) {snapshot : Snapshot F} {config : EAMConfig F}
    (hlen : ∀ loc ∈ snapshot.locations, loc.address.length = config.d) :
    (s.replaced snapshot.locations config).Recoverable := by
  have hm := h.materialized
  have hstore := replacedBy_eq s.collection.collectionId s.materialized.store s.collection.inner.locations
    snapshot.locations config
  have hkeys : ((snapshotPuts snapshot.locations config).metadata.map (·.1)).Nodup := by simp [snapshotPuts]
  have hload := fun key => loadMetadata_replacedBy s.materialized.store s.collection.collectionId
    s.collection.inner.locations snapshot.locations config key
  have hshaped : Shaped config.d snapshot.locations := fun loc hloc =>
    ⟨hlen loc hloc, (snapshot.lengths loc hloc).trans (hlen loc hloc)⟩
  refine
    { valid := hm.valid
      arrays := indexed_rebuildGraphCache _
      shaped := hshaped
      fresh := fun loc hloc => lt_nextIdOf hloc
      known := ?_
      nextId := loadU64_of_some _ (loadMetadata_putAll _ hkeys (by simp [snapshotPuts]; rfl))
      eta := fun eta0 => (hm.eta eta0).imp fun _ hx => (loadF64_congr eta0 (hload "eta" (by decide))).trans hx
      docNextId := hm.docNextId.imp fun _ hn => (loadU64_congr 0 (hload "doc_next_id" (by decide))).trans hn }
  have htable := congrArg Store.locations hstore
  show Known config.d (snapshot.locations.map (·.id)) s.collection.collectionId
    (s.materialized.store.replacedBy s.collection.collectionId s.collection.inner.locations snapshot.locations config).locations
  -- nothing stored before is left, so the old dimension does not matter
  have hnone : Known config.d (snapshot.locations.map (·.id)) s.collection.collectionId
      (s.materialized.store.locations.deleteAll
        ((s.collection.inner.locations.map (·.id)).map fun id => ⟨s.collection.collectionId, id⟩)) :=
    .of_empty fun id => by
      rw [decodeAt_deleteAll]
      split_ifs with hin
      · rfl
      · cases hat : decodeAt s.materialized.store.locations s.collection.collectionId id with
        | none => rfl
        | some r => exact absurd (hm.known id r hat).2.1 hin
  rw [htable]
  exact hnone.putAll _ (fun loc hloc => List.mem_map_of_mem hloc) hshaped

omit [Scalar F] in
/-- Deleting a document touches neither the locations nor the counters. -/
theorem withoutDocument {s : Session F S} (h : s.Recoverable) (writeIndex : ℕ) :
    Recoverable (s.store.withoutDocument s.collection.collectionId writeIndex) s.collection.collectionId
      s.collection.inner := by
  have hstore := withoutDocument_eq s.collection.collectionId writeIndex s.store
  exact h.of_store (congrArg Store.locations hstore :) (congrArg Store.metadata hstore :)

end Recoverable

variable [Scalar S] [SeededUniform F]

/-- A call's whole effect keeps memory and store in order. -/
theorem recoverable_effect {s : Session F S} (h : s.Recoverable) {c : Call F} (hacc : c.Accepted s) :
    (c.effect s).Recoverable := by
  cases c with
  | write input =>
    exact h.wrote_of_records hacc (records_single h.shaped hacc 0) (Or.inl ⟨rfl, (counters_written ..).symm⟩)
  | writeTwo address counter opts =>
    exact h.wrote_of_records hacc (records_single h.shaped hacc 0) (Or.inl ⟨rfl, (counters_written ..).symm⟩)
  | writeBatch inputs => exact h.wroteBatch hacc
  | writeWithMetadata input metadata =>
    exact h.wrote_of_records hacc (records_single h.shaped hacc 1) (Or.inr (documentCounters_written ..).symm)
  | writeBatchWithMetadata items =>
    by_cases hemp : items = []
    · rwa [Call.effect, if_pos hemp]
    · rw [Call.effect, if_neg hemp]
      exact h.wrote_of_records hacc (records_documentBatch h.shaped hacc) (Or.inr rfl)
  | merge => exact h.merged
  | compress kappa lambda => exact h.compressed kappa lambda
  | loadSnapshotChecked snapshot config expected => exact h.replaced hacc.2
  | deleteDocument writeIndex => exact h.withoutDocument writeIndex

/-- **Every call keeps memory and store in order**, also when it fails. -/
theorem recoverable_step {s s' : Session F S} (h : s.Recoverable) {e : Event F} (hstep : Step s e s') :
    s'.Recoverable := by
  obtain ⟨c, r⟩ := e
  rcases step_cases hstep with ⟨e, -, hf⟩ | ⟨hacc, -, rfl⟩
  · exact h.failed hf
  · exact recoverable_effect h hacc

end HeatherDb
