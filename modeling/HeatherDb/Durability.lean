/-
# Does the store keep what memory has?

Every write stores the locations it changed and created, with the counters.
A write whose records are the locations it leaves keeps memory and store in
agreement (`agrees_wrote`); all writes have such records but `write_batch`,
which stores a location created in the batch as it was created, whatever the
rest of the batch did to it.

A merge stores nothing of the locations that took others up. A compression
stores every location it leaves, and a snapshot load every location of the
snapshot; of two with one id the store keeps one, and the record of one whose
counter is not as long as its address does not decode.

Key definitions: `Records`, `Batch.KeepsCreated`,
`Consolidation.LeavesSurvivors`.
Key theorems: `agrees_wrote`, `writes_reload`, `consolidation_reloads_iff`.
-/
import HeatherDb.Exact
import HeatherDb.Runs
import HeatherDb.Stored

namespace HeatherDb

open Scalar Narrow Program Store

variable {F S : Type} [Scalar F]

/-- **A new collection agrees with its store** where the store has nothing of it yet. -/
theorem agrees_fresh [Narrow F S] {collectionId : ℕ} (name : String) (config : EAMConfig F) (rng : Rng F)
    {store : Store F} (hp : store.precision = .f64) (hlocations : ∀ id, store.locationAt? collectionId id = none)
    (hdoc : store.loadMetadata collectionId "doc_next_id" = none) :
    Agrees (Session.fresh (S := S) collectionId name config rng store) := by
  obtain ⟨hids, hshaped⟩ := randomLocations_ok config rng
  have hnodup : ((randomLocations config rng).1.map (·.id)).Nodup := by
    rw [hids]
    exact List.nodup_range
  have hkeys : ((newPuts config rng).metadata.map (·.1)).Nodup := by simp [newPuts]
  refine
    { f64 := ?_, valid := rfl, nodup := hnodup, fresh := fun loc hloc => ?_, shaped := hshaped,
      stored := fun loc hloc => ?_, only := fun id r hr => ?_, nextId := ?_, eta := ?_, docNextId := ?_ }
  · rw [← hp, Session.fresh, Store.putAll_eq]
  · have hmem : loc.id ∈ (randomLocations config rng).1.map (·.id) := List.mem_map_of_mem hloc
    rw [hids] at hmem
    exact List.mem_range.mp hmem
  · obtain ⟨q, hq, hqid, r, hr, hs⟩ := Store.exists_locationAt?_putAll (p := newPuts config rng) hp collectionId
      hshaped.sameLengths (List.mem_map_of_mem hloc)
    obtain rfl : q = loc := List.inj_on_of_nodup_map hnodup hq hloc hqid
    exact ⟨r, hr, hs⟩
  · change (store.putAll collectionId (newPuts config rng)).locationAt? collectionId id = some r at hr
    by_cases hid : id ∈ (newPuts config rng).locations.map (·.id)
    · obtain ⟨q, hq, rfl, r', hr', hs⟩ := Store.exists_locationAt?_putAll hp collectionId hshaped.sameLengths hid
      obtain rfl : r' = r := Option.some.inj (hr'.symm.trans hr)
      exact ⟨hs.id, hid⟩
    · rw [Store.locationAt?_putAll_of_notMem _ hid, hlocations] at hr
      simp at hr
  · exact Store.loadMetadata_putAll _ hkeys (by simp [newPuts]; rfl)
  · exact Store.loadMetadata_putAll _ hkeys (by simp [newPuts]; rfl)
  · have hkey : "doc_next_id" ∉ (newPuts config rng).metadata.map (·.1) := by simp [newPuts]
    show (store.putAll collectionId (newPuts config rng)).loadU64 collectionId "doc_next_id" 0 = .ok 0
    rw [Store.loadU64, Store.loadMetadata_putAll_of_notMem _ hkey, hdoc]

/-- The small collection agrees with its store. -/
theorem agrees_smallSession (competitive : Bool) : Agrees (smallSession competitive) :=
  agrees_fresh _ _ _ rfl (fun _ => rfl) rfl

/-- A location with another count in the store than in memory. -/
theorem not_reloads [Narrow F S] {R : HardLocation F → HardLocation F → Prop} {s : Session F S} {k : ℕ} {m n : F}
    (hR : ∀ x y, R x y → x.writeCount = y.writeCount)
    (hstore : (s.store.locationAt? s.collection.collectionId k).map (fun l => (l.id, l.writeCount)) =
      some (k, m))
    (hmem : (k, n) ∈ s.collection.inner.locations.map fun l => (l.id, l.writeCount)) (hne : m ≠ n) :
    ¬ Reloads R s := by
  rintro ⟨loaded, hload, hsame⟩
  obtain ⟨x, hx, hxid⟩ := Option.map_eq_some_iff.mp hstore
  obtain ⟨y, hy, hyid⟩ := List.mem_map.mp hmem
  simp only [Prod.mk.injEq] at hxid hyid
  have hin := (Store.mem_loadAllLocations_iff (locations_of_load hload)).mpr ⟨k, hx⟩
  have hcount := hR x y (hsame.locations x hin y hy (hxid.1.trans hyid.1.symm))
  exact hne (hxid.2.symm.trans (hcount.trans hyid.2))

/-! ### Writes -/

/-- The records put are locations there are after, and every location there
is after was put or is as it was before. -/
structure Records (before after puts : List (HardLocation F)) : Prop where
  put : ∀ q ∈ puts, ∃ loc ∈ after, SameLocation q loc
  all : ∀ loc ∈ after, loc.id ∈ puts.map (·.id) ∨ loc ∈ before

/-- Records of shaped locations are shaped. -/
theorem Records.shaped {d : ℕ} {before after puts : List (HardLocation F)} (h : Records before after puts)
    (hd : Shaped d after) : Shaped d puts := fun q hq => by
  obtain ⟨loc, hloc, hs⟩ := h.put q hq
  have hcounter : q.counter.length = loc.counter.length := List.Forall₂.length_eq hs.counter
  exact ⟨hs.address ▸ (hd loc hloc).1, hcounter.trans (hd loc hloc).2⟩

/-- Each location the batch created is at its end as it was created. -/
def Batch.KeepsCreated (b : Batch F S) : Prop :=
  ∀ created ∈ b.allNewLocs, ∃ loc ∈ b.inner.locations, SameLocation created loc

/-- A location after a batch was modified, is as it was, or is as created. -/
theorem Grown.cover {inner : EAMInner F S} {b : Batch F S} (h : Grown inner b) {loc : HardLocation F}
    (hloc : loc ∈ b.inner.locations) :
    (∃ i ∈ b.allModified, locationAt b.inner.locations i = loc) ∨ loc ∈ inner.locations ∨
      loc ∈ b.allNewLocs := by
  obtain ⟨i, hi⟩ := List.mem_iff_getElem?.mp hloc
  by_cases hmod : i ∈ b.allModified
  · exact Or.inl ⟨i, hmod, by simp [locationAt, List.getD_eq_getElem?_getD, hi]⟩
  · by_cases hlt : i < inner.locations.length
    · rw [h.kept i hlt hmod] at hi
      exact Or.inr (Or.inl (List.mem_of_getElem? hi))
    · exact Or.inr (Or.inr (h.created i loc (Nat.le_of_not_lt hlt) hmod hi))

omit [Scalar F] in
/-- Ids after a batch are distinct and below the next one. -/
theorem Grown.ids_ok {inner : EAMInner F S} {b : Batch F S} (h : Grown inner b)
    (hn : (inner.locations.map (·.id)).Nodup) (hfresh : ∀ loc ∈ inner.locations, loc.id < inner.nextId) :
    (b.inner.locations.map (·.id)).Nodup ∧ ∀ loc ∈ b.inner.locations, loc.id < b.inner.nextId := by
  have hnext := h.next
  have hold : ∀ k ∈ inner.locations.map (·.id), k < inner.nextId := fun k hk => by
    obtain ⟨loc, hloc, rfl⟩ := List.mem_map.mp hk
    exact hfresh loc hloc
  constructor
  · rw [h.ids, List.nodup_append]
    refine ⟨hn, List.nodup_range', fun a ha c hc => ?_⟩
    have h1 := hold a ha
    have h2 := (List.mem_range'_1.mp hc).1
    omega
  · intro loc hloc
    have hmem : loc.id ∈ b.inner.locations.map (·.id) := List.mem_map_of_mem hloc
    rw [h.ids, List.mem_append] at hmem
    rcases hmem with hmem | hmem
    · exact (hold _ hmem).trans_le hnext
    · have := (List.mem_range'_1.mp hmem).2
      omega

/-- What the writes of a call do to the memory. -/
theorem Session.written_grown [Scalar S] [Narrow F S] {s : Session F S}
    (hd : Shaped s.collection.inner.config.d s.collection.inner.locations) {xs : List (Pattern F)}
    (hfit : s.Fits xs) : Grown s.collection.inner.bumpVersion (s.collection.inner.bumpVersion.batch xs s.rng) :=
  batch_grown s.collection.inner.bumpVersion hd hfit s.rng

omit [Scalar F] in
/-- A call's counters are stored under distinct names. -/
theorem written_metadata_nodup {b : Batch F S} {n : ℕ} {metadata : List (String × Metadatum F)}
    (hmeta : n = 0 ∧ metadata = counters b.inner ∨ metadata = documentCounters b.inner) :
    (metadata.map (·.1)).Nodup := by
  rcases hmeta with ⟨-, hm⟩ | hm <;> rw [hm] <;> simp [counters, documentCounters]

omit [Scalar F] in
/-- Every write stores the counters of locations. -/
theorem written_counters_mem {b : Batch F S} {n : ℕ} {metadata : List (String × Metadatum F)}
    (hmeta : n = 0 ∧ metadata = counters b.inner ∨ metadata = documentCounters b.inner)
    {kv : String × Metadatum F} (hkv : kv ∈ counters b.inner) : kv ∈ metadata := by
  rcases hmeta with ⟨-, hm⟩ | hm
  · exact hm ▸ hkv
  · exact hm ▸ List.mem_append_left _ hkv

variable [Scalar S] [Narrow F S]

/-- Writes store the document counter they leave, or leave the one there was. -/
theorem stored_docNextId {s : Session F S} {xs : List (Pattern F)} {n : ℕ} {p : Puts F}
    (hmeta : n = 0 ∧ p.metadata = counters (s.written xs n).inner ∨
      p.metadata = documentCounters (s.written xs n).inner) :
    (n = 0 ∧ (s.wrote xs n p).store.loadU64 s.collection.collectionId "doc_next_id" 0 =
        s.store.loadU64 s.collection.collectionId "doc_next_id" 0) ∨
      (s.wrote xs n p).store.loadU64 s.collection.collectionId "doc_next_id" 0 =
        .ok (s.wrote xs n p).collection.inner.docNextId := by
  have hkeys := written_metadata_nodup hmeta
  rcases hmeta with ⟨hn, hm⟩ | hm
  · have hkey : "doc_next_id" ∉ p.metadata.map (·.1) := by simp [hm, counters]
    exact Or.inl ⟨hn, loadU64_congr 0 (loadMetadata_putAll_of_notMem _ hkey)⟩
  · have hmem : ("doc_next_id", Metadatum.u64 (s.written xs n).inner.docNextId) ∈ p.metadata := by
      simp [hm, documentCounters]
    exact Or.inr (loadU64_of_some 0 (loadMetadata_putAll _ hkeys hmem))

/-- A right document counter stays right. -/
theorem written_docNextId {s : Session F S} {xs : List (Pattern F)} {n : ℕ} {p : Puts F}
    (hg : Grown s.collection.inner.bumpVersion (s.collection.inner.bumpVersion.batch xs s.rng))
    (hdoc : s.store.loadU64 s.collection.collectionId "doc_next_id" 0 = .ok s.collection.inner.docNextId)
    (hmeta : n = 0 ∧ p.metadata = counters (s.written xs n).inner ∨
      p.metadata = documentCounters (s.written xs n).inner) :
    (s.wrote xs n p).store.loadU64 s.collection.collectionId "doc_next_id" 0 =
      .ok (s.wrote xs n p).collection.inner.docNextId := by
  rcases stored_docNextId hmeta with ⟨rfl, hsame⟩ | hnext
  · have hkept : (s.wrote xs 0 p).collection.inner.docNextId = s.collection.inner.docNextId := hg.docNextId
    rw [hsame, hdoc, hkept]
  · exact hnext

/-- **Writes that store what they leave keep the agreement.** -/
theorem agrees_wrote {s : Session F S} (h : Agrees s) {xs : List (Pattern F)} (hfit : s.Fits xs) {n : ℕ}
    {p : Puts F}
    (hrec : Records s.collection.inner.locations (s.written xs n).inner.locations p.locations)
    (hmeta : n = 0 ∧ p.metadata = counters (s.written xs n).inner ∨
      p.metadata = documentCounters (s.written xs n).inner) :
    Agrees (s.wrote xs n p) := by
  have hg := Session.written_grown h.shaped hfit
  obtain ⟨hnodup, hfresh⟩ := hg.ids_ok h.nodup h.fresh
  have hconfig : (s.written xs n).inner.config = s.collection.inner.config := hg.config
  have hkeys := written_metadata_nodup hmeta
  have hlen := (hrec.shaped hg.shaped).sameLengths
  refine
    { f64 := ?_, valid := hg.valid.trans h.valid, nodup := hnodup, fresh := hfresh, shaped := ?_,
      stored := fun loc hloc => ?_, only := fun id r hr => ?_, nextId := ?_, eta := ?_,
      docNextId := written_docNextId hg h.docNextId hmeta }
  · rw [← h.f64, Session.wrote, Session.mutated, Store.putAll_eq]
  · show Shaped (s.written xs n).inner.config.d _
    rw [hconfig]
    exact hg.shaped
  · by_cases hid : loc.id ∈ p.locations.map (·.id)
    · obtain ⟨q, hq, hqid, r, hr, hs⟩ := Store.exists_locationAt?_putAll
        h.f64 s.collection.collectionId hlen hid
      obtain ⟨loc', hloc', hs'⟩ := hrec.put q hq
      obtain rfl : loc' = loc := List.inj_on_of_nodup_map hnodup hloc' hloc (hs'.id.symm.trans hqid)
      exact ⟨r, hr, hs.trans hs'⟩
    · have hold := (hrec.all loc hloc).resolve_left hid
      obtain ⟨r, hr, hs⟩ := h.stored loc hold
      exact ⟨r, (Store.locationAt?_putAll_of_notMem _ hid).trans hr, hs⟩
  · change (s.store.putAll s.collection.collectionId p).locationAt? s.collection.collectionId id = some r at hr
    show r.id = id ∧ id ∈ (s.written xs n).inner.locations.map (·.id)
    by_cases hid : id ∈ p.locations.map (·.id)
    · obtain ⟨q, hq, rfl, r', hr', hs⟩ := Store.exists_locationAt?_putAll
        h.f64 s.collection.collectionId hlen hid
      obtain rfl : r' = r := Option.some.inj (hr'.symm.trans hr)
      obtain ⟨loc', hloc', hs'⟩ := hrec.put q hq
      exact ⟨hs.id, List.mem_map.mpr ⟨loc', hloc', hs'.id.symm⟩⟩
    · rw [Store.locationAt?_putAll_of_notMem _ hid] at hr
      obtain ⟨h1, h2⟩ := h.only id r hr
      have hids : (s.written xs n).inner.locations.map (·.id) = _ := hg.ids
      exact ⟨h1, by rw [hids]; exact List.mem_append_left _ h2⟩
  · exact Store.loadMetadata_putAll _ hkeys (written_counters_mem hmeta (by simp [counters]; rfl))
  · exact Store.loadMetadata_putAll _ hkeys (written_counters_mem hmeta (by simp [counters]; rfl))

theorem locationAt_append {ls news : List (HardLocation F)} {i : ℕ} (h : i < ls.length) :
    locationAt (ls ++ news) i = locationAt ls i := by
  simp [locationAt, List.getD_eq_getElem?_getD, List.getElem?_append_left h]

/-- Settling the arrays leaves the counters. -/
theorem counters_written (s : Session F S) (x : Pattern F) (n : ℕ) :
    counters (s.written [x] n).inner = counters (s.adapted x).inner := by
  have h := sameState_settle (s.adapted x).inner (s.adapted x).result
  show counters ((s.adapted x).inner.settle (s.adapted x).result) = _
  rw [counters, h.nextId, h.eta]
  rfl

theorem documentCounters_written (s : Session F S) (x : Pattern F) (n : ℕ) :
    documentCounters (s.written [x] n).inner = documentCounters ((s.adapted x).inner.countDocuments n) := by
  have h := sameState_settle (s.adapted x).inner (s.adapted x).result
  have hdoc : (s.written [x] n).inner.docNextId = ((s.adapted x).inner.countDocuments n).docNextId :=
    congrArg (· + n) h.docNextId
  rw [documentCounters, counters_written, hdoc]
  rfl

/-- A single write stores what it leaves. -/
theorem records_single {s : Session F S}
    (hd : Shaped s.collection.inner.config.d s.collection.inner.locations) {x : Pattern F}
    (hfit : s.Fits [x]) (n : ℕ) :
    Records s.collection.inner.locations (s.written [x] n).inner.locations
      (touchedLocations (s.adapted x).inner (s.adapted x).result) := by
  have hg := Session.written_grown hd hfit
  have hw := adapt_frame s.collection.inner.bumpVersion hd (hfit x List.mem_cons_self) s.rng
  have hafter : (s.written [x] n).inner.locations =
      (s.adapted x).inner.locations ++ (s.adapted x).result.newLocations :=
    (sameState_settle (s.adapted x).inner (s.adapted x).result).locations
  have hlt : ∀ i ∈ (s.adapted x).result.modifiedIndices, i < (s.adapted x).inner.locations.length :=
    fun i hi => (hw.valid i hi).trans_eq hw.edited.length.symm
  constructor
  · intro q hq
    rw [hafter]
    refine ⟨q, List.mem_append.mpr ((List.mem_append.mp hq).imp_left fun hq => ?_), .refl q⟩
    obtain ⟨i, hi, rfl⟩ := List.mem_map.mp hq
    exact locationAt_mem (hlt i hi)
  · intro loc hloc
    rcases hg.cover hloc with ⟨i, hi, rfl⟩ | hold | hnew
    · have hi : i ∈ ([s.adapted x].flatMap (·.result.modifiedIndices)).dedup := hi
      have hi : i ∈ (s.adapted x).result.modifiedIndices := by simpa using hi
      refine Or.inl (List.mem_map_of_mem (List.mem_append_left _ (List.mem_map.mpr ⟨i, hi, ?_⟩)))
      exact (locationAt_append (hlt i hi)).symm.trans (congrArg (locationAt · i) hafter.symm)
    · exact Or.inr hold
    · have hnew : loc ∈ [s.adapted x].flatMap (·.result.newLocations) := hnew
      have hnew : loc ∈ (s.adapted x).result.newLocations := by simpa using hnew
      exact Or.inl (List.mem_map_of_mem (List.mem_append_right _ hnew))

/-- A batch stores shaped locations, as it left them or as it created them. -/
theorem shaped_batchPuts {s : Session F S}
    (hd : Shaped s.collection.inner.config.d s.collection.inner.locations) {inputs : List (List F)}
    (hfit : s.Fits (inputs.map .single)) : Shaped s.collection.inner.config.d (batchPuts s inputs).locations := by
  have hg := Session.written_grown hd hfit
  intro q hq
  rcases List.mem_append.mp hq with hq | hq
  · obtain ⟨i, hi, rfl⟩ := List.mem_map.mp hq
    exact hg.shaped _ (locationAt_mem (of_decide_eq_true (List.mem_filter.mp hi).2))
  · exact hg.createdShaped q hq

/-- A batch that keeps what it created stores what it leaves. -/
theorem records_batch {s : Session F S}
    (hd : Shaped s.collection.inner.config.d s.collection.inner.locations) {inputs : List (List F)}
    (hfit : s.Fits (inputs.map .single)) (hkeeps : (s.written (inputs.map .single) 0).KeepsCreated) :
    Records s.collection.inner.locations (s.written (inputs.map .single) 0).inner.locations
      (batchPuts s inputs).locations := by
  have hg := Session.written_grown hd hfit
  constructor
  · intro q hq
    rcases List.mem_append.mp hq with hq | hq
    · obtain ⟨i, hi, rfl⟩ := List.mem_map.mp hq
      exact ⟨_, locationAt_mem (by simpa using (List.mem_filter.mp hi).2), .refl _⟩
    · exact hkeeps q hq
  · intro loc hloc
    rcases hg.cover hloc with ⟨i, hi, rfl⟩ | hold | hnew
    · exact Or.inl (List.mem_map_of_mem (List.mem_append_left _ (List.mem_map.mpr
        ⟨i, List.mem_filter.mpr ⟨hi, decide_eq_true (hg.modified i hi)⟩, rfl⟩)))
    · exact Or.inr hold
    · exact Or.inl (List.mem_map_of_mem (List.mem_append_right _ hnew))

omit [Scalar F] [Scalar S] [Narrow F S] in
theorem mem_touched {b : Batch F S} {start i : ℕ} :
    i ∈ b.touched start ↔ i ∈ b.allModified ∨ start ≤ i ∧ i < start + (b.inner.locations.length - start) := by
  simp [Batch.touched, List.mem_insertionSort, List.mem_range'_1]

/-- A batch numbers its documents in input order. -/
theorem documentIds_documentBatch (s : Session F S) (items : List (List F × List UInt8)) :
    (documentBatchPuts s items).documents.map (·.1) = List.range' s.collection.inner.docNextId items.length := by
  have hlen : (s.written (items.map fun item => .single item.1) items.length).writes.length = items.length :=
    (length_writes _ _ _).trans (List.length_map _)
  show List.map _ (List.map _ _) = _
  rw [List.map_map]
  refine List.ext_getElem? fun j => ?_
  simp only [List.getElem?_map, List.getElem?_zipIdx]
  by_cases hj : j < items.length
  · rw [List.getElem?_eq_getElem (by simpa [hlen] using hj)]
    simp [hj]
  · rw [List.getElem?_eq_none (by simp [hlen]; omega)]
    simp [hj]

/-- A batch of documents stores what it leaves. -/
theorem records_documentBatch {s : Session F S}
    (hd : Shaped s.collection.inner.config.d s.collection.inner.locations)
    {items : List (List F × List UInt8)} (hfit : s.Fits (items.map fun item => .single item.1)) :
    Records s.collection.inner.locations
      (s.written (items.map fun item => .single item.1) items.length).inner.locations
      (documentBatchPuts s items).locations := by
  have hg := Session.written_grown hd hfit
  constructor
  · intro q hq
    obtain ⟨i, hi, rfl⟩ := List.mem_map.mp hq
    refine ⟨_, locationAt_mem ?_, .refl _⟩
    rcases mem_touched.mp hi with hi | ⟨h1, h2⟩
    · exact hg.modified i hi
    · omega
  · intro loc hloc
    obtain ⟨i, hi⟩ := List.mem_iff_getElem?.mp hloc
    by_cases htouched : i ∈ (s.written (items.map fun item => .single item.1) items.length).touched
        s.collection.inner.locations.length
    · refine Or.inl (List.mem_map_of_mem (List.mem_map.mpr ⟨i, htouched, ?_⟩))
      simp [locationAt, List.getD_eq_getElem?_getD, hi]
    · rw [mem_touched, not_or] at htouched
      have hlt := (List.getElem?_eq_some_iff.mp hi).1
      have := hg.kept i (by show i < s.collection.inner.locations.length; omega) htouched.1
      exact Or.inr (List.mem_of_getElem? (this.symm.trans hi))

namespace Call

def IsWrite : Call F → Prop
  | .write _ | .writeTwo .. | .writeBatch _ | .writeWithMetadata .. | .writeBatchWithMetadata _ => True
  | _ => False

/-- No location that a `write_batch` creates is changed by a later write of
that batch. -/
def KeepsCreated (s : Session F S) : Call F → Prop
  | .writeBatch inputs => (s.written (inputs.map .single) 0).KeepsCreated
  | _ => True

end Call

/-- A write's effect keeps the agreement. -/
theorem agrees_effect [SeededUniform F] {s : Session F S} (h : Agrees s) {c : Call F} (hw : c.IsWrite)
    (hacc : c.Accepted s) (hk : c.KeepsCreated s) : Agrees (c.effect s) := by
  cases c with
  | write input =>
    exact agrees_wrote h hacc (records_single h.shaped hacc 0) (Or.inl ⟨rfl, (counters_written ..).symm⟩)
  | writeTwo address counter opts =>
    exact agrees_wrote h hacc (records_single h.shaped hacc 0) (Or.inl ⟨rfl, (counters_written ..).symm⟩)
  | writeBatch inputs => exact agrees_wrote h hacc (records_batch h.shaped hacc hk) (Or.inl ⟨rfl, rfl⟩)
  | writeWithMetadata input metadata =>
    exact agrees_wrote h hacc (records_single h.shaped hacc 1)
      (Or.inr (documentCounters_written ..).symm)
  | writeBatchWithMetadata items =>
    by_cases hemp : items = []
    · rwa [Call.effect, if_pos hemp]
    · rw [Call.effect, if_neg hemp]
      exact agrees_wrote h hacc (records_documentBatch h.shaped hacc) (Or.inr rfl)
  | _ => exact hw.elim

/-- A successful write keeps the agreement. -/
theorem agrees_step [SeededUniform F] {s s' : Session F S} (h : Agrees s) {c : Call F} {r : Reply F}
    (hstep : Step s (c, .ok r) s') (hw : c.IsWrite) (hk : c.KeepsCreated s) : Agrees s' := by
  rcases step_cases hstep with ⟨e, he, -⟩ | ⟨hacc, -, rfl⟩
  · simp at he
  · exact agrees_effect h hw hacc hk

/-- **Writes last.** After any run of successful writes whose batches leave
the locations they create alone, the store loads as the memory. -/
theorem writes_reload [SeededUniform F] {s s' : Session F S} {es : List (Event F)} (h : Agrees s)
    (hrun : Run (fun s (e : Event F) s' => Step s e s' ∧ e.1.IsWrite ∧ (∃ r, e.2 = .ok r) ∧ e.1.KeepsCreated s)
      s es s') : Reloads SameLocation s' := by
  refine (hrun.invariant h fun {s e s'} h hs => ?_).reloads
  obtain ⟨c, r⟩ := e
  obtain ⟨hstep, hw, ⟨a, rfl⟩, hk⟩ := hs
  exact agrees_step h hstep hw hk

/-- The condition on a batch is exact. -/
theorem writeBatch_reloads_iff [SeededUniform F] {s s' : Session F S} (h : Agrees s) {inputs : List (List F)}
    {r : Reply F} (hstep : Step s (.writeBatch inputs, .ok r) s') :
    Reloads SameLocation s' ↔ (s.written (inputs.map .single) 0).KeepsCreated := by
  rcases step_cases hstep with ⟨e, he, -⟩ | ⟨hacc, -, rfl⟩
  · simp at he
  refine ⟨fun hre created hcreated => ?_, fun hk =>
    (agrees_effect h (c := .writeBatch inputs) trivial hacc hk).reloads⟩
  obtain ⟨loaded, hload, hsame⟩ := hre
  have hg := Session.written_grown h.shaped hacc
  -- the last record put under the id is the created location's
  obtain ⟨q, hq, hqid, x, hx, hxq⟩ := exists_locationAt?_putAll_right
    (p := batchPuts s inputs) h.f64 s.collection.collectionId rfl
    hg.createdShaped.sameLengths (List.mem_map_of_mem hcreated)
  have hnodup : ((s.written (inputs.map .single) 0).allNewLocs.map (·.id)).Nodup :=
    (congrArg List.Nodup hg.createdIds).mpr List.nodup_range'
  obtain rfl : q = created := List.inj_on_of_nodup_map hnodup hq hcreated hqid
  obtain ⟨loc, hloc, hlocid⟩ : ∃ loc ∈ (s.written (inputs.map .single) 0).inner.locations, loc.id = q.id := by
    refine List.mem_map.mp ?_
    have hids : (s.written (inputs.map .single) 0).inner.locations.map (·.id) = _ := hg.ids
    have hcreatedIds : (s.written (inputs.map .single) 0).allNewLocs.map (·.id) = _ := hg.createdIds
    rw [hids, ← hcreatedIds]
    exact List.mem_append_right _ (List.mem_map_of_mem hq)
  have hin := (mem_loadAllLocations_iff (locations_of_load hload)).mpr ⟨q.id, hx⟩
  exact ⟨loc, hloc, hxq.symm.trans (hsame.locations x hin loc hloc (hxq.id.trans hlocid.symm))⟩

deriving instance DecidableEq for HardLocation

/-- A plain write to a competitive collection. -/
def smallWrittenOnce : Session ℚ ℚ := Call.effect (smallSession true) (.write [1])

/-- A batch that joins the location there is and creates another. -/
def smallWrittenBatch : Session ℚ ℚ := Call.effect smallWrittenOnce (.writeBatch [[1], [-1]])

/-- The two locations after a document more. -/
theorem writes_reload_batch : (Call.effect smallWrittenBatch (.writeWithMetadata [1] [7])).collection.inner.locations.map
      (fun loc => (loc.address, loc.writeCount)) = [([1], 3), ([-1], 1)] ∧
    Reloads SameLocation (Call.effect smallWrittenBatch (.writeWithMetadata [1] [7])) := by
  have hin : ∀ created ∈ (smallWrittenOnce.written ([[1], [-1]].map .single) 0).allNewLocs,
      created ∈ (smallWrittenOnce.written ([[1], [-1]].map .single) 0).inner.locations := by decide +kernel
  have hwrite := step_of_isOk (s := smallSession true) (c := .write [1]) (by decide +kernel)
  have hbatch := step_of_isOk (s := smallWrittenOnce) (c := .writeBatch [[1], [-1]]) (by decide +kernel)
  have hdocument := step_of_isOk (s := smallWrittenBatch) (c := .writeWithMetadata [1] [7]) (by decide +kernel)
  refine ⟨by decide +kernel, writes_reload (agrees_smallSession true)
    (((Run.single ⟨hwrite, trivial, ⟨_, rfl⟩, trivial⟩).snoc ⟨hbatch, trivial, ⟨_, rfl⟩, ?_⟩).snoc
      ⟨hdocument, trivial, ⟨_, rfl⟩, trivial⟩)⟩
  exact fun created h => ⟨created, hin created h, .refl _⟩

/-- **A batch that writes to a location it created** leaves the store behind the
memory: of two patterns equal to each other the first creates a location, the
second joins it, and the store keeps it as the first left it. -/
theorem writeBatch_stale :
    ∃ s', Agrees (smallSession true) ∧
      Run (fun s (e : Event ℚ) s' => Step s e s' ∧ e.1.IsWrite ∧ ∃ r, e.2 = .ok r) (smallSession true)
        [(.writeBatch [[1], [1]], .ok .done)] s' ∧
      ¬ Reloads SameLocation s' := by
  refine ⟨Call.effect (smallSession true) (.writeBatch [[1], [1]]), agrees_smallSession true,
    .single ⟨step_of_isOk (by decide +kernel), trivial, .done, rfl⟩, ?_⟩
  exact not_reloads (k := 0) (m := 1) (n := 2) (fun _ _ h => h.writeCount) (by decide +kernel)
    (by decide +kernel) (by decide)

/-! ### Consolidations -/

theorem SameEvidence.of_sameLocation {a b : HardLocation F} (h : SameLocation a b) : SameEvidence a b :=
  ⟨h.id, h.address, h.counter, h.writeCount, h.neighbors⟩

theorem SameEvidence.trans {a b c : HardLocation F} (h : SameEvidence a b) (h' : SameEvidence b c) :
    SameEvidence a c :=
  ⟨h.id.trans h'.id, h.address.trans h'.address, h.counter.trans h'.counter,
    h.writeCount.trans h'.writeCount, h.neighbors.trans h'.neighbors⟩

omit [Scalar S] in
/-- Where records were only removed, the store loads as the memory just when
every location of the memory is one there was. -/
theorem reloads_iff_of_removed {s t : Session F S} (h : Agrees s) (removed : List ℕ)
    (hprecision : t.store.precision = s.store.precision)
    (hid : t.collection.collectionId = s.collection.collectionId)
    (hvalid : t.collection.inner.valid = s.collection.inner.valid)
    (hconfig : t.collection.inner.config = s.collection.inner.config)
    (hat : ∀ id, t.store.locationAt? t.collection.collectionId id =
      if id ∈ removed then none else s.store.locationAt? s.collection.collectionId id)
    (hmeta : t.store.metadata = s.store.metadata)
    (hids : t.collection.inner.locations.map (·.id) =
      (s.collection.inner.locations.map (·.id)).filter (· ∉ removed))
    (hnext : t.collection.inner.nextId = s.collection.inner.nextId)
    (heta : t.collection.inner.eta = s.collection.inner.eta)
    (hdoc : t.collection.inner.docNextId = s.collection.inner.docNextId) :
    Reloads SameEvidence t ↔ ∀ loc ∈ t.collection.inner.locations,
      ∃ old ∈ s.collection.inner.locations, SameEvidence old loc := by
  -- the memory whose locations are those there were
  let u : Session F S := { t with
    collection := { t.collection with
      inner := { t.collection.inner with
        locations := s.collection.inner.locations.filter fun loc => loc.id ∉ removed } } }
  have huids : u.collection.inner.locations.map (·.id) = t.collection.inner.locations.map (·.id) := by
    rw [hids, List.filter_map]
    rfl
  have hu : Agrees u :=
    { f64 := hprecision.trans h.f64
      valid := hvalid.trans h.valid
      nodup := huids ▸ hids ▸ h.nodup.filter _
      fresh := fun loc hloc => (h.fresh loc (List.mem_filter.mp hloc).1).trans_eq hnext.symm
      shaped := fun loc hloc => by
        show _ = t.collection.inner.config.d ∧ _ = t.collection.inner.config.d
        rw [hconfig]
        exact h.shaped loc (List.mem_filter.mp hloc).1
      stored := fun loc hloc => by
        obtain ⟨hloc, hkept⟩ := List.mem_filter.mp hloc
        show ∃ r, t.store.locationAt? t.collection.collectionId loc.id = some r ∧ _
        rw [hat, if_neg (by simpa using hkept)]
        exact h.stored loc hloc
      only := fun id r hr => by
        change t.store.locationAt? t.collection.collectionId id = some r at hr
        rw [hat] at hr
        split_ifs at hr with hrem
        rw [huids, hids]
        exact ⟨(h.only id r hr).1, List.mem_filter.mpr ⟨(h.only id r hr).2, by simpa using hrem⟩⟩
      nextId := by
        show t.store.metadata.get _ = some (.u64 t.collection.inner.nextId)
        rw [hmeta, hnext, hid]
        exact h.nextId
      eta := by
        show t.store.metadata.get _ = some (.f64 t.collection.inner.eta)
        rw [hmeta, heta, hid]
        exact h.eta
      docNextId := by
        show t.store.loadU64 t.collection.collectionId _ _ = .ok t.collection.inner.docNextId
        rw [hdoc, hid, ← h.docNextId, loadU64, loadU64, loadMetadata, loadMetadata, hmeta] }
  obtain ⟨loaded, hload, hperm, hsame⟩ := hu.load
  constructor
  · rintro ⟨c, hc, hcs⟩ loc hloc
    obtain rfl := Except.ok.inj (hload.symm.trans hc)
    have hmem : loc.id ∈ u.collection.inner.locations.map (·.id) := huids ▸ List.mem_map_of_mem hloc
    obtain ⟨old, hold, holdid⟩ := List.mem_map.mp hmem
    obtain ⟨x, hx, hxid⟩ := List.mem_map.mp (hperm.mem_iff.mpr hmem)
    refine ⟨old, (List.mem_filter.mp hold).1, ?_⟩
    exact (SameEvidence.of_sameLocation (hsame x hx old hold (hxid.trans holdid.symm)).symm).trans
      (hcs.locations x hx loc hloc hxid)
  · intro hall
    refine ⟨_, hload, huids ▸ hperm, fun x hx y hy hxy => ?_, rfl, rfl, rfl⟩
    obtain ⟨old, hold, hsame'⟩ := hall y hy
    have hmem : y.id ∈ t.collection.inner.locations.map (·.id) := List.mem_map_of_mem hy
    rw [hids] at hmem
    have hin : old ∈ u.collection.inner.locations :=
      List.mem_filter.mpr ⟨hold, by simpa [hsame'.id] using (List.mem_filter.mp hmem).2⟩
    exact (SameEvidence.of_sameLocation (hsame x hx old hin (hxy.trans hsame'.id.symm))).trans hsame'

omit [Scalar S] in
/-- Locations stored in place of those removed agree with their memory. -/
theorem agrees_of_replaced {s t : Session F S} (h : Agrees s) (removed : List ℕ)
    (hprecision : t.store.precision = s.store.precision)
    (hid : t.collection.collectionId = s.collection.collectionId)
    (hvalid : t.collection.inner.valid = s.collection.inner.valid)
    (htable : t.store.locations =
      (s.store.locations.deleteAll (removed.map fun id => ⟨s.collection.collectionId, id⟩)).putAll
        (t.collection.inner.locations.map (locationEntry .f64 s.collection.collectionId)))
    (hremoved : ∀ k ∈ s.collection.inner.locations.map (·.id),
      k ∈ t.collection.inner.locations.map (·.id) ∨ k ∈ removed)
    (hnodup : (t.collection.inner.locations.map (·.id)).Nodup)
    (hfresh : ∀ loc ∈ t.collection.inner.locations, loc.id < t.collection.inner.nextId)
    (hshaped : Shaped t.collection.inner.config.d t.collection.inner.locations)
    (hnext : t.store.loadMetadata t.collection.collectionId "next_id" = some (.u64 t.collection.inner.nextId))
    (heta : t.store.loadMetadata t.collection.collectionId "eta" = some (.f64 t.collection.inner.eta))
    (hdoc : t.store.loadU64 t.collection.collectionId "doc_next_id" 0 = .ok t.collection.inner.docNextId) :
    Agrees t where
  f64 := hprecision.trans h.f64
  valid := hvalid.trans h.valid
  nodup := hnodup
  fresh := hfresh
  shaped := hshaped
  stored loc hloc := by
    rw [locationAt?_eq, hid, htable]
    obtain ⟨q, hq, hqid, r, hr, hs⟩ := exists_decodeAt_putAll (s.store.locations.deleteAll
      (removed.map fun id => ⟨s.collection.collectionId, id⟩)) s.collection.collectionId
      hshaped.sameLengths (List.mem_map_of_mem hloc)
    obtain rfl : q = loc := List.inj_on_of_nodup_map hnodup hq hloc hqid
    exact ⟨r, hr, hs⟩
  only id r hr := by
    rw [locationAt?_eq, hid, htable] at hr
    by_cases hin : id ∈ t.collection.inner.locations.map (·.id)
    · obtain ⟨q, hq, rfl, r', hr', hs⟩ := exists_decodeAt_putAll (s.store.locations.deleteAll
        (removed.map fun id => ⟨s.collection.collectionId, id⟩)) s.collection.collectionId hshaped.sameLengths hin
      obtain rfl : r' = r := Option.some.inj (hr'.symm.trans hr)
      exact ⟨hs.id, hin⟩
    · -- what was there before has been removed
      rw [decodeAt_putAll_of_notMem _ hin, decodeAt_deleteAll] at hr
      split_ifs at hr with hrem
      obtain ⟨-, hold⟩ := h.only id r hr
      exact absurd ((hremoved id hold).resolve_left hin) hrem
  nextId := hnext
  eta := heta
  docNextId := hdoc

omit [Scalar S] in
/-- Materializing touches neither the locations nor the counters. -/
theorem agrees_materialized {s : Session F S} (h : Agrees s) : Agrees s.materialized := by
  have hstore : s.materialized.store = _ := materialize_eq _ _ _
  exact
    { f64 := by rw [hstore]; exact h.f64
      valid := h.valid
      nodup := h.nodup
      fresh := h.fresh
      shaped := h.shaped
      stored := by rw [hstore]; exact h.stored
      only := by rw [hstore]; exact h.only
      nextId := by rw [hstore]; exact h.nextId
      eta := by rw [hstore]; exact h.eta
      docNextId := by rw [hstore]; exact h.docNextId }

omit [Scalar S] [Narrow F S] in
theorem compression_consolidated (s : Session F S) (kappa lambda : F) :
    Consolidated s.collection.inner.locations (s.compression kappa lambda).2 (s.compression kappa lambda).1 :=
  compressLoop_consolidated kappa lambda _ _ (Consolidated.refl s.collection.inner.locations)

omit [Scalar S] in
/-- Compressing stores what it leaves. -/
theorem agrees_compressed {s : Session F S} (h : Agrees s) (kappa lambda : F) :
    Agrees (s.compressed kappa lambda) := by
  have hm := agrees_materialized h
  have hcons := compression_consolidated s kappa lambda
  have hids := hcons.ids h.nodup
  have hstore := compressedInto_eq s.collection.collectionId s.materialized.store
    (s.compression kappa lambda).1 (s.compression kappa lambda).2
  rw [hm.f64] at hstore
  unfold Session.compressed
  dsimp only
  split_ifs with hr
  · exact hm
  refine agrees_of_replaced hm ((s.compression kappa lambda).2.map Prod.fst) ?_ rfl rfl ?_ hcons.covers
    ?_ (fun loc hloc => ?_) (hcons.shaped _ h.shaped) ?_ ?_ ?_
  · exact (congrArg Store.precision hstore).trans hm.f64.symm
  · exact congrArg Store.locations hstore
  · exact hids ▸ h.nodup.filter _
  · have hmem : loc.id ∈ (s.compression kappa lambda).1.map (·.id) := List.mem_map_of_mem hloc
    obtain ⟨old, hold, holdid⟩ := List.mem_map.mp (hcons.within _ hmem)
    exact (h.fresh old hold).trans_eq' holdid
  · exact (congrArg (loadMetadata · _ _) hstore).trans hm.nextId
  · exact (congrArg (loadMetadata · _ _) hstore).trans hm.eta
  · exact (congrArg (loadU64 · _ _ _) hstore).trans hm.docNextId

omit [Scalar F] in
theorem lt_nextIdOf {ls : List (HardLocation F)} {loc : HardLocation F} (h : loc ∈ ls) : loc.id < nextIdOf ls := by
  cases ls with
  | nil => simp at h
  | cons first rest => exact Nat.lt_succ_of_le (le_foldl_max (Or.inl (List.mem_map_of_mem h)))

omit [Scalar S] in
/-- A snapshot is stored as it is loaded if its ids are distinct and its
counters as long as their addresses. -/
theorem agrees_replaced {s : Session F S} (h : Agrees s) {locations : List (HardLocation F)} {config : EAMConfig F}
    (hd : ∀ loc ∈ locations, loc.address.length = config.d) (hn : (locations.map (·.id)).Nodup)
    (hlen : SameLengths locations) : Agrees (s.replaced locations config) := by
  have hm := agrees_materialized h
  have hstore := replacedBy_eq s.collection.collectionId s.materialized.store s.collection.inner.locations
    locations config
  have hkeys : ((snapshotPuts locations config).metadata.map (·.1)).Nodup := by simp [snapshotPuts]
  have hload := fun key => loadMetadata_replacedBy s.materialized.store s.collection.collectionId
    s.collection.inner.locations locations config key
  refine agrees_of_replaced hm (s.collection.inner.locations.map (·.id)) ?_ rfl rfl ?_
    (fun k hk => Or.inr hk) hn (fun loc hloc => lt_nextIdOf hloc)
    (fun loc hloc => ⟨hd loc hloc, (hlen loc hloc).trans (hd loc hloc)⟩) ?_ ?_ ?_
  · exact (congrArg Store.precision hstore :)
  · rw [hm.f64] at hstore
    exact congrArg Store.locations hstore
  · exact loadMetadata_putAll _ hkeys (by simp [snapshotPuts]; rfl)
  · exact (hload "eta" (by decide)).trans hm.eta
  · exact (loadU64_congr 0 (hload "doc_next_id" (by decide))).trans hm.docNextId

omit [Scalar S] in
/-- A snapshot load is durable just when no two of its locations have one id
and every counter is as long as its address. -/
theorem replaced_reloads_iff {s : Session F S} (h : Agrees s) {locations : List (HardLocation F)}
    {config : EAMConfig F} (hd : ∀ loc ∈ locations, loc.address.length = config.d) :
    Reloads SameEvidence (s.replaced locations config) ↔
      (locations.map (·.id)).Nodup ∧ SameLengths locations := by
  constructor
  · rintro ⟨loaded, hload, hsame⟩
    have hm := agrees_materialized h
    have hstore := replacedBy_eq s.collection.collectionId s.materialized.store
      s.collection.inner.locations locations config
    rw [hm.f64] at hstore
    constructor
    · refine hsame.ids.nodup_iff.mp (nodup_ids_of_load (locations_of_load hload) fun id r hr => ?_)
      replace hr := (congrArg (locationAt? · s.collection.collectionId id) hstore).symm.trans hr
      rw [locationAt?_eq] at hr
      by_cases hin : id ∈ locations.map (·.id)
      · exact id_of_decodeAt_putAll _ _ hin hr
      · rw [decodeAt_putAll_of_notMem _ hin, decodeAt_deleteAll] at hr
        split_ifs at hr
        exact (hm.only id r hr).1
    · -- each location was loaded under its id, and what is loaded has vectors of one length
      intro loc hloc
      have hmem : loc.id ∈ loaded.inner.locations.map (·.id) := hsame.ids.mem_iff.mpr (List.mem_map_of_mem hloc)
      obtain ⟨x, hx, hxid⟩ := List.mem_map.mp hmem
      obtain ⟨id, hat⟩ := (mem_loadAllLocations_iff (locations_of_load hload)).mp hx
      have hs := hsame.locations x hx loc hloc hxid
      rw [← List.Forall₂.length_eq hs.counter, ← hs.address]
      obtain ⟨e, -, hdec⟩ := decodeAt_eq_some_iff.mp hat
      exact lengths_of_decodeLocation hdec
  · rintro ⟨hn, hlen⟩
    obtain ⟨loaded, hload, hsame⟩ := (agrees_replaced h hd hn hlen).reloads
    exact ⟨loaded, hload, hsame.ids, fun x hx y hy hxy => .of_sameLocation (hsame.locations x hx y hy hxy),
      hsame.nextId, hsame.eta, hsame.docNextId⟩

variable [SeededUniform F]

omit [Scalar S] in
/-- A merge is durable just when it leaves its survivors as they were. -/
theorem merged_reloads_iff {s : Session F S} (h : Agrees s) :
    Reloads SameEvidence s.merged ↔
      ∀ loc ∈ (knnMerge s.collection.inner.locations s.collection.inner.config).2,
        ∃ old ∈ s.collection.inner.locations, SameEvidence old loc := by
  have hm := agrees_materialized h
  obtain ⟨hcons, hremoved⟩ := knnMerge_consolidated s.collection.inner.locations s.collection.inner.config
  have hids := hcons.ids h.nodup
  rw [← hremoved] at hids
  unfold Session.merged
  dsimp only
  split_ifs with hr
  · rw [hr] at hids
    exact reloads_iff_of_removed (s := s.materialized) hm [] rfl rfl rfl rfl (fun id => by simp; rfl)
      rfl hids rfl rfl rfl
  · have hstore := mergedInto_eq s.collection.collectionId s.materialized.store
      (knnMerge s.collection.inner.locations s.collection.inner.config).1
    refine reloads_iff_of_removed (s := s.materialized) hm
      (knnMerge s.collection.inner.locations s.collection.inner.config).1.removedIds
      (congrArg Store.precision hstore :) rfl rfl rfl (fun id => ?_) (congrArg Store.metadata hstore :) hids rfl rfl rfl
    refine (congrArg (locationAt? · _ id) hstore).trans ?_
    exact decodeAt_deleteAll _ _ _ _

/-- A call that rewrites the locations of a collection. -/
inductive Consolidation (F : Type) where
  | merge
  | compress (kappa lambda : F)
  | loadSnapshotChecked (locations : List (HardLocation F)) (config : EAMConfig F) (expected : Option ℕ)

namespace Consolidation

def run : Consolidation F → Program HeatherError (Session F S) Unit
  | .merge => do let _ ← HeatherDb.merge; pure ()
  | .compress kappa lambda => do let _ ← HeatherDb.compress kappa lambda; pure ()
  | .loadSnapshotChecked locations config expected => HeatherDb.loadSnapshotChecked locations config expected

/-- A snapshot is loaded with the collection's own configuration. -/
def OwnConfig (s : Session F S) : Consolidation F → Prop
  | .loadSnapshotChecked _ config _ => config = s.collection.inner.config
  | _ => True

/-- What the call makes of the session. -/
def effect (s : Session F S) : Consolidation F → Session F S
  | .merge => s.merged
  | .compress kappa lambda => s.compressed kappa lambda
  | .loadSnapshotChecked locations config _ => s.replaced locations config

/-- The nearest-neighbor merge leaves every surviving location as it was; the
snapshot's ids are distinct and its counters as long as their addresses. -/
def LeavesSurvivors (s : Session F S) : Consolidation F → Prop
  | .merge => ∀ loc ∈ (knnMerge s.collection.inner.locations s.collection.inner.config).2,
      ∃ old ∈ s.collection.inner.locations, SameEvidence old loc
  | .loadSnapshotChecked locations _ _ => (locations.map (·.id)).Nodup ∧ SameLengths locations
  | .compress .. => True

omit [Scalar S] in
/-- A call that succeeds has its whole effect, and loads only locations of the
dimension. -/
theorem run_ok {c : Consolidation F} {s s' : Session F S} {fs fs' : List (Option HeatherError)}
    (h : c.run ⟨s, fs⟩ = (.ok (), ⟨s', fs'⟩)) : s' = c.effect s ∧
      ∀ locations config expected, c = .loadSnapshotChecked locations config expected →
        ∀ loc ∈ locations, loc.address.length = config.d := by
  cases c with
  | merge =>
    rcases merge_cases s fs with ⟨e, fs'', t, hrun, -⟩ | ⟨fs'', hrun⟩
    · simp [run, bind_of_error hrun] at h
    · simp only [run, bind_of_ok hrun, Program.pure_apply, Prod.mk.injEq, World.mk.injEq, true_and] at h
      exact ⟨h.1.symm, by simp⟩
  | compress kappa lambda =>
    rcases compress_cases kappa lambda s fs with ⟨e, fs'', t, hrun, -⟩ | ⟨fs'', hrun⟩
    · simp [run, bind_of_error hrun] at h
    · simp only [run, bind_of_ok hrun, Program.pure_apply, Prod.mk.injEq, World.mk.injEq, true_and] at h
      exact ⟨h.1.symm, by simp⟩
  | loadSnapshotChecked locations config expected =>
    rcases loadSnapshotChecked_cases locations config expected s fs with ⟨e, fs'', t, hrun, -⟩ | ⟨-, hd, fs'', hrun⟩
    · simp [run, hrun] at h
    · simp only [run, hrun, Prod.mk.injEq, World.mk.injEq, true_and] at h
      refine ⟨h.1.symm, fun locations' config' expected' heq => ?_⟩
      cases heq
      exact hd

omit [Scalar S] in
/-- A call that succeeds when no storage step fails has its effect then. -/
theorem run_of_isOk {c : Consolidation F} {s : Session F S} (h : (c.run ⟨s, []⟩).1.isOk = true) :
    ∃ fs', c.run ⟨s, []⟩ = (.ok (), ⟨c.effect s, fs'⟩) := by
  rcases hrun : c.run ⟨s, []⟩ with ⟨r, s', fs'⟩
  rw [hrun] at h
  cases r with
  | error e => simp [Except.isOk, Except.toBool] at h
  | ok u => exact ⟨fs', by rw [(run_ok hrun).1]⟩

end Consolidation

omit [Scalar S] in
/-- **Which consolidations last.** A compression always does; a merge does just
when it changed no location it left, and a snapshot load just when the ids of
the snapshot are distinct and its counters as long as their addresses. -/
theorem consolidation_reloads_iff {s s' : Session F S} (h : Agrees s) {c : Consolidation F} (hc : c.OwnConfig s)
    {fs : List (Option HeatherError)} (hrun : ∃ fs', c.run ⟨s, fs⟩ = (.ok (), ⟨s', fs'⟩)) :
    Reloads SameEvidence s' ↔ c.LeavesSurvivors s := by
  obtain ⟨fs', hrun⟩ := hrun
  obtain ⟨rfl, hd⟩ := Consolidation.run_ok hrun
  cases c with
  | merge => exact merged_reloads_iff h
  | compress kappa lambda =>
    obtain ⟨loaded, hload, hsame⟩ := (agrees_compressed h kappa lambda).reloads
    refine ⟨fun _ => trivial, fun _ => ⟨loaded, hload, hsame.ids, ?_, hsame.nextId, hsame.eta, hsame.docNextId⟩⟩
    exact fun x hx y hy hxy => .of_sameLocation (hsame.locations x hx y hy hxy)
  | loadSnapshotChecked locations config expected => exact replaced_reloads_iff h (hd _ _ _ rfl)

/-- Three plain writes of one pattern. -/
def threeWritten : Session ℚ ℚ :=
  Call.effect (Call.effect (Call.effect (smallSession false) (.write [1])) (.write [1])) (.write [1])

theorem agrees_threeWritten : Agrees threeWritten := by
  have h1 := agrees_step (agrees_smallSession false) (step_of_isOk (c := .write [1]) (by decide +kernel))
    trivial trivial
  have h2 := agrees_step h1 (step_of_isOk (c := .write [1]) (by decide +kernel)) trivial trivial
  exact agrees_step h2 (step_of_isOk (c := .write [1]) (by decide +kernel)) trivial trivial

/-- A load of one location with an address and no counter. -/
def raggedLoad : Consolidation ℚ :=
  .loadSnapshotChecked [⟨0, [1], [], 1, [], 0⟩] threeWritten.collection.inner.config none

/-- The three locations compressed to two are stored so; a location without
its counter is not. -/
theorem consolidation_reloads_both : Reloads SameEvidence ((Consolidation.compress 1 0).effect threeWritten) ∧
    ¬ Reloads SameEvidence (raggedLoad.effect threeWritten) :=
  ⟨(consolidation_reloads_iff agrees_threeWritten (c := .compress 1 0) trivial
      (Consolidation.run_of_isOk (by decide +kernel))).mpr trivial,
    (consolidation_reloads_iff agrees_threeWritten (c := raggedLoad) rfl
      (Consolidation.run_of_isOk (by decide +kernel))).not.mpr fun h => by
        simpa using h.2 ⟨0, [1], [], 1, [], 0⟩ List.mem_cons_self⟩

/-- **A merge is forgotten.** The location that took the others up is in the
store as it was before. -/
theorem merge_forgotten : ∃ r s', Agrees threeWritten ∧ Step threeWritten (.merge, .ok r) s' ∧
    ¬ Reloads SameEvidence s' := by
  refine ⟨_, Call.effect threeWritten .merge, agrees_threeWritten,
    step_of_isOk (c := .merge) (by decide +kernel), ?_⟩
  exact not_reloads (k := 2) (m := 1) (n := 3) (fun _ _ h => h.writeCount) (by decide +kernel)
    (by decide +kernel) (by decide)

end HeatherDb
