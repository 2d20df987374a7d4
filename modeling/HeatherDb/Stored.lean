/-
# What the store holds after a call

Every effect on the store is a run of puts and deletes on each of its tables
(`Store.putAll_eq`, `Store.materialize_eq`, `Store.replacedBy_eq`,
`Store.mergedInto_eq`). From these follows what is read back: under a
location's key one of the locations last put there
(`exists_locationAt?_putAll`), under a counter's key the value put.

`Agrees` says that a store's records of a collection are its memory, and
`Reloads` that loading the store gives the memory back; the first implies the
second (`Agrees.reloads`).

Key definitions: `SameMemory`, `Agrees`, `Reloads`.
Key theorems: `Store.exists_locationAt?_putAll`, `Agrees.reloads`.
-/
import HeatherDb.Consolidation

namespace HeatherDb

open Scalar Narrow

variable {F S : Type} [Narrow F S]

namespace Store

/-! ### Runs of puts and deletes -/

/-- A location's key and record. -/
def locationEntry [Scalar F] (precision : Precision) (collectionId : ℕ) (loc : HardLocation F) :
    Scoped ℕ ℕ × LocationRecord F :=
  (⟨collectionId, loc.id⟩, encodeLocation precision loc)

theorem foldl_putLocation [Scalar F] (collectionId : ℕ) : ∀ (ls : List (HardLocation F)) (s : Store F),
    ls.foldl (fun s loc => s.putLocation collectionId loc) s =
      { s with locations := s.locations.putAll (ls.map (locationEntry s.precision collectionId)) }
  | [], _ => rfl
  | loc :: ls, s => foldl_putLocation collectionId ls (s.putLocation collectionId loc)

theorem foldl_deleteLocation (collectionId : ℕ) : ∀ (ids : List ℕ) (s : Store F),
    ids.foldl (fun s id => s.deleteLocation collectionId id) s =
      { s with locations := s.locations.deleteAll (ids.map fun id => ⟨collectionId, id⟩) }
  | [], _ => rfl
  | id :: ids, s => foldl_deleteLocation collectionId ids (s.deleteLocation collectionId id)

theorem foldl_putDocument (collectionId : ℕ) : ∀ (ds : List (ℕ × DocumentRecord F)) (s : Store F),
    ds.foldl (fun s d => s.putDocument collectionId d.1 d.2) s =
      { s with documents := s.documents.putAll (ds.map fun d => (⟨collectionId, d.1⟩, d.2)) }
  | [], _ => rfl
  | d :: ds, s => foldl_putDocument collectionId ds (s.putDocument collectionId d.1 d.2)

theorem foldl_putMetadata (collectionId : ℕ) : ∀ (kvs : List (String × Metadatum F)) (s : Store F),
    kvs.foldl (fun s kv => s.putMetadata collectionId kv.1 kv.2) s =
      { s with metadata := s.metadata.putAll (kvs.map fun kv => (⟨collectionId, kv.1⟩, kv.2)) }
  | [], _ => rfl
  | kv :: kvs, s => foldl_putMetadata collectionId kvs (s.putMetadata collectionId kv.1 kv.2)

/-- Documents appended to a location's posting list. -/
def postTo (collectionId : ℕ) (t : OrderedTable (Scoped ℕ ℕ) (List ℕ)) (e : ℕ × List ℕ) :
    OrderedTable (Scoped ℕ ℕ) (List ℕ) :=
  if e.2 = [] then t else t.put ⟨collectionId, e.1⟩ ((t.get ⟨collectionId, e.1⟩).getD [] ++ e.2)

theorem foldl_appendDocsToLocation (collectionId : ℕ) : ∀ (es : List (ℕ × List ℕ)) (s : Store F),
    es.foldl (fun s e => s.appendDocsToLocation collectionId e.1 e.2) s =
      { s with docIndex := es.foldl (postTo collectionId) s.docIndex }
  | [], _ => rfl
  | e :: es, s => by
    have happend : s.appendDocsToLocation collectionId e.1 e.2 =
        { s with docIndex := postTo collectionId s.docIndex e } := by
      unfold appendDocsToLocation postTo
      split_ifs <;> rfl
    rw [List.foldl_cons, happend, foldl_appendDocsToLocation collectionId es]
    rfl

/-- What a transaction's puts do to each table. -/
theorem putAll_eq [Scalar F] (collectionId : ℕ) (p : Puts F) (s : Store F) :
    s.putAll collectionId p =
      { s with
        locations := s.locations.putAll (p.locations.map (locationEntry s.precision collectionId))
        documents := s.documents.putAll (p.documents.map fun d => (⟨collectionId, d.1⟩, d.2))
        docIndex := p.postings.foldl (postTo collectionId) s.docIndex
        metadata := s.metadata.putAll (p.metadata.map fun kv => (⟨collectionId, kv.1⟩, kv.2)) } := by
  unfold putAll
  dsimp only
  rw [foldl_putLocation, foldl_putDocument, foldl_appendDocsToLocation, foldl_putMetadata]

/-- Materializing changes documents only. -/
theorem materialize_eq (s : Store F) (collectionId : ℕ) (inner : EAMInner F S) :
    s.materialize collectionId inner =
      { s with
        documents := s.documents.putAll (((s.listDocuments collectionId).filterMap
          (inlinedRef s.precision inner)).map fun d => (⟨collectionId, d.1⟩, d.2)) } :=
  foldl_putDocument _ _ _

/-- A posting list moved to the end of another. -/
def moveList (collectionId : ℕ) (t : OrderedTable (Scoped ℕ ℕ) (List ℕ)) (e : ℕ × ℕ) :
    OrderedTable (Scoped ℕ ℕ) (List ℕ) :=
  let removedDocs := (t.get ⟨collectionId, e.1⟩).getD []
  (if removedDocs = [] then t
    else t.put ⟨collectionId, e.2⟩ ((t.get ⟨collectionId, e.2⟩).getD [] ++ removedDocs)).delete
    ⟨collectionId, e.1⟩

theorem migrated_eq (collectionId : ℕ) (s : Store F) (e : ℕ × ℕ) :
    s.migrated collectionId e = { s with docIndex := moveList collectionId s.docIndex e } := by
  unfold migrated moveList docIdsForLocation
  dsimp only
  split_ifs <;> rfl

theorem foldl_migrated (collectionId : ℕ) : ∀ (m : List (ℕ × ℕ)) (s : Store F),
    m.foldl (migrated collectionId) s = { s with docIndex := m.foldl (moveList collectionId) s.docIndex }
  | [], _ => rfl
  | e :: m, s => by
    rw [List.foldl_cons, migrated_eq, foldl_migrated collectionId m]
    rfl

/-- What a merge does to each table. -/
theorem mergedInto_eq (collectionId : ℕ) (s : Store F) (result : MergeResult) :
    s.mergedInto collectionId result =
      { s with
        docIndex := result.mergeMap.foldl (moveList collectionId) s.docIndex
        locations := s.locations.deleteAll (result.removedIds.map fun id => ⟨collectionId, id⟩) } := by
  unfold mergedInto
  rw [foldl_migrated, foldl_deleteLocation]

/-- A removed location's posting list moved to the end of its chain. -/
def absorbList (collectionId : ℕ) (parent : List (ℕ × ℕ)) (t : OrderedTable (Scoped ℕ ℕ) (List ℕ))
    (removed : ℕ) : OrderedTable (Scoped ℕ ℕ) (List ℕ) :=
  match Absorb.resolve parent (parent.length + 1) removed with
  | none => t
  | some finalSurv => moveList collectionId t (removed, finalSurv)

theorem absorbed_eq (collectionId : ℕ) (parent : List (ℕ × ℕ)) (s : Store F) (removed : ℕ) :
    s.absorbed collectionId parent removed =
      { s with
        docIndex := absorbList collectionId parent s.docIndex removed
        locations := s.locations.delete ⟨collectionId, removed⟩ } := by
  unfold absorbed absorbList
  cases Absorb.resolve parent (parent.length + 1) removed with
  | none => rfl
  | some finalSurv =>
    dsimp only
    rw [migrated_eq]
    rfl

theorem foldl_absorbed (collectionId : ℕ) (parent : List (ℕ × ℕ)) : ∀ (removed : List ℕ) (s : Store F),
    removed.foldl (absorbed collectionId parent) s =
      { s with
        docIndex := removed.foldl (absorbList collectionId parent) s.docIndex
        locations := s.locations.deleteAll (removed.map fun id => ⟨collectionId, id⟩) }
  | [], _ => rfl
  | id :: removed, s => by
    rw [List.foldl_cons, absorbed_eq, foldl_absorbed collectionId parent removed]
    rfl

/-- What a compression does to each table. -/
theorem compressedInto_eq [Scalar F] (collectionId : ℕ) (s : Store F) (left : List (HardLocation F))
    (parent : List (ℕ × ℕ)) :
    s.compressedInto collectionId left parent =
      { s with
        docIndex := (parent.map (·.1)).foldl (absorbList collectionId parent) s.docIndex
        locations := (s.locations.deleteAll ((parent.map (·.1)).map fun id => ⟨collectionId, id⟩)).putAll
          (left.map (locationEntry s.precision collectionId)) } := by
  unfold compressedInto
  rw [foldl_absorbed, foldl_putLocation]

/-- What a snapshot load does to each table. -/
theorem replacedBy_eq [Scalar F] (collectionId : ℕ) (s : Store F) (old : List (HardLocation F))
    (locations : List (HardLocation F)) (config : EAMConfig F) :
    s.replacedBy collectionId old locations config =
      { s with
        locations := (s.locations.deleteAll ((old.map (·.id)).map fun id => ⟨collectionId, id⟩)).putAll
          (locations.map (locationEntry s.precision collectionId))
        metadata := s.metadata.putAll ((snapshotPuts locations config).metadata.map
          fun kv => (⟨collectionId, kv.1⟩, kv.2)) } := by
  have hdel := foldl_deleteLocation collectionId (old.map (·.id)) s
  rw [List.foldl_map] at hdel
  unfold replacedBy
  rw [hdel, putAll_eq]
  rfl

/-- A posting list without a document, gone when it empties. -/
def dropList (collectionId writeIndex : ℕ) (t : OrderedTable (Scoped ℕ ℕ) (List ℕ)) (e : ℕ × List ℕ) :
    OrderedTable (Scoped ℕ ℕ) (List ℕ) :=
  let kept := e.2.filter (· ≠ writeIndex)
  if kept = [] then t.delete ⟨collectionId, e.1⟩ else t.put ⟨collectionId, e.1⟩ kept

theorem foldl_dropFromList (collectionId writeIndex : ℕ) : ∀ (es : List (ℕ × List ℕ)) (s : Store F),
    es.foldl (fun s e => s.dropFromList collectionId writeIndex e) s =
      { s with docIndex := es.foldl (dropList collectionId writeIndex) s.docIndex }
  | [], _ => rfl
  | e :: es, s => by
    have hdrop : s.dropFromList collectionId writeIndex e =
        { s with docIndex := dropList collectionId writeIndex s.docIndex e } := by
      unfold dropFromList dropList
      dsimp only
      split_ifs <;> rfl
    rw [List.foldl_cons, hdrop, foldl_dropFromList collectionId writeIndex es]
    rfl

/-- What a deletion does to each table. -/
theorem withoutDocument_eq (collectionId writeIndex : ℕ) (s : Store F) :
    s.withoutDocument collectionId writeIndex =
      { s with
        documents := s.documents.delete ⟨collectionId, writeIndex⟩
        docIndex := ((s.docIndex.under collectionId).entries.filter fun e => writeIndex ∈ e.2).foldl
          (dropList collectionId writeIndex) s.docIndex } := by
  unfold withoutDocument
  dsimp only
  rw [foldl_dropFromList]
  split_ifs with h
  · rfl
  · have hnone : s.documents.get ⟨collectionId, writeIndex⟩ = none := by simpa [getDocument] using h
    rw [OrderedTable.delete_of_get_none hnone]

/-! ### Reading locations back -/

/-- The location in this table under a key, if it decodes. -/
def decodeAt (t : OrderedTable (Scoped ℕ ℕ) (LocationRecord F)) (collectionId id : ℕ) :
    Option (HardLocation F) :=
  (t.get ⟨collectionId, id⟩).bind fun r => (decodeLocation r).toOption

theorem decodeAt_eq_some_iff {t : OrderedTable (Scoped ℕ ℕ) (LocationRecord F)} {collectionId id : ℕ}
    {loc : HardLocation F} : decodeAt t collectionId id = some loc ↔
      ∃ r, t.get ⟨collectionId, id⟩ = some r ∧ decodeLocation r = .ok loc := by
  rw [decodeAt, Option.bind_eq_some_iff]
  refine exists_congr fun r => and_congr_right fun _ => ?_
  cases decodeLocation r <;> simp [Except.toOption]

theorem decodeAt_putAll_of_notMem [Scalar F] (t : OrderedTable (Scoped ℕ ℕ) (LocationRecord F)) {precision : Precision}
    {collectionId id : ℕ} {ls : List (HardLocation F)} (h : id ∉ ls.map (·.id)) :
    decodeAt (t.putAll (ls.map (locationEntry precision collectionId))) collectionId id =
      decodeAt t collectionId id := by
  unfold decodeAt
  rw [OrderedTable.get_putAll_of_notMem]
  simpa [locationEntry] using h

/-- **Under a location's key is one of the locations put there.** -/
theorem exists_decodeAt_putAll [Scalar F] (t : OrderedTable (Scoped ℕ ℕ) (LocationRecord F)) (collectionId : ℕ) {id : ℕ}
    {ls : List (HardLocation F)} (hlen : SameLengths ls) (h : id ∈ ls.map (·.id)) :
    ∃ loc ∈ ls, loc.id = id ∧ ∃ loc', decodeAt (t.putAll (ls.map (locationEntry .f64 collectionId)))
      collectionId id = some loc' ∧ SameLocation loc' loc := by
  have hkey : (⟨collectionId, id⟩ : Scoped ℕ ℕ) ∈ (ls.map (locationEntry .f64 collectionId)).map (·.1) := by
    simpa [locationEntry] using h
  obtain ⟨r, hmem, hget⟩ := OrderedTable.exists_get_putAll t hkey
  obtain ⟨loc, hloc, heq⟩ := List.mem_map.mp hmem
  simp only [locationEntry, Prod.mk.injEq, Scoped.mk.injEq, true_and] at heq
  obtain ⟨rfl, rfl⟩ := heq
  obtain ⟨loc', hdec, hsame⟩ := decode_encodeLocation (hlen loc hloc)
  refine ⟨loc, hloc, rfl, loc', ?_, hsame⟩
  simp [decodeAt, hget, hdec, Except.toOption]

/-- At any precision it has the id and the lengths of one of them. -/
theorem exists_decodeAt_putAll_shape [Scalar F] (t : OrderedTable (Scoped ℕ ℕ) (LocationRecord F))
    (precision : Precision) (collectionId : ℕ) {id : ℕ} {ls : List (HardLocation F)}
    (hlen : SameLengths ls) (h : id ∈ ls.map (·.id)) :
    ∃ loc ∈ ls, loc.id = id ∧ ∃ loc', decodeAt (t.putAll (ls.map (locationEntry precision collectionId)))
      collectionId id = some loc' ∧ loc'.id = id ∧ loc'.address.length = loc.address.length ∧
        loc'.counter.length = loc.counter.length := by
  have hkey : (⟨collectionId, id⟩ : Scoped ℕ ℕ) ∈ (ls.map (locationEntry precision collectionId)).map (·.1) := by
    simpa [locationEntry] using h
  obtain ⟨r, hmem, hget⟩ := OrderedTable.exists_get_putAll t hkey
  obtain ⟨loc, hloc, heq⟩ := List.mem_map.mp hmem
  simp only [locationEntry, Prod.mk.injEq, Scoped.mk.injEq, true_and] at heq
  obtain ⟨rfl, rfl⟩ := heq
  obtain ⟨loc', hdec, hshape⟩ := decode_encodeLocation_shape precision (hlen loc hloc)
  refine ⟨loc, hloc, rfl, loc', ?_, hshape⟩
  simp [decodeAt, hget, hdec, Except.toOption]

/-- What was put decodes. -/
theorem isSome_decodeAt_putAll [Scalar F] (t : OrderedTable (Scoped ℕ ℕ) (LocationRecord F)) (precision : Precision)
    (collectionId : ℕ) {id : ℕ} {ls : List (HardLocation F)} (hlen : SameLengths ls) (h : id ∈ ls.map (·.id)) :
    (decodeAt (t.putAll (ls.map (locationEntry precision collectionId))) collectionId id).isSome := by
  obtain ⟨_, _, _, r, hr, -⟩ := exists_decodeAt_putAll_shape t precision collectionId hlen h
  rw [hr]
  rfl

/-- What decodes has the id it was put under. -/
theorem id_of_decodeAt_putAll [Scalar F] (t : OrderedTable (Scoped ℕ ℕ) (LocationRecord F)) (precision : Precision)
    {collectionId id : ℕ} {ls : List (HardLocation F)} {r : HardLocation F} (h : id ∈ ls.map (·.id))
    (hr : decodeAt (t.putAll (ls.map (locationEntry precision collectionId))) collectionId id = some r) :
    r.id = id := by
  have hkey : (⟨collectionId, id⟩ : Scoped ℕ ℕ) ∈ (ls.map (locationEntry precision collectionId)).map (·.1) := by
    simpa [locationEntry] using h
  obtain ⟨e, hmem, hget⟩ := OrderedTable.exists_get_putAll t hkey
  obtain ⟨loc, -, heq⟩ := List.mem_map.mp hmem
  simp only [locationEntry, Prod.mk.injEq, Scoped.mk.injEq, true_and] at heq
  obtain ⟨rfl, rfl⟩ := heq
  obtain ⟨r', hr', hdec⟩ := decodeAt_eq_some_iff.mp hr
  obtain rfl := Option.some.inj (hget.symm.trans hr')
  exact id_of_decode_encodeLocation hdec

theorem decodeAt_deleteAll (t : OrderedTable (Scoped ℕ ℕ) (LocationRecord F)) (collectionId id : ℕ)
    (ids : List ℕ) :
    decodeAt (t.deleteAll (ids.map fun id => ⟨collectionId, id⟩)) collectionId id =
      if id ∈ ids then none else decodeAt t collectionId id := by
  have hmem : (⟨collectionId, id⟩ : Scoped ℕ ℕ) ∈ ids.map (fun id => (⟨collectionId, id⟩ : Scoped ℕ ℕ)) ↔
      id ∈ ids := by simp
  unfold decodeAt
  rw [OrderedTable.get_deleteAll]
  by_cases h : id ∈ ids
  · rw [if_pos h, if_pos (hmem.mpr h)]
    rfl
  · rw [if_neg h, if_neg (hmem.not.mpr h)]

theorem locationAt?_eq (s : Store F) (collectionId id : ℕ) :
    s.locationAt? collectionId id = decodeAt s.locations collectionId id := rfl

theorem locationAt?_putAll_of_notMem [Scalar F] (s : Store F) {collectionId id : ℕ} {p : Puts F}
    (h : id ∉ p.locations.map (·.id)) :
    (s.putAll collectionId p).locationAt? collectionId id = s.locationAt? collectionId id := by
  rw [putAll_eq]
  exact decodeAt_putAll_of_notMem _ h

theorem exists_locationAt?_putAll [Scalar F] {s : Store F} (hp : s.precision = .f64) (collectionId : ℕ) {id : ℕ}
    {p : Puts F} (hlen : SameLengths p.locations) (h : id ∈ p.locations.map (·.id)) :
    ∃ loc ∈ p.locations, loc.id = id ∧ ∃ loc', (s.putAll collectionId p).locationAt? collectionId id = some loc' ∧
      SameLocation loc' loc := by
  rw [putAll_eq, hp]
  exact exists_decodeAt_putAll _ _ hlen h

/-- The later puts decide. -/
theorem exists_locationAt?_putAll_right [Scalar F] {s : Store F} (hp : s.precision = .f64) (collectionId : ℕ) {id : ℕ}
    {p : Puts F} {first later : List (HardLocation F)} (heq : p.locations = first ++ later)
    (hlen : SameLengths later) (h : id ∈ later.map (·.id)) :
    ∃ loc ∈ later, loc.id = id ∧ ∃ loc', (s.putAll collectionId p).locationAt? collectionId id = some loc' ∧
      SameLocation loc' loc := by
  rw [putAll_eq, hp, heq, List.map_append, OrderedTable.putAll_append]
  exact exists_decodeAt_putAll _ _ hlen h

/-! ### Reading documents back -/

theorem mem_listDocuments_iff {s : Store F} {collectionId id : ℕ} {r : DocumentRecord F} :
    (id, r) ∈ s.listDocuments collectionId ↔ s.getDocument collectionId id = some r := by
  rw [listDocuments, ← OrderedTable.get_eq_some_iff, OrderedTable.get_under]
  rfl

/-- A document once the references that resolve are stored inline. -/
def inlined (precision : Precision) (inner : EAMInner F S) (id : ℕ) (r : DocumentRecord F) : DocumentRecord F :=
  ((inlinedRef precision inner (id, r)).map (·.2)).getD r

/-- **Materializing rewrites each document on its own.** -/
theorem getDocument_materialize (s : Store F) (collectionId : ℕ) (inner : EAMInner F S) (id : ℕ) :
    (s.materialize collectionId inner).getDocument collectionId id =
      (s.getDocument collectionId id).map (inlined s.precision inner id) := by
  have hkey : ∀ doc d, inlinedRef s.precision inner doc = some d → d.1 = doc.1 := fun doc d h => by
    obtain ⟨n, r⟩ := doc
    cases r with
    | reference location metadata =>
      obtain ⟨v, -, rfl⟩ := Option.map_eq_some_iff.mp h
      rfl
    | _ => simp [inlinedRef] at h
  -- every rewritten record under the key is that of the document there
  have hkv : ∀ w : DocumentRecord F, ((⟨collectionId, id⟩ : Scoped ℕ ℕ), w) ∈
      ((s.listDocuments collectionId).filterMap (inlinedRef s.precision inner)).map
        (fun d => ((⟨collectionId, d.1⟩ : Scoped ℕ ℕ), d.2)) ↔
      ∃ r, s.getDocument collectionId id = some r ∧ inlinedRef s.precision inner (id, r) = some (id, w) := by
    intro w
    simp only [List.mem_map, List.mem_filterMap, Prod.mk.injEq, Scoped.mk.injEq, true_and]
    constructor
    · intro h
      obtain ⟨⟨n, w'⟩, ⟨⟨m, r⟩, hmem, hin⟩, rfl, rfl⟩ := h
      obtain rfl : n = m := hkey _ _ hin
      exact ⟨r, mem_listDocuments_iff.mp hmem, hin⟩
    · intro h
      obtain ⟨r, hr, hin⟩ := h
      exact ⟨(id, w), ⟨(id, r), mem_listDocuments_iff.mpr hr, hin⟩, rfl, rfl⟩
  rw [materialize_eq]
  show OrderedTable.get _ _ = (s.documents.get _).map _
  have hget : s.documents.get ⟨collectionId, id⟩ = s.getDocument collectionId id := rfl
  by_cases hmem : ∃ r w, s.getDocument collectionId id = some r ∧
      inlinedRef s.precision inner (id, r) = some (id, w)
  · obtain ⟨r, w, hr, hin⟩ := hmem
    rw [hget, hr, OrderedTable.get_putAll _ ((hkv w).mpr ⟨r, hr, hin⟩)]
    · simp [inlined, hin]
    · intro w' hw'
      obtain ⟨r', hr', hin'⟩ := (hkv w').mp hw'
      obtain rfl : r' = r := Option.some.inj (hr'.symm.trans hr)
      simpa using hin'.symm.trans hin
  · rw [OrderedTable.get_putAll_of_notMem, hget]
    · cases hr : s.getDocument collectionId id with
      | none => rfl
      | some r =>
        cases hin : inlinedRef s.precision inner (id, r) with
        | none => simp [inlined, hin]
        | some d =>
          obtain ⟨n, w⟩ := d
          obtain rfl : n = id := hkey _ _ hin
          exact absurd ⟨r, w, hr, hin⟩ hmem
    · intro h
      obtain ⟨⟨k, w⟩, hw, rfl⟩ := List.mem_map.mp h
      obtain ⟨r, hr, hin⟩ := (hkv w).mp hw
      exact hmem ⟨r, w, hr, hin⟩

/-! ### Reading counters back -/

/-- A counter that one of the puts sets reads as it was set. -/
theorem loadMetadata_putAll [Scalar F] (s : Store F) {collectionId : ℕ} {p : Puts F} (hn : (p.metadata.map (·.1)).Nodup)
    {key : String} {value : Metadatum F} (h : (key, value) ∈ p.metadata) :
    (s.putAll collectionId p).loadMetadata collectionId key = some value := by
  rw [putAll_eq]
  refine OrderedTable.get_putAll _ (List.mem_map.mpr ⟨_, h, rfl⟩) fun w hw => ?_
  obtain ⟨kv, hkv, heq⟩ := List.mem_map.mp hw
  simp only [Prod.mk.injEq, Scoped.mk.injEq, true_and] at heq
  obtain ⟨rfl, rfl⟩ := heq
  have := List.inj_on_of_nodup_map hn hkv h rfl
  rw [Prod.mk.injEq] at this
  exact this.2

theorem loadMetadata_putAll_of_notMem [Scalar F] (s : Store F) {collectionId : ℕ} {p : Puts F} {key : String}
    (h : key ∉ p.metadata.map (·.1)) :
    (s.putAll collectionId p).loadMetadata collectionId key = s.loadMetadata collectionId key := by
  rw [putAll_eq]
  exact OrderedTable.get_putAll_of_notMem _ (by simpa using h)

theorem getDocument_putAll_of_notMem [Scalar F] (s : Store F) {collectionId id : ℕ} {p : Puts F}
    (h : id ∉ p.documents.map (·.1)) :
    (s.putAll collectionId p).getDocument collectionId id = s.getDocument collectionId id := by
  unfold getDocument
  rw [putAll_eq]
  exact OrderedTable.get_putAll_of_notMem _ (by simpa using h)

theorem loadU64_congr {s s' : Store F} {collectionId : ℕ} {key : String} (default : ℕ)
    (h : s.loadMetadata collectionId key = s'.loadMetadata collectionId key) :
    s.loadU64 collectionId key default = s'.loadU64 collectionId key default := by
  rw [loadU64, h, loadU64]

theorem loadF64_congr {s s' : Store F} {collectionId : ℕ} {key : String} (default : F)
    (h : s.loadMetadata collectionId key = s'.loadMetadata collectionId key) :
    s.loadF64 collectionId key default = s'.loadF64 collectionId key default := by
  rw [loadF64, h, loadF64]

theorem loadU64_of_some {s : Store F} {collectionId : ℕ} {key : String} {n : ℕ} (default : ℕ)
    (h : s.loadMetadata collectionId key = some (.u64 n)) : s.loadU64 collectionId key default = .ok n := by
  rw [loadU64, h]

theorem loadF64_of_some {s : Store F} {collectionId : ℕ} {key : String} {x : F} (default : F)
    (h : s.loadMetadata collectionId key = some (.f64 x)) : s.loadF64 collectionId key default = .ok x := by
  rw [loadF64, h]

/-- A counter that is missing reads as the default. -/
theorem loadU64_default {s : Store F} {collectionId : ℕ} {key : String} {m n : ℕ}
    (h : s.loadU64 collectionId key m = .ok n) (default : ℕ) :
    s.loadU64 collectionId key default = .ok n ∨ m = n ∧ s.loadU64 collectionId key default = .ok default := by
  unfold loadU64 at h ⊢
  split at h
  · exact Or.inr ⟨Except.ok.inj h, rfl⟩
  · exact Or.inl h
  · simp at h

/-- A snapshot load stores only the counters of its own. -/
theorem loadMetadata_replacedBy [Scalar F] (s : Store F) (collectionId : ℕ) (old : List (HardLocation F))
    (locations : List (HardLocation F)) (config : EAMConfig F) (key : String) (h : key ≠ "next_id" ∧ key ≠ "config_d") :
    (s.replacedBy collectionId old locations config).loadMetadata collectionId key =
      s.loadMetadata collectionId key := by
  rw [replacedBy_eq]
  exact OrderedTable.get_putAll_of_notMem _ (by simp [snapshotPuts, h])

end Store

/-! ### Memory and store -/

variable [Scalar F]

/-- The same location but for its surprise. -/
structure SameEvidence (a b : HardLocation F) : Prop where
  id : a.id = b.id
  address : a.address = b.address
  counter : SameVec a.counter b.counter
  writeCount : a.writeCount = b.writeCount
  neighbors : a.neighbors = b.neighbors

/-- The same memory: the same ids, under each the same location as `R` tells
them apart, and the same counters. -/
structure SameMemory (R : HardLocation F → HardLocation F → Prop) (a b : EAMInner F S) : Prop where
  ids : (a.locations.map (·.id)).Perm (b.locations.map (·.id))
  locations : ∀ x ∈ a.locations, ∀ y ∈ b.locations, x.id = y.id → R x y
  nextId : a.nextId = b.nextId
  eta : a.eta = b.eta
  docNextId : a.docNextId = b.docNextId

/-- Loading the store gives the memory. -/
def Reloads (R : HardLocation F → HardLocation F → Prop) (s : Session F S) : Prop :=
  ∃ loaded : Collection F S, Collection.load s.collection.collectionId s.collection.name s.store
    s.collection.inner.config = .ok loaded ∧ SameMemory R loaded.inner s.collection.inner

/-- The memory is in order, and the records of an f64 store are its locations
and counters. -/
structure Agrees (s : Session F S) : Prop where
  f64 : s.store.precision = .f64
  valid : s.collection.inner.valid = true
  nodup : (s.collection.inner.locations.map (·.id)).Nodup
  fresh : ∀ loc ∈ s.collection.inner.locations, loc.id < s.collection.inner.nextId
  shaped : Shaped s.collection.inner.config.d s.collection.inner.locations
  stored : ∀ loc ∈ s.collection.inner.locations, ∃ r,
    s.store.locationAt? s.collection.collectionId loc.id = some r ∧ SameLocation r loc
  only : ∀ id r, s.store.locationAt? s.collection.collectionId id = some r →
    r.id = id ∧ id ∈ s.collection.inner.locations.map (·.id)
  nextId : s.store.loadMetadata s.collection.collectionId "next_id" = some (.u64 s.collection.inner.nextId)
  eta : s.store.loadMetadata s.collection.collectionId "eta" = some (.f64 s.collection.inner.eta)
  docNextId : s.store.loadU64 s.collection.collectionId "doc_next_id" 0 = .ok s.collection.inner.docNextId

/-- Loading when every record is in order. -/
theorem load_eq {collectionId : ℕ} {name : String} {store : Store F} {config : EAMConfig F}
    {locations : List (HardLocation F)} {nextId docNextId : ℕ} {eta : F}
    (hlocations : store.loadAllLocations collectionId = .ok locations)
    (hnext : store.loadU64 collectionId "next_id" locations.length = .ok nextId)
    (heta : store.loadF64 collectionId "eta" config.eta0 = .ok eta)
    (hdoc : store.loadU64 collectionId "doc_next_id" 0 = .ok docNextId)
    (hdim : ∀ loc ∈ locations, loc.address.length = config.d) :
    Collection.load (S := S) collectionId name store config =
      .ok ⟨collectionId, name, .opened config locations nextId eta docNextId⟩ := by
  have hcheck : Collection.checkDimension config locations = .ok () := by
    cases locations with
    | nil => rfl
    | cons first rest => exact if_pos (hdim first List.mem_cons_self)
  simp only [Collection.load, hlocations, hnext, heta, hdoc, hcheck, bind, Except.bind, pure, Except.pure]

/-- What a load that succeeded read. -/
theorem load_inv {collectionId : ℕ} {name : String} {store : Store F} {config : EAMConfig F}
    {loaded : Collection F S} (h : Collection.load collectionId name store config = .ok loaded) :
    ∃ (locations : List (HardLocation F)) (nextId docNextId : ℕ) (eta : F),
      store.loadAllLocations collectionId = .ok locations ∧
      store.loadU64 collectionId "next_id" locations.length = .ok nextId ∧
      store.loadF64 collectionId "eta" config.eta0 = .ok eta ∧
      store.loadU64 collectionId "doc_next_id" 0 = .ok docNextId ∧
      Collection.checkDimension config locations = .ok () ∧
      loaded = ⟨collectionId, name, .opened config locations nextId eta docNextId⟩ := by
  simp only [Collection.load, Store.loadAllLocations_eq, bind, Except.bind, pure, Except.pure] at h
  split at h
  · simp at h
  rename_i nextId hnext
  split at h
  · simp at h
  rename_i eta heta
  split at h
  · simp at h
  rename_i docNextId hdoc
  split at h
  · simp at h
  rename_i hdim
  exact ⟨_, nextId, docNextId, eta, Store.loadAllLocations_eq _ _, hnext, heta, hdoc, hdim, (Except.ok.inj h).symm⟩

/-- The locations loaded are those of the store. -/
theorem locations_of_load {collectionId : ℕ} {name : String} {store : Store F} {config : EAMConfig F}
    {loaded : Collection F S} (h : Collection.load collectionId name store config = .ok loaded) :
    store.loadAllLocations collectionId = .ok loaded.inner.locations := by
  obtain ⟨locations, nextId, docNextId, eta, hload, -, -, -, -, rfl⟩ := load_inv h
  exact hload

/-- What is kept of a list, each under the key of what it comes from, has a
sublist of the keys. -/
theorem filterMap_keys_sublist {α β κ : Type} {f : α → Option β} {g : α → κ} {key : β → κ} : ∀ {l : List α},
    (∀ a ∈ l, ∀ b, f a = some b → key b = g a) → ((l.filterMap f).map key).Sublist (l.map g)
  | [], _ => List.Sublist.refl _
  | a :: l, h => by
    have ih := filterMap_keys_sublist fun a' ha' => h a' (List.mem_cons_of_mem _ ha')
    cases hf : f a with
    | none =>
      rw [List.filterMap_cons_none hf]
      exact ih.trans (List.sublist_cons_self _ _)
    | some b =>
      rw [List.filterMap_cons_some hf, List.map_cons, List.map_cons, h a List.mem_cons_self b hf]
      exact ih.cons_cons _

omit [Scalar F] in
/-- Records that carry their keys load in the order of their ids. -/
theorem ascending_ids_of_load {store : Store F} {collectionId : ℕ} {locations : List (HardLocation F)}
    (hload : store.loadAllLocations collectionId = .ok locations)
    (hkey : ∀ id r, store.locationAt? collectionId id = some r → r.id = id) :
    (locations.map (·.id)).Pairwise (· < ·) := by
  rw [Store.loadAllLocations_eq] at hload
  obtain rfl := Except.ok.inj hload
  refine (OrderedTable.keys_sorted _).sublist (filterMap_keys_sublist fun e he r hr => ?_)
  refine hkey e.1 r ?_
  have hget := OrderedTable.get_eq_some_iff.mpr he
  rw [OrderedTable.get_under] at hget
  simp [Store.locationAt?, hget, hr]

omit [Scalar F] in
theorem nodup_ids_of_load {store : Store F} {collectionId : ℕ} {locations : List (HardLocation F)}
    (hload : store.loadAllLocations collectionId = .ok locations)
    (hkey : ∀ id r, store.locationAt? collectionId id = some r → r.id = id) :
    (locations.map (·.id)).Nodup :=
  (ascending_ids_of_load hload hkey).imp ne_of_lt

namespace Agrees

/-- What loading the store gives. -/
theorem load {s : Session F S} (h : Agrees s) : ∃ locations : List (HardLocation F),
    Collection.load (S := S) s.collection.collectionId s.collection.name s.store s.collection.inner.config =
        .ok ⟨s.collection.collectionId, s.collection.name, .opened s.collection.inner.config locations
          s.collection.inner.nextId s.collection.inner.eta s.collection.inner.docNextId⟩ ∧
      (locations.map (·.id)).Perm (s.collection.inner.locations.map (·.id)) ∧
      ∀ x ∈ locations, ∀ y ∈ s.collection.inner.locations, x.id = y.id → SameLocation x y := by
  obtain ⟨locations, hload⟩ : ∃ locations, s.store.loadAllLocations s.collection.collectionId = .ok locations :=
    ⟨_, Store.loadAllLocations_eq _ _⟩
  have hmem : ∀ {loc}, loc ∈ locations ↔ ∃ id, s.store.locationAt? s.collection.collectionId id = some loc :=
    Store.mem_loadAllLocations_iff hload
  -- a loaded location is stored under its id, so it is the memory's
  have hsame : ∀ x ∈ locations, ∀ y ∈ s.collection.inner.locations, x.id = y.id → SameLocation x y := by
    intro x hx y hy hid
    obtain ⟨id, hat⟩ := hmem.mp hx
    obtain ⟨r, hr, hs⟩ := h.stored y hy
    rw [← hid, (h.only id x hat).1, hat] at hr
    obtain rfl := Option.some.inj hr
    exact hs
  have hperm : (locations.map (·.id)).Perm (s.collection.inner.locations.map (·.id)) := by
    rw [List.perm_ext_iff_of_nodup (nodup_ids_of_load hload fun id r hr => (h.only id r hr).1) h.nodup]
    intro id
    simp only [List.mem_map]
    constructor
    · intro hx
      obtain ⟨x, hx, rfl⟩ := hx
      obtain ⟨id, hat⟩ := hmem.mp hx
      have honly := h.only id x hat
      rw [honly.1]
      exact List.mem_map.mp honly.2
    · intro hy
      obtain ⟨y, hy, rfl⟩ := hy
      obtain ⟨r, hr, hs⟩ := h.stored y hy
      exact ⟨r, hmem.mpr ⟨_, hr⟩, hs.id⟩
  refine ⟨locations, load_eq hload (Store.loadU64_of_some _ h.nextId) (Store.loadF64_of_some _ h.eta) h.docNextId
    fun x hx => ?_, hperm, hsame⟩
  have hid := hperm.mem_iff.mp (List.mem_map.mpr ⟨x, hx, rfl⟩)
  obtain ⟨y, hy, hyx⟩ := List.mem_map.mp hid
  rw [(hsame x hx y hy hyx.symm).address]
  exact (h.shaped y hy).1

/-- **Memory and store that agree reload.** -/
theorem reloads {s : Session F S} (h : Agrees s) : Reloads SameLocation s := by
  obtain ⟨locations, hload, hperm, hsame⟩ := h.load
  exact ⟨_, hload, hperm, hsame, rfl, rfl, rfl⟩

end Agrees

end HeatherDb
