/-
# Collection operations

The operations of `collection.rs` that read or change a collection's
locations, documents and posting lists, as programs over a session: a
collection, the store it lives in and the generator its calls draw from. A
call runs whole under the collection's lock, but for the document reads,
which take the lock after they read the store (`getDocument`).

A mutation changes memory first and the store later. The guard
`atomicMutation` is the source's `AtomicMutation`: unless the mutation
committed, memory that was touched is read back from the store before the
lock is released. A call whose loop never ends returns nothing and keeps the
lock; the model writes this as the error `hang`, after which no call follows.

Key definitions: `Session`, `atomicMutation`, `materializeDocumentRefs`,
`writeTwo`, `writeBatch`, `writeWithMetadata`, `writeBatchWithMetadata`,
`merge`, `compress`, `loadSnapshotChecked`, `getDocument`, `listDocuments`.
-/
import HeatherDb.Inner

namespace HeatherDb

open Scalar Narrow Program

/-- A collection with its store and generator. -/
structure Session (F S : Type) where
  store : Store F
  rng : Rng F
  collection : Collection F S

/-- A mutation in progress under the lock. -/
structure AtomicMutation (F S : Type) where
  store : Store F
  rng : Rng F
  collectionId : ℕ
  name : String
  inner : EAMInner F S
  committed : Bool
  dirty : Bool

/-- Outcome of a compression. -/
structure CompressResult (F : Type) where
  locationsBefore : ℕ
  locationsAfter : ℕ
  descriptionLengthBefore : F
  descriptionLengthAfter : F
  merges : ℕ

variable {F S : Type} [Scalar F] [Scalar S] [Narrow F S]

/-! ### The guard -/

def recoveryFailed : HeatherError :=
  .storage "collection recovery failed; restart after repairing storage"

namespace AtomicMutation

/-- The guard on a session's collection. -/
def begin (s : Session F S) : AtomicMutation F S :=
  ⟨s.store, s.rng, s.collection.collectionId, s.collection.name, s.collection.inner, false, false⟩

/-- `&mut inner`: whatever is done through it marks the memory touched. -/
def edit (f : EAMInner F S → EAMInner F S) : Program HeatherError (AtomicMutation F S) Unit :=
  modify fun m => { m with inner := f m.inner, dirty := true }

def commit : Program HeatherError (AtomicMutation F S) Unit :=
  modify fun m => { m with committed := true }

/-- A transaction on the store under the guard. -/
def inTransaction {α : Type} (body : Store F → Program HeatherError (Store F) (α × Store F)) :
    Program HeatherError (AtomicMutation F S) α :=
  zoom (·.store) (fun store m => { m with store := store }) (transaction body)

/-- The memory read back from the store, at this version. -/
def recovered (m : AtomicMutation F S) : EAMInner F S :=
  match Collection.load (S := S) m.collectionId m.name m.store m.inner.config with
  | .ok loaded => { loaded.inner with version := m.inner.version }
  | .error _ => { m.inner with valid := false }

/-- The session once the guard is dropped. -/
def release (m : AtomicMutation F S) (s : Session F S) : Session F S :=
  { store := m.store
    rng := m.rng
    collection := { s.collection with inner := if m.committed || !m.dirty then m.inner else m.recovered } }

end AtomicMutation

/-- Refuses a collection whose recovery failed. -/
def checkValid (inner : EAMInner F S) : Except HeatherError Unit :=
  if inner.valid then .ok () else .error recoveryFailed

/-- `read_inner`, `write_inner` -/
def readInner : Program HeatherError (Session F S) (EAMInner F S) := do
  let s ← get
  ofExcept (checkValid s.collection.inner)
  pure s.collection.inner

/-- Runs a mutation under the guard. -/
def atomicMutation {α : Type} (body : Program HeatherError (AtomicMutation F S) α) :
    Program HeatherError (Session F S) α := fun w =>
  match checkValid w.state.collection.inner with
  | .error e => (.error e, w)
  | .ok () =>
    match body ⟨.begin w.state, w.faults⟩ with
    | (r, w') => (r, ⟨w'.state.release w.state, w'.faults⟩)

open AtomicMutation

/-! ### What a transaction stores -/

/-- Records to store, in this order. -/
structure Puts (F : Type) where
  locations : List (HardLocation F)
  documents : List (ℕ × DocumentRecord F)
  postings : List (ℕ × List ℕ)
  metadata : List (String × Metadatum F)

/-- Stores the records, a storage step each. -/
def Store.persist (collectionId : ℕ) (p : Puts F) (txn : Store F) :
    Program HeatherError (Store F) (Store F) := do
  let txn ← p.locations.foldlM (fun txn loc => Store.write (txn.putLocation collectionId loc)) txn
  let txn ← p.documents.foldlM (fun txn d => Store.write (txn.putDocument collectionId d.1 d.2)) txn
  let txn ← p.postings.foldlM
    (fun txn e => Store.write (txn.appendDocsToLocation collectionId e.1 e.2)) txn
  p.metadata.foldlM (fun txn kv => Store.write (txn.putMetadata collectionId kv.1 kv.2)) txn

/-- The records stored and nothing else. -/
def putTransaction (collectionId : ℕ) (p : Puts F) (txn : Store F) :
    Program HeatherError (Store F) (Unit × Store F) := do
  let txn ← txn.persist collectionId p
  pure ((), txn)

/-- Stores the records in a transaction of their own. -/
def persist (p : Puts F) : Program HeatherError (AtomicMutation F S) Unit := do
  let m ← get
  inTransaction (putTransaction m.collectionId p)

/-- The counters every write stores. -/
def counters (inner : EAMInner F S) : List (String × Metadatum F) :=
  [("next_id", .u64 inner.nextId), ("eta", .f64 inner.eta)]

/-- Those of a document write. -/
def documentCounters (inner : EAMInner F S) : List (String × Metadatum F) :=
  counters inner ++ [("doc_next_id", .u64 inner.docNextId)]

/-! ### Opening -/

/-- The `l_0` random locations of a new collection, numbered from 0. -/
def randomLocations (config : EAMConfig F) (rng : Rng F) : List (HardLocation F) × Rng F :=
  (List.range config.l0).foldl (fun acc i =>
    let r := randomUnitVector config.d acc.2
    (acc.1 ++ [HardLocation.new i r.1], r.2)) ([], rng)

/-- The initial state of a new collection. -/
def newPuts (config : EAMConfig F) (rng : Rng F) : Puts F where
  locations := (randomLocations config rng).1
  documents := []
  postings := []
  metadata := [("next_id", .u64 config.l0), ("eta", .f64 config.eta0), ("config_d", .u64 config.d)]

/-- Create a new collection, initializing with `l_0` random locations. -/
def Collection.new (collectionId : ℕ) (name : String) (config : EAMConfig F) (rng : Rng F) :
    Program HeatherError (Store F) (Collection F S × Rng F) := do
  let start := randomLocations config rng
  transaction (putTransaction collectionId (newPuts config rng))
  pure (⟨collectionId, name, .opened config start.1 config.l0 config.eta0 0⟩, start.2)

/-! ### Writes -/

/-- The dimension both fields of a write must have. -/
def checkWrite (d : ℕ) (address counter : List F) : Except HeatherError Unit :=
  if address.length ≠ d ∨ counter.length ≠ d then
    .error (.dimensionMismatch d (if address.length ≠ d then address.length else counter.length))
  else .ok ()

/-- An adaptive write's result, with the memory and the generator it left. -/
structure Adapted (F S : Type) where
  result : WriteResult F
  inner : EAMInner F S
  rng : Rng F

/-- What one write stores: the address that routes it, the counter it adds,
and how it joins. -/
structure Pattern (F : Type) where
  address : List F
  counter : List F
  opts : WriteOpts F

/-- The pattern of a one-field write. -/
def Pattern.single (input : List F) : Pattern F := ⟨input, input, .default⟩

/-- One adaptive write on the memory: it edits the locations, draws an id and
decays the rate. -/
def EAMInner.adapt (inner : EAMInner F S) (x : Pattern F) (rng : Rng F) : Adapted F S :=
  let w := adaptiveWriteTwo x.address x.counter inner.locations inner.config inner.eta inner.nextId rng
    inner.writeScan x.opts
  { result := w.result
    inner := { inner with locations := w.locations, nextId := w.nextId, eta := w.result.eta }
    rng := w.rng }

/-- The arrays after a write, and its new locations appended. -/
def EAMInner.settle (inner : EAMInner F S) (result : WriteResult F) : EAMInner F S :=
  (inner.syncAddresses result.modifiedIndices).appendLocations result.newLocations

def EAMInner.bumpVersion (inner : EAMInner F S) : EAMInner F S := { inner with version := inner.version + 1 }

/-- The locations a write changed or created. -/
def touchedLocations (inner : EAMInner F S) (result : WriteResult F) : List (HardLocation F) :=
  result.modifiedIndices.map (locationAt inner.locations) ++ result.newLocations

/-- Under the guard: the version counts, and one adaptive write. -/
def adaptOnce (x : Pattern F) : Program HeatherError (AtomicMutation F S) (WriteResult F) := do
  edit (·.bumpVersion)
  let m ← get
  let a := m.inner.adapt x m.rng
  modify fun m => { m with rng := a.rng }
  edit fun _ => a.inner
  pure a.result

/-- Two-field write: route by `address`, accumulate `counter`. -/
def writeTwo (address counter : List F) (opts : WriteOpts F) : Program HeatherError (Session F S) Unit := do
  ofExcept (validateVector address)
  ofExcept (validateVector counter)
  atomicMutation do
    let m ← get
    ofExcept (checkWrite m.inner.config.d address counter)
    let result ← adaptOnce ⟨address, counter, opts⟩
    let m ← get
    persist
      { locations := touchedLocations m.inner result
        documents := []
        postings := []
        metadata := counters m.inner }
    edit (·.settle result)
    commit

/-- Write a pattern: `write_two(x, x, default)`. -/
def write (input : List F) : Program HeatherError (Session F S) Unit := writeTwo input input .default

/-- A batch in progress: the memory, the generator and its writes so far. -/
structure Batch (F S : Type) where
  inner : EAMInner F S
  rng : Rng F
  writes : List (Adapted F S)

/-- One write of a batch, settled before the next. -/
def Batch.next (b : Batch F S) (x : Pattern F) : Batch F S :=
  let a := b.inner.adapt x b.rng
  ⟨a.inner.settle a.result, a.rng, b.writes ++ [a]⟩

/-- The writes of a batch one after another. -/
def EAMInner.batch (inner : EAMInner F S) (xs : List (Pattern F)) (rng : Rng F) : Batch F S :=
  xs.foldl Batch.next ⟨inner, rng, []⟩

/-- Under the guard: the version counts, and the writes of a batch. -/
def adaptBatch (xs : List (Pattern F)) : Program HeatherError (AtomicMutation F S) (Batch F S) := do
  edit (·.bumpVersion)
  let m ← get
  let b := m.inner.batch xs m.rng
  modify fun m => { m with rng := b.rng }
  edit fun _ => b.inner
  pure b

/-- Every index a write of the batch modified, once. -/
def Batch.allModified (b : Batch F S) : List ℕ := (b.writes.flatMap (·.result.modifiedIndices)).dedup

/-- Every location a write of the batch created, as it was created. -/
def Batch.allNewLocs (b : Batch F S) : List (HardLocation F) := b.writes.flatMap (·.result.newLocations)

/-- Batch write under one lock and transaction. -/
def writeBatch (inputs : List (List F)) : Program HeatherError (Session F S) Unit := do
  ofExcept (inputs.forM validateVector)
  atomicMutation do
    let m ← get
    ofExcept (inputs.forM fun input => checkWrite m.inner.config.d input input)
    let b ← adaptBatch (inputs.map .single)
    let m ← get
    let modified := (b.allModified.filter (· < m.inner.locations.length)).map (locationAt m.inner.locations)
    persist
      { locations := modified ++ b.allNewLocs
        documents := []
        postings := []
        metadata := counters m.inner }
    commit

/-! ### Document writes -/

/-- The location a plain write created that stores `input` verbatim: its
document can refer to it. -/
def plainLocation (config : EAMConfig F) (result : WriteResult F) (input : List F) : Option ℕ :=
  match result.newLocations with
  | [loc] =>
    if !config.competitive && result.modifiedIndices.isEmpty && vecEq loc.address input then some loc.id
    else none
  | _ => none

/-- The record of a document written with this result. -/
def documentRecord (precision : Precision) (config : EAMConfig F) (result : WriteResult F)
    (input : List F) (metadata : List UInt8) : DocumentRecord F :=
  match plainLocation config result input with
  | some id => encodeDocumentRef id metadata
  | none => encodeDocument precision input metadata

/-- The ids of the locations a write touched. -/
def activatedIds (inner : EAMInner F S) (result : WriteResult F) : List ℕ :=
  (touchedLocations inner result).map (·.id)

/-- The next document id, counted. -/
def EAMInner.countDocuments (inner : EAMInner F S) (n : ℕ) : EAMInner F S :=
  { inner with docNextId := inner.docNextId + n }

/-- Write a pattern with metadata; returns the document id. -/
def writeWithMetadata (input : List F) (metadata : List UInt8) : Program HeatherError (Session F S) ℕ := do
  ofExcept (validateVector input)
  atomicMutation do
    let m ← get
    ofExcept (checkWrite m.inner.config.d input input)
    let result ← adaptOnce (.single input)
    let docId := m.inner.docNextId
    edit (·.countDocuments 1)
    let m ← get
    persist
      { locations := touchedLocations m.inner result
        documents := [(docId, documentRecord m.store.precision m.inner.config result input metadata)]
        postings := (activatedIds m.inner result).map fun locId => (locId, [docId])
        metadata := documentCounters m.inner }
    edit (·.settle result)
    commit
    pure docId

/-- The documents of a batch by location, in order of the location ids. -/
def batchPostings (b : Batch F S) (docNextId : ℕ) : List (ℕ × List ℕ) :=
  let entries := b.writes.zipIdx.flatMap fun w =>
    (activatedIds w.1.inner w.1.result).map fun locId => (locId, docNextId + w.2)
  ((entries.map (·.1)).dedup.insertionSort (· ≤ ·)).map fun locId =>
    (locId, (entries.filter fun e => e.1 = locId).map (·.2))

/-- The indices a batch joined or created, in order. -/
def Batch.touched (b : Batch F S) (start : ℕ) : List ℕ :=
  (b.allModified ++ List.range' start (b.inner.locations.length - start)).dedup.insertionSort (· ≤ ·)

/-- Write many patterns with their metadata in one transaction; returns the
document ids in input order. -/
def writeBatchWithMetadata (items : List (List F × List UInt8)) :
    Program HeatherError (Session F S) (List ℕ) := do
  ofExcept (items.forM fun item => validateVector item.1)
  atomicMutation do
    let m ← get
    ofExcept (items.forM fun item => checkWrite m.inner.config.d item.1 item.1)
    if items.isEmpty then pure []
    else do
      let start := m.inner.locations.length
      let docNextId := m.inner.docNextId
      let b ← adaptBatch (items.map fun item => .single item.1)
      edit (·.countDocuments items.length)
      let m ← get
      persist
        { locations := (b.touched start).map (locationAt m.inner.locations)
          documents := (items.zip b.writes).zipIdx.map fun p =>
            (docNextId + p.2,
              documentRecord m.store.precision m.inner.config p.1.2.result p.1.1.1 p.1.1.2)
          postings := batchPostings b docNextId
          metadata := documentCounters m.inner }
      commit
      pure (List.range' docNextId items.length)

/-! ### Documents stored by reference -/

/-- A document stored by reference with its vector inline; one that does not
decode or resolve is left as it is. -/
def inlineDocument (precision : Precision) (inner : EAMInner F S) (doc : ℕ × DocumentRecord F) :
    Except HeatherError (Option (ℕ × DocumentRecord F)) :=
  match decodeDocumentParts doc.2 with
  | .ok (.location _, _) => do
    let resolved ← tolerate (resolveDocument inner doc.2)
    pure (resolved.map fun r => (doc.1, encodeDocument precision r.1 r.2))
  | _ => pure none

/-- Documents stored and nothing else. -/
def documentTransaction (collectionId : ℕ) (documents : List (ℕ × DocumentRecord F)) (txn : Store F) :
    Program HeatherError (Store F) (Unit × Store F) := do
  let txn ← documents.foldlM (fun txn d => Store.write (txn.putDocument collectionId d.1 d.2)) txn
  pure ((), txn)

/-- Stores every document that refers to its location's address with its own
copy of the vector again. -/
def materializeDocumentRefs : Program HeatherError (AtomicMutation F S) Unit := do
  let m ← get
  let rewritten ← ofExcept
    ((m.store.listDocuments m.collectionId).mapM (inlineDocument m.store.precision m.inner))
  let rewritten := rewritten.filterMap id
  if rewritten = [] then pure ()
  else inTransaction (documentTransaction m.collectionId rewritten)

/-! ### Consolidation -/

/-- The posting list of a removed location, moved to its survivor's. -/
def Store.migratePostings (collectionId : ℕ) (txn : Store F) (e : ℕ × ℕ) :
    Program HeatherError (Store F) (Store F) := do
  let removedDocs := txn.docIdsForLocation collectionId e.1
  let txn ←
    if removedDocs = [] then pure txn
    else Store.write (txn.putDocIndexEntry collectionId e.2
      (txn.docIdsForLocation collectionId e.2 ++ removedDocs))
  Store.write (txn.deleteDocIndexEntry collectionId e.1)

/-- The removed locations' postings migrated and their records deleted. -/
def mergeTransaction (collectionId : ℕ) (result : MergeResult) (txn : Store F) :
    Program HeatherError (Store F) (Unit × Store F) := do
  let txn ← result.mergeMap.foldlM (Store.migratePostings collectionId) txn
  let txn ← result.removedIds.foldlM (fun txn id => Store.write (txn.deleteLocation collectionId id)) txn
  pure ((), txn)

/-- What a merge stores. -/
def storeMerge (result : MergeResult) : Program HeatherError (AtomicMutation F S) Unit :=
  if result.removedIds = [] then pure ()
  else do
    let m ← get
    inTransaction (mergeTransaction m.collectionId result)
    edit (·.rebuildGraphCache)

/-- Run the nearest-neighbour merge; returns the number of merges. -/
def merge [SeededUniform F] : Program HeatherError (Session F S) ℕ :=
  atomicMutation do
    materializeDocumentRefs
    edit (·.bumpVersion)
    let m ← get
    let merged := knnMerge m.inner.locations m.inner.config
    edit fun inner => { inner with locations := merged.2 }
    storeMerge merged.1
    commit
    pure merged.1.mergeCount

/-- A removed location's postings moved to the end of its chain of merges, and
its record deleted; a chain that never ends never returns. -/
def Store.absorbRemoved (collectionId : ℕ) (parent : List (ℕ × ℕ)) (txn : Store F) (removed : ℕ) :
    Program HeatherError (Store F) (Store F) := do
  match Absorb.resolve parent (parent.length + 1) removed with
  | none => fail .hang
  | some finalSurv =>
    let txn ← txn.migratePostings collectionId (removed, finalSurv)
    Store.write (txn.deleteLocation collectionId removed)

/-- `L·kappa + W·log2(L)` -/
def descriptionLengthOf (kappa w : F) (locations : List (HardLocation F)) : F :=
  let l := max locations.length 1
  ofUsize l * kappa + w * log2 (ofUsize l)

/-- The removed locations absorbed and the locations left stored. -/
def compressTransaction (collectionId : ℕ) (left : List (HardLocation F)) (parent : List (ℕ × ℕ))
    (txn : Store F) : Program HeatherError (Store F) (Unit × Store F) := do
  let txn ← (parent.map (·.1)).foldlM (Store.absorbRemoved collectionId parent) txn
  let txn ← left.foldlM (fun txn loc => Store.write (txn.putLocation collectionId loc)) txn
  pure ((), txn)

/-- The locations a compression left, in memory and in the store. -/
def storeCompressed (left : List (HardLocation F)) (parent : List (ℕ × ℕ)) :
    Program HeatherError (AtomicMutation F S) Unit :=
  if parent = [] then pure ()
  else do
    edit fun inner => { inner with locations := left }
    let m ← get
    inTransaction (compressTransaction m.collectionId left parent)
    edit (·.rebuildGraphCache)

/-- Merge the closest locations while the description gets shorter. -/
def compress (kappa lambda : F) : Program HeatherError (Session F S) (CompressResult F) :=
  atomicMutation do
    materializeDocumentRefs
    let m ← get
    let before := m.inner.locations
    let w := totalWeight before
    let after := compressLoop kappa lambda w before.length before []
    storeCompressed after.1 after.2
    commit
    pure
      { locationsBefore := before.length
        locationsAfter := after.1.length
        descriptionLengthBefore := descriptionLengthOf kappa w before
        descriptionLengthAfter := descriptionLengthOf kappa w after.1
        merges := after.2.length }

/-! ### Snapshots -/

/-- The id after the greatest, 0 for no location. -/
def nextIdOf (locations : List (HardLocation F)) : ℕ :=
  match locations with
  | [] => 0
  | _ => (locations.map (·.id)).foldl max 0 + 1

/-- Every address has the configured dimension. -/
def checkAddresses (config : EAMConfig F) (locations : List (HardLocation F)) : Except HeatherError Unit :=
  locations.forM fun loc =>
    if loc.address.length = config.d then .ok ()
    else .error (.dimensionMismatch config.d loc.address.length)

/-- Refuses to replace a memory that changed since the version was observed. -/
def checkVersion (name : String) (version : ℕ) : Option ℕ → Except HeatherError Unit
  | none => .ok ()
  | some expected =>
    if version = expected then .ok ()
    else .error (.conflict (s!"collection '{name}' was modified concurrently " ++
      s!"(version {version} != expected {expected}); retry"))

/-- The records of a snapshot. -/
def snapshotPuts (locations : List (HardLocation F)) (config : EAMConfig F) : Puts F where
  locations := locations
  documents := []
  postings := []
  metadata := [("next_id", .u64 (nextIdOf locations)), ("config_d", .u64 config.d)]

/-- The snapshot stored in place of the old locations. -/
def snapshotTransaction (collectionId : ℕ) (old : List (HardLocation F)) (locations : List (HardLocation F))
    (config : EAMConfig F) (txn : Store F) : Program HeatherError (Store F) (Unit × Store F) := do
  let txn ← old.foldlM (fun txn loc => Store.write (txn.deleteLocation collectionId loc.id)) txn
  let txn ← txn.persist collectionId (snapshotPuts locations config)
  pure ((), txn)

/-- Replace the memory by a snapshot, unless it changed since the expected
version was observed. -/
def loadSnapshotChecked (locations : List (HardLocation F)) (config : EAMConfig F) (expected : Option ℕ) :
    Program HeatherError (Session F S) Unit := do
  ofExcept config.validate
  ofExcept (checkAddresses config locations)
  atomicMutation do
    let m ← get
    ofExcept (checkVersion m.name m.inner.version expected)
    materializeDocumentRefs
    edit (·.bumpVersion)
    let m ← get
    inTransaction (snapshotTransaction m.collectionId m.inner.locations locations config)
    edit fun inner => EAMInner.rebuildGraphCache
      { inner with
        locations := locations
        config := config
        nextId := nextIdOf locations }
    commit

def loadSnapshot (locations : List (HardLocation F)) (config : EAMConfig F) : Program HeatherError (Session F S) Unit :=
  loadSnapshotChecked locations config none

/-- Current mutation version. -/
def version : Program HeatherError (Session F S) ℕ := do
  let inner ← readInner
  pure inner.version

/-- The memory's locations, configuration and version. -/
def snapshotVersioned : Program HeatherError (Session F S) (List (HardLocation F) × EAMConfig F × ℕ) := do
  let inner ← readInner
  pure (inner.locations, inner.config, inner.version)

/-! ### Document reads and deletion -/

/-- Delete a document from the store and every posting list; true when it existed. -/
def deleteDocument (writeIndex : ℕ) : Program HeatherError (Session F S) Bool := do
  let _ ← readInner
  let s ← get
  zoom (·.store) (fun store s => { s with store := store })
    (transaction fun txn => txn.deleteDocumentEverywhere s.collection.collectionId writeIndex)

/-- The part of `getDocument` under the lock: a record read before, resolved. -/
def resolveRecord (data : Option (DocumentRecord F)) :
    Program HeatherError (Session F S) (Option (List F × List UInt8)) := do
  match data with
  | none => pure none
  | some data => do
    let inner ← readInner
    let doc ← ofExcept (resolveDocument inner data)
    pure (some doc)

/-- A document's vector and metadata by id. -/
def getDocument (writeIndex : ℕ) : Program HeatherError (Session F S) (Option (List F × List UInt8)) := do
  let s ← get
  resolveRecord (s.store.getDocument s.collection.collectionId writeIndex)

/-- Documents resolved under the lock, and how many were skipped. -/
def decodeAll (raw : List (ℕ × DocumentRecord F)) :
    Program HeatherError (Session F S) (List (Document F) × ℕ) := do
  let inner ← readInner
  let docs ← ofExcept (raw.mapM fun doc => do
    let resolved ← tolerate (resolveDocument inner doc.2)
    pure (resolved.map fun r => (doc.1, r)))
  pure (docs.filterMap id, docs.countP (·.isNone))

/-- One page of the documents, their count and how many were skipped. -/
def listDocumentsPage (offset limit : ℕ) :
    Program HeatherError (Session F S) (List (Document F) × ℕ × ℕ) := do
  let s ← get
  let page := s.store.listDocumentsPage s.collection.collectionId offset limit
  let docs ← decodeAll page.1
  pure (docs.1, page.2, docs.2)

/-- All documents that decode. -/
def listDocuments : Program HeatherError (Session F S) (List (Document F)) := do
  let s ← get
  let docs ← decodeAll (s.store.listDocuments s.collection.collectionId)
  pure docs.1

end HeatherDb
