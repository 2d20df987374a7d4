/-
# The store

`store.rs` over the records of `codec.rs`: the tables of a database, one
ordered table of an LMDB environment each, and what every call of a
transaction does to them.

Keys are a collection's id and a location id, document id or metadata name
inside it; the source writes both big-endian into one byte string, whose
order is the order of `Scoped`. A table holds what a record's bytes spell
(`LocationRecord`, `DocumentRecord`, `Metadatum`), the codec's checks
reduced to one constructor `damaged` for bytes that do not decode. A record
has the length of the address alone, so one whose counter has another length
(the encoder's assertion against it is a debug build's) reads back as no such
location.

A put, a delete, the opening of a transaction and its commit are storage
steps that may fail; reads are assumed to work. The count of skipped records
is left out, as is the audit table.

Key definitions: `Store`, `encodeLocation`, `decodeLocation`, `Store.write`,
`Store.loadAllLocations`, `Store.deleteDocumentEverywhere`.
Key theorems: `decode_encodeLocation`, `mem_loadAllLocations_iff`.
-/
import Mathlib.Data.String.Basic
import HeatherDb.Config
import HeatherDb.Lib.Faults
import HeatherDb.Lib.OrderedTable

namespace HeatherDb

open Scalar Narrow

/-- A stored location, its counter left out where it equals the address. -/
inductive LocationRecord (F : Type) where
  | location (id : ℕ) (address counter : List F) (writeCount surpriseMass : F) (neighbors : List ℕ)
  | plainLocation (id : ℕ) (address : List F) (writeCount surpriseMass : F) (neighbors : List ℕ)
  | damaged (message : String)

/-- A stored document, its vector left out where it is a location's address. -/
inductive DocumentRecord (F : Type) where
  | document (vector : List F) (metadata : List UInt8)
  | reference (location : ℕ) (metadata : List UInt8)
  | damaged (message : String)

/-- Where a stored document's vector is. -/
inductive DocVector (F : Type) where
  | inline (vector : List F)
  | location (id : ℕ)

/-- A stored metadata value, by the type its key is written with. -/
inductive Metadatum (F : Type) where
  | u64 (n : ℕ)
  | f64 (x : F)

/-- A document as a listing returns it: id, vector and metadata. -/
abbrev Document (F : Type) := ℕ × List F × List UInt8

structure Store (F : Type) where
  precision : Precision
  registry : OrderedTable String ℕ
  locations : OrderedTable (Scoped ℕ ℕ) (LocationRecord F)
  metadata : OrderedTable (Scoped ℕ String) (Metadatum F)
  documents : OrderedTable (Scoped ℕ ℕ) (DocumentRecord F)
  /-- The posting lists. -/
  docIndex : OrderedTable (Scoped ℕ ℕ) (List ℕ)

variable {F S : Type} [Narrow F S]

/-! ### Records -/

/-- A vector as a store of this precision gives it back. -/
def atPrecision (p : Precision) (v : List F) : List F :=
  match p with
  | .f64 => v
  | .f32 => v.map fun x => toF64 (toF32 x)

def encodeLocation [Scalar F] (p : Precision) (loc : HardLocation F) : LocationRecord F :=
  if vecEq loc.counter loc.address then
    .plainLocation loc.id (atPrecision p loc.address) loc.writeCount loc.surpriseMass loc.neighbors
  else
    .location loc.id (atPrecision p loc.address) (atPrecision p loc.counter) loc.writeCount
      loc.surpriseMass loc.neighbors

def decodeLocation : LocationRecord F → Except HeatherError (HardLocation F)
  | .location id address counter writeCount surpriseMass neighbors =>
    -- the counter is read as long as the address, so the fields after another one do not fit the payload
    if counter.length = address.length then .ok { id, address, counter, writeCount, neighbors, surpriseMass }
    else .error (.corrupt "the payload has another length")
  | .plainLocation id address writeCount surpriseMass neighbors =>
    .ok { id, address, counter := address, writeCount, neighbors, surpriseMass }
  | .damaged message => .error (.corrupt message)

def encodeDocument (p : Precision) (vector : List F) (metadata : List UInt8) : DocumentRecord F :=
  .document (atPrecision p vector) metadata

def encodeDocumentRef (location : ℕ) (metadata : List UInt8) : DocumentRecord F :=
  .reference location metadata

def decodeDocumentParts : DocumentRecord F → Except HeatherError (DocVector F × List UInt8)
  | .document vector metadata => .ok (.inline vector, metadata)
  | .reference location metadata => .ok (.location location, metadata)
  | .damaged message => .error (.corrupt message)

/-- Reads of many records skip the one that does not decode. -/
def tolerate {α : Type} : Except HeatherError α → Except HeatherError (Option α)
  | .ok v => .ok (some v)
  | .error (.corrupt _) | .error (.unsupportedFormat _) => .ok none
  | .error e => .error e

/-- **An f64 record gives the location back**, if its vectors are of one length. -/
theorem decode_encodeLocation [Scalar F] {loc : HardLocation F} (hlen : loc.counter.length = loc.address.length) :
    ∃ loc', decodeLocation (encodeLocation .f64 loc) = .ok loc' ∧ SameLocation loc' loc := by
  unfold encodeLocation
  split_ifs with h
  · exact ⟨_, rfl, rfl, rfl, (sameVec_of_vecEq h).symm, rfl, rfl, rfl⟩
  · exact ⟨_, if_pos hlen, .refl _⟩

theorem length_atPrecision (p : Precision) (v : List F) : (atPrecision p v).length = v.length := by
  cases p
  · rfl
  · exact List.length_map _

/-- At any precision a record decodes to a location with the same id and
vectors of the same lengths. -/
theorem decode_encodeLocation_shape [Scalar F] (p : Precision) {loc : HardLocation F}
    (hlen : loc.counter.length = loc.address.length) :
    ∃ loc', decodeLocation (encodeLocation p loc) = .ok loc' ∧ loc'.id = loc.id ∧
      loc'.address.length = loc.address.length ∧ loc'.counter.length = loc.counter.length := by
  unfold encodeLocation
  split_ifs with h
  · exact ⟨_, rfl, rfl, length_atPrecision _ _, (length_atPrecision _ _).trans hlen.symm⟩
  · refine ⟨_, if_pos ?_, rfl, length_atPrecision _ _, length_atPrecision _ _⟩
    rw [length_atPrecision, length_atPrecision, hlen]

/-- The vectors of a location that was read back are of one length. -/
theorem lengths_of_decodeLocation {r : LocationRecord F} {loc : HardLocation F} (h : decodeLocation r = .ok loc) :
    loc.counter.length = loc.address.length := by
  cases r with
  | location id address counter writeCount surpriseMass neighbors =>
    rw [decodeLocation] at h
    split_ifs at h with hlen
    obtain rfl := Except.ok.inj h
    exact hlen
  | plainLocation id address writeCount surpriseMass neighbors =>
    obtain rfl := Except.ok.inj h
    rfl
  | damaged message => cases h

/-- A location that is read back has its id. -/
theorem id_of_decode_encodeLocation [Scalar F] {p : Precision} {loc loc' : HardLocation F}
    (h : decodeLocation (encodeLocation p loc) = .ok loc') : loc'.id = loc.id := by
  unfold encodeLocation at h
  split_ifs at h with heq
  · obtain rfl := Except.ok.inj h
    rfl
  · rw [decodeLocation] at h
    split at h
    · obtain rfl := Except.ok.inj h
      rfl
    · cases h

/-- What decodes is tolerated, and what does not is skipped. -/
theorem tolerate_decodeLocation (r : LocationRecord F) :
    tolerate (decodeLocation r) = .ok (decodeLocation r).toOption := by
  cases r with
  | location id address counter writeCount surpriseMass neighbors =>
    rw [decodeLocation]
    split_ifs <;> rfl
  | _ => rfl

/-- A pass whose steps succeed is the pass of their values. -/
theorem mapM_ok {ε α β : Type} {f : α → Except ε β} {g : α → β} (h : ∀ a, f a = .ok (g a)) :
    ∀ l : List α, l.mapM f = .ok (l.map g)
  | [] => rfl
  | a :: l => by
    rw [List.mapM_cons, h, mapM_ok h l]
    rfl

namespace Store

/-- A new database. -/
def empty (precision : Precision) : Store F := ⟨precision, .empty, .empty, .empty, .empty, .empty⟩

/-! ### What one call does -/

def putLocation [Scalar F] (s : Store F) (collectionId : ℕ) (loc : HardLocation F) : Store F :=
  { s with locations := s.locations.put ⟨collectionId, loc.id⟩ (encodeLocation s.precision loc) }

def deleteLocation (s : Store F) (collectionId id : ℕ) : Store F :=
  { s with locations := s.locations.delete ⟨collectionId, id⟩ }

def putMetadata (s : Store F) (collectionId : ℕ) (key : String) (value : Metadatum F) : Store F :=
  { s with metadata := s.metadata.put ⟨collectionId, key⟩ value }

def putDocument (s : Store F) (collectionId writeIndex : ℕ) (data : DocumentRecord F) : Store F :=
  { s with documents := s.documents.put ⟨collectionId, writeIndex⟩ data }

def deleteDocument (s : Store F) (collectionId writeIndex : ℕ) : Store F :=
  { s with documents := s.documents.delete ⟨collectionId, writeIndex⟩ }

/-- `get_doc_ids_for_location`: no list reads as the empty one. -/
def docIdsForLocation (s : Store F) (collectionId locationId : ℕ) : List ℕ :=
  (s.docIndex.get ⟨collectionId, locationId⟩).getD []

def putDocIndexEntry (s : Store F) (collectionId locationId : ℕ) (docIds : List ℕ) : Store F :=
  { s with docIndex := s.docIndex.put ⟨collectionId, locationId⟩ docIds }

def deleteDocIndexEntry (s : Store F) (collectionId locationId : ℕ) : Store F :=
  { s with docIndex := s.docIndex.delete ⟨collectionId, locationId⟩ }

/-- Appends several documents to a location's posting list. -/
def appendDocsToLocation (s : Store F) (collectionId locationId : ℕ) (newDocIds : List ℕ) : Store F :=
  if newDocIds = [] then s
  else s.putDocIndexEntry collectionId locationId (s.docIdsForLocation collectionId locationId ++ newDocIds)

/-! ### Reads -/

def loadMetadata (s : Store F) (collectionId : ℕ) (key : String) : Option (Metadatum F) :=
  s.metadata.get ⟨collectionId, key⟩

/-- `deserialize` at `u64`, for a key that is written so. -/
def loadU64 (s : Store F) (collectionId : ℕ) (key : String) (default : ℕ) : Except HeatherError ℕ :=
  match s.loadMetadata collectionId key with
  | none => .ok default
  | some (.u64 n) => .ok n
  | some (.f64 _) => .error (.serialization key)

/-- `deserialize` at `f64`, for a key that is written so. -/
def loadF64 (s : Store F) (collectionId : ℕ) (key : String) (default : F) : Except HeatherError F :=
  match s.loadMetadata collectionId key with
  | none => .ok default
  | some (.f64 x) => .ok x
  | some (.u64 _) => .error (.serialization key)

/-- The locations of a collection in key order, but for records that do not
decode. -/
def loadAllLocations (s : Store F) (collectionId : ℕ) : Except HeatherError (List (HardLocation F)) := do
  let locations ← (s.locations.under collectionId).entries.mapM fun e => tolerate (decodeLocation e.2)
  pure (locations.filterMap id)

def getDocument (s : Store F) (collectionId writeIndex : ℕ) : Option (DocumentRecord F) :=
  s.documents.get ⟨collectionId, writeIndex⟩

/-- The documents of a collection in id order. -/
def listDocuments (s : Store F) (collectionId : ℕ) : List (ℕ × DocumentRecord F) :=
  (s.documents.under collectionId).entries

/-- One page of the documents and how many there are in all. -/
def listDocumentsPage (s : Store F) (collectionId offset limit : ℕ) : List (ℕ × DocumentRecord F) × ℕ :=
  (((s.listDocuments collectionId).drop offset).take limit, (s.listDocuments collectionId).length)

/-- The location under a key, if it decodes. -/
def locationAt? (s : Store F) (collectionId id : ℕ) : Option (HardLocation F) :=
  (s.locations.get ⟨collectionId, id⟩).bind fun r => (decodeLocation r).toOption

theorem loadAllLocations_eq (s : Store F) (collectionId : ℕ) :
    s.loadAllLocations collectionId =
      .ok ((s.locations.under collectionId).entries.filterMap fun e => (decodeLocation e.2).toOption) := by
  unfold loadAllLocations
  rw [mapM_ok fun e : ℕ × LocationRecord F => tolerate_decodeLocation e.2]
  show Except.ok _ = _
  rw [List.filterMap_map]
  rfl

/-- What loads is what the keys find. -/
theorem mem_loadAllLocations_iff {s : Store F} {collectionId : ℕ} {loc : HardLocation F}
    {locations : List (HardLocation F)} (h : s.loadAllLocations collectionId = .ok locations) :
    loc ∈ locations ↔ ∃ id, s.locationAt? collectionId id = some loc := by
  rw [loadAllLocations_eq] at h
  obtain rfl := Except.ok.inj h
  simp only [List.mem_filterMap, locationAt?]
  constructor
  · intro h
    obtain ⟨⟨id, r⟩, hmem, hdec⟩ := h
    rw [← OrderedTable.get_eq_some_iff, OrderedTable.get_under] at hmem
    exact ⟨id, by rw [hmem]; exact hdec⟩
  · intro h
    obtain ⟨id, hid⟩ := h
    obtain ⟨r, hr, hdec⟩ := Option.bind_eq_some_iff.mp hid
    refine ⟨(id, r), ?_, hdec⟩
    rw [← OrderedTable.get_eq_some_iff, OrderedTable.get_under]
    exact hr

theorem locationAt?_of_loadAll {s : Store F} {collectionId : ℕ} (h : s.loadAllLocations collectionId = .ok [])
    (id : ℕ) : s.locationAt? collectionId id = none := by
  rw [Option.eq_none_iff_forall_ne_some]
  intro loc hloc
  have hmem := (mem_loadAllLocations_iff h).mpr ⟨id, hloc⟩
  simp at hmem

/-! ### Transactions -/

/-- One put or delete of a transaction, on its copy of the tables. -/
def write (txn : Store F) : Program HeatherError (Store F) (Store F) := do
  Program.step
  pure txn

theorem steady_write (txn : Store F) : Steady (write txn) txn := Steady.step.bind (Steady.pure txn)

/-- The registry's key for the next collection id. -/
def nextCollectionIdKey : String := "_next_collection_id"

/-- `load_next_collection_id_txn` -/
def nextCollectionId (s : Store F) : ℕ := (s.registry.get nextCollectionIdKey).getD 0

/-- Registers a name under the next free id, unless it has one. -/
def createCollection (txn : Store F) (name : String) : Program HeatherError (Store F) (ℕ × Store F) := do
  match txn.registry.get name with
  | some existing => pure (existing, txn)
  | none =>
    let nextId := txn.nextCollectionId
    let txn ← write { txn with registry := txn.registry.put name nextId }
    -- the counter is a u32 and wraps
    let txn ← write { txn with registry := txn.registry.put nextCollectionIdKey ((nextId + 1) % 2 ^ 32) }
    pure (nextId, txn)

/-- The registered names and ids, but for the counter. -/
def listCollections (s : Store F) : List (String × ℕ) :=
  s.registry.entries.filter fun e => e.1 ≠ nextCollectionIdKey

def deleteMetadata (s : Store F) (collectionId : ℕ) (key : String) : Store F :=
  { s with metadata := s.metadata.delete ⟨collectionId, key⟩ }

/-- Removes a name from the registry and every record under the id. -/
def deleteCollection (txn : Store F) (name : String) (collectionId : ℕ) :
    Program HeatherError (Store F) (Unit × Store F) := do
  let txn ← write { txn with registry := txn.registry.delete name }
  let txn ← (txn.locations.under collectionId).keys.foldlM
    (fun txn id => write (txn.deleteLocation collectionId id)) txn
  let txn ← (txn.docIndex.under collectionId).keys.foldlM
    (fun txn id => write (txn.deleteDocIndexEntry collectionId id)) txn
  let txn ← (txn.documents.under collectionId).keys.foldlM
    (fun txn id => write (txn.deleteDocument collectionId id)) txn
  let txn ← (txn.metadata.under collectionId).keys.foldlM
    (fun txn key => write (txn.deleteMetadata collectionId key)) txn
  pure ((), txn)

/-- A posting list without a document, gone when it empties. -/
def dropFromList (txn : Store F) (collectionId writeIndex : ℕ) (entry : ℕ × List ℕ) : Store F :=
  let kept := entry.2.filter (· ≠ writeIndex)
  if kept = [] then txn.deleteDocIndexEntry collectionId entry.1
  else txn.putDocIndexEntry collectionId entry.1 kept

/-- Removes a document from the store and from every posting list; true when
it existed. -/
def deleteDocumentEverywhere (txn : Store F) (collectionId writeIndex : ℕ) :
    Program HeatherError (Store F) (Bool × Store F) := do
  let existed := (txn.getDocument collectionId writeIndex).isSome
  let rewrites := (txn.docIndex.under collectionId).entries.filter fun e => writeIndex ∈ e.2
  let txn ← if existed then write (txn.deleteDocument collectionId writeIndex) else pure txn
  let txn ← rewrites.foldlM (fun txn e => write (txn.dropFromList collectionId writeIndex e)) txn
  pure (existed, txn)

end Store

end HeatherDb
