/-
# The memory of a collection

`EAMInner` of `collection.rs`: the locations with the counters and the arrays
kept beside them (landmarks, the lookup from ids to indices, the address
matrix and its f32 copy), how each is rebuilt or extended, and how a
collection is read back from its store.

A poisoned lock is left out: it takes a panic. Rows of the matrices are
written whole, as their lengths agree.

Key definitions: `EAMInner`, `EAMInner.opened`, `Collection`, `Collection.load`,
`resolveDocument`.
Key theorem: `sameState_appendLocations`.
-/
import HeatherDb.Merge
import HeatherDb.Store

namespace HeatherDb

open Scalar Narrow

structure EAMInner (F S : Type) where
  /-- False if recovery from a failed mutation could not read the store. -/
  valid : Bool
  config : EAMConfig F
  locations : List (HardLocation F)
  nextId : ℕ
  eta : F
  docNextId : ℕ
  /-- Entry points of graph search. -/
  landmarks : List ℕ
  /-- How many locations there were when `landmarks` was last selected. -/
  landmarksAt : ℕ
  /-- Location ids to indices. -/
  idLookup : List (Option ℕ)
  /-- Row `i` is the address of location `i`. -/
  addressMatrix : List F
  /-- `addressMatrix` in f32. -/
  matrix32 : List S
  /-- An upper bound on the norm of every row. -/
  maxNorm : F
  /-- Counts the mutations of this process. -/
  version : ℕ

/-- A collection within a store. -/
structure Collection (F S : Type) where
  collectionId : ℕ
  name : String
  inner : EAMInner F S

variable {F S : Type} [Scalar F] [Narrow F S]

/-- The f32 copy of these addresses and an upper bound on their norms. -/
def f32Rows (locations : List (HardLocation F)) : List S × F :=
  (locations.flatMap fun loc => loc.address.map toF32,
    locations.foldl (fun m loc => fmax m (l2Norm loc.address)) (lit 0))

/-- Row `i` of a matrix replaced. -/
def setRow {α : Type} (matrix : List α) (d i : ℕ) (row : List α) : List α :=
  matrix.take (i * d) ++ row ++ matrix.drop (i * d + d)

namespace EAMInner

/-- The memory over these locations, its arrays built from them. -/
def opened (config : EAMConfig F) (locations : List (HardLocation F)) (nextId : ℕ) (eta : F)
    (docNextId : ℕ) : EAMInner F S where
  valid := true
  config := config
  locations := locations
  nextId := nextId
  eta := eta
  docNextId := docNextId
  landmarks := selectLandmarks locations config.numLandmarks
  landmarksAt := locations.length
  idLookup := buildIdLookup locations
  addressMatrix := locations.flatMap (·.address)
  matrix32 := (f32Rows locations).1
  maxNorm := (f32Rows locations).2
  version := 0

/-- What a write searches for its nearest locations. -/
def writeScan (inner : EAMInner F S) : Scan F S := ⟨inner.matrix32, inner.maxNorm⟩

def rebuildAddressMatrix (inner : EAMInner F S) : EAMInner F S :=
  { inner with
    addressMatrix := inner.locations.flatMap (·.address)
    matrix32 := (f32Rows inner.locations).1
    maxNorm := (f32Rows inner.locations).2 }

/-- Full rebuild of landmarks, lookup and matrices. -/
def rebuildGraphCache (inner : EAMInner F S) : EAMInner F S :=
  rebuildAddressMatrix { inner with
    idLookup := buildIdLookup inner.locations
    landmarks := selectLandmarks inner.locations inner.config.numLandmarks
    landmarksAt := inner.locations.length }

/-- Re-selects landmarks while there are too few and after each 25% of growth. -/
def refreshLandmarks (inner : EAMInner F S) : EAMInner F S :=
  let len := inner.locations.length
  let wanted := min inner.config.numLandmarks len
  let grown := inner.landmarksAt + max (inner.landmarksAt / 4) 256 ≤ len
  if 0 < inner.config.numLandmarks ∧ (inner.landmarks.length < wanted ∨ grown) then
    { inner with
      landmarks := selectLandmarks inner.locations inner.config.numLandmarks
      landmarksAt := len }
  else inner

/-- The matrices after the address at this index moved. -/
def syncAddress (inner : EAMInner F S) (idx : ℕ) : EAMInner F S :=
  let address := (locationAt inner.locations idx).address
  { inner with
    addressMatrix := setRow inner.addressMatrix inner.config.d idx address
    matrix32 := setRow inner.matrix32 inner.config.d idx (address.map toF32)
    maxNorm := fmax inner.maxNorm (l2Norm address) }

/-- The matrices after the addresses at these indices moved. -/
def syncAddresses (inner : EAMInner F S) (indices : List ℕ) : EAMInner F S := indices.foldl syncAddress inner

/-- The lookup extended by the locations from `start` on. -/
def extendIdLookup (inner : EAMInner F S) (start : ℕ) : EAMInner F S :=
  { inner with
    idLookup := ((inner.locations.zipIdx).drop start).foldl (fun lookup p =>
      (lookup ++ List.replicate (p.1.id + 1 - lookup.length) none).set p.1.id (some p.2)) inner.idLookup }

/-- The matrices extended by one location. -/
def appendAddress (inner : EAMInner F S) (loc : HardLocation F) : EAMInner F S :=
  { inner with
    addressMatrix := inner.addressMatrix ++ loc.address
    matrix32 := inner.matrix32 ++ loc.address.map toF32
    maxNorm := fmax inner.maxNorm (l2Norm loc.address) }

/-- The matrices extended by the locations from `start` on, and fresh
landmarks if they are due. -/
def appendAddresses (inner : EAMInner F S) (start : ℕ) : EAMInner F S :=
  refreshLandmarks ((inner.locations.drop start).foldl appendAddress inner)

/-- The locations a write created, appended. -/
def appendLocations (inner : EAMInner F S) (newLocations : List (HardLocation F)) : EAMInner F S :=
  if newLocations = [] then inner
  else
    let start := inner.locations.length
    (extendIdLookup { inner with locations := inner.locations ++ newLocations } start).appendAddresses start

/-- The address of the location with this id, if it exists. -/
def locationAddress (inner : EAMInner F S) (id : ℕ) : Option (List F) := do
  let idx ← (inner.idLookup[id]?).join
  let loc ← inner.locations[idx]?
  if loc.id = id then some loc.address else none

end EAMInner

/-- A stored document's vector and metadata, its vector resolved from its
location when it is stored by reference. -/
def resolveDocument (inner : EAMInner F S) (data : DocumentRecord F) :
    Except HeatherError (List F × List UInt8) := do
  match ← decodeDocumentParts data with
  | (.inline vector, metadata) => .ok (vector, metadata)
  | (.location id, metadata) =>
    match inner.locationAddress id with
    | some address => .ok (address, metadata)
    | none => .error (.corrupt s!"document refers to location {id}, which does not exist")

omit [Scalar F] [Narrow F S] in
theorem resolveDocument_reference (inner : EAMInner F S) (id : ℕ) (metadata : List UInt8) :
    resolveDocument inner (.reference id metadata) = (inner.locationAddress id).elim
      (.error (.corrupt s!"document refers to location {id}, which does not exist"))
      fun address => .ok (address, metadata) := by
  cases haddress : inner.locationAddress id <;>
    simp [resolveDocument, decodeDocumentParts, bind, Except.bind, haddress]

namespace Collection

/-- The checked dimension of what was loaded: the first location's. -/
def checkDimension (config : EAMConfig F) (locations : List (HardLocation F)) : Except HeatherError Unit :=
  match locations.head? with
  | none => .ok ()
  | some first =>
    if first.address.length = config.d then .ok ()
    else .error (.dimensionMismatch config.d first.address.length)

/-- Load an existing collection from disk. -/
def load (collectionId : ℕ) (name : String) (store : Store F) (config : EAMConfig F) :
    Except HeatherError (Collection F S) := do
  let locations ← store.loadAllLocations collectionId
  let nextId ← store.loadU64 collectionId "next_id" locations.length
  let eta ← store.loadF64 collectionId "eta" config.eta0
  let docNextId ← store.loadU64 collectionId "doc_next_id" 0
  checkDimension config locations
  pure ⟨collectionId, name, .opened config locations nextId eta docNextId⟩

end Collection

/-! ### What the arrays leave alone -/

/-- The same memory but for the arrays kept beside the locations. -/
structure SameState (a b : EAMInner F S) : Prop where
  valid : a.valid = b.valid
  config : a.config = b.config
  locations : a.locations = b.locations
  nextId : a.nextId = b.nextId
  eta : a.eta = b.eta
  docNextId : a.docNextId = b.docNextId
  version : a.version = b.version

omit [Scalar F] [Narrow F S] in
theorem SameState.refl (a : EAMInner F S) : SameState a a := ⟨rfl, rfl, rfl, rfl, rfl, rfl, rfl⟩

omit [Scalar F] [Narrow F S] in
theorem SameState.trans {a b c : EAMInner F S} (h : SameState a b) (h' : SameState b c) : SameState a c :=
  ⟨h.valid.trans h'.valid, h.config.trans h'.config, h.locations.trans h'.locations,
    h.nextId.trans h'.nextId, h.eta.trans h'.eta, h.docNextId.trans h'.docNextId,
    h.version.trans h'.version⟩

namespace EAMInner

omit [Scalar F] [Narrow F S] in
/-- A pass that changes only the arrays. -/
theorem sameState_foldl {α : Type} {f : EAMInner F S → α → EAMInner F S} (hf : ∀ x a, SameState (f x a) x)
    (l : List α) (inner : EAMInner F S) : SameState (l.foldl f inner) inner :=
  List.foldlRecOn (motive := fun x => SameState x inner) l f (.refl inner)
    fun x hx a _ => (hf x a).trans hx

theorem sameState_syncAddresses (inner : EAMInner F S) (indices : List ℕ) :
    SameState (inner.syncAddresses indices) inner :=
  sameState_foldl (f := syncAddress) (fun _ _ => ⟨rfl, rfl, rfl, rfl, rfl, rfl, rfl⟩) indices inner

omit [Narrow F S] in
theorem sameState_refreshLandmarks (inner : EAMInner F S) : SameState inner.refreshLandmarks inner := by
  unfold refreshLandmarks
  dsimp only
  split_ifs <;> exact ⟨rfl, rfl, rfl, rfl, rfl, rfl, rfl⟩

theorem sameState_appendAddresses (inner : EAMInner F S) (start : ℕ) :
    SameState (inner.appendAddresses start) inner :=
  (sameState_refreshLandmarks _).trans
    (sameState_foldl (f := appendAddress) (fun _ _ => ⟨rfl, rfl, rfl, rfl, rfl, rfl, rfl⟩) _ inner)

/-- New locations are appended, and nothing else changes but the arrays. -/
theorem sameState_appendLocations (inner : EAMInner F S) (newLocations : List (HardLocation F)) :
    SameState (inner.appendLocations newLocations)
      { inner with locations := inner.locations ++ newLocations } := by
  unfold appendLocations
  split_ifs with h
  · subst h
    rw [List.append_nil]
    exact .refl _
  · exact (sameState_appendAddresses _ _).trans ⟨rfl, rfl, rfl, rfl, rfl, rfl, rfl⟩

end EAMInner

end HeatherDb
