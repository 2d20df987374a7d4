/-
# Writes and bulk loads over HTTP

`write` and `bulk_load` of `routes.rs` with the requests of `models.rs`.
Vectors come as JSON numbers or as base64 text of little-endian floats. A JSON
number is finite: the parser refuses one out of range, and there is no text
for another. The bytes behind base64 text can be any.

The parsed body is where a request starts. What its crates do is a parameter
(`Wire`); a handler that panics is left out.

Key definitions: `Wire`, `decodeVectors`, `resolveVectors`, `Routes.write`,
`Routes.bulkLoad`, `Routes.Step`.
-/
import HeatherDb.Hive
import HeatherDb.Lib.Bytes

namespace HeatherDb

open Scalar Narrow Program

/-- A number of a JSON text. -/
abbrev JsonNumber (F : Type) [Scalar F] := { x : F // isFinite x = true }

/-- What the server's crates make of a request's text. -/
structure Wire (F J : Type) where
  /-- `STANDARD.decode` of base64, with the text of its error. -/
  decodeBase64 : String → Except String (List UInt8)
  /-- `f64::from_le_bytes` -/
  fromLeBytes : List UInt8 → F
  /-- `serde_json::to_vec` -/
  toVec : J → Except String (List UInt8)

variable {F S J : Type} [Scalar F] [Scalar S] [Narrow F S]

/-! ### Requests -/

structure WriteRequest (F J : Type) [Scalar F] where
  vectors : List (List (JsonNumber F))
  vectorsB64 : Option (List String)
  metadata : Option (List J)

structure WriteResponse where
  count : ℕ
  ids : Option (List ℕ)

structure BulkLoadRequest (F : Type) [Scalar F] where
  addresses : List (List (JsonNumber F))
  counters : List (List (JsonNumber F))
  addressesB64 : Option (List String)
  countersB64 : Option (List String)
  writeCounts : Option (List (JsonNumber F))

structure BulkLoadResponse where
  nLoaded : ℕ
  dim : ℕ

/-- The vectors that a client spelled out. -/
def jsonVectors (vectors : List (List (JsonNumber F))) : List (List F) := vectors.map fun v => v.map (·.1)

/-- The floats in these bytes. -/
def Wire.floats (wire : Wire F J) (bytes : List UInt8) : List F := (Bytes.chunks 8 bytes).map wire.fromLeBytes

/-- One base64 vector of little-endian floats. -/
def decodeVector (wire : Wire F J) (field : String) (e : String × ℕ) : Except String (List F) :=
  match wire.decodeBase64 e.1 with
  | .error err => .error s!"{field}[{e.2}] is not valid base64: {err}"
  | .ok bytes =>
    if bytes.isEmpty || bytes.length % 8 != 0 then
      .error (s!"{field}[{e.2}] must be a whole number of little-endian f64 values (8 bytes each), " ++
        s!"got {bytes.length} bytes")
    else .ok (wire.floats bytes)

/-- Decodes base64 vectors of little-endian floats; `field` names the request
field in errors. -/
def decodeVectors (wire : Wire F J) (encoded : List String) (field : String) : Except String (List (List F)) :=
  encoded.zipIdx.mapM (decodeVector wire field)

/-- Takes `b64` in place of `json` if it was sent: an error if both were. -/
def resolveVectors (wire : Wire F J) (json : List (List F)) (b64 : Option (List String)) (field : String) :
    Except String (List (List F)) :=
  match b64 with
  | none => .ok json
  | some encoded =>
    if !json.isEmpty then .error s!"send {field} or {field}_b64, not both"
    else decodeVectors wire encoded (field ++ "_b64")

/-- What an error response says. -/
inductive Problem where
  | text (message : String)
  | engine (e : HeatherError)

/-- An error response. -/
structure Refusal where
  status : ℕ
  problem : Problem

/-- A program on a handle's collection. The cache only hands out handles that
there are. -/
def Hive.onHandle {α : Type} (h : ℕ) (m : Program HeatherError (Session F S) α) : Program HeatherError (Hive F S) α :=
  fun w =>
    match w.state.session h with
    | none => (.error .hang, w)
    | some s =>
      match m ⟨s, w.faults⟩ with
      | (r, w') => (r, ⟨w.state.withSession h w'.state, w'.faults⟩)

namespace Routes

/-! ### Writes -/

/-- The status of an error of a write. -/
def writeStatus : HeatherError → ℕ
  | .storage _ | .serialization _ => 500
  | .conflict _ => 409
  | _ => 400

/-- A vector with its metadata as bytes. -/
def withMetadata (wire : Wire F J) (item : List F × J) : Except HeatherError (List F × List UInt8) :=
  match wire.toVec item.2 with
  | .ok bytes => .ok (item.1, bytes)
  | .error e => .error (.invalidInput s!"invalid metadata JSON: {e}")

/-- Under the collection: all vectors in one transaction. -/
def writeVectors (wire : Wire F J) (vectors : List (List F)) (metadata : Option (List J)) :
    Program HeatherError (Session F S) WriteResponse := do
  match metadata with
  | some metadata =>
    if metadata.length ≠ vectors.length then fail (.invalidInput "metadata length must match vectors length")
    else do
      let items ← ofExcept ((vectors.zip metadata).mapM (withMetadata wire))
      let ids ← writeBatchWithMetadata items
      pure ⟨ids.length, some ids⟩
  | none => do
    writeBatch vectors
    pure ⟨vectors.length, none⟩

def write (wire : Wire F J) (name : String) (req : WriteRequest F J) :
    Program HeatherError (Hive F S) (Except Refusal WriteResponse) := do
  match resolveVectors wire (jsonVectors req.vectors) req.vectorsB64 "vectors" with
  | .error message => pure (.error ⟨400, .text message⟩)
  | .ok vectors =>
    if vectors.length = 0 then pure (.error ⟨400, .text "vectors array must not be empty"⟩)
    else do
      match ← attempt (Hive.getOrCreateCollection name) with
      | .error e => pure (.error ⟨500, .engine e⟩)
      | .ok h => do
        match ← attempt (Hive.onHandle h (writeVectors wire vectors req.metadata)) with
        | .error e => pure (.error ⟨writeStatus e, .engine e⟩)
        | .ok response => pure (.ok response)

/-! ### Bulk loads -/

/-- The vectors of a bulk load, after the checks that come before the
collection is opened. -/
def bulkVectors (wire : Wire F J) (maxItems : ℕ) (req : BulkLoadRequest F) :
    Except String (List (List F) × List (List F)) := do
  let addresses ← resolveVectors wire (jsonVectors req.addresses) req.addressesB64 "addresses"
  let counters ← resolveVectors wire (jsonVectors req.counters) req.countersB64 "counters"
  if addresses.isEmpty then throw "addresses must not be empty"
  if 0 < maxItems ∧ maxItems < addresses.length then
    throw (s!"bulk_load of {addresses.length} items exceeds the server cap of {maxItems}; " ++
      "split into smaller batches or raise --max-bulk-items")
  if addresses.length ≠ counters.length then
    throw s!"addresses ({addresses.length}) and counters ({counters.length}) must have equal length"
  match req.writeCounts with
  | some wc =>
    if wc.length ≠ addresses.length then
      throw s!"write_counts ({wc.length}) must match addresses ({addresses.length})"
  | none => pure ()
  pure (addresses, counters)

/-- A location with vectors of `d` entries. -/
abbrev ShapedLocation (F : Type) (d : ℕ) := { loc : HardLocation F // loc.address.length = d ∧ loc.counter.length = d }

/-- The location of one entry of a bulk load. -/
def bulkLocation (d : ℕ) (writeCounts : Option (List (JsonNumber F))) (e : (List F × List F) × ℕ) :
    Except HeatherError (ShapedLocation F d) :=
  if h : e.1.1.length ≠ d ∨ e.1.2.length ≠ d then .error (.dimensionMismatch d (max e.1.1.length e.1.2.length))
  else
    let writeCount := match writeCounts with
      | some wc => (wc[e.2]?.map (·.1)).getD (lit 1)
      | none => lit 1
    .ok ⟨{ HardLocation.new e.2 e.1.1 with counter := e.1.2, writeCount := writeCount }, by
      simpa [not_or] using h⟩

/-- The locations of a bulk load, numbered from 0. -/
def bulkLocations (d : ℕ) (writeCounts : Option (List (JsonNumber F))) (vectors : List (List F) × List (List F)) :
    Except HeatherError (List (ShapedLocation F d)) :=
  ((vectors.1.zip vectors.2).zipIdx).mapM (bulkLocation d writeCounts)

/-- Under the collection: its configuration and version, and the locations
loaded if that version still holds. -/
def loadVectors (writeCounts : Option (List (JsonNumber F))) (vectors : List (List F) × List (List F)) :
    Program HeatherError (Session F S) BulkLoadResponse := do
  let seen ← snapshotVersioned
  let locations ← ofExcept (bulkLocations seen.2.1.d writeCounts vectors)
  loadSnapshotChecked (locations.map (·.1)) seen.2.1 (some seen.2.2)
  pure ⟨locations.length, seen.2.1.d⟩

def bulkLoad (wire : Wire F J) (maxItems : ℕ) (name : String) (req : BulkLoadRequest F) :
    Program HeatherError (Hive F S) (Except Refusal BulkLoadResponse) := do
  match bulkVectors wire maxItems req with
  | .error message => pure (.error ⟨400, .text message⟩)
  | .ok vectors => do
    match ← attempt (Hive.getOrCreateCollection name) with
    | .error e => pure (.error ⟨500, .engine e⟩)
    | .ok h => do
      match ← attempt (Hive.onHandle h (loadVectors req.writeCounts vectors)) with
      | .error (.conflict message) => pure (.error ⟨409, .engine (.conflict message)⟩)
      | .error e => pure (.error ⟨400, .engine e⟩)
      | .ok response => pure (.ok response)

/-! ### Sequences of requests -/

/-- A request on the collection of a name. -/
inductive Request (F J : Type) [Scalar F] where
  | write (name : String) (req : WriteRequest F J)
  | bulkLoad (name : String) (req : BulkLoadRequest F)

/-- A response that is no error. -/
inductive Response where
  | written (response : WriteResponse)
  | loaded (response : BulkLoadResponse)

def handle (wire : Wire F J) (maxItems : ℕ) : Request F J → Program HeatherError (Hive F S) (Except Refusal Response)
  | .write name req => do
    let r ← write wire name req
    pure (r.map .written)
  | .bulkLoad name req => do
    let r ← bulkLoad wire maxItems name req
    pure (r.map .loaded)

/-- One request with its response, its storage steps answered as planned. -/
def Step (wire : Wire F J) (maxItems : ℕ) (hive : Hive F S) (e : Request F J × Except Refusal Response)
    (hive' : Hive F S) : Prop :=
  ∃ (plan : List (Option String)) (fs' : List (Option HeatherError)),
    handle wire maxItems e.1 ⟨hive, plan.map (Option.map .storage)⟩ = (.ok e.2, ⟨hive', fs'⟩)

end Routes

end HeatherDb
