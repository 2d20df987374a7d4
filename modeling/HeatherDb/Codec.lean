/-
# The on-disk format

`codec.rs`, byte by byte: hard locations and documents in their envelope of
magic, version, kind, precision, length and checksum, and the decoders, which
also read what was written before the envelope existed.

An outcome is a value, an error or a panic: indexing, slicing, `expect` and
`debug_assert!` have the panic they would raise as a value. The checksum and
the decoders of the old values are functions of other crates (`Crates`); a
float is read from its bytes as it was written to them (`LeBytes`).
Lengths are those of a 64-bit machine.

Key definitions: `Stop`, `LeBytes`, `Crates`, `format`, `encodeLocation`,
`decodeLocation`, `encodeDocument`, `encodeDocumentRef`, `decodeDocumentParts`.
-/
import HeatherDb.Store
import HeatherDb.Lib.Bytes
import HeatherDb.Lib.Parser

namespace HeatherDb

namespace Codec

open Bytes Narrow

/-! ### Outcomes -/

/-- Why a call returned no value. -/
inductive Stop where
  | error (e : HeatherError)
  | panic (message : String)

abbrev Outcome (α : Type) := Except Stop α

def corrupt {α : Type} (message : String) : Outcome α := .error (.error (.corrupt message))

def panicked {α : Type} (message : String) : Outcome α := .error (.panic message)

/-- `bytes[i]` -/
def index (bytes : List UInt8) (i : ℕ) : Outcome UInt8 :=
  match bytes[i]? with
  | some b => .ok b
  | none => panicked "index out of bounds"

/-- `&bytes[lo..hi]` -/
def slice (bytes : List UInt8) (lo hi : ℕ) : Outcome (List UInt8) :=
  if lo ≤ hi ∧ hi ≤ bytes.length then .ok ((bytes.take hi).drop lo) else panicked "slice out of range"

/-- `bytes.try_into().expect(..)` into an array of `n` bytes. -/
def intoArray (n : ℕ) (bytes : List UInt8) : Outcome (List UInt8) :=
  if bytes.length = n then .ok bytes else panicked s!"{n} bytes"

/-- `a.checked_mul(b)` on `usize`. -/
def checkedMul (a b : ℕ) : Option ℕ := if a * b < 2 ^ 64 then some (a * b) else none

def lenU32 (n : ℕ) : Outcome ℕ := if n < 2 ^ 32 then .ok n else panicked "lengths fit in u32"

/-! ### What the codec takes from elsewhere -/

/-- A float format of `k` bytes, `f64` or `f32`. -/
class LeBytes (α : Type) (k : outParam ℕ) where
  toLeBytes : α → List UInt8
  fromLeBytes : List UInt8 → α
  length_toLeBytes : ∀ x, (toLeBytes x).length = k
  from_toLeBytes : ∀ x, fromLeBytes (toLeBytes x) = x

/-- A location as it was written before the envelope, its vectors of `V`. -/
structure LegacyLocation (V F : Type) where
  id : UInt64
  address : List V
  counter : List V
  writeCount : F
  neighbors : List UInt64
  surpriseMass : F

/-- The functions of other crates: `crc32fast::hash` and `legacy`, the call
of `bincode`, at the four types it is made at. -/
structure Crates (F S : Type) where
  crc32 : List UInt8 → UInt32
  location : List UInt8 → Except String (LegacyLocation F F)
  compactLocation : List UInt8 → Except String (LegacyLocation S F)
  document : List UInt8 → Except String (List F × List UInt8)
  compactDocument : List UInt8 → Except String (List S × List UInt8)

/-! ### The envelope -/

def magic : List UInt8 := [0xFF, 0xFE, 0x48, 0x44]

/-- The record version written. -/
def recordVersion : UInt8 := 1

def headerLen : ℕ := 16

def kindLocation : UInt8 := 1
def kindDocument : UInt8 := 2
def kindPlainLocation : UInt8 := 3
def kindDocumentRef : UInt8 := 4

/-- What a stored value is, as far as its bytes say. -/
inductive Format where
  | enveloped (version kind : UInt8) (precision : Precision)
  | legacy
deriving DecidableEq

def kindName (kind : UInt8) : String :=
  if kind = kindLocation then "location"
  else if kind = kindDocument then "document"
  else if kind = kindPlainLocation then "plain location"
  else if kind = kindDocumentRef then "document reference"
  else "unknown"

def precisionByte : Precision → UInt8
  | .f64 => 0
  | .f32 => 1

def precisionFrom (b : UInt8) : Outcome Precision :=
  if b = 0 then .ok .f64 else if b = 1 then .ok .f32 else corrupt s!"unknown precision {b}"

/-- The bytes of one float of a vector. -/
def width : Precision → ℕ
  | .f64 => 8
  | .f32 => 4

/-- The format of a stored value, without decoding it. -/
def format (bytes : List UInt8) : Outcome Format := do
  if bytes.length < 4 then pure .legacy
  else if (← slice bytes 0 4) ≠ magic then pure .legacy
  else if bytes.length < headerLen then corrupt "record header is truncated"
  else
    let version ← index bytes 4
    let kind ← index bytes 5
    let precision ← precisionFrom (← index bytes 6)
    pure (.enveloped version kind precision)

variable {F S : Type} (crates : Crates F S)

def envelope (kind : UInt8) (precision : Precision) (payload : List UInt8) : Outcome (List UInt8) := do
  let len ← lenU32 payload.length
  pure (magic ++ [recordVersion, kind, precisionByte precision, 0] ++ toLe 4 len ++
    toLe 4 (crates.crc32 payload).toNat ++ payload)

/-- `open`: checks an enveloped value, which must be one of `kinds`, and
returns its kind, precision and payload. -/
def openRecord (bytes kinds : List UInt8) : Outcome (UInt8 × Precision × List UInt8) := do
  let version ← index bytes 4
  if version = 0 ∨ recordVersion < version then
    .error (.error (.unsupportedFormat (s!"record version {version} (this HeatherDB reads up to " ++
      s!"{recordVersion}); it was written by a newer HeatherDB")))
  else
    let kind ← index bytes 5
    if kind ∉ kinds then
      let first ← index kinds 0
      corrupt s!"expected a {kindName first} record, found kind {kind}"
    else
      let precision ← precisionFrom (← index bytes 6)
      let len := ofLe (← intoArray 4 (← slice bytes 8 12))
      let crc := ofLe (← intoArray 4 (← slice bytes 12 16))
      let payload ← slice bytes headerLen bytes.length
      if payload.length ≠ len then
        corrupt s!"payload is {payload.length} bytes, header says {len}"
      else if (crates.crc32 payload).toNat ≠ crc then corrupt "checksum mismatch"
      else pure (kind, precision, payload)

/-! ### Reading a payload -/

/-- Bounds-checked reads over a payload. -/
abbrev Reader (α : Type) := Parser Stop UInt8 α

/-- `self.bytes.split_at(n)` -/
def splitAt (bytes : List UInt8) (n : ℕ) : Outcome (List UInt8 × List UInt8) :=
  if n ≤ bytes.length then .ok (bytes.take n, bytes.drop n) else panicked "mid > len"

open LeBytes

namespace Reader

def bytes (n : ℕ) : Reader (List UInt8) := fun s =>
  if s.length < n then corrupt "payload is truncated" else splitAt s n

def u32 : Reader ℕ := do
  let b ← bytes 4
  pure (ofLe (← (intoArray 4 b : Outcome _)))

def u64 : Reader ℕ := do
  let b ← bytes 8
  pure (ofLe (← (intoArray 8 b : Outcome _)))

def finish : Reader Unit := fun s =>
  if s = [] then .ok ((), []) else corrupt s!"{s.length} unexpected trailing bytes"

/-- The numbers of a list of `u64`s. -/
def u64sOf (raw : List UInt8) : List ℕ := (chunks 8 raw).map ofLe

def u64s (n : ℕ) : Reader (List ℕ) :=
  match checkedMul n 8 with
  | none => fun _ => corrupt "list length overflows"
  | some size => do
    let raw ← bytes size
    pure (u64sOf raw)

variable [Narrow F S] [LeBytes F 8] [LeBytes S 4]

def f64 : Reader F := do
  let b ← bytes 8
  pure (fromLeBytes (← (intoArray 8 b : Outcome _)))

/-- The floats of a vector of a record of this precision. -/
def floatsOf (p : Precision) (raw : List UInt8) : List F :=
  match p with
  | .f64 => (chunks 8 raw).map fromLeBytes
  | .f32 => (chunks 4 raw).map fun b => toF64 (fromLeBytes b)

def floats (n : ℕ) (p : Precision) : Reader (List F) :=
  match checkedMul n (width p) with
  | none => fun _ => corrupt "vector length overflows"
  | some size => do
    let raw ← bytes size
    pure (floatsOf p raw)

end Reader

variable [Scalar F] [Narrow F S] [LeBytes F 8] [LeBytes S 4]

def putFloats (v : List F) (p : Precision) : List UInt8 :=
  match p with
  | .f64 => v.flatMap toLeBytes
  | .f32 => v.flatMap fun x => toLeBytes (toF32 x)

/-! ### Values before the envelope -/

def widen (v : List S) : List F := v.map toF64

/-- A legacy value as its error: `map_err(|e| corrupt(&format!("{what}: {e}")))` -/
def legacyError {α : Type} (what : String) : Except String α → Outcome α
  | .ok a => .ok a
  | .error e => corrupt s!"{what}: {e}"

/-- A legacy location, its vectors widened by `w`. -/
def LegacyLocation.toHard {V : Type} (w : List V → List F) (c : LegacyLocation V F) : HardLocation F where
  id := c.id.toNat
  address := w c.address
  counter := w c.counter
  writeCount := c.writeCount
  neighbors := c.neighbors.map UInt64.toNat
  surpriseMass := c.surpriseMass

def legacyLocation (bytes : List UInt8) (precision : Precision) : Outcome (HardLocation F) := do
  let decoded := match precision with
    | .f64 => (crates.location bytes).map (LegacyLocation.toHard id)
    | .f32 => (crates.compactLocation bytes).map (LegacyLocation.toHard widen)
  let loc ← legacyError "legacy location" decoded
  if loc.address.length ≠ loc.counter.length then
    corrupt (s!"legacy location: address has {loc.address.length} values, " ++
      s!"counter {loc.counter.length}")
  else pure loc

def legacyDocument (bytes : List UInt8) (precision : Precision) : Outcome (List F × List UInt8) :=
  legacyError "legacy document" (match precision with
    | .f64 => crates.document bytes
    | .f32 => (crates.compactDocument bytes).map fun (v, m) => (widen v, m))

/-! ### Locations -/

/-- The payload of a location: plain, its counter is left out. -/
def locationPayload (loc : HardLocation F) (precision : Precision) (plain : Bool) (d n : ℕ) : List UInt8 :=
  toLe 8 loc.id ++ toLe 4 d ++ putFloats loc.address precision ++
    (if plain then [] else putFloats loc.counter precision) ++
    toLeBytes loc.writeCount ++ toLeBytes loc.surpriseMass ++
    toLe 4 n ++ loc.neighbors.flatMap (toLe 8)

def encodeLocation (loc : HardLocation F) (precision : Precision) : Outcome (List UInt8) :=
  if loc.address.length ≠ loc.counter.length then
    panicked "a location's address and counter have the same length"
  else do
    let plain := vecEq loc.counter loc.address
    let d ← lenU32 loc.address.length
    let n ← lenU32 loc.neighbors.length
    envelope crates (if plain then kindPlainLocation else kindLocation) precision
      (locationPayload loc precision plain d n)

/-- The counter of a location: a plain one reads back as its address. -/
def readCounter (kind : UInt8) (d : ℕ) (precision : Precision) (address : List F) : Reader (List F) :=
  if kind = kindPlainLocation then pure address else Reader.floats d precision

/-- The payload of a location of this kind and precision. -/
def readLocation (kind : UInt8) (precision : Precision) : Reader (HardLocation F) := do
  let id ← Reader.u64
  let d ← Reader.u32
  let address ← Reader.floats d precision
  let counter ← readCounter kind d precision address
  let writeCount ← Reader.f64
  let surpriseMass ← Reader.f64
  let n ← Reader.u32
  let neighbors ← Reader.u64s n
  Reader.finish
  pure { id, address, counter, writeCount, neighbors, surpriseMass }

/-- `legacy` is the precision legacy values were written at. -/
def decodeLocation (bytes : List UInt8) (legacy : Precision) : Outcome (HardLocation F) := do
  match ← format bytes with
  | .legacy => legacyLocation crates bytes legacy
  | .enveloped .. =>
    let (kind, precision, payload) ← openRecord crates bytes [kindLocation, kindPlainLocation]
    (readLocation kind precision).run' payload

/-! ### Documents -/

def encodeDocument (vector : List F) (metadata : List UInt8) (precision : Precision) :
    Outcome (List UInt8) := do
  let d ← lenU32 vector.length
  let m ← lenU32 metadata.length
  envelope crates kindDocument precision
    (toLe 4 d ++ putFloats vector precision ++ toLe 4 m ++ metadata)

def encodeDocumentRef (locationId : ℕ) (metadata : List UInt8) (precision : Precision) :
    Outcome (List UInt8) := do
  let m ← lenU32 metadata.length
  envelope crates kindDocumentRef precision (toLe 8 locationId ++ toLe 4 m ++ metadata)

/-- The vector of a document: a reference names the location that has it. -/
def readVector (kind : UInt8) (precision : Precision) : Reader (DocVector F) :=
  if kind = kindDocumentRef then do
    let id ← Reader.u64
    pure (.location id)
  else do
    let d ← Reader.u32
    let vector ← Reader.floats d precision
    pure (.inline vector)

/-- The payload of a document of this kind and precision. -/
def readDocument (kind : UInt8) (precision : Precision) : Reader (DocVector F × List UInt8) := do
  let vector ← readVector kind precision
  let m ← Reader.u32
  let metadata ← Reader.bytes m
  Reader.finish
  pure (vector, metadata)

/-- A document's vector, inline or by reference, and its metadata. -/
def decodeDocumentParts (bytes : List UInt8) (legacy : Precision) :
    Outcome (DocVector F × List UInt8) := do
  match ← format bytes with
  | .legacy =>
    let (vector, metadata) ← legacyDocument crates bytes legacy
    pure (.inline vector, metadata)
  | .enveloped .. =>
    let (kind, precision, payload) ← openRecord crates bytes [kindDocument, kindDocumentRef]
    (readDocument kind precision).run' payload

/-- A document with its vector inline; a reference is an error here. -/
def decodeDocument (bytes : List UInt8) (legacy : Precision) : Outcome (List F × List UInt8) := do
  match ← decodeDocumentParts crates bytes legacy with
  | (.inline vector, metadata) => pure (vector, metadata)
  | (.location id, _) =>
    .error (.error (.serialization
      s!"document refers to location {id} for its vector; resolve it through its collection"))

end Codec

end HeatherDb
