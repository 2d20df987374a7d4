/-
# Verification and what reads skip

`verify_collection` of `store.rs` beside the reads it speaks for, over tables
of arbitrary bytes: both decode the same records with the same decoders, but
a document stored by reference needs a location, and the two look for it in
different places. Verification asks whether a record lies under its key; a
read asks whether a location that loaded carries its id. And a record that
decodes is healthy to verification, whatever its id; loading builds an array
that has a place for it.

Key definitions: `RawStore`, `RawStore.verifyCollection`, `RawStore.load`,
`RawStore.listDocuments`, `Fits`, `SmallIds`, `Resolves`, `Agrees`.
Key theorems: `tames_decodeLocation`, `report_verifyCollection`,
`buildIdLookup_small`, `verify_counts_skipped_iff`.
-/
import HeatherDb.Assumed
import HeatherDb.Envelope
import HeatherDb.Arrays

namespace HeatherDb

open Narrow

/-- The text of an error. -/
def HeatherError.message : HeatherError → String
  | .dimensionMismatch expected got => s!"dimension mismatch: expected {expected}, got {got}"
  | .emptyMemory => "memory is empty: no locations stored"
  | .invalidConfig m => s!"invalid config: {m}"
  | .invalidInput m => s!"invalid input: {m}"
  | .storage m => s!"storage error: {m}"
  | .serialization m => s!"serialization error: {m}"
  | .conflict m => s!"conflict: {m}"
  | .corrupt m => s!"corrupt record: {m}"
  | .unsupportedFormat m => s!"unsupported format: {m}"
  | .hang => "hang"

/-- How many records of one kind decoded, and how. -/
structure RecordCounts where
  current : ℕ
  legacy : ℕ
  corrupt : ℕ
  unsupported : ℕ
deriving DecidableEq

namespace RecordCounts

def zero : RecordCounts := ⟨0, 0, 0, 0⟩

def bad (counts : RecordCounts) : ℕ := counts.corrupt + counts.unsupported

end RecordCounts

/-- One collection's records. -/
structure CollectionReport where
  collection : String
  locations : RecordCounts
  documents : RecordCounts
  problems : List String
deriving DecidableEq

/-- Damaged records listed per collection. -/
def maxProblems : ℕ := 20

/-- A store whose location and document tables hold bytes. -/
structure RawStore (F : Type) where
  /-- The other tables, and the precision. -/
  others : Store F
  locations : OrderedTable (Scoped ℕ ℕ) (List UInt8)
  documents : OrderedTable (Scoped ℕ ℕ) (List UInt8)

namespace Codec

/-- Reads of many records skip the one that does not decode. -/
def tolerate {α : Type} : Outcome α → Outcome (Option α)
  | .ok v => .ok (some v)
  | .error (.error (.corrupt _)) | .error (.error (.unsupportedFormat _)) => .ok none
  | .error e => .error e

/-- An engine's result as an outcome. -/
def lift {α : Type} : Except HeatherError α → Outcome α
  | .ok v => .ok v
  | .error e => .error (.error e)

end Codec

namespace Codec

open Bytes LeBytes Parser

/-! ### How decoding fails -/

/-- Stopped with an error that reads tolerate, or a panic. -/
def Stop.Tame : Stop → Prop
  | .error (.corrupt _) | .error (.unsupportedFormat _) | .panic _ => True
  | .error _ => False

/-- An outcome that is damage if it is no value. -/
def Tames {α : Type} (x : Outcome α) : Prop := ∀ e, x = .error e → e.Tame

theorem Tames.ok {α : Type} (a : α) : Tames (.ok a : Outcome α) := nofun

theorem Tames.corrupt {α : Type} (message : String) : Tames (corrupt message : Outcome α) :=
  fun _ h => Except.error.inj h ▸ trivial

theorem Tames.panicked {α : Type} (message : String) : Tames (panicked message : Outcome α) :=
  fun _ h => Except.error.inj h ▸ trivial

theorem Tames.bind {α β : Type} {x : Outcome α} {f : α → Outcome β} (hx : Tames x) (hf : ∀ a, Tames (f a)) :
    Tames (x >>= f) := by
  cases x with
  | ok a => exact hf a
  | error e =>
    intro e' h
    exact hx e' (Except.error.inj h ▸ rfl)

theorem Tames.ite {α : Type} {c : Prop} [Decidable c] {x y : Outcome α} (hx : Tames x) (hy : Tames y) :
    Tames (if c then x else y) := by
  split_ifs
  · exact hx
  · exact hy

theorem tames_index (bytes : List UInt8) (i : ℕ) : Tames (index bytes i) := by
  unfold index
  split
  · exact .ok _
  · exact .panicked _

theorem tames_slice (bytes : List UInt8) (lo hi : ℕ) : Tames (slice bytes lo hi) := by
  unfold slice
  split_ifs
  · exact .ok _
  · exact .panicked _

theorem tames_intoArray (n : ℕ) (bytes : List UInt8) : Tames (intoArray n bytes) := by
  unfold intoArray
  split_ifs
  · exact .ok _
  · exact .panicked _

theorem tames_precisionFrom (b : UInt8) : Tames (precisionFrom b) := by
  unfold precisionFrom
  split_ifs
  · exact .ok _
  · exact .ok _
  · exact .corrupt _

theorem tames_format (bytes : List UInt8) : Tames (format bytes) := by
  refine .ite (.ok _) ((tames_slice _ _ _).bind fun head => .ite (.ok _) (.ite (.corrupt _) ?_))
  exact (tames_index _ _).bind fun _ => (tames_index _ _).bind fun _ => (tames_index _ _).bind fun _ =>
    (tames_precisionFrom _).bind fun _ => .ok _

/-! ### How reading a payload fails -/

theorem stops_lift {α : Type} {x : Outcome α} (h : Tames x) : Stops Stop.Tame (liftM x : Reader α) := by
  intro s e he
  cases x with
  | ok a => cases he
  | error e' => exact Except.error.inj he ▸ h e' rfl

theorem tame_bytes (n : ℕ) : Stops Stop.Tame (Reader.bytes n) := by
  intro s e he
  unfold Reader.bytes splitAt at he
  split_ifs at he
  · exact Tames.corrupt _ e he
  · exact Tames.panicked _ e he

theorem tame_u32 : Stops Stop.Tame Reader.u32 :=
  (tame_bytes 4).bind fun _ => (stops_lift (tames_intoArray _ _)).bind fun _ => .pure _

theorem tame_u64 : Stops Stop.Tame Reader.u64 :=
  (tame_bytes 8).bind fun _ => (stops_lift (tames_intoArray _ _)).bind fun _ => .pure _

theorem tame_finish : Stops Stop.Tame Reader.finish := by
  intro s e he
  unfold Reader.finish at he
  split_ifs at he
  exact Tames.corrupt _ e he

theorem tame_u64s (n : ℕ) : Stops Stop.Tame (Reader.u64s n) := by
  unfold Reader.u64s
  split
  · exact fun _ e he => Tames.corrupt _ e he
  · exact (tame_bytes _).bind fun _ => .pure _

section Decoders

variable {F S : Type} [Narrow F S] [LeBytes F 8] [LeBytes S 4] (crates : Crates F S)

theorem tame_f64 : Stops Stop.Tame (Reader.f64 : Reader F) :=
  (tame_bytes 8).bind fun _ => (stops_lift (tames_intoArray _ _)).bind fun _ => .pure _

theorem tame_floats (n : ℕ) (p : Precision) : Stops Stop.Tame (Reader.floats n p : Reader (List F)) := by
  unfold Reader.floats
  split
  · exact fun _ e he => Tames.corrupt _ e he
  · exact (tame_bytes _).bind fun _ => .pure _

theorem tame_readLocation (kind : UInt8) (p : Precision) :
    Stops Stop.Tame (readLocation kind p : Reader (HardLocation F)) := by
  have hcounter : ∀ (d : ℕ) (address : List F), Stops Stop.Tame (readCounter kind d p address) := by
    intro d address
    unfold readCounter
    split_ifs
    · exact .pure _
    · exact tame_floats d p
  exact tame_u64.bind fun _ => tame_u32.bind fun _ => (tame_floats _ _).bind fun _ => (hcounter _ _).bind fun _ =>
    tame_f64.bind fun _ => tame_f64.bind fun _ => tame_u32.bind fun _ => (tame_u64s _).bind fun _ =>
    tame_finish.bind fun _ => .pure _

theorem tame_readDocument (kind : UInt8) (p : Precision) :
    Stops Stop.Tame (readDocument kind p : Reader (DocVector F × List UInt8)) := by
  have hvector : Stops Stop.Tame (readVector kind p : Reader (DocVector F)) := by
    unfold readVector
    split_ifs
    · exact tame_u64.bind fun _ => .pure _
    · exact tame_u32.bind fun _ => (tame_floats _ _).bind fun _ => .pure _
  exact hvector.bind fun _ => tame_u32.bind fun _ => (tame_bytes _).bind fun _ => tame_finish.bind fun _ => .pure _

omit [Narrow F S] [LeBytes F 8] [LeBytes S 4] in
theorem tames_openRecord (bytes kinds : List UInt8) : Tames (openRecord crates bytes kinds) := by
  refine (tames_index _ _).bind fun version => .ite (fun _ h => Except.error.inj h ▸ trivial) ?_
  refine (tames_index _ _).bind fun kind => .ite ((tames_index _ _).bind fun _ => .corrupt _) ?_
  refine (tames_index _ _).bind fun _ => (tames_precisionFrom _).bind fun _ => ?_
  refine (tames_slice _ _ _).bind fun _ => (tames_intoArray _ _).bind fun _ => ?_
  refine (tames_slice _ _ _).bind fun _ => (tames_intoArray _ _).bind fun _ => (tames_slice _ _ _).bind fun _ => ?_
  exact .ite (.corrupt _) (.ite (.corrupt _) (.ok _))

theorem tames_run' {α : Type} {m : Reader α} (h : Stops Stop.Tame m) (payload : List UInt8) :
    Tames (m.run' payload : Outcome α) := by
  intro e he
  refine h payload e ?_
  change (fun p => p.1) <$> m payload = .error e at he
  cases hm : m payload with
  | error e' =>
    rw [hm] at he
    exact congrArg Except.error (Except.error.inj he)
  | ok r =>
    rw [hm] at he
    cases he

omit [Narrow F S] [LeBytes F 8] [LeBytes S 4] in
theorem tames_byFormat {α : Type} (bytes kinds : List UInt8) {old : Outcome α} (hold : Tames old)
    {read : UInt8 → Precision → Reader α} (hread : ∀ kind p, Stops Stop.Tame (read kind p)) :
    Tames (byFormat crates bytes kinds old read) := by
  refine (tames_format bytes).bind fun fmt => ?_
  cases fmt with
  | legacy => exact hold
  | enveloped => exact (tames_openRecord crates bytes kinds).bind fun r => tames_run' (hread _ _) _

theorem tames_legacyError {α : Type} (what : String) (x : Except String α) : Tames (legacyError what x) := by
  cases x with
  | ok a => exact .ok a
  | error e => exact .corrupt _

/-- **Decoding fails with damage**: it is corrupt or of an unsupported
format. -/
theorem tames_decodeLocation (bytes : List UInt8) (p : Precision) :
    Tames (decodeLocation crates bytes p : Outcome (HardLocation F)) := by
  refine tames_byFormat crates bytes _ ?_ tame_readLocation
  exact (tames_legacyError _ _).bind fun loc => .ite (.corrupt _) (.ok _)

theorem tames_decodeDocumentParts (bytes : List UInt8) (p : Precision) :
    Tames (decodeDocumentParts crates bytes p : Outcome (DocVector F × List UInt8)) :=
  tames_byFormat crates bytes _ ((tames_legacyError _ _).bind fun _ => .ok _) tame_readDocument

variable [Scalar F]

/-- Damage is skipped, and nothing else stops. -/
theorem tolerate_eq {α : Type} {x : Outcome α} (ht : Tames x) (hg : Graceful x) : tolerate x = .ok x.toOption := by
  cases x with
  | ok a => rfl
  | error e =>
    have htame := ht e rfl
    have herror := hg e rfl
    cases e with
    | panic m => cases herror
    | error e => cases e <;> first | rfl | cases htame

end Decoders

end Codec

namespace RawStore

open Codec

variable {F S : Type} [Narrow F S] [LeBytes F 8] [LeBytes S 4] (crates : Crates F S)

/-! ### Verification -/

/-- Counts one record by how it decoded, and lists it if it is damaged and
there is room. -/
def count {α : Type} (acc : RecordCounts × List String) (what : String) (id : ℕ) (bytes : List UInt8)
    (decoded : Outcome α) : Outcome (RecordCounts × List String) :=
  match decoded with
  | .ok _ =>
    match format bytes with
    | .ok .legacy => .ok ({ acc.1 with legacy := acc.1.legacy + 1 }, acc.2)
    | .error (.panic m) => panicked m
    | _ => .ok ({ acc.1 with current := acc.1.current + 1 }, acc.2)
  | .error (.panic m) => panicked m
  | .error (.error e) =>
    let counts := match e with
      | .unsupportedFormat _ => { acc.1 with unsupported := acc.1.unsupported + 1 }
      | _ => { acc.1 with corrupt := acc.1.corrupt + 1 }
    .ok (counts, if acc.2.length < maxProblems then acc.2 ++ [s!"{what} {id}: {e.message}"] else acc.2)

/-- A document as verification decodes it: a reference must point at a
location of this collection. -/
def verifiedDocument (raw : RawStore F) (collectionId : ℕ) (value : List UInt8) :
    Outcome (DocVector F × List UInt8) :=
  match Codec.decodeDocumentParts crates value raw.others.precision with
  | .ok (.location location, metadata) =>
    if (raw.locations.get ⟨collectionId, location⟩).isNone then
      corrupt s!"refers to location {location}, which does not exist"
    else .ok (.location location, metadata)
  | other => other

/-- Decodes every stored location and document of a collection and counts
what is current, legacy, corrupt or unsupported. -/
def verifyCollection (raw : RawStore F) (name : String) (collectionId : ℕ) : Outcome CollectionReport := do
  let locations ← (raw.locations.under collectionId).entries.foldlM (fun acc e =>
    count acc "location" e.1 e.2 (Codec.decodeLocation crates e.2 raw.others.precision : Outcome (HardLocation F)))
    (RecordCounts.zero, [])
  let documents ← (raw.documents.under collectionId).entries.foldlM (fun acc e =>
    count acc "document" e.1 e.2 (raw.verifiedDocument crates collectionId e.2)) (RecordCounts.zero, locations.2)
  pure ⟨name, locations.1, documents.1, documents.2⟩

/-! ### Reads -/

/-- `load_all_locations` -/
def loadAllLocations (raw : RawStore F) (collectionId : ℕ) : Outcome (List (HardLocation F)) := do
  let locations ← (raw.locations.under collectionId).entries.mapM fun e =>
    Codec.tolerate (Codec.decodeLocation crates e.2 raw.others.precision)
  pure (locations.filterMap id)

/-- `read::build_id_lookup` on ids of `u64`, with entries of `u32`. An array of
more than `isize::MAX` bytes is not allocated; that of a length that wraps has no
place for the greatest id. -/
def buildIdLookup (locations : List (HardLocation F)) : Outcome (List (Option ℕ)) :=
  let len := ((locations.map (·.id)).foldl max 0 + 1) % 2 ^ 64
  if 2 ^ 63 ≤ 4 * len then panicked "capacity overflow"
  else if locations.any (len ≤ ·.id) then panicked "index out of bounds"
  else .ok (HeatherDb.buildIdLookup locations)

/-- `Collection::load` -/
def load [Scalar F] (raw : RawStore F) (collectionId : ℕ) (name : String) (config : EAMConfig F) :
    Outcome (Collection F S) := do
  let locations ← raw.loadAllLocations crates collectionId
  let nextId ← lift (raw.others.loadU64 collectionId "next_id" locations.length)
  let eta ← lift (raw.others.loadF64 collectionId "eta" config.eta0)
  let docNextId ← lift (raw.others.loadU64 collectionId "doc_next_id" 0)
  lift (Collection.checkDimension config locations)
  let idLookup ← buildIdLookup locations
  pure ⟨collectionId, name, { EAMInner.opened config locations nextId eta docNextId with idLookup := idLookup }⟩

/-- A document with its vector, resolved from its location when it is stored
by reference. -/
def resolveDocument (raw : RawStore F) (inner : EAMInner F S) (value : List UInt8) :
    Outcome (List F × List UInt8) := do
  match ← Codec.decodeDocumentParts crates value raw.others.precision with
  | (.inline vector, metadata) => .ok (vector, metadata)
  | (.location id, metadata) =>
    match inner.locationAddress id with
    | some address => .ok (address, metadata)
    | none => corrupt s!"document refers to location {id}, which does not exist"

/-- `list_documents` on a collection: those that decode. -/
def listDocuments (raw : RawStore F) (col : Collection F S) : Outcome (List (Document F)) := do
  lift (checkValid col.inner)
  let docs ← (raw.documents.under col.collectionId).entries.mapM fun e => do
    let resolved ← Codec.tolerate (raw.resolveDocument crates col.inner e.2)
    pure (resolved.map fun r => (e.1, r))
  pure (docs.filterMap id)

/-! ### What each of them finds -/

variable {raw : RawStore F} {collectionId : ℕ}

/-- A record that verification counts as corrupt or unsupported. -/
def Bad {α : Type} (decoded : Outcome α) : Prop := ¬decoded.isOk

instance {α : Type} (decoded : Outcome α) : Decidable (Bad decoded) := inferInstanceAs (Decidable (¬_))

/-- One record counts as bad or does not. -/
theorem count_ok {α : Type} {decoded : Outcome α} (hg : Graceful decoded) (acc : RecordCounts × List String)
    (what : String) (id : ℕ) (bytes : List UInt8) : ∃ acc', count acc what id bytes decoded = .ok acc' ∧
      acc'.1.bad = acc.1.bad + if Bad decoded then 1 else 0 := by
  unfold count
  cases decoded with
  | ok a =>
    have hgood : ¬Bad (.ok a : Outcome α) := fun h => h rfl
    rw [if_neg hgood]
    cases hf : format bytes with
    | ok f => cases f <;> exact ⟨_, rfl, rfl⟩
    | error e =>
      cases e with
      | error e => exact ⟨_, rfl, rfl⟩
      | panic m => exact (graceful_format bytes _ hf).elim
  | error e =>
    have hbad : Bad (.error e : Outcome α) := Bool.false_ne_true
    rw [if_pos hbad]
    cases e with
    | panic m => exact (hg _ rfl).elim
    | error e =>
      refine ⟨_, rfl, ?_⟩
      cases e <;> simp only [RecordCounts.bad] <;> omega

/-- A pass over records counts the bad ones. -/
theorem foldlM_count {α : Type} {f : ℕ × List UInt8 → Outcome α} (hg : ∀ e, Graceful (f e)) (what : String) :
    ∀ (entries : List (ℕ × List UInt8)) (acc : RecordCounts × List String), ∃ acc',
      entries.foldlM (fun acc e => count acc what e.1 e.2 (f e)) acc = .ok acc' ∧
        acc'.1.bad = acc.1.bad + entries.countP fun e => Bad (f e)
  | [], acc => ⟨acc, rfl, rfl⟩
  | e :: entries, acc => by
    obtain ⟨acc', hcount, hbad⟩ := count_ok (hg e) acc what e.1 e.2
    obtain ⟨acc'', hrest, hbad'⟩ := foldlM_count hg what entries acc'
    refine ⟨acc'', ?_, ?_⟩
    · rw [List.foldlM_cons, hcount]
      exact hrest
    · rw [hbad', hbad, List.countP_cons]
      simp only [decide_eq_true_eq]
      omega

theorem graceful_verifiedDocument (value : List UInt8) :
    Graceful (raw.verifiedDocument crates collectionId value) := by
  unfold verifiedDocument
  split
  · split_ifs
    · exact .corrupt _
    · exact .ok _
  · exact graceful_decodeDocumentParts crates value raw.others.precision

/-- **Verification reports** how many records it counted as bad. -/
theorem report_verifyCollection (raw : RawStore F) (name : String) (collectionId : ℕ) : ∃ report,
    raw.verifyCollection crates name collectionId = .ok report ∧
      report.locations.bad = (raw.locations.under collectionId).entries.countP (fun e =>
        Bad (Codec.decodeLocation crates e.2 raw.others.precision : Outcome (HardLocation F))) ∧
      report.documents.bad = (raw.documents.under collectionId).entries.countP (fun e =>
        Bad (raw.verifiedDocument crates collectionId e.2)) := by
  obtain ⟨locations, hlocations, hbad⟩ := foldlM_count
    (f := fun e => (Codec.decodeLocation crates e.2 raw.others.precision : Outcome (HardLocation F)))
    (fun e => graceful_decodeLocation crates e.2 _) "location" (raw.locations.under collectionId).entries
    (RecordCounts.zero, [])
  obtain ⟨documents, hdocuments, hbad'⟩ := foldlM_count
    (f := fun e => raw.verifiedDocument crates collectionId e.2)
    (fun e => graceful_verifiedDocument crates e.2) "document" (raw.documents.under collectionId).entries
    (RecordCounts.zero, locations.2)
  refine ⟨⟨name, locations.1, documents.1, documents.2⟩, ?_, ?_, ?_⟩
  · unfold verifyCollection
    rw [hlocations, ok_bind, hdocuments, ok_bind]
    rfl
  · exact hbad.trans (Nat.zero_add _)
  · exact hbad'.trans (Nat.zero_add _)

/-- The locations that decode. -/
def decoded (raw : RawStore F) (collectionId : ℕ) : List (HardLocation F) :=
  (raw.locations.under collectionId).entries.filterMap fun e =>
    (Codec.decodeLocation crates e.2 raw.others.precision : Outcome (HardLocation F)).toOption

/-- A location that decodes loads. -/
theorem loadAllLocations_ok (raw : RawStore F) (collectionId : ℕ) :
    raw.loadAllLocations crates collectionId = .ok (raw.decoded crates collectionId) := by
  unfold loadAllLocations decoded
  rw [mapM_ok fun e : ℕ × List UInt8 => tolerate_eq (tames_decodeLocation crates e.2 raw.others.precision)
    (graceful_decodeLocation crates e.2 raw.others.precision)]
  show Except.ok _ = _
  rw [List.filterMap_map]
  rfl

/-- A document is listed with its vector if it resolves. -/
theorem tames_resolveDocument (raw : RawStore F) (inner : EAMInner F S) (value : List UInt8) :
    Tames (raw.resolveDocument crates inner value) ∧ Graceful (raw.resolveDocument crates inner value) := by
  refine ⟨(tames_decodeDocumentParts crates value _).bind fun doc => ?_,
    (graceful_decodeDocumentParts crates value _).bind fun doc _ => ?_⟩
  · split
    · exact .ok _
    · split
      · exact .ok _
      · exact .corrupt _
  · split
    · exact .ok _
    · split
      · exact .ok _
      · exact .corrupt _

theorem listDocuments_ok (raw : RawStore F) {col : Collection F S} (hvalid : col.inner.valid = true) :
    raw.listDocuments crates col = .ok ((raw.documents.under col.collectionId).entries.filterMap fun e =>
      (raw.resolveDocument crates col.inner e.2).toOption.map fun r => (e.1, r)) := by
  have hlist : ∀ e : ℕ × List UInt8, (do
      let resolved ← Codec.tolerate (raw.resolveDocument crates col.inner e.2)
      pure (resolved.map fun r => (e.1, r)) : Outcome (Option (Document F))) =
      .ok ((raw.resolveDocument crates col.inner e.2).toOption.map fun r => (e.1, r)) := by
    intro e
    obtain ⟨htame, hgraceful⟩ := tames_resolveDocument crates raw col.inner e.2
    rw [tolerate_eq htame hgraceful]
    rfl
  unfold listDocuments
  rw [checkValid, if_pos hvalid]
  show (_ >>= fun docs => _) = _
  rw [mapM_ok hlist, ok_bind, List.filterMap_map]
  rfl

/-- Every document stored by reference finds under its key a record exactly
when a location that decodes has its id. -/
def Resolves (raw : RawStore F) (collectionId : ℕ) : Prop :=
  ∀ e ∈ (raw.documents.under collectionId).entries, ∀ id metadata,
    (Codec.decodeDocumentParts crates e.2 raw.others.precision : Outcome (DocVector F × List UInt8)) =
      .ok (.location id, metadata) →
    ((raw.locations.get ⟨collectionId, id⟩).isSome ↔ ∃ r ∈ (raw.locations.under collectionId).entries,
      ∃ loc, (Codec.decodeLocation crates r.2 raw.others.precision : Outcome (HardLocation F)) = .ok loc ∧ loc.id = id)

/-- Ids with a place in an array. -/
def SmallIds (locations : List (HardLocation F)) : Prop := ∀ loc ∈ locations, loc.id + 1 < 2 ^ 61

instance (locations : List (HardLocation F)) : Decidable (SmallIds locations) := by
  unfold SmallIds
  infer_instance

omit [LeBytes F 8] in
/-- The greatest id is small where all are. -/
theorem SmallIds.greatest {locations : List (HardLocation F)} (h : SmallIds locations) :
    (locations.map (·.id)).foldl max 0 + 1 < 2 ^ 61 := by
  refine List.foldlRecOn (motive := fun n => n + 1 < 2 ^ 61) _ max (by norm_num) fun n hn id hid => ?_
  obtain ⟨loc, hloc, rfl⟩ := List.mem_map.mp hid
  have hsmall := h loc hloc
  omega

omit [LeBytes F 8] in
/-- The lookup is built where ids are small, and else the thread panics. -/
theorem buildIdLookup_small (locations : List (HardLocation F)) :
    (SmallIds locations ∧ buildIdLookup locations = .ok (HeatherDb.buildIdLookup locations)) ∨
      ¬SmallIds locations ∧ ∃ m, buildIdLookup locations = panicked m := by
  unfold buildIdLookup
  set greatest := (locations.map (·.id)).foldl max 0
  have hle : ∀ loc ∈ locations, loc.id ≤ greatest := fun loc hloc => le_foldl_max (Or.inl (List.mem_map_of_mem hloc))
  dsimp only
  split_ifs with hbytes hplace
  · refine .inr ⟨fun hsmall => ?_, _, rfl⟩
    have hgreatest : greatest + 1 < 2 ^ 61 := hsmall.greatest
    omega
  · obtain ⟨loc, hloc, hout⟩ := List.any_eq_true.mp hplace
    have hout : (greatest + 1) % 2 ^ 64 ≤ loc.id := of_decide_eq_true hout
    refine .inr ⟨fun hsmall => ?_, _, rfl⟩
    have hgreatest : greatest + 1 < 2 ^ 61 := hsmall.greatest
    have hloc := hle loc hloc
    omega
  · refine .inl ⟨fun loc hloc => ?_, rfl⟩
    have hin : loc.id < (greatest + 1) % 2 ^ 64 := by
      by_contra! hout
      exact hplace (List.any_eq_true.mpr ⟨loc, hloc, decide_eq_true hout⟩)
    omega

variable [Scalar F]

/-- The rows beside the locations read as what they are, and the first location
has the dimension of the collection. -/
def Fits (raw : RawStore F) (collectionId : ℕ) (config : EAMConfig F) : Prop :=
  (raw.others.loadU64 collectionId "next_id" (raw.decoded crates collectionId).length).isOk ∧
    (raw.others.loadF64 collectionId "eta" config.eta0).isOk ∧ (raw.others.loadU64 collectionId "doc_next_id" 0).isOk ∧
    (Collection.checkDimension config (raw.decoded crates collectionId)).isOk

instance (collectionId : ℕ) (config : EAMConfig F) : Decidable (Fits crates raw collectionId config) := by
  unfold Fits
  infer_instance

/-- Loading is an error, or it is down to the ids. -/
theorem load_cases (raw : RawStore F) (collectionId : ℕ) (name : String) (config : EAMConfig F) :
    (¬Fits crates raw collectionId config ∧
        ∃ e, raw.load crates collectionId name config = (.error (.error e) : Outcome (Collection F S))) ∨
      Fits crates raw collectionId config ∧ ∃ nextId eta docNextId,
        raw.load crates collectionId name config = (buildIdLookup (raw.decoded crates collectionId) >>= fun idLookup =>
          .ok ⟨collectionId, name,
            { EAMInner.opened (S := S) config (raw.decoded crates collectionId) nextId eta docNextId with
              idLookup := idLookup }⟩) := by
  unfold load Fits
  rw [loadAllLocations_ok, ok_bind]
  cases raw.others.loadU64 collectionId "next_id" (raw.decoded crates collectionId).length with
  | error e => exact .inl ⟨fun h => Bool.noConfusion h.1, e, rfl⟩
  | ok nextId =>
    cases raw.others.loadF64 collectionId "eta" config.eta0 with
    | error e => exact .inl ⟨fun h => Bool.noConfusion h.2.1, e, rfl⟩
    | ok eta =>
      cases raw.others.loadU64 collectionId "doc_next_id" 0 with
      | error e => exact .inl ⟨fun h => Bool.noConfusion h.2.2.1, e, rfl⟩
      | ok docNextId =>
        cases Collection.checkDimension config (raw.decoded crates collectionId) with
        | error e => exact .inl ⟨fun h => Bool.noConfusion h.2.2.2, e, rfl⟩
        | ok _ => exact .inr ⟨⟨rfl, rfl, rfl, rfl⟩, nextId, eta, docNextId, rfl⟩

/-- What loads is every location that decodes. -/
theorem load_ok {name : String} {config : EAMConfig F} {col : Collection F S}
    (hload : raw.load crates collectionId name config = .ok col) : col.inner.valid = true ∧
      col.collectionId = collectionId ∧ Looks col.inner.locations col.inner.idLookup ∧
      col.inner.locations = raw.decoded crates collectionId := by
  rcases load_cases crates raw collectionId name config with ⟨-, e, heq⟩ | ⟨-, nextId, eta, docNextId, heq⟩
  · rw [heq] at hload
    cases hload
  · rw [heq] at hload
    rcases buildIdLookup_small (raw.decoded crates collectionId) with ⟨-, hlookup⟩ | ⟨-, m, hlookup⟩
    · rw [hlookup, ok_bind] at hload
      obtain rfl := Except.ok.inj hload
      exact ⟨rfl, rfl, looks_buildIdLookup _, rfl⟩
    · rw [hlookup] at hload
      cases hload

/-- The memory of what was loaded finds an id that a decoded location has. -/
theorem isSome_locationAddress {name : String} {config : EAMConfig F} {col : Collection F S}
    (hload : raw.load crates collectionId name config = .ok col) (id : ℕ) :
    (col.inner.locationAddress id).isSome ↔ ∃ r ∈ (raw.locations.under collectionId).entries, ∃ loc,
      (Codec.decodeLocation crates r.2 raw.others.precision : Outcome (HardLocation F)) = .ok loc ∧ loc.id = id := by
  obtain ⟨-, -, hlooks, hlocations⟩ := load_ok crates hload
  have hmem : ∀ loc, loc ∈ col.inner.locations ↔ ∃ r ∈ (raw.locations.under collectionId).entries,
      (Codec.decodeLocation crates r.2 raw.others.precision : Outcome (HardLocation F)) = .ok loc := by
    intro loc
    rw [hlocations, decoded, List.mem_filterMap]
    refine exists_congr fun r => and_congr_right fun _ => ?_
    cases (Codec.decodeLocation crates r.2 raw.others.precision : Outcome (HardLocation F)) with
    | error e => exact ⟨nofun, nofun⟩
    | ok loc' => exact Option.some_inj.trans (Iff.symm ⟨Except.ok.inj, congrArg _⟩)
  constructor
  · intro hsome
    obtain ⟨address, haddress⟩ := Option.isSome_iff_exists.mp hsome
    obtain ⟨loc, hloc, hid, -⟩ := mem_of_locationAddress haddress
    obtain ⟨r, hr, hdecoded⟩ := (hmem loc).mp hloc
    exact ⟨r, hr, loc, hdecoded, hid⟩
  · rintro ⟨r, hr, loc, hdecoded, rfl⟩
    obtain ⟨i, hi⟩ := hlooks.complete loc.id (List.mem_map_of_mem ((hmem loc).mpr ⟨r, hr, hdecoded⟩))
    have hplace := hlooks.sound loc.id i hi
    rw [List.getElem?_map] at hplace
    obtain ⟨found, hfound, hid⟩ := Option.map_eq_some_iff.mp hplace
    simp [EAMInner.locationAddress, hi, hfound, hid]

theorem map_ok_filterMap {α β : Type} (f : β → Outcome α) : ∀ l : List β,
    (l.filterMap fun e => (f e).toOption).map Except.ok = (l.filter fun e => ¬Bad (f e)).map f
  | [] => rfl
  | e :: l => by
    have ih := map_ok_filterMap f l
    cases hf : f e <;> simp_all [Except.toOption, Bad, Except.isOk, Except.toBool]

theorem keys_filterMap {α β : Type} (f : ℕ × β → Outcome α) : ∀ l : List (ℕ × β),
    (l.filterMap fun e => (f e).toOption.map fun r => (e.1, r)).map (·.1) = (l.filter fun e => (f e).isOk).map (·.1)
  | [] => rfl
  | e :: l => by
    have ih := keys_filterMap f l
    cases hf : f e <;> simp_all [Except.toOption, Except.isOk, Except.toBool]

/-- Two selections from entries of distinct keys have the same keys when they
select the same entries. -/
theorem keys_filter_iff {α : Type} {entries : List (ℕ × α)} (hnodup : (entries.map (·.1)).Nodup)
    (p q : ℕ × α → Bool) : (entries.filter p).map (·.1) = (entries.filter q).map (·.1) ↔ ∀ e ∈ entries, p e = q e := by
  constructor
  · intro h e he
    have hkey : ∀ f : ℕ × α → Bool, f e = true ↔ e.1 ∈ (entries.filter f).map (·.1) := by
      intro f
      constructor
      · exact fun hf => List.mem_map_of_mem (List.mem_filter.mpr ⟨he, hf⟩)
      · intro hmem
        obtain ⟨e', he', heq⟩ := List.mem_map.mp hmem
        obtain ⟨hin, hf⟩ := List.mem_filter.mp he'
        obtain rfl := List.inj_on_of_nodup_map hnodup hin he heq
        exact hf
    exact Bool.eq_iff_iff.mpr ((hkey p).trans (h ▸ (hkey q).symm))
  · intro h
    rw [List.filter_congr h]

/-- A document resolves unless verification would count it, but for a
reference that the two look up differently. -/
theorem resolves_iff {name : String} {config : EAMConfig F} {col : Collection F S}
    (hload : raw.load crates collectionId name config = .ok col) (value : List UInt8) :
    ((raw.resolveDocument crates col.inner value).isOk = true ↔
      ¬Bad (raw.verifiedDocument crates collectionId value)) ↔
      ∀ id metadata,
        (Codec.decodeDocumentParts crates value raw.others.precision : Outcome (DocVector F × List UInt8)) =
          .ok (.location id, metadata) → ((raw.locations.get ⟨collectionId, id⟩).isSome ↔
          ∃ r ∈ (raw.locations.under collectionId).entries, ∃ loc,
            (Codec.decodeLocation crates r.2 raw.others.precision : Outcome (HardLocation F)) = .ok loc ∧
              loc.id = id) := by
  unfold resolveDocument verifiedDocument Bad
  rw [not_not]
  cases hdecoded : (Codec.decodeDocumentParts crates value raw.others.precision :
      Outcome (DocVector F × List UInt8)) with
  | error e => exact ⟨fun _ _ _ h => (nomatch h), fun _ => Iff.rfl⟩
  | ok doc =>
    obtain ⟨vector, metadata⟩ := doc
    cases vector with
    | inline v => exact ⟨fun _ _ _ h => (nomatch h), fun _ => Iff.rfl⟩
    | location id =>
      have hread : ((Except.ok (DocVector.location id, metadata) >>= fun doc : DocVector F × List UInt8 =>
          match doc with
          | (.inline vector, metadata) => .ok (vector, metadata)
          | (.location id, metadata) =>
            match col.inner.locationAddress id with
            | some address => .ok (address, metadata)
            | none => corrupt s!"document refers to location {id}, which does not exist" : Outcome _).isOk = true) ↔
          (col.inner.locationAddress id).isSome := by
        rw [ok_bind]
        dsimp only
        cases col.inner.locationAddress id with
        | none => exact ⟨nofun, nofun⟩
        | some address => exact ⟨fun _ => rfl, fun _ => rfl⟩
      have hverify : ((if (raw.locations.get ⟨collectionId, id⟩).isNone then
          corrupt s!"refers to location {id}, which does not exist"
          else .ok (.location id, metadata) : Outcome (DocVector F × List UInt8)).isOk = true) ↔
          (raw.locations.get ⟨collectionId, id⟩).isSome := by
        cases raw.locations.get ⟨collectionId, id⟩ with
        | none => exact ⟨nofun, nofun⟩
        | some bytes => exact ⟨fun _ => rfl, fun _ => rfl⟩
      refine (iff_congr hread hverify).trans ⟨fun h id' md heq => ?_, fun h => ?_⟩
      · obtain ⟨hvector, -⟩ := Prod.mk.inj (Except.ok.inj heq)
        obtain rfl := DocVector.location.inj hvector
        exact h.symm.trans (isSome_locationAddress crates hload id)
      · exact (isSome_locationAddress crates hload id).trans (h id metadata rfl).symm

/-- A report of what reads of this collection find: the records it counts as bad
are the locations that were not loaded and the documents that are not listed. -/
def Reports (raw : RawStore F) (name : String) (col : Collection F S) : Prop :=
  ∃ report docs, raw.verifyCollection crates name col.collectionId = .ok report ∧
    raw.listDocuments crates col = .ok docs ∧
    report.locations.bad = (raw.locations.under col.collectionId).entries.countP (fun e =>
      Bad (Codec.decodeLocation crates e.2 raw.others.precision : Outcome (HardLocation F))) ∧
    report.documents.bad = (raw.documents.under col.collectionId).entries.countP (fun e =>
      Bad (raw.verifiedDocument crates col.collectionId e.2)) ∧
    col.inner.locations.map .ok = ((raw.locations.under col.collectionId).entries.filter fun e =>
      ¬Bad (Codec.decodeLocation crates e.2 raw.others.precision : Outcome (HardLocation F))).map
      (fun e => Codec.decodeLocation crates e.2 raw.others.precision) ∧
    docs.map (·.1) = ((raw.documents.under col.collectionId).entries.filter fun e =>
      ¬Bad (raw.verifiedDocument crates col.collectionId e.2)).map (·.1)

/-- Loading ends, with an error or with a collection that verification reports
on. -/
def Agrees (raw : RawStore F) (collectionId : ℕ) (name : String) (config : EAMConfig F) : Prop :=
  match (raw.load crates collectionId name config : Outcome (Collection F S)) with
  | .ok col => Reports crates raw name col
  | .error (.error _) => True
  | .error (.panic _) => False

/-- A report is right just where every reference resolves. -/
theorem reports_iff {name : String} {config : EAMConfig F} {col : Collection F S}
    (hload : raw.load crates collectionId name config = .ok col) :
    Reports crates raw name col ↔ Resolves crates raw collectionId := by
  obtain ⟨hvalid, rfl, -, hlocations⟩ := load_ok crates hload
  obtain ⟨report, hreport, hbad, hbad'⟩ := report_verifyCollection crates raw name col.collectionId
  have hdocs := listDocuments_ok crates raw hvalid
  have hlisted : ((raw.documents.under col.collectionId).entries.filterMap fun e =>
      (raw.resolveDocument crates col.inner e.2).toOption.map fun r => (e.1, r)).map (·.1) =
        ((raw.documents.under col.collectionId).entries.filter fun e =>
          ¬Bad (raw.verifiedDocument crates col.collectionId e.2)).map (·.1) ↔
      Resolves crates raw col.collectionId := by
    rw [keys_filterMap, keys_filter_iff (OrderedTable.keys_nodup _)]
    refine forall_congr' fun e => imp_congr_right fun _ => ?_
    rw [← resolves_iff crates hload, Bool.eq_iff_iff, decide_eq_true_iff]
  constructor
  · rintro ⟨_, docs, -, hdocs', -, -, -, hkeys⟩
    obtain rfl := Except.ok.inj (hdocs.symm.trans hdocs')
    exact hlisted.mp hkeys
  · intro hresolves
    refine ⟨report, _, hreport, hdocs, hbad, hbad', ?_, hlisted.mpr hresolves⟩
    rw [hlocations, decoded, map_ok_filterMap]

/-- **Verification counts what reads skip.** For any bytes in the two tables, it
counts as corrupt or unsupported exactly the locations that a load skips and the
documents that a listing skips if and only if the ids of the locations are small
and every reference resolves; where the rows do not fit, loading is an error. -/
theorem verify_counts_skipped_iff (raw : RawStore F) (collectionId : ℕ) (name : String) (config : EAMConfig F) :
    Agrees crates raw collectionId name config ↔ (Fits crates raw collectionId config →
      SmallIds (raw.decoded crates collectionId) ∧ Resolves crates raw collectionId) := by
  unfold Agrees
  rcases load_cases crates raw collectionId name config with ⟨hunfit, e, heq⟩ | ⟨hfits, nextId, eta, docNextId, heq⟩
  · rw [heq]
    exact iff_of_true trivial fun hfits => absurd hfits hunfit
  · rcases buildIdLookup_small (raw.decoded crates collectionId) with ⟨hsmall, hlookup⟩ | ⟨hlarge, m, hlookup⟩
    · rw [hlookup, ok_bind] at heq
      have hreports := reports_iff crates heq
      rw [heq]
      exact ⟨fun h _ => ⟨hsmall, hreports.mp h⟩, fun h => hreports.mpr (h hfits).2⟩
    · rw [heq, hlookup]
      exact iff_of_false id fun h => hlarge (h hfits).1

/-! ### Two tables -/

/-- A collection of one dimension over fixed-point numbers. -/
def fixedConfig : EAMConfig Fixed where
  d := 1
  l0 := 0
  k := 1
  eta0 := .ofNat 1
  lambda := .ofNat 1
  etaMin := .ofNat 1
  tauSplit := .ofNat 1
  tauMerge := .ofNat 2
  gamma := .ofNat 0
  tauDamp := .ofNat 1
  tauOverload := .ofNat 1
  beta := .ofNat 1
  tMax := 1
  epsilon := .ofNat 1
  neighborCap := 0
  numLandmarks := 0
  mdlGate := false
  competitive := false
  precision := .f64

/-- One document that refers to location 0, beside a record under that
location's key. -/
def referring (location : List UInt8) : RawStore Fixed where
  others := .empty .f64
  locations := OrderedTable.empty.put ⟨0, 0⟩ location
  documents := OrderedTable.empty.put ⟨0, 0⟩ ((Codec.encodeDocumentRef fixedCrates 0 [] .f64).toOption.getD [])

/-- A location of one dimension. -/
def oneLocation : HardLocation Fixed := { HardLocation.new 0 [.ofNat 1] with counter := [.ofNat 1] }

/-- How many locations load, how many documents are listed, and how many
verification counts. -/
def counted (raw : RawStore Fixed) : Outcome (ℕ × ℕ × ℕ) := do
  let col ← raw.load (S := Half) fixedCrates 0 "c" fixedConfig
  let report ← raw.verifyCollection fixedCrates "c" 0
  let docs ← raw.listDocuments fixedCrates col
  pure (col.inner.locations.length, docs.length, report.documents.bad)

theorem of_counted (raw : RawStore Fixed) (n : ℕ × ℕ × ℕ) (h : raw.counted.toOption = some n) :
    ∃ col : Collection Fixed Half, ∃ report docs, raw.load fixedCrates 0 "c" fixedConfig = .ok col ∧
      raw.verifyCollection fixedCrates "c" 0 = .ok report ∧ raw.listDocuments fixedCrates col = .ok docs ∧
      (col.inner.locations.length, docs.length, report.documents.bad) = n := by
  cases hcounted : raw.counted with
  | error e =>
    rw [hcounted] at h
    cases h
  | ok m =>
    rw [hcounted] at h
    obtain rfl := Option.some_inj.mp h
    simp only [counted, outcome_bind_ok_iff] at hcounted
    obtain ⟨col, hload, report, hreport, docs, hdocs, hn⟩ := hcounted
    exact ⟨col, report, docs, hload, hreport, hdocs, Except.ok.inj hn⟩

/-- **A damaged location** takes a document along that verification counts as
healthy: a truncated record lies under the key. -/
theorem damaged_target_unreported : ∃ col : Collection Fixed Half, ∃ report docs,
    (referring magic).load fixedCrates 0 "c" fixedConfig = .ok col ∧
    (referring magic).verifyCollection fixedCrates "c" 0 = .ok report ∧
    (referring magic).listDocuments fixedCrates col = .ok docs ∧
    ((referring magic).documents.under 0).entries.length = 1 ∧ docs.length = 0 ∧ report.documents.bad = 0 := by
  obtain ⟨col, report, docs, hload, hreport, hdocs, hn⟩ :=
    of_counted (referring magic) (0, 0, 0) (by decide +kernel)
  obtain ⟨-, hlisted⟩ := Prod.mk.inj hn
  obtain ⟨hnone, hbad⟩ := Prod.mk.inj hlisted
  exact ⟨col, report, docs, hload, hreport, hdocs, by decide +kernel, hnone, hbad⟩

/-- A store whose one document refers to a location that loads. -/
def healthy : RawStore Fixed :=
  referring ((Codec.encodeLocation fixedCrates oneLocation .f64).toOption.getD [])

/-- The same store with an id that no array has a place for. -/
def farOff : RawStore Fixed :=
  referring ((Codec.encodeLocation fixedCrates { oneLocation with id := 2 ^ 62 } .f64).toOption.getD [])

/-- One store is as it is reported, and of the other no read comes back. -/
theorem verify_counts_skipped_small : Agrees (S := Half) fixedCrates healthy 0 "c" fixedConfig ∧
    healthy.counted.toOption = some (1, 1, 0) ∧ ¬Agrees (S := Half) fixedCrates farOff 0 "c" fixedConfig := by
  refine ⟨?_, by decide +kernel, ?_⟩
  · rw [verify_counts_skipped_iff]
    refine fun _ => ⟨by decide +kernel, ?_⟩
    have hreferences : ∀ e ∈ (healthy.documents.under 0).entries,
        ((Codec.decodeDocumentParts fixedCrates e.2 healthy.others.precision).toOption.bind fun doc =>
          match doc.1 with
          | .location id => some id
          | .inline _ => none) = some 0 := by decide +kernel
    have htarget : ∃ r ∈ (healthy.locations.under 0).entries,
        (Codec.decodeLocation fixedCrates r.2 healthy.others.precision).toOption.map (·.id) = some 0 := by
      decide +kernel
    intro e he id metadata hdecoded
    have hid := hreferences e he
    rw [hdecoded] at hid
    obtain rfl : id = 0 := Option.some_inj.mp hid
    refine iff_of_true (by decide +kernel) ?_
    obtain ⟨r, hr, hloc⟩ := htarget
    obtain ⟨loc, hsome, hzero⟩ := Option.map_eq_some_iff.mp hloc
    refine ⟨r, hr, loc, ?_, hzero⟩
    cases hdecode : Codec.decodeLocation fixedCrates r.2 healthy.others.precision with
    | error e =>
      rw [hdecode] at hsome
      cases hsome
    | ok loc' =>
      rw [hdecode] at hsome
      exact congrArg _ (Option.some_inj.mp hsome)
  · rw [verify_counts_skipped_iff]
    intro hcond
    have hlarge : ¬SmallIds (farOff.decoded fixedCrates 0) := by decide +kernel
    have hfits : Fits fixedCrates farOff 0 fixedConfig := by decide +kernel
    exact hlarge (hcond hfits).1

end RawStore

end HeatherDb
