/-
# What an encoder writes decodes

The bytes of a record open, and its payload is read part by part as it was
written, so that decoding what an encoder wrote is decoding the record of
`Store` that it stands for: an f64 record gives its value back and an f32
record the value with every coordinate rounded, once and for all.

Key definitions: `record`, `locationSize`, `EqualLocation`, `rounded`.
Key theorems: `opens_record`, `decode_encodeLocation`, `decode_encodeDocument`,
`codec_round_trip`.
-/
import HeatherDb.Assumed
import HeatherDb.Envelope

namespace HeatherDb

namespace Codec

open Bytes Narrow Scalar LeBytes Parser

section Record

variable {F S : Type} (crates : Crates F S)

/-- The bytes of a record. -/
def record (kind : UInt8) (p : Precision) (payload : List UInt8) : List UInt8 :=
  magic ++ [recordVersion, kind, precisionByte p, 0] ++ toLe 4 payload.length ++
    toLe 4 (crates.crc32 payload).toNat ++ payload

theorem lenU32_ok_iff {n m : ℕ} : lenU32 n = .ok m ↔ n < 2 ^ 32 ∧ m = n := by
  unfold lenU32
  by_cases h : n < 2 ^ 32
  · rw [if_pos h]
    exact ⟨fun e => ⟨h, (Except.ok.inj e).symm⟩, fun e => e.2 ▸ rfl⟩
  · rw [if_neg h]
    exact ⟨nofun, fun e => absurd e.1 h⟩

/-- An envelope is written around every payload whose length fits. -/
theorem envelope_ok_iff {kind : UInt8} {p : Precision} {payload bytes : List UInt8} :
    envelope crates kind p payload = .ok bytes ↔
      payload.length < 2 ^ 32 ∧ bytes = record crates kind p payload := by
  unfold envelope
  rw [outcome_bind_ok_iff]
  constructor
  · intro h
    obtain ⟨len, hlen, h⟩ := h
    obtain ⟨hlt, rfl⟩ := lenU32_ok_iff.mp hlen
    exact ⟨hlt, (Except.ok.inj h).symm⟩
  · intro h
    obtain ⟨hlt, rfl⟩ := h
    exact ⟨_, lenU32_ok_iff.mpr ⟨hlt, rfl⟩, rfl⟩

theorem drop_record (kind : UInt8) (p : Precision) (payload : List UInt8) :
    (record crates kind p payload).drop headerLen = payload := rfl

theorem length_record (kind : UInt8) (p : Precision) (payload : List UInt8) :
    (record crates kind p payload).length = headerLen + payload.length := by
  simp only [record, List.length_append, length_toLe]
  show 4 + 4 + 4 + 4 + payload.length = 16 + payload.length
  omega

/-- **A record that was written opens.** -/
theorem opens_record {kind : UInt8} {p : Precision} {payload kinds : List UInt8}
    (hfits : payload.length < 2 ^ 32) (hkind : kind ∈ kinds) :
    Opens crates (record crates kind p payload) kinds kind p where
  begins := rfl
  version := rfl
  sort := rfl
  precision := rfl
  asked := hkind
  long := by
    rw [length_record]
    omega
  length := by
    have hlt : payload.length < 256 ^ 4 := hfits
    rw [drop_record]
    exact (ofLe_toLe hlt).symm
  crc := by
    have hlt : (crates.crc32 payload).toNat < 256 ^ 4 := (crates.crc32 payload).toNat_lt
    rw [drop_record]
    exact (ofLe_toLe hlt).symm

end Record

section Payload

variable {F S : Type} [Narrow F S] [LeBytes S 4]

/-! ### A payload, as it was written -/

theorem length_putFloats [LeBytes F 8] (v : List F) (p : Precision) : (putFloats v p).length = v.length * width p := by
  cases p
  · exact length_flatMap_width length_toLeBytes v
  · exact length_flatMap_width (fun x => length_toLeBytes (toF32 x)) v

/-- The floats of a vector come back, rounded once where the record is f32. -/
theorem floatsOf_putFloats [LeBytes F 8] (v : List F) (p : Precision) :
    (Reader.floatsOf p (putFloats v p) : List F) = atPrecision p v := by
  cases p
  · show (chunks 8 (v.flatMap toLeBytes)).map fromLeBytes = v
    rw [chunks_flatMap (by decide) length_toLeBytes, List.map_map]
    exact (List.map_congr_left fun x _ => from_toLeBytes x).trans (List.map_id v)
  · show (chunks 4 (v.flatMap fun x => toLeBytes (toF32 x))).map (fun b => toF64 (fromLeBytes b)) =
      v.map fun x => toF64 (toF32 x)
    rw [chunks_flatMap (by decide) fun x => length_toLeBytes (toF32 x), List.map_map]
    exact List.map_congr_left fun x _ => congrArg toF64 (from_toLeBytes (toF32 x))

theorem reads_floats [LeBytes F 8] {v : List F} {n : ℕ} (hlen : v.length = n) (hn : n < 2 ^ 32) (p : Precision) :
    Reads (Reader.floats n p) (putFloats v p) (atPrecision p v) := by
  have h := (takes_floats (F := F) hn p).reads_of ((length_putFloats v p).trans (by rw [hlen]))
  rwa [floatsOf_putFloats] at h

theorem reads_f64 [LeBytes F 8] (x : F) : Reads (Reader.f64 : Reader F) (toLeBytes x) x := by
  have h := (takes_f64 (F := F)).reads_of (length_toLeBytes x)
  rwa [from_toLeBytes] at h

variable [Scalar F]

theorem reads_u32 {n : ℕ} (h : n < 2 ^ 32) : Reads Reader.u32 (toLe 4 n) n := by
  have hr := takes_u32.reads_of (length_toLe 4 n)
  rwa [ofLe_toLe h] at hr

theorem reads_u64 {n : ℕ} (h : n < 2 ^ 64) : Reads Reader.u64 (toLe 8 n) n := by
  have hr := takes_u64.reads_of (length_toLe 8 n)
  rwa [ofLe_toLe h] at hr

theorem reads_u64s {l : List ℕ} (hn : l.length < 2 ^ 32) (hl : ∀ n ∈ l, n < 2 ^ 64) :
    Reads (Reader.u64s l.length) (l.flatMap (toLe 8)) l := by
  have h := (takes_u64s hn).reads_of (length_flatMap_width (length_toLe 8) l)
  have hback : Reader.u64sOf (l.flatMap (toLe 8)) = l := by
    unfold Reader.u64sOf
    rw [chunks_flatMap (by decide) (length_toLe 8), List.map_map]
    exact (List.map_congr_left fun n hmem => ofLe_toLe (hl n hmem)).trans (List.map_id l)
  rwa [hback] at h

theorem reads_bytes {bs : List UInt8} {n : ℕ} (h : bs.length = n) : Reads (Reader.bytes n) bs bs :=
  (takes_bytes n).reads_of h

/-- A location and its neighbors have ids of 64 bits. -/
structure InU64 (loc : HardLocation F) : Prop where
  id : loc.id < 2 ^ 64
  neighbors : ∀ n ∈ loc.neighbors, n < 2 ^ 64

/-- The capacity `encode_location` reserves. -/
def locationSize (loc : HardLocation F) (p : Precision) : ℕ :=
  8 + 4 + (if vecEq loc.counter loc.address then 1 else 2) * loc.address.length * width p + 16 + 4 +
    8 * loc.neighbors.length

theorem length_locationPayload [LeBytes F 8] {loc : HardLocation F} (h : loc.address.length = loc.counter.length)
    (p : Precision) (d n : ℕ) :
    (locationPayload loc p (vecEq loc.counter loc.address) d n).length = locationSize loc p := by
  unfold locationPayload locationSize
  split_ifs
  · simp only [List.length_append, length_toLe, length_putFloats, length_toLeBytes, List.length_nil,
      length_flatMap_width (length_toLe 8), Nat.one_mul]
    omega
  · simp only [List.length_append, length_toLe, length_putFloats, length_toLeBytes,
      length_flatMap_width (length_toLe 8), ← h, Nat.mul_assoc]
    omega

/-- The kind a location is written at. -/
def kindOf (loc : HardLocation F) : UInt8 :=
  if vecEq loc.counter loc.address then kindPlainLocation else kindLocation

theorem lengths_of_size {loc : HardLocation F} {p : Precision} (h : locationSize loc p < 2 ^ 32) :
    loc.address.length < 2 ^ 32 ∧ loc.neighbors.length < 2 ^ 32 := by
  unfold locationSize at h
  have hv : 0 < (if vecEq loc.counter loc.address then 1 else 2) * width p := by
    cases p <;> split_ifs <;> decide
  have hle := Nat.le_mul_of_pos_left loc.address.length hv
  rw [Nat.mul_right_comm] at h
  exact ⟨by omega, by omega⟩

/-- **What `encode_location` writes**: the record, when the lengths fit. -/
theorem encodeLocation_ok_iff [LeBytes F 8] (crates : Crates F S) {loc : HardLocation F} {p : Precision}
    {bytes : List UInt8} : encodeLocation crates loc p = .ok bytes ↔
      loc.address.length = loc.counter.length ∧ locationSize loc p < 2 ^ 32 ∧
        bytes = record crates (kindOf loc) p (locationPayload loc p (vecEq loc.counter loc.address)
          loc.address.length loc.neighbors.length) := by
  unfold encodeLocation
  by_cases hlen : loc.address.length = loc.counter.length
  · rw [if_neg (not_not.mpr hlen)]
    simp only [outcome_bind_ok_iff, lenU32_ok_iff]
    constructor
    · intro h
      obtain ⟨_, ⟨hd, rfl⟩, _, ⟨hn, rfl⟩, h⟩ := h
      have h := (envelope_ok_iff crates).mp h
      rw [length_locationPayload hlen] at h
      exact ⟨hlen, h⟩
    · intro h
      obtain ⟨-, hfits, rfl⟩ := h
      obtain ⟨hd, hn⟩ := lengths_of_size hfits
      refine ⟨_, ⟨hd, rfl⟩, _, ⟨hn, rfl⟩, (envelope_ok_iff crates).mpr ⟨?_, rfl⟩⟩
      rwa [length_locationPayload hlen]
  · rw [if_pos hlen]
    exact ⟨nofun, fun h => absurd h.1 hlen⟩

theorem reads_counter [LeBytes F 8] (loc : HardLocation F) (p : Precision)
    (hlen : loc.address.length = loc.counter.length) (hd : loc.address.length < 2 ^ 32) (address : List F) :
    Reads (readCounter (kindOf loc) loc.address.length p address)
      (if vecEq loc.counter loc.address then [] else putFloats loc.counter p)
      (if vecEq loc.counter loc.address then address else atPrecision p loc.counter) := by
  unfold readCounter kindOf
  by_cases h : vecEq loc.counter loc.address
  · simp only [h, if_true]
    exact Reads.pure address
  · have hkind : kindLocation ≠ kindPlainLocation := by decide
    simp only [h, if_false, hkind, Bool.false_eq_true]
    exact reads_floats hlen.symm hd p

/-- The location a record gives back. -/
def readBack (p : Precision) (loc : HardLocation F) : HardLocation F :=
  { loc with
    address := atPrecision p loc.address
    counter := if vecEq loc.counter loc.address then atPrecision p loc.address
      else atPrecision p loc.counter }

/-- A location's payload is read part by part. -/
theorem reads_location [LeBytes F 8] {loc : HardLocation F} (p : Precision) (h64 : InU64 loc)
    (hlen : loc.address.length = loc.counter.length) (hd : loc.address.length < 2 ^ 32)
    (hn : loc.neighbors.length < 2 ^ 32) :
    readLocation (kindOf loc) p (locationPayload loc p (vecEq loc.counter loc.address)
      loc.address.length loc.neighbors.length) = .ok (readBack p loc, []) := by
  unfold readLocation locationPayload
  simp only [List.append_assoc]
  refine (reads_u64 h64.id).andThen ?_
  refine (reads_u32 hd).andThen ?_
  refine (reads_floats rfl hd p).andThen ?_
  refine (reads_counter loc p hlen hd _).andThen ?_
  refine (reads_f64 loc.writeCount).andThen ?_
  refine (reads_f64 loc.surpriseMass).andThen ?_
  refine (reads_u32 hn).andThen ?_
  exact (reads_u64s hn h64.neighbors).atEnd rfl

theorem kindOf_mem (loc : HardLocation F) : kindOf loc ∈ [kindLocation, kindPlainLocation] := by
  unfold kindOf
  split_ifs <;> simp

/-- **Decoding what `encode_location` wrote** is decoding the record it
stands for, whatever precision the reader assumes. -/
theorem decode_encodeLocation [LeBytes F 8] (crates : Crates F S) {loc : HardLocation F} {p : Precision}
    {bytes : List UInt8} (h64 : InU64 loc) (henc : encodeLocation crates loc p = .ok bytes)
    (legacy : Precision) : decodeLocation crates bytes legacy = .ok (readBack p loc) := by
  obtain ⟨hlen, hfits, rfl⟩ := (encodeLocation_ok_iff crates).mp henc
  obtain ⟨hd, hn⟩ := lengths_of_size hfits
  have hread := reads_location p h64 hlen hd hn
  refine decodeLocation_of_opens crates ?_ hread
  exact opens_record crates (by rwa [length_locationPayload hlen]) (kindOf_mem loc)

/-- The record of `Store` stands for the bytes: they decode to the same location. -/
theorem decode_encodeLocation_record [LeBytes F 8] (crates : Crates F S) {loc : HardLocation F} {p : Precision}
    {bytes : List UInt8} (h64 : InU64 loc) (henc : encodeLocation crates loc p = .ok bytes)
    (legacy : Precision) : ∃ loc', decodeLocation crates bytes legacy = .ok loc' ∧
      HeatherDb.decodeLocation (HeatherDb.encodeLocation p loc) = .ok loc' := by
  refine ⟨_, decode_encodeLocation crates h64 henc legacy, ?_⟩
  obtain ⟨hlen, -, -⟩ := (encodeLocation_ok_iff crates).mp henc
  unfold HeatherDb.encodeLocation readBack
  split_ifs
  · rfl
  · exact if_pos (by rw [length_atPrecision, length_atPrecision, hlen])

/-! ### Documents -/

/-- The capacity `encode_document` reserves. -/
def documentSize (vector : List F) (metadata : List UInt8) (p : Precision) : ℕ :=
  4 + vector.length * width p + 4 + metadata.length

/-- The capacity `encode_document_ref` reserves. -/
def documentRefSize (metadata : List UInt8) : ℕ := 8 + 4 + metadata.length

omit [Scalar F] in
theorem encodeDocument_ok_iff [LeBytes F 8] (crates : Crates F S) {vector : List F} {metadata bytes : List UInt8}
    {p : Precision} :
    encodeDocument crates vector metadata p = .ok bytes ↔ documentSize vector metadata p < 2 ^ 32 ∧
      bytes = record crates kindDocument p
        (toLe 4 vector.length ++ putFloats vector p ++ toLe 4 metadata.length ++ metadata) := by
  have hsize : (toLe 4 vector.length ++ putFloats vector p ++ toLe 4 metadata.length ++ metadata).length =
      documentSize vector metadata p := by
    simp only [List.length_append, length_toLe, length_putFloats, documentSize]
  unfold encodeDocument
  simp only [outcome_bind_ok_iff, lenU32_ok_iff, envelope_ok_iff]
  constructor
  · intro h
    obtain ⟨_, ⟨-, rfl⟩, _, ⟨-, rfl⟩, hfits, rfl⟩ := h
    exact ⟨hsize ▸ hfits, rfl⟩
  · intro h
    obtain ⟨hfits, rfl⟩ := h
    have hd := Nat.le_mul_of_pos_right vector.length (width_pos p)
    rw [← hsize] at hfits
    unfold documentSize at hsize
    exact ⟨_, ⟨by omega, rfl⟩, _, ⟨by omega, rfl⟩, hfits, rfl⟩

omit [Scalar F] [Narrow F S] [LeBytes S 4] in
theorem encodeDocumentRef_ok_iff (crates : Crates F S) {location : ℕ} {metadata bytes : List UInt8}
    {p : Precision} :
    encodeDocumentRef crates location metadata p = .ok bytes ↔ documentRefSize metadata < 2 ^ 32 ∧
      bytes = record crates kindDocumentRef p (toLe 8 location ++ toLe 4 metadata.length ++ metadata) := by
  have hsize : (toLe 8 location ++ toLe 4 metadata.length ++ metadata).length = documentRefSize metadata := by
    simp only [List.length_append, length_toLe, documentRefSize]
  unfold encodeDocumentRef
  simp only [outcome_bind_ok_iff, lenU32_ok_iff, envelope_ok_iff]
  constructor
  · intro h
    obtain ⟨_, ⟨-, rfl⟩, hfits, rfl⟩ := h
    exact ⟨hsize ▸ hfits, rfl⟩
  · intro h
    obtain ⟨hfits, rfl⟩ := h
    rw [← hsize] at hfits
    unfold documentRefSize at hsize
    exact ⟨_, ⟨by omega, rfl⟩, hfits, rfl⟩

omit [Scalar F] in
/-- A document's payload is read part by part. -/
theorem reads_document [LeBytes F 8] {vector : List F} {metadata : List UInt8} {p : Precision}
    (hfits : documentSize vector metadata p < 2 ^ 32) :
    readDocument kindDocument p
      (toLe 4 vector.length ++ putFloats vector p ++ toLe 4 metadata.length ++ metadata) =
        .ok ((.inline (atPrecision p vector), metadata), []) := by
  have hle := Nat.le_mul_of_pos_right vector.length (width_pos p)
  unfold documentSize at hfits
  have hkind : kindDocument ≠ kindDocumentRef := by decide
  unfold readDocument readVector
  rw [if_neg hkind]
  simp only [List.append_assoc, bind_assoc, pure_bind]
  refine (reads_u32 (by omega)).andThen ?_
  refine (reads_floats rfl (by omega) p).andThen ?_
  refine (reads_u32 (by omega)).andThen ?_
  exact (reads_bytes rfl).atEnd rfl

omit [Scalar F] in
theorem reads_documentRef [LeBytes F 8] {location : ℕ} {metadata : List UInt8} (p : Precision) (h64 : location < 2 ^ 64)
    (hfits : documentRefSize metadata < 2 ^ 32) :
    (readDocument kindDocumentRef p (toLe 8 location ++ toLe 4 metadata.length ++ metadata) :
      Outcome ((DocVector F × List UInt8) × List UInt8)) = .ok ((.location location, metadata), []) := by
  unfold documentRefSize at hfits
  unfold readDocument readVector
  rw [if_pos rfl]
  simp only [List.append_assoc, bind_assoc, pure_bind]
  refine (reads_u64 h64).andThen ?_
  refine (reads_u32 (by omega)).andThen ?_
  exact (reads_bytes rfl).atEnd rfl

omit [Scalar F] in
/-- The record of a document opens. -/
theorem encodeDocument_opens [LeBytes F 8] (crates : Crates F S) {vector : List F} {metadata : List UInt8}
    {p : Precision} (hfits : documentSize vector metadata p < 2 ^ 32) :
    Opens crates (record crates kindDocument p
      (toLe 4 vector.length ++ putFloats vector p ++ toLe 4 metadata.length ++ metadata))
      [kindDocument, kindDocumentRef] kindDocument p := by
  refine opens_record crates ?_ (by decide)
  simp only [List.length_append, length_toLe, length_putFloats]
  exact hfits

omit [Scalar F] [Narrow F S] [LeBytes S 4] in
theorem encodeDocumentRef_opens (crates : Crates F S) (location : ℕ) {metadata : List UInt8} (p : Precision)
    (hfits : documentRefSize metadata < 2 ^ 32) :
    Opens crates (record crates kindDocumentRef p (toLe 8 location ++ toLe 4 metadata.length ++ metadata))
      [kindDocument, kindDocumentRef] kindDocumentRef p := by
  refine opens_record crates ?_ (by decide)
  simp only [List.length_append, length_toLe]
  exact hfits

omit [Scalar F] in
/-- **Decoding what `encode_document` wrote.** -/
theorem decode_encodeDocument [LeBytes F 8] (crates : Crates F S) {vector : List F} {metadata bytes : List UInt8}
    {p : Precision} (henc : encodeDocument crates vector metadata p = .ok bytes) (legacy : Precision) :
    decodeDocumentParts crates bytes legacy = .ok (.inline (atPrecision p vector), metadata) := by
  obtain ⟨hfits, rfl⟩ := (encodeDocument_ok_iff crates).mp henc
  exact decodeDocumentParts_of_opens crates (encodeDocument_opens crates hfits) (reads_document hfits)

omit [Scalar F] in
/-- **Decoding what `encode_document_ref` wrote.** -/
theorem decode_encodeDocumentRef [LeBytes F 8] (crates : Crates F S) {location : ℕ} {metadata bytes : List UInt8}
    {p : Precision} (h64 : location < 2 ^ 64) (henc : encodeDocumentRef crates location metadata p = .ok bytes)
    (legacy : Precision) :
    decodeDocumentParts crates bytes legacy = .ok (.location location, metadata) := by
  obtain ⟨hfits, rfl⟩ := (encodeDocumentRef_ok_iff crates).mp henc
  exact decodeDocumentParts_of_opens crates (encodeDocumentRef_opens crates location p hfits)
    (reads_documentRef p h64 hfits)

/-! ### Equality of values -/

/-- Vectors of one length, equal coordinate by coordinate. -/
abbrev EqualVec (v w : List F) : Prop := List.Forall₂ EqualOrNan v w

theorem EqualVec.of_same {v w : List F} (h : SameVec v w) : EqualVec v w :=
  h.imp fun _ _ => EqualOrNan.of_same

theorem EqualVec.refl (v : List F) : EqualVec v v := .of_same (.refl v)

theorem EqualVec.trans {u v w : List F} (h : EqualVec u v) (h' : EqualVec v w) : EqualVec u w := by
  induction h generalizing w with
  | nil => exact h'
  | cons hxy _ ih =>
    cases h' with
    | cons hyz h' => exact .cons (hxy.trans hyz) (ih h')

/-- The same location, its vectors equal. -/
structure EqualLocation (a b : HardLocation F) : Prop where
  id : a.id = b.id
  address : EqualVec a.address b.address
  counter : EqualVec a.counter b.counter
  writeCount : a.writeCount = b.writeCount
  neighbors : a.neighbors = b.neighbors
  surpriseMass : a.surpriseMass = b.surpriseMass

theorem EqualLocation.of_same {a b : HardLocation F} (h : SameLocation a b) : EqualLocation a b where
  id := h.id
  address := .of_same (h.address ▸ SameVec.refl _)
  counter := .of_same h.counter
  writeCount := h.writeCount
  neighbors := h.neighbors
  surpriseMass := h.surpriseMass

theorem EqualLocation.refl (a : HardLocation F) : EqualLocation a a := .of_same (.refl a)

/-- A location with every coordinate rounded once. -/
def rounded (loc : HardLocation F) : HardLocation F :=
  { loc with address := atPrecision .f32 loc.address, counter := atPrecision .f32 loc.counter }

omit [LeBytes S 4] in
theorem readBack_f64 (loc : HardLocation F) : EqualLocation (readBack .f64 loc) loc where
  id := rfl
  address := .refl _
  counter := by
    unfold readBack
    split_ifs with h
    · exact .of_same (sameVec_of_vecEq h).symm
    · exact .refl _
  writeCount := rfl
  neighbors := rfl
  surpriseMass := rfl

theorem vecEq_cons (x y : F) (v w : List F) : vecEq (x :: v) (y :: w) = (eq x y && vecEq v w) := by
  simp only [vecEq, List.length_cons, List.zipWith_cons_cons, List.all_cons, id_eq, Nat.add_right_cancel_iff]
  exact Bool.and_left_comm _ _ _

/-- What is `==` to a vector has no component that is not a number. -/
theorem vecEq_right_self {v w : List F} (h : vecEq v w = true) : vecEq w w = true := by
  induction v generalizing w with
  | nil =>
    cases w with
    | nil => rfl
    | cons => simp [vecEq] at h
  | cons x v ih =>
    cases w with
    | nil => simp [vecEq] at h
    | cons y w =>
      rw [vecEq_cons, Bool.and_eq_true] at h ⊢
      exact ⟨eq_trans (eq_symm h.1) h.1, ih h.2⟩

omit [LeBytes S 4] in
theorem counter_readBack {p : Precision} {loc : HardLocation F}
    (h : loc.address.length = loc.counter.length) :
    (readBack p loc).address.length = (readBack p loc).counter.length := by
  unfold readBack
  split_ifs
  · rfl
  · exact (length_atPrecision p loc.address).trans (h.trans (length_atPrecision p loc.counter).symm)

section Narrow

variable [IEEENarrow F]

omit [LeBytes S 4] in
/-- Vectors that are `==` stay so when they are rounded. -/
theorem vecEq_rounded {v w : List F} (h : vecEq v w = true) :
    vecEq (atPrecision .f32 v) (atPrecision .f32 w) = true := by
  induction v generalizing w with
  | nil =>
    cases w with
    | nil => rfl
    | cons => simp [vecEq] at h
  | cons x v ih =>
    cases w with
    | nil => simp [vecEq] at h
    | cons y w =>
      rw [vecEq_cons, Bool.and_eq_true] at h
      show vecEq (toF64 (toF32 x) :: atPrecision .f32 v) (toF64 (toF32 y) :: atPrecision .f32 w) = true
      rw [vecEq_cons, Bool.and_eq_true]
      exact ⟨IEEENarrow.round_eq h.1, ih h.2⟩

omit [LeBytes S 4] in
/-- Rounding twice is rounding once. -/
theorem rounded_rounded (v : List F) :
    EqualVec (atPrecision .f32 (atPrecision .f32 v)) (atPrecision .f32 v) := by
  induction v with
  | nil => exact .nil
  | cons x v ih => exact .cons (IEEENarrow.narrow_widen (toF32 x)) ih

omit [LeBytes S 4] in
theorem readBack_f32 (loc : HardLocation F) : EqualLocation (readBack .f32 loc) (rounded loc) where
  id := rfl
  address := .refl _
  counter := by
    unfold readBack rounded
    split_ifs with h
    · exact .of_same (sameVec_of_vecEq (vecEq_rounded h)).symm
    · exact .refl _
  writeCount := rfl
  neighbors := rfl
  surpriseMass := rfl

omit [LeBytes S 4] in
/-- **What was read back at f32 reads back as it is.** -/
theorem readBack_readBack (loc : HardLocation F) :
    EqualLocation (readBack .f32 (readBack .f32 loc)) (readBack .f32 loc) where
  id := rfl
  address := rounded_rounded loc.address
  counter := by
    by_cases h : vecEq loc.counter loc.address
    · have hcounter : (readBack .f32 loc).counter = (readBack .f32 loc).address := by
        simp only [readBack, h, if_true]
      -- plain or not, the counter reads back as the address does
      have hback : (readBack .f32 (readBack .f32 loc)).counter = (readBack .f32 (readBack .f32 loc)).address := by
        show (if _ then _ else _) = _
        rw [hcounter, ite_self]
        rfl
      rw [hback, hcounter]
      exact rounded_rounded loc.address
    · have hcounter : (readBack .f32 loc).counter = atPrecision .f32 loc.counter := by
        simp only [readBack, h, if_false, Bool.false_eq_true]
      show EqualVec (if vecEq (readBack .f32 loc).counter (readBack .f32 loc).address then _ else _) _
      rw [hcounter]
      split_ifs with h'
      · exact (rounded_rounded loc.address).trans (.of_same (sameVec_of_vecEq h').symm)
      · exact rounded_rounded loc.counter
  writeCount := rfl
  neighbors := rfl
  surpriseMass := rfl

omit [LeBytes S 4] in
/-- What was read back is written in no more bytes. -/
theorem size_readBack (loc : HardLocation F) :
    locationSize (readBack .f32 loc) .f32 ≤ locationSize loc .f32 := by
  have hlen : (readBack .f32 loc).address.length = loc.address.length := length_atPrecision .f32 loc.address
  unfold locationSize
  rw [hlen]
  have hkind : (if vecEq (readBack .f32 loc).counter (readBack .f32 loc).address then 1 else 2) ≤
      if vecEq loc.counter loc.address then 1 else 2 := by
    by_cases h : vecEq loc.counter loc.address
    · have hrefl := vecEq_right_self h
      have hback : vecEq (readBack .f32 loc).counter (readBack .f32 loc).address = true := by
        simp only [readBack, h, if_true]
        exact vecEq_rounded hrefl
      rw [if_pos h, if_pos hback]
    · rw [if_neg h]
      split_ifs <;> decide
  have hneighbors : (readBack .f32 loc).neighbors = loc.neighbors := rfl
  rw [hneighbors]
  have := Nat.mul_le_mul_right (width .f32) (Nat.mul_le_mul_right loc.address.length hkind)
  omega

/-- **Codec round trip.** Whatever can be written reads back, at any precision
the reader assumes: an f64 record as what was written, an f32 record as that
with every coordinate rounded once, which is then written and read back as it
is. -/
theorem codec_round_trip [LeBytes F 8] (crates : Crates F S) (legacy : Precision) :
    (∀ loc : HardLocation F, InU64 loc → loc.address.length = loc.counter.length →
      locationSize loc .f64 < 2 ^ 32 →
      ∃ bytes loc', encodeLocation crates loc .f64 = .ok bytes ∧
        decodeLocation crates bytes legacy = .ok loc' ∧ EqualLocation loc' loc) ∧
    (∀ loc : HardLocation F, InU64 loc → loc.address.length = loc.counter.length →
      locationSize loc .f32 < 2 ^ 32 →
      ∃ bytes loc', encodeLocation crates loc .f32 = .ok bytes ∧
        decodeLocation crates bytes legacy = .ok loc' ∧ EqualLocation loc' (rounded loc) ∧
        ∀ legacy', ∃ bytes' loc'', encodeLocation crates loc' .f32 = .ok bytes' ∧
          decodeLocation crates bytes' legacy' = .ok loc'' ∧ EqualLocation loc'' loc') ∧
    (∀ (vector : List F) (metadata : List UInt8), documentSize vector metadata .f64 < 2 ^ 32 →
      ∃ bytes, encodeDocument crates vector metadata .f64 = .ok bytes ∧
        decodeDocumentParts crates bytes legacy = .ok (.inline vector, metadata)) ∧
    (∀ (vector : List F) (metadata : List UInt8), documentSize vector metadata .f32 < 2 ^ 32 →
      ∃ bytes vector', encodeDocument crates vector metadata .f32 = .ok bytes ∧
        decodeDocumentParts crates bytes legacy = .ok (.inline vector', metadata) ∧
        vector' = vector.map (fun x => toF64 (toF32 x)) ∧
        ∀ legacy', ∃ bytes' vector'', encodeDocument crates vector' metadata .f32 = .ok bytes' ∧
          decodeDocumentParts crates bytes' legacy' = .ok (.inline vector'', metadata) ∧
          EqualVec vector'' vector') ∧
    (∀ (location : ℕ) (metadata : List UInt8) (p : Precision), location < 2 ^ 64 →
      documentRefSize metadata < 2 ^ 32 →
      ∃ bytes, encodeDocumentRef crates location metadata p = .ok bytes ∧
        decodeDocumentParts crates bytes legacy = .ok (.location location, metadata)) := by
  refine ⟨?_, ?_, ?_, ?_, ?_⟩
  · intro loc h64 hlen hfits
    have henc := (encodeLocation_ok_iff crates).mpr ⟨hlen, hfits, rfl⟩
    exact ⟨_, _, henc, decode_encodeLocation crates h64 henc legacy, readBack_f64 loc⟩
  · intro loc h64 hlen hfits
    have henc := (encodeLocation_ok_iff crates).mpr ⟨hlen, hfits, rfl⟩
    refine ⟨_, _, henc, decode_encodeLocation crates h64 henc legacy, readBack_f32 loc, fun legacy' => ?_⟩
    have hfits' := (size_readBack loc).trans_lt hfits
    have henc' := (encodeLocation_ok_iff crates).mpr ⟨counter_readBack hlen, hfits', rfl⟩
    have h64' : InU64 (readBack .f32 loc) := ⟨h64.id, h64.neighbors⟩
    exact ⟨_, _, henc', decode_encodeLocation crates h64' henc' legacy', readBack_readBack loc⟩
  · intro vector metadata hfits
    have henc := (encodeDocument_ok_iff crates).mpr ⟨hfits, rfl⟩
    exact ⟨_, henc, decode_encodeDocument crates henc legacy⟩
  · intro vector metadata hfits
    have henc := (encodeDocument_ok_iff crates).mpr ⟨hfits, rfl⟩
    refine ⟨_, _, henc, decode_encodeDocument crates henc legacy, rfl, fun legacy' => ?_⟩
    have hfits' : documentSize (atPrecision .f32 vector) metadata .f32 < 2 ^ 32 := by
      unfold documentSize at hfits ⊢
      rwa [length_atPrecision]
    have henc' := (encodeDocument_ok_iff crates).mpr ⟨hfits', rfl⟩
    exact ⟨_, _, henc', decode_encodeDocument crates henc' legacy', rounded_rounded vector⟩
  · intro location metadata p h64 hfits
    refine ⟨_, (encodeDocumentRef_ok_iff crates).mpr ⟨hfits, rfl⟩, ?_⟩
    exact decode_encodeDocumentRef crates h64 ((encodeDocumentRef_ok_iff crates).mpr ⟨hfits, rfl⟩) legacy

end Narrow

variable [LeBytes F 8]

/-- On fixed-point numbers, at single precision. -/
theorem codec_round_trip_fixed :
    ∃ bytes loc', encodeLocation fixedCrates plainFixed .f32 = .ok bytes ∧
      decodeLocation fixedCrates bytes .f64 = .ok loc' ∧ EqualLocation loc' (rounded plainFixed) := by
  obtain ⟨bytes, loc', henc, hdec, heq, -⟩ :=
    (codec_round_trip fixedCrates .f64).2.1 plainFixed ⟨by decide, by decide⟩ rfl (by decide)
  exact ⟨bytes, loc', henc, hdec, heq⟩

end Payload

end Codec

end HeatherDb
