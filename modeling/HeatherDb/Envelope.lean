/-
# What the decoders accept

A stored value decodes when it has no envelope and the old decoder takes it,
or when every field of its envelope checks out and its counts account for the
payload; then the value is the one that lies in the payload. On no byte
string does a decoder panic.

Key definitions: `IsLegacy`, `Opens`, `Graceful`, `byFormat`.
Key theorems: `openRecord_ok_iff`, `decodeLocation_ok_iff`,
`decodeDocumentParts_ok_iff`, `graceful_decodeLocation`, `graceful_decodeDocument`.
-/
import HeatherDb.Layout

namespace HeatherDb

namespace Codec

open Bytes Narrow LeBytes Parser

/-- Without the magic: written before the envelope existed. -/
def IsLegacy (bytes : List UInt8) : Prop := bytes.length < 4 ∨ bytes.take 4 ≠ magic

instance (bytes : List UInt8) : Decidable (IsLegacy bytes) := inferInstanceAs (Decidable (_ ∨ _))

/-- Every field of an envelope checks out, for a record of one of `kinds`. -/
structure Opens {F S : Type} (crates : Crates F S) (bytes kinds : List UInt8) (kind : UInt8) (p : Precision) :
    Prop where
  begins : bytes.take 4 = magic
  version : bytes[4]? = some recordVersion
  sort : bytes[5]? = some kind
  precision : bytes[6]? = some (precisionByte p)
  asked : kind ∈ kinds
  long : headerLen ≤ bytes.length
  length : (bytes.drop headerLen).length = u32At bytes 8
  crc : (crates.crc32 (bytes.drop headerLen)).toNat = u32At bytes 12

/-! ### Steps of the header -/

theorem outcome_bind_ok_iff {α β : Type} {x : Outcome α} {f : α → Outcome β} {b : β} :
    (x >>= f) = .ok b ↔ ∃ a, x = .ok a ∧ f a = .ok b := by
  cases x <;> simp [Bind.bind, Except.bind]

theorem ok_bind {α β : Type} (a : α) (f : α → Outcome β) : (Except.ok a >>= f) = f a := rfl

theorem corrupt_ne_ok {α : Type} {message : String} {a : α} : corrupt message ≠ .ok a := nofun

theorem index_ok_iff {bytes : List UInt8} {i : ℕ} {b : UInt8} :
    index bytes i = .ok b ↔ bytes[i]? = some b := by
  unfold index
  cases bytes[i]? <;> simp [panicked]

theorem slice_of_le {bytes : List UInt8} {lo hi : ℕ} (h : lo ≤ hi) (hhi : hi ≤ bytes.length) :
    slice bytes lo hi = .ok (field bytes lo (hi - lo)) := by
  unfold slice field
  rw [if_pos ⟨h, hhi⟩, List.drop_take]

theorem precisionFrom_ok_iff {b : UInt8} {p : Precision} : precisionFrom b = .ok p ↔ b = precisionByte p := by
  unfold precisionFrom
  split_ifs with h0 h1
  · subst h0
    cases p <;> simp [precisionByte]
  · subst h1
    cases p <;> simp [precisionByte]
  · cases p <;> simp [precisionByte, corrupt, h0, h1]

theorem version_iff (v : UInt8) : ¬ (v = 0 ∨ recordVersion < v) ↔ v = recordVersion := by
  have hone : recordVersion.toNat = 1 := rfl
  have hzero : (0 : UInt8).toNat = 0 := rfl
  rw [← UInt8.toNat_inj, ← UInt8.toNat_inj, UInt8.lt_iff_toNat_lt, hone, hzero]
  omega

theorem format_of_legacy {bytes : List UInt8} (h : IsLegacy bytes) : format bytes = .ok .legacy := by
  unfold format
  by_cases hlen : bytes.length < 4
  · rw [if_pos hlen]
    rfl
  · have hmagic : bytes.take 4 ≠ magic := h.resolve_left hlen
    rw [if_neg hlen, slice_of_le (by omega) (by omega)]
    exact if_pos hmagic

/-- What `format` does behind the magic. -/
theorem format_of_magic {bytes : List UInt8} (h : ¬ IsLegacy bytes) :
    format bytes = if bytes.length < headerLen then corrupt "record header is truncated" else (do
      let version ← index bytes 4
      let kind ← index bytes 5
      let precision ← precisionFrom (← index bytes 6)
      pure (.enveloped version kind precision)) := by
  have hlen : ¬ bytes.length < 4 := fun hlt => h (.inl hlt)
  have hmagic : ¬ bytes.take 4 ≠ magic := fun hne => h (.inr hne)
  unfold format
  rw [if_neg hlen, slice_of_le (by omega) (by omega)]
  exact if_neg hmagic

theorem format_ok_iff {bytes : List UInt8} (h : ¬ IsLegacy bytes) {version kind : UInt8} {p : Precision} :
    format bytes = .ok (.enveloped version kind p) ↔
      headerLen ≤ bytes.length ∧ bytes[4]? = some version ∧ bytes[5]? = some kind ∧
        bytes[6]? = some (precisionByte p) := by
  rw [format_of_magic h]
  by_cases hlen : bytes.length < headerLen
  · rw [if_pos hlen]
    constructor
    · exact fun h => absurd h corrupt_ne_ok
    · exact fun h => absurd h.1 (by omega)
  · rw [if_neg hlen]
    simp only [outcome_bind_ok_iff, index_ok_iff, precisionFrom_ok_iff]
    constructor
    · intro h
      obtain ⟨v, hv, k, hk, b, hb, q, rfl, heq⟩ := h
      cases heq
      exact ⟨by omega, hv, hk, hb⟩
    · intro h
      obtain ⟨-, hv, hk, hb⟩ := h
      exact ⟨_, hv, _, hk, _, hb, p, rfl, rfl⟩

theorem format_ne_legacy {bytes : List UInt8} (h : ¬ IsLegacy bytes) : format bytes ≠ .ok .legacy := by
  rw [format_of_magic h]
  by_cases hlen : bytes.length < headerLen
  · rw [if_pos hlen]
    exact corrupt_ne_ok
  · rw [if_neg hlen]
    simp only [ne_eq, outcome_bind_ok_iff]
    rintro ⟨_, _, _, _, _, _, _, _, heq⟩
    cases heq

section Crates

variable {F S : Type} (crates : Crates F S)

/-- **A record opens exactly when its header checks out.** -/
theorem openRecord_ok_iff {bytes kinds payload : List UInt8} {kind : UInt8} {p : Precision}
    (hmagic : bytes.take 4 = magic) (hlong : headerLen ≤ bytes.length) :
    openRecord crates bytes kinds = .ok (kind, p, payload) ↔
      Opens crates bytes kinds kind p ∧ payload = bytes.drop headerLen := by
  have h16 : headerLen = 16 := rfl
  have hpayload : slice bytes headerLen bytes.length = .ok (bytes.drop headerLen) := by
    rw [slice_of_le hlong le_rfl, field, List.take_of_length_le (by simp)]
  have hlen : slice bytes 8 12 = .ok (field bytes 8 4) := slice_of_le (by omega) (by omega)
  have hcrc : slice bytes 12 16 = .ok (field bytes 12 4) := slice_of_le (by omega) (by omega)
  have hlen' : intoArray 4 (field bytes 8 4) = .ok (field bytes 8 4) :=
    intoArray_of_length (length_field (by omega))
  have hcrc' : intoArray 4 (field bytes 12 4) = .ok (field bytes 12 4) :=
    intoArray_of_length (length_field (by omega))
  have hv : ∀ v : UInt8, (v = 0 ∨ recordVersion < v) ↔ v ≠ recordVersion := fun v =>
    (not_iff_comm.mp (version_iff v)).symm
  unfold openRecord
  simp only [hlen, hcrc, hlen', hcrc', hpayload, ok_bind, hv]
  rw [outcome_bind_ok_iff]
  constructor
  · intro h
    obtain ⟨v, hver, h⟩ := h
    by_cases hne : v ≠ recordVersion
    · rw [if_pos hne] at h
      cases h
    rw [if_neg hne, outcome_bind_ok_iff] at h
    obtain ⟨k, hk, h⟩ := h
    by_cases hask : k ∉ kinds
    · rw [if_pos hask, outcome_bind_ok_iff] at h
      obtain ⟨_, _, h⟩ := h
      exact absurd h corrupt_ne_ok
    rw [if_neg hask] at h
    simp only [outcome_bind_ok_iff, index_ok_iff, precisionFrom_ok_iff] at hver hk h
    obtain ⟨b, hb, q, rfl, h⟩ := h
    by_cases hl : (bytes.drop headerLen).length ≠ ofLe (field bytes 8 4)
    · rw [if_pos hl] at h
      exact absurd h corrupt_ne_ok
    rw [if_neg hl] at h
    by_cases hc : (crates.crc32 (bytes.drop headerLen)).toNat ≠ ofLe (field bytes 12 4)
    · rw [if_pos hc] at h
      exact absurd h corrupt_ne_ok
    rw [if_neg hc] at h
    cases h
    rw [not_not] at hne hask hl hc
    exact ⟨⟨hmagic, hne ▸ hver, hk, hb, hask, hlong, hl, hc⟩, rfl⟩
  · intro h
    obtain ⟨ho, rfl⟩ := h
    refine ⟨recordVersion, index_ok_iff.mpr ho.version, ?_⟩
    rw [if_neg (not_not.mpr rfl), outcome_bind_ok_iff]
    refine ⟨kind, index_ok_iff.mpr ho.sort, ?_⟩
    rw [if_neg (not_not.mpr ho.asked)]
    simp only [outcome_bind_ok_iff, index_ok_iff, precisionFrom_ok_iff]
    refine ⟨_, ho.precision, p, rfl, ?_⟩
    exact (if_neg (not_not.mpr ho.length)).trans (if_neg (not_not.mpr ho.crc))

theorem run'_ok_iff {α : Type} {m : Reader α} {payload : List UInt8} {a : α} :
    m.run' payload = .ok a ↔ ∃ rest, m payload = .ok (a, rest) := by
  show ((fun p => p.1) <$> m payload) = _ ↔ _
  cases m payload with
  | error e => simp [Functor.map, Except.map]
  | ok p =>
    obtain ⟨b, rest⟩ := p
    simp [Functor.map, Except.map]

/-- How both decoders go about a stored value. -/
def byFormat {α : Type} (bytes kinds : List UInt8) (old : Outcome α)
    (read : UInt8 → Precision → Reader α) : Outcome α := do
  match ← format bytes with
  | .legacy => old
  | .enveloped .. =>
    let (kind, precision, payload) ← openRecord crates bytes kinds
    (read kind precision).run' payload

/-- A stored value has no envelope and is old, or opens and is read. -/
theorem byFormat_ok_iff {α : Type} {bytes kinds : List UInt8} {old : Outcome α}
    {read : UInt8 → Precision → Reader α} {a : α} :
    byFormat crates bytes kinds old read = .ok a ↔
      (IsLegacy bytes ∧ old = .ok a) ∨
        ∃ kind p rest, Opens crates bytes kinds kind p ∧ read kind p (bytes.drop headerLen) = .ok (a, rest) := by
  have h16 : headerLen = 16 := rfl
  unfold byFormat
  rw [outcome_bind_ok_iff]
  by_cases hl : IsLegacy bytes
  · rw [format_of_legacy hl]
    constructor
    · intro h
      obtain ⟨_, hf, h⟩ := h
      cases hf
      exact .inl ⟨hl, h⟩
    · intro h
      rcases h with h | ⟨kind, p, _, ho, -⟩
      · exact ⟨_, rfl, h.2⟩
      · rcases hl with hl | hl
        · have := ho.long
          omega
        · exact absurd ho.begins hl
  · have hmagic : bytes.take 4 = magic := by
      by_contra hne
      exact hl (.inr hne)
    constructor
    · intro h
      obtain ⟨f, hf, h⟩ := h
      cases f with
      | legacy => exact absurd hf (format_ne_legacy hl)
      | enveloped version kind precision =>
        have hlong := ((format_ok_iff hl).mp hf).1
        rw [outcome_bind_ok_iff] at h
        obtain ⟨⟨k, p, payload⟩, hopen, h⟩ := h
        obtain ⟨ho, rfl⟩ := (openRecord_ok_iff crates hmagic hlong).mp hopen
        obtain ⟨rest, h⟩ := run'_ok_iff.mp h
        exact .inr ⟨k, p, rest, ho, h⟩
    · intro h
      rcases h with h | ⟨kind, p, rest, ho, h⟩
      · exact absurd h.1 hl
      · refine ⟨_, (format_ok_iff hl).mpr ⟨ho.long, ho.version, ho.sort, ho.precision⟩, ?_⟩
        refine outcome_bind_ok_iff.mpr ⟨_, (openRecord_ok_iff crates hmagic ho.long).mpr ⟨ho, rfl⟩, ?_⟩
        exact run'_ok_iff.mpr ⟨rest, h⟩

/-! ### Without a panic -/

/-- The call does not panic. -/
def Graceful {α : Type} (x : Outcome α) : Prop := ∀ e, x = .error e → e.IsError

theorem Graceful.ok {α : Type} (a : α) : Graceful (.ok a : Outcome α) := nofun

theorem Graceful.corrupt {α : Type} (message : String) : Graceful (corrupt message : Outcome α) :=
  fun _ h => Except.error.inj h ▸ trivial

theorem Graceful.bind {α β : Type} {x : Outcome α} {f : α → Outcome β} (hx : Graceful x)
    (hf : ∀ a, x = .ok a → Graceful (f a)) : Graceful (x >>= f) := by
  cases x with
  | ok a => exact hf a rfl
  | error e =>
    intro e' h
    exact hx e' (Except.error.inj h ▸ rfl)

theorem graceful_index {bytes : List UInt8} {i : ℕ} (h : i < bytes.length) : Graceful (index bytes i) := by
  unfold index
  rw [List.getElem?_eq_getElem h]
  exact Graceful.ok _

theorem graceful_precisionFrom (b : UInt8) : Graceful (precisionFrom b) := by
  unfold precisionFrom
  split_ifs
  · exact Graceful.ok _
  · exact Graceful.ok _
  · exact Graceful.corrupt _

theorem graceful_format (bytes : List UInt8) : Graceful (format bytes) := by
  by_cases hl : IsLegacy bytes
  · rw [format_of_legacy hl]
    exact Graceful.ok _
  · rw [format_of_magic hl]
    by_cases hlen : bytes.length < headerLen
    · rw [if_pos hlen]
      exact Graceful.corrupt _
    · have h16 : headerLen = 16 := rfl
      rw [if_neg hlen]
      refine (graceful_index (by omega)).bind fun version _ => (graceful_index (by omega)).bind fun kind _ => ?_
      refine (graceful_index (by omega)).bind fun b _ => (graceful_precisionFrom b).bind fun p _ => ?_
      exact Graceful.ok _

theorem graceful_slice {bytes : List UInt8} {lo hi : ℕ} (h : lo ≤ hi) (hhi : hi ≤ bytes.length) :
    Graceful (slice bytes lo hi) := by
  rw [slice_of_le h hhi]
  exact Graceful.ok _

/-- A header as long as `format` has found it is read without a panic. -/
theorem graceful_openRecord {bytes kinds : List UInt8} (hlong : headerLen ≤ bytes.length)
    (hkinds : 0 < kinds.length) : Graceful (openRecord crates bytes kinds) := by
  have h16 : headerLen = 16 := rfl
  have harray : ∀ o, o + 4 ≤ bytes.length → ∀ b, slice bytes o (o + 4) = .ok b → Graceful (intoArray 4 b) := by
    intro o ho b hb
    rw [slice_of_le (by omega) ho] at hb
    cases hb
    have hlen : (field bytes o (o + 4 - o)).length = 4 := by
      rw [length_field (by omega)]
      omega
    rw [intoArray_of_length hlen]
    exact Graceful.ok _
  unfold openRecord
  refine (graceful_index (by omega)).bind fun version _ => ?_
  split_ifs
  · exact fun _ h => Except.error.inj h ▸ trivial
  refine (graceful_index (by omega)).bind fun kind _ => ?_
  split_ifs
  · refine (graceful_index (by omega)).bind fun b _ => (graceful_precisionFrom b).bind fun p _ => ?_
    refine (graceful_slice (by omega) (by omega)).bind fun l hl => (harray 8 (by omega) l hl).bind fun len _ => ?_
    refine (graceful_slice (by omega) (by omega)).bind fun c hc => (harray 12 (by omega) c hc).bind fun crc _ => ?_
    refine (graceful_slice hlong le_rfl).bind fun payload _ => ?_
    split_ifs
    · exact Graceful.corrupt _
    · exact Graceful.corrupt _
    · exact Graceful.ok _
  · exact (graceful_index hkinds).bind fun first _ => Graceful.corrupt _

theorem graceful_byFormat {α : Type} {bytes kinds : List UInt8} {old : Outcome α}
    {read : UInt8 → Precision → Reader α} (hkinds : 0 < kinds.length) (hold : Graceful old)
    (hread : ∀ kind p, Stops Stop.IsError (read kind p)) : Graceful (byFormat crates bytes kinds old read) := by
  refine (graceful_format bytes).bind fun f hf => ?_
  cases f with
  | legacy => exact hold
  | enveloped version kind precision =>
    have hl : ¬ IsLegacy bytes := by
      intro hl
      rw [format_of_legacy hl] at hf
      cases hf
    have hlong := ((format_ok_iff hl).mp hf).1
    refine (graceful_openRecord crates hlong hkinds).bind fun r _ => ?_
    intro e he
    change (fun p => p.1) <$> read r.1 r.2.1 r.2.2 = _ at he
    cases hr : read r.1 r.2.1 r.2.2 with
    | error e' =>
      rw [hr] at he
      exact Except.error.inj he ▸ hread _ _ _ _ hr
    | ok p =>
      rw [hr] at he
      cases he

variable [Narrow F S]

theorem graceful_legacyError {α : Type} (what : String) (x : Except String α) :
    Graceful (legacyError what x) := by
  cases x with
  | ok a => exact Graceful.ok a
  | error e => exact Graceful.corrupt _

theorem graceful_legacyLocation (bytes : List UInt8) (p : Precision) :
    Graceful (legacyLocation crates bytes p : Outcome (HardLocation F)) := by
  unfold legacyLocation
  refine (graceful_legacyError _ _).bind fun loc _ => ?_
  split_ifs
  · exact Graceful.corrupt _
  · exact Graceful.ok _

/-! ### The decoders -/

variable [LeBytes F 8] [LeBytes S 4]

theorem decodeLocation_eq (bytes : List UInt8) (legacy : Precision) :
    (decodeLocation crates bytes legacy : Outcome (HardLocation F)) =
      byFormat crates bytes [kindLocation, kindPlainLocation] (legacyLocation crates bytes legacy)
        readLocation := rfl

theorem decodeDocumentParts_eq (bytes : List UInt8) (legacy : Precision) :
    (decodeDocumentParts crates bytes legacy : Outcome (DocVector F × List UInt8)) =
      byFormat crates bytes [kindDocument, kindDocumentRef]
        (legacyDocument crates bytes legacy >>= fun d => pure (.inline d.1, d.2)) readDocument := rfl

/-- **What decodes as a location.** -/
theorem decodeLocation_ok_iff {bytes : List UInt8} {legacy : Precision} {loc : HardLocation F} :
    decodeLocation crates bytes legacy = .ok loc ↔
      (IsLegacy bytes ∧ legacyLocation crates bytes legacy = .ok loc) ∨
      ∃ kind p, Opens crates bytes [kindLocation, kindPlainLocation] kind p ∧
        Accounts (bytes.drop headerLen) (neighborsAt kind p (bytes.drop headerLen)) 8 ∧
        loc = locationAt kind p (bytes.drop headerLen) := by
  rw [decodeLocation_eq, byFormat_ok_iff]
  simp only [readLocation_ok_iff]
  refine or_congr_right ⟨?_, ?_⟩
  · intro h
    obtain ⟨kind, p, _, ho, hacc, hloc, -⟩ := h
    exact ⟨kind, p, ho, hacc, hloc⟩
  · intro h
    obtain ⟨kind, p, ho, hacc, hloc⟩ := h
    exact ⟨kind, p, [], ho, hacc, hloc, rfl⟩

/-- **What decodes as a document.** -/
theorem decodeDocumentParts_ok_iff {bytes : List UInt8} {legacy : Precision} {doc : DocVector F × List UInt8} :
    decodeDocumentParts crates bytes legacy = .ok doc ↔
      (IsLegacy bytes ∧ ∃ vector metadata, legacyDocument crates bytes legacy = .ok (vector, metadata) ∧
        doc = (.inline vector, metadata)) ∨
      ∃ kind p, Opens crates bytes [kindDocument, kindDocumentRef] kind p ∧
        Accounts (bytes.drop headerLen) (metadataAt kind p (bytes.drop headerLen)) 1 ∧
        doc = documentAt kind p (bytes.drop headerLen) := by
  rw [decodeDocumentParts_eq, byFormat_ok_iff]
  simp only [readDocument_ok_iff, outcome_bind_ok_iff]
  refine or_congr ⟨?_, ?_⟩ ⟨?_, ?_⟩
  · intro h
    obtain ⟨hl, ⟨vector, metadata⟩, hold, hdoc⟩ := h
    exact ⟨hl, vector, metadata, hold, (Except.ok.inj hdoc).symm⟩
  · intro h
    obtain ⟨hl, vector, metadata, hold, rfl⟩ := h
    exact ⟨hl, _, hold, rfl⟩
  · intro h
    obtain ⟨kind, p, _, ho, hacc, hdoc, -⟩ := h
    exact ⟨kind, p, ho, hacc, hdoc⟩
  · intro h
    obtain ⟨kind, p, ho, hacc, hdoc⟩ := h
    exact ⟨kind, p, [], ho, hacc, hdoc, rfl⟩

/-- A record that opens and is read decodes. -/
theorem decodeLocation_of_opens {bytes : List UInt8} {legacy p : Precision} {kind : UInt8}
    {loc : HardLocation F} (ho : Opens crates bytes [kindLocation, kindPlainLocation] kind p)
    (hread : readLocation kind p (bytes.drop headerLen) = .ok (loc, [])) :
    decodeLocation crates bytes legacy = .ok loc := by
  rw [decodeLocation_eq]
  exact (byFormat_ok_iff crates).mpr (.inr ⟨kind, p, [], ho, hread⟩)

theorem decodeDocumentParts_of_opens {bytes : List UInt8} {legacy p : Precision} {kind : UInt8}
    {doc : DocVector F × List UInt8} (ho : Opens crates bytes [kindDocument, kindDocumentRef] kind p)
    (hread : readDocument kind p (bytes.drop headerLen) = .ok (doc, [])) :
    decodeDocumentParts crates bytes legacy = .ok doc := by
  rw [decodeDocumentParts_eq]
  exact (byFormat_ok_iff crates).mpr (.inr ⟨kind, p, [], ho, hread⟩)

theorem graceful_decodeLocation (bytes : List UInt8) (legacy : Precision) :
    Graceful (decodeLocation crates bytes legacy : Outcome (HardLocation F)) :=
  graceful_byFormat crates (by decide) (graceful_legacyLocation crates bytes legacy) readLocation_stops

theorem graceful_decodeDocumentParts (bytes : List UInt8) (legacy : Precision) :
    Graceful (decodeDocumentParts crates bytes legacy : Outcome (DocVector F × List UInt8)) :=
  graceful_byFormat crates (by decide) ((graceful_legacyError _ _).bind fun _ _ => Graceful.ok _)
    readDocument_stops

theorem graceful_decodeDocument (bytes : List UInt8) (legacy : Precision) :
    Graceful (decodeDocument crates bytes legacy : Outcome (List F × List UInt8)) := by
  refine (graceful_decodeDocumentParts crates bytes legacy).bind fun doc _ => ?_
  obtain ⟨vector, metadata⟩ := doc
  cases vector with
  | inline vector => exact Graceful.ok _
  | location id => exact fun _ h => Except.error.inj h ▸ trivial

end Crates

end Codec

end HeatherDb
