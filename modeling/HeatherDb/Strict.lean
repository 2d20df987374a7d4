/-
# The decoders are total and strict

No byte string makes a decoder panic. What an envelope holds decodes only if
its dimension, counts and metadata length account for every byte of the
payload, and a location that decoded, from an envelope or from before it, can
be written again and read back.

Key definitions: `LocationAccounts`, `DocumentAccounts`.
Key theorems: `decodeLocation_accounts`, `decodeDocumentParts_accounts`,
`decodeLocation_ok`, `decoders_total_strict`.
-/
import HeatherDb.RoundTrip

namespace HeatherDb

namespace Codec

open Bytes Narrow LeBytes

section Strict

variable {F S : Type} [Narrow F S] [LeBytes F 8] [LeBytes S 4]

/-- The dimension and the count an envelope declares are those of the
location, and they account for the payload. -/
def LocationAccounts (bytes : List UInt8) (loc : HardLocation F) : Prop :=
  ∃ kind p, bytes[5]? = some kind ∧ bytes[6]? = some (precisionByte p) ∧
    u32At (bytes.drop headerLen) 8 = loc.address.length ∧
    u32At (bytes.drop headerLen) (28 + vectorsOf kind * (loc.address.length * width p)) = loc.neighbors.length ∧
    bytes.length = headerLen + (8 + 4 + vectorsOf kind * (loc.address.length * width p) + 16 + 4 +
      loc.neighbors.length * 8)

/-- The lengths an envelope declares are those of the document, and they
account for the payload. -/
def DocumentAccounts (bytes : List UInt8) : DocVector F × List UInt8 → Prop
  | (.inline vector, metadata) => ∃ p, bytes[5]? = some kindDocument ∧ bytes[6]? = some (precisionByte p) ∧
    u32At (bytes.drop headerLen) 0 = vector.length ∧
    u32At (bytes.drop headerLen) (4 + vector.length * width p) = metadata.length ∧
    bytes.length = headerLen + (4 + vector.length * width p + 4 + metadata.length)
  | (.location _, metadata) => bytes[5]? = some kindDocumentRef ∧
    u32At (bytes.drop headerLen) 8 = metadata.length ∧
    bytes.length = headerLen + (8 + 4 + metadata.length)

theorem length_u64sOf {raw : List UInt8} {n : ℕ} (h : raw.length = n * 8) :
    (Reader.u64sOf raw).length = n := by
  unfold Reader.u64sOf
  rw [List.length_map, length_chunks, h]
  exact Nat.mul_div_cancel n (by decide)

theorem mem_u64sOf_lt {raw : List UInt8} {n : ℕ} (h : n ∈ Reader.u64sOf raw) : n < 2 ^ 64 := by
  obtain ⟨c, hc, rfl⟩ := List.mem_map.mp h
  have hlt := ofLe_lt c
  rwa [length_of_mem_chunks hc] at hlt

section Location

variable {kind : UInt8} {p : Precision} {payload : List UInt8}

/-- The vectors of a location that accounts for its payload have the declared
dimension. -/
theorem lengths_locationAt (h : Accounts payload (neighborsAt kind p payload) 8) :
    (locationAt kind p payload : HardLocation F).address.length = u32At payload 8 ∧
      (locationAt kind p payload : HardLocation F).counter.length = u32At payload 8 ∧
      (locationAt kind p payload : HardLocation F).neighbors.length =
        u32At payload (neighborsAt kind p payload) := by
  unfold Accounts at h
  have hv := Nat.le_mul_of_pos_left (u32At payload 8 * width p) (vectorsOf_pos kind)
  have ho : neighborsAt kind p payload = 28 + vectorsOf kind * (u32At payload 8 * width p) := rfl
  have haddress : (field payload 12 (u32At payload 8 * width p)).length = u32At payload 8 * width p :=
    length_field (by omega)
  refine ⟨length_floatsOf p haddress, ?_, length_u64sOf (length_field (by omega))⟩
  unfold locationAt
  by_cases hk : kind = kindPlainLocation
  · simp only [hk, if_true]
    exact length_floatsOf p haddress
  · simp only [hk, if_false]
    have htwo : vectorsOf kind = 2 := if_neg hk
    rw [htwo] at ho
    exact length_floatsOf p (length_field (by omega))

theorem inU64_locationAt (h : Accounts payload (neighborsAt kind p payload) 8) :
    InU64 (locationAt kind p payload : HardLocation F) where
  id := by
    unfold Accounts at h
    have ho : neighborsAt kind p payload = 28 + vectorsOf kind * (u32At payload 8 * width p) := rfl
    have hlt := ofLe_lt (field payload 0 8)
    rwa [length_field (by omega)] at hlt
  neighbors _ hn := mem_u64sOf_lt hn

end Location

variable (crates : Crates F S)

/-! ### Strictness -/

theorem decodeLocation_accounts {bytes : List UInt8} {legacy : Precision} {loc : HardLocation F}
    (h : decodeLocation crates bytes legacy = .ok loc) (henv : ¬ IsLegacy bytes) : LocationAccounts bytes loc := by
  rcases (decodeLocation_ok_iff crates).mp h with hold | ⟨kind, p, ho, hacc, rfl⟩
  · exact absurd hold.1 henv
  · obtain ⟨haddress, -, hneighbors⟩ := lengths_locationAt (F := F) hacc
    refine ⟨kind, p, ho.sort, ho.precision, haddress.symm, ?_, ?_⟩
    · rw [haddress]
      exact hneighbors.symm
    · unfold Accounts neighborsAt at hacc
      have hlong := ho.long
      rw [List.length_drop] at hacc
      rw [haddress, hneighbors]
      unfold neighborsAt
      omega

theorem decodeDocumentParts_accounts {bytes : List UInt8} {legacy : Precision} {doc : DocVector F × List UInt8}
    (h : decodeDocumentParts crates bytes legacy = .ok doc) (henv : ¬ IsLegacy bytes) :
    DocumentAccounts bytes doc := by
  rcases (decodeDocumentParts_ok_iff crates).mp h with hold | ⟨kind, p, ho, hacc, rfl⟩
  · exact absurd hold.1 henv
  · have hlong := ho.long
    have hlen := List.length_drop (i := headerLen) (l := bytes)
    unfold Accounts at hacc
    by_cases hk : kind = kindDocumentRef
    · subst hk
      have hmeta : metadataAt kindDocumentRef p (bytes.drop headerLen) = 8 := rfl
      rw [hmeta] at hacc
      have hm : (field (bytes.drop headerLen) (8 + 4) (u32At (bytes.drop headerLen) 8)).length =
          u32At (bytes.drop headerLen) 8 := length_field (by omega)
      refine ⟨ho.sort, hm.symm, ?_⟩
      show bytes.length = headerLen + (8 + 4 + (field _ _ _).length)
      rw [hmeta, hm]
      omega
    · have hkind : kind = kindDocument := by
        have hmem := ho.asked
        simp only [List.mem_cons, List.not_mem_nil, or_false] at hmem
        exact hmem.resolve_right hk
      subst hkind
      have hmeta : metadataAt kindDocument p (bytes.drop headerLen) =
          4 + u32At (bytes.drop headerLen) 0 * width p := rfl
      rw [hmeta] at hacc
      have hm : (field (bytes.drop headerLen) (4 + u32At (bytes.drop headerLen) 0 * width p + 4)
          (u32At (bytes.drop headerLen) (4 + u32At (bytes.drop headerLen) 0 * width p))).length =
          u32At (bytes.drop headerLen) (4 + u32At (bytes.drop headerLen) 0 * width p) :=
        length_field (by omega)
      have hd : (Reader.floatsOf p (field (bytes.drop headerLen) 4 (u32At (bytes.drop headerLen) 0 * width p)) :
          List F).length = u32At (bytes.drop headerLen) 0 := length_floatsOf p (length_field (by omega))
      refine ⟨p, ho.sort, ho.precision, hd.symm, ?_, ?_⟩
      · rw [hd]
        exact hm.symm
      · rw [hd]
        show bytes.length = headerLen + (_ + 4 + (field _ _ _).length)
        rw [hmeta, hm]
        omega

/-! ### Writing again what was read -/

omit [LeBytes F 8] [LeBytes S 4] in
/-- A location from before the envelope has vectors of one length and ids of
64 bits. -/
theorem legacyLocation_ok {bytes : List UInt8} {p : Precision} {loc : HardLocation F}
    (h : legacyLocation crates bytes p = .ok loc) : loc.address.length = loc.counter.length ∧ InU64 loc := by
  unfold legacyLocation at h
  rw [outcome_bind_ok_iff] at h
  obtain ⟨decoded, hdec, h⟩ := h
  have h64 : InU64 decoded := by
    have hhard : ∀ {V : Type} (w : List V → List F) (c : LegacyLocation V F), InU64 (c.toHard w) := by
      intro V w c
      refine ⟨c.id.toNat_lt, fun n hn => ?_⟩
      obtain ⟨m, -, rfl⟩ := List.mem_map.mp hn
      exact m.toNat_lt
    cases p
    · cases hb : crates.location bytes with
      | error e => rw [hb] at hdec; cases hdec
      | ok c =>
        rw [hb] at hdec
        obtain rfl := Except.ok.inj hdec
        exact hhard id c
    · cases hb : crates.compactLocation bytes with
      | error e => rw [hb] at hdec; cases hdec
      | ok c =>
        rw [hb] at hdec
        obtain rfl := Except.ok.inj hdec
        exact hhard widen c
  by_cases hlen : decoded.address.length ≠ decoded.counter.length
  · rw [if_pos hlen] at h
    exact absurd h corrupt_ne_ok
  · rw [if_neg hlen] at h
    obtain rfl := Except.ok.inj h
    exact ⟨not_not.mp hlen, h64⟩

theorem decodeLocation_ok {bytes : List UInt8} {legacy : Precision} {loc : HardLocation F}
    (h : decodeLocation crates bytes legacy = .ok loc) :
    loc.address.length = loc.counter.length ∧ InU64 loc := by
  rcases (decodeLocation_ok_iff crates).mp h with ⟨-, hold⟩ | ⟨kind, p, -, hacc, rfl⟩
  · exact legacyLocation_ok crates hold
  · obtain ⟨haddress, hcounter, -⟩ := lengths_locationAt (F := F) hacc
    exact ⟨haddress.trans hcounter.symm, inU64_locationAt hacc⟩

variable [Scalar F]

/-- **Decoders are total and strict**: none panics on any bytes, what they
accept of an envelope accounts for the payload, and an accepted location has
vectors of one length and survives being written again. -/
theorem decoders_total_strict (bytes : List UInt8) (legacy : Precision) :
    (∀ message, decodeLocation crates bytes legacy ≠ .error (.panic message)) ∧
    (∀ message, decodeDocument crates bytes legacy ≠ .error (.panic message)) ∧
    (∀ message, decodeDocumentParts crates bytes legacy ≠ .error (.panic message)) ∧
    (∀ loc, decodeLocation crates bytes legacy = .ok loc → ¬ IsLegacy bytes → LocationAccounts bytes loc) ∧
    (∀ doc, decodeDocumentParts crates bytes legacy = .ok doc → ¬ IsLegacy bytes → DocumentAccounts bytes doc) ∧
    (∀ vector metadata, decodeDocument crates bytes legacy = .ok (vector, metadata) → ¬ IsLegacy bytes →
      DocumentAccounts bytes (.inline vector, metadata)) ∧
    ∀ loc, decodeLocation crates bytes legacy = .ok loc →
      loc.address.length = loc.counter.length ∧
      (locationSize loc .f64 < 2 ^ 32 → ∃ bytes' loc', encodeLocation crates loc .f64 = .ok bytes' ∧
        (∀ legacy', decodeLocation crates bytes' legacy' = .ok loc') ∧ EqualLocation loc' loc) := by
  refine ⟨?_, ?_, ?_, ?_, ?_, ?_, ?_⟩
  · exact fun message h => graceful_decodeLocation crates bytes legacy _ h
  · exact fun message h => graceful_decodeDocument crates bytes legacy _ h
  · exact fun message h => graceful_decodeDocumentParts crates bytes legacy _ h
  · exact fun loc h henv => decodeLocation_accounts crates h henv
  · exact fun doc h henv => decodeDocumentParts_accounts crates h henv
  · intro vector metadata h henv
    unfold decodeDocument at h
    rw [outcome_bind_ok_iff] at h
    obtain ⟨⟨v, m⟩, hparts, h⟩ := h
    cases v with
    | inline v =>
      obtain ⟨rfl, rfl⟩ := Prod.mk.inj (Except.ok.inj h)
      exact decodeDocumentParts_accounts crates hparts henv
    | location id => cases h
  · intro loc h
    obtain ⟨hlen, h64⟩ := decodeLocation_ok crates h
    refine ⟨hlen, fun hfits => ?_⟩
    have henc := (encodeLocation_ok_iff crates).mpr ⟨hlen, hfits, rfl⟩
    exact ⟨_, _, henc, fun legacy' => decode_encodeLocation crates h64 henc legacy', readBack_f64 loc⟩

end Strict

end Codec

end HeatherDb
