/-
# Damage to a record

One bit of a written record is inverted. The magic, the version, the payload
length and the checksum each catch what falls on them, and the checksum what
falls on the payload. Nothing covers the kind and the precision: a location's
kind and its precision are one bit from the other, and the record is read in
the other layout when the count found there happens to account for the
payload.

Key definitions: `Opened`, `Reported`, `LocationSlips`, `DocumentSlips`.
Key theorems: `Opens.flip_iff`, `damage_reported_iff`.
-/
import HeatherDb.Strict

namespace HeatherDb

namespace Codec

open Bytes Narrow LeBytes

section Damage

variable {F S : Type} [Narrow F S] (crates : Crates F S)

/-! ### Where the bit falls -/

theorem drop_flipBit_of_lt {bytes : List UInt8} {i o : ℕ} (bit : Fin 8) (h : i < o) :
    (flipBit bytes i bit).drop o = bytes.drop o := List.drop_modify_of_lt _ _ _ _ h

theorem drop_flipBit_of_ge {bytes : List UInt8} {i o : ℕ} (bit : Fin 8) (h : o ≤ i) :
    (flipBit bytes i bit).drop o = flipBit (bytes.drop o) (i - o) bit := List.drop_modify_of_ge _ _ _ _ h

theorem field_flipBit_of_lt {bytes : List UInt8} {i o : ℕ} (n : ℕ) (bit : Fin 8) (h : i < o) :
    field (flipBit bytes i bit) o n = field bytes o n := by
  unfold field
  rw [drop_flipBit_of_lt bit h]

theorem field_flipBit_of_ge {bytes : List UInt8} {i o : ℕ} (n : ℕ) (bit : Fin 8) (h : o ≤ i) :
    field (flipBit bytes i bit) o n = flipBit (field bytes o n) (i - o) bit := by
  unfold field
  rw [drop_flipBit_of_ge bit h]
  exact List.take_modify _ _ _ _

/-- A field the bit does not fall on is as it was. -/
theorem field_flipBit_of_apart {bytes : List UInt8} {i o n : ℕ} (bit : Fin 8) (h : i < o ∨ o + n ≤ i) :
    field (flipBit bytes i bit) o n = field bytes o n := by
  rcases h with h | h
  · exact field_flipBit_of_lt n bit h
  · rw [field_flipBit_of_ge n bit (by omega)]
    refine List.modify_eq_self ?_
    have := List.length_take_le n (bytes.drop o)
    unfold field
    omega

/-- The number in a field the bit falls on is another. -/
theorem ofLe_field_flipBit {bytes : List UInt8} {i o n : ℕ} (bit : Fin 8) (hlo : o ≤ i) (hhi : i < o + n)
    (hlen : o + n ≤ bytes.length) : ofLe (field (flipBit bytes i bit) o n) ≠ ofLe (field bytes o n) := by
  rw [field_flipBit_of_ge n bit hlo]
  intro h
  have hfield : (field bytes o n).length = n := length_field hlen
  exact flipBit_ne bit (by omega) (ofLe_inj (length_flipBit _ _ _) h)

theorem getElem?_flipBit_ne {bytes : List UInt8} {i j : ℕ} (bit : Fin 8) (h : i ≠ j) :
    (flipBit bytes i bit)[j]? = bytes[j]? := List.getElem?_modify_ne _ _ h

theorem getElem?_flipBit_eq (bytes : List UInt8) (i : ℕ) (bit : Fin 8) :
    (flipBit bytes i bit)[i]? = (bytes[i]?).map (flip bit) := List.getElem?_modify_eq _ _ _

/-! ### What still opens -/

/-- The header that one inverted bit leaves open, as kind and precision. -/
inductive Opened (kind : UInt8) (p : Precision) (bit : Fin 8) : ℕ → UInt8 → Precision → Prop where
  | kind : Opened kind p bit 5 (flip bit kind) p
  | precision {p' : Precision} (h : precisionByte p' = flip bit (precisionByte p)) : Opened kind p bit 6 kind p'
  | reserved : Opened kind p bit 7 kind p

theorem precisionByte_inj {p q : Precision} (h : precisionByte p = precisionByte q) : p = q := by
  cases p <;> cases q <;> first | rfl | exact absurd h (by decide)

section Opens

variable {crates} {R kinds : List UInt8} {kind kind' : UInt8} {p p' : Precision} {i : ℕ} {bit : Fin 8}

omit [Narrow F S] in
/-- A bit of the magic, the version, the length or the checksum is caught by
its own check, and one of the payload by the checksum. -/
theorem Opens.fallsOn (hR : Opens crates R kinds kind p) (hcrc : Detects crates) (hi : i < R.length)
    (h : Opens crates (flipBit R i bit) kinds kind' p') : i = 5 ∨ i = 6 ∨ i = 7 := by
  have h16 : headerLen = 16 := rfl
  have hlong := hR.long
  by_contra hother
  by_cases hmagic : i < 4
  · have htake : flipBit (R.take 4) i bit = R.take 4 := by
      calc flipBit (R.take 4) i bit = (flipBit R i bit).take 4 := (List.take_modify _ _ _ _).symm
        _ = R.take 4 := h.begins.trans hR.begins.symm
    have hlt : i < (R.take 4).length := by
      rw [List.length_take]
      omega
    exact flipBit_ne bit hlt htake
  by_cases hversion : i = 4
  · subst hversion
    have hver := h.version
    rw [getElem?_flipBit_eq, hR.version, Option.map_some, Option.some.injEq] at hver
    exact flip_ne bit _ hver
  by_cases hlength : i < 12
  · have hlen := h.length
    rw [drop_flipBit_of_lt bit (by omega), hR.length] at hlen
    exact ofLe_field_flipBit bit (by omega) hlength (by omega) hlen.symm
  by_cases hcheck : i < 16
  · have hsum := h.crc
    rw [drop_flipBit_of_lt bit (by omega), hR.crc] at hsum
    exact ofLe_field_flipBit bit (by omega) hcheck (by omega) hsum.symm
  · have hsum := h.crc
    have hfield : u32At (flipBit R i bit) 12 = u32At R 12 :=
      congrArg ofLe (field_flipBit_of_apart bit (by omega))
    rw [drop_flipBit_of_ge bit (by omega), hfield, ← hR.crc] at hsum
    refine hcrc _ (i - headerLen) bit ?_ (UInt32.toNat_inj.mp hsum)
    rw [List.length_drop]
    omega

omit [Narrow F S] in
/-- What opens when the bit falls on a byte of the header that no check
covers. -/
theorem Opens.of_flip (hR : Opens crates R kinds kind p) (hi : i = 5 ∨ i = 6 ∨ i = 7) (hk : kind' ∈ kinds)
    (hsort : (flipBit R i bit)[5]? = some kind')
    (hprecision : (flipBit R i bit)[6]? = some (precisionByte p')) :
    Opens crates (flipBit R i bit) kinds kind' p' where
  begins := by
    have htake : field (flipBit R i bit) 0 4 = field R 0 4 :=
      field_flipBit_of_apart bit (.inr (by omega))
    exact htake.trans hR.begins
  version := by
    rw [getElem?_flipBit_ne bit (by omega)]
    exact hR.version
  sort := hsort
  precision := hprecision
  asked := hk
  long := by
    rw [length_flipBit]
    exact hR.long
  length := by
    have h16 : headerLen = 16 := rfl
    rw [drop_flipBit_of_lt bit (by omega), hR.length]
    exact (congrArg ofLe (field_flipBit_of_lt 4 bit (by omega))).symm
  crc := by
    have h16 : headerLen = 16 := rfl
    rw [drop_flipBit_of_lt bit (by omega), hR.crc]
    exact (congrArg ofLe (field_flipBit_of_lt 4 bit (by omega))).symm

omit [Narrow F S] in
/-- **One inverted bit passes the checks of the header only on the kind, the
precision or the reserved byte.** -/
theorem Opens.flip_iff (hR : Opens crates R kinds kind p) (hcrc : Detects crates) (hi : i < R.length) :
    Opens crates (flipBit R i bit) kinds kind' p' ↔ kind' ∈ kinds ∧ Opened kind p bit i kind' p' := by
  constructor
  · intro h
    refine ⟨h.asked, ?_⟩
    have hsort := h.sort
    have hprecision := h.precision
    rcases hR.fallsOn hcrc hi h with rfl | rfl | rfl
    · rw [getElem?_flipBit_eq, hR.sort, Option.map_some, Option.some.injEq] at hsort
      rw [getElem?_flipBit_ne bit (by decide), hR.precision, Option.some.injEq] at hprecision
      obtain rfl := precisionByte_inj hprecision
      exact hsort ▸ .kind
    · rw [getElem?_flipBit_ne bit (by decide), hR.sort, Option.some.injEq] at hsort
      rw [getElem?_flipBit_eq, hR.precision, Option.map_some, Option.some.injEq] at hprecision
      exact hsort ▸ .precision hprecision.symm
    · rw [getElem?_flipBit_ne bit (by decide), hR.sort, Option.some.injEq] at hsort
      rw [getElem?_flipBit_ne bit (by decide), hR.precision, Option.some.injEq] at hprecision
      obtain rfl := precisionByte_inj hprecision
      exact hsort ▸ .reserved
  · intro h
    obtain ⟨hk, h⟩ := h
    cases h with
    | kind =>
      refine hR.of_flip (by decide) hk ?_ ?_
      · rw [getElem?_flipBit_eq, hR.sort]
        rfl
      · rw [getElem?_flipBit_ne bit (by decide), hR.precision]
    | precision hp =>
      refine hR.of_flip (by decide) hk ?_ ?_
      · rw [getElem?_flipBit_ne bit (by decide), hR.sort]
      · rw [getElem?_flipBit_eq, hR.precision, hp]
        rfl
    | reserved =>
      refine hR.of_flip (by decide) hk ?_ ?_
      · rw [getElem?_flipBit_ne bit (by decide), hR.sort]
      · rw [getElem?_flipBit_ne bit (by decide), hR.precision]

/-! ### What passes for an old value -/

theorem ofLe_field_append {bytes : List UInt8} {o m n : ℕ} (h : o + m ≤ bytes.length) :
    ofLe (field bytes o (m + n)) = ofLe (field bytes o m) + 256 ^ m * ofLe (field bytes (o + m) n) := by
  have hsplit : field bytes o (m + n) = field bytes o m ++ field bytes (o + m) n := by
    unfold field
    rw [List.take_add, List.drop_drop]
  rw [hsplit, ofLe_append, length_field h]

omit [Narrow F S] in
/-- Only a bit of the magic makes a record pass for an old value. -/
theorem Opens.legacy_iff (hR : Opens crates R kinds kind p) : IsLegacy (flipBit R i bit) ↔ i < 4 := by
  have h16 : headerLen = 16 := rfl
  have hlong := hR.long
  have hlen : ¬ (flipBit R i bit).length < 4 := by
    rw [length_flipBit]
    omega
  have htake : (flipBit R i bit).take 4 = flipBit (R.take 4) i bit := List.take_modify _ _ _ _
  have hlt : i < 4 ↔ i < (R.take 4).length := by
    rw [List.length_take]
    omega
  constructor
  · intro h
    by_contra hge
    refine h.resolve_left hlen ?_
    rw [htake]
    exact (List.modify_eq_self (by omega)).trans hR.begins
  · intro h
    refine .inr ?_
    rw [htake, ← hR.begins]
    exact flipBit_ne bit (hlt.mp h)

/-- An old location would have a vector longer than the record. -/
theorem Opens.legacyLocation_fails (hR : Opens crates R kinds kind p) (hbin : ReadsWithin crates) (hi : i < 4)
    (hsome : headerLen < R.length) (legacy : Precision) (loc : HardLocation F) :
    legacyLocation crates (flipBit R i bit) legacy ≠ .ok loc := by
  intro h
  have h16 : headerLen = 16 := rfl
  have hlen := hR.length
  rw [List.length_drop] at hlen
  have hdeclared : R.length - headerLen ≤ ofLe (field (flipBit R i bit) 8 8) := by
    calc R.length - headerLen = u32At R 8 := hlen
      _ ≤ ofLe (field R 8 4) + 256 ^ 4 * ofLe (field R (8 + 4) 4) := Nat.le_add_right _ _
      _ = ofLe (field R 8 8) := (ofLe_field_append (by omega)).symm
      _ = ofLe (field (flipBit R i bit) 8 8) := congrArg ofLe (field_flipBit_of_lt 8 bit (by omega)).symm
  unfold legacyLocation at h
  obtain ⟨decoded, hdec, -⟩ := outcome_bind_ok_iff.mp h
  have hbound : 16 + ofLe (field (flipBit R i bit) 8 8) * 4 ≤ R.length := by
    cases legacy
    · cases hb : crates.location (flipBit R i bit) with
      | error e => rw [hb] at hdec; cases hdec
      | ok c =>
        have hwithin := hbin.location hb
        rw [length_flipBit] at hwithin
        omega
    · cases hb : crates.compactLocation (flipBit R i bit) with
      | error e => rw [hb] at hdec; cases hdec
      | ok c =>
        have hwithin := hbin.compactLocation hb
        rwa [length_flipBit] at hwithin
  omega

/-- An old document would have a vector of at least `2 ^ 32` floats. -/
theorem Opens.legacyDocument_fails (hR : Opens crates R kinds kind p) (hbin : ReadsWithin crates) (hi : i < 4)
    (legacy : Precision) (doc : List F × List UInt8) :
    legacyDocument crates (flipBit R i bit) legacy ≠ .ok doc := by
  intro h
  have h16 : headerLen = 16 := rfl
  have hlong := hR.long
  have hlen := hR.length
  have hlt := u32At_lt R 8
  rw [List.length_drop] at hlen
  have hversion : 1 ≤ ofLe (field R 4 4) := by
    have hbyte := hR.version
    rw [List.getElem?_eq_getElem (by omega), Option.some.injEq] at hbyte
    unfold field
    rw [List.drop_eq_getElem_cons (by omega), List.take_succ_cons, ofLe, hbyte]
    exact Nat.le_add_right 1 _
  have hdeclared : 2 ^ 32 ≤ ofLe (field (flipBit R i bit) 0 8) := by
    calc 2 ^ 32 = 256 ^ 4 * 1 := by norm_num
      _ ≤ 256 ^ 4 * ofLe (field R 4 4) := Nat.mul_le_mul_left _ hversion
      _ = 256 ^ 4 * ofLe (field (flipBit R i bit) (0 + 4) 4) := by
        rw [field_flipBit_of_lt 4 bit (by omega)]
      _ ≤ ofLe (field (flipBit R i bit) 0 4) + 256 ^ 4 * ofLe (field (flipBit R i bit) (0 + 4) 4) :=
        Nat.le_add_left _ _
      _ = ofLe (field (flipBit R i bit) 0 8) :=
        (ofLe_field_append (by rw [length_flipBit]; omega)).symm
  have hbound : 8 + ofLe (field (flipBit R i bit) 0 8) * 4 ≤ R.length := by
    unfold legacyDocument at h
    cases legacy
    · cases hb : crates.document (flipBit R i bit) with
      | error e => simp only [hb] at h; cases h
      | ok c =>
        have hwithin := hbin.document hb
        rw [length_flipBit] at hwithin
        omega
    · cases hb : crates.compactDocument (flipBit R i bit) with
      | error e => simp only [hb] at h; cases h
      | ok c =>
        have hwithin := hbin.compactDocument hb
        rwa [length_flipBit] at hwithin
  omega

/-! ### What decodes -/

theorem Opened.lt {kind' : UInt8} {p' : Precision} (h : Opened kind p bit i kind' p') : 4 ≤ i ∧ i < 8 := by
  cases h <;> decide

/-- **The locations a record reads as with one bit inverted.** -/
theorem Opens.decodeLocation_flip_iff [LeBytes F 8] [LeBytes S 4]
    (hR : Opens crates R [kindLocation, kindPlainLocation] kind p)
    (hcrc : Detects crates) (hbin : ReadsWithin crates) (hi : i < R.length) (hsome : headerLen < R.length)
    {legacy : Precision} {loc : HardLocation F} :
    decodeLocation crates (flipBit R i bit) legacy = .ok loc ↔
      ∃ kind' p', kind' ∈ [kindLocation, kindPlainLocation] ∧ Opened kind p bit i kind' p' ∧
        Accounts (R.drop headerLen) (neighborsAt kind' p' (R.drop headerLen)) 8 ∧
        loc = locationAt kind' p' (R.drop headerLen) := by
  have hdrop : ∀ {kind' p'}, Opened kind p bit i kind' p' →
      (flipBit R i bit).drop headerLen = R.drop headerLen := fun h =>
    drop_flipBit_of_lt bit (by have h16 : headerLen = 16 := rfl; have := h.lt; omega)
  rw [decodeLocation_ok_iff]
  constructor
  · intro h
    rcases h with ⟨hl, hold⟩ | ⟨kind', p', ho, hacc, hloc⟩
    · exact absurd hold (hR.legacyLocation_fails hbin (hR.legacy_iff.mp hl) hsome legacy loc)
    · obtain ⟨hk, hopened⟩ := (hR.flip_iff hcrc hi).mp ho
      rw [hdrop hopened] at hacc hloc
      exact ⟨kind', p', hk, hopened, hacc, hloc⟩
  · intro h
    obtain ⟨kind', p', hk, hopened, hacc, hloc⟩ := h
    refine .inr ⟨kind', p', (hR.flip_iff hcrc hi).mpr ⟨hk, hopened⟩, ?_⟩
    rw [hdrop hopened]
    exact ⟨hacc, hloc⟩

/-- **The documents a record reads as with one bit inverted.** -/
theorem Opens.decodeDocumentParts_flip_iff [LeBytes F 8] [LeBytes S 4]
    (hR : Opens crates R [kindDocument, kindDocumentRef] kind p)
    (hcrc : Detects crates) (hbin : ReadsWithin crates) (hi : i < R.length)
    {legacy : Precision} {doc : DocVector F × List UInt8} :
    decodeDocumentParts crates (flipBit R i bit) legacy = .ok doc ↔
      ∃ kind' p', kind' ∈ [kindDocument, kindDocumentRef] ∧ Opened kind p bit i kind' p' ∧
        Accounts (R.drop headerLen) (metadataAt kind' p' (R.drop headerLen)) 1 ∧
        doc = documentAt kind' p' (R.drop headerLen) := by
  have hdrop : ∀ {kind' p'}, Opened kind p bit i kind' p' →
      (flipBit R i bit).drop headerLen = R.drop headerLen := fun h =>
    drop_flipBit_of_lt bit (by have h16 : headerLen = 16 := rfl; have := h.lt; omega)
  rw [decodeDocumentParts_ok_iff]
  constructor
  · intro h
    rcases h with ⟨hl, vector, metadata, hold, -⟩ | ⟨kind', p', ho, hacc, hdoc⟩
    · exact absurd hold (hR.legacyDocument_fails hbin (hR.legacy_iff.mp hl) legacy _)
    · obtain ⟨hk, hopened⟩ := (hR.flip_iff hcrc hi).mp ho
      rw [hdrop hopened] at hacc hdoc
      exact ⟨kind', p', hk, hopened, hacc, hdoc⟩
  · intro h
    obtain ⟨kind', p', hk, hopened, hacc, hdoc⟩ := h
    refine .inr ⟨kind', p', (hR.flip_iff hcrc hi).mpr ⟨hk, hopened⟩, ?_⟩
    rw [hdrop hopened]
    exact ⟨hacc, hdoc⟩

end Opens

/-! ### Kinds and precisions one bit apart -/

variable [Scalar F] [LeBytes S 4]

def otherKind (kind : UInt8) : UInt8 := if kind = kindPlainLocation then kindLocation else kindPlainLocation

def otherPrecision : Precision → Precision
  | .f64 => .f32
  | .f32 => .f64

theorem flip_locationKind {kind : UInt8} (hk : kind ∈ [kindLocation, kindPlainLocation]) (bit : Fin 8) :
    (flip bit kind ∈ [kindLocation, kindPlainLocation] ↔ bit = 1) ∧ flip 1 kind = otherKind kind := by
  simp only [List.mem_cons, List.not_mem_nil, or_false] at hk
  rcases hk with rfl | rfl
  · revert bit
    decide
  · revert bit
    decide

theorem flip_documentKind {kind : UInt8} (hk : kind ∈ [kindDocument, kindDocumentRef]) (bit : Fin 8) :
    flip bit kind ∉ [kindDocument, kindDocumentRef] := by
  simp only [List.mem_cons, List.not_mem_nil, or_false] at hk
  rcases hk with rfl | rfl
  · revert bit
    decide
  · revert bit
    decide

theorem flip_precision {p p' : Precision} {bit : Fin 8} :
    precisionByte p' = flip bit (precisionByte p) ↔ bit = 0 ∧ p' = otherPrecision p := by
  revert bit
  cases p <;> cases p' <;> decide

/-! ### Reported or misread -/

/-- With the bit inverted, decoding fails or returns the value the record
decodes to. -/
def Reported {α : Type} (decode : List UInt8 → Outcome α) (Equal : α → α → Prop) (bytes : List UInt8)
    (i : ℕ) (bit : Fin 8) : Prop :=
  ∀ v', decode (flipBit bytes i bit) = .ok v' → ∃ v, decode bytes = .ok v ∧ Equal v' v

/-- The same document, its vector equal. -/
def EqualDocument : DocVector F × List UInt8 → DocVector F × List UInt8 → Prop
  | (.inline v, m), (.inline v', m') => EqualVec v v' ∧ m = m'
  | (.location id, m), (.location id', m') => id = id' ∧ m = m'
  | _, _ => False

theorem EqualDocument.refl : ∀ doc : DocVector F × List UInt8, EqualDocument doc doc
  | (.inline v, _) => ⟨.refl v, rfl⟩
  | (.location _, _) => ⟨rfl, rfl⟩

theorem EqualDocument.metadata : ∀ {a b : DocVector F × List UInt8}, EqualDocument a b → a.2 = b.2
  | (.inline _, _), (.inline _, _), h => h.2
  | (.location _, _), (.location _, _), h => h.2
  | (.inline _, _), (.location _, _), h => h.elim
  | (.location _, _), (.inline _, _), h => h.elim

variable [LeBytes F 8]

/-- The bit turns the kind or the precision of a location with a vector into
the other, and the count of neighbors found there accounts for the payload. -/
def LocationSlips (loc : HardLocation F) (p : Precision) (bytes : List UInt8) (i : ℕ) (bit : Fin 8) : Prop :=
  loc.address ≠ [] ∧
    ((i = 5 ∧ bit = 1 ∧ Accounts (bytes.drop headerLen)
        (28 + vectorsOf (otherKind (kindOf loc)) * (loc.address.length * width p)) 8) ∨
      (i = 6 ∧ bit = 0 ∧ Accounts (bytes.drop headerLen)
        (28 + vectorsOf (kindOf loc) * (loc.address.length * width (otherPrecision p))) 8))

/-- The bit turns the precision of a document with a vector into the other,
and the metadata length found there accounts for the payload. -/
def DocumentSlips (vector : List F) (p : Precision) (bytes : List UInt8) (i : ℕ) (bit : Fin 8) : Prop :=
  vector ≠ [] ∧ i = 6 ∧ bit = 0 ∧
    Accounts (bytes.drop headerLen) (4 + vector.length * width (otherPrecision p)) 1

omit [Scalar F] in
theorem floatsOf_nil (p : Precision) : (Reader.floatsOf p [] : List F) = [] := by cases p <;> rfl

theorem field_zero (payload : List UInt8) (o : ℕ) : field payload o 0 = [] := rfl

omit [Scalar F] in
/-- Without a vector both layouts are one. -/
theorem locationAt_of_empty {payload : List UInt8} (h : u32At payload 8 = 0) (kind kind' : UInt8)
    (p p' : Precision) :
    (locationAt kind p payload : HardLocation F) = locationAt kind' p' payload := by
  unfold locationAt neighborsAt
  simp only [h, Nat.zero_mul, Nat.mul_zero, field_zero, floatsOf_nil, ite_self]

omit [Scalar F] in
theorem documentAt_of_empty {payload : List UInt8} (h : u32At payload 0 = 0) (p p' : Precision) :
    (documentAt kindDocument p payload : DocVector F × List UInt8) = documentAt kindDocument p' payload := by
  unfold documentAt metadataAt
  simp only [h, Nat.zero_mul, field_zero, floatsOf_nil]

theorem width_other (p : Precision) : width (otherPrecision p) ≠ width p := by cases p <;> decide

theorem vectorsOf_other (kind : UInt8) : vectorsOf (otherKind kind) ≠ vectorsOf kind := by
  unfold otherKind vectorsOf
  by_cases hk : kind = kindPlainLocation
  · rw [if_pos hk, if_pos hk]
    decide
  · rw [if_neg hk, if_neg hk]
    decide

section Location

variable {crates}

/-- A location whose payload is accounted for in two layouts has another
number of neighbors in each. -/
theorem neighbors_ne {payload : List UInt8} {kind kind' : UInt8} {p p' : Precision}
    (h : Accounts payload (neighborsAt kind p payload) 8)
    (h' : Accounts payload (neighborsAt kind' p' payload) 8)
    (hne : neighborsAt kind' p' payload ≠ neighborsAt kind p payload) :
    ¬ EqualLocation (locationAt kind' p' payload : HardLocation F) (locationAt kind p payload) := by
  intro heq
  obtain ⟨-, -, hn⟩ := lengths_locationAt (F := F) h
  obtain ⟨-, -, hn'⟩ := lengths_locationAt (F := F) h'
  rw [heq.neighbors, hn] at hn'
  unfold Accounts at h h'
  omega

/-- The undamaged record, part by part. -/
theorem encodeLocation_opens {loc : HardLocation F} {p : Precision} {bytes : List UInt8} (h64 : InU64 loc)
    (henc : encodeLocation crates loc p = .ok bytes) :
    Opens crates bytes [kindLocation, kindPlainLocation] (kindOf loc) p ∧ headerLen < bytes.length ∧
      u32At (bytes.drop headerLen) 8 = loc.address.length ∧
      Accounts (bytes.drop headerLen) (neighborsAt (kindOf loc) p (bytes.drop headerLen)) 8 := by
  obtain ⟨hlen, hfits, rfl⟩ := (encodeLocation_ok_iff crates).mp henc
  obtain ⟨hd, hn⟩ := lengths_of_size hfits
  obtain ⟨hacc, hloc, -⟩ := readLocation_ok_iff.mp (reads_location p h64 hlen hd hn)
  have hpayload := length_locationPayload hlen p loc.address.length loc.neighbors.length
  refine ⟨opens_record crates (by rwa [hpayload]) (kindOf_mem loc), ?_, ?_, hacc⟩
  · rw [length_record, hpayload]
    unfold locationSize
    omega
  · rw [drop_record, ← (lengths_locationAt (F := F) hacc).1, ← hloc]
    exact length_atPrecision p loc.address

/-- **A damaged location is reported unless it slips.** -/
theorem location_reported_iff (hcrc : Detects crates) (hbin : ReadsWithin crates) {loc : HardLocation F}
    {p : Precision} {bytes : List UInt8} (h64 : InU64 loc) (henc : encodeLocation crates loc p = .ok bytes)
    (legacy : Precision) {i : ℕ} (hi : i < bytes.length) (bit : Fin 8) :
    Reported (decodeLocation crates · legacy) EqualLocation bytes i bit ↔ ¬ LocationSlips loc p bytes i bit := by
  obtain ⟨hR, hsome, hd, hacc⟩ := encodeLocation_opens h64 henc
  have hback : decodeLocation crates bytes legacy = .ok (locationAt (kindOf loc) p (bytes.drop headerLen)) :=
    (decodeLocation_ok_iff crates).mpr (.inr ⟨_, _, hR, hacc, rfl⟩)
  have ho : ∀ kind p', neighborsAt kind p' (bytes.drop headerLen) =
      28 + vectorsOf kind * (loc.address.length * width p') := fun kind p' => by
    unfold neighborsAt
    rw [hd]
  constructor
  · rintro hrep ⟨hne, hslip⟩
    have hpos : 0 < loc.address.length := List.length_pos_iff.mpr hne
    -- the other layout decodes, to another number of neighbors
    have hmisread : ∀ kind' p', kind' ∈ [kindLocation, kindPlainLocation] → Opened (kindOf loc) p bit i kind' p' →
        Accounts (bytes.drop headerLen) (neighborsAt kind' p' (bytes.drop headerLen)) 8 →
        neighborsAt kind' p' (bytes.drop headerLen) ≠ neighborsAt (kindOf loc) p (bytes.drop headerLen) →
        False := by
      intro kind' p' hk hopened hacc' hoff
      obtain ⟨v, hv, heq⟩ := hrep _
        ((hR.decodeLocation_flip_iff hcrc hbin hi hsome).mpr ⟨kind', p', hk, hopened, hacc', rfl⟩)
      obtain rfl := Except.ok.inj (hback.symm.trans hv)
      exact neighbors_ne hacc hacc' hoff heq
    rcases hslip with ⟨rfl, rfl, hacc'⟩ | ⟨rfl, rfl, hacc'⟩
    · have hother := flip_locationKind (kindOf_mem loc) 1
      refine hmisread _ p (hother.1.mpr rfl) .kind ?_ ?_
      · rwa [hother.2, ho]
      · rw [hother.2, ho, ho]
        intro heq
        have hv := Nat.eq_of_mul_eq_mul_right (Nat.mul_pos hpos (width_pos p)) (Nat.add_left_cancel heq)
        exact vectorsOf_other _ hv
    · refine hmisread _ (otherPrecision p) (kindOf_mem loc) (.precision (flip_precision.mpr ⟨rfl, rfl⟩)) ?_ ?_
      · rwa [ho]
      · rw [ho, ho]
        intro heq
        have hw := Nat.eq_of_mul_eq_mul_left (vectorsOf_pos (kindOf loc)) (Nat.add_left_cancel heq)
        exact width_other p (Nat.eq_of_mul_eq_mul_left hpos hw)
  · intro hnot v' hv'
    refine ⟨_, hback, ?_⟩
    obtain ⟨kind', p', hk, hopened, hacc', rfl⟩ := (hR.decodeLocation_flip_iff hcrc hbin hi hsome).mp hv'
    by_cases hempty : loc.address = []
    · have hzero : u32At (bytes.drop headerLen) 8 = 0 := by rw [hd, hempty, List.length_nil]
      rw [locationAt_of_empty hzero kind' (kindOf loc) p' p]
      exact .refl _
    cases hopened with
    | kind =>
      have hbit := (flip_locationKind (kindOf_mem loc) bit).1.mp hk
      subst hbit
      rw [(flip_locationKind (kindOf_mem loc) 1).2, ho] at hacc'
      exact absurd ⟨hempty, .inl ⟨rfl, rfl, hacc'⟩⟩ hnot
    | precision hp =>
      obtain ⟨rfl, rfl⟩ := flip_precision.mp hp
      rw [ho] at hacc'
      exact absurd ⟨hempty, .inr ⟨rfl, rfl, hacc'⟩⟩ hnot
    | reserved => exact .refl _

end Location

section Document

variable {crates}

/-- **A damaged document is reported unless it slips.** -/
theorem document_reported_iff (hcrc : Detects crates) (hbin : ReadsWithin crates) {vector : List F}
    {metadata bytes : List UInt8} {p : Precision} (henc : encodeDocument crates vector metadata p = .ok bytes)
    (legacy : Precision) {i : ℕ} (hi : i < bytes.length) (bit : Fin 8) :
    Reported (decodeDocumentParts crates · legacy) EqualDocument bytes i bit ↔
      ¬ DocumentSlips vector p bytes i bit := by
  obtain ⟨hfits, rfl⟩ := (encodeDocument_ok_iff crates).mp henc
  have hR := encodeDocument_opens crates hfits
  obtain ⟨hacc, -, -⟩ := readDocument_ok_iff.mp (reads_document hfits)
  set payload := toLe 4 vector.length ++ putFloats vector p ++ toLe 4 metadata.length ++ metadata with hpayload
  have hd : u32At payload 0 = vector.length := by
    have hlt : vector.length < 256 ^ 4 := by
      have := Nat.le_mul_of_pos_right vector.length (width_pos p)
      unfold documentSize at hfits
      omega
    exact ofLe_toLe hlt
  have hback : decodeDocumentParts crates (record crates kindDocument p payload) legacy =
      .ok (documentAt kindDocument p payload) :=
    (decodeDocumentParts_ok_iff crates).mpr (.inr ⟨_, _, hR, hacc, rfl⟩)
  have ho : ∀ p', metadataAt kindDocument p' payload = 4 + vector.length * width p' := fun p' => by
    show 4 + u32At payload 0 * width p' = _
    rw [hd]
  constructor
  · rintro hrep ⟨hne, rfl, rfl, hacc'⟩
    rw [drop_record, ← ho] at hacc'
    obtain ⟨v, hv, heq⟩ := hrep _ ((hR.decodeDocumentParts_flip_iff hcrc hbin hi).mpr
      ⟨kindDocument, otherPrecision p, by decide, .precision (flip_precision.mpr ⟨rfl, rfl⟩), hacc', rfl⟩)
    obtain rfl := Except.ok.inj (hback.symm.trans hv)
    -- the metadata of the two layouts differ in length
    have hm := congrArg List.length heq.metadata
    have hoff : metadataAt kindDocument (otherPrecision p) payload ≠ metadataAt kindDocument p payload := by
      rw [ho, ho]
      intro heq
      exact width_other p (Nat.eq_of_mul_eq_mul_left (List.length_pos_iff.mpr hne) (Nat.add_left_cancel heq))
    have hlen : ∀ p', Accounts payload (metadataAt kindDocument p' payload) 1 →
        (documentAt kindDocument p' payload : DocVector F × List UInt8).2.length =
          u32At payload (metadataAt kindDocument p' payload) := fun p' hacc => by
      unfold Accounts at hacc
      exact length_field (by omega)
    rw [drop_record, hlen _ hacc', hlen _ hacc] at hm
    unfold Accounts at hacc hacc'
    omega
  · intro hnot v' hv'
    refine ⟨_, hback, ?_⟩
    obtain ⟨kind', p', hk, hopened, hacc', rfl⟩ := (hR.decodeDocumentParts_flip_iff hcrc hbin hi).mp hv'
    rw [drop_record] at hacc' ⊢
    cases hopened with
    | kind => exact absurd hk (flip_documentKind (by decide) bit)
    | precision hp =>
      obtain ⟨rfl, rfl⟩ := flip_precision.mp hp
      by_cases hempty : vector = []
      · have hzero : u32At payload 0 = 0 := by rw [hd, hempty, List.length_nil]
        rw [documentAt_of_empty hzero (otherPrecision p) p]
        exact .refl _
      · rw [ho] at hacc'
        exact absurd ⟨hempty, rfl, rfl, hacc'⟩ hnot
    | reserved => exact .refl _

/-- **A damaged reference is always reported.** -/
theorem documentRef_reported (hcrc : Detects crates) (hbin : ReadsWithin crates) {location : ℕ}
    {metadata bytes : List UInt8} {p : Precision} (h64 : location < 2 ^ 64)
    (henc : encodeDocumentRef crates location metadata p = .ok bytes)
    (legacy : Precision) {i : ℕ} (hi : i < bytes.length) (bit : Fin 8) :
    Reported (decodeDocumentParts crates · legacy) (EqualDocument (F := F)) bytes i bit := by
  obtain ⟨hfits, rfl⟩ := (encodeDocumentRef_ok_iff crates).mp henc
  have hR := encodeDocumentRef_opens crates location p hfits
  obtain ⟨hacc, -, -⟩ := (readDocument_ok_iff (F := F)).mp (reads_documentRef p h64 hfits)
  intro v' hv'
  refine ⟨documentAt kindDocumentRef p _, (decodeDocumentParts_ok_iff crates).mpr (.inr ⟨_, _, hR, hacc, rfl⟩), ?_⟩
  obtain ⟨kind', p', hk, hopened, -, rfl⟩ := (hR.decodeDocumentParts_flip_iff hcrc hbin hi).mp hv'
  cases hopened with
  | kind => exact absurd hk (flip_documentKind (by decide) bit)
  | precision => exact .refl _
  | reserved => exact .refl _

end Document

/-- **Damage is reported exactly when no layout slips.** Of a record with one
bit inverted, decoding fails or returns what the record decodes to, unless
the bit is that of a location's kind or of its or a document's precision and
the count found in the other layout accounts for the payload. -/
theorem damage_reported_iff (hcrc : Detects crates) (hbin : ReadsWithin crates) (p legacy : Precision)
    (i : ℕ) (bit : Fin 8) :
    (∀ (loc : HardLocation F) (bytes : List UInt8), InU64 loc → encodeLocation crates loc p = .ok bytes →
      i < bytes.length →
      (Reported (decodeLocation crates · legacy) EqualLocation bytes i bit ↔ ¬ LocationSlips loc p bytes i bit)) ∧
    (∀ (vector : List F) (metadata bytes : List UInt8), encodeDocument crates vector metadata p = .ok bytes →
      i < bytes.length →
      (Reported (decodeDocumentParts crates · legacy) EqualDocument bytes i bit ↔
        ¬ DocumentSlips vector p bytes i bit)) ∧
    (∀ (location : ℕ) (metadata bytes : List UInt8), location < 2 ^ 64 →
      encodeDocumentRef crates location metadata p = .ok bytes → i < bytes.length →
      Reported (decodeDocumentParts crates · legacy) (EqualDocument (F := F)) bytes i bit) :=
  ⟨fun _ _ h64 henc hi => location_reported_iff hcrc hbin h64 henc legacy hi bit,
    fun _ _ _ henc hi => document_reported_iff hcrc hbin henc legacy hi bit,
    fun _ _ _ h64 henc hi => documentRef_reported hcrc hbin h64 henc legacy hi bit⟩

/-- A plain location of one dimension, its precision damaged: the other
layout does not account for the payload. -/
theorem damage_reported_fixed :
    ∃ bytes, encodeLocation fixedCrates plainFixed .f64 = .ok bytes ∧
      Reported (decodeLocation fixedCrates · .f32) EqualLocation bytes 6 0 := by
  refine ⟨_, (encodeLocation_ok_iff fixedCrates).mpr ⟨rfl, by decide, rfl⟩, ?_⟩
  refine ((damage_reported_iff fixedCrates fixedCrates_detects fixedCrates_readsWithin .f64 .f32 6 0).1
    plainFixed _ ⟨by decide, by decide⟩ ((encodeLocation_ok_iff fixedCrates).mpr ⟨rfl, by decide, rfl⟩)
    (by rw [length_record]; decide)).mpr ?_
  rintro ⟨-, ⟨h, -⟩ | ⟨-, -, hacc⟩⟩
  · exact absurd h (by decide)
  · rw [drop_record] at hacc
    exact absurd hacc (by decide)

/-- The same location, its kind damaged: it reads as one with a counter and
no neighbors. -/
theorem kind_misread :
    Detects fixedCrates ∧ ReadsWithin fixedCrates ∧
      ∃ bytes, encodeLocation fixedCrates plainFixed .f64 = .ok bytes ∧ 5 < bytes.length ∧
        ¬ Reported (decodeLocation fixedCrates · .f64) EqualLocation bytes 5 1 := by
  have henc : ∃ bytes, encodeLocation fixedCrates plainFixed .f64 = .ok bytes :=
    ⟨_, (encodeLocation_ok_iff fixedCrates).mpr ⟨rfl, by decide, rfl⟩⟩
  obtain ⟨bytes, henc⟩ := henc
  obtain ⟨-, -, rfl⟩ := (encodeLocation_ok_iff fixedCrates).mp henc
  refine ⟨fixedCrates_detects, fixedCrates_readsWithin, _, henc, by rw [length_record]; decide, ?_⟩
  rw [location_reported_iff fixedCrates_detects fixedCrates_readsWithin ⟨by decide, by decide⟩ henc .f64
    (by rw [length_record]; decide), not_not]
  refine ⟨by decide, .inl ⟨rfl, rfl, ?_⟩⟩
  rw [drop_record]
  decide


end Damage

end Codec

end HeatherDb
