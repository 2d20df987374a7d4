/-
# What is assumed of other code

The codec's results rest on three things it does not decide: how the language
rounds a float to single precision and back, that CRC-32 detects a change of
one bit, and that `bincode` reads a vector as its length and its elements.
Beside each stands something that meets it, on which the codec evaluates down
to the bytes: fixed-point numbers of 64 bits with their upper half for the
single format, CRC-32 as it is computed, and `bincode` with fixed-width
integers as far as the old values use it.

Key definitions: `EqualOrNan`, `IEEENarrow`, `Detects`, `ReadsWithin`, `Fixed`,
`fixedCrates`, `plainFixed`.
Key theorems: `fixedCrates_detects`, `fixedCrates_readsWithin`.
-/
import HeatherDb.Layout
import HeatherDb.Lib.Crc32
import Mathlib.Data.Rat.Floor

namespace HeatherDb

namespace Codec

open Bytes Narrow Scalar

section Floats

variable {F : Type} [Scalar F]

/-- Equal under `==`, or neither is a number. -/
def EqualOrNan (x y : F) : Prop := eq x y = true ∨ (eq x x = false ∧ eq y y = false)

theorem EqualOrNan.of_same {x y : F} (h : Same x y) : EqualOrNan x y := by
  rcases h with rfl | h
  · cases hx : eq x x with
    | true => exact .inl hx
    | false => exact .inr ⟨hx, hx⟩
  · exact .inl h

theorem EqualOrNan.trans {x y z : F} : EqualOrNan x y → EqualOrNan y z → EqualOrNan x z
  | .inl h, .inl h' => .inl (eq_trans h h')
  | .inl h, .inr h' => absurd (eq_trans (eq_symm h) h) (by simp [h'.1])
  | .inr h, .inl h' => absurd (eq_trans h' (eq_symm h')) (by simp [h.2])
  | .inr h, .inr h' => .inr ⟨h.1, h'.2⟩

/-- Single precision beside double, as IEEE has it: equal numbers round to
equal ones, and a single widened rounds to itself. -/
class IEEENarrow (F : Type) {S : Type} [Scalar F] [Narrow F S] : Prop where
  round_eq : ∀ {x y : F}, eq x y = true → eq (toF64 (toF32 x) : F) (toF64 (toF32 y)) = true
  narrow_widen : ∀ s : S, EqualOrNan (toF64 (toF32 (toF64 s : F)) : F) (toF64 s)

end Floats

section Crates

variable {F S : Type} (crates : Crates F S)

/-- CRC-32 detects every change of one bit. -/
def Detects : Prop :=
  ∀ (bytes : List UInt8) (i : ℕ) (bit : Fin 8), i < bytes.length →
    crates.crc32 (flipBit bytes i bit) ≠ crates.crc32 bytes

/-- `bincode` with fixed-width integers writes a vector as its length, a
`u64`, and its elements, and reads no more than it was given. -/
structure ReadsWithin : Prop where
  location : ∀ {bytes loc}, crates.location bytes = .ok loc → 16 + ofLe (field bytes 8 8) * 8 ≤ bytes.length
  compactLocation : ∀ {bytes loc}, crates.compactLocation bytes = .ok loc →
    16 + ofLe (field bytes 8 8) * 4 ≤ bytes.length
  document : ∀ {bytes doc}, crates.document bytes = .ok doc → 8 + ofLe (field bytes 0 8) * 8 ≤ bytes.length
  compactDocument : ∀ {bytes doc}, crates.compactDocument bytes = .ok doc →
    8 + ofLe (field bytes 0 8) * 4 ≤ bytes.length

end Crates

end Codec

/-! ### Fixed-point numbers -/

/-- A number of 64 bits, the lower 32 behind the point. -/
structure Fixed where
  bits : BitVec 64
deriving DecidableEq

/-- Its upper half. -/
structure Half where
  bits : BitVec 32
deriving DecidableEq

namespace Fixed

def ofNat (n : ℕ) : Fixed := ⟨.ofNat 64 n⟩

def toNat (x : Fixed) : ℕ := x.bits.toNat

end Fixed

instance : Scalar Fixed where
  add x y := ⟨x.bits + y.bits⟩
  sub x y := ⟨x.bits - y.bits⟩
  mul x y := .ofNat (x.toNat * y.toNat / 2 ^ 32)
  div x y := .ofNat (x.toNat * 2 ^ 32 / y.toNat)
  neg x := ⟨-x.bits⟩
  lit q := ⟨.ofInt 64 ⌊q * 2 ^ 32⌋⟩
  sqrt x := .ofNat (Nat.sqrt (x.toNat * 2 ^ 32))
  log2 x := .ofNat (Nat.log2 (x.toNat / 2 ^ 32) * 2 ^ 32)
  ln x := .ofNat (Nat.log2 (x.toNat / 2 ^ 32) * 2 ^ 32 * 69 / 100)
  lt x y := decide (x.toNat < y.toNat)
  le x y := decide (x.toNat ≤ y.toNat)
  eq x y := decide (x = y)
  totalCmp x y := compare x.toNat y.toNat
  isFinite _ := true
  aboveNegInf _ := true
  belowInf _ := true
  ceilUsize x := (x.toNat + 2 ^ 32 - 1) / 2 ^ 32
  display x := toString x.toNat
  eq_symm h := decide_eq_true (of_decide_eq_true h).symm
  eq_trans h h' := decide_eq_true ((of_decide_eq_true h).trans (of_decide_eq_true h'))

instance : Narrow Fixed Half where
  toF32 x := ⟨(x.bits >>> 32).setWidth 32⟩
  toF64 s := ⟨s.bits.setWidth 64 <<< 32⟩

namespace Codec

open Bytes LeBytes Narrow Parser

instance : LeBytes Fixed 8 where
  toLeBytes x := toLe 8 x.bits.toNat
  fromLeBytes bs := .ofNat (ofLe bs)
  length_toLeBytes _ := length_toLe 8 _
  from_toLeBytes x := by
    rw [ofLe_toLe x.bits.isLt]
    exact congrArg Fixed.mk (BitVec.ofNat_toNat 64 x.bits)

instance : LeBytes Half 4 where
  toLeBytes s := toLe 4 s.bits.toNat
  fromLeBytes bs := ⟨.ofNat 32 (ofLe bs)⟩
  length_toLeBytes _ := length_toLe 4 _
  from_toLeBytes s := by
    rw [ofLe_toLe s.bits.isLt]
    exact congrArg Half.mk (BitVec.ofNat_toNat 32 s.bits)

theorem narrow_widen (s : Half) : toF32 (toF64 s : Fixed) = s := by
  have hlt := s.bits.isLt
  refine congrArg Half.mk (BitVec.eq_of_toNat_eq ?_)
  simp only [toF64, BitVec.toNat_setWidth, BitVec.toNat_ushiftRight, BitVec.toNat_shiftLeft,
    Nat.shiftLeft_eq, Nat.shiftRight_eq_div_pow]
  omega

instance : IEEENarrow Fixed where
  round_eq h := decide_eq_true (congrArg (fun x : Fixed => (toF64 (toF32 x) : Fixed)) (of_decide_eq_true h))
  narrow_widen s := .of_same (.inl (congrArg toF64 (narrow_widen s)))

/-! ### `bincode` with fixed-width integers -/

/-- A vector: its length and its elements, of `w` bytes each. -/
def bincodeVec {α : Type} (w : ℕ) (f : List UInt8 → α) : Reader (List α) := do
  let n ← Reader.u64
  let raw ← Reader.bytes (n * w)
  pure ((chunks w raw).map f)

/-- A location whose vectors' elements take `w` bytes. -/
def bincodeLocation {V : Type} (w : ℕ) (f : List UInt8 → V) : Reader (LegacyLocation V Fixed) := do
  let id ← Reader.u64
  let address ← bincodeVec w f
  let counter ← bincodeVec w f
  let writeCount ← Reader.f64
  let neighbors ← bincodeVec 8 fun b => UInt64.ofNat (ofLe b)
  let surpriseMass ← Reader.f64
  pure { id := UInt64.ofNat id, address, counter, writeCount, neighbors, surpriseMass }

def bincodeDocument {V : Type} (w : ℕ) (f : List UInt8 → V) : Reader (List V × List UInt8) := do
  let vector ← bincodeVec w f
  let n ← Reader.u64
  let metadata ← Reader.bytes n
  pure (vector, metadata)

/-- A value read off the front, whatever follows it. -/
def bincode {α : Type} (m : Reader α) (bytes : List UInt8) : Except String α :=
  match m bytes with
  | .ok (a, _) => .ok a
  | .error _ => .error "io error: unexpected end of file"

def fixedCrates : Crates Fixed Half where
  crc32 := Crc32.hash
  location := bincode (bincodeLocation 8 fromLeBytes)
  compactLocation := bincode (bincodeLocation 4 fromLeBytes)
  document := bincode (bincodeDocument 8 fromLeBytes)
  compactDocument := bincode (bincodeDocument 4 fromLeBytes)

theorem bincode_ok_iff {α : Type} {m : Reader α} {bytes : List UInt8} {a : α} :
    bincode m bytes = .ok a ↔ ∃ rest, m bytes = .ok (a, rest) := by
  unfold bincode
  cases m bytes with
  | error e => simp
  | ok r =>
    obtain ⟨b, rest⟩ := r
    simp

/-- What a vector read off an offset fits in. -/
theorem bincodeVec_within {α β : Type} {w : ℕ} {f : List UInt8 → α} {g : List α → Reader β}
    {bytes : List UInt8} {o : ℕ} {r : β × List UInt8}
    (h : (bincodeVec w f >>= g) (bytes.drop o) = .ok r) (ho : o ≤ bytes.length) :
    o + 8 + ofLe (field bytes o 8) * w ≤ bytes.length := by
  unfold bincodeVec at h
  simp only [bind_assoc] at h
  obtain ⟨hn, h⟩ := takes_u64.bind_at_iff.mp h
  obtain ⟨hraw, -⟩ := (takes_bytes _).bind_at_iff.mp h
  unfold field
  omega

theorem bincodeLocation_within {V : Type} {w : ℕ} {f : List UInt8 → V} {bytes : List UInt8}
    {loc : LegacyLocation V Fixed} (h : bincode (bincodeLocation w f) bytes = .ok loc) :
    16 + ofLe (field bytes 8 8) * w ≤ bytes.length := by
  obtain ⟨rest, h⟩ := bincode_ok_iff.mp h
  change bincodeLocation w f (bytes.drop 0) = _ at h
  obtain ⟨hid, h⟩ := takes_u64.bind_at_iff.mp h
  exact bincodeVec_within h (by omega)

theorem bincodeDocument_within {V : Type} {w : ℕ} {f : List UInt8 → V} {bytes : List UInt8}
    {doc : List V × List UInt8} (h : bincode (bincodeDocument w f) bytes = .ok doc) :
    8 + ofLe (field bytes 0 8) * w ≤ bytes.length := by
  obtain ⟨rest, h⟩ := bincode_ok_iff.mp h
  change bincodeDocument w f (bytes.drop 0) = _ at h
  have hwithin := bincodeVec_within h (Nat.zero_le _)
  omega

theorem fixedCrates_readsWithin : ReadsWithin fixedCrates :=
  ⟨bincodeLocation_within, bincodeLocation_within, bincodeDocument_within, bincodeDocument_within⟩

/-- CRC-32 as it is computed detects what it is assumed to. -/
theorem fixedCrates_detects : Detects fixedCrates := by
  intro bytes i bit hi
  have hsplit : bytes = bytes.take i ++ bytes[i] :: bytes.drop (i + 1) := by
    rw [← List.drop_eq_getElem_cons hi, List.take_append_drop]
  have hflip : flipBit bytes i bit = bytes.take i ++ flip bit bytes[i] :: bytes.drop (i + 1) :=
    List.modify_eq_take_cons_drop hi
  show Crc32.hash (flipBit bytes i bit) ≠ Crc32.hash bytes
  rw [hflip]
  conv_rhs => rw [hsplit]
  exact Crc32.hash_ne_of_byte (flip_ne bit bytes[i])

/-- A location of one dimension, written verbatim, with one neighbor. -/
def plainFixed : HardLocation Fixed where
  id := 42
  address := [.ofNat (2 ^ 32)]
  counter := [.ofNat (2 ^ 32)]
  writeCount := .ofNat (2 ^ 32)
  neighbors := [5]
  surpriseMass := .ofNat 0

end Codec

end HeatherDb
