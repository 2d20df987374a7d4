/-
# CRC-32

The checksum bit by bit, reflected, with the usual polynomial. A step on the
register can be undone, since the polynomial's top bit tells which of its two
cases was taken; so registers that differ stay different whatever follows,
and byte strings that differ in one byte have different checksums.

Key definitions: `Crc32.step`, `Crc32.hash`.
Key theorems: `Crc32.step_injective`, `Crc32.hash_ne_of_byte`.
-/
import Mathlib.Logic.Function.Iterate
import Mathlib.Data.List.Basic

namespace Crc32

def polynomial : BitVec 32 := 0xEDB88320

/-- One bit leaves the register. -/
def step (c : BitVec 32) : BitVec 32 :=
  if c.getLsbD 0 then (c >>> 1) ^^^ polynomial else c >>> 1

/-- One byte enters the register. -/
def byte (c : BitVec 32) (b : UInt8) : BitVec 32 := step^[8] (c ^^^ b.toBitVec.setWidth 32)

def hash (bytes : List UInt8) : UInt32 := .ofBitVec (~~~ bytes.foldl byte (BitVec.allOnes 32))

/-- The bit that left is the top bit of what remains. -/
theorem top_step (c : BitVec 32) : (step c).getLsbD 31 = c.getLsbD 0 := by
  have htop : polynomial.getLsbD 31 = true := by decide
  unfold step
  split_ifs with h
  · rw [BitVec.getLsbD_xor, htop, h, BitVec.getLsbD_ushiftRight, BitVec.getLsbD_of_ge _ _ (by decide)]
    rfl
  · rw [BitVec.getLsbD_ushiftRight, BitVec.getLsbD_of_ge _ _ (by decide)]
    simpa using h

theorem step_injective : Function.Injective step := by
  intro x y h
  have hlow : x.getLsbD 0 = y.getLsbD 0 := by rw [← top_step x, ← top_step y, h]
  have hshift : x >>> 1 = y >>> 1 := by
    unfold step at h
    rw [hlow] at h
    split_ifs at h
    · exact (BitVec.xor_left_inj _).mp h
    · exact h
  refine BitVec.eq_of_getLsbD_eq fun i _ => ?_
  cases i with
  | zero => exact hlow
  | succ i =>
    have hi := congrArg (·.getLsbD i) hshift
    simpa [BitVec.getLsbD_ushiftRight, Nat.add_comm] using hi

theorem byte_injective (b : UInt8) : Function.Injective (byte · b) := by
  intro x y h
  exact (BitVec.xor_left_inj _).mp (step_injective.iterate 8 h)

theorem byte_ne {c : BitVec 32} {b b' : UInt8} (h : b ≠ b') : byte c b ≠ byte c b' := by
  intro heq
  have hwide := (BitVec.xor_right_inj _).mp (step_injective.iterate 8 heq)
  have hnat := congrArg BitVec.toNat hwide
  rw [BitVec.toNat_setWidth_of_le (by decide), BitVec.toNat_setWidth_of_le (by decide)] at hnat
  exact h (UInt8.toNat_inj.mp hnat)

theorem foldl_byte_injective (bytes : List UInt8) : Function.Injective (bytes.foldl byte) := by
  induction bytes with
  | nil => exact fun _ _ h => h
  | cons b bytes ih => exact fun x y h => byte_injective b (ih h)

/-- **A change within one byte changes the checksum.** -/
theorem hash_ne_of_byte {before behind : List UInt8} {b b' : UInt8} (h : b ≠ b') :
    hash (before ++ b :: behind) ≠ hash (before ++ b' :: behind) := by
  intro heq
  unfold hash at heq
  have hreg := BitVec.not_inj.mp (congrArg UInt32.toBitVec heq)
  rw [List.foldl_append, List.foldl_append, List.foldl_cons, List.foldl_cons] at hreg
  exact byte_ne h (foldl_byte_injective behind hreg)

end Crc32
