/-
# Numbers in bytes

`toLe k n` is `n` in `k` bytes, least significant first, and `ofLe` reads it
back. A list of values of one width is their bytes after another, which
`chunks` cuts apart again. `flipBit` inverts one bit of a byte string.

Key definitions: `toLe`, `ofLe`, `chunks`, `flipBit`.
Key theorems: `ofLe_toLe`, `toLe_ofLe`, `chunks_flatMap`, `flipBit_ne`.
-/
import Mathlib.Data.List.Basic
import Mathlib.Tactic.Ring
import Mathlib.Tactic.NormNum

namespace Bytes

/-! ### Little-endian numbers -/

/-- The number in these bytes. -/
def ofLe : List UInt8 → ℕ
  | [] => 0
  | b :: bs => b.toNat + 256 * ofLe bs

/-- The low `8 * k` bits of a number in `k` bytes. -/
def toLe : ℕ → ℕ → List UInt8
  | 0, _ => []
  | k + 1, n => UInt8.ofNat n :: toLe k (n / 256)

@[simp] theorem length_toLe (k n : ℕ) : (toLe k n).length = k := by
  induction k generalizing n with
  | zero => rfl
  | succ k ih => rw [toLe, List.length_cons, ih]

theorem ofLe_lt (bs : List UInt8) : ofLe bs < 256 ^ bs.length := by
  induction bs with
  | nil => simp [ofLe]
  | cons b bs ih =>
    have hb : b.toNat < 256 := b.toNat_lt
    rw [ofLe, List.length_cons, pow_succ]
    omega

theorem ofLe_toLe_mod (k n : ℕ) : ofLe (toLe k n) = n % 256 ^ k := by
  induction k generalizing n with
  | zero => simp [toLe, ofLe, Nat.mod_one]
  | succ k ih =>
    have hb : (UInt8.ofNat n).toNat = n % 256 := by simp
    rw [toLe, ofLe, ih, hb, pow_succ', Nat.mod_mul]

/-- **A number that fits is read back.** -/
theorem ofLe_toLe {k n : ℕ} (h : n < 256 ^ k) : ofLe (toLe k n) = n := by
  rw [ofLe_toLe_mod, Nat.mod_eq_of_lt h]

/-- Bytes are the bytes of the number they hold. -/
theorem toLe_ofLe (bs : List UInt8) : toLe bs.length (ofLe bs) = bs := by
  induction bs with
  | nil => rfl
  | cons b bs ih =>
    have hb : b.toNat < 256 := b.toNat_lt
    have hdiv : (b.toNat + 256 * ofLe bs) / 256 = ofLe bs := by omega
    have hlow : UInt8.ofNat (b.toNat + 256 * ofLe bs) = b := by
      apply UInt8.toNat_inj.mp
      simp
    rw [List.length_cons, ofLe, toLe, hdiv, ih, hlow]

/-- Byte strings of one length that hold the same number are the same. -/
theorem ofLe_inj {bs cs : List UInt8} (hlen : bs.length = cs.length) (h : ofLe bs = ofLe cs) : bs = cs := by
  calc bs = toLe bs.length (ofLe bs) := (toLe_ofLe bs).symm
    _ = toLe cs.length (ofLe cs) := by rw [hlen, h]
    _ = cs := toLe_ofLe cs

theorem ofLe_append (bs cs : List UInt8) : ofLe (bs ++ cs) = ofLe bs + 256 ^ bs.length * ofLe cs := by
  induction bs with
  | nil => simp [ofLe]
  | cons b bs ih =>
    rw [List.cons_append, ofLe, ofLe, ih, List.length_cons, pow_succ]
    ring

/-! ### Values of one width -/

/-- Cuts a list into pieces of `k`, dropping what is left over. -/
def chunks {α : Type} (k : ℕ) (l : List α) : List (List α) :=
  (List.range (l.length / k)).map fun i => (l.drop (i * k)).take k

@[simp] theorem length_chunks {α : Type} (k : ℕ) (l : List α) : (chunks k l).length = l.length / k := by
  simp [chunks]

theorem chunks_append {α : Type} {k : ℕ} (hk : 0 < k) {c : List α} (hc : c.length = k) (l : List α) :
    chunks k (c ++ l) = c :: chunks k l := by
  have hlen : (c ++ l).length / k = l.length / k + 1 := by
    rw [List.length_append, hc, Nat.add_comm, Nat.add_div_right _ hk]
  unfold chunks
  rw [hlen, List.range_succ_eq_map, List.map_cons, List.map_map]
  congr 1
  · rw [Nat.zero_mul, List.drop_zero, ← hc, List.take_left]
  · refine List.map_congr_left fun i _ => ?_
    have hi : (i + 1) * k = c.length + i * k := by rw [hc]; ring
    show ((c ++ l).drop ((i + 1) * k)).take k = _
    rw [hi, List.drop_length_add_append]

/-- **Pieces of one width after another are cut apart again.** -/
theorem chunks_flatMap {α β : Type} {k : ℕ} (hk : 0 < k) {f : β → List α} (hf : ∀ b, (f b).length = k)
    (l : List β) : chunks k (l.flatMap f) = l.map f := by
  induction l with
  | nil => simp [chunks]
  | cons b l ih => rw [List.flatMap_cons, chunks_append hk (hf b), ih, List.map_cons]

theorem length_flatMap_width {α β : Type} {k : ℕ} {f : β → List α} (hf : ∀ b, (f b).length = k)
    (l : List β) : (l.flatMap f).length = l.length * k := by
  induction l with
  | nil => simp
  | cons b l ih => rw [List.flatMap_cons, List.length_append, hf, ih, List.length_cons]; ring

theorem length_of_mem_chunks {α : Type} {k : ℕ} {l c : List α} (h : c ∈ chunks k l) : c.length = k := by
  obtain ⟨i, hi, rfl⟩ := List.mem_map.mp h
  have hlt : i + 1 ≤ l.length / k := List.mem_range.mp hi
  have hle : (i + 1) * k ≤ l.length := (Nat.mul_le_mul_right k hlt).trans (Nat.div_mul_le_self _ _)
  rw [List.length_take, List.length_drop]
  have hexp : (i + 1) * k = i * k + k := by ring
  omega

/-! ### Damage -/

/-- The byte with one bit inverted. -/
def flip (bit : Fin 8) (b : UInt8) : UInt8 := b ^^^ (1 <<< UInt8.ofNat bit)

/-- The bytes with one bit of one byte inverted. -/
def flipBit (bytes : List UInt8) (i : ℕ) (bit : Fin 8) : List UInt8 := bytes.modify i (flip bit)

theorem flip_ne (bit : Fin 8) (b : UInt8) : flip bit b ≠ b := by
  intro h
  have hmask : (1 <<< UInt8.ofNat bit : UInt8) = 0 :=
    (UInt8.xor_right_inj b).mp (h.trans (UInt8.xor_zero (a := b)).symm)
  clear h
  revert bit
  decide

@[simp] theorem length_flipBit (bytes : List UInt8) (i : ℕ) (bit : Fin 8) :
    (flipBit bytes i bit).length = bytes.length := List.length_modify _ _ _

theorem flipBit_ne {bytes : List UInt8} {i : ℕ} (bit : Fin 8) (h : i < bytes.length) :
    flipBit bytes i bit ≠ bytes := by
  intro heq
  have hi : (flipBit bytes i bit)[i]? = some (flip bit bytes[i]) := by
    simp [flipBit, h]
  have hsame : (flipBit bytes i bit)[i]? = some bytes[i] := by rw [heq, List.getElem?_eq_getElem h]
  exact flip_ne bit _ (Option.some.inj (hi.symm.trans hsame))

end Bytes
