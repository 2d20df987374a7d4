/-
# How records lie in their bytes

What the readers of a payload do on any input: each takes a fixed number of
bytes or fails, and none panics. A location is read exactly when its counts
account for the whole payload, and then its parts lie at fixed offsets; the
same for documents.

Key definitions: `Stop.IsError`, `field`, `Accounts`, `locationAt`.
Key theorems: `readLocation_ok_iff`, `readDocument_ok_iff`,
`readLocation_stops`, `readDocument_stops`.
-/
import HeatherDb.Codec

namespace HeatherDb

namespace Codec

open Bytes Narrow LeBytes Parser

/-- Stopped with an error, not a panic. -/
def Stop.IsError : Stop → Prop
  | .error _ => True
  | .panic _ => False

/-! ### The reader's steps -/

theorem intoArray_of_length {n : ℕ} {bs : List UInt8} (h : bs.length = n) : intoArray n bs = .ok bs :=
  if_pos h

theorem takes_bytes (n : ℕ) : Takes Stop.IsError (Reader.bytes n) n id where
  reads s hn := by
    have hge : ¬ s.length < n := by omega
    show (if s.length < n then _ else _) = _
    rw [if_neg hge]
    exact if_pos hn
  stops s hn := ⟨_, if_pos hn, trivial⟩

/-- Bytes that are read as an array and then as a value. -/
theorem takes_array {α : Type} (n : ℕ) (f : List UInt8 → α) :
    Takes Stop.IsError (Reader.bytes n >>= fun b => do pure (f (← (intoArray n b : Outcome _)))) n f where
  reads s hn := by
    rw [bind_ok_iff]
    have hlen : (s.take n).length = n := by
      rw [List.length_take]
      omega
    refine ⟨s.take n, s.drop n, (takes_bytes n).reads s hn, ?_⟩
    rw [intoArray_of_length hlen]
    rfl
  stops s hn := by
    obtain ⟨e, he, hP⟩ := (takes_bytes n).stops s hn
    refine ⟨e, ?_, hP⟩
    show (Reader.bytes n s >>= fun p => _) = _
    rw [he]
    rfl

theorem takes_u32 : Takes Stop.IsError Reader.u32 4 ofLe := takes_array 4 ofLe

theorem takes_u64 : Takes Stop.IsError Reader.u64 8 ofLe := takes_array 8 ofLe

theorem takes_u64s {n : ℕ} (h : n < 2 ^ 32) : Takes Stop.IsError (Reader.u64s n) (n * 8) Reader.u64sOf := by
  have hfits : n * 8 < 2 ^ 64 := by omega
  unfold Reader.u64s checkedMul
  rw [if_pos hfits]
  exact (takes_bytes _).map Reader.u64sOf

theorem finish_ok_iff {s s' : List UInt8} {u : Unit} : Reader.finish s = .ok (u, s') ↔ s = [] ∧ s' = [] := by
  unfold Reader.finish
  by_cases h : s = []
  · rw [if_pos h]
    simp [h, eq_comm]
  · rw [if_neg h]
    simp [h, corrupt]

theorem finish_bind_iff {α : Type} {a b : α} {s s' : List UInt8} :
    (Reader.finish >>= fun _ => pure a) s = .ok (b, s') ↔ s = [] ∧ b = a ∧ s' = [] := by
  rw [bind_ok_iff]
  simp only [finish_ok_iff, pure_ok_iff]
  constructor
  · intro h
    obtain ⟨_, _, ⟨rfl, rfl⟩, rfl, rfl⟩ := h
    exact ⟨rfl, rfl, rfl⟩
  · intro h
    obtain ⟨rfl, rfl, rfl⟩ := h
    exact ⟨(), [], ⟨rfl, rfl⟩, rfl, rfl⟩

theorem finish_stops : Stops Stop.IsError Reader.finish := by
  intro s e h
  unfold Reader.finish at h
  split_ifs at h
  exact Except.error.inj h ▸ trivial

section Floats

variable {F S : Type} [Narrow F S] [LeBytes F 8] [LeBytes S 4]

theorem takes_f64 : Takes Stop.IsError (Reader.f64 : Reader F) 8 fromLeBytes := takes_array 8 fromLeBytes

theorem width_pos (p : Precision) : 0 < width p := by cases p <;> decide

theorem width_le (p : Precision) : width p ≤ 8 := by cases p <;> decide

theorem takes_floats {n : ℕ} (h : n < 2 ^ 32) (p : Precision) :
    Takes Stop.IsError (Reader.floats n p : Reader (List F)) (n * width p) (Reader.floatsOf p) := by
  have hfits : n * width p < 2 ^ 64 := by
    calc n * width p ≤ n * 8 := Nat.mul_le_mul_left n (width_le p)
      _ < 2 ^ 64 := by omega
  unfold Reader.floats checkedMul
  rw [if_pos hfits]
  exact (takes_bytes _).map (Reader.floatsOf p)

/-- A vector has as many floats as its bytes have room for. -/
theorem length_floatsOf (p : Precision) {n : ℕ} {raw : List UInt8} (h : raw.length = n * width p) :
    (Reader.floatsOf p raw : List F).length = n := by
  cases p
  · show ((chunks 8 raw).map _).length = n
    rw [List.length_map, length_chunks, h]
    exact Nat.mul_div_cancel n (by decide)
  · show ((chunks 4 raw).map _).length = n
    rw [List.length_map, length_chunks, h]
    exact Nat.mul_div_cancel n (by decide)

theorem floats_stops (n : ℕ) (p : Precision) : Stops Stop.IsError (Reader.floats n p : Reader (List F)) := by
  unfold Reader.floats
  cases checkedMul n (width p) with
  | none => exact fun _ _ h => Except.error.inj h ▸ trivial
  | some size => exact ((takes_bytes size).map _).stopsWith

theorem u64s_stops (n : ℕ) : Stops Stop.IsError (Reader.u64s n) := by
  unfold Reader.u64s
  cases checkedMul n 8 with
  | none => exact fun _ _ h => Except.error.inj h ▸ trivial
  | some size => exact ((takes_bytes size).map _).stopsWith

/-! ### A location -/

/-- `n` bytes of a payload, from an offset on. -/
def field (payload : List UInt8) (o n : ℕ) : List UInt8 := (payload.drop o).take n

/-- The `u32` of a payload at an offset. -/
def u32At (payload : List UInt8) (o : ℕ) : ℕ := ofLe (field payload o 4)

theorem u32At_lt (payload : List UInt8) (o : ℕ) : u32At payload o < 2 ^ 32 := by
  have hlen : (field payload o 4).length ≤ 4 := List.length_take_le 4 _
  calc u32At payload o < 256 ^ (field payload o 4).length := ofLe_lt _
    _ ≤ 256 ^ 4 := Nat.pow_le_pow_right (by decide) hlen
    _ = 2 ^ 32 := by decide

theorem length_field {payload : List UInt8} {o n : ℕ} (h : o + n ≤ payload.length) :
    (field payload o n).length = n := by
  rw [field, List.length_take, List.length_drop]
  omega

/-- The count at an offset, of items of this many bytes, accounts for all
that follows it. -/
def Accounts (payload : List UInt8) (o unit : ℕ) : Prop :=
  payload.length = o + 4 + u32At payload o * unit

instance (payload : List UInt8) (o unit : ℕ) : Decidable (Accounts payload o unit) :=
  inferInstanceAs (Decidable (_ = _))

/-- How many vectors a location of this kind holds. -/
def vectorsOf (kind : UInt8) : ℕ := if kind = kindPlainLocation then 1 else 2

theorem vectorsOf_pos (kind : UInt8) : 0 < vectorsOf kind := by
  unfold vectorsOf
  split_ifs <;> decide

/-- Where the count of neighbors lies. -/
def neighborsAt (kind : UInt8) (p : Precision) (payload : List UInt8) : ℕ :=
  28 + vectorsOf kind * (u32At payload 8 * width p)

/-- The location whose parts lie at their offsets in a payload. -/
def locationAt (kind : UInt8) (p : Precision) (payload : List UInt8) : HardLocation F :=
  let size := u32At payload 8 * width p
  let o := neighborsAt kind p payload
  let address := Reader.floatsOf p (field payload 12 size)
  { id := ofLe (field payload 0 8)
    address
    counter := if kind = kindPlainLocation then address
      else Reader.floatsOf p (field payload (12 + size) size)
    writeCount := fromLeBytes (field payload (o - 16) 8)
    neighbors := Reader.u64sOf (field payload (o + 4) (u32At payload o * 8))
    surpriseMass := fromLeBytes (field payload (o - 8) 8) }

theorem takes_counter {d : ℕ} (h : d < 2 ^ 32) (kind : UInt8) (p : Precision) (address : List F) :
    Takes Stop.IsError (readCounter kind d p address) ((vectorsOf kind - 1) * (d * width p))
      fun raw => if kind = kindPlainLocation then address else Reader.floatsOf p raw := by
  unfold readCounter vectorsOf
  split_ifs with hk
  · simpa using Takes.pure (P := Stop.IsError) (τ := UInt8) address
  · simpa using takes_floats h p

/-- **A location is read exactly when its count of neighbors accounts for the
payload**, and then it is the one at the offsets. -/
theorem readLocation_ok_iff {kind : UInt8} {p : Precision} {payload rest : List UInt8} {loc : HardLocation F} :
    readLocation kind p payload = .ok (loc, rest) ↔
      Accounts payload (neighborsAt kind p payload) 8 ∧ loc = locationAt kind p payload ∧ rest = [] := by
  have hd := u32At_lt payload 8
  have hcount : ofLe ((payload.drop (0 + 8)).take 4) = u32At payload 8 := rfl
  have hv : u32At payload 8 * width p + (vectorsOf kind - 1) * (u32At payload 8 * width p) =
      vectorsOf kind * (u32At payload 8 * width p) := by
    rw [Nat.sub_mul, Nat.one_mul]
    have := Nat.le_mul_of_pos_left (u32At payload 8 * width p) (vectorsOf_pos kind)
    omega
  change readLocation kind p (payload.drop 0) = _ ↔ _
  unfold readLocation
  rw [takes_u64.bind_at_iff, takes_u32.bind_at_iff, hcount, (takes_floats (F := F) hd p).bind_at_iff,
    (takes_counter hd kind p _).bind_at_iff, takes_f64.bind_at_iff, takes_f64.bind_at_iff,
    takes_u32.bind_at_iff]
  have ho : neighborsAt kind p payload = 0 + 8 + 4 + u32At payload 8 * width p +
      (vectorsOf kind - 1) * (u32At payload 8 * width p) + 8 + 8 := by
    unfold neighborsAt
    omega
  have ho16 : neighborsAt kind p payload - 16 = 0 + 8 + 4 + u32At payload 8 * width p +
      (vectorsOf kind - 1) * (u32At payload 8 * width p) := by omega
  have ho8 : neighborsAt kind p payload - 8 = 0 + 8 + 4 + u32At payload 8 * width p +
      (vectorsOf kind - 1) * (u32At payload 8 * width p) + 8 := by omega
  have hcounter : ∀ address : List F,
      (if kind = kindPlainLocation then address
        else Reader.floatsOf p (field payload (0 + 8 + 4 + u32At payload 8 * width p)
          ((vectorsOf kind - 1) * (u32At payload 8 * width p)))) =
      if kind = kindPlainLocation then address
        else Reader.floatsOf p (field payload (12 + u32At payload 8 * width p) (u32At payload 8 * width p)) := by
    intro address
    unfold vectorsOf
    split_ifs with hk
    · rfl
    · rw [Nat.add_one_sub_one, Nat.one_mul]
  unfold Accounts locationAt
  simp only []
  rw [ho16, ho8, ← ho]
  have hn := u32At_lt payload (neighborsAt kind p payload)
  have hncount : ofLe ((payload.drop (neighborsAt kind p payload)).take 4) =
    u32At payload (neighborsAt kind p payload) := rfl
  rw [hncount, (takes_u64s hn).bind_at_iff, finish_bind_iff, List.drop_eq_nil_iff, ← hcounter]
  constructor
  · intro h
    obtain ⟨-, -, -, -, -, -, h7, h8, h9, hloc, hrest⟩ := h
    exact ⟨by omega, hloc, hrest⟩
  · intro h
    obtain ⟨hlen, hloc, hrest⟩ := h
    refine ⟨?_, ?_, ?_, ?_, ?_, ?_, ?_, ?_, ?_, hloc, hrest⟩ <;> omega

theorem counter_stops (kind : UInt8) (d : ℕ) (p : Precision) (address : List F) :
    Stops Stop.IsError (readCounter kind d p address) := by
  unfold readCounter
  split_ifs
  · exact Stops.pure address
  · exact floats_stops d p

theorem readLocation_stops (kind : UInt8) (p : Precision) :
    Stops Stop.IsError (readLocation kind p : Reader (HardLocation F)) := by
  unfold readLocation
  refine takes_u64.stopsWith.bind fun id => takes_u32.stopsWith.bind fun d => ?_
  refine (floats_stops d p).bind fun address => (counter_stops kind d p address).bind fun counter => ?_
  refine takes_f64.stopsWith.bind fun wc => takes_f64.stopsWith.bind fun sm => ?_
  refine takes_u32.stopsWith.bind fun n => (u64s_stops n).bind fun neighbors => ?_
  exact finish_stops.bind fun _ => Stops.pure _

/-! ### A document -/

/-- Where the count of metadata bytes lies. -/
def metadataAt (kind : UInt8) (p : Precision) (payload : List UInt8) : ℕ :=
  if kind = kindDocumentRef then 8 else 4 + u32At payload 0 * width p

/-- The document whose parts lie at their offsets in a payload. -/
def documentAt (kind : UInt8) (p : Precision) (payload : List UInt8) : DocVector F × List UInt8 :=
  let o := metadataAt kind p payload
  (if kind = kindDocumentRef then .location (ofLe (field payload 0 8))
    else .inline (Reader.floatsOf p (field payload 4 (u32At payload 0 * width p))),
    field payload (o + 4) (u32At payload o))

/-- **A document is read exactly when its metadata accounts for the payload**,
and then it is the one at the offsets. -/
theorem readDocument_ok_iff {kind : UInt8} {p : Precision} {payload rest : List UInt8}
    {doc : DocVector F × List UInt8} :
    readDocument kind p payload = .ok (doc, rest) ↔
      Accounts payload (metadataAt kind p payload) 1 ∧ doc = documentAt kind p payload ∧ rest = [] := by
  change readDocument kind p (payload.drop 0) = _ ↔ _
  have hcount : ∀ o, ofLe ((payload.drop o).take 4) = u32At payload o := fun _ => rfl
  unfold readDocument readVector Accounts documentAt metadataAt
  by_cases hk : kind = kindDocumentRef
  · simp only [hk, if_true, bind_assoc, pure_bind]
    rw [takes_u64.bind_at_iff, takes_u32.bind_at_iff, hcount, (takes_bytes _).bind_at_iff, finish_bind_iff,
      List.drop_eq_nil_iff, Nat.zero_add]
    constructor
    · intro h
      obtain ⟨-, h2, h3, h4, hdoc, hrest⟩ := h
      exact ⟨by omega, hdoc, hrest⟩
    · intro h
      obtain ⟨hlen, hdoc, hrest⟩ := h
      refine ⟨?_, ?_, ?_, ?_, hdoc, hrest⟩ <;> omega
  · simp only [hk, if_false, bind_assoc, pure_bind]
    rw [takes_u32.bind_at_iff, hcount, (takes_floats (F := F) (u32At_lt payload 0) p).bind_at_iff,
      takes_u32.bind_at_iff, hcount, (takes_bytes _).bind_at_iff, finish_bind_iff, List.drop_eq_nil_iff,
      Nat.zero_add]
    constructor
    · intro h
      obtain ⟨-, h2, h3, h4, h5, hdoc, hrest⟩ := h
      exact ⟨by omega, hdoc, hrest⟩
    · intro h
      obtain ⟨hlen, hdoc, hrest⟩ := h
      refine ⟨?_, ?_, ?_, ?_, ?_, hdoc, hrest⟩ <;> omega

theorem vector_stops (kind : UInt8) (p : Precision) :
    Stops Stop.IsError (readVector kind p : Reader (DocVector F)) := by
  unfold readVector
  split_ifs
  · exact takes_u64.stopsWith.bind fun id => Stops.pure _
  · exact takes_u32.stopsWith.bind fun d => (floats_stops d p).bind fun vector => Stops.pure _

theorem readDocument_stops (kind : UInt8) (p : Precision) :
    Stops Stop.IsError (readDocument kind p : Reader (DocVector F × List UInt8)) := by
  unfold readDocument
  refine (vector_stops kind p).bind fun vector => takes_u32.stopsWith.bind fun m => ?_
  exact (takes_bytes m).stopsWith.bind fun metadata => finish_stops.bind fun _ => Stops.pure _

end Floats

end Codec

end HeatherDb
