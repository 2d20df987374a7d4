/-
# The engine's arithmetic and its vectors

Every vector of HeatherDB is a list of `f64`s. The development is over any
type `F` with the operations the engine uses of `f64` (`Scalar`): what it
proves of the storage holds whatever the arithmetic rounds to. `Narrow` adds
the conversions to and from the `f32` copy that the write search scans.

The functions are those of `vec_ops.rs` the writes, merges and compressions
call, with the errors of `error.rs`.

Key definitions: `Scalar`, `Narrow`, `HeatherError`, `dot`, `normalize`,
`addScaled`, `validateVector`, `randomUnitVector`.
-/
import Mathlib.Data.Rat.Defs
import Mathlib.Data.List.Sort

namespace HeatherDb

/-- `HeatherError`, as far as storage and its callers raise it. `hang` is no
value of the source's: it marks a call that never returns. -/
inductive HeatherError where
  | dimensionMismatch (expected got : ℕ)
  | invalidConfig (message : String)
  | invalidInput (message : String)
  | storage (message : String)
  | serialization (message : String)
  | conflict (message : String)
  | corrupt (message : String)
  | unsupportedFormat (message : String)
  | emptyMemory
  | hang
deriving DecidableEq, Repr

/-- What the engine uses of a float format. `lt`, `le` and `eq` are IEEE's,
false when an operand is not a number; `totalCmp` orders every value. -/
class Scalar (F : Type) extends Add F, Sub F, Mul F, Div F, Neg F where
  /-- The float nearest a literal or a count. -/
  lit : ℚ → F
  sqrt : F → F
  log2 : F → F
  ln : F → F
  lt : F → F → Bool
  le : F → F → Bool
  eq : F → F → Bool
  totalCmp : F → F → Ordering
  isFinite : F → Bool
  /-- `x > f64::NEG_INFINITY` -/
  aboveNegInf : F → Bool
  /-- `x < f64::INFINITY` -/
  belowInf : F → Bool
  /-- `x.ceil() as usize` -/
  ceilUsize : F → ℕ
  /-- `format!("{x}")` -/
  display : F → String
  eq_symm : ∀ {x y}, eq x y = true → eq y x = true
  eq_trans : ∀ {x y z}, eq x y = true → eq y z = true → eq x z = true

/-- The single precision format `S` beside `F`. -/
class Narrow (F : Type) (S : outParam Type) where
  /-- `x as f32` -/
  toF32 : F → S
  /-- `x as f64` -/
  toF64 : S → F

open Scalar

variable {F : Type} [Scalar F]

/-- A count as a float. -/
def ofUsize (n : ℕ) : F := lit n

/-- `a.partial_cmp(&b).unwrap_or(Ordering::Equal)` -/
def partialCmp (a b : F) : Ordering :=
  if lt a b then .lt else if lt b a then .gt else .eq

/-- `a.max(b)`: the other operand when one is not a number. -/
def fmax (a b : F) : F := if lt a b || !eq a a then b else a

/-- `a.min(b)`: the other operand when one is not a number. -/
def fmin (a b : F) : F := if lt b a || !eq a a then b else a

/-- `x.clamp(lo, hi)` -/
def clamp (x lo hi : F) : F := if lt x lo then lo else if lt hi x then hi else x

/-- `Iterator::max_by`: the last of the greatest elements. -/
def maxBy {α : Type} (cmp : α → α → Ordering) : List α → Option α
  | [] => none
  | x :: xs => some (xs.foldl (fun best y => if cmp best y = .gt then best else y) x)

/-- `slice::sort_by`, which is stable. -/
def sortBy {α : Type} (cmp : α → α → Ordering) (l : List α) : List α :=
  l.insertionSort fun a b => cmp a b ≠ .gt

theorem mem_sortBy {α : Type} {cmp : α → α → Ordering} {l : List α} {a : α} :
    a ∈ sortBy cmp l ↔ a ∈ l := List.mem_insertionSort _

theorem maxBy_mem {α : Type} {cmp : α → α → Ordering} : ∀ {l : List α} {a : α},
    maxBy cmp l = some a → a ∈ l
  | [], _, h => by simp [maxBy] at h
  | x :: xs, a, h => by
    have key : ∀ (ys : List α) (b : α),
        ys.foldl (fun best y => if cmp best y = .gt then best else y) b ∈ b :: ys := by
      intro ys
      induction ys with
      | nil => intro b; simp
      | cons y ys ih =>
        intro b
        rw [List.foldl_cons]
        have := ih (if cmp b y = .gt then b else y)
        split_ifs at this ⊢ with hb
        · rcases List.mem_cons.mp this with h | h
          · rw [h]; simp
          · exact List.mem_cons_of_mem _ (List.mem_cons_of_mem _ h)
        · exact List.mem_cons_of_mem _ this
    simp only [maxBy, Option.some.injEq] at h
    exact h ▸ key xs x

/-- `iter().sum::<f64>()`, which starts from `-0.0`. -/
def sum (l : List F) : F := l.foldl (· + ·) (-lit 0)

def dot (a b : List F) : F := sum (List.zipWith (· * ·) a b)

def l2Norm (v : List F) : F := sqrt (dot v v)

def normalize (v : List F) : List F :=
  if lt (l2Norm v) (lit (1 / 10 ^ 12)) then v else v.map (· / l2Norm v)

def cosineSimilarity (a b : List F) : F :=
  if lt (l2Norm a) (lit (1 / 10 ^ 12)) || lt (l2Norm b) (lit (1 / 10 ^ 12)) then lit 0
  else dot a b / (l2Norm a * l2Norm b)

/-- `a += scale * b` over the common length. -/
def addScaled (a b : List F) (scale : F) : List F :=
  List.zipWith (fun x y => x + scale * y) a b ++ a.drop b.length

/-- `v == w` on `Vec<f64>`. -/
def vecEq (v w : List F) : Bool := v.length = w.length && (List.zipWith eq v w).all id

/-- Refuses a vector with a component that is not finite, naming the first. -/
def validateVector (v : List F) : Except HeatherError Unit :=
  match v.zipIdx.find? fun p => !isFinite p.1 with
  | none => .ok ()
  | some (val, i) => .error (.invalidInput s!"element at index {i} is not finite: {display val}")

/-- The samples of the standard normal distribution a generator will give. -/
abbrev Rng (F : Type) := ℕ → F

/-- Draws `d` samples and normalizes them. -/
def randomUnitVector (d : ℕ) (rng : Rng F) : List F × Rng F :=
  (normalize ((List.range d).map rng), fun i => rng (d + i))

@[simp] theorem length_normalize (v : List F) : (normalize v).length = v.length := by
  unfold normalize
  split_ifs <;> simp

@[simp] theorem length_addScaled (a b : List F) (scale : F) : (addScaled a b scale).length = a.length := by
  simp only [addScaled, List.length_append, List.length_zipWith, List.length_drop]
  omega

@[simp] theorem length_randomUnitVector (d : ℕ) (rng : Rng F) :
    (randomUnitVector d rng).1.length = d := by
  simp [randomUnitVector]

/-! ### Equality of vectors

`==` on floats is no equality of values: a number that is not one differs
from itself and the two zeros agree. `SameVec` is what a reader of the
vectors can rely on: the same values, or values `==` calls equal. -/

/-- The same float, or floats `==` calls equal. -/
def Same (x y : F) : Prop := x = y ∨ eq x y = true

theorem Same.refl (x : F) : Same x x := Or.inl rfl

theorem Same.symm {x y : F} : Same x y → Same y x
  | .inl h => .inl h.symm
  | .inr h => .inr (eq_symm h)

theorem Same.trans {x y z : F} : Same x y → Same y z → Same x z
  | .inl h, h' => h ▸ h'
  | h, .inl h' => h' ▸ h
  | .inr h, .inr h' => .inr (eq_trans h h')

/-- Vectors of one length whose components are the same. -/
def SameVec (v w : List F) : Prop := List.Forall₂ Same v w

theorem SameVec.refl (v : List F) : SameVec v v :=
  List.forall₂_same.mpr fun x _ => Same.refl x

theorem SameVec.symm {v w : List F} (h : SameVec v w) : SameVec w v :=
  (h.imp fun _ _ hxy => hxy.symm).flip

theorem SameVec.trans {u v w : List F} (h : SameVec u v) (h' : SameVec v w) : SameVec u w := by
  induction h generalizing w with
  | nil => exact h'
  | cons hxy _ ih =>
    cases h' with
    | cons hyz h' => exact .cons (hxy.trans hyz) (ih h')

theorem sameVec_of_vecEq {v w : List F} (h : vecEq v w = true) : SameVec v w := by
  simp only [vecEq, Bool.and_eq_true, decide_eq_true_eq] at h
  obtain ⟨hlen, hall⟩ := h
  induction v generalizing w with
  | nil =>
    cases w with
    | nil => exact .nil
    | cons => simp at hlen
  | cons x v ih =>
    cases w with
    | nil => simp at hlen
    | cons y w =>
      simp only [List.zipWith_cons_cons, List.all_cons, Bool.and_eq_true, id_eq] at hall
      exact .cons (.inr hall.1) (ih (by simpa using hlen) hall.2)

end HeatherDb
