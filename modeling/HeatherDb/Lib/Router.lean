/-
# Routing a request path

A route's pattern is a list of segments, each a text to be found literally or a
capture of whatever stands there. A path matches a pattern when it is the
pattern's segments after slashes, no more and no less. What was captured is
percent-decoded once; bytes that are not UTF-8 after it reach no handler.

All that `Dispatches` promises of a router is that it goes by these patterns.
One that does is `dispatch`: a table that lists a pattern before those that
would capture what it says literally has its first matching pattern used, and
its routes then differ in the method.

Key definitions: `Segment`, `captures`, `percentDecode`, `Route`, `Dispatches`, `dispatch`.
Key theorems: `captures_cons`, `percentDecode_plain`, `dispatches_dispatch`.
-/
import Mathlib.Data.List.Basic
import Mathlib.Data.List.TakeWhile
import Mathlib.Data.String.Basic

namespace Router

/-! ### Percent-encoding -/

/-- The value of a hexadecimal digit. -/
def hexDigit (b : UInt8) : Option UInt8 :=
  if 48 ≤ b ∧ b ≤ 57 then some (b - 48)
  else if 65 ≤ b ∧ b ≤ 70 then some (b - 55)
  else if 97 ≤ b ∧ b ≤ 102 then some (b - 87)
  else none

/-- Each `%` before two digits, and the digits, as the byte they stand for. -/
def percentBytes : List UInt8 → List UInt8
  | b :: h :: l :: rest =>
    if b = 37 then
      match hexDigit h, hexDigit l with
      | some hi, some lo => (16 * hi + lo) :: percentBytes rest
      | _, _ => b :: percentBytes (h :: l :: rest)
    else b :: percentBytes (h :: l :: rest)
  | bs => bs

/-- The text a raw segment stands for, if its bytes are UTF-8. -/
def percentDecode (raw : List Char) : Option String :=
  String.fromUTF8? (percentBytes (raw.flatMap String.utf8EncodeChar)).toByteArray

theorem percentBytes_of_notMem {bs : List UInt8} (h : 37 ∉ bs) : percentBytes bs = bs := by
  fun_induction percentBytes bs with
  | case1 => simp at h
  | case2 => simp at h
  | case3 b hi lo rest hb ih =>
    rw [ih fun hmem => h (List.mem_cons_of_mem _ hmem)]
  | case4 => rfl

/-- A text of ASCII characters without `%` stands for itself. -/
theorem percentDecode_plain {raw : List Char} (hascii : ∀ c ∈ raw, c.toNat < 128) (hplain : '%' ∉ raw) :
    percentDecode raw = some (String.ofList raw) := by
  have hbyte : ∀ c ∈ raw, String.utf8EncodeChar c = [c.val.toUInt8] := fun c hc => by
    have hlt : c.val.toNat < 128 := hascii c hc
    apply String.utf8EncodeChar_eq_singleton
    rw [Char.utf8Size_eq_one_iff, UInt32.le_iff_toNat_le]
    exact Nat.le_of_lt_succ hlt
  have hnone : 37 ∉ raw.flatMap String.utf8EncodeChar := by
    intro hmem
    obtain ⟨c, hc, hb⟩ := List.mem_flatMap.mp hmem
    rw [hbyte c hc, List.mem_singleton] at hb
    have hlt : c.val.toNat < 128 := hascii c hc
    have hval : c.val.toNat = 37 := by
      have hcode := congrArg UInt8.toNat hb
      simp only [UInt32.toNat_toUInt8] at hcode
      have h37 : (37 : UInt8).toNat = 37 := rfl
      omega
    obtain rfl : c = '%' := Char.ext (UInt32.toNat_inj.mp hval)
    exact hplain hc
  rw [percentDecode, percentBytes_of_notMem hnone, String.fromUTF8?, dif_pos ⟨raw, rfl⟩]
  rfl

/-! ### Patterns -/

inductive Segment where
  | static (text : String)
  | capture
deriving DecidableEq, Repr

/-- What the captures of a pattern stand at in a path that matches it. A
capture is not empty. -/
def captures : List Segment → List Char → Option (List (List Char))
  | [], [] => some []
  | segment :: segments, '/' :: rest =>
    let raw := rest.takeWhile (· ≠ '/')
    let tail := rest.dropWhile (· ≠ '/')
    match segment with
    | .static text => if raw = text.toList then captures segments tail else none
    | .capture => if raw = [] then none else (captures segments tail).map (raw :: ·)
  | _, _ => none

/-- What follows a segment: nothing, or a slash. -/
def Ends (tail : List Char) : Prop := tail = [] ∨ ∃ rest, tail = '/' :: rest

theorem ends_dropWhile (rest : List Char) : Ends (rest.dropWhile (· ≠ '/')) := by
  cases h : rest.dropWhile (· ≠ '/') with
  | nil => exact .inl rfl
  | cons c tail =>
    have hc := List.head?_dropWhile_not (fun c => decide (c ≠ '/')) rest
    rw [h] at hc
    obtain rfl : c = '/' := by simpa using hc
    exact .inr ⟨tail, rfl⟩

theorem captures_cons {segment : Segment} {segments : List Segment} {path : List Char}
    {raws : List (List Char)} (h : captures (segment :: segments) path = some raws) :
    ∃ raw tail, path = '/' :: (raw ++ tail) ∧ '/' ∉ raw ∧ Ends tail ∧
      ((∃ text, segment = .static text ∧ raw = text.toList ∧ captures segments tail = some raws) ∨
        (segment = .capture ∧ raw ≠ [] ∧ ∃ raws', captures segments tail = some raws' ∧ raws = raw :: raws')) := by
  cases path with
  | nil => simp [captures] at h
  | cons c rest =>
    by_cases hc : c = '/'
    · subst hc
      refine ⟨rest.takeWhile (· ≠ '/'), rest.dropWhile (· ≠ '/'), ?_, ?_, ends_dropWhile rest, ?_⟩
      · rw [List.takeWhile_append_dropWhile]
      · intro hmem
        have := List.mem_takeWhile_imp hmem
        simp at this
      · cases segment with
        | static text =>
          rw [captures] at h
          split_ifs at h with hraw
          exact .inl ⟨text, rfl, hraw, h⟩
        | capture =>
          rw [captures] at h
          split_ifs at h with hraw
          obtain ⟨raws', hrest, rfl⟩ := Option.map_eq_some_iff.mp h
          exact .inr ⟨rfl, hraw, raws', hrest, rfl⟩
    · unfold captures at h
      split at h
      · simp_all
      · simp_all
      · simp at h

/-! ### Tables -/

structure Route (μ α : Type) where
  method : μ
  pattern : List Segment
  handler : α

variable {μ α : Type}

/-- What a router promises: it dispatches to a route of the table whose pattern
the raw path matches, with the captures decoded once. -/
def Dispatches (table : List (Route μ α)) (router : μ → List Char → Option (α × List String)) : Prop :=
  ∀ method path handler args, router method path = some (handler, args) →
    ∃ route ∈ table, route.handler = handler ∧
      ∃ raws, captures route.pattern path = some raws ∧ raws.mapM percentDecode = some args

/-- The handler for a request, with its decoded captures. A route serves the
methods that `serves` says. -/
def dispatch (serves : μ → μ → Bool) (table : List (Route μ α)) (method : μ) (path : List Char) :
    Option (α × List String) := do
  let first ← table.find? fun route => (captures route.pattern path).isSome
  let route ← table.find? fun route => decide (route.pattern = first.pattern) && serves route.method method
  let raws ← captures route.pattern path
  let args ← raws.mapM percentDecode
  pure (route.handler, args)

/-- The router that takes the first pattern keeps the promise. -/
theorem dispatches_dispatch (serves : μ → μ → Bool) (table : List (Route μ α)) :
    Dispatches table (dispatch serves table) := by
  intro method path handler args h
  simp only [dispatch, Option.bind_eq_bind, Option.bind_eq_some_iff, Option.pure_def, Option.some.injEq,
    Prod.mk.injEq] at h
  obtain ⟨_, -, route, hroute, raws, hraws, args', hargs, rfl, rfl⟩ := h
  exact ⟨route, List.mem_of_find?_eq_some hroute, rfl, raws, hraws, hargs⟩

end Router
