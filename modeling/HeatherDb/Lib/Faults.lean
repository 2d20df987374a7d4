/-
# Programs over storage that may fail at any step

A program runs on a `World`: a state and a plan of faults, one entry for
each step the storage will be asked to take. It returns a value or stops with
an error; what it did to the state before the error stays done, as it does in
a language whose errors are values. `step` is one call into the storage: it
takes the plan's next entry and stops there if that entry is an error.

A transaction works on a copy and hands it back when it commits, so all its
steps but the last leave the state alone. `Steady m v` says this of a program:
whatever the plan, it changes nothing but the plan, and what it returns, if
it returns, is `v`. The rules `Steady.pure`, `Steady.step`, `Steady.bind` and
`Steady.foldlM` build it along the program, and `Steady.cases` is how a
caller uses it.

`Atomic m f` says that a program changes the state as `f` does or not at all.

`Ensures P m Q` says of a program that whatever the plan it keeps `P` of the
state and returns only what satisfies `Q`.

`Leads P m Q E` says that whatever the plan `m` leads from `P` to `Q` when it
returns, with its value, and to `E` when it fails; where a program changes
what holds, `Leads.bind` puts it together of parts that keep something.

`Returns m s a s'` says that without faults `m` leads from `s` to `s'` and
returns `a`; its rules put a program together.

`Gives m s a s'` says that on some plan `m` leads from `s` to `s'` and returns
`a`; its rules take a program apart.

`Blames m` says that an error of `m` is one of those planned, so that without
faults `m` succeeds.

Key definitions: `World`, `Program`, `Program.step`, `Program.attempt`,
`Steady`, `transaction`, `Atomic`, `Ensures`, `Leads`, `Gives`,
`Returns`, `Blames`.
Key theorems: `Steady.foldlM`, `Steady.cases`, `transaction_cases`,
`transaction_ends`, `Ensures.bind`, `Ensures.inTransaction`, `Leads.bind`, `Gives.bind`,
`Blames.bind`,
`BlamesAt.returns`.
-/
import HeatherDb.Lib.Runs
import Mathlib.Data.List.Basic

/-- A state and the faults planned for the storage steps to come: `none`
succeeds, `some e` fails with `e`; past the plan's end every step succeeds. -/
structure World (ε τ : Type) where
  state : τ
  faults : List (Option ε)

/-- A program that returns a value or stops with an error. -/
def Program (ε τ α : Type) := World ε τ → Except ε α × World ε τ

/-- The first `n` steps succeed. -/
def Faultless {ε : Type} (n : ℕ) (faults : List (Option ε)) : Prop := ∀ f ∈ faults.take n, f = none

instance {ε : Type} (n : ℕ) (faults : List (Option ε)) : Decidable (Faultless n faults) :=
  inferInstanceAs (Decidable (∀ f ∈ faults.take n, f = none))

namespace Program

variable {ε τ α β : Type}

/-- Returns a value at once. -/
protected def pure (a : α) : Program ε τ α := fun w => (.ok a, w)

/-- Runs the first program, and the second on its value if it returned one. -/
protected def bind (m : Program ε τ α) (f : α → Program ε τ β) : Program ε τ β := fun w =>
  match m w with
  | (.ok a, w') => f a w'
  | (.error e, w') => (.error e, w')

instance : Monad (Program ε τ) where
  pure := Program.pure
  bind := Program.bind

/-- Stops with an error. -/
def fail (e : ε) : Program ε τ α := fun w => (.error e, w)

/-- Goes on if the condition holds, else stops with the error. -/
def ensure (c : Prop) [Decidable c] (e : ε) : Program ε τ Unit := if c then pure () else fail e

/-- The value of a computation that may have failed already. -/
def ofExcept : Except ε α → Program ε τ α
  | .ok a => pure a
  | .error e => fail e

/-- The state. -/
def get : Program ε τ τ := fun w => (.ok w.state, w)

/-- Changes the state. -/
def modify (f : τ → τ) : Program ε τ Unit := fun w => (.ok (), { w with state := f w.state })

/-- Runs the program and hands its outcome on: the caller decides what an
error means. -/
def attempt (m : Program ε τ α) : Program ε τ (Except ε α) := fun w =>
  match m w with
  | (r, w') => (.ok r, w')

/-- One step of the storage: it fails if the plan says so. -/
def step : Program ε τ Unit := fun w =>
  match w.faults with
  | [] => (.ok (), w)
  | none :: fs => (.ok (), { w with faults := fs })
  | some e :: fs => (.error e, { w with faults := fs })

theorem bind_apply (m : Program ε τ α) (f : α → Program ε τ β) (w : World ε τ) :
    (m >>= f) w = match m w with
      | (.ok a, w') => f a w'
      | (.error e, w') => (.error e, w') := rfl

@[simp] theorem pure_apply (a : α) (w : World ε τ) : (pure a : Program ε τ α) w = (.ok a, w) := rfl

@[simp] theorem fail_apply (e : ε) (w : World ε τ) : (fail e : Program ε τ α) w = (.error e, w) := rfl

@[simp] theorem get_apply (w : World ε τ) : (get : Program ε τ τ) w = (.ok w.state, w) := rfl

theorem bind_of_ok {m : Program ε τ α} {w w' : World ε τ} {a : α} (h : m w = (.ok a, w'))
    (f : α → Program ε τ β) : (m >>= f) w = f a w' := by
  rw [bind_apply, h]

theorem bind_of_error {m : Program ε τ α} {w w' : World ε τ} {e : ε} (h : m w = (.error e, w'))
    (f : α → Program ε τ β) : (m >>= f) w = (.error e, w') := by
  rw [bind_apply, h]

@[simp] theorem attempt_apply (m : Program ε τ α) (w : World ε τ) :
    attempt m w = (.ok (m w).1, (m w).2) := rfl

@[simp] theorem attempt_bind (m : Program ε τ α) (f : Except ε α → Program ε τ β) (w : World ε τ) :
    (attempt m >>= f) w = f (m w).1 (m w).2 := rfl

@[simp] theorem get_bind (f : τ → Program ε τ β) (w : World ε τ) : (get >>= f) w = f w.state w := rfl

@[simp] theorem modify_apply (g : τ → τ) (w : World ε τ) :
    (modify g : Program ε τ Unit) w = (.ok (), { w with state := g w.state }) := rfl

@[simp] theorem modify_bind (g : τ → τ) (f : Unit → Program ε τ β) (w : World ε τ) :
    (modify g >>= f) w = f () { w with state := g w.state } := rfl

@[simp] theorem pure_bind (a : α) (f : α → Program ε τ β) : (pure a >>= f) = f a := rfl

@[simp] theorem fail_bind (e : ε) (f : α → Program ε τ β) (w : World ε τ) :
    ((fail e : Program ε τ α) >>= f) w = (.error e, w) := rfl

theorem ensure_bind (c : Prop) [Decidable c] (e : ε) (f : Unit → Program ε τ β) (w : World ε τ) :
    (ensure c e >>= f) w = if c then f () w else (.error e, w) := by
  unfold ensure
  split_ifs <;> rfl

@[simp] theorem ofExcept_ok_bind (a : α) (f : α → Program ε τ β) (w : World ε τ) :
    (ofExcept (.ok a) >>= f) w = f a w := rfl

@[simp] theorem ofExcept_error_bind (e : ε) (f : α → Program ε τ β) (w : World ε τ) :
    ((ofExcept (.error e) : Program ε τ α) >>= f) w = (.error e, w) := rfl

theorem faultless_succ {n : ℕ} {faults : List (Option ε)} :
    Faultless (n + 1) faults ↔ Faultless 1 faults ∧ Faultless n faults.tail := by
  cases faults with
  | nil => simp [Faultless]
  | cons f faults => simp [Faultless]

theorem faultless_add {m n : ℕ} {faults : List (Option ε)} :
    Faultless (m + n) faults ↔ Faultless m faults ∧ Faultless n (faults.drop m) := by
  simp only [Faultless, List.take_add, List.forall_mem_append]

theorem faultless_mono {m n : ℕ} {faults : List (Option ε)} (h : Faultless n faults) (hle : m ≤ n) :
    Faultless m faults := by
  obtain ⟨k, rfl⟩ := Nat.exists_eq_add_of_le hle
  exact (faultless_add.mp h).1

/-- A step that succeeds. -/
theorem step_bind_of_faultless {faults : List (Option ε)} (h : Faultless 1 faults) (f : Unit → Program ε τ β) (s : τ) :
    (step >>= f) ⟨s, faults⟩ = f () ⟨s, faults.tail⟩ := by
  match faults with
  | [] => rfl
  | none :: _ => rfl
  | some e :: _ => simp [Faultless] at h

/-- A step that fails. -/
theorem step_bind_of_faulty {faults : List (Option ε)} (h : ¬Faultless 1 faults) (f : Unit → Program ε τ β) (s : τ) :
    ∃ e, (step >>= f) ⟨s, faults⟩ = (.error e, ⟨s, faults.tail⟩) := by
  match faults with
  | [] => simp [Faultless] at h
  | none :: _ => simp [Faultless] at h
  | some e :: _ => exact ⟨e, rfl⟩

/-- A loop of changes, each a step of the storage: all are made, or those before
the first step that fails. -/
theorem forM_step_modify {γ : Type} (g : γ → τ → τ) : ∀ (l : List γ) (s : τ) (faults : List (Option ε)),
    (Faultless l.length faults ∧ (l.forM fun c => step >>= fun _ => modify (g c)) ⟨s, faults⟩ =
        (.ok (), ⟨l.foldl (fun s c => g c s) s, faults.drop l.length⟩)) ∨
      ∃ k e, k < l.length ∧ Faultless k faults ∧ ¬Faultless (k + 1) faults ∧
        (l.forM fun c => step >>= fun _ => modify (g c)) ⟨s, faults⟩ =
          (.error e, ⟨(l.take k).foldl (fun s c => g c s) s, faults.drop (k + 1)⟩)
  | [], s, faults => .inl ⟨by simp [Faultless], rfl⟩
  | c :: l, s, faults => by
    have hdrop (n : ℕ) : faults.tail.drop n = faults.drop (n + 1) := by
      rw [← List.drop_one, List.drop_drop, Nat.add_comm]
    have hcons : ((c :: l).forM fun c => step >>= fun _ => modify (g c) : Program ε τ Unit) =
        ((step >>= fun _ => modify (g c)) >>= fun _ => l.forM fun c => step >>= fun _ => modify (g c)) := rfl
    rw [hcons]
    by_cases h1 : Faultless 1 faults
    · have hturn : (step >>= fun _ => modify (g c) : Program ε τ Unit) ⟨s, faults⟩ = (.ok (), ⟨g c s, faults.tail⟩) :=
        step_bind_of_faultless h1 _ s
      rw [bind_of_ok hturn]
      rcases forM_step_modify g l (g c s) faults.tail with ⟨hfaultless, hrun⟩ | ⟨k, e, hk, hfaultless, hfaulty, hrun⟩
      · exact .inl ⟨faultless_succ.mpr ⟨h1, hfaultless⟩, by rw [hrun, hdrop]; rfl⟩
      · refine .inr ⟨k + 1, e, Nat.succ_lt_succ hk, faultless_succ.mpr ⟨h1, hfaultless⟩, ?_, by rw [hrun, hdrop]; rfl⟩
        exact fun h => hfaulty (faultless_succ.mp h).2
    · obtain ⟨e, hturn⟩ := step_bind_of_faulty h1 (fun _ => modify (g c)) s
      refine .inr ⟨0, e, Nat.succ_pos _, by simp [Faultless], h1, ?_⟩
      rw [bind_of_error hturn]
      simp

theorem bind_assoc {γ : Type} (m : Program ε τ α) (f : α → Program ε τ β) (g : β → Program ε τ γ) :
    (m >>= f) >>= g = m >>= fun a => f a >>= g := by
  funext w
  simp only [bind_apply]
  rcases m w with ⟨a | e, w'⟩ <;> rfl

end Program

open Program

variable {ε τ α β : Type}

/-- Whatever the plan, `m` changes nothing but the plan, and if it returns it
returns `v`. -/
def Steady (m : Program ε τ α) (v : α) : Prop :=
  ∀ w, (m w).2.state = w.state ∧ ∀ a, (m w).1 = .ok a → a = v

namespace Steady

theorem pure (a : α) : Steady (Pure.pure a : Program ε τ α) a := fun _ => ⟨rfl, fun _ h => by
  injection h with h
  exact h.symm⟩

theorem step : Steady (Program.step : Program ε τ Unit) () := fun w => by
  unfold Program.step
  split <;> exact ⟨rfl, fun _ _ => rfl⟩

/-- What stops returns no value. -/
theorem fail (e : ε) (v : α) : Steady (Program.fail e : Program ε τ α) v := fun _ =>
  ⟨rfl, fun _ h => by simp at h⟩

theorem bind {m : Program ε τ α} {f : α → Program ε τ β} {a : α} {b : β} (hm : Steady m a)
    (hf : Steady (f a) b) : Steady (m >>= f) b := fun w => by
  obtain ⟨h1, h2⟩ := hm w
  rw [bind_apply]
  rcases hmw : m w with ⟨r, w'⟩
  rw [hmw] at h1 h2
  cases r with
  | error e => exact ⟨h1, fun _ h => by simp at h⟩
  | ok a' =>
    obtain rfl := h2 a' rfl
    exact ⟨(hf w').1.trans h1, (hf w').2⟩

theorem ensure {c : Prop} [Decidable c] {e : ε} : Steady (Program.ensure c e : Program ε τ Unit) () := by
  unfold Program.ensure
  split_ifs
  · exact pure ()
  · exact fail e ()

theorem ofExcept {x : Except ε Unit} : Steady (Program.ofExcept x : Program ε τ Unit) () := by
  cases x with
  | error e => exact fail e ()
  | ok u => exact pure u

theorem get_bind {f : τ → Program ε τ β} {b : β} (hf : ∀ s, Steady (f s) b) : Steady (Program.get >>= f) b :=
  fun w => hf w.state w

/-- A loop of steady programs computes the fold. -/
theorem foldlM {γ : Type} {f : β → γ → Program ε τ β} {g : β → γ → β}
    (hf : ∀ b c, Steady (f b c) (g b c)) : ∀ (l : List γ) (b : β), Steady (l.foldlM f b) (l.foldl g b)
  | [], b => Steady.pure b
  | c :: l, b => by
    rw [List.foldlM_cons, List.foldl_cons]
    exact (hf b c).bind (foldlM hf l _)

/-- A steady program stops with an error or returns its value, and the state
is what it was. -/
theorem cases {m : Program ε τ α} {v : α} (h : Steady m v) (w : World ε τ) :
    (∃ e fs, m w = (.error e, ⟨w.state, fs⟩)) ∨ ∃ fs, m w = (.ok v, ⟨w.state, fs⟩) := by
  obtain ⟨h1, h2⟩ := h w
  rcases hw : m w with ⟨r, ⟨st, fs⟩⟩
  rw [hw] at h1 h2
  simp only at h1 h2
  subst h1
  cases r with
  | error e => exact Or.inl ⟨e, fs, rfl⟩
  | ok a =>
    obtain rfl := h2 a rfl
    exact Or.inr ⟨fs, rfl⟩

end Steady

/-- A transaction: it opens, works on a copy, and commits; an error on the
way drops the copy. -/
def transaction {τ : Type} (body : τ → Program ε τ (α × τ)) : Program ε τ α := do
  Program.step
  let txn ← get
  let (a, txn) ← body txn
  Program.step
  modify fun _ => txn
  pure a

/-- **A transaction is all or nothing**: an error, and the state is what it
was, or the body's whole change. -/
theorem transaction_cases {f : τ → Program ε τ (α × τ)} {w : World ε τ} {v : α × τ}
    (hbody : Steady (f w.state) v) :
    (∃ e fs, transaction f w = (.error e, ⟨w.state, fs⟩)) ∨
      ∃ fs, transaction f w = (.ok v.1, ⟨v.2, fs⟩) := by
  obtain ⟨s, fs⟩ := w
  obtain ⟨a, txn⟩ := v
  unfold transaction
  rcases (Steady.step (ε := ε) (τ := τ)).cases ⟨s, fs⟩ with ⟨e, fs, h⟩ | ⟨fs, h⟩
  · exact Or.inl ⟨e, fs, bind_of_error h _⟩
  rw [bind_of_ok h, get_bind]
  rcases hbody.cases ⟨s, fs⟩ with ⟨e, fs, h⟩ | ⟨fs, h⟩
  · exact Or.inl ⟨e, fs, bind_of_error h _⟩
  rw [bind_of_ok h]
  rcases (Steady.step (ε := ε) (τ := τ)).cases ⟨s, fs⟩ with ⟨e, fs, h⟩ | ⟨fs, h⟩
  · exact Or.inl ⟨e, fs, bind_of_error h _⟩
  · exact Or.inr ⟨fs, bind_of_ok h _⟩

/-- Whatever the plan, `m` leaves the state as it is or turns it into its image
under `f`. -/
def Atomic (m : Program ε τ α) (f : τ → τ) : Prop := ∀ w, (m w).2.state = w.state ∨ (m w).2.state = f w.state

namespace Atomic

variable {f : τ → τ}

theorem of_steady {m : Program ε τ α} {a : α} (h : Steady m a) : Atomic m f := fun w => .inl (h w).1

theorem modify : Atomic (Program.modify f : Program ε τ Unit) f := fun _ => .inr rfl

theorem get_bind {k : τ → Program ε τ β} (hk : ∀ s, Atomic (k s) f) : Atomic (Program.get >>= k) f :=
  fun w => hk w.state w

/-- What comes before changes nothing. -/
theorem after {m : Program ε τ α} {k : α → Program ε τ β} {a : α} (hm : Steady m a) (hk : Atomic (k a) f) :
    Atomic (m >>= k) f := fun w => by
  rcases hm.cases w with ⟨e, fs, h⟩ | ⟨fs, h⟩
  · rw [bind_of_error h]
    exact .inl rfl
  · rw [bind_of_ok h]
    exact hk ⟨w.state, fs⟩

/-- What comes after changes nothing. -/
theorem before {m : Program ε τ α} {k : α → Program ε τ β} {b : β} (hm : Atomic m f) (hk : ∀ a, Steady (k a) b) :
    Atomic (m >>= k) f := fun w => by
  have hstate := hm w
  rw [bind_apply]
  rcases hrun : m w with ⟨r, w'⟩
  rw [hrun] at hstate
  cases r with
  | error e => exact hstate
  | ok a =>
    have hsame := (hk a w').1
    exact hstate.imp hsame.trans hsame.trans

end Atomic

/-- A program run on a part of the state. -/
def Program.zoom {σ : Type} (part : σ → τ) (replace : τ → σ → σ) (m : Program ε τ α) : Program ε σ α :=
  fun w =>
    match m ⟨part w.state, w.faults⟩ with
    | (r, w') => (r, ⟨replace w'.state w.state, w'.faults⟩)

/-! ### What a program keeps -/

/-- Whatever the plan, `m` keeps `P` of the state, and what it returns, if it
returns, satisfies `Q`. -/
def Ensures (P : τ → Prop) (m : Program ε τ α) (Q : α → Prop) : Prop :=
  ∀ w, P w.state → P (m w).2.state ∧ ∀ a, (m w).1 = .ok a → Q a

namespace Ensures

variable {P : τ → Prop} {Q : α → Prop} {R : β → Prop}

theorem pure {a : α} (h : Q a) : Ensures P (Pure.pure a : Program ε τ α) Q := fun _ hP =>
  ⟨hP, fun _ ha => by
    injection ha with ha
    exact ha ▸ h⟩

theorem mono {Q' : α → Prop} {m : Program ε τ α} (h : Ensures P m Q) (himp : ∀ a, Q a → Q' a) :
    Ensures P m Q' := fun w hP => ⟨(h w hP).1, fun a ha => himp a ((h w hP).2 a ha)⟩

theorem step : Ensures P (Program.step : Program ε τ Unit) fun _ => True := fun w hP => by
  unfold Program.step
  split <;> exact ⟨hP, fun _ _ => trivial⟩

theorem modify {f : τ → τ} (h : ∀ s, P s → P (f s)) :
    Ensures P (Program.modify f : Program ε τ Unit) fun _ => True :=
  fun _ hP => ⟨h _ hP, fun _ _ => trivial⟩

theorem bind {m : Program ε τ α} {f : α → Program ε τ β} (hm : Ensures P m Q)
    (hf : ∀ a, Q a → Ensures P (f a) R) : Ensures P (m >>= f) R := fun w hP => by
  obtain ⟨hkeep, hpost⟩ := hm w hP
  rw [bind_apply]
  rcases hw : m w with ⟨r, w'⟩
  rw [hw] at hkeep hpost
  cases r with
  | error e => exact ⟨hkeep, fun _ h => by simp at h⟩
  | ok a => exact hf a (hpost a rfl) w' hkeep

theorem fail {e : ε} : Ensures P (Program.fail e : Program ε τ α) Q := fun _ hP => ⟨hP, fun _ h => by simp at h⟩

theorem ensure {c : Prop} [Decidable c] {e : ε} : Ensures P (Program.ensure c e : Program ε τ Unit) fun _ => c := by
  unfold Program.ensure
  split_ifs with hc
  · exact pure hc
  · exact fail

theorem ofExcept {x : Except ε α} : Ensures P (Program.ofExcept x : Program ε τ α) fun a => x = .ok a := by
  cases x with
  | error e => exact fail
  | ok a => exact pure rfl

theorem get_bind {f : τ → Program ε τ β} (hf : ∀ s, P s → Ensures P (f s) R) :
    Ensures P (Program.get >>= f) R := fun w hP => hf w.state hP w hP

theorem attempt {m : Program ε τ α} (hm : Ensures P m Q) :
    Ensures P (Program.attempt m) fun r => ∀ a, r = .ok a → Q a := fun w hP => by
  obtain ⟨hkeep, hpost⟩ := hm w hP
  refine ⟨hkeep, fun r hr a ha => hpost a ?_⟩
  rw [attempt_apply] at hr
  exact (Except.ok.inj hr).trans ha

theorem foldlM {γ : Type} {f : β → γ → Program ε τ β} (hf : ∀ b c, R b → Ensures P (f b c) R) :
    ∀ (l : List γ) (b : β), R b → Ensures P (l.foldlM f b) R
  | [], _, hb => pure hb
  | c :: l, b, hb => by
    rw [List.foldlM_cons]
    exact (hf b c hb).bind fun b' hb' => foldlM hf l b' hb'

theorem forM {γ : Type} {f : γ → Program ε τ Unit} : ∀ {l : List γ},
    (∀ c ∈ l, Ensures P (f c) fun _ => True) → Ensures P (l.forM f) fun _ => True
  | [], _ => pure trivial
  | c :: l, hf => (hf c List.mem_cons_self).bind fun _ _ => forM fun c' hc' => hf c' (List.mem_cons_of_mem _ hc')

/-- A transaction leaves the state or a copy that its body made. -/
theorem inTransaction {f : τ → Program ε τ (α × τ)} (hf : ∀ s, P s → Ensures (· = s) (f s) fun r => P r.2) :
    Ensures P (transaction f) fun _ => True := fun w hP => by
  unfold transaction
  rcases (Steady.step (ε := ε) (τ := τ)).cases w with ⟨e, fs, hopen⟩ | ⟨fs, hopen⟩
  · rw [bind_of_error hopen]
    exact ⟨hP, fun _ _ => trivial⟩
  rw [bind_of_ok hopen, Program.get_bind]
  obtain ⟨hsame, hcopy⟩ := hf w.state hP ⟨w.state, fs⟩ rfl
  rcases hrun : f w.state ⟨w.state, fs⟩ with ⟨r, w'⟩
  rw [hrun] at hsame hcopy
  cases r with
  | error e =>
    rw [bind_of_error hrun]
    exact ⟨hsame ▸ hP, fun _ _ => trivial⟩
  | ok r =>
    rw [bind_of_ok hrun]
    obtain ⟨a, txn⟩ := r
    dsimp only
    rcases (Steady.step (ε := ε) (τ := τ)).cases w' with ⟨e, fs, hclose⟩ | ⟨fs, hclose⟩
    · rw [bind_of_error hclose]
      exact ⟨hsame ▸ hP, fun _ _ => trivial⟩
    · rw [bind_of_ok hclose]
      exact ⟨hcopy _ rfl, fun _ _ => trivial⟩

theorem zoom {σ : Type} {P : σ → Prop} {part : σ → τ} {replace : τ → σ → σ} {P' : τ → Prop}
    {m : Program ε τ α} (hm : Ensures P' m Q) (hpart : ∀ s, P s → P' (part s))
    (hreplace : ∀ t s, P s → P' t → P (replace t s)) : Ensures P (Program.zoom part replace m) Q := fun w hP => by
  obtain ⟨hkeep, hpost⟩ := hm ⟨part w.state, w.faults⟩ (hpart _ hP)
  exact ⟨hreplace _ _ hP hkeep, hpost⟩

end Ensures

/-- How a transaction ends: an error, and the state is what it was, or a result
of its body. -/
theorem transaction_ends {f : τ → Program ε τ (α × τ)} {s : τ} {Q : α × τ → Prop} (hf : Ensures (· = s) (f s) Q)
    (fs : List (Option ε)) : (∃ e fs', transaction f ⟨s, fs⟩ = (.error e, ⟨s, fs'⟩)) ∨
      ∃ v fs', Q v ∧ transaction f ⟨s, fs⟩ = (.ok v.1, ⟨v.2, fs'⟩) := by
  unfold transaction
  rcases (Steady.step (ε := ε) (τ := τ)).cases ⟨s, fs⟩ with ⟨e, fs', hopen⟩ | ⟨fs', hopen⟩
  · exact Or.inl ⟨e, fs', bind_of_error hopen _⟩
  rw [bind_of_ok hopen, Program.get_bind]
  obtain ⟨hsame, hresult⟩ := hf ⟨s, fs'⟩ rfl
  rcases hrun : f s ⟨s, fs'⟩ with ⟨r, ⟨s', fs''⟩⟩
  rw [hrun] at hsame hresult
  obtain rfl : s' = s := hsame
  cases r with
  | error e => exact Or.inl ⟨e, fs'', bind_of_error hrun _⟩
  | ok v =>
    rw [bind_of_ok hrun]
    rcases (Steady.step (ε := ε) (τ := τ)).cases ⟨s', fs''⟩ with ⟨e, fs, hclose⟩ | ⟨fs, hclose⟩
    · exact Or.inl ⟨e, fs, bind_of_error hclose _⟩
    · exact Or.inr ⟨v, fs, hresult v rfl, bind_of_ok hclose _⟩

/-- What an atomic program's one change keeps, it keeps. -/
theorem Atomic.ensures {P : τ → Prop} {m : Program ε τ α} {f : τ → τ} (h : Atomic m f) (hf : ∀ s, P s → P (f s)) :
    Ensures P m fun _ => True := fun w hP => by
  refine ⟨?_, fun _ _ => trivial⟩
  rcases h w with hw | hw
  · exact hw ▸ hP
  · exact hw ▸ hf _ hP

/-! ### Where a program leads -/

/-- From a state in `P`, `m` returns in `Q` or fails in `E`, whatever the plan. -/
def Leads (P : τ → Prop) (m : Program ε τ α) (Q : α → τ → Prop) (E : τ → Prop) : Prop :=
  ∀ w, P w.state → (∀ a, (m w).1 = .ok a → Q a (m w).2.state) ∧ ∀ e, (m w).1 = .error e → E (m w).2.state

namespace Leads

variable {P : τ → Prop} {Q : α → τ → Prop} {R : β → τ → Prop} {E : τ → Prop}

theorem pure {a : α} (h : ∀ s, P s → Q a s) : Leads P (Pure.pure a : Program ε τ α) Q E := fun w hP =>
  ⟨fun b hb => by
    injection hb with hb
    exact hb ▸ h w.state hP, fun e he => by simp at he⟩

theorem bind {m : Program ε τ α} {f : α → Program ε τ β} (hm : Leads P m Q E) (hf : ∀ a, Leads (Q a) (f a) R E) :
    Leads P (m >>= f) R E := fun w hP => by
  obtain ⟨hreturns, hfails⟩ := hm w hP
  rw [bind_apply]
  rcases hw : m w with ⟨r, w'⟩
  rw [hw] at hreturns hfails
  cases r with
  | error e => exact ⟨fun _ h => by simp at h, fun _ _ => hfails e rfl⟩
  | ok a => exact hf a w' (hreturns a rfl)

theorem of_imp {P' : τ → Prop} {m : Program ε τ α} (h : Leads P m Q E) (himp : ∀ s, P' s → P s) : Leads P' m Q E :=
  fun w hP => h w (himp _ hP)

theorem fails {E' : τ → Prop} {m : Program ε τ α} (h : Leads P m Q E) (himp : ∀ s, E s → E' s) : Leads P m Q E' :=
  fun w hP => ⟨(h w hP).1, fun e he => himp _ ((h w hP).2 e he)⟩

/-- First what keeps `P`. -/
theorem after {Q' : α → Prop} {m : Program ε τ α} {f : α → Program ε τ β} (hm : Ensures P m Q')
    (hE : ∀ s, P s → E s) (hf : ∀ a, Leads P (f a) R E) : Leads P (m >>= f) R E :=
  bind (Q := fun _ => P) (fun w hP => ⟨fun _ _ => (hm w hP).1, fun _ _ => hE _ (hm w hP).1⟩) hf

end Leads

/-! ### What a program did when it returned -/

/-- On some plan, `m` takes the state to `s'` and returns `a`. -/
def Gives (m : Program ε τ α) (s : τ) (a : α) (s' : τ) : Prop := ∃ fs fs', m ⟨s, fs⟩ = (.ok a, ⟨s', fs'⟩)

namespace Gives

variable {s s' : τ} {a : α} {b : β}

theorem bind {m : Program ε τ α} {f : α → Program ε τ β} (h : Gives (m >>= f) s b s') :
    ∃ a s₁, Gives m s a s₁ ∧ Gives (f a) s₁ b s' := by
  obtain ⟨fs, fs', h⟩ := h
  rw [bind_apply] at h
  rcases hm : m ⟨s, fs⟩ with ⟨e | a, ⟨s₁, fs₁⟩⟩
  · simp [hm] at h
  · rw [hm] at h
    exact ⟨a, s₁, ⟨fs, fs₁, hm⟩, ⟨fs₁, fs', h⟩⟩

theorem pure {a' : α} (h : Gives (Pure.pure a' : Program ε τ α) s a s') : a = a' ∧ s' = s := by
  obtain ⟨fs, fs', h⟩ := h
  simp only [pure_apply, Prod.mk.injEq, Except.ok.injEq, World.mk.injEq] at h
  exact ⟨h.1.symm, h.2.1.symm⟩

theorem step {u : Unit} (h : Gives (Program.step : Program ε τ Unit) s u s') : s' = s := by
  obtain ⟨fs, fs', h⟩ := h
  have hstate := (Steady.step (ε := ε) ⟨s, fs⟩).1
  rw [h] at hstate
  exact hstate

theorem modify {f : τ → τ} {u : Unit} (h : Gives (Program.modify f : Program ε τ Unit) s u s') : s' = f s := by
  obtain ⟨fs, fs', h⟩ := h
  simp only [modify_apply, Prod.mk.injEq, World.mk.injEq] at h
  exact h.2.1.symm

/-- A program that returned. -/
theorem of_toOption {m : Program ε τ α} {fs : List (Option ε)} (h : (m ⟨s, fs⟩).1.toOption = some a) :
    Gives m s a (m ⟨s, fs⟩).2.state := by
  rcases hm : m ⟨s, fs⟩ with ⟨e | a', ⟨s', fs'⟩⟩
  · simp [hm, Except.toOption] at h
  · rw [hm] at h
    exact ⟨fs, fs', Option.some.inj h ▸ hm⟩

theorem get_bind {f : τ → Program ε τ β} (h : Gives (Program.get >>= f) s b s') : Gives (f s) s b s' := h

theorem step_bind {f : Unit → Program ε τ β} (h : Gives (Program.step >>= f) s b s') : Gives (f ()) s b s' := by
  obtain ⟨_, _, hstep, h⟩ := h.bind
  rw [hstep.step] at h
  exact h

theorem modify_bind {g : τ → τ} {f : Unit → Program ε τ β} (h : Gives (Program.modify g >>= f) s b s') :
    Gives (f ()) (g s) b s' := by
  obtain ⟨_, _, hmodify, h⟩ := h.bind
  rw [hmodify.modify] at h
  exact h

theorem fail {e : ε} (h : Gives (Program.fail e : Program ε τ α) s a s') : False := by
  obtain ⟨fs, fs', h⟩ := h
  simp at h

theorem ensure_bind {c : Prop} [Decidable c] {e : ε} {f : Unit → Program ε τ β}
    (h : Gives (Program.ensure c e >>= f) s b s') : c ∧ Gives (f ()) s b s' := by
  obtain ⟨fs, fs', h⟩ := h
  rw [Program.ensure_bind] at h
  split_ifs at h with hc
  · exact ⟨hc, fs, fs', h⟩
  · simp at h

theorem ensure {c : Prop} [Decidable c] {e : ε} {u : Unit} (h : Gives (Program.ensure c e) s u s') : c ∧ s' = s := by
  unfold Program.ensure at h
  split_ifs at h with hc
  · exact ⟨hc, h.pure.2⟩
  · exact h.fail.elim

theorem ofExcept {x : Except ε α} (h : Gives (Program.ofExcept x : Program ε τ α) s a s') : x = .ok a ∧ s' = s := by
  cases x with
  | error e => exact h.fail.elim
  | ok a' =>
    obtain ⟨rfl, hs⟩ := Gives.pure h
    exact ⟨rfl, hs⟩

theorem ofExcept_bind {x : Except ε α} {f : α → Program ε τ β} (h : Gives (Program.ofExcept x >>= f) s b s') :
    ∃ a, x = .ok a ∧ Gives (f a) s b s' := by
  cases x with
  | error e =>
    obtain ⟨fs, fs', h⟩ := h
    simp at h
  | ok a => exact ⟨a, rfl, h⟩

end Gives

/-! ### Loops whose turns are known -/

/-- A loop that returns has taken every turn. -/
theorem Gives.forM {γ : Type} {f : γ → Program ε τ Unit} {C : τ → γ → Prop} {g : γ → τ → τ}
    (hf : ∀ {c s s'}, Gives (f c) s () s' → C s c ∧ s' = g c s) : ∀ {l : List γ} {s s' : τ} {u : Unit},
    Gives (l.forM f) s u s' → Along C g l s ∧ s' = l.foldl (fun s c => g c s) s
  | [], s, s', _, h => ⟨trivial, (Gives.pure h).2⟩
  | c :: l, s, s', _, h => by
    obtain ⟨_, s₁, hturn, hrest⟩ := Gives.bind (h : Gives (f c >>= fun _ => l.forM f) s _ s')
    obtain ⟨hc, rfl⟩ := hf hturn
    obtain ⟨halong, hs⟩ := Gives.forM hf hrest
    exact ⟨⟨hc, halong⟩, hs⟩

/-! ### What a program does without faults -/

/-- Without faults, `m` takes the state to `s'` and returns `a`. -/
def Returns (m : Program ε τ α) (s : τ) (a : α) (s' : τ) : Prop := m ⟨s, []⟩ = (.ok a, ⟨s', []⟩)

namespace Returns

variable {s s' s₁ : τ} {a : α} {b : β}

theorem gives {m : Program ε τ α} (h : Returns m s a s') : Gives m s a s' := ⟨[], [], h⟩

theorem pure : Returns (Pure.pure a : Program ε τ α) s a s := rfl

theorem bind {m : Program ε τ α} {f : α → Program ε τ β} (hm : Returns m s a s₁) (hf : Returns (f a) s₁ b s') :
    Returns (m >>= f) s b s' := by
  rw [Returns, bind_of_ok hm]
  exact hf

theorem step_bind {f : Unit → Program ε τ β} (h : Returns (f ()) s b s') : Returns (Program.step >>= f) s b s' := h

theorem step : Returns (Program.step : Program ε τ Unit) s () s := rfl

theorem modify {f : τ → τ} : Returns (Program.modify f : Program ε τ Unit) s () (f s) := rfl

theorem modify_bind {g : τ → τ} {f : Unit → Program ε τ β} (h : Returns (f ()) (g s) b s') :
    Returns (Program.modify g >>= f) s b s' := h

theorem get_bind {f : τ → Program ε τ β} (h : Returns (f s) s b s') : Returns (Program.get >>= f) s b s' := h

theorem ensure {c : Prop} [Decidable c] {e : ε} (hc : c) : Returns (Program.ensure c e : Program ε τ Unit) s () s := by
  rw [Program.ensure, if_pos hc]
  exact pure

theorem ensure_bind {c : Prop} [Decidable c] {e : ε} {f : Unit → Program ε τ β} (hc : c) (h : Returns (f ()) s b s') :
    Returns (Program.ensure c e >>= f) s b s' := (ensure hc).bind h

theorem ofExcept_bind {x : Except ε α} {f : α → Program ε τ β} (hx : x = .ok a) (h : Returns (f a) s b s') :
    Returns (Program.ofExcept x >>= f) s b s' := by
  rw [hx]
  exact h

/-- A loop whose turns meet their conditions. -/
theorem forM {γ : Type} {f : γ → Program ε τ Unit} {C : τ → γ → Prop} {g : γ → τ → τ}
    (hf : ∀ {c s}, C s c → Returns (f c) s () (g c s)) : ∀ {l : List γ} {s : τ}, Along C g l s →
    Returns (l.forM f) s () (l.foldl (fun s c => g c s) s)
  | [], _, _ => pure
  | _ :: _, _, h => (hf h.1).bind (forM (fun hc => hf hc) h.2)

end Returns

/-! ### Where errors come from -/

/-- An error of `m` is one of those planned, and the plan it leaves is the end
of the plan it was given. -/
def Blames (m : Program ε τ α) : Prop :=
  ∀ w, (m w).2.faults <:+ w.faults ∧ ∀ e, (m w).1 = .error e → some e ∈ w.faults

/-- The same of one run. -/
def BlamesAt (m : Program ε τ α) (w : World ε τ) : Prop :=
  (m w).2.faults <:+ w.faults ∧ ∀ e, (m w).1 = .error e → some e ∈ w.faults

/-- **Without faults a program succeeds.** -/
theorem BlamesAt.returns {m : Program ε τ α} {s : τ} (h : BlamesAt m ⟨s, []⟩) :
    ∃ a s', m ⟨s, []⟩ = (.ok a, ⟨s', []⟩) := by
  obtain ⟨hsuffix, herror⟩ := h
  rcases hw : m ⟨s, []⟩ with ⟨a | a, ⟨s', fs⟩⟩
  · rw [hw] at herror
    cases herror a rfl
  · rw [hw] at hsuffix
    obtain rfl : fs = [] := List.suffix_nil.mp hsuffix
    exact ⟨a, s', rfl⟩

namespace Blames

theorem pure (a : α) : Blames (Pure.pure a : Program ε τ α) := fun _ => ⟨List.suffix_refl _, fun _ h => by simp at h⟩

theorem modify (f : τ → τ) : Blames (Program.modify f : Program ε τ Unit) := fun _ =>
  ⟨List.suffix_refl _, fun _ h => by simp at h⟩

theorem step : Blames (Program.step : Program ε τ Unit) := by
  rintro ⟨s, fs⟩
  match fs with
  | [] => exact ⟨List.suffix_refl _, fun _ h => by simp [Program.step] at h⟩
  | none :: fs => exact ⟨List.suffix_cons _ _, fun _ h => by simp [Program.step] at h⟩
  | some e :: fs =>
    refine ⟨List.suffix_cons _ _, fun e' h => ?_⟩
    obtain rfl : e = e' := by simpa [Program.step] using h
    exact List.mem_cons_self

theorem bind {m : Program ε τ α} {f : α → Program ε τ β} (hm : Blames m) (hf : ∀ a, Blames (f a)) :
    Blames (m >>= f) := fun w => by
  obtain ⟨hsuffix, herror⟩ := hm w
  rw [bind_apply]
  rcases hw : m w with ⟨r, w'⟩
  rw [hw] at hsuffix herror
  cases r with
  | error e =>
    refine ⟨hsuffix, fun e' h => herror e' ?_⟩
    simpa using h
  | ok a =>
    obtain ⟨hsuffix', herror'⟩ := hf a w'
    exact ⟨hsuffix'.trans hsuffix, fun e h => hsuffix.subset (herror' e h)⟩

theorem attempt {m : Program ε τ α} (hm : Blames m) : Blames (Program.attempt m) := fun w =>
  ⟨(hm w).1, fun _ h => by simp at h⟩

theorem get_bind {f : τ → Program ε τ β} (hf : ∀ s, Blames (f s)) : Blames (Program.get >>= f) :=
  fun w => hf w.state w

theorem foldlM {γ : Type} {f : β → γ → Program ε τ β} (hf : ∀ b c, Blames (f b c)) : ∀ (l : List γ) (b : β),
    Blames (l.foldlM f b)
  | [], b => pure b
  | c :: l, b => by
    rw [List.foldlM_cons]
    exact (hf b c).bind fun b' => foldlM hf l b'

theorem transaction {f : τ → Program ε τ (α × τ)} (hf : ∀ s, Blames (f s)) : Blames (transaction f) :=
  step.bind fun _ => get_bind fun s => (hf s).bind fun p => step.bind fun _ => (modify _).bind fun _ => pure p.1

theorem zoom {σ : Type} (part : σ → τ) (replace : τ → σ → σ) {m : Program ε τ α} (hm : Blames m) :
    Blames (Program.zoom part replace m) := fun w => hm ⟨part w.state, w.faults⟩

end Blames
