/-
# Runs of a labelled step relation

`Run step s ls s'`: the steps labelled `ls`, taken one after another, lead
from `s` to `s'`. An invariant of a run may speak of its history, the labels
so far (`Run.history`), or of the state alone (`Run.invariant`). A condition
on the steps of a run is a smaller step relation (`Run.mono`). Where a label
names its step, the labels alone make a run (`Run.of_along`).

Key definitions: `Run`, `Along`.
Key theorems: `Run.history`, `Run.invariant`, `Run.of_along`.
-/
import Mathlib.Data.List.Basic

/-- Steps one after another. -/
inductive Run {σ ℓ : Type} (step : σ → ℓ → σ → Prop) (s : σ) : List ℓ → σ → Prop
  | nil : Run step s [] s
  | snoc {ls : List ℓ} {s' s'' : σ} {l : ℓ} (h : Run step s ls s') (hs : step s' l s'') : Run step s (ls ++ [l]) s''

namespace Run

variable {σ ℓ : Type} {step step' : σ → ℓ → σ → Prop} {s s' s'' : σ} {ls ls' : List ℓ} {l : ℓ}

theorem single (hs : step s l s') : Run step s [l] s' := .snoc .nil hs

/-- Without steps nothing changes. -/
theorem eq_of_nil (h : Run step s [] s') : s' = s := by
  generalize hnil : ([] : List ℓ) = ls at h
  cases h with
  | nil => rfl
  | snoc => simp at hnil

/-- What holds at the start and is kept by every step, given the history so
far, holds at the end. -/
theorem history {P : List ℓ → σ → Prop} (h : Run step s ls s') (h0 : P [] s)
    (hstep : ∀ {ls s l s'}, P ls s → step s l s' → P (ls ++ [l]) s') : P ls s' := by
  induction h with
  | nil => exact h0
  | snoc _ hs ih => exact hstep ih hs

/-- What every step keeps, a run keeps. -/
theorem invariant {P : σ → Prop} (h : Run step s ls s') (h0 : P s)
    (hstep : ∀ {s l s'}, P s → step s l s' → P s') : P s' :=
  h.history (P := fun _ => P) h0 fun hp hs => hstep hp hs

theorem trans (h : Run step s ls s') (h' : Run step s' ls' s'') : Run step s (ls ++ ls') s'' := by
  induction h' with
  | nil => rwa [List.append_nil]
  | snoc _ hs ih =>
    rw [← List.append_assoc]
    exact .snoc ih hs

/-- A run of some steps is a run of more. -/
theorem mono (h : Run step s ls s') (himp : ∀ {s l s'}, step s l s' → step' s l s') : Run step' s ls s' := by
  induction h with
  | nil => exact .nil
  | snoc _ hs ih => exact .snoc ih (himp hs)

end Run

/-! ### Labels that name their steps -/

variable {σ ℓ : Type}

/-- Every label, taken as `g`, meets its condition where it comes. -/
def Along (C : σ → ℓ → Prop) (g : ℓ → σ → σ) : List ℓ → σ → Prop
  | [], _ => True
  | l :: ls, s => C s l ∧ Along C g ls (g l s)

instance Along.decidable {C : σ → ℓ → Prop} [∀ s l, Decidable (C s l)] {g : ℓ → σ → σ} :
    (ls : List ℓ) → (s : σ) → Decidable (Along C g ls s)
  | [], _ => inferInstanceAs (Decidable True)
  | l :: ls, s =>
    have := Along.decidable (C := C) (g := g) ls (g l s)
    inferInstanceAs (Decidable (C s l ∧ Along C g ls (g l s)))

theorem Along.of_forall {C : σ → ℓ → Prop} {g : ℓ → σ → σ} :
    ∀ {ls : List ℓ}, (∀ l ∈ ls, ∀ s, C s l) → ∀ s, Along C g ls s
  | [], _, _ => trivial
  | l :: _, h, s => ⟨h l List.mem_cons_self s, Along.of_forall (fun l' hl' => h l' (List.mem_cons_of_mem l hl')) _⟩

theorem Along.mono {C D : σ → ℓ → Prop} {g : ℓ → σ → σ} (himp : ∀ s l, C s l → D s l) : ∀ {ls : List ℓ} {s : σ},
    Along C g ls s → Along D g ls s
  | [], _, _ => trivial
  | l :: _, s, h => ⟨himp s l h.1, h.2.mono himp⟩

/-- What the steps that meet their condition keep, and what it gives at each. -/
theorem Along.invariant {C D : σ → ℓ → Prop} {P : σ → Prop} {g : ℓ → σ → σ}
    (hstep : ∀ {s l}, P s → C s l → D s l ∧ P (g l s)) : ∀ {ls : List ℓ} {s : σ}, P s → Along C g ls s → Along D g ls s
  | [], _, _, _ => trivial
  | _ :: _, _, h0, h =>
    have hnow := hstep h0 h.1
    ⟨hnow.1, Along.invariant (C := C) (P := P) hstep hnow.2 h.2⟩

/-- What a step keeps just where it meets its condition, a run keeps just where
all its steps do. -/
theorem Along.iff_foldl {C : σ → ℓ → Prop} {P : σ → Prop} {g : ℓ → σ → σ} : ∀ {ls : List ℓ},
    (∀ l ∈ ls, ∀ s, P (g l s) ↔ P s ∧ C s l) → ∀ s, P (ls.foldl (fun s l => g l s) s) ↔ P s ∧ Along C g ls s
  | [], _, s => by simp [Along]
  | l :: ls, h, s => by
    have hrest := Along.iff_foldl (fun l' hl' => h l' (List.mem_cons_of_mem l hl')) (g l s)
    rw [List.foldl_cons, hrest, h l List.mem_cons_self s, Along, and_assoc]

namespace Run

/-- The labels alone make the run. -/
theorem of_along {C : σ → ℓ → Prop} {f : σ → ℓ → σ} {ls : List ℓ} {s : σ} (h : Along C (fun l s => f s l) ls s) :
    Run (fun s l s' => C s l ∧ f s l = s') s ls (ls.foldl f s) := by
  induction ls generalizing s with
  | nil => exact .nil
  | cons l ls ih =>
    obtain ⟨hc, hrest⟩ := h
    exact (Run.single ⟨hc, rfl⟩).trans (ih hrest)

theorem foldl (f : σ → ℓ → σ) (ls : List ℓ) (s : σ) : Run (fun s l s' => f s l = s') s ls (ls.foldl f s) :=
  (of_along (C := fun _ _ => True) (Along.of_forall (fun _ _ _ => trivial) s)).mono And.right

end Run
