/-
# Parsers

A parser takes values off the front of its input, or stops with an error.
What one does is said in three ways. `Reads m bs a`: off input that starts
with `bs` it takes exactly these and returns `a`, which is how a decoder is
run on what an encoder wrote. `Takes P m n f`: it always takes `n` items,
whatever they are, returns `f` of them and stops only when they are not
there, with an error of `P`, which is how one is run on arbitrary input.
`Stops P m`: its errors are of `P`.

Key definitions: `Parser`, `Parser.Reads`, `Parser.Takes`, `Parser.Stops`.
Key theorems: `Parser.bind_ok_iff`, `Parser.Reads.andThen`, `Parser.Takes.bind_at_iff`,
`Parser.Takes.reads_of`, `Parser.Stops.bind`.
-/
import Mathlib.Data.List.Basic

/-- A parser over a list of items. -/
abbrev Parser (ε τ α : Type) := StateT (List τ) (Except ε) α

namespace Parser

variable {ε τ α β : Type} {P : ε → Prop}

/-- A sequence returns what its second part does after the first. -/
theorem bind_ok_iff {m : Parser ε τ α} {f : α → Parser ε τ β} {s s' : List τ} {b : β} :
    (m >>= f) s = .ok (b, s') ↔ ∃ a s₁, m s = .ok (a, s₁) ∧ f a s₁ = .ok (b, s') := by
  show (m s >>= fun p => f p.1 p.2) = _ ↔ _
  cases h : m s with
  | error e => simp [Bind.bind, Except.bind]
  | ok p =>
    obtain ⟨a, s₁⟩ := p
    simp [Bind.bind, Except.bind]

theorem pure_ok_iff {a b : α} {s s' : List τ} :
    (pure a : Parser ε τ α) s = .ok (b, s') ↔ a = b ∧ s = s' := by
  show Except.ok (a, s) = _ ↔ _
  simp

/-! ### On input that was written for it -/

/-- Off input that starts with `bs` the parser takes these and returns `a`. -/
def Reads (m : Parser ε τ α) (bs : List τ) (a : α) : Prop := ∀ rest, m (bs ++ rest) = .ok (a, rest)

protected theorem Reads.pure (a : α) : Reads (pure a : Parser ε τ α) [] a := fun _ => rfl

/-- What a parser reads, and then what is left for the next. -/
theorem Reads.andThen {m : Parser ε τ α} {f : α → Parser ε τ β} {bs cs : List τ} {a : α} {r : β × List τ}
    (hm : Reads m bs a) (hf : f a cs = .ok r) : (m >>= f) (bs ++ cs) = .ok r := by
  obtain ⟨b, s'⟩ := r
  exact bind_ok_iff.mpr ⟨a, cs, hm cs, hf⟩

/-- What a parser reads at the end of an input. -/
theorem Reads.atEnd {m : Parser ε τ α} {f : α → Parser ε τ β} {bs : List τ} {a : α} {r : β × List τ}
    (hm : Reads m bs a) (hf : f a [] = .ok r) : (m >>= f) bs = .ok r := by
  have h := hm.andThen hf
  rwa [List.append_nil] at h

/-! ### On any input -/

/-- The parser takes `n` items and returns `f` of them; where they are
missing it stops with an error of `P`. -/
structure Takes (P : ε → Prop) (m : Parser ε τ α) (n : ℕ) (f : List τ → α) : Prop where
  reads : ∀ s, n ≤ s.length → m s = .ok (f (s.take n), s.drop n)
  stops : ∀ s, s.length < n → ∃ e, m s = .error e ∧ P e

theorem Takes.ok_iff {m : Parser ε τ α} {n : ℕ} {f : List τ → α} (h : Takes P m n f) {s s' : List τ} {a : α} :
    m s = .ok (a, s') ↔ n ≤ s.length ∧ a = f (s.take n) ∧ s' = s.drop n := by
  by_cases hn : n ≤ s.length
  · rw [h.reads s hn]
    simp only [Except.ok.injEq, Prod.mk.injEq, hn, true_and]
    exact ⟨fun e => ⟨e.1.symm, e.2.symm⟩, fun e => ⟨e.1.symm, e.2.symm⟩⟩
  · obtain ⟨e, he, -⟩ := h.stops s (by omega)
    simp [he, hn]

/-- A sequence that starts at an offset of an input goes on behind it. -/
theorem Takes.bind_at_iff {m : Parser ε τ α} {n : ℕ} {f : List τ → α} (h : Takes P m n f)
    {g : α → Parser ε τ β} {s : List τ} {o : ℕ} {r : β × List τ} :
    (m >>= g) (s.drop o) = .ok r ↔
      n ≤ s.length - o ∧ g (f ((s.drop o).take n)) (s.drop (o + n)) = .ok r := by
  obtain ⟨b, s'⟩ := r
  rw [bind_ok_iff]
  constructor
  · intro hm
    obtain ⟨a, s₁, hm, hg⟩ := hm
    obtain ⟨hn, rfl, rfl⟩ := h.ok_iff.mp hm
    rw [List.drop_drop] at hg
    exact ⟨by simpa using hn, hg⟩
  · intro hm
    obtain ⟨hn, hg⟩ := hm
    refine ⟨_, _, h.ok_iff.mpr ⟨by simpa using hn, rfl, rfl⟩, ?_⟩
    rw [List.drop_drop]
    exact hg

theorem Takes.reads_of {m : Parser ε τ α} {n : ℕ} {f : List τ → α} (h : Takes P m n f) {bs : List τ}
    (hlen : bs.length = n) : Reads m bs (f bs) := by
  intro rest
  have hle : n ≤ (bs ++ rest).length := by simp only [List.length_append]; omega
  rw [h.reads _ hle, ← hlen, List.take_left, List.drop_left]

protected theorem Takes.pure (a : α) : Takes P (pure a : Parser ε τ α) 0 fun _ => a where
  reads _ _ := rfl
  stops _ h := absurd h (Nat.not_lt_zero _)

protected theorem Takes.map {m : Parser ε τ α} {n : ℕ} {f : List τ → α} (h : Takes P m n f) (g : α → β) :
    Takes P (m >>= fun a => pure (g a)) n fun bs => g (f bs) where
  reads s hn := bind_ok_iff.mpr ⟨_, _, h.reads s hn, rfl⟩
  stops s hn := by
    obtain ⟨e, he, hP⟩ := h.stops s hn
    refine ⟨e, ?_, hP⟩
    show (m s >>= fun p => _) = _
    rw [he]
    rfl

/-! ### Its errors -/

/-- What the parser stops with is an error of `P`. -/
def Stops (P : ε → Prop) (m : Parser ε τ α) : Prop := ∀ s e, m s = .error e → P e

protected theorem Stops.pure (a : α) : Stops P (pure a : Parser ε τ α) := fun _ _ h => nomatch h

protected theorem Stops.bind {m : Parser ε τ α} {f : α → Parser ε τ β} (hm : Stops P m) (hf : ∀ a, Stops P (f a)) :
    Stops P (m >>= f) := by
  intro s e h
  change (m s >>= fun p => f p.1 p.2) = _ at h
  cases hs : m s with
  | error e' =>
    rw [hs] at h
    exact Except.error.inj h ▸ hm s e' hs
  | ok p =>
    rw [hs] at h
    exact hf p.1 p.2 e h

theorem Takes.stopsWith {m : Parser ε τ α} {n : ℕ} {f : List τ → α} (h : Takes P m n f) : Stops P m := by
  intro s e he
  by_cases hn : n ≤ s.length
  · rw [h.reads s hn] at he
    cases he
  · obtain ⟨e', he', hP⟩ := h.stops s (by omega)
    exact Except.error.inj (he'.symm.trans he) ▸ hP

end Parser
