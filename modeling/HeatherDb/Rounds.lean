/-
# Rounds of compression

The loop of `compress` as a run: a round joins the closest pair, where that
pays, and the loop stops where it does not or at two locations. The rounds are
as many as are needed (`compressLoop_run`): with as many rounds as locations
the loop has stopped, and more rounds change nothing.

A round takes one location away and puts what it held into another
(`sum_join`), so that whatever a join adds up is the same before and after.

Key definitions: `Round`, `Stopped`.
Key theorems: `compressLoop_run`, `sum_join`, `Round.sum`, `compression_run`.
-/
import Mathlib.Algebra.BigOperators.Group.List.Basic
import HeatherDb.Arrays
import HeatherDb.Consolidation
import HeatherDb.Lib.Runs

namespace HeatherDb

open Scalar

variable {F : Type} [Scalar F]

/-- Location `b` joined to location `a` as compression joins them. -/
def joined (a b : HardLocation F) : HardLocation F :=
  fold (fmax a.writeCount leastWeight) (fmax b.writeCount leastWeight) a b

/-- One round: the closest pair is joined, which pays. -/
structure Round (kappa lambda w : F) (ls : List (HardLocation F)) (p : HardLocation F × HardLocation F)
    (ls' : List (HardLocation F)) : Prop where
  many : 2 < ls.length
  paid : pays kappa lambda w ls (closestPair ls) = true
  fst_eq : p.1 = locationAt ls (closestPair ls).1
  snd_eq : p.2 = locationAt ls (closestPair ls).2.1
  next : ls' = (ls.set (closestPair ls).1 (joined p.1 p.2)).eraseIdx (closestPair ls).2.1

/-- Where the loop breaks. -/
def Stopped (kappa lambda w : F) (ls : List (HardLocation F)) : Prop :=
  ls.length ≤ 2 ∨ pays kappa lambda w ls (closestPair ls) = false

variable {kappa lambda w : F} {ls ls' : List (HardLocation F)} {p : HardLocation F × HardLocation F}

theorem Round.length (h : Round kappa lambda w ls p ls') : ls'.length + 1 = ls.length := by
  obtain ⟨-, hj⟩ := closestPair_lt h.many
  rw [h.next, List.length_eraseIdx_of_lt (by simpa using hj), List.length_set]
  omega

/-- What is left is the join or was there. -/
theorem Round.mem (h : Round kappa lambda w ls p ls') {loc : HardLocation F} (hloc : loc ∈ ls') :
    loc ∈ ls ∨ loc = joined p.1 p.2 := by
  rw [h.next] at hloc
  exact List.mem_or_eq_of_mem_set (List.mem_of_mem_eraseIdx hloc)

theorem Round.fst_mem (h : Round kappa lambda w ls p ls') : p.1 ∈ ls := by
  obtain ⟨hi, hj⟩ := closestPair_lt h.many
  exact h.fst_eq ▸ locationAt_mem (hi.trans hj)

theorem Round.snd_mem (h : Round kappa lambda w ls p ls') : p.2 ∈ ls := by
  obtain ⟨-, hj⟩ := closestPair_lt h.many
  exact h.snd_eq ▸ locationAt_mem hj

/-- **The loop is a run of rounds** that ends where it breaks, given as many
rounds as there are locations; more change nothing. -/
theorem compressLoop_run (kappa lambda w : F) : ∀ {fuel : ℕ} {ls : List (HardLocation F)} (parent : List (ℕ × ℕ)),
    ls.length ≤ fuel → ∃ joins, Run (Round kappa lambda w) ls joins (compressLoop kappa lambda w fuel ls parent).1 ∧
      Stopped kappa lambda w (compressLoop kappa lambda w fuel ls parent).1 ∧
      (compressLoop kappa lambda w fuel ls parent).2 = parent ++ joins.map (fun p => (p.2.id, p.1.id)) ∧
      compressLoop kappa lambda w (fuel + 1) ls parent = compressLoop kappa lambda w fuel ls parent
  | 0, ls, parent, h => by
    have hfew : ls.length ≤ 2 := h.trans (Nat.zero_le 2)
    refine ⟨[], .nil, Or.inl hfew, (List.append_nil parent).symm, ?_⟩
    show (if ls.length ≤ 2 then (ls, parent) else _) = (ls, parent)
    rw [if_pos hfew]
  | fuel + 1, ls, parent, h => by
    by_cases hfew : ls.length ≤ 2
    · have hstop : ∀ fuel, compressLoop kappa lambda w (fuel + 1) ls parent = (ls, parent) := fun fuel => by
        rw [compressLoop, if_pos hfew]
      rw [hstop, hstop]
      exact ⟨[], .nil, Or.inl hfew, (List.append_nil parent).symm, rfl⟩
    by_cases hpaid : pays kappa lambda w ls (closestPair ls) = true
    · set p := (locationAt ls (closestPair ls).1, locationAt ls (closestPair ls).2.1) with hp
      set next := (ls.set (closestPair ls).1 (joined p.1 p.2)).eraseIdx (closestPair ls).2.1 with hnext
      have hround : Round kappa lambda w ls p next := ⟨Nat.lt_of_not_le hfew, hpaid, rfl, rfl, rfl⟩
      have hloop : ∀ fuel, compressLoop kappa lambda w (fuel + 1) ls parent =
          compressLoop kappa lambda w fuel next (parent ++ [(p.2.id, p.1.id)]) := fun fuel => by
        rw [compressLoop, if_neg hfew]
        exact if_pos hpaid
      have hless : next.length ≤ fuel := by
        have := hround.length
        omega
      obtain ⟨joins, hrun, hstop, hparent, hmore⟩ :=
        compressLoop_run kappa lambda w (parent ++ [(p.2.id, p.1.id)]) hless
      rw [hloop, hloop]
      refine ⟨p :: joins, (Run.single hround).trans hrun, hstop, ?_, hmore⟩
      rw [hparent, List.map_cons, List.append_assoc, List.singleton_append]
    · have hstop : ∀ fuel, compressLoop kappa lambda w (fuel + 1) ls parent = (ls, parent) := fun fuel => by
        rw [compressLoop, if_neg hfew]
        exact if_neg hpaid
      rw [hstop, hstop]
      exact ⟨[], .nil, Or.inr (Bool.eq_false_iff.mpr hpaid), (List.append_nil parent).symm, rfl⟩

variable {M : Type} [AddCommGroup M] {μ : HardLocation F → M}

/-- **The sum over a list** does not change when one entry takes another up. -/
theorem sum_join {i j : ℕ} (hi : i < ls.length) (hj : j < ls.length) (hne : i ≠ j) {x : HardLocation F}
    (hx : μ x = μ (locationAt ls i) + μ (locationAt ls j)) :
    (((ls.set i x).eraseIdx j).map μ).sum = (ls.map μ).sum := by
  have hat : ∀ {k : ℕ} (hk : k < ls.length), ls[k] = locationAt ls k := fun hk => (List.getD_eq_getElem _ _ hk).symm
  have hbefore := (((List.getElem_cons_eraseIdx_perm hi).map μ).sum_eq).symm
  have hi' : i < (ls.set i x).length := by simpa using hi
  have hset := (((List.getElem_cons_eraseIdx_perm hi').map μ).sum_eq).symm
  have hj' : j < (ls.set i x).length := by simpa using hj
  have hafter := (((List.getElem_cons_eraseIdx_perm hj').map μ).sum_eq).symm
  rw [List.map_cons, List.sum_cons, hat hi] at hbefore
  rw [List.map_cons, List.sum_cons, List.getElem_set_self, List.eraseIdx_set_eq, hx] at hset
  rw [List.map_cons, List.sum_cons, List.getElem_set_ne hne, hat hj, hset] at hafter
  rw [hbefore]
  have hcancel : μ (locationAt ls j) + (((ls.set i x).eraseIdx j).map μ).sum =
      μ (locationAt ls j) + (μ (locationAt ls i) + ((ls.eraseIdx i).map μ).sum) := by
    rw [← hafter, ← add_assoc, add_comm (μ (locationAt ls j))]
  exact add_left_cancel hcancel

/-- What a join adds up is the same before and after a round. -/
theorem Round.sum (h : Round kappa lambda w ls p ls') (hx : μ (joined p.1 p.2) = μ p.1 + μ p.2) :
    (ls'.map μ).sum = (ls.map μ).sum := by
  obtain ⟨hi, hj⟩ := closestPair_lt h.many
  rw [h.next]
  rw [h.fst_eq, h.snd_eq] at hx ⊢
  exact sum_join (hi.trans hj) hj hi.ne hx

/-! ### What a compression leaves -/

section session

variable {S : Type} [Narrow F S]

/-- A compression that succeeds leaves this and returns this. -/
theorem compress_ok {s s' : Session F S} {fs fs' : List (Option HeatherError)} {result : CompressResult F}
    (h : compress kappa lambda ⟨s, fs⟩ = (.ok result, ⟨s', fs'⟩)) :
    s' = s.compressed kappa lambda ∧ result = s.compressResult kappa lambda := by
  rcases compress_cases kappa lambda s fs with ⟨e, fs'', s'', herror, -⟩ | ⟨fs'', hok⟩
  · rw [h] at herror
    simp at herror
  · rw [h] at hok
    obtain ⟨hresult, hworld⟩ := Prod.mk.inj hok
    simp only [Except.ok.injEq] at hresult
    exact ⟨by simpa using congrArg (·.state) hworld, hresult⟩

/-- What it leaves is what its rounds lead to. -/
theorem compression_run (s : Session F S) (kappa lambda : F) :
    ∃ joins, Run (Round kappa lambda (totalWeight s.collection.inner.locations)) s.collection.inner.locations joins
        (s.compressed kappa lambda).collection.inner.locations ∧
      Stopped kappa lambda (totalWeight s.collection.inner.locations)
        (s.compressed kappa lambda).collection.inner.locations ∧
      (s.compressed kappa lambda).collection.inner.locations = (s.compression kappa lambda).1 ∧
      (s.compression kappa lambda).2 = joins.map fun p => (p.2.id, p.1.id) := by
  obtain ⟨joins, hrun, hstop, hparent, -⟩ := compressLoop_run kappa lambda
    (totalWeight s.collection.inner.locations) [] (le_refl s.collection.inner.locations.length)
  rw [List.nil_append] at hparent
  have hleft : (s.compressed kappa lambda).collection.inner.locations = (s.compression kappa lambda).1 := by
    unfold Session.compressed
    dsimp only
    split_ifs with hidle
    · -- no pair means no round
      have hnone : joins = [] := List.map_eq_nil_iff.mp (hparent.symm.trans hidle)
      subst hnone
      exact hrun.eq_of_nil.symm
    · rfl
  exact ⟨joins, hleft ▸ hrun, hleft ▸ hstop, hleft, hparent⟩

theorem config_compressed (s : Session F S) (kappa lambda : F) :
    (s.compressed kappa lambda).collection.inner.config = s.collection.inner.config := by
  unfold Session.compressed
  dsimp only
  split_ifs <;> rfl

theorem indexed_compressed {s : Session F S} (harrays : Indexed s.collection.inner) (kappa lambda : F) :
    Indexed (s.compressed kappa lambda).collection.inner := by
  unfold Session.compressed
  dsimp only
  split_ifs
  · exact harrays
  · exact indexed_rebuildGraphCache _

end session

end HeatherDb
