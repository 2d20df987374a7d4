/-
# Binding by permutation

`permute.rs` but for the rotation: a permutation of coordinates is stored as an
index map and its inverse, and its powers compose index maps. What is stored of
a permutation is a permutation (`Permutation.toPerm`) and its inverse, so that
everything the module computes is an index map of one (`indices`): powers are
powers, gathering through one map and then another is gathering through their
product, and the cycles are the orbits of the inverse.

Exponents are `i64`s; here they are integers.

Key definitions: `Permutation`, `fromIndices`, `applyPow`, `powIndices`, `cycles`,
`permuteSnapshot`.
Key theorems: `fromIndices_iff`, `powIndices_eq`, `applyPow_bind`,
`cycles_perm`, `apply_move`.
-/
import Mathlib.Data.ZMod.Basic
import Mathlib.Dynamics.PeriodicPts.Lemmas
import Mathlib.GroupTheory.Perm.Cycle.Basic
import HeatherDb.Algebra

namespace HeatherDb

open Scalar

/-! ### Index maps -/

/-- A permutation of coordinates: its index map and the inverse. -/
structure Permutation where
  perm : List ℕ
  inv : List ℕ
  length_inv : inv.length = perm.length
  lt : ∀ p ∈ perm, p < perm.length
  inv_perm : ∀ i < perm.length, inv.getD (perm.getD i 0) 0 = i

/-- The index map of a permutation. -/
def indices {d : ℕ} (τ : Equiv.Perm (Fin d)) : List ℕ := (List.finRange d).map fun i => (τ i : ℕ)

section Indices

variable {d : ℕ} (σ τ : Equiv.Perm (Fin d))

@[simp] theorem length_indices : (indices τ).length = d := by
  rw [indices, List.length_map, List.length_finRange]

@[simp] theorem getD_indices (i : Fin d) : (indices τ).getD i 0 = τ i := by
  rw [List.getD_eq_getElem _ _ (by simp)]
  simp [indices]

theorem indices_one : indices (1 : Equiv.Perm (Fin d)) = List.range d := by
  simp [indices]

/-- Reading one index map through another. -/
theorem map_indices : (indices τ).map (fun i => (indices σ).getD i 0) = indices (σ * τ) := by
  show (List.map (fun i => (τ i : ℕ)) (List.finRange d)).map _ = _
  rw [List.map_map]
  refine List.map_congr_left fun i _ => ?_
  rw [Function.comp_apply, getD_indices, Equiv.Perm.mul_apply]

theorem eq_indices {l : List ℕ} (hlength : l.length = d) (h : ∀ i : Fin d, l.getD i 0 = τ i) : l = indices τ := by
  refine List.ext_getElem (by rw [hlength, length_indices]) fun i hi hi' => ?_
  have hentry := h ⟨i, hlength ▸ hi⟩
  rw [← getD_indices, List.getD_eq_getElem _ _ hi, List.getD_eq_getElem _ _ hi'] at hentry
  exact hentry

end Indices

namespace Permutation

variable (ρ : Permutation)

/-- The dimension. -/
def dim : ℕ := ρ.perm.length

/-- The permutation that is stored. -/
noncomputable def toPerm : Equiv.Perm (Fin ρ.dim) :=
  Equiv.ofBijective (fun i => ⟨ρ.perm.get i, ρ.lt _ (List.get_mem _ i)⟩) (Finite.injective_iff_bijective.mp (by
    intro i j h
    have hi := ρ.inv_perm i i.isLt
    have hj := ρ.inv_perm j j.isLt
    rw [List.getD_eq_getElem _ _ i.isLt] at hi
    rw [List.getD_eq_getElem _ _ j.isLt] at hj
    have hentry : ρ.perm.get i = ρ.perm.get j := Fin.mk.inj h
    exact Fin.ext (hi.symm.trans ((congrArg (ρ.inv.getD · 0) hentry).trans hj))))

theorem perm_eq : ρ.perm = indices ρ.toPerm :=
  eq_indices _ rfl fun i => List.getD_eq_getElem _ _ i.isLt

theorem inv_eq : ρ.inv = indices ρ.toPerm⁻¹ := by
  refine eq_indices _ ρ.length_inv fun j => ?_
  have hj := ρ.inv_perm (ρ.toPerm⁻¹ j) (ρ.toPerm⁻¹ j).isLt
  have hperm : ρ.perm.getD (ρ.toPerm⁻¹ j) 0 = ρ.toPerm (ρ.toPerm⁻¹ j) :=
    (congrArg (fun l : List ℕ => l.getD (ρ.toPerm⁻¹ j) 0) ρ.perm_eq).trans (getD_indices _ _)
  have hback : ρ.toPerm (ρ.toPerm⁻¹ j) = j := ρ.toPerm.apply_symm_apply j
  rwa [hperm, hback] at hj

/-! ### Building one -/

/-- One index of the map entered: it was not seen before and is in range. -/
def enter (d : ℕ) (st : List Bool × List ℕ) (e : ℕ × ℕ) : Except AlgebraError (List Bool × List ℕ) :=
  let p := e.1
  let i := e.2
  if d ≤ p ∨ st.1.getD p false = true then
    .error (.operation s!"invalid scalar: not a valid permutation of 0..{d}: bad index {p} at position {i}")
  else .ok (st.1.set p true, st.2.set p i)

/-- The inverse of an index map. -/
def invert (perm : List ℕ) : Except AlgebraError (List ℕ) := do
  let d := perm.length
  let st ← perm.zipIdx.foldlM (enter d) (List.replicate d false, List.replicate d 0)
  pure st.2

/-- These indices have been entered. -/
structure Entered (d : ℕ) (done : List ℕ) (st : List Bool × List ℕ) : Prop where
  length_seen : st.1.length = d
  length_inv : st.2.length = d
  nodup : done.Nodup
  lt : ∀ p ∈ done, p < d
  seen : ∀ p < d, st.1.getD p false = true ↔ p ∈ done
  inverse : ∀ i < done.length, st.2.getD (done.getD i 0) 0 = i

theorem getD_set {α : Type} (l : List α) (i j : ℕ) (x a : α) (hi : i < l.length) :
    (l.set i x).getD j a = if i = j then x else l.getD j a := by
  by_cases hij : i = j
  · subst hij
    rw [if_pos rfl, List.getD_eq_getElem _ _ (by simpa using hi), List.getElem_set_self]
  · rw [if_neg hij, List.getD_eq_getElem?_getD, List.getElem?_set_ne hij, ← List.getD_eq_getElem?_getD]

/-- An index is entered exactly if it is new and in range. -/
theorem Entered.enter {d : ℕ} {done : List ℕ} {st : List Bool × List ℕ} (h : Entered d done st) (p : ℕ) :
    (p < d ∧ p ∉ done → ∃ st', enter d st (p, done.length) = .ok st' ∧ Entered d (done ++ [p]) st') ∧
    (¬(p < d ∧ p ∉ done) → ∃ e, Permutation.enter d st (p, done.length) = .error e) := by
  unfold Permutation.enter
  dsimp only
  constructor
  · rintro ⟨hp, hnew⟩
    have hseen : ¬st.1.getD p false = true := mt (h.seen p hp).mp hnew
    refine ⟨_, if_neg (not_or.mpr ⟨not_le.mpr hp, hseen⟩), ?_⟩
    constructor
    · rw [List.length_set, h.length_seen]
    · rw [List.length_set, h.length_inv]
    · exact List.nodup_append.mpr ⟨h.nodup, List.nodup_singleton p, fun a ha b hb hab =>
        hnew (List.mem_singleton.mp hb ▸ hab ▸ ha)⟩
    · intro q hq
      rcases List.mem_append.mp hq with hq | hq
      · exact h.lt q hq
      · exact List.mem_singleton.mp hq ▸ hp
    · intro q hq
      rw [getD_set _ _ _ _ _ (h.length_seen ▸ hp), List.mem_append, List.mem_singleton, ← h.seen q hq]
      by_cases hpq : p = q
      · simp [hpq]
      · simp [hpq, Ne.symm hpq]
    · intro i hi
      rw [getD_set _ _ _ _ _ (h.length_inv ▸ hp)]
      rw [List.length_append, List.length_singleton] at hi
      rcases Nat.lt_succ_iff_lt_or_eq.mp hi with hi | rfl
      · have hmem : done.getD i 0 ∈ done := by
          rw [List.getD_eq_getElem _ _ hi]
          exact List.getElem_mem hi
        rw [List.getD_append _ _ _ _ hi, if_neg fun hp : p = _ => hnew (hp ▸ hmem), h.inverse i hi]
      · rw [List.getD_append_right _ _ _ _ le_rfl, Nat.sub_self]
        exact if_pos rfl
  · intro hold
    refine ⟨_, if_pos ?_⟩
    by_contra hgood
    obtain ⟨hlt, hseen⟩ := not_or.mp hgood
    exact hold ⟨not_le.mp hlt, mt (h.seen p (not_le.mp hlt)).mpr hseen⟩

/-- A run enters all indices or refuses one that repeats or is out of range. -/
theorem Entered.run {d : ℕ} (rest : List ℕ) : ∀ {done : List ℕ} {st : List Bool × List ℕ}, Entered d done st →
    ((done ++ rest).Nodup ∧ (∀ p ∈ rest, p < d) →
      ∃ st', (rest.zipIdx done.length).foldlM (Permutation.enter d) st = .ok st' ∧ Entered d (done ++ rest) st') ∧
    (¬((done ++ rest).Nodup ∧ ∀ p ∈ rest, p < d) →
      ∃ e, (rest.zipIdx done.length).foldlM (Permutation.enter d) st = .error e) := by
  induction rest with
  | nil =>
    intro done st h
    rw [List.append_nil]
    exact ⟨fun _ => ⟨st, rfl, h⟩, fun hnot => absurd ⟨h.nodup, nofun⟩ hnot⟩
  | cons p rest ih =>
    intro done st h
    have happend : done ++ p :: rest = (done ++ [p]) ++ rest := by simp
    have hlength : (done ++ [p]).length = done.length + 1 := by simp
    rw [happend, List.zipIdx_cons, List.foldlM_cons]
    by_cases hp : p < d ∧ p ∉ done
    · obtain ⟨st', hst', h'⟩ := (h.enter p).1 hp
      obtain ⟨hgood, hbad⟩ := ih h'
      rw [hlength] at hgood hbad
      rw [hst']
      exact ⟨fun hall => hgood ⟨hall.1, fun q hq => hall.2 q (List.mem_cons_of_mem p hq)⟩, fun hnot =>
        hbad fun hall => hnot ⟨hall.1, List.forall_mem_cons.mpr ⟨hp.1, hall.2⟩⟩⟩
    · obtain ⟨e, he⟩ := (h.enter p).2 hp
      rw [he]
      refine ⟨fun hall => absurd ⟨hall.2 p List.mem_cons_self, fun hin => ?_⟩ hp, fun _ => ⟨e, rfl⟩⟩
      have hdone := (List.nodup_append.mp hall.1).1
      exact (List.nodup_append.mp hdone).2.2 p hin p (List.mem_singleton_self p) rfl

theorem entered_nil (d : ℕ) : Entered d [] (List.replicate d false, List.replicate d 0) where
  length_seen := List.length_replicate
  length_inv := List.length_replicate
  nodup := List.nodup_nil
  lt := nofun
  seen p hp := by
    rw [List.getD_eq_getElem _ _ (by simpa using hp)]
    simp
  inverse := nofun

/-- The inverse is found exactly of a list that holds every index once. -/
theorem invert_cases (perm : List ℕ) :
    (perm.Perm (List.range perm.length) ∧ ∃ inv, invert perm = .ok inv ∧ inv.length = perm.length ∧
        ∀ i < perm.length, inv.getD (perm.getD i 0) 0 = i) ∨
      ¬perm.Perm (List.range perm.length) ∧ ∃ e, invert perm = .error e := by
  obtain ⟨hgood, hbad⟩ := (entered_nil perm.length).run perm
  have hperm : perm.Perm (List.range perm.length) ↔ ([] ++ perm).Nodup ∧ ∀ p ∈ perm, p < perm.length := by
    constructor
    · intro h
      exact ⟨h.nodup_iff.mpr List.nodup_range, fun p hp => List.mem_range.mp (h.subset hp)⟩
    · rintro ⟨hnodup, hlt⟩
      refine (List.subperm_of_subset hnodup fun p hp => List.mem_range.mpr (hlt p hp)).perm_of_length_le ?_
      rw [List.length_range]
      exact le_rfl
  rw [hperm]
  unfold invert
  dsimp only
  by_cases hall : ([] ++ perm).Nodup ∧ ∀ p ∈ perm, p < perm.length
  · obtain ⟨st, hst, hentered⟩ := hgood hall
    have hst : perm.zipIdx.foldlM (enter perm.length) _ = .ok st := hst
    rw [hst]
    exact .inl ⟨hall, st.2, rfl, hentered.length_inv, hentered.inverse⟩
  · obtain ⟨e, he⟩ := hbad hall
    have he : perm.zipIdx.foldlM (enter perm.length) _ = .error e := he
    rw [he]
    exact .inr ⟨hall, e, rfl⟩

theorem invert_ok {perm inv : List ℕ} (h : invert perm = .ok inv) :
    inv.length = perm.length ∧ (∀ p ∈ perm, p < perm.length) ∧ ∀ i < perm.length, inv.getD (perm.getD i 0) 0 = i := by
  rcases invert_cases perm with ⟨hperm, inv', hinv, hlength, hinverse⟩ | ⟨-, e, he⟩
  · rw [h] at hinv
    obtain rfl := Except.ok.inj hinv
    exact ⟨hlength, fun p hp => List.mem_range.mp (hperm.subset hp), hinverse⟩
  · rw [h] at he
    cases he

/-- `Permutation::from_indices` -/
def fromIndices (perm : List ℕ) : Except AlgebraError Permutation :=
  match h : invert perm with
  | .error e => .error e
  | .ok inv =>
    .ok { perm, inv, length_inv := (invert_ok h).1, lt := (invert_ok h).2.1, inv_perm := (invert_ok h).2.2 }

/-- **An index map is accepted** exactly if it holds every index once. -/
theorem fromIndices_iff (perm : List ℕ) :
    (∃ ρ, fromIndices perm = .ok ρ ∧ ρ.perm = perm) ↔ perm.Perm (List.range perm.length) := by
  unfold fromIndices
  rcases invert_cases perm with ⟨hperm, inv, hinv, -⟩ | ⟨hperm, e, he⟩
  · refine iff_of_true ?_ hperm
    split
    · rename_i hfailed
      rw [hinv] at hfailed
      cases hfailed
    · exact ⟨_, rfl, rfl⟩
  · refine iff_of_false ?_ hperm
    rintro ⟨ρ, hρ, -⟩
    split at hρ
    · cases hρ
    · rename_i hinv
      rw [he] at hinv
      cases hinv

end Permutation

/-! ### Powers -/

variable {F : Type} [Scalar F]

/-- Gather `v` through an index map. -/
def gather (v : List F) (map : List ℕ) : List F := map.map fun i => v.getD i (lit 0)

/-- `n` rounds of composing the step with what the first buffer holds, into the
second, and swapping them. -/
def powLoop (step : List ℕ) : ℕ → List ℕ × List ℕ → List ℕ × List ℕ
  | 0, buffers => buffers
  | n + 1, (cur, next) =>
    let next := List.zipWith (fun _ i => step.getD i 0) next cur ++ next.drop cur.length
    powLoop step n (next, cur)

namespace Permutation

variable (ρ : Permutation)

def checkDim (len : ℕ) : Except AlgebraError Unit :=
  if len ≠ ρ.dim then .error (dimensionsDiffer ρ.dim len) else .ok ()

/-- `ρ` applied. -/
def apply (v : List F) : Except AlgebraError (List F) := do
  ρ.checkDim v.length
  pure (gather v ρ.perm)

/-- The inverse of `ρ` applied. -/
def applyInv (v : List F) : Except AlgebraError (List F) := do
  ρ.checkDim v.length
  pure (gather v ρ.inv)

/-- The index map of a power. -/
def powIndices (k : ℤ) : List ℕ :=
  match k with
  | 0 => List.range ρ.dim
  | 1 => ρ.perm
  | -1 => ρ.inv
  | _ =>
    let step := if 0 < k then ρ.perm else ρ.inv
    (powLoop step (k.natAbs - 1) (step, List.replicate ρ.dim 0)).1

/-- A power applied. -/
def applyPow (v : List F) (k : ℤ) : Except AlgebraError (List F) := do
  ρ.checkDim v.length
  match k with
  | 0 => pure v
  | 1 => pure (gather v ρ.perm)
  | -1 => pure (gather v ρ.inv)
  | _ => pure (gather v (ρ.powIndices k))

end Permutation

theorem powLoop_eq {d : ℕ} (σ : Equiv.Perm (Fin d)) (n : ℕ) : ∀ (τ : Equiv.Perm (Fin d)) (next : List ℕ),
    next.length = d → (powLoop (indices σ) n (indices τ, next)).1 = indices (σ ^ n * τ) := by
  induction n with
  | zero =>
    intro τ next _
    rw [powLoop, pow_zero, one_mul]
  | succ n ih =>
    intro τ next hnext
    have hround : List.zipWith (fun _ i => (indices σ).getD i 0) next (indices τ) ++ next.drop (indices τ).length =
        indices (σ * τ) := by
      rw [List.drop_eq_nil_of_le (by rw [hnext, length_indices]), List.append_nil, ← map_indices]
      exact List.ext_getElem (by simp [hnext]) fun i hi hi' => by simp
    rw [powLoop, hround, ih (σ * τ) _ (length_indices τ), pow_succ, mul_assoc]

namespace Permutation

variable (ρ : Permutation)

/-- **The index map of a power** is that of the power. -/
theorem powIndices_eq (k : ℤ) : ρ.powIndices k = indices (ρ.toPerm ^ k) := by
  unfold powIndices
  split
  · rw [zpow_zero, indices_one]
  · rw [zpow_one, ρ.perm_eq]
  · rw [zpow_neg_one, ρ.inv_eq]
  · rename_i h0 h1 hm1
    have hpow : ∀ σ : Equiv.Perm (Fin ρ.dim),
        (powLoop (indices σ) (k.natAbs - 1) (indices σ, List.replicate ρ.dim 0)).1 = indices (σ ^ k.natAbs) := by
      intro σ
      have hsucc : k.natAbs - 1 + 1 = k.natAbs := Nat.sub_add_cancel (Int.natAbs_pos.mpr h0)
      rw [powLoop_eq σ _ σ _ List.length_replicate, ← pow_succ, hsucc]
    dsimp only
    split_ifs with hsign
    · rw [ρ.perm_eq, hpow, ← zpow_natCast, Int.natCast_natAbs, abs_of_pos hsign]
    · rw [ρ.inv_eq, hpow, inv_pow, ← zpow_natCast, Int.natCast_natAbs, abs_of_nonpos (not_lt.mp hsign),
        zpow_neg, inv_inv]

@[simp] theorem length_powIndices (k : ℤ) : (ρ.powIndices k).length = ρ.dim := by
  rw [powIndices_eq, length_indices]

omit [Scalar F] in
@[simp] theorem length_gather [Scalar F] (v : List F) (map : List ℕ) : (gather v map).length = map.length :=
  List.length_map _

/-- A power applied to every location of a snapshot. -/
def permuteSnapshot (snap : EAMSnapshot F) (k : ℤ) : Except AlgebraError (EAMSnapshot F) :=
  if snap.dim ≠ ρ.dim then .error (dimensionsDiffer snap.dim ρ.dim)
  else
    let map := ρ.powIndices k
    .ok { snap with
      locations := snap.locations.map fun loc =>
        { loc with counter := gather loc.counter map, address := gather loc.address map } }

theorem checkDim_ok {len : ℕ} (h : len = ρ.dim) : ρ.checkDim len = .ok () := if_neg (not_not.mpr h)

theorem checkDim_error {len : ℕ} (h : len ≠ ρ.dim) : ρ.checkDim len = .error (dimensionsDiffer ρ.dim len) := if_pos h

theorem gather_indices {d : ℕ} (v : List F) (τ : Equiv.Perm (Fin d)) :
    gather v (indices τ) = (List.finRange d).map fun i => v.getD (τ i) (lit 0) := by
  rw [gather, indices, List.map_map]
  rfl

theorem getD_gather {d : ℕ} (v : List F) (τ : Equiv.Perm (Fin d)) (i : Fin d) :
    (gather v (indices τ)).getD i (lit 0) = v.getD (τ i) (lit 0) := by
  rw [List.getD_eq_getElem _ _ (by simp)]
  simp [gather_indices]

theorem gather_gather {d : ℕ} (v : List F) (σ τ : Equiv.Perm (Fin d)) :
    gather (gather v (indices σ)) (indices τ) = gather v (indices (σ * τ)) := by
  rw [gather_indices _ τ, gather_indices _ (σ * τ)]
  exact List.map_congr_left fun i _ => getD_gather v σ (τ i)

theorem gather_one {d : ℕ} {v : List F} (hv : v.length = d) : gather v (indices (1 : Equiv.Perm (Fin d))) = v := by
  refine List.ext_getElem (by simp [hv]) fun i hi hi' => ?_
  rw [← List.getD_eq_getElem _ (lit 0) hi, ← List.getD_eq_getElem _ (lit 0) hi']
  exact getD_gather v 1 ⟨i, hv ▸ hi'⟩

/-- Applying a power gathers through its index map, also in the short cuts. -/
theorem applyPow_eq {v : List F} (hv : v.length = ρ.dim) (k : ℤ) :
    ρ.applyPow v k = .ok (gather v (indices (ρ.toPerm ^ k))) := by
  rw [← powIndices_eq]
  unfold applyPow
  rw [checkDim_ok ρ hv]
  show (match k with | 0 => pure v | 1 => _ | -1 => _ | _ => _ : Except AlgebraError (List F)) = _
  split
  · rw [powIndices_eq, zpow_zero, gather_one hv]
    rfl
  · rfl
  · rfl
  · rfl

theorem applyPow_error {v : List F} (hv : v.length ≠ ρ.dim) (k : ℤ) :
    ρ.applyPow v k = .error (dimensionsDiffer ρ.dim v.length) := by
  unfold applyPow
  rw [checkDim_error ρ hv]
  rfl

/-- **Powers act**: one after the other is the power of the sum. -/
theorem applyPow_bind (v : List F) (j k : ℤ) : (do ρ.applyPow (← ρ.applyPow v k) j) = ρ.applyPow v (j + k) := by
  by_cases hv : v.length = ρ.dim
  · rw [applyPow_eq ρ hv, applyPow_eq ρ hv]
    show ρ.applyPow (gather v _) j = _
    rw [applyPow_eq ρ (by simp), gather_gather, ← zpow_add, add_comm]
  · rw [applyPow_error ρ hv, applyPow_error ρ hv]
    rfl

theorem applyPow_neg {v : List F} (hv : v.length = ρ.dim) (k : ℤ) :
    (do ρ.applyPow (← ρ.applyPow v k) (-k)) = .ok v := by
  rw [applyPow_bind, neg_add_cancel, applyPow_eq ρ hv, zpow_zero, gather_one hv]

/-- **A snapshot permuted** is its locations permuted, address and counter. -/
theorem permuteSnapshot_eq (snap : EAMSnapshot F) (k : ℤ) (hdim : snap.dim = ρ.dim) :
    ∃ out, ρ.permuteSnapshot snap k = .ok out ∧ out.config = snap.config ∧
      List.Forall₂ (fun loc loc' =>
        (loc.counter.length = snap.dim → ρ.applyPow loc.counter k = .ok loc'.counter) ∧
        (loc.address.length = snap.dim → ρ.applyPow loc.address k = .ok loc'.address) ∧
        loc' = { loc with counter := loc'.counter, address := loc'.address }) snap.locations out.locations := by
  refine ⟨_, if_neg (not_not.mpr hdim), rfl, List.forall₂_map_right_iff.mpr (List.forall₂_same.mpr fun loc _ => ?_)⟩
  rw [powIndices_eq]
  exact ⟨fun h => applyPow_eq ρ (h.trans hdim) k, fun h => applyPow_eq ρ (h.trans hdim) k, rfl⟩

/-! ### Cycles -/

/-- Where a coordinate is after `n` moves. -/
noncomputable def orbit (start : Fin ρ.dim) (n : ℤ) : Fin ρ.dim := (ρ.toPerm⁻¹ ^ n) start

/-- After how many moves a coordinate is back. -/
noncomputable def period (start : Fin ρ.dim) : ℕ := Function.minimalPeriod (⇑(ρ.toPerm⁻¹)) start

variable {ρ} {start : Fin ρ.dim}

theorem orbit_zero : ρ.orbit start 0 = start := by rw [orbit, zpow_zero, Equiv.Perm.one_apply]

theorem orbit_add_one (n : ℤ) : ρ.orbit start (n + 1) = ρ.toPerm⁻¹ (ρ.orbit start n) := by
  rw [orbit, add_comm, zpow_add, zpow_one, Equiv.Perm.mul_apply, orbit]

/-- A power of the permutation goes back along the orbit. -/
theorem zpow_orbit (k n : ℤ) : (ρ.toPerm ^ k) (ρ.orbit start n) = ρ.orbit start (n - k) := by
  rw [orbit, orbit, ← Equiv.Perm.mul_apply, inv_zpow', inv_zpow', ← zpow_add]
  congr 2
  ring

theorem orbit_natCast (n : ℕ) : ρ.orbit start n = (⇑(ρ.toPerm⁻¹))^[n] start := by
  rw [orbit, zpow_natCast, Equiv.Perm.iterate_eq_pow]

theorem period_pos : 0 < ρ.period start :=
  Function.minimalPeriod_pos_of_mem_periodicPts (ρ.toPerm⁻¹.injective.mem_periodicPts start)

theorem period_le : ρ.period start ≤ ρ.dim := by
  have hcard := Function.minimalPeriod_le_card (f := ⇑(ρ.toPerm⁻¹)) (x := start)
  rwa [Fintype.card_fin] at hcard

theorem orbit_eq_start_iff (n : ℕ) : ρ.orbit start n = start ↔ ρ.period start ∣ n := by
  rw [orbit_natCast]
  exact Function.isPeriodicPt_iff_minimalPeriod_dvd

/-- Only how far the moves go around counts. -/
theorem orbit_congr {m n : ℤ} (h : (m : ZMod (ρ.period start)) = n) : ρ.orbit start m = ρ.orbit start n := by
  obtain ⟨q, hq⟩ := (ZMod.intCast_eq_intCast_iff_dvd_sub m n _).mp h
  have hback : (ρ.toPerm⁻¹ ^ (ρ.period start : ℤ)) start = start := (orbit_eq_start_iff _).mpr dvd_rfl
  have hn : n = m + ρ.period start * q := by rw [← hq]; ring
  rw [hn, orbit, orbit, zpow_add, Equiv.Perm.mul_apply, zpow_mul,
    Equiv.Perm.zpow_apply_eq_self_of_apply_eq_self hback]

end Permutation

/-- From `cur` along the inverse map until `start` comes next; `none` if it
does not within this many steps. -/
def follow (inv : List ℕ) (start : ℕ) : ℕ → ℕ → Option (List ℕ)
  | 0, _ => none
  | fuel + 1, cur =>
    let next := inv.getD cur 0
    if next = start then some [cur] else (follow inv start fuel next).map (cur :: ·)

namespace Permutation

variable {ρ : Permutation} {start : Fin ρ.dim}

theorem follow_orbit (fuel : ℕ) : ∀ m : ℕ, m < ρ.period start → ρ.period start - m ≤ fuel →
    follow ρ.inv start fuel (ρ.orbit start m) =
      some ((List.range' m (ρ.period start - m)).map fun n : ℕ => (ρ.orbit start n : ℕ)) := by
  induction fuel with
  | zero =>
    intro m hm hfuel
    omega
  | succ fuel ih =>
    intro m hm hfuel
    have hnext : ρ.inv.getD (ρ.orbit start m) 0 = ρ.orbit start (m + 1 : ℕ) := by
      rw [Nat.cast_succ, orbit_add_one, ρ.inv_eq, getD_indices]
    have hsplit : ρ.period start - m = ρ.period start - (m + 1) + 1 := by omega
    rw [follow, hnext, hsplit, List.range'_succ, List.map_cons]
    by_cases hback : (ρ.orbit start (m + 1 : ℕ) : ℕ) = start
    · have hdvd := (orbit_eq_start_iff (m + 1)).mp (Fin.ext hback)
      have hlast : ρ.period start - (m + 1) = 0 := by
        have hle := Nat.le_of_dvd (Nat.succ_pos m) hdvd
        omega
      rw [if_pos hback, hlast]
      rfl
    · have hmore : m + 1 < ρ.period start := by
        refine lt_of_le_of_ne hm fun heq => hback (congrArg Fin.val ((orbit_eq_start_iff (m + 1)).mpr ?_))
        rw [heq]
      rw [if_neg hback, ih (m + 1) hmore (by omega), Option.map_some]

/-- **The loop comes back** within as many steps as there are coordinates. -/
theorem follow_start (ρ : Permutation) (start : Fin ρ.dim) : follow ρ.inv start ρ.dim start =
    some ((List.range (ρ.period start)).map fun n : ℕ => (ρ.orbit start n : ℕ)) := by
  have hrun : follow ρ.inv start ρ.dim (ρ.orbit start (0 : ℕ)) = _ := follow_orbit ρ.dim 0 period_pos period_le
  rwa [Nat.cast_zero, orbit_zero, Nat.sub_zero, ← List.range_eq_range'] at hrun

/-- The cycle that starts at a coordinate, in move order. -/
def cycleFrom (ρ : Permutation) (start : Fin ρ.dim) : List ℕ :=
  (follow ρ.inv start ρ.dim start).get (by rw [follow_start]; rfl)

/-- One start of the loop over all: its cycle, unless it was visited. A cycle is
marked when it is complete: the inner loop does not read the marks. -/
def visit (ρ : Permutation) (st : List Bool × List (List ℕ)) (start : Fin ρ.dim) : List Bool × List (List ℕ) :=
  if st.1.getD start false = true then st
  else
    let cyc := ρ.cycleFrom start
    (cyc.foldl (fun visited i => visited.set i true) st.1, st.2 ++ [cyc])

/-- The disjoint cycles. -/
def cycles (ρ : Permutation) : List (List ℕ) :=
  ((List.finRange ρ.dim).foldl ρ.visit (List.replicate ρ.dim false, [])).2

theorem cycleFrom_eq (start : Fin ρ.dim) :
    ρ.cycleFrom start = (List.range (ρ.period start)).map fun n : ℕ => (ρ.orbit start n : ℕ) :=
  Option.get_of_eq_some _ (follow_start ρ start)

@[simp] theorem length_cycleFrom (start : Fin ρ.dim) : (ρ.cycleFrom start).length = ρ.period start := by
  rw [cycleFrom_eq, List.length_map, List.length_range]

theorem getD_cycleFrom {n : ℕ} (hn : n < ρ.period start) : (ρ.cycleFrom start).getD n 0 = ρ.orbit start n := by
  rw [List.getD_eq_getElem _ _ (by rwa [length_cycleFrom])]
  simp [cycleFrom_eq]

theorem nodup_cycleFrom (start : Fin ρ.dim) : (ρ.cycleFrom start).Nodup := by
  rw [cycleFrom_eq]
  refine List.Nodup.map_on (fun m hm n hn h => ?_) List.nodup_range
  rw [Fin.val_inj, orbit_natCast, orbit_natCast] at h
  exact Function.iterate_injOn_Iio_minimalPeriod (List.mem_range.mp hm) (List.mem_range.mp hn) h

/-- A cycle holds the coordinates of an orbit. -/
theorem mem_cycleFrom {i : Fin ρ.dim} : (i : ℕ) ∈ ρ.cycleFrom start ↔ ρ.toPerm.SameCycle start i := by
  rw [cycleFrom_eq, List.mem_map]
  constructor
  · rintro ⟨n, -, hn⟩
    exact Equiv.Perm.sameCycle_inv.mp ⟨n, Fin.ext hn⟩
  · intro h
    obtain ⟨n, hn⟩ := Equiv.Perm.sameCycle_inv.mpr h
    have : NeZero (ρ.period start) := ⟨period_pos.ne'⟩
    refine ⟨(n : ZMod (ρ.period start)).val, List.mem_range.mpr (ZMod.val_lt _), congrArg Fin.val ?_⟩
    rw [orbit_congr (n := n) (by rw [Int.cast_natCast, ZMod.natCast_zmod_val])]
    exact hn

theorem lt_of_mem_cycleFrom {i : ℕ} (h : i ∈ ρ.cycleFrom start) : i < ρ.dim := by
  rw [cycleFrom_eq] at h
  obtain ⟨n, -, rfl⟩ := List.mem_map.mp h
  exact Fin.isLt _

/-- What the loop over the starts has marked and collected. -/
structure Traced (ρ : Permutation) (starts : List (Fin ρ.dim)) (st : List Bool × List (List ℕ)) : Prop where
  length : st.1.length = ρ.dim
  visited : ∀ i : Fin ρ.dim, st.1.getD i false = true ↔ (i : ℕ) ∈ st.2.flatten
  nodup : st.2.flatten.Nodup
  cycle : ∀ cyc ∈ st.2, ∃ start, cyc = ρ.cycleFrom start
  covered : ∀ i ∈ starts, (i : ℕ) ∈ st.2.flatten

theorem getD_mark (cyc : List ℕ) : ∀ (visited : List Bool) (i : ℕ), i < visited.length →
    ((cyc.foldl (fun visited i => visited.set i true) visited).length = visited.length ∧
      ((cyc.foldl (fun visited i => visited.set i true) visited).getD i false = true ↔
        visited.getD i false = true ∨ i ∈ cyc)) := by
  induction cyc with
  | nil => simp
  | cons j cyc ih =>
    intro visited i hi
    obtain ⟨hlength, hmarked⟩ := ih (visited.set j true) i (by rwa [List.length_set])
    rw [List.foldl_cons, hlength, hmarked, List.length_set, List.mem_cons]
    refine ⟨rfl, ?_⟩
    by_cases hij : j = i
    · subst hij
      rw [getD_set _ _ _ _ _ hi, if_pos rfl]
      simp
    · rw [List.getD_eq_getElem?_getD, List.getElem?_set_ne hij, ← List.getD_eq_getElem?_getD]
      simp [Ne.symm hij]

/-- One more start: it was visited, or its cycle is new. -/
theorem Traced.step {starts : List (Fin ρ.dim)} {st : List Bool × List (List ℕ)} (h : Traced ρ starts st)
    (start : Fin ρ.dim) : Traced ρ (starts ++ [start]) (ρ.visit st start) := by
  unfold visit
  dsimp only
  split_ifs with hvisited
  · refine { h with covered := fun i hi => ?_ }
    rcases List.mem_append.mp hi with hi | hi
    · exact h.covered i hi
    · exact List.mem_singleton.mp hi ▸ (h.visited start).mp hvisited
  · have hflatten : (st.2 ++ [ρ.cycleFrom start]).flatten = st.2.flatten ++ ρ.cycleFrom start := by simp
    have hmark := fun i : Fin ρ.dim => getD_mark (ρ.cycleFrom start) st.1 i (h.length.symm ▸ i.isLt)
    constructor
    · exact (hmark start).1.trans h.length
    · intro i
      rw [(hmark i).2, h.visited i, hflatten, List.mem_append]
    · rw [hflatten]
      refine List.nodup_append.mpr ⟨h.nodup, nodup_cycleFrom start, fun x hx y hy hxy => ?_⟩
      subst hxy
      -- a coordinate on an earlier cycle puts the start on it too
      obtain ⟨cyc, hcyc, hx⟩ := List.mem_flatten.mp hx
      obtain ⟨start', rfl⟩ := h.cycle cyc hcyc
      have hlt := lt_of_mem_cycleFrom hy
      have hsame := (mem_cycleFrom (i := ⟨x, hlt⟩)).mp hx
      have hsame' := (mem_cycleFrom (i := ⟨x, hlt⟩)).mp hy
      exact hvisited ((h.visited start).mpr
        (List.mem_flatten.mpr ⟨_, hcyc, mem_cycleFrom.mpr (hsame.trans hsame'.symm)⟩))
    · intro cyc hcyc
      rcases List.mem_append.mp hcyc with hcyc | hcyc
      · exact h.cycle cyc hcyc
      · exact ⟨start, List.mem_singleton.mp hcyc⟩
    · intro i hi
      rw [hflatten, List.mem_append]
      rcases List.mem_append.mp hi with hi | hi
      · exact .inl (h.covered i hi)
      · exact .inr (List.mem_singleton.mp hi ▸ mem_cycleFrom.mpr (.refl _ _))

theorem Traced.run {rest : List (Fin ρ.dim)} : ∀ {starts : List (Fin ρ.dim)} {st : List Bool × List (List ℕ)},
    Traced ρ starts st → Traced ρ (starts ++ rest) (rest.foldl ρ.visit st) := by
  induction rest with
  | nil =>
    intro starts st h
    rwa [List.append_nil]
  | cons start rest ih =>
    intro starts st h
    have hnext := ih (h.step start)
    rwa [List.append_assoc, List.singleton_append] at hnext

theorem traced_cycles (ρ : Permutation) : ∃ visited, Traced ρ (List.finRange ρ.dim) (visited, ρ.cycles) := by
  have hnone : Traced ρ [] (List.replicate ρ.dim false, []) :=
    { length := List.length_replicate
      visited := fun i => by
        rw [List.getD_eq_getElem _ _ (by simp)]
        simp
      nodup := List.nodup_nil
      cycle := nofun
      covered := nofun }
  exact ⟨_, hnone.run⟩

/-- **The cycles** are a partition of the coordinates. -/
theorem cycles_perm (ρ : Permutation) : ρ.cycles.flatten.Perm (List.range ρ.dim) := by
  obtain ⟨visited, h⟩ := traced_cycles ρ
  refine (List.perm_ext_iff_of_nodup h.nodup List.nodup_range).mpr fun i => ?_
  rw [List.mem_range]
  constructor
  · intro hi
    obtain ⟨cyc, hcyc, hi⟩ := List.mem_flatten.mp hi
    obtain ⟨start, rfl⟩ := h.cycle cyc hcyc
    exact lt_of_mem_cycleFrom hi
  · exact fun hi => h.covered ⟨i, hi⟩ (List.mem_finRange _)

theorem eq_cycleFrom {cyc : List ℕ} (h : cyc ∈ ρ.cycles) : ∃ start, cyc = ρ.cycleFrom start :=
  (traced_cycles ρ).choose_spec.cycle cyc h

/-- **In move order**: applied once, the value at an entry of a cycle lands at
the next. -/
theorem apply_move {v w : List F} (happly : ρ.apply v = .ok w) {cyc : List ℕ} (hcyc : cyc ∈ ρ.cycles) :
    cyc ≠ [] ∧ ∀ m < cyc.length, w.getD (cyc.getD ((m + 1) % cyc.length) 0) (lit 0) =
      v.getD (cyc.getD m 0) (lit 0) := by
  obtain ⟨start, rfl⟩ := eq_cycleFrom hcyc
  have hpos : 0 < ρ.period start := period_pos
  have hw : w = gather v (indices ρ.toPerm) := by
    unfold apply at happly
    by_cases hv : v.length = ρ.dim
    · rw [checkDim_ok ρ hv] at happly
      rw [← ρ.perm_eq]
      exact (Except.ok.inj happly).symm
    · rw [checkDim_error ρ hv] at happly
      cases happly
  refine ⟨List.ne_nil_of_length_pos (by rwa [length_cycleFrom]), fun m hm => ?_⟩
  rw [length_cycleFrom] at hm ⊢
  have hback : ρ.toPerm (ρ.orbit start ((m + 1) % ρ.period start : ℕ)) = ρ.orbit start m := by
    have hmove : (ρ.toPerm ^ (1 : ℤ)) (ρ.orbit start ((m + 1) % ρ.period start : ℕ)) = _ := zpow_orbit 1 _
    rw [zpow_one] at hmove
    refine hmove.trans (orbit_congr ?_)
    push_cast
    ring
  rw [getD_cycleFrom (Nat.mod_lt _ hpos), getD_cycleFrom hm, hw, getD_gather, hback]

end Permutation

end HeatherDb
