/-
# Memory algebra

`heather_algebra`: addition of memories. The sum of two memories has a location
for every pair of locations, or for every location of the first and its
`max_cross_k` nearest of the second: the sum of their stored patterns, written
once. Sums near zero are left out. The result is then consolidated by the
nearest-neighbour merge.

Key definitions: `pairwiseCombine`, `consolidate`, `addWithLimit`, `add`.
-/
import HeatherDb.Attention
import HeatherDb.Handlers

namespace HeatherDb

open Scalar

variable {F : Type} [Scalar F]

namespace EAMSnapshot

def dim (snap : EAMSnapshot F) : ℕ := snap.config.d

/-- Ids contiguous from 0. -/
def reindex (snap : EAMSnapshot F) : EAMSnapshot F :=
  { snap with locations := snap.locations.zipIdx.map fun p => { p.1 with id := p.2 } }

/-- Every counter has the dimension of the memory. -/
def CountersFit (snap : EAMSnapshot F) : Prop := ∀ loc ∈ snap.locations, loc.counter.length = snap.dim

end EAMSnapshot

/-- `AlgebraError::DimensionMismatch` -/
def dimensionsDiffer (left right : ℕ) : AlgebraError :=
  .operation s!"dimension mismatch: left has {left}, right has {right}"

/-- The stored pattern of every location. -/
def extractPatterns (snap : EAMSnapshot F) : List (List F) := snap.locations.map (·.normalizedPattern)

/-- The locations of `b` that location `i` of `a` is combined with: all, or the
`maxCrossK` of most similar address, of equally similar ones the first. -/
def crossPartners (a b : EAMSnapshot F) (maxCrossK i : ℕ) : List ℕ :=
  if maxCrossK = 0 ∨ b.locations.length ≤ maxCrossK then List.range b.locations.length
  else
    let sims := b.locations.zipIdx.map fun p =>
      (p.2, cosineSimilarity (locationAt a.locations i).address p.1.address)
    ((sortBy (fun x y => (partialCmp y.2 x.2).then (compare x.1 y.1)) sims).take maxCrossK).map (·.1)

/-- The patterns of a pair combined, `sign` applied to that of `b`. -/
def combined (a b : EAMSnapshot F) (sign : F) (i j : ℕ) : List F :=
  List.zipWith (fun x y => x + sign * y) ((extractPatterns a).getD i []) ((extractPatterns b).getD j [])

/-- A location for each pair, unless its patterns cancel. -/
def pairwiseCombine (a b : EAMSnapshot F) (sign : F) (maxCrossK : ℕ) : List (HardLocation F) :=
  let rows := (List.range a.locations.length).map fun i =>
    (crossPartners a b maxCrossK i).filterMap fun j =>
      if le (lit (1 / 10 ^ 10)) (l2Norm (combined a b sign i j)) then some (combined a b sign i j) else none
  rows.flatten.zipIdx.map fun p => freshLocation p.2 (normalize p.1) p.1

theorem length_normalizedPattern (loc : HardLocation F) : loc.normalizedPattern.length = loc.counter.length := by
  unfold HardLocation.normalizedPattern
  split_ifs <;> simp

theorem length_extractPatterns {snap : EAMSnapshot F} (h : snap.CountersFit) {i : ℕ} (hi : i < snap.locations.length) :
    ((extractPatterns snap).getD i []).length = snap.dim := by
  rw [extractPatterns, List.getD_eq_getElem _ _ (by simpa using hi), List.getElem_map, length_normalizedPattern]
  exact h _ (List.getElem_mem hi)

theorem mem_crossPartners {a b : EAMSnapshot F} {maxCrossK i j : ℕ} (h : j ∈ crossPartners a b maxCrossK i) :
    j < b.locations.length := by
  unfold crossPartners at h
  split_ifs at h
  · exact List.mem_range.mp h
  · obtain ⟨p, hp, rfl⟩ := List.mem_map.mp h
    obtain ⟨q, hq, rfl⟩ := List.mem_map.mp (mem_sortBy.mp (List.mem_of_mem_take hp))
    exact List.snd_lt_of_mem_zipIdx hq

theorem length_combined {a b : EAMSnapshot F} (hdim : a.dim = b.dim) (ha : a.CountersFit) (hb : b.CountersFit) (sign : F)
    {i j : ℕ} (hi : i < a.locations.length) (hj : j < b.locations.length) :
    (combined a b sign i j).length = a.dim := by
  rw [combined, List.length_zipWith, length_extractPatterns ha hi, length_extractPatterns hb hj, hdim, Nat.min_self]

theorem shaped_pairwiseCombine {a b : EAMSnapshot F} (hdim : a.dim = b.dim) (ha : a.CountersFit) (hb : b.CountersFit)
    (sign : F) (maxCrossK : ℕ) : Shaped a.dim (pairwiseCombine a b sign maxCrossK) := by
  intro loc hloc
  obtain ⟨⟨v, id⟩, hp, rfl⟩ := List.mem_map.mp hloc
  obtain ⟨row, hrow, hv⟩ := List.mem_flatten.mp (List.fst_mem_of_mem_zipIdx hp)
  obtain ⟨i, hi, rfl⟩ := List.mem_map.mp hrow
  obtain ⟨j, hj, hsome⟩ := List.mem_filterMap.mp hv
  split_ifs at hsome
  have hv : combined a b sign i j = v := Option.some.inj hsome
  have hlength : v.length = a.dim :=
    hv ▸ length_combined hdim ha hb sign (List.mem_range.mp hi) (mem_crossPartners hj)
  exact ⟨(length_normalize v).trans hlength, hlength⟩

variable [SeededUniform F]

/-- Similar locations merged, then ids contiguous. -/
def consolidate (snap : EAMSnapshot F) : EAMSnapshot F :=
  EAMSnapshot.reindex { snap with locations := (knnMerge snap.locations snap.config).2 }

/-- The sum of two memories; an empty one adds nothing. -/
def addWithLimit (a b : EAMSnapshot F) (maxCrossK : ℕ) : Except AlgebraError (EAMSnapshot F) :=
  if a.dim ≠ b.dim then .error (dimensionsDiffer a.dim b.dim)
  else if a.locations.isEmpty then .ok b
  else if b.locations.isEmpty then .ok a
  else .ok (consolidate (EAMSnapshot.reindex ⟨pairwiseCombine a b (lit 1) maxCrossK, a.config⟩))

/-- The sum over all pairs. -/
def add (a b : EAMSnapshot F) : Except AlgebraError (EAMSnapshot F) := addWithLimit a b 0

/-- **The sum of two memories that can be loaded** can be loaded, where their
counters have the dimension. -/
theorem loadable_addWithLimit {a b : Loadable F} {r : EAMSnapshot F} {maxCrossK : ℕ}
    (ha : a.CountersFit) (hb : b.CountersFit) (h : addWithLimit a.toEAMSnapshot b.toEAMSnapshot maxCrossK = .ok r) :
    r.config.validate = .ok () ∧ checkAddresses r.config r.locations = .ok () := by
  unfold addWithLimit at h
  split_ifs at h with hdim hempty hempty'
  · obtain rfl := Except.ok.inj h
    exact ⟨b.valid, b.addressed⟩
  · obtain rfl := Except.ok.inj h
    exact ⟨a.valid, a.addressed⟩
  · obtain rfl := Except.ok.inj h
    refine ⟨a.valid, forM_of_forall fun loc hloc => if_pos ?_⟩
    have hreindexed : ∀ {ls : List (HardLocation F)} {d : ℕ}, Shaped d ls →
        Shaped d (ls.zipIdx.map fun p => { p.1 with id := p.2 }) := fun hls loc hloc => by
      obtain ⟨p, hp, rfl⟩ := List.mem_map.mp hloc
      exact hls p.1 (List.fst_mem_of_mem_zipIdx hp)
    have hsums := hreindexed (shaped_pairwiseCombine (not_not.mp hdim) ha hb (lit 1) maxCrossK)
    exact (hreindexed ((knnMerge_consolidated _ _).1.shaped _ hsums) loc hloc).1

end HeatherDb
