/-
# Merge and compression

`merge.rs` and the loop of `Collection::compress`: both consolidate similar
locations, the merge each location with its nearest one, most similar pairs
first, compression the closest pair as long as the description gets shorter.

What the posting lists and the store need of either is the same
(`Consolidated`): the pairs `(removed, survivor)` form lawful absorptions of
the original ids, and the locations left are those not removed, with the
lengths of their vectors.

Key definitions: `knnMerge`, `compressLoop`, `Consolidated`.
Key theorems: `knnMerge_consolidated`, `compressLoop_consolidated`.
-/
import Mathlib.Data.List.InsertIdx
import HeatherDb.Lib.Absorb
import HeatherDb.Nearest
import HeatherDb.Write

namespace HeatherDb

open Scalar

variable {F : Type} [Scalar F]

/-! ### The nearest-neighbour merge -/

/-- Result of a merge: the removed ids, `(removed, survivor)` pairs and the
number of merges. -/
structure MergeResult where
  removedIds : List ℕ
  mergeMap : List (ℕ × ℕ)
  mergeCount : ℕ

/-- The merge loop's state; `merged` marks the locations merged into others. -/
structure Merging (F : Type) where
  locations : List (HardLocation F)
  merged : List Bool
  result : MergeResult

/-- Location `b` merged into location `a`. -/
def absorb (config : EAMConfig F) (numLocations : ℕ) (a b : HardLocation F) : HardLocation F :=
  let totalWc := a.writeCount + b.writeCount
  let address :=
    if lt (lit (1 / 10 ^ 12)) totalWc then
      let wi := a.writeCount / totalWc
      let wj := b.writeCount / totalWc
      let newAddr := List.zipWith (fun x y => x * wi + y * wj) a.address b.address
      if config.competitive then normalize newAddr else newAddr
    else a.address
  let union := b.neighbors.foldl (fun ns n => if n = a.id ∨ n ∈ ns then ns else ns ++ [n]) a.neighbors
  let kept := union.filter (· ≠ b.id)
  let nbCap := config.adaptiveNeighborCap numLocations
  { a with
    address := address
    counter := addScaled a.counter b.counter (lit 1)
    writeCount := a.writeCount + b.writeCount
    neighbors := if 0 < nbCap ∧ nbCap < kept.length then kept.take nbCap else kept }

/-- Merges the pair `(i, j)` unless one of them was merged away already. -/
def mergePair (config : EAMConfig F) (st : Merging F) (p : ℕ × ℕ × F) : Merging F :=
  if st.merged.getD p.1 false || st.merged.getD p.2.1 false then st
  else
    let a := locationAt st.locations p.1
    let b := locationAt st.locations p.2.1
    { locations := st.locations.set p.1 (absorb config st.locations.length a b)
      merged := st.merged.set p.2.1 true
      result :=
        { removedIds := st.result.removedIds ++ [b.id]
          mergeMap := st.result.mergeMap ++ [(b.id, a.id)]
          mergeCount := st.result.mergeCount + 1 } }

variable [SeededUniform F] in
/-- Locations with their nearest other one where it is more similar than
`tau_merge`, most similar first. -/
def mergePairs (locations : List (HardLocation F)) (config : EAMConfig F) : List (ℕ × ℕ × F) :=
  let norms := locations.map fun l => l2Norm l.address
  sortBy (fun a b => partialCmp b.2.2 a.2.2)
    ((nearestNeighbors locations norms).zipIdx.filterMap fun p =>
      (p.1.filter fun nn => lt config.tauMerge nn.2).map fun nn => (p.2, nn.1, nn.2))

variable [SeededUniform F] in
/-- The pairs merged one after another. -/
def mergeLoop (locations : List (HardLocation F)) (config : EAMConfig F) : Merging F :=
  (mergePairs locations config).foldl (mergePair config)
    ⟨locations, List.replicate locations.length false, ⟨[], [], 0⟩⟩

/-- The locations not merged into others. -/
def Merging.remaining (st : Merging F) : List (HardLocation F) :=
  ((st.locations.zip st.merged).filter fun p => !p.2).map (·.1)

variable [SeededUniform F] in
def knnMerge (locations : List (HardLocation F)) (config : EAMConfig F) :
    MergeResult × List (HardLocation F) :=
  if locations.length < 2 then (⟨[], [], 0⟩, locations)
  else ((mergeLoop locations config).result, (mergeLoop locations config).remaining)

/-! ### Compression -/

/-- The pair `(i, j)` with its cosine if it is closer than the best so far. -/
def closer (locations : List (HardLocation F)) (i : ℕ) (best : ℕ × ℕ × F) (j : ℕ) : ℕ × ℕ × F :=
  let c := dot (locationAt locations i).address (locationAt locations j).address
  if lt best.2.2 c then (i, j, c) else best

/-- The closest pair by cosine and its cosine, the first of several. -/
def closestPair (locations : List (HardLocation F)) : ℕ × ℕ × F :=
  let n := locations.length
  (List.range n).foldl (fun best i =>
    (List.range' (i + 1) (n - (i + 1))).foldl (closer locations i) best) (0, 1, lit (-2))

/-- Location `b` joined to location `a`, write-weighted. -/
def fold (wi wj : F) (a b : HardLocation F) : HardLocation F :=
  { a with
    counter := List.zipWith (fun c add => c + add) a.counter b.counter ++ a.counter.drop b.counter.length
    address := normalize (List.zipWith (fun ai aj => wi * ai + wj * aj) a.address b.address)
    writeCount := wi + wj
    neighbors := a.neighbors ++ b.neighbors }

/-- Write counts below this weigh as much as this. -/
def leastWeight : F := lit (1 / 10 ^ 9)

/-- Merging the pair pays: the model saving exceeds the cost in data fit. -/
def pays (kappa lambda w : F) (locations : List (HardLocation F)) (p : ℕ × ℕ × F) : Bool :=
  let n := locations.length
  let wi := fmax (locationAt locations p.1).writeCount leastWeight
  let wj := fmax (locationAt locations p.2.1).writeCount leastWeight
  let inertia := wi * wj / (wi + wj) * lit 2 * fmax (lit 1 - p.2.2) (lit 0)
  let modelSaving := kappa + w * (log2 (ofUsize n) - log2 (ofUsize (n - 1)))
  !le modelSaving (inertia * lambda)

/-- The loop of `compress`: the locations left and the pairs
`(removed, survivor)` in order. A round removes a location, so as many rounds
as there are locations are enough. -/
def compressLoop (kappa lambda w : F) : ℕ → List (HardLocation F) → List (ℕ × ℕ) →
    List (HardLocation F) × List (ℕ × ℕ)
  | 0, locations, parent => (locations, parent)
  | fuel + 1, locations, parent =>
    if locations.length ≤ 2 then (locations, parent)
    else
      let p := closestPair locations
      if pays kappa lambda w locations p then
        let a := locationAt locations p.1
        let b := locationAt locations p.2.1
        let joined := fold (fmax a.writeCount leastWeight) (fmax b.writeCount leastWeight) a b
        compressLoop kappa lambda w fuel ((locations.set p.1 joined).eraseIdx p.2.1)
          (parent ++ [(b.id, a.id)])
      else (locations, parent)

/-- The weight all writes carry, at least 1. -/
def totalWeight (locations : List (HardLocation F)) : F :=
  fmax (sum (locations.map (·.writeCount))) (lit 1)

/-! ### What a consolidation keeps -/

/-- The outcome of consolidating `locations`: `merges` absorbs ids of
distinct locations lawfully, and what is left are the others. -/
structure Consolidated (locations : List (HardLocation F)) (merges : List (ℕ × ℕ))
    (left : List (HardLocation F)) : Prop where
  known : ∀ e ∈ merges, e.1 ∈ locations.map (·.id) ∧ e.2 ∈ locations.map (·.id)
  lawful : (locations.map (·.id)).Nodup → Absorb.Lawful merges
  ids : (locations.map (·.id)).Nodup →
    left.map (·.id) = (locations.map (·.id)).filter fun k => k ∉ merges.map (·.1)
  within : ∀ k ∈ left.map (·.id), k ∈ locations.map (·.id)
  covers : ∀ k ∈ locations.map (·.id), k ∈ left.map (·.id) ∨ k ∈ merges.map (·.1)
  shaped : ∀ d, Shaped d locations → Shaped d left

omit [Scalar F] in
theorem Consolidated.refl (locations : List (HardLocation F)) : Consolidated locations [] locations where
  known := by simp
  lawful _ := Absorb.Lawful.nil
  ids _ := by simp
  within _ hk := hk
  covers _ hk := Or.inl hk
  shaped _ h := h

theorem absorb_shaped {config : EAMConfig F} {n d : ℕ} {a b : HardLocation F}
    (ha : a.address.length = d ∧ a.counter.length = d) (hb : b.address.length = d ∧ b.counter.length = d) :
    (absorb config n a b).address.length = d ∧ (absorb config n a b).counter.length = d := by
  constructor
  · unfold absorb
    dsimp only
    split_ifs <;> simp [ha.1, hb.1]
  · simp [absorb, ha.2]

/-! ### The merge consolidates -/

/-- The invariant of the merge loop over the original ids. -/
structure MergeInv (locations : List (HardLocation F)) (st : Merging F) : Prop where
  ids : st.locations.map (·.id) = locations.map (·.id)
  marks : st.merged.length = locations.length
  removed : st.result.removedIds = st.result.mergeMap.map (·.1)
  known : ∀ e ∈ st.result.mergeMap, e.1 ∈ locations.map (·.id) ∧ e.2 ∈ locations.map (·.id)
  lawful : (locations.map (·.id)).Nodup → Absorb.Lawful st.result.mergeMap
  gone : ∀ i < locations.length, st.merged.getD i false = true →
    (locationAt locations i).id ∈ st.result.mergeMap.map (·.1)
  stays : (locations.map (·.id)).Nodup → ∀ i < locations.length,
    (locationAt locations i).id ∈ st.result.mergeMap.map (·.1) → st.merged.getD i false = true
  shaped : ∀ d, Shaped d locations → Shaped d st.locations

theorem MergeInv.length {locations : List (HardLocation F)} {st : Merging F} (h : MergeInv locations st) :
    st.locations.length = locations.length := by
  simpa using congrArg List.length h.ids

theorem MergeInv.id_eq {locations : List (HardLocation F)} {st : Merging F} (h : MergeInv locations st)
    {i : ℕ} (hi : i < locations.length) : (locationAt st.locations i).id = (locationAt locations i).id := by
  have h1 := id_locationAt (h.length ▸ hi : i < st.locations.length)
  rw [h.ids, id_locationAt hi] at h1
  exact (Option.some.inj h1).symm

/-- With distinct ids an index is the index of its id. -/
theorem index_of_id {locations : List (HardLocation F)} (hn : (locations.map (·.id)).Nodup) {i j : ℕ}
    (hi : i < locations.length) (hj : j < locations.length)
    (h : (locationAt locations i).id = (locationAt locations j).id) : i = j := by
  have h1 := id_locationAt hi
  have h2 := id_locationAt hj
  rw [← h, ← h1] at h2
  exact ((List.getElem?_inj (by simpa using hj) hn).mp h2).symm

theorem mergePair_inv {locations : List (HardLocation F)} {config : EAMConfig F} {st : Merging F}
    (h : MergeInv locations st) {p : ℕ × ℕ × F} (hi : p.1 < locations.length)
    (hj : p.2.1 < locations.length) (hne : p.2.1 ≠ p.1) : MergeInv locations (mergePair config st p) := by
  obtain ⟨i, j, s⟩ := p
  simp only at hi hj hne
  unfold mergePair
  simp only
  split_ifs with hm
  · exact h
  · simp only [Bool.or_eq_true, not_or, Bool.not_eq_true] at hm
    have hidi := h.id_eq hi
    have hidj := h.id_eq hj
    have hmem : ∀ k < locations.length, (locationAt locations k).id ∈ locations.map (·.id) := fun k hk =>
      List.mem_map_of_mem (locationAt_mem hk)
    constructor
    · -- the survivor keeps its id
      apply List.ext_getElem?
      intro k
      rw [← h.ids]
      simp only [List.getElem?_map, List.getElem?_set]
      split_ifs with hk hl
      · subst hk
        rw [locationAt, List.getD_eq_getElem _ _ hl]
        simp [absorb, hl]
      · subst hk
        exact absurd (h.length ▸ hi) hl
      · rfl
    · simpa using h.marks
    · simp [h.removed]
    · intro e he
      rcases List.mem_append.mp he with he | he
      · exact h.known e he
      · obtain rfl := List.mem_singleton.mp he
        exact ⟨hidj ▸ hmem j hj, hidi ▸ hmem i hi⟩
    · intro hn
      refine (h.lawful hn).snoc (fun hc => ?_) (fun hc => ?_) fun hc => ?_
      · exact hne (index_of_id hn hj hi (hidj ▸ hidi ▸ hc))
      · have := h.stays hn j hj (hidj ▸ hc)
        rw [hm.2] at this
        exact absurd this (by simp)
      · have := h.stays hn i hi (hidi ▸ hc)
        rw [hm.1] at this
        exact absurd this (by simp)
    · intro k hk hmk
      rw [List.map_append, List.mem_append]
      by_cases hkj : j = k
      · subst hkj
        exact Or.inr (by simp [hidj])
      · rw [List.getD_eq_getElem?_getD, List.getElem?_set_ne hkj, ← List.getD_eq_getElem?_getD] at hmk
        exact Or.inl (h.gone k hk hmk)
    · intro hn k hk hmem
      rw [List.map_append, List.mem_append] at hmem
      by_cases hkj : j = k
      · subst hkj
        simp [h.marks, hj]
      · rw [List.getD_eq_getElem?_getD, List.getElem?_set_ne hkj, ← List.getD_eq_getElem?_getD]
        rcases hmem with hmem | hmem
        · exact h.stays hn k hk hmem
        · simp only [List.map_cons, List.map_nil, List.mem_singleton] at hmem
          exact absurd (index_of_id hn hk hj (hmem.trans hidj)).symm hkj
    · intro d hd loc hloc
      rcases List.mem_or_eq_of_mem_set hloc with hloc | rfl
      · exact h.shaped d hd loc hloc
      · exact absorb_shaped (h.shaped d hd _ (locationAt_mem (h.length ▸ hi)))
          (h.shaped d hd _ (locationAt_mem (h.length ▸ hj)))

/-- Nothing is marked at first. -/
theorem mergeInv_start (locations : List (HardLocation F)) :
    MergeInv locations (⟨locations, List.replicate locations.length false, ⟨[], [], 0⟩⟩ : Merging F) := by
  refine ⟨rfl, by simp, rfl, by simp, fun _ => Absorb.Lawful.nil, ?_, by simp, fun _ h => h⟩
  intro i hi hm
  rw [List.getD_replicate _ hi] at hm
  exact absurd hm (by simp)

variable [SeededUniform F] in
/-- The pairs are pairs of locations, more similar than `tau_merge`. -/
theorem mem_mergePairs {locations : List (HardLocation F)} {config : EAMConfig F} {p : ℕ × ℕ × F}
    (hp : p ∈ mergePairs locations config) :
    p.1 < locations.length ∧ p.2.1 < locations.length ∧ p.2.1 ≠ p.1 ∧
      (nearestNeighbors locations (locations.map fun l => l2Norm l.address))[p.1]? = some (some p.2) ∧
      lt config.tauMerge p.2.2 = true := by
  obtain ⟨⟨nn, i⟩, hq, hsome⟩ := List.mem_filterMap.mp (mem_sortBy.mp hp)
  obtain ⟨⟨j, s⟩, hf, rfl⟩ := Option.map_eq_some_iff.mp hsome
  obtain ⟨hnn, hgt⟩ := Option.filter_eq_some_iff.mp hf
  have hget : (nearestNeighbors locations (locations.map fun l => l2Norm l.address))[i]? = some (some (j, s)) := by
    have hget := List.mem_zipIdx_iff_getElem?.mp hq
    simp only at hget hnn
    rw [hget, hnn]
  obtain ⟨h1, h2, -⟩ := nearestNeighbors_ne hget
  refine ⟨?_, h1, h2, hget, hgt⟩
  have hlt := (List.getElem?_eq_some_iff.mp hget).1
  rwa [length_nearestNeighbors] at hlt

variable [SeededUniform F] in
theorem mergeLoop_inv (locations : List (HardLocation F)) (config : EAMConfig F) :
    MergeInv locations (mergeLoop locations config) := by
  refine List.foldlRecOn (motive := MergeInv locations) _ _ (mergeInv_start locations) fun st h p hp => ?_
  obtain ⟨hi, hj, hne, -, -⟩ := mem_mergePairs hp
  exact mergePair_inv h hi hj hne

omit [Scalar F] in
/-- The locations of the unmarked indices. -/
theorem mem_remaining_iff {st : Merging F} {loc : HardLocation F} :
    loc ∈ st.remaining ↔ ∃ i : ℕ, st.locations[i]? = some loc ∧ st.merged[i]? = some false := by
  constructor
  · intro h
    obtain ⟨⟨l, m⟩, hp, rfl⟩ := List.mem_map.mp h
    obtain ⟨hmem, hm⟩ := List.mem_filter.mp hp
    obtain ⟨i, hi⟩ := List.mem_iff_getElem?.mp hmem
    obtain ⟨h1, h2⟩ := List.getElem?_zip_eq_some.mp hi
    have hm : m = false := by simpa using hm
    exact ⟨i, h1, hm ▸ h2⟩
  · intro h
    obtain ⟨i, h1, h2⟩ := h
    have hmem : (loc, false) ∈ st.locations.zip st.merged :=
      List.mem_of_getElem? (List.getElem?_zip_eq_some.mpr ⟨h1, h2⟩)
    exact List.mem_map.mpr ⟨(loc, false), List.mem_filter.mpr ⟨hmem, rfl⟩, rfl⟩

variable [SeededUniform F] in
/-- **The merge consolidates.** -/
theorem knnMerge_consolidated (locations : List (HardLocation F)) (config : EAMConfig F) :
    Consolidated locations (knnMerge locations config).1.mergeMap (knnMerge locations config).2 ∧
      (knnMerge locations config).1.removedIds = (knnMerge locations config).1.mergeMap.map (·.1) := by
  unfold knnMerge
  split_ifs with hn
  · exact ⟨Consolidated.refl locations, rfl⟩
  have h := mergeLoop_inv locations config
  generalize mergeLoop locations config = st at h
  refine ⟨⟨h.known, h.lawful, fun hnd => ?_, fun k hk => ?_, fun k hk => ?_, fun d hd loc hloc => ?_⟩, h.removed⟩
  · -- index by index, a location stays exactly when its id was not absorbed
    have key : ∀ (ls os : List (HardLocation F)) (ms : List Bool), ls.map (·.id) = os.map (·.id) →
        ms.length = os.length → (∀ (i : ℕ), ∀ o ∈ os[i]?, ∀ m ∈ ms[i]?,
          (m = true ↔ o.id ∈ st.result.mergeMap.map (·.1))) →
        (((ls.zip ms).filter fun p => !p.2).map (·.1)).map (·.id) =
          (os.map (·.id)).filter fun k => k ∉ st.result.mergeMap.map (·.1) := by
      intro ls
      induction ls with
      | nil =>
        intro os ms hids _ _
        simp [← hids]
      | cons l ls ih =>
        intro os ms hids hlen hiff
        cases os with
        | nil => simp at hids
        | cons o os =>
          cases ms with
          | nil => simp at hlen
          | cons m ms =>
            simp only [List.map_cons, List.cons.injEq] at hids
            have ih := ih os ms hids.2 (by simpa using hlen) fun i => by simpa using hiff (i + 1)
            have h0 := hiff 0 o (by simp) m (by simp)
            simp only [List.zip_cons_cons, List.map_cons, List.filter_cons]
            by_cases hm : m = true
            · have hmem := h0.mp hm
              simp only [hm, Bool.not_true, Bool.false_eq_true, ↓reduceIte, hmem, not_true_eq_false,
                decide_false]
              exact ih
            · have hmem : o.id ∉ st.result.mergeMap.map (·.1) := fun hc => hm (h0.mpr hc)
              have hm : m = false := by simpa using hm
              simp only [hm, Bool.not_false, ↓reduceIte, hmem, not_false_eq_true, decide_true,
                List.map_cons, hids.1]
              rw [ih]
    refine key _ _ _ h.ids h.marks fun i o ho m hm => ?_
    obtain ⟨hi, rfl⟩ := List.getElem?_eq_some_iff.mp ho
    obtain ⟨hi', rfl⟩ := List.getElem?_eq_some_iff.mp hm
    have h1 := h.gone i hi
    have h2 := h.stays hnd i hi
    rw [locationAt, List.getD_eq_getElem locations _ hi, List.getD_eq_getElem st.merged _ hi'] at h1 h2
    exact ⟨h1, h2⟩
  · obtain ⟨loc, hloc, rfl⟩ := List.mem_map.mp hk
    obtain ⟨i, hi, -⟩ := mem_remaining_iff.mp hloc
    rw [← h.ids]
    exact List.mem_map_of_mem (List.mem_of_getElem? hi)
  · obtain ⟨loc, hloc, rfl⟩ := List.mem_map.mp hk
    obtain ⟨i, hi⟩ := List.mem_iff_getElem?.mp hloc
    have hlt := (List.getElem?_eq_some_iff.mp hi).1
    have hat : locationAt locations i = loc := by
      rw [locationAt, List.getD_eq_getElem?_getD, hi]
      rfl
    cases hm : st.merged.getD i false with
    | true => exact Or.inr (hat ▸ h.gone i hlt hm)
    | false =>
      left
      rw [← hat, ← h.id_eq hlt]
      refine List.mem_map_of_mem (mem_remaining_iff.mpr ⟨i, ?_, ?_⟩)
      · rw [locationAt, List.getD_eq_getElem st.locations _ (h.length ▸ hlt)]
        simp
      · have hmi : i < st.merged.length := h.marks ▸ hlt
        rw [List.getD_eq_getElem st.merged _ hmi] at hm
        rw [List.getElem?_eq_getElem hmi, hm]
  · obtain ⟨i, hi, -⟩ := mem_remaining_iff.mp hloc
    exact h.shaped d hd loc (List.mem_of_getElem? hi)

theorem length_mergePair (config : EAMConfig F) (st : Merging F) (p : ℕ × ℕ × F) :
    (mergePair config st p).locations.length = st.locations.length := by
  unfold mergePair
  split_ifs
  · rfl
  · exact List.length_set

/-- What the locations of a pair keep when they are absorbed, all locations keep. -/
theorem forall_mergePair {P : HardLocation F → Prop} {config : EAMConfig F} {st : Merging F} {p : ℕ × ℕ × F}
    (h : ∀ loc ∈ st.locations, P loc)
    (hP : st.merged.getD p.1 false = false → st.merged.getD p.2.1 false = false →
      P (absorb config st.locations.length (locationAt st.locations p.1) (locationAt st.locations p.2.1))) :
    ∀ loc ∈ (mergePair config st p).locations, P loc := by
  unfold mergePair
  split_ifs with hmarked
  · exact h
  · simp only [Bool.or_eq_true, not_or, Bool.not_eq_true] at hmarked
    intro loc hloc
    rcases List.mem_or_eq_of_mem_set hloc with hloc | rfl
    · exact h loc hloc
    · exact hP hmarked.1 hmarked.2

variable [SeededUniform F] in
/-- A merge adds no location. -/
theorem knnMerge_length_le (locations : List (HardLocation F)) (config : EAMConfig F) :
    (knnMerge locations config).2.length ≤ locations.length := by
  unfold knnMerge
  split_ifs with hn
  · exact le_rfl
  · have hlength := (mergeLoop_inv locations config).length
    show (mergeLoop locations config).remaining.length ≤ locations.length
    rw [Merging.remaining, List.length_map, ← hlength]
    refine (List.length_filter_le _ _).trans ?_
    rw [List.length_zip]
    exact min_le_left _ _

/-- A pass that removes nothing changes nothing. -/
theorem foldl_mergePair_idle {config : EAMConfig F} : ∀ (ps : List (ℕ × ℕ × F)) {st : Merging F},
    (ps.foldl (mergePair config) st).result.removedIds = [] → ps.foldl (mergePair config) st = st
  | [], _, _ => rfl
  | p :: ps, st, h => by
    have ih := foldl_mergePair_idle ps h
    have hnone : (mergePair config st p).result.removedIds = [] := by rw [← ih]; exact h
    rw [List.foldl_cons, ih]
    unfold mergePair at hnone ⊢
    split_ifs with hmerged
    · rfl
    · rw [if_neg hmerged] at hnone
      simp at hnone

omit [Scalar F] in
/-- With nothing marked all remain. -/
theorem remaining_start (locations : List (HardLocation F)) :
    Merging.remaining ⟨locations, List.replicate locations.length false, ⟨[], [], 0⟩⟩ = locations := by
  induction locations with
  | nil => rfl
  | cons l ls ih => simpa [Merging.remaining, List.replicate_succ] using ih

variable [SeededUniform F] in
/-- A merge that removes nothing leaves the locations as they were. -/
theorem knnMerge_idle {locations : List (HardLocation F)} {config : EAMConfig F}
    (h : (knnMerge locations config).1.removedIds = []) : (knnMerge locations config).2 = locations := by
  unfold knnMerge at h ⊢
  split_ifs with hn
  · rfl
  · rw [if_neg hn] at h
    have hloop : mergeLoop locations config = _ := foldl_mergePair_idle _ h
    rw [hloop]
    exact remaining_start locations

/-- The closest pair is a pair of indices in order. -/
theorem closestPair_lt {locations : List (HardLocation F)} (h : 2 < locations.length) :
    (closestPair locations).1 < (closestPair locations).2.1 ∧
      (closestPair locations).2.1 < locations.length := by
  unfold closestPair
  refine List.foldlRecOn (motive := fun best : ℕ × ℕ × F => best.1 < best.2.1 ∧ best.2.1 < locations.length)
    _ _ ⟨Nat.zero_lt_one, by simp only; omega⟩ fun best hb i _ => ?_
  refine List.foldlRecOn (motive := fun best : ℕ × ℕ × F => best.1 < best.2.1 ∧ best.2.1 < locations.length)
    _ _ hb fun best hb j hj => ?_
  unfold closer
  dsimp only
  split_ifs
  · have := List.mem_range'_1.mp hj
    simp only
    omega
  · exact hb

theorem ids_set {locations : List (HardLocation F)} {i : ℕ} {loc : HardLocation F}
    (h : loc.id = (locationAt locations i).id) :
    (locations.set i loc).map (·.id) = locations.map (·.id) := by
  apply List.ext_getElem?
  intro k
  simp only [List.getElem?_map, List.getElem?_set]
  split_ifs with hk hl
  · subst hk
    rw [locationAt, List.getD_eq_getElem locations _ hl] at h
    simp [h, hl]
  · subst hk
    simp [hl]
  · rfl

/-- One more pair: the location at `j` goes and the one at `i` takes it up. -/
theorem Consolidated.join {original locations : List (HardLocation F)} {merges : List (ℕ × ℕ)}
    (h : Consolidated original merges locations) {i j : ℕ} (hi : i < locations.length)
    (hj : j < locations.length) (hne : i ≠ j) {joined : HardLocation F}
    (hid : joined.id = (locationAt locations i).id)
    (hsh : ∀ d, Shaped d locations → joined.address.length = d ∧ joined.counter.length = d) :
    Consolidated original (merges ++ [((locationAt locations j).id, (locationAt locations i).id)])
      ((locations.set i joined).eraseIdx j) := by
  have hids : ((locations.set i joined).eraseIdx j).map (·.id) = (locations.map (·.id)).eraseIdx j := by
    rw [← List.eraseIdx_map, ids_set hid]
  have hmi : (locationAt locations i).id ∈ locations.map (·.id) := List.mem_map_of_mem (locationAt_mem hi)
  have hmj : (locationAt locations j).id ∈ locations.map (·.id) := List.mem_map_of_mem (locationAt_mem hj)
  constructor
  · intro e he
    rcases List.mem_append.mp he with he | he
    · exact h.known e he
    · obtain rfl := List.mem_singleton.mp he
      exact ⟨h.within _ hmj, h.within _ hmi⟩
  · intro hn
    have hnl : (locations.map (·.id)).Nodup := h.ids hn ▸ hn.filter _
    have hout : ∀ k ∈ locations.map (·.id), k ∉ merges.map (·.1) := fun k hk => by
      rw [h.ids hn] at hk
      simpa using (List.mem_filter.mp hk).2
    exact (h.lawful hn).snoc (fun hc => hne (index_of_id hnl hi hj hc.symm)) (hout _ hmj) (hout _ hmi)
  · intro hn
    have hnl : (locations.map (·.id)).Nodup := h.ids hn ▸ hn.filter _
    have hget : (locations.map (·.id))[j]? = some (locationAt locations j).id := id_locationAt hj
    obtain ⟨hlt, hge⟩ := List.getElem?_eq_some_iff.mp hget
    rw [hids, ← hnl.erase_getElem j hlt, hge, hnl.erase_eq_filter, h.ids hn, List.filter_filter]
    refine List.filter_congr fun k _ => ?_
    rw [List.map_append, Bool.eq_iff_iff]
    simp only [bne_iff_ne, ne_eq, Bool.and_eq_true, decide_eq_true_eq, List.map_cons, List.map_nil,
      List.mem_append, List.mem_singleton, not_or]
    exact and_comm
  · intro k hk
    rw [hids] at hk
    exact h.within k (List.mem_of_mem_eraseIdx hk)
  · intro k hk
    rw [hids, List.map_append, List.mem_append]
    rcases h.covers k hk with hk | hk
    · obtain ⟨m, hm⟩ := List.mem_iff_getElem?.mp hk
      by_cases hmj' : m = j
      · subst hmj'
        have := id_locationAt hj
        rw [hm] at this
        exact Or.inr (Or.inr (by simp [Option.some.inj this]))
      · exact Or.inl (List.mem_eraseIdx_iff_getElem?.mpr ⟨m, hmj', hm⟩)
    · exact Or.inr (Or.inl hk)
  · intro d hd loc hloc
    have hl := h.shaped d hd
    rcases List.mem_or_eq_of_mem_set (List.mem_of_mem_eraseIdx hloc) with hloc | rfl
    · exact hl loc hloc
    · exact hsh d hl

/-- **Compression consolidates.** -/
theorem compressLoop_consolidated (kappa lambda w : F) {original : List (HardLocation F)} :
    ∀ (fuel : ℕ) {locations : List (HardLocation F)} {parent : List (ℕ × ℕ)},
      Consolidated original parent locations →
      Consolidated original (compressLoop kappa lambda w fuel locations parent).2
        (compressLoop kappa lambda w fuel locations parent).1
  | 0, _, _, h => h
  | fuel + 1, locations, parent, h => by
    rw [compressLoop]
    dsimp only
    split_ifs with hn
    · exact h
    · obtain ⟨h1, h2⟩ := closestPair_lt (Nat.lt_of_not_le hn)
      refine compressLoop_consolidated kappa lambda w fuel (h.join (h1.trans h2) h2 h1.ne rfl fun d hd => ?_)
      have ha := hd _ (locationAt_mem (h1.trans h2))
      have hb := hd _ (locationAt_mem h2)
      constructor
      · simp [fold, ha.1, hb.1]
      · simp [fold, ha.2, hb.2]
    · exact h

end HeatherDb
