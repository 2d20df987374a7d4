/-
# The partners of a location

How the pairwise operations of `heather_algebra` choose the locations of `b`
that a location of `a` is combined with. `pairwise_combine` selects the
`max_cross_k` most similar without sorting the others and sorts what it
selected; `bind_with_limit` sorts them all, stably. The selection is the
standard library's, of which its documented behaviour is assumed (`Selects`).

Where the similarities are finite numbers both have the first `max_cross_k` of
the stable sort: the selection breaks ties by index, and so does a stable sort of
a list in index order. A similarity of finite addresses need not be a number:
dot product and norm can overflow. Compared with what is not a number everything
is equal, the order is none, and the two paths choose different partners
(`partners_overflow`).

Key definitions: `selectedPartners`, `pairwiseCombineBy`, `bindPairs`,
`bindLocations`, `partners`.
Key theorems: `selectedPartners_eq`, `paired_as_sorted`, `partners_overflow`.
-/
import HeatherDb.Algebra
import HeatherDb.Binding
import HeatherDb.Lib.Selection

namespace HeatherDb

open Scalar Selection

variable {F : Type} [Scalar F]

/-! ### The two ways to choose -/

/-- Most similar first; equal similarities keep the order of the indices. -/
def partnerOrder (x y : ℕ × F) : Ordering := (partialCmp y.2 x.2).then (compare x.1 y.1)

/-- The locations with the similarity of their addresses to this one, the norms
computed once. -/
def partnerSims (addr : List F) (locations : List (HardLocation F)) : List (ℕ × F) :=
  let norms := locations.map fun l => l2Norm l.address
  let na := l2Norm addr
  (locations.zip norms).zipIdx.map fun p =>
    (p.2,
      if lt na (lit (1 / 10 ^ 12)) || lt p.1.2 (lit (1 / 10 ^ 12)) then lit 0
      else dot addr p.1.1.address / (na * p.1.2))

section Source

variable (select : (ℕ × F → ℕ × F → Ordering) → ℕ → List (ℕ × F) → List (ℕ × F))

/-- The partners of location `i` of `a`, by selection. -/
def selectedPartners (a b : EAMSnapshot F) (maxCrossK i : ℕ) : List ℕ :=
  if maxCrossK = 0 ∨ b.locations.length ≤ maxCrossK then List.range b.locations.length
  else
    let sims := partnerSims (locationAt a.locations i).address b.locations
    let sims := (select partnerOrder (maxCrossK - 1) sims).take maxCrossK
    (sortBy partnerOrder sims).map (·.1)

/-- `pairwise_combine`: a location for each pair, unless its patterns cancel. -/
def pairwiseCombineBy (a b : EAMSnapshot F) (sign : F) (maxCrossK : ℕ) : List (HardLocation F) :=
  let rows := (List.range a.locations.length).map fun i =>
    (selectedPartners select a b maxCrossK i).filterMap fun j =>
      if le (lit (1 / 10 ^ 10)) (l2Norm (combined a b sign i j)) then some (combined a b sign i j) else none
  rows.flatten.zipIdx.map fun p => freshLocation p.2 (normalize p.1) p.1

end Source

/-- The pairs `bind_with_limit` binds, by a stable sort. -/
def bindPairs (a b : EAMSnapshot F) (maxCrossK : ℕ) : List (ℕ × ℕ) :=
  if maxCrossK = 0 ∨ b.locations.length ≤ maxCrossK then
    (List.range a.locations.length).flatMap fun i => (List.range b.locations.length).map fun j => (i, j)
  else
    a.locations.zipIdx.flatMap fun la =>
      let sims := b.locations.zipIdx.map fun lb => (lb.2, cosineSimilarity la.1.address lb.1.address)
      ((sortBy (fun x y => partialCmp y.2 x.2) sims).take maxCrossK).map fun s => (la.2, s.1)

/-- The locations `bind_with_limit` builds, before they are consolidated: the
bound patterns with unit norm, those that collapsed left out. -/
def bindLocations (fft : RealFft F) (a b : EAMSnapshot F) (maxCrossK : ℕ) : Option (List (HardLocation F)) := do
  let specsA ← (extractPatterns a).mapM (fftForward fft)
  let specsB ← (extractPatterns b).mapM (fftForward fft)
  let bounds ← (bindPairs a b maxCrossK).mapM fun p => do
    let raw ← convolveViaSpec fft (← specsA[p.1]?) (← specsB[p.2]?) a.dim
    let n := l2Norm raw
    pure (if lt n (lit (1 / 10 ^ 12)) then [] else raw.map (· / n))
  pure ((bounds.filter (!·.isEmpty)).zipIdx.map fun p => freshLocation p.2 (normalize p.1) p.1)

/-! ### The full sort -/

/-- The cosine of the addresses of location `i` of `a` and `j` of `b`. -/
def cosine (a b : EAMSnapshot F) (i j : ℕ) : F :=
  cosineSimilarity (locationAt a.locations i).address (locationAt b.locations j).address

/-- All locations of `b` stably sorted, the most similar to location `i` of `a`
first. -/
def fullSort (a b : EAMSnapshot F) (i : ℕ) : List ℕ :=
  sortBy (fun j j' => partialCmp (cosine a b i j') (cosine a b i j)) (List.range b.locations.length)

/-- The first `max_cross_k` of the full sort; all of `b` in its own order where
there are no more, or no bound. -/
def partners (a b : EAMSnapshot F) (maxCrossK i : ℕ) : List ℕ :=
  if maxCrossK = 0 ∨ b.locations.length ≤ maxCrossK then List.range b.locations.length
  else (fullSort a b i).take maxCrossK

/-- Each location of `a` with its partners. -/
def paired (a b : EAMSnapshot F) (maxCrossK : ℕ) : List (ℕ × ℕ) :=
  (List.range a.locations.length).flatMap fun i => (partners a b maxCrossK i).map fun j => (i, j)

/-- The similarities of the addresses are finite. -/
def FiniteCosines (a b : EAMSnapshot F) : Prop :=
  ∀ la ∈ a.locations, ∀ lb ∈ b.locations, isFinite (cosineSimilarity la.address lb.address) = true

/-- The entries of the addresses are finite. -/
def FiniteAddresses (snap : EAMSnapshot F) : Prop := ∀ loc ∈ snap.locations, ∀ x ∈ loc.address, isFinite x = true

/-- The similarities by index. -/
def cosines (a b : EAMSnapshot F) (i : ℕ) : List (ℕ × F) :=
  (List.range b.locations.length).map fun j => (j, cosine a b i j)

/-- Location by location is index by index. -/
theorem zipIdx_map_eq {α : Type} (locations : List (HardLocation F)) (f : HardLocation F → ℕ → α) :
    locations.zipIdx.map (fun p => f p.1 p.2) =
      (List.range locations.length).map fun j => f (locationAt locations j) j := by
  refine List.ext_getElem (by simp) fun j hj hj' => ?_
  have hlt : j < locations.length := by simpa using hj
  simp [locationAt, hlt]

theorem partnerSims_eq (a b : EAMSnapshot F) (i : ℕ) :
    partnerSims (locationAt a.locations i).address b.locations = cosines a b i := by
  have hzip : (b.locations.zip (b.locations.map fun l => l2Norm l.address)) =
      b.locations.map fun l => (l, l2Norm l.address) :=
    List.ext_getElem (by simp) fun j _ _ => by simp
  unfold partnerSims
  dsimp only
  rw [hzip, List.zipIdx_map, List.map_map]
  exact zipIdx_map_eq b.locations fun l j => (j, cosineSimilarity (locationAt a.locations i).address l.address)

/-- The stable sort of the similarities. -/
theorem map_fst_sort (a b : EAMSnapshot F) (i : ℕ) :
    (sortBy (fun x y => partialCmp y.2 x.2) (cosines a b i)).map (·.1) = fullSort a b i := by
  have h := sortBy_map (fun j j' => partialCmp (cosine a b i j') (cosine a b i j))
    (fun x y : ℕ × F => partialCmp y.2 x.2) (fun j => (j, cosine a b i j)) (fun _ _ => rfl)
    (List.range b.locations.length)
  rw [cosines, h, List.map_map]
  exact List.map_id _

/-- Ties broken by index or left as they are. -/
theorem sort_partnerOrder (a b : EAMSnapshot F) (i : ℕ) :
    sortBy partnerOrder (cosines a b i) = sortBy (fun x y => partialCmp y.2 x.2) (cosines a b i) := by
  refine insertionSort_congr (List.pairwise_map.mpr (List.pairwise_lt_range.imp fun {j j'} hlt => ?_))
  have hless : compare j j' = .lt := Nat.compare_eq_lt.mpr hlt
  unfold partnerOrder
  dsimp only
  rw [hless]
  cases partialCmp (cosine a b i j') (cosine a b i j) <;> decide

/-- `bind_with_limit` binds each location with its partners. -/
theorem bindPairs_eq (a b : EAMSnapshot F) (maxCrossK : ℕ) : bindPairs a b maxCrossK = paired a b maxCrossK := by
  unfold bindPairs paired partners
  by_cases hfull : maxCrossK = 0 ∨ b.locations.length ≤ maxCrossK
  · simp only [if_pos hfull]
  · simp only [if_neg hfull]
    rw [List.flatMap_def, List.flatMap_def]
    congr 1
    rw [zipIdx_map_eq a.locations fun la i =>
      ((sortBy (fun x y => partialCmp y.2 x.2) (b.locations.zipIdx.map fun lb =>
        (lb.2, cosineSimilarity la.address lb.1.address))).take maxCrossK).map fun s => (i, s.1)]
    refine List.map_congr_left fun i _ => ?_
    rw [zipIdx_map_eq b.locations fun lb j => (j, cosineSimilarity (locationAt a.locations i).address lb.address),
      ← map_fst_sort, ← List.map_take, List.map_map]
    rfl

/-! ### The selection -/

section Finite

variable [Valued F]

open HeatherDb.Valued

theorem partnerOrder_ne_gt {x y : ℕ × F} (hx : isFinite x.2 = true) (hy : isFinite y.2 = true) :
    partnerOrder x y ≠ .gt ↔ val y.2 < val x.2 ∨ val x.2 = val y.2 ∧ x.1 ≤ y.1 := by
  unfold partnerOrder partialCmp
  rcases lt_trichotomy (val y.2) (val x.2) with h | h | h
  · rw [if_pos ((lt_iff hy hx).mpr h)]
    simpa using Or.inl h
  · rw [if_neg (mt (lt_iff hy hx).mp h.not_lt), if_neg (mt (lt_iff hx hy).mp h.not_gt)]
    simp [h, Nat.compare_ne_gt]
  · rw [if_neg (mt (lt_iff hy hx).mp h.not_gt), if_pos ((lt_iff hx hy).mpr h)]
    simp [h.not_gt, h.ne]

/-- Finite similarities are totally ordered, and no two entries tie. -/
theorem totalOn_partnerOrder {sims : List (ℕ × F)} (hfin : ∀ e ∈ sims, isFinite e.2 = true) :
    TotalOn partnerOrder sims where
  swap x hx y hy := by
    have hxy := lt_iff (hfin x hx) (hfin y hy)
    have hyx := lt_iff (hfin y hy) (hfin x hx)
    unfold partnerOrder partialCmp
    rcases lt_trichotomy (val y.2) (val x.2) with h | h | h
    · rw [if_pos (hyx.mpr h), if_neg (mt hxy.mp h.not_gt), if_pos (hyx.mpr h)]
      rfl
    · rw [if_neg (mt hyx.mp h.not_lt), if_neg (mt hxy.mp h.not_gt), if_neg (mt hxy.mp h.not_gt),
        if_neg (mt hyx.mp h.not_lt)]
      exact (Nat.compare_swap y.1 x.1).symm
    · rw [if_neg (mt hyx.mp h.not_gt), if_pos (hxy.mpr h), if_pos (hxy.mpr h)]
      rfl
  trans x hx y hy z hz := by
    rw [partnerOrder_ne_gt (hfin x hx) (hfin y hy), partnerOrder_ne_gt (hfin y hy) (hfin z hz),
      partnerOrder_ne_gt (hfin x hx) (hfin z hz)]
    rintro (hxy | ⟨hxy, hle⟩) (hyz | ⟨hyz, hle'⟩)
    · exact Or.inl (hyz.trans hxy)
    · exact Or.inl (hyz ▸ hxy)
    · exact Or.inl (hxy ▸ hyz)
    · exact Or.inr ⟨hxy.trans hyz, hle.trans hle'⟩

omit [Valued F] in
theorem finite_cosines {a b : EAMSnapshot F} (hfin : FiniteCosines a b) {i : ℕ} (hi : i < a.locations.length) :
    ∀ e ∈ cosines a b i, isFinite e.2 = true := by
  intro e he
  obtain ⟨j, hj, rfl⟩ := List.mem_map.mp he
  exact hfin _ (locationAt_mem hi) _ (locationAt_mem (List.mem_range.mp hj))

omit [Valued F] in
theorem eq_of_partnerOrder {a b : EAMSnapshot F} {i : ℕ} : ∀ x ∈ cosines a b i, ∀ y ∈ cosines a b i,
    partnerOrder x y = .eq → x = y := by
  intro x hx y hy h
  obtain ⟨j, -, rfl⟩ := List.mem_map.mp hx
  obtain ⟨j', -, rfl⟩ := List.mem_map.mp hy
  have hidx : compare j j' = .eq := (Ordering.then_eq_eq.mp h).2
  rw [Nat.compare_eq_eq.mp hidx]

variable {select : (ℕ × F → ℕ × F → Ordering) → ℕ → List (ℕ × F) → List (ℕ × F)}

/-- **The selected partners are the first of the full sort.** -/
theorem selectedPartners_eq (hselect : Selects select) {a b : EAMSnapshot F} (hfin : FiniteCosines a b) (maxCrossK : ℕ)
    {i : ℕ} (hi : i < a.locations.length) : selectedPartners select a b maxCrossK i = partners a b maxCrossK i := by
  unfold selectedPartners partners
  by_cases hfull : maxCrossK = 0 ∨ b.locations.length ≤ maxCrossK
  · rw [if_pos hfull, if_pos hfull]
  rw [if_neg hfull, if_neg hfull, partnerSims_eq]
  obtain ⟨hpos, hlt⟩ := not_or.mp hfull
  have hlength : (cosines a b i).length = b.locations.length := by simp [cosines]
  have hindex : maxCrossK - 1 < (cosines a b i).length := by omega
  have hsucc : maxCrossK - 1 + 1 = maxCrossK := by omega
  have htotal := totalOn_partnerOrder (finite_cosines hfin hi)
  have hsort := sort_take_selected htotal eq_of_partnerOrder hindex
    (hselect partnerOrder (maxCrossK - 1) (cosines a b i) hindex htotal)
  rw [hsucc] at hsort
  have hkept : sortBy partnerOrder ((select partnerOrder (maxCrossK - 1) (cosines a b i)).take maxCrossK) =
      (sortBy (fun x y => partialCmp y.2 x.2) (cosines a b i)).take maxCrossK :=
    hsort.trans (congrArg (List.take maxCrossK) (sort_partnerOrder a b i))
  dsimp only
  rw [hkept, List.map_take, map_fst_sort]

/-- The full sort is one: all indices, descending, the equally similar ones in
their own order. -/
theorem fullSort_sorted {a b : EAMSnapshot F} (hfin : FiniteCosines a b) {i : ℕ} (hi : i < a.locations.length) :
    (fullSort a b i).Perm (List.range b.locations.length) ∧
      (fullSort a b i).Pairwise fun j j' => val (cosine a b i j') < val (cosine a b i j) ∨
        val (cosine a b i j) = val (cosine a b i j') ∧ j < j' := by
  have hperm : (fullSort a b i).Perm (List.range b.locations.length) := List.perm_insertionSort _ _
  refine ⟨hperm, ?_⟩
  have hsorted := pairwise_sort (totalOn_partnerOrder (finite_cosines hfin hi))
  have hsame : (cosines a b i).insertionSort (fun x y => partnerOrder x y ≠ .gt) =
      (fullSort a b i).map fun j => (j, cosine a b i j) := by
    have h := sortBy_map (fun j j' => partialCmp (cosine a b i j') (cosine a b i j))
      (fun x y : ℕ × F => partialCmp y.2 x.2) (fun j => (j, cosine a b i j)) (fun _ _ => rfl)
      (List.range b.locations.length)
    exact (sort_partnerOrder a b i).trans h
  rw [hsame, List.pairwise_map] at hsorted
  have hnodup : (fullSort a b i).Nodup := hperm.nodup_iff.mpr List.nodup_range
  refine (hsorted.and hnodup).imp_of_mem fun {j j'} hj hj' h => ?_
  have hfinite : ∀ {j}, j ∈ fullSort a b i → isFinite (cosine a b i j) = true := fun hj =>
    hfin _ (locationAt_mem hi) _ (locationAt_mem (List.mem_range.mp (hperm.subset hj)))
  exact ((partnerOrder_ne_gt (hfinite hj) (hfinite hj')).mp h.1).imp_right fun h' => ⟨h'.1, h'.2.lt_of_ne h.2⟩

omit [Valued F] in
theorem filterMap_kept {α β : Type} (f : α → β) (keep : β → Bool) : ∀ l : List α,
    l.filterMap (fun x => if keep (f x) then some (f x) else none) = (l.map f).filter keep
  | [] => rfl
  | x :: l => by
    by_cases hkeep : keep (f x) = true
    · simp [hkeep, filterMap_kept f keep l]
    · simp [hkeep, filterMap_kept f keep l]

/-- **Both operations pair as the full sort does**: each location of `a` with its
partners in their order. `pairwise_combine` leaves out the combinations whose
norm does not reach the least and numbers the others from 0. -/
theorem paired_as_sorted (hselect : Selects select) {a b : EAMSnapshot F} (hfin : FiniteCosines a b) (sign : F)
    (maxCrossK : ℕ) :
    (∀ i < a.locations.length, (fullSort a b i).Perm (List.range b.locations.length) ∧
      (fullSort a b i).Pairwise fun j j' => val (cosine a b i j') < val (cosine a b i j) ∨
        val (cosine a b i j) = val (cosine a b i j') ∧ j < j') ∧
    (∀ i < a.locations.length, selectedPartners select a b maxCrossK i = partners a b maxCrossK i) ∧
    (pairwiseCombineBy select a b sign maxCrossK).map (·.counter) =
      ((paired a b maxCrossK).map fun p => combined a b sign p.1 p.2).filter
        (fun v => le (lit (1 / 10 ^ 10)) (l2Norm v)) ∧
    (pairwiseCombineBy select a b sign maxCrossK).map (·.id) =
      List.range (pairwiseCombineBy select a b sign maxCrossK).length ∧
    (∀ loc ∈ pairwiseCombineBy select a b sign maxCrossK,
      loc.address = normalize loc.counter ∧ loc.writeCount = lit 1) ∧
    bindPairs a b maxCrossK = paired a b maxCrossK := by
  refine ⟨fun i hi => fullSort_sorted hfin hi, fun i hi => selectedPartners_eq hselect hfin maxCrossK hi, ?_, ?_, ?_,
    bindPairs_eq a b maxCrossK⟩
  · have hrows : ∀ i ∈ List.range a.locations.length,
        ((selectedPartners select a b maxCrossK i).filterMap fun j =>
          if le (lit (1 / 10 ^ 10)) (l2Norm (combined a b sign i j)) then some (combined a b sign i j) else none) =
        (((partners a b maxCrossK i).map fun j => (i, j)).map fun p => combined a b sign p.1 p.2).filter
          fun v => le (lit (1 / 10 ^ 10)) (l2Norm v) := by
      intro i hi
      rw [selectedPartners_eq hselect hfin maxCrossK (List.mem_range.mp hi), List.map_map]
      exact filterMap_kept (combined a b sign i) (fun v => le (lit (1 / 10 ^ 10)) (l2Norm v)) _
    unfold pairwiseCombineBy paired
    dsimp only
    rw [List.map_congr_left hrows, List.map_map, List.flatMap_def, List.map_flatten, List.filter_flatten, List.map_map,
      List.map_map]
    exact List.zipIdx_map_fst 0 _
  · unfold pairwiseCombineBy
    dsimp only
    rw [List.map_map, List.length_map, List.length_zipIdx]
    exact (List.zipIdx_map_snd 0 _).trans List.range_eq_range'.symm
  · intro loc hloc
    obtain ⟨p, -, rfl⟩ := List.mem_map.mp hloc
    exact ⟨rfl, rfl⟩

end Finite

/-! ### A format that overflows -/

/-- Locations on a line, each its own stored pattern. -/
def onLine (config : EAMConfig F) (xs : List F) : EAMSnapshot F where
  locations := xs.zipIdx.map fun p => freshLocation p.2 [p.1] [p.1]
  config := config

/-- Rational locations on a line. -/
def rationals (xs : List ℚ) : EAMSnapshot ℚ := onLine (smallConfig false) xs

/-- Two partners of three, two of which are equal. -/
theorem paired_as_sorted_tied : Selects (scanFirst (α := ℕ × ℚ)) ∧ FiniteCosines (rationals [1]) (rationals [-1, 1, 1]) ∧
    0 < (rationals [1]).locations.length ∧
    selectedPartners scanFirst (rationals [1]) (rationals [-1, 1, 1]) 2 0 =
      partners (rationals [1]) (rationals [-1, 1, 1]) 2 0 ∧
    partners (rationals [1]) (rationals [-1, 1, 1]) 2 0 = [1, 2] :=
  ⟨selects_scanFirst, fun _ _ _ _ => rfl, by decide +kernel,
    (paired_as_sorted selects_scanFirst (fun _ _ _ _ => rfl) 1 2).2.1 0 (by decide +kernel), by decide +kernel⟩

/-- The rationals below `2 ^ 1024` in magnitude, the infinities beyond them and
what is not a number. -/
inductive Wide where
  | nan
  | inf (negative : Bool)
  | rat (q : ℚ)
deriving DecidableEq

namespace Wide

def ofRat (q : ℚ) : Wide := if |q| < 2 ^ 1024 then rat q else inf (q < 0)

def add : Wide → Wide → Wide
  | rat p, rat q => ofRat (p + q)
  | inf s, inf t => if s = t then inf s else nan
  | inf s, rat _ => inf s
  | rat _, inf t => inf t
  | _, _ => nan

def neg : Wide → Wide
  | rat q => rat (-q)
  | inf s => inf !s
  | nan => nan

def mul : Wide → Wide → Wide
  | rat p, rat q => ofRat (p * q)
  | inf s, inf t => inf (s != t)
  | inf s, rat q => if q = 0 then nan else inf (s != decide (q < 0))
  | rat p, inf t => if p = 0 then nan else inf (decide (p < 0) != t)
  | _, _ => nan

def div : Wide → Wide → Wide
  | rat p, rat q => if q = 0 then if p = 0 then nan else inf (p < 0) else ofRat (p / q)
  | inf s, rat q => inf (s != decide (q < 0))
  | rat _, inf _ => rat 0
  | _, _ => nan

def lt : Wide → Wide → Bool
  | rat p, rat q => p < q
  | inf s, rat _ => s
  | rat _, inf t => !t
  | inf s, inf t => s && !t
  | _, _ => false

def eq : Wide → Wide → Bool
  | rat p, rat q => p = q
  | inf s, inf t => s = t
  | _, _ => false

def isFinite : Wide → Bool
  | rat _ => true
  | _ => false

/-- A function of finite values. -/
def map (f : ℚ → ℚ) : Wide → Wide
  | rat q => ofRat (f q)
  | inf false => inf false
  | _ => nan

end Wide

instance : Scalar Wide where
  add := Wide.add
  sub x y := x.add y.neg
  mul := Wide.mul
  div := Wide.div
  neg := Wide.neg
  lit := Wide.ofRat
  sqrt := Wide.map ratSqrt
  log2 := Wide.map ratLog2
  ln := Wide.map Scalar.ln
  lt := Wide.lt
  le x y := x.lt y || x.eq y
  eq := Wide.eq
  totalCmp x y := if x = y then .eq else if x.lt y || y = .nan then .lt else .gt
  isFinite := Wide.isFinite
  aboveNegInf x := x ≠ .nan && x ≠ .inf true
  belowInf x := x ≠ .nan && x ≠ .inf false
  ceilUsize
    | .rat q => Scalar.ceilUsize q
    | .inf false => 2 ^ 64 - 1
    | _ => 0
  display
    | .rat q => Scalar.display q
    | .inf false => "inf"
    | .inf true => "-inf"
    | .nan => "NaN"
  eq_symm {x y} h := by
    cases x <;> cases y <;> simp_all [Wide.eq]
  eq_trans {x y z} h h' := by
    cases x <;> cases y <;> cases z <;> simp_all [Wide.eq]

/-- The small configuration over this format. -/
def wideConfig : EAMConfig Wide where
  d := 1
  l0 := 0
  k := 1
  eta0 := .rat (1 / 10)
  lambda := .rat 1
  etaMin := .rat (1 / 100)
  tauSplit := .rat (3 / 10)
  tauMerge := .rat (9 / 10)
  gamma := .rat 0
  tauDamp := .rat 1
  tauOverload := .rat 100
  beta := .rat 1
  tMax := 1
  epsilon := .rat (1 / 10)
  neighborCap := 0
  numLandmarks := 0
  mdlGate := false
  competitive := false
  precision := .f64

/-- Locations on a line in this format. -/
def wides (xs : List ℚ) : EAMSnapshot Wide := onLine wideConfig (xs.map .rat)

theorem finiteAddresses_wides (xs : List ℚ) : FiniteAddresses (wides xs) := by
  intro loc hloc x hx
  obtain ⟨p, hp, rfl⟩ := List.mem_map.mp hloc
  obtain ⟨q, -, hq⟩ := List.mem_map.mp (List.fst_mem_of_mem_zipIdx hp)
  obtain rfl : x = p.1 := List.mem_singleton.mp hx
  rw [← hq]
  rfl

/-- The dot product of 10 and `2 * 10 ^ 307` overflows, and so does the norm: the
similarity is not a number. The scan for the most similar one finds the last,
the stable sort moves nothing. -/
theorem partners_overflow : ¬∀ select : (ℕ × Wide → ℕ × Wide → Ordering) → ℕ → List (ℕ × Wide) → List (ℕ × Wide),
    Selects select → ∀ a b : EAMSnapshot Wide, FiniteAddresses a → FiniteAddresses b → ∀ maxCrossK i,
      i < a.locations.length → selectedPartners select a b maxCrossK i = partners a b maxCrossK i := by
  intro h
  have hsame := h scanFirst selects_scanFirst (wides [10]) (wides [-1, 2 * 10 ^ 307, 1])
    (finiteAddresses_wides _) (finiteAddresses_wides _) 1 0 (by decide +kernel)
  have hselected : selectedPartners scanFirst (wides [10]) (wides [-1, 2 * 10 ^ 307, 1]) 1 0 = [2] := by decide +kernel
  have hsorted : partners (wides [10]) (wides [-1, 2 * 10 ^ 307, 1]) 1 0 = [0] := by decide +kernel
  rw [hselected, hsorted] at hsame
  exact absurd hsame (by decide)

end HeatherDb
