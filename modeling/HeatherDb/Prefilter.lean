/-
# The f32 pre-filter

`nearest` of `scan.rs` is exact where it uses the f32 scores and these are as
close to the f64 similarities as `error_bound` says (`nearest_exact`): it finds
the k most similar locations, of equally similar ones those with the lower
index, in that order. Where it cannot use the scores it falls back to
`activate`, which gives the same similarities but leaves ties to its heap.

The floor is the k-th best score less twice the bound. Rounding the difference
is harmless: rounding is monotone and keeps the scores, which are numbers of
the format (`Rounded`).

Key definitions: `Rounded`, `Before`, `Scan.Accurate`.
Key theorems: `mem_or_below`, `kept_above`, `nearest_exact`, `nearest_ties`.
-/
import HeatherDb.TopK

namespace HeatherDb

open Scalar Narrow HeatherDb.Valued

/-- A format whose operations do not overflow: its numbers are finite,
differences are rounded monotonously and doubling is exact. -/
class Rounded (F : Type) [Scalar F] extends Valued F where
  rnd : ℝ → ℝ
  finite (x : F) : isFinite x = true
  le_iff {x y : F} : le x y = true ↔ val x ≤ val y
  rnd_mono : Monotone rnd
  rnd_val (x : F) : rnd (val x) = val x
  val_sub (x y : F) : val (x - y) = rnd (val x - val y)
  val_double (x : F) : val (lit 2 * x) = 2 * val x
  trans : Std.TransCmp (totalCmp : F → F → Ordering)
  totalCmp_of_lt {x y : F} : val x < val y → totalCmp x y = .lt

/-- The narrow numbers are numbers of the wide format. -/
class Widens (F S : Type) [Scalar F] [Scalar S] [Narrow F S] [Rounded F] [Rounded S] : Prop where
  val_toF64 (s : S) : val (toF64 s : F) = val s

open Rounded Widens

variable {F S : Type} [Scalar F] [Scalar S] [Narrow F S] [Rounded F] [Rounded S] [Widens F S]

theorem val_le_of_totalCmp {x y : F} (h : totalCmp x y ≠ .lt) : val y ≤ val x :=
  not_lt.mp (mt totalCmp_of_lt h)

/-! ### The order of the answer -/

/-- More similar in the total order, or as similar with the lower index. -/
def entryCmp (a b : ℕ × F) : Ordering := (totalCmp b.2 a.2).then (compare a.1 b.1)

instance transCmp_entryCmp : Std.TransCmp (entryCmp : ℕ × F → ℕ × F → Ordering) := by
  have htrans : Std.TransCmp (totalCmp : F → F → Ordering) := trans
  have hflip : Std.TransCmp fun a b : ℕ × F => totalCmp b.2 a.2 :=
    { eq_swap := htrans.eq_swap
      isLE_trans := fun hab hbc => htrans.isLE_trans hbc hab }
  exact inferInstanceAs (Std.TransCmp (compareLex (fun a b : ℕ × F => totalCmp b.2 a.2) (compareOn (·.1))))

/-- The location at `i` comes before the one at `j` in an answer. -/
def Before (query : List F) (locations : List (HardLocation F)) (i j : ℕ) : Prop :=
  entryCmp (i, similarity query locations i) (j, similarity query locations j) = .lt

theorem Before.le {query : List F} {locations : List (HardLocation F)} {i j : ℕ} (h : Before query locations i j) :
    val (similarity query locations j) ≤ val (similarity query locations i) := by
  refine val_le_of_totalCmp fun hlt => ?_
  have htrans : Std.TransCmp (totalCmp : F → F → Ordering) := trans
  have hgt : totalCmp (similarity query locations j) (similarity query locations i) = .gt := by
    rw [htrans.eq_swap, hlt]
    rfl
  rw [Before, entryCmp, hgt] at h
  simp at h

theorem Before.of_lt {query : List F} {locations : List (HardLocation F)} {i j : ℕ}
    (h : val (similarity query locations j) < val (similarity query locations i)) : Before query locations i j := by
  rw [Before, entryCmp, totalCmp_of_lt h]
  rfl

theorem Before.irrefl {query : List F} {locations : List (HardLocation F)} (i : ℕ) : ¬Before query locations i i := by
  have hself : entryCmp (i, similarity query locations i) (i, similarity query locations i) = .eq :=
    Std.ReflCmp.compare_self
  rw [Before, hself]
  simp

/-- What comes before another is not itself again. -/
theorem nodup_of_pairwise_before {query : List F} {locations : List (HardLocation F)} {l : List ℕ}
    (h : l.Pairwise (Before query locations)) : l.Nodup := by
  refine h.imp ?_
  rintro i j hij rfl
  exact Before.irrefl i hij

/-- Sorted as the answer is, entries under distinct indices are in order. -/
theorem pairwise_entryCmp {l : List (ℕ × F)} (hnodup : (l.map (·.1)).Nodup) :
    (sortBy entryCmp l).Pairwise fun a b => entryCmp a b = .lt := by
  have htotal : Std.Total fun a b : ℕ × F => entryCmp a b ≠ .gt :=
    ⟨fun a b => by
      have hswap : entryCmp b a = (entryCmp a b).swap := Std.OrientedCmp.eq_swap
      rw [hswap]
      cases entryCmp a b <;> simp⟩
  have htrans : IsTrans (ℕ × F) fun a b => entryCmp a b ≠ .gt :=
    ⟨fun a b c hab hbc => by
      rw [ne_eq, ← Ordering.isLE_iff_ne_gt] at *
      exact Std.TransCmp.isLE_trans hab hbc⟩
  have hsorted : (sortBy entryCmp l).Pairwise fun a b => entryCmp a b ≠ .gt := List.pairwise_insertionSort _ l
  have hperm : (sortBy entryCmp l).Perm l := List.perm_insertionSort _ l
  have hdistinct : ((sortBy entryCmp l).map (·.1)).Nodup := (hperm.map Prod.fst).nodup_iff.mpr hnodup
  have hids : (sortBy entryCmp l).Pairwise fun a b => a.1 ≠ b.1 := List.pairwise_map.mp hdistinct
  refine (hsorted.and hids).imp fun {a b} h => ?_
  cases hcmp : entryCmp a b with
  | lt => rfl
  | gt => exact absurd hcmp h.1
  | eq =>
    have hidx : compare a.1 b.1 = .eq := (Ordering.then_eq_eq.mp hcmp).2
    exact absurd (compare_eq_iff_eq.mp hidx) h.2

/-! ### The scores -/

/-- The f32 scores of the locations. -/
def Scan.scores (scan : Scan F S) (query : List F) : List S :=
  scoreRows ((normalize query).map toF32) scan.matrix query.length

/-- How far a score may be from its similarity. -/
def Scan.bound (scan : Scan F S) (query : List F) : F :=
  errorBound query.length (l2Norm (normalize query)) scan.maxNorm

/-- The score of the location at `i`. -/
def Scan.score (scan : Scan F S) (query : List F) (i : ℕ) : F := toF64 ((scan.scores query).getD i (lit 0))

/-- Every score is as close to its similarity as the bound says. -/
def Scan.Accurate (scan : Scan F S) (query : List F) (locations : List (HardLocation F)) : Prop :=
  ∀ i < locations.length,
    |val (scan.score query i) - val (similarity query locations i)| ≤ val (scan.bound query)

/-- The k-th best score. -/
def Scan.kth (scan : Scan F S) (query : List F) (k : ℕ) : S :=
  (sortBy (fun a b => totalCmp b a) (scan.scores query)).getD (k - 1) (lit 0)

/-- The candidates are those not below this. -/
def Scan.floor (scan : Scan F S) (query : List F) (k : ℕ) : F :=
  toF64 (scan.kth query k) - lit 2 * scan.bound query

/-- The candidates the scores cannot rule out. -/
def Scan.candidates (scan : Scan F S) (query : List F) (n k : ℕ) : List ℕ :=
  (List.range n).filter fun i => le (scan.floor query k) (scan.score query i)

section

variable {scan : Scan F S} {query : List F} {locations : List (HardLocation F)} {k : ℕ}

omit [Rounded F] [Rounded S] [Widens F S] in
theorem length_scores (hpos : 0 < query.length) (hmatrix : scan.matrix.length = locations.length * query.length) :
    (scan.scores query).length = locations.length := by
  have hround : (locations.length * query.length + query.length - 1) / query.length = locations.length := by
    have hsplit : locations.length * query.length + query.length - 1 =
        query.length * locations.length + (query.length - 1) := by
      rw [Nat.mul_comm]
      omega
    rw [hsplit, Nat.mul_add_div hpos, Nat.div_eq_of_lt (Nat.sub_lt hpos one_pos), Nat.add_zero]
  rw [Scan.scores, scoreRows, List.length_map, List.length_range, hmatrix, hround]

omit [Rounded F] [Rounded S] [Widens F S] in
/-- The entries ranked are the candidates'. -/
theorem best_eq (hlength : (scan.scores query).length = locations.length) :
    ((scan.scores query).zipIdx.filter fun p => le (scan.floor query k) (toF64 p.1)).filterMap (fun p =>
      locations[p.2]?.map fun loc => (p.2, dot (normalize query) loc.address)) =
      entriesOf query locations (scan.candidates query locations.length k) := by
  have hzip : (scan.scores query).zipIdx = (List.range locations.length).map fun i =>
      ((scan.scores query).getD i (lit 0), i) := by
    apply List.ext_getElem (by simp [hlength])
    intro i hi hi'
    have hlt : i < (scan.scores query).length := by simpa using hi
    simp [List.getElem?_eq_getElem hlt]
  rw [hzip, List.filter_map, List.filterMap_map, entriesOf, Scan.candidates, ← List.filterMap_eq_map]
  refine List.filterMap_congr fun i hi => ?_
  have hlt : i < locations.length := List.mem_range.mp (List.mem_of_mem_filter hi)
  simp [List.getElem?_eq_getElem hlt, similarity, locationAt, List.getD_eq_getElem?_getD]

omit [Rounded F] [Rounded S] [Widens F S] in
/-- What a usable scan finds. -/
theorem nearest_usable (husable : scan.usable locations.length query.length k = true)
    (hlength : (scan.scores query).length = locations.length) :
    nearest query locations k scan =
      ((sortBy entryCmp (entriesOf query locations (scan.candidates query locations.length k))).take k).unzip := by
  unfold nearest
  dsimp only
  rw [if_pos husable, ← best_eq hlength]
  rfl

/-! ### No similar location is ruled out -/

omit [Rounded F] [Widens F S] in
/-- At least `k` scores reach the k-th best. -/
theorem count_kth (hk : 0 < k) (hle : k ≤ (scan.scores query).length) :
    k ≤ (scan.scores query).countP fun s => decide (val (scan.kth query k) ≤ val s) := by
  have htrans : Std.TransCmp (totalCmp : S → S → Ordering) := trans
  set sorted := sortBy (fun a b => totalCmp b a) (scan.scores query) with hsorted
  have hperm : sorted.Perm (scan.scores query) := List.perm_insertionSort _ _
  have hpairwise : sorted.Pairwise fun a b => val b ≤ val a := by
    have htotal : Std.Total fun a b : S => totalCmp b a ≠ .gt :=
      ⟨fun a b => by
        rw [htrans.eq_swap (a := a)]
        cases totalCmp b a <;> simp⟩
    have hrel : IsTrans S fun a b => totalCmp b a ≠ .gt :=
      ⟨fun a b c hab hbc => by
        rw [ne_eq, ← Ordering.isLE_iff_ne_gt] at *
        exact htrans.isLE_trans hbc hab⟩
    refine (List.pairwise_insertionSort _ (scan.scores query)).imp fun {a b} hab => ?_
    refine val_le_of_totalCmp fun hlt => hab ?_
    show totalCmp b a = .gt
    rw [htrans.eq_swap, hlt]
    rfl
  have hlength : k - 1 < sorted.length := by
    rw [hperm.length_eq]
    omega
  have hkth : scan.kth query k = sorted[k - 1] := List.getD_eq_getElem _ _ hlength
  have hfirst : ∀ s ∈ sorted.take k, val (scan.kth query k) ≤ val s := by
    intro s hs
    obtain ⟨i, hi, rfl⟩ := List.mem_take_iff_getElem.mp hs
    rw [hkth]
    rcases (Nat.le_sub_one_of_lt (Nat.lt_of_lt_of_le hi (Nat.min_le_left _ _))).eq_or_lt with rfl | hlt
    · exact le_rfl
    · exact List.pairwise_iff_getElem.mp hpairwise i (k - 1) _ _ hlt
  calc k = (sorted.take k).length := by rw [List.length_take, hperm.length_eq, Nat.min_eq_left hle]
    _ = (sorted.take k).countP fun s => decide (val (scan.kth query k) ≤ val s) :=
      (List.countP_eq_length.mpr fun s hs => decide_eq_true (hfirst s hs)).symm
    _ ≤ sorted.countP fun s => decide (val (scan.kth query k) ≤ val s) := (List.take_sublist k sorted).countP_le
    _ = _ := hperm.countP_eq _

/-- The locations whose scores reach the k-th best. -/
noncomputable def Scan.reaching (scan : Scan F S) (query : List F) (n k : ℕ) : List ℕ :=
  (List.range n).filter fun i => decide (val (scan.kth query k) ≤ val (scan.score query i))

theorem length_reaching (hk : 0 < k) (hle : k ≤ locations.length)
    (hlength : (scan.scores query).length = locations.length) :
    k ≤ (scan.reaching query locations.length k).length := by
  have hscores : scan.scores query = (List.range locations.length).map fun i => (scan.scores query).getD i (lit 0) := by
    apply List.ext_getElem (by simp [hlength])
    intro i hi hi'
    simp [List.getElem?_eq_getElem hi]
  have hcount := count_kth hk (hlength ▸ hle : k ≤ (scan.scores query).length)
  rw [hscores, List.countP_map] at hcount
  rw [Scan.reaching, ← List.countP_eq_length_filter]
  refine hcount.trans_eq (List.countP_congr fun i _ => ?_)
  simp [Scan.score, val_toF64]

variable (haccurate : scan.Accurate query locations)

include haccurate

/-- A score that reaches the k-th best is not ruled out, and its similarity is
within the bound of the k-th best score. -/
theorem of_reaching {i : ℕ} (hi : i ∈ scan.reaching query locations.length k) :
    i ∈ scan.candidates query locations.length k ∧
      val (scan.kth query k) - val (scan.bound query) ≤ val (similarity query locations i) := by
  obtain ⟨hlt, hreach⟩ := List.mem_filter.mp hi
  have hreach : val (scan.kth query k) ≤ val (scan.score query i) := of_decide_eq_true hreach
  have hclose := abs_le.mp (haccurate i (List.mem_range.mp hlt))
  have hbound : 0 ≤ val (scan.bound query) := (abs_nonneg _).trans (haccurate i (List.mem_range.mp hlt))
  refine ⟨List.mem_filter.mpr ⟨hlt, le_iff.mpr ?_⟩, by linarith [hclose.2]⟩
  calc val (scan.floor query k) = rnd F (val (scan.kth query k) - 2 * val (scan.bound query)) := by
        rw [Scan.floor, val_sub, val_double, val_toF64]
    _ ≤ rnd F (val (scan.score query i)) := rnd_mono (by linarith)
    _ = val (scan.score query i) := rnd_val _

/-- **What is ruled out is less similar** than what reaches the k-th best
score can be. -/
theorem mem_or_below {i : ℕ} (hi : i < locations.length) : i ∈ scan.candidates query locations.length k ∨
    val (similarity query locations i) < val (scan.kth query k) - val (scan.bound query) := by
  by_cases hin : i ∈ scan.candidates query locations.length k
  · exact Or.inl hin
  · refine Or.inr ?_
    have hnot : ¬le (scan.floor query k) (scan.score query i) = true := fun hle =>
      hin (List.mem_filter.mpr ⟨List.mem_range.mpr hi, hle⟩)
    have hbelow : val (scan.score query i) < val (scan.kth query k) - 2 * val (scan.bound query) := by
      by_contra hge
      refine hnot (le_iff.mpr ?_)
      -- rounding keeps the score, so it cannot lift the floor above it
      calc val (scan.floor query k) = rnd F (val (scan.kth query k) - 2 * val (scan.bound query)) := by
            rw [Scan.floor, val_sub, val_double, val_toF64]
        _ ≤ rnd F (val (scan.score query i)) := rnd_mono (not_lt.mp hge)
        _ = val (scan.score query i) := rnd_val _
    have hclose := abs_le.mp (haccurate i hi)
    linarith [hclose.1]

omit haccurate in
/-- The candidates as the answer ranks them. -/
theorem ranked_candidates (query : List F) (locations : List (HardLocation F)) {candidates : List ℕ}
    (hnodup : candidates.Nodup) : ∃ ranked : List ℕ, ranked.Perm candidates ∧
      sortBy entryCmp (entriesOf query locations candidates) = entriesOf query locations ranked ∧
      ranked.Pairwise (Before query locations) := by
  set sorted := sortBy entryCmp (entriesOf query locations candidates) with hsorted
  have hperm : sorted.Perm (entriesOf query locations candidates) := List.perm_insertionSort _ _
  have hids : (entriesOf query locations candidates).map (·.1) = candidates := by
    simp [entriesOf, Function.comp_def]
  have hentries : sorted = entriesOf query locations (sorted.map (·.1)) := by
    rw [entriesOf, List.map_map]
    conv_lhs => rw [← List.map_id sorted]
    refine List.map_congr_left fun e he => ?_
    obtain ⟨i, -, rfl⟩ := List.mem_map.mp (hperm.subset he)
    rfl
  have hbefore : sorted.Pairwise fun a b => entryCmp a b = .lt := pairwise_entryCmp (hids.symm ▸ hnodup)
  refine ⟨sorted.map (·.1), hids ▸ hperm.map (·.1), hentries, ?_⟩
  rw [hentries, entriesOf, List.pairwise_map] at hbefore
  exact hbefore

/-- **What is kept is above** what is ruled out. -/
theorem kept_above (hk : 0 < k) (hle : k ≤ locations.length)
    (hlength : (scan.scores query).length = locations.length) {ranked : List ℕ}
    (hranked : ranked.Perm (scan.candidates query locations.length k))
    (hbefore : ranked.Pairwise (Before query locations)) : (ranked.take k).length = k ∧
      ∀ i ∈ ranked.take k, val (scan.kth query k) - val (scan.bound query) ≤ val (similarity query locations i) := by
  set reaching := scan.reaching query locations.length k with hreaching
  have hnodup : ranked.Nodup := hranked.nodup_iff.mpr (List.nodup_range.filter _)
  have hreachingNodup : reaching.Nodup := List.nodup_range.filter _
  have hcount : k ≤ reaching.length := length_reaching hk hle hlength
  have hsub : reaching ⊆ ranked := fun i hi => hranked.symm.subset (of_reaching haccurate hi).1
  have hlong : k ≤ ranked.length := hcount.trans (List.subperm_of_subset hreachingNodup hsub).length_le
  have htake : (ranked.take k).length = k := by rw [List.length_take, Nat.min_eq_left hlong]
  refine ⟨htake, fun i hi => ?_⟩
  by_contra hbelow
  have hnot : i ∉ reaching := fun hin => hbelow (of_reaching haccurate hin).2
  -- with `i` among the first k, one of the k that reach the k-th best is not
  obtain ⟨j, hj, hout⟩ : ∃ j ∈ reaching, j ∉ ranked.take k := by
    by_contra hall
    have hin : ∀ j ∈ reaching, j ∈ ranked.take k := fun j hj => by
      by_contra hout
      exact hall ⟨j, hj, hout⟩
    have hcons : (i :: reaching) ⊆ ranked.take k := List.cons_subset.mpr ⟨hi, hin⟩
    have hfit := (List.subperm_of_subset (List.nodup_cons.mpr ⟨hnot, hreachingNodup⟩) hcons).length_le
    rw [List.length_cons, htake] at hfit
    omega
  have hsplit := List.take_append_drop k ranked
  have hdrop : j ∈ ranked.drop k := by
    have hmem := hsub hj
    rw [← hsplit] at hmem
    exact (List.mem_append.mp hmem).resolve_left hout
  rw [← hsplit] at hbefore
  have hij := (List.pairwise_append.mp hbefore).2.2 i hi j hdrop
  exact hbelow ((of_reaching haccurate hj).2.trans hij.le)

end

/-- The k locations of largest similarity, descending, ties going to the lower
index. -/
structure Exactly (query : List F) (locations : List (HardLocation F)) (k : ℕ) (r : List ℕ × List F) : Prop where
  count : r.1.length = k
  within : ∀ i ∈ r.1, i < locations.length
  sims : r.2 = r.1.map (similarity query locations)
  ordered : r.1.Pairwise (Before query locations)
  best : ∀ i ∈ r.1, ∀ j < locations.length, j ∉ r.1 → Before query locations i j

/-- What the pre-filter finds. -/
theorem exactly_nearest {scan : Scan F S} {query : List F} {locations : List (HardLocation F)} {k : ℕ}
    (hk : 0 < k) (hle : k ≤ locations.length) (hpos : 0 < query.length) (haccurate : scan.Accurate query locations)
    (husable : scan.usable locations.length query.length k = true) :
    Exactly query locations k (nearest query locations k scan) := by
  have hmatrix : scan.matrix.length = locations.length * query.length := by
    simp only [Scan.usable, Bool.and_eq_true, decide_eq_true_eq] at husable
    exact husable.1.1.2
  have hlength := length_scores hpos hmatrix
  have hnodup : (scan.candidates query locations.length k).Nodup := List.nodup_range.filter _
  obtain ⟨ranked, hranked, hsorted, hbefore⟩ := ranked_candidates query locations hnodup
  obtain ⟨hcount, habove⟩ := kept_above haccurate hk hle hlength hranked hbefore
  have hsplit := List.take_append_drop k ranked
  have hpair := hbefore
  rw [← hsplit] at hpair
  have hfst : ((entriesOf query locations ranked).take k).unzip =
      (ranked.take k, (ranked.take k).map (similarity query locations)) := by
    rw [entriesOf, ← List.map_take, List.unzip_eq_map, List.map_map, List.map_map]
    simp [Function.comp_def]
  rw [nearest_usable husable hlength, hsorted, hfst]
  refine
    { count := hcount
      within := fun i hi => ?_
      sims := rfl
      ordered := (List.pairwise_append.mp hpair).1
      best := fun i hi j hj hout => ?_ }
  · exact List.mem_range.mp (List.mem_of_mem_filter (hranked.subset (List.mem_of_mem_take hi)))
  · rcases mem_or_below haccurate hj with hin | hbelow
    · have hmem : j ∈ ranked.take k ++ ranked.drop k := hsplit.symm ▸ hranked.symm.subset hin
      exact (List.pairwise_append.mp hpair).2.2 i hi j ((List.mem_append.mp hmem).resolve_left hout)
    · exact Before.of_lt (hbelow.trans_le (habove i hi))

/-- An exact answer has the similarities of a plain activation. -/
theorem Exactly.sims_activate {query : List F} {locations : List (HardLocation F)} {k : ℕ} {r : List ℕ × List F}
    (h : Exactly query locations k r) (hle : k ≤ locations.length) :
    r.2.map val = (activate query locations k).2.map val := by
  have hall : ∀ i ∈ List.range locations.length, i < locations.length := fun i hi => List.mem_range.mp hi
  have hfin : FiniteSims query locations := fun loc _ => finite _
  obtain ⟨hgreatest, hsorted⟩ := greatest_topK (finite_entriesOf hfin hall).compares k
  have hinj : ∀ ids : List ℕ, ids.Nodup → (entriesOf query locations ids).Nodup := fun ids hids =>
    hids.map fun i j hij => (Prod.mk.inj hij).1
  have hnodup : r.1.Nodup := nodup_of_pairwise_before h.ordered
  have hours : Greatest rank k (entriesOf query locations (List.range locations.length))
      (entriesOf query locations r.1) := by
    refine .of_subset (hinj _ List.nodup_range) (hinj _ hnodup) ?_ ?_ fun x hx hout t ht => ?_
    · exact List.map_subset _ fun i hi => List.mem_range.mpr (h.within i hi)
    · rw [entriesOf, entriesOf, List.length_map, List.length_map, h.count, List.length_range, Nat.min_eq_left hle]
    · obtain ⟨j, hj, rfl⟩ := List.mem_map.mp hx
      obtain ⟨i, hi, rfl⟩ := List.mem_map.mp ht
      exact (h.best i hi j (List.mem_range.mp hj) fun hin => hout (List.mem_map.mpr ⟨j, hin, rfl⟩)).le
  have hpair : (entriesOf query locations r.1).Pairwise fun a b => rank b ≤ rank a :=
    List.pairwise_map.mpr (h.ordered.imp fun hij => hij.le)
  have hkeys := (hours.map_key hpair).trans (hgreatest.map_key hsorted).symm
  have hsims : r.2.map val = (entriesOf query locations r.1).map rank := by
    rw [h.sims, entriesOf, List.map_map, List.map_map]
    rfl
  rw [hsims, hkeys, activate_eq, List.unzip_eq_map, List.map_map]
  rfl

/-- **The f32 pre-filter is exact**: with scores within the error bound it
finds, where it uses them, the k locations of largest similarity in descending
order, ties going to the lower index; and in every case the similarities a
plain activation finds. -/
theorem nearest_exact {scan : Scan F S} {query : List F} {locations : List (HardLocation F)} {k : ℕ}
    (hk : 0 < k) (hle : k ≤ locations.length) (hpos : 0 < query.length) (haccurate : scan.Accurate query locations) :
    (scan.usable locations.length query.length k = true →
      Exactly query locations k (nearest query locations k scan)) ∧
      (nearest query locations k scan).2.map val = (activate query locations k).2.map val := by
  refine ⟨fun husable => exactly_nearest hk hle hpos haccurate husable, ?_⟩
  by_cases husable : scan.usable locations.length query.length k = true
  · exact (exactly_nearest hk hle hpos haccurate husable).sims_activate hle
  · unfold nearest
    dsimp only
    rw [if_neg husable]

/-! ### On three locations -/

noncomputable instance : Rounded ℚ where
  rnd := id
  finite _ := rfl
  le_iff := decide_eq_true_iff.trans Rat.cast_le.symm
  rnd_mono := monotone_id
  rnd_val _ := rfl
  val_sub x y := Rat.cast_sub x y
  val_double x := by
    show ((2 * x : ℚ) : ℝ) = 2 * (x : ℝ)
    push_cast
    rfl
  trans := by
    have heq : (totalCmp : ℚ → ℚ → Ordering) = compare := by
      funext x y
      exact (LinearOrder.compare_eq_compareOfLessAndEq x y).symm
    rw [heq]
    infer_instance
  totalCmp_of_lt {x y} h := if_pos (Rat.cast_lt.mp h)

instance : Widens ℚ ℚ where
  val_toF64 _ := rfl

/-- Two locations at one address and one more similar to the query. -/
def threePlaces : List (HardLocation ℚ) := [.new 0 [1], .new 1 [1], .new 2 [2]]

/-- A scan of them with this bound on their norms. -/
def threeScan (maxNorm : ℚ) : Scan ℚ ℚ := ⟨[1, 1, 2], maxNorm⟩

theorem accurate_threeScan {maxNorm : ℚ} (h : 0 ≤ errorBound 1 1 maxNorm) :
    (threeScan maxNorm).Accurate [1] threePlaces := by
  intro i hi
  have hall : ∀ i < 3, (threeScan 0).score [1] i = similarity [1] threePlaces i := by decide +kernel
  have hsame : (threeScan maxNorm).score [1] i = similarity [1] threePlaces i := hall i hi
  have hnorm : l2Norm (normalize [1]) = (1 : ℚ) := by decide +kernel
  have hbound : (threeScan maxNorm).bound [1] = errorBound 1 1 maxNorm := congrArg (errorBound 1 · maxNorm) hnorm
  rw [hsame, sub_self, abs_zero, hbound]
  exact Rat.cast_nonneg.mpr h

/-- A tight bound: the scores are used. -/
theorem nearest_exact_three : (threeScan 2).usable 3 1 2 = true ∧
    Exactly [1] threePlaces 2 (nearest [1] threePlaces 2 (threeScan 2)) := by
  have husable : (threeScan 2).usable 3 1 2 = true := by decide +kernel
  exact ⟨husable, (nearest_exact (by decide) (by decide) (by decide)
    (accurate_threeScan (by decide +kernel))).1 husable⟩

/-- A bound too large for the scores to be used: of two equal similarities the
heap keeps the later one. -/
theorem nearest_ties : ¬∀ (scan : Scan ℚ ℚ) (query : List ℚ) (locations : List (HardLocation ℚ)) (k : ℕ),
    0 < k → k ≤ locations.length → 0 < query.length → scan.Accurate query locations →
      Exactly query locations k (nearest query locations k scan) := by
  intro h
  have hexact := h (threeScan (10 ^ 30)) [1] threePlaces 2 (by decide) (by decide) (by decide)
    (accurate_threeScan (by decide +kernel))
  have hids : (nearest [1] threePlaces 2 (threeScan (10 ^ 30))).1 = [2, 1] := by decide +kernel
  have hbest := hexact.best 1 (by rw [hids]; decide) 0 (by decide) (by rw [hids]; decide)
  have hnot : entryCmp ((1, similarity [1] threePlaces 1) : ℕ × ℚ) (0, similarity [1] threePlaces 0) ≠ .lt := by
    decide +kernel
  exact hnot hbest

end HeatherDb
