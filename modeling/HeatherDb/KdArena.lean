/-
# The k-d tree is exact

`KdTree` of `nearest.rs` keeps its nodes in an array: a split pushes a
placeholder, builds its two sides and then takes the placeholder's place. The
points of a subtree are a range of `order`, rearranged by the standard library's
selection around the median of the widest dimension (`Selects`).

The array lays out a tree (`KdArena.Lays`): a subtree's nodes stand one after
another, so that what is built later leaves it alone (`Lays.frame`). The split
values separate the sides with points equal to them on both (`Separated`), and
the searches cut with comparisons that are strict only where equality loses
nothing: what is passed over is at least as far as the split (`le_dist2`).

This is proved for every format that compares and rounds as IEEE 754 prescribes
(`LawfulFloat`). Only a squared distance that overflows is special: it is not
below the infinity the search for the nearest point starts from
(`nearest_overflow`).

Key definitions: `KdArena.build`, `KdArena.within`, `KdArena.nearestExcluding`,
`Separated`, `NearestOf`, `KdArena.Lays`, `KdArena.Built`.
Key theorems: `within_perm`, `nearestIn_spec`, `KdArena.split_built`,
`KdArena.search_exact`, `nearest_overflow`.
-/
import HeatherDb.Mixture
import HeatherDb.Nearest
import HeatherDb.Partners

namespace HeatherDb

open Scalar Selection

variable {F : Type} [Scalar F]

/-- A format that compares and rounds as IEEE 754 prescribes, as far as the
searches rely on it. -/
class LawfulFloat (F : Type) [Scalar F] : Prop where
  lt_irrefl (x : F) : lt x x = false
  lt_trans {x y z : F} : lt x y = true → lt y z = true → lt x z = true
  le_trans {x y z : F} : le x y = true → le y z = true → le x z = true
  lt_of_le_of_lt {x y z : F} : le x y = true → lt y z = true → lt x z = true
  belowInf_of_lt {x y : F} : lt x y = true → belowInf x = true
  belowInf_of_le {x y : F} : le x y = true → belowInf y = true → belowInf x = true
  trans : Std.TransCmp (totalCmp : F → F → Ordering)
  le_of_totalCmp {x y : F} : isFinite x = true → isFinite y = true → totalCmp x y ≠ .gt → le x y = true
  /-- Differences and squares are rounded monotonously. -/
  square_below {q v x : F} : isFinite q = true → isFinite v = true → isFinite x = true → lt (q - v) (lit 0) = true →
    le v x = true → le ((q - v) * (q - v)) ((q - x) * (q - x)) = true
  square_above {q v x : F} : isFinite q = true → isFinite v = true → isFinite x = true → lt (q - v) (lit 0) = false →
    le x v = true → le ((q - v) * (q - v)) ((q - x) * (q - x)) = true
  /-- A sum of squares is no less than each. -/
  le_sum {v w : List F} : (∀ x ∈ v, isFinite x = true) → (∀ x ∈ w, isFinite x = true) →
    ∀ s ∈ List.zipWith (fun x y => (x - y) * (x - y)) v w,
      le s (sum (List.zipWith (fun x y => (x - y) * (x - y)) v w)) = true

/-! ### The array -/

/-- `Node`: the range of a leaf's points, or a split and the indices of its
sides. -/
inductive Node (F : Type) where
  | leaf (start stop : ℕ)
  | split (dim : ℕ) (value : F) (left right : ℕ)

/-- The order of the points and the nodes. -/
structure KdArena (F : Type) where
  order : List ℕ
  nodes : List (Node F)

namespace KdArena

open KdTree

/-- `order[start..stop]` -/
def slice (a : KdArena F) (start stop : ℕ) : List ℕ := (a.order.drop start).take (stop - start)

/-- The points of the leaves. -/
def leaves (a : KdArena F) : List (List ℕ) :=
  a.nodes.filterMap fun
    | .leaf start stop => some (a.slice start stop)
    | .split .. => none

section Source

variable (select : (ℕ → ℕ → Ordering) → ℕ → List ℕ → List ℕ) (points : List (List F)) (k : ℕ)

/-- The widest dimension of these points. -/
def widest (order : List ℕ) : ℕ :=
  (maxBy (fun x y => totalCmp (spread points order x) (spread points order y)) (List.range k)).getD 0

/-- Builds the subtree over `order[start..stop]`: its node and the tree after it. -/
def split (a : KdArena F) (start stop : ℕ) : ℕ × KdArena F :=
  if stop - start ≤ 8 then (a.nodes.length, { a with nodes := a.nodes ++ [.leaf start stop] })
  else
    let dim := widest points k (a.slice start stop)
    let mid := (stop - start) / 2
    let part := select (fun x y => totalCmp (coord points x dim) (coord points y dim)) mid (a.slice start stop)
    let order := a.order.take start ++ part ++ a.order.drop stop
    let value := coord points (order.getD (start + mid) 0) dim
    -- the placeholder
    let place := a.nodes.length
    let l := split ⟨order, a.nodes ++ [.leaf start stop]⟩ start (start + mid)
    let r := split l.2 (start + mid) stop
    (place, { r.2 with nodes := r.2.nodes.set place (.split dim value l.1 r.1) })
termination_by stop - start
decreasing_by all_goals omega

def build : KdArena F := (split select points k ⟨List.range points.length, []⟩ 0 points.length).2

end Source

section Search

variable (a : KdArena F) (points : List (List F)) (q : List F)

/-- `within_in`, `none` when it runs out of fuel. -/
def withinIn (r2 : F) : ℕ → ℕ → Option (List ℕ)
  | 0, _ => none
  | fuel + 1, node =>
    match a.nodes[node]? with
    | none => none
    | some (.leaf start stop) => some ((a.slice start stop).filter fun p => le (dist2 points q p) r2)
    | some (.split dim value left right) => do
      let diff := q.getD dim (lit 0) - value
      let sides := if lt diff (lit 0) then (left, right) else (right, left)
      let near ← withinIn r2 fuel sides.1
      let far ← if le (diff * diff) r2 then withinIn r2 fuel sides.2 else some []
      pure (near ++ far)

/-- Every point within squared distance `r2` of `q`. -/
def within (r2 : F) : Option (List ℕ) := a.withinIn points q r2 a.nodes.length 0

/-- A distance below the best so far. -/
def closer (d2 : F) : Option (ℕ × F) → Bool
  | none => belowInf d2
  | some b => lt d2 b.2

/-- `nearest_in`, `none` when it runs out of fuel. -/
def nearestIn (skip : ℕ) : ℕ → ℕ → Option (ℕ × F) → Option (Option (ℕ × F))
  | 0, _, _ => none
  | fuel + 1, node, best =>
    match a.nodes[node]? with
    | none => none
    | some (.leaf start stop) =>
      some ((a.slice start stop).foldl (fun best p =>
        if p = skip then best
        else if closer (dist2 points q p) best then some (p, dist2 points q p) else best) best)
    | some (.split dim value left right) => do
      let diff := q.getD dim (lit 0) - value
      let sides := if lt diff (lit 0) then (left, right) else (right, left)
      let best ← nearestIn skip fuel sides.1 best
      if closer (diff * diff) best then nearestIn skip fuel sides.2 best else pure best

/-- The point nearest `q` other than `skip`, if any. -/
def nearestExcluding (skip : ℕ) : Option (Option ℕ) :=
  (a.nearestIn points q skip a.nodes.length 0 none).map fun best => best.map (·.1)

end Search

end KdArena

/-! ### Searching a separated tree -/

/-- Points of finite coordinates in dimension `k`. -/
def FinitePoints (pts : List (List F)) (k : ℕ) : Prop := ∀ row ∈ pts, row.length = k ∧ ∀ x ∈ row, isFinite x = true

namespace KdTree

/-- The number of nodes. -/
def size : KdTree F → ℕ
  | .leaf _ => 1
  | .split _ _ left right => left.size + right.size + 1

/-- The points of the leaves, leaf by leaf. -/
def leaves : KdTree F → List (List ℕ)
  | .leaf ps => [ps]
  | .split _ _ left right => left.leaves ++ right.leaves

omit [Scalar F] in
theorem flatten_leaves : ∀ t : KdTree F, t.leaves.flatten = t.points
  | .leaf ps => List.flatten_singleton
  | .split _ _ left right => by
    rw [leaves, List.flatten_append, flatten_leaves left, flatten_leaves right, points]

/-- The split values are coordinates and separate the points of the two sides;
points at the value may be on both. -/
def Separated (pts : List (List F)) (k : ℕ) : KdTree F → Prop
  | .leaf _ => True
  | .split dim value left right =>
    dim < k ∧ isFinite value = true ∧ (∀ p ∈ left.points, le (coord pts p dim) value = true) ∧
      (∀ p ∈ right.points, le value (coord pts p dim) = true) ∧ left.Separated pts k ∧ right.Separated pts k

theorem nearestIn_leaf (pts : List (List F)) (q : List F) (skip : ℕ) (ps : List ℕ) (best : Option (ℕ × F)) :
    nearestIn pts q skip (.leaf ps) best = ps.foldl (fun best p =>
      if p = skip then best else if KdArena.closer (dist2 pts q p) best then some (p, dist2 pts q p) else best)
      best := rfl

theorem nearestIn_split (pts : List (List F)) (q : List F) (skip dim : ℕ) (value : F) (left right : KdTree F)
    (best : Option (ℕ × F)) : nearestIn pts q skip (.split dim value left right) best =
      if lt (q.getD dim (lit 0) - value) (lit 0) then
        if KdArena.closer ((q.getD dim (lit 0) - value) * (q.getD dim (lit 0) - value))
            (nearestIn pts q skip left best) then
          nearestIn pts q skip right (nearestIn pts q skip left best)
        else nearestIn pts q skip left best
      else if KdArena.closer ((q.getD dim (lit 0) - value) * (q.getD dim (lit 0) - value))
          (nearestIn pts q skip right best) then
        nearestIn pts q skip left (nearestIn pts q skip right best)
      else nearestIn pts q skip right best := rfl

section Exact

open LawfulFloat

variable {pts : List (List F)} {k dim p : ℕ} {q : List F} {value r2 : F}

omit [Scalar F] in
theorem row_mem (hp : p < pts.length) : pts.getD p [] ∈ pts := by
  rw [List.getD_eq_getElem _ _ hp]
  exact List.getElem_mem hp

theorem finite_coord (hpts : FinitePoints pts k) (hp : p < pts.length) (hdim : dim < k) :
    isFinite (coord pts p dim) = true := by
  obtain ⟨hlength, hfin⟩ := hpts _ (row_mem hp)
  rw [coord, List.getD_eq_getElem _ _ (hlength.symm ▸ hdim)]
  exact hfin _ (List.getElem_mem _)

variable [LawfulFloat F]

/-- One coordinate is no further apart than the points. -/
theorem square_le_dist2 (hpts : FinitePoints pts k) (hp : p < pts.length) (hq : q.length = k)
    (hqfin : ∀ x ∈ q, isFinite x = true) (hdim : dim < k) :
    le ((q.getD dim (lit 0) - coord pts p dim) * (q.getD dim (lit 0) - coord pts p dim)) (dist2 pts q p) = true := by
  obtain ⟨hlength, hfin⟩ := hpts _ (row_mem hp)
  have hdq : dim < q.length := hq.symm ▸ hdim
  have hdp : dim < (pts.getD p []).length := hlength.symm ▸ hdim
  refine le_sum hqfin hfin _ ?_
  rw [coord, List.getD_eq_getElem _ _ hdq, List.getD_eq_getElem _ _ hdp]
  exact List.mem_iff_getElem.mpr ⟨dim, by rw [List.length_zipWith]; exact lt_min hdq hdp, List.getElem_zipWith⟩

/-- The far side of a split is at least as far as the split. -/
theorem le_dist2 (hpts : FinitePoints pts k) (hp : p < pts.length) (hq : q.length = k)
    (hqfin : ∀ x ∈ q, isFinite x = true) (hdim : dim < k) (hvalue : isFinite value = true)
    (hside : if lt (q.getD dim (lit 0) - value) (lit 0) then le value (coord pts p dim) = true
      else le (coord pts p dim) value = true) :
    le ((q.getD dim (lit 0) - value) * (q.getD dim (lit 0) - value)) (dist2 pts q p) = true := by
  have hqdim : isFinite (q.getD dim (lit 0)) = true := by
    rw [List.getD_eq_getElem _ _ (hq.symm ▸ hdim)]
    exact hqfin _ (List.getElem_mem _)
  have hcoord := finite_coord hpts hp hdim
  refine le_trans ?_ (square_le_dist2 hpts hp hq hqfin hdim)
  by_cases hneg : lt (q.getD dim (lit 0) - value) (lit 0) = true
  · rw [if_pos hneg] at hside
    exact square_below hqdim hvalue hcoord hneg hside
  · rw [if_neg hneg] at hside
    exact square_above hqdim hvalue hcoord (Bool.eq_false_iff.mpr hneg) hside

/-- **The points within the radius**, each as often as the tree has it. -/
theorem within_perm (hpts : FinitePoints pts k) (hq : q.length = k) (hqfin : ∀ x ∈ q, isFinite x = true) :
    ∀ {t : KdTree F}, t.Separated pts k → (∀ p ∈ t.points, p < pts.length) →
      (within pts q r2 t).Perm (t.points.filter fun p => le (dist2 pts q p) r2)
  | .leaf _, _, _ => .refl _
  | .split dim value left right, ⟨hdim, hvalue, hleft, hright, hsl, hsr⟩, hlt => by
    have hltl : ∀ p ∈ left.points, p < pts.length := fun p hp => hlt p (List.mem_append_left _ hp)
    have hltr : ∀ p ∈ right.points, p < pts.length := fun p hp => hlt p (List.mem_append_right _ hp)
    have hl := within_perm hpts hq hqfin hsl hltl
    have hr := within_perm hpts hq hqfin hsr hltr
    -- nothing within the radius lies beyond a split that is further away
    have hnone : ∀ {ps : List ℕ}, (∀ p ∈ ps, p < pts.length) →
        (∀ p ∈ ps, if lt (q.getD dim (lit 0) - value) (lit 0) then le value (coord pts p dim) = true
          else le (coord pts p dim) value = true) →
        ¬le ((q.getD dim (lit 0) - value) * (q.getD dim (lit 0) - value)) r2 = true →
        ps.filter (fun p => le (dist2 pts q p) r2) = [] := by
      intro ps hps hside hfar
      refine List.filter_eq_nil_iff.mpr fun p hp hle => hfar ?_
      exact le_trans (le_dist2 hpts (hps p hp) hq hqfin hdim hvalue (hside p hp)) hle
    rw [within, points, List.filter_append]
    by_cases hneg : lt (q.getD dim (lit 0) - value) (lit 0) = true
    · rw [if_pos hneg]
      by_cases hfar : le ((q.getD dim (lit 0) - value) * (q.getD dim (lit 0) - value)) r2 = true
      · rw [if_pos hfar]
        exact hl.append hr
      · rw [if_neg hfar, hnone hltr (fun p hp => by rw [if_pos hneg]; exact hright p hp) hfar]
        exact hl.append (.refl _)
    · rw [if_neg hneg]
      by_cases hfar : le ((q.getD dim (lit 0) - value) * (q.getD dim (lit 0) - value)) r2 = true
      · rw [if_pos hfar]
        exact (hr.append hl).trans List.perm_append_comm
      · rw [if_neg hfar, hnone hltl (fun p hp => by rw [if_neg hneg]; exact hleft p hp) hfar]
        exact (hr.append (.refl _)).trans List.perm_append_comm

/-- The best of the points seen: none of them is closer, or none is at a distance
below infinity. -/
def NearestOf (pts : List (List F)) (q : List F) (skip : ℕ) (seen : List ℕ) : Option (ℕ × F) → Prop
  | none => ∀ p ∈ seen, p ≠ skip → belowInf (dist2 pts q p) = false
  | some (p, d) => p ∈ seen ∧ p ≠ skip ∧ d = dist2 pts q p ∧ belowInf d = true ∧
      ∀ p' ∈ seen, p' ≠ skip → lt (dist2 pts q p') d = false

variable {skip : ℕ} {seen more : List ℕ} {best : Option (ℕ × F)}

omit [LawfulFloat F] in
/-- Points that are no closer may be passed over. -/
theorem NearestOf.idle (h : NearestOf pts q skip seen best)
    (hmore : ∀ p ∈ more, p ≠ skip → KdArena.closer (dist2 pts q p) best = false) :
    NearestOf pts q skip (seen ++ more) best := by
  cases best with
  | none =>
    intro p hp hne
    rcases List.mem_append.mp hp with hp | hp
    · exact h p hp hne
    · exact hmore p hp hne
  | some b =>
    obtain ⟨hp, hskip, hd, hbelow, hleast⟩ := h
    refine ⟨List.mem_append_left _ hp, hskip, hd, hbelow, fun p' hp' hne => ?_⟩
    rcases List.mem_append.mp hp' with hp' | hp'
    · exact hleast p' hp' hne
    · exact hmore p' hp' hne

omit [LawfulFloat F] in
theorem NearestOf.of_mem_iff {seen' : List ℕ} (h : NearestOf pts q skip seen best)
    (hmem : ∀ p, p ∈ seen ↔ p ∈ seen') : NearestOf pts q skip seen' best := by
  cases best with
  | none => exact fun p hp => h p ((hmem p).mpr hp)
  | some b => exact ⟨(hmem _).mp h.1, h.2.1, h.2.2.1, h.2.2.2.1, fun p hp => h.2.2.2.2 p ((hmem p).mpr hp)⟩

/-- One more point is compared with the best. -/
theorem NearestOf.push (h : NearestOf pts q skip seen best) (p : ℕ) :
    NearestOf pts q skip (seen ++ [p])
      (if p = skip then best else if KdArena.closer (dist2 pts q p) best then some (p, dist2 pts q p) else best) := by
  by_cases hskip : p = skip
  · rw [if_pos hskip]
    exact h.idle fun p' hp' hne => absurd ((List.mem_singleton.mp hp').trans hskip) hne
  rw [if_neg hskip]
  by_cases hcloser : KdArena.closer (dist2 pts q p) best = true
  · rw [if_pos hcloser]
    refine ⟨List.mem_append_right _ List.mem_cons_self, hskip, rfl, ?_, fun p' hp' hne => ?_⟩
    · cases best with
      | none => exact hcloser
      | some b => exact belowInf_of_lt hcloser
    · refine Bool.eq_false_iff.mpr fun hlt => ?_
      rcases List.mem_append.mp hp' with hp' | hp'
      · cases best with
        | none => exact absurd (belowInf_of_lt hlt) (by rw [h p' hp' hne]; decide)
        | some b => exact absurd (lt_trans hlt hcloser) (by rw [h.2.2.2.2 p' hp' hne]; decide)
      · obtain rfl := List.mem_singleton.mp hp'
        exact absurd hlt (by rw [LawfulFloat.lt_irrefl]; decide)
  · rw [if_neg hcloser]
    refine h.idle fun p' hp' _ => ?_
    obtain rfl := List.mem_singleton.mp hp'
    exact Bool.eq_false_iff.mpr hcloser

/-- The points of a leaf, one after another. -/
theorem NearestOf.foldl : ∀ (ps : List ℕ) {seen : List ℕ} {best : Option (ℕ × F)}, NearestOf pts q skip seen best →
    NearestOf pts q skip (seen ++ ps) (ps.foldl (fun best p =>
      if p = skip then best else if KdArena.closer (dist2 pts q p) best then some (p, dist2 pts q p) else best) best)
  | [], _, _, h => by rwa [List.append_nil]
  | p :: ps, seen, _, h => by
    have hrest := NearestOf.foldl ps (h.push p)
    rwa [List.append_assoc, List.singleton_append] at hrest

/-- What is at least as far as the split is no closer when the split is not. -/
theorem not_closer {split d2 : F} (hle : le split d2 = true) (hsplit : ¬KdArena.closer split best = true) :
    KdArena.closer d2 best = false := by
  refine Bool.eq_false_iff.mpr fun hcloser => hsplit ?_
  cases best with
  | none => exact belowInf_of_le hle hcloser
  | some b => exact lt_of_le_of_lt hle hcloser

/-- **The search keeps the nearest** of the points it has seen or passed over. -/
theorem nearestIn_spec (hpts : FinitePoints pts k) (hq : q.length = k) (hqfin : ∀ x ∈ q, isFinite x = true) :
    ∀ {t : KdTree F} {seen : List ℕ} {best : Option (ℕ × F)}, t.Separated pts k → (∀ p ∈ t.points, p < pts.length) →
      NearestOf pts q skip seen best → NearestOf pts q skip (seen ++ t.points) (nearestIn pts q skip t best)
  | .leaf ps, _, _, _, _, h => NearestOf.foldl ps h
  | .split dim value left right, seen, best, ⟨hdim, hvalue, hleft, hright, hsl, hsr⟩, hlt, h => by
    have hltl : ∀ p ∈ left.points, p < pts.length := fun p hp => hlt p (List.mem_append_left _ hp)
    have hltr : ∀ p ∈ right.points, p < pts.length := fun p hp => hlt p (List.mem_append_right _ hp)
    rw [nearestIn_split, points]
    by_cases hneg : lt (q.getD dim (lit 0) - value) (lit 0) = true
    · rw [if_pos hneg, ← List.append_assoc]
      have hnear := nearestIn_spec hpts hq hqfin hsl hltl h
      split_ifs with hfar
      · exact nearestIn_spec hpts hq hqfin hsr hltr hnear
      · refine hnear.idle fun p hp _ => not_closer ?_ hfar
        exact le_dist2 hpts (hltr p hp) hq hqfin hdim hvalue (by rw [if_pos hneg]; exact hright p hp)
    · rw [if_neg hneg]
      have hnear := nearestIn_spec hpts hq hqfin hsr hltr h
      have hmem : ∀ p, p ∈ seen ++ right.points ++ left.points ↔ p ∈ seen ++ (left.points ++ right.points) := by
        intro p
        simp only [List.mem_append]
        tauto
      split_ifs with hfar
      · exact (nearestIn_spec hpts hq hqfin hsl hltl hnear).of_mem_iff hmem
      · refine NearestOf.of_mem_iff (hnear.idle fun p hp _ => not_closer ?_ hfar) hmem
        exact le_dist2 hpts (hltl p hp) hq hqfin hdim hvalue (by rw [if_neg hneg]; exact hleft p hp)

end Exact

end KdTree

/-! ### The tree in the array -/

namespace KdArena

open KdTree

variable {a a' : KdArena F} {i start stop : ℕ}

/-- The nodes from `i` on are those of the tree, over `order[start..stop]`. -/
def Lays (a : KdArena F) : KdTree F → ℕ → ℕ → ℕ → Prop
  | .leaf ps, i, start, stop => a.nodes[i]? = some (.leaf start stop) ∧ ps = a.slice start stop
  | .split dim value left right, i, start, stop => ∃ mid, start ≤ mid ∧ mid ≤ stop ∧
      a.nodes[i]? = some (.split dim value (i + 1) (i + 1 + left.size)) ∧
      Lays a left (i + 1) start mid ∧ Lays a right (i + 1 + left.size) mid stop

omit [Scalar F] in
theorem slice_append (a : KdArena F) {mid : ℕ} (hle : start ≤ mid) (hle' : mid ≤ stop) :
    a.slice start mid ++ a.slice mid stop = a.slice start stop := by
  have hsum : stop - start = (mid - start) + (stop - mid) := by omega
  have hdrop : a.order.drop mid = (a.order.drop start).drop (mid - start) := by
    rw [List.drop_drop]
    congr 1
    omega
  rw [slice, slice, slice, hsum, List.take_add, hdrop]

omit [Scalar F] in
theorem slice_congr (h : ∀ j, start ≤ j → j < stop → a'.order[j]? = a.order[j]?) :
    a'.slice start stop = a.slice start stop := by
  refine List.ext_getElem? fun j => ?_
  rw [slice, slice, List.getElem?_take, List.getElem?_take, List.getElem?_drop, List.getElem?_drop]
  by_cases hj : j < stop - start
  · rw [if_pos hj, if_pos hj, h _ (by omega) (by omega)]
  · rw [if_neg hj, if_neg hj]

omit [Scalar F] in
/-- The leaves are ranges one after another. -/
theorem Lays.points_eq : ∀ {t : KdTree F} {i start stop : ℕ}, a.Lays t i start stop → t.points = a.slice start stop
  | .leaf _, _, _, _, h => h.2
  | .split _ _ _ _, _, _, _, ⟨_, hle, hle', _, hl, hr⟩ => by
    rw [points, hl.points_eq, hr.points_eq, slice_append a hle hle']

omit [Scalar F] in
/-- **What is built elsewhere leaves a subtree alone.** -/
theorem Lays.frame : ∀ {t : KdTree F} {i start stop : ℕ}, a.Lays t i start stop →
    (∀ j, i ≤ j → j < i + t.size → a'.nodes[j]? = a.nodes[j]?) →
    (∀ j, start ≤ j → j < stop → a'.order[j]? = a.order[j]?) → a'.Lays t i start stop
  | .leaf _, i, _, _, ⟨hnode, hpoints⟩, hnodes, horder => by
    refine ⟨?_, hpoints.trans (slice_congr horder).symm⟩
    rw [hnodes i le_rfl (Nat.lt_succ_self i), hnode]
  | .split _ _ left right, i, _, _, ⟨mid, hle, hle', hnode, hl, hr⟩, hnodes, horder => by
    rw [KdTree.size] at hnodes
    refine ⟨mid, hle, hle', ?_, hl.frame (fun j hj hj' => hnodes j ?_ ?_) (fun j hj hj' => horder j ?_ ?_),
      hr.frame (fun j hj hj' => hnodes j ?_ ?_) (fun j hj hj' => horder j ?_ ?_)⟩
    · rw [hnodes i le_rfl (by omega), hnode]
    all_goals omega

/-! ### The searches of the array are those of the tree -/

variable {pts : List (List F)} {q : List F}

theorem withinIn_eq (r2 : F) : ∀ {t : KdTree F} {i start stop fuel : ℕ}, a.Lays t i start stop → t.size ≤ fuel →
    a.withinIn pts q r2 fuel i = some (KdTree.within pts q r2 t)
  | .leaf ps, i, start, stop, fuel + 1, ⟨hnode, hpoints⟩, _ => by
    rw [withinIn, hnode, KdTree.within, hpoints]
  | .split dim value left right, i, start, stop, fuel + 1, ⟨mid, _, _, hnode, hl, hr⟩, hfuel => by
    have hfuel : left.size + right.size + 1 ≤ fuel + 1 := hfuel
    have hleft := withinIn_eq r2 hl (by omega : left.size ≤ fuel)
    have hright := withinIn_eq r2 hr (by omega : right.size ≤ fuel)
    rw [withinIn, hnode, KdTree.within]
    dsimp only
    by_cases hneg : lt (q.getD dim (lit 0) - value) (lit 0) = true
    · rw [if_pos hneg, if_pos hneg]
      dsimp only
      rw [hleft, hright]
      split_ifs <;> rfl
    · rw [if_neg hneg, if_neg hneg]
      dsimp only
      rw [hleft, hright]
      split_ifs <;> rfl

theorem nearestIn_eq (skip : ℕ) : ∀ {t : KdTree F} {i start stop fuel : ℕ} {best : Option (ℕ × F)},
    a.Lays t i start stop → t.size ≤ fuel →
    a.nearestIn pts q skip fuel i best = some (KdTree.nearestIn pts q skip t best)
  | .leaf ps, i, start, stop, fuel + 1, best, ⟨hnode, hpoints⟩, _ => by
    rw [nearestIn, hnode, nearestIn_leaf, hpoints]
  | .split dim value left right, i, start, stop, fuel + 1, best, ⟨mid, _, _, hnode, hl, hr⟩, hfuel => by
    have hfuel : left.size + right.size + 1 ≤ fuel + 1 := hfuel
    have hleft : ∀ best, a.nearestIn pts q skip fuel (i + 1) best = some (KdTree.nearestIn pts q skip left best) :=
      fun _ => nearestIn_eq skip hl (by omega)
    have hright : ∀ best, a.nearestIn pts q skip fuel (i + 1 + left.size) best =
        some (KdTree.nearestIn pts q skip right best) :=
      fun _ => nearestIn_eq skip hr (by omega)
    rw [nearestIn, hnode, nearestIn_split]
    dsimp only
    by_cases hneg : lt (q.getD dim (lit 0) - value) (lit 0) = true
    · rw [if_pos hneg, if_pos hneg]
      dsimp only
      rw [hleft]
      simp only [Option.bind_eq_bind, Option.bind_some, hright]
      split_ifs <;> rfl
    · rw [if_neg hneg, if_neg hneg]
      dsimp only
      rw [hright]
      simp only [Option.bind_eq_bind, Option.bind_some, hleft]
      split_ifs <;> rfl

/-! ### Building -/

/-- The order with a range replaced. -/
theorem getElem?_rearranged {order part : List ℕ} (hle : start ≤ stop) (hstop : stop ≤ order.length)
    (hpart : part.length = stop - start) (j : ℕ) :
    (order.take start ++ part ++ order.drop stop)[j]? =
      if start ≤ j ∧ j < stop then part[j - start]? else order[j]? := by
  have htake : (order.take start).length = start := List.length_take_of_le (hle.trans hstop)
  rcases Nat.lt_or_ge j start with hj | hj
  · rw [List.append_assoc, List.getElem?_append_left (htake.symm ▸ hj), List.getElem?_take_of_lt hj,
      if_neg fun h => h.1.not_gt hj]
  rcases Nat.lt_or_ge j stop with hj' | hj'
  · rw [List.getElem?_append_left (by rw [List.length_append, htake, hpart]; omega),
      List.getElem?_append_right (htake.symm ▸ hj), htake, if_pos ⟨hj, hj'⟩]
  · have hlength : (order.take start ++ part).length = stop := by rw [List.length_append, htake, hpart]; omega
    rw [List.getElem?_append_right (hlength.symm ▸ hj'), hlength, List.getElem?_drop, if_neg fun h => h.2.not_ge hj']
    congr 1
    omega

theorem length_rearranged {order part : List ℕ} (hle : start ≤ stop) (hstop : stop ≤ order.length)
    (hpart : part.length = stop - start) : (order.take start ++ part ++ order.drop stop).length = order.length := by
  rw [List.length_append, List.length_append, List.length_take, List.length_drop, hpart]
  omega

omit [Scalar F] in
/-- A slice within the range is one of what replaced it. -/
theorem slice_rearranged {order part : List ℕ} (nodes : List (Node F)) (hle : start ≤ stop)
    (hstop : stop ≤ order.length) (hpart : part.length = stop - start) {s e : ℕ} (hs : start ≤ s) (he : e ≤ stop) :
    (⟨order.take start ++ part ++ order.drop stop, nodes⟩ : KdArena F).slice s e =
      (part.drop (s - start)).take (e - s) := by
  refine List.ext_getElem? fun j => ?_
  rw [slice, List.getElem?_take, List.getElem?_take, List.getElem?_drop, List.getElem?_drop]
  by_cases hj : j < e - s
  · rw [if_pos hj, if_pos hj]
    refine (getElem?_rearranged hle hstop hpart (s + j)).trans ?_
    rw [if_pos ⟨by omega, by omega⟩]
    congr 1
    omega
  · rw [if_neg hj, if_neg hj]

/-- What building a subtree does to the array: new nodes at its end that lay out
the subtree, and its range of the order rearranged. -/
structure Built (pts : List (List F)) (k : ℕ) (a a' : KdArena F) (start stop : ℕ) (t : KdTree F) : Prop where
  nodes : a'.nodes.length = a.nodes.length + t.size
  before : ∀ j < a.nodes.length, a'.nodes[j]? = a.nodes[j]?
  length : a'.order.length = a.order.length
  outside : ∀ j, j < start ∨ stop ≤ j → a'.order[j]? = a.order[j]?
  perm : (a'.slice start stop).Perm (a.slice start stop)
  lays : a'.Lays t a.nodes.length start stop
  separated : t.Separated pts k

section Build

variable {select : (ℕ → ℕ → Ordering) → ℕ → List ℕ → List ℕ} {k : ℕ}

open LawfulFloat

theorem totalOn_totalCmp [LawfulFloat F] (f : ℕ → F) (ps : List ℕ) : TotalOn (fun x y => totalCmp (f x) (f y)) ps := by
  have htrans : Std.TransCmp (totalCmp : F → F → Ordering) := trans
  have hle : ∀ {o : Ordering}, o ≠ .gt ↔ o.isLE = true := by
    intro o
    cases o <;> decide
  refine ⟨fun x _ y _ => htrans.eq_swap, fun x _ y _ z _ hxy hyz => ?_⟩
  exact hle.mpr (htrans.isLE_trans (hle.mp hxy) (hle.mp hyz))

theorem widest_lt (hk : 0 < k) (pts : List (List F)) (order : List ℕ) : widest pts k order < k := by
  unfold widest
  cases hmax : maxBy (fun x y => totalCmp (spread pts order x) (spread pts order y)) (List.range k) with
  | none => exact hk
  | some dim => exact List.mem_range.mp (maxBy_mem hmax)

/-- **The median separates**: what the selection puts before it is not above
it, and what it puts after it is not below. -/
theorem separated_median [LawfulFloat F] (hpts : FinitePoints pts k) {dim mid : ℕ} {points part : List ℕ}
    {l r : KdTree F} (hdim : dim < k) (hmid : mid < part.length) (hvalid : ∀ p ∈ part, p < pts.length)
    (hselected : Selected (fun x y => totalCmp (coord pts x dim) (coord pts y dim)) mid points part)
    (hlpoints : ∀ p ∈ l.points, p ∈ part.take mid) (hrpoints : ∀ p ∈ r.points, p ∈ part.drop mid)
    (hl : l.Separated pts k) (hr : r.Separated pts k) :
    (KdTree.split dim (coord pts part[mid] dim) l r).Separated pts k := by
  have hpivot : part[mid]? = some part[mid] := List.getElem?_eq_getElem hmid
  have hfinite : ∀ p ∈ part, isFinite (coord pts p dim) = true := fun p hp => finite_coord hpts (hvalid p hp) hdim
  have hmedian := hfinite _ (List.getElem_mem hmid)
  refine ⟨hdim, hmedian, fun p hp => ?_, fun p hp => ?_, hl, hr⟩
  · have hin := hlpoints p hp
    exact le_of_totalCmp (hfinite p (List.mem_of_mem_take hin)) hmedian (hselected.before _ hpivot p hin)
  · have hin := hrpoints p hp
    rw [List.drop_eq_getElem_cons hmid, List.mem_cons] at hin
    rcases hin with rfl | hin
    · have htrans : Std.TransCmp (totalCmp : F → F → Ordering) := trans
      have hself : totalCmp (coord pts part[mid] dim) (coord pts part[mid] dim) = .eq := Std.ReflCmp.compare_self
      exact le_of_totalCmp hmedian hmedian (by rw [hself]; decide)
    · exact le_of_totalCmp hmedian (hfinite p (List.mem_of_mem_drop hin)) (hselected.after _ hpivot p hin)

/-- A leaf. -/
theorem built_leaf (a : KdArena F) (start stop : ℕ) :
    Built pts k a { a with nodes := a.nodes ++ [.leaf start stop] } start stop (.leaf (a.slice start stop)) where
  nodes := by simp [KdTree.size]
  before j hj := List.getElem?_append_left hj
  length := rfl
  outside _ _ := rfl
  perm := .refl _
  lays := ⟨by simp, rfl⟩
  separated := trivial

/-- Two subtrees, and the split in the place of its placeholder. -/
theorem Built.join {a a₁ a₂ a₃ : KdArena F} {mid dim : ℕ} {value : F} {l r : KdTree F} (hle : start ≤ mid)
    (hle' : mid ≤ stop) (hnodes : a₁.nodes = a.nodes ++ [.leaf start stop]) (hlength : a₁.order.length = a.order.length)
    (houtside : ∀ j, j < start ∨ stop ≤ j → a₁.order[j]? = a.order[j]?)
    (hperm : (a₁.slice start stop).Perm (a.slice start stop)) (hl : Built pts k a₁ a₂ start mid l)
    (hr : Built pts k a₂ a₃ mid stop r) (hseparated : (KdTree.split dim value l r).Separated pts k) :
    Built pts k a
      { a₃ with nodes := a₃.nodes.set a.nodes.length (.split dim value a₁.nodes.length a₂.nodes.length) }
      start stop (.split dim value l r) := by
  have hone : a₁.nodes.length = a.nodes.length + 1 := by rw [hnodes, List.length_append, List.length_singleton]
  have htwo : a₂.nodes.length = a.nodes.length + 1 + l.size := by rw [hl.nodes, hone]
  have hthree : a₃.nodes.length = a.nodes.length + 1 + l.size + r.size := by rw [hr.nodes, htwo]
  have hsliceLeft : a₃.slice start mid = a₂.slice start mid := slice_congr fun j _ hj => hr.outside j (Or.inl hj)
  have hsliceRight : a₂.slice mid stop = a₁.slice mid stop := slice_congr fun j hj _ => hl.outside j (Or.inr hj)
  constructor
  · rw [List.length_set, hthree, KdTree.size]
    omega
  · intro j hj
    rw [List.getElem?_set_ne hj.ne', hr.before j (by omega), hl.before j (by omega), hnodes,
      List.getElem?_append_left hj]
  · rw [hr.length, hl.length, hlength]
  · intro j hj
    rw [hr.outside j (hj.imp_left fun h => h.trans_le hle), hl.outside j (hj.imp_right hle'.trans), houtside j hj]
  · refine List.Perm.trans ?_ hperm
    show (a₃.slice start stop).Perm (a₁.slice start stop)
    rw [← slice_append a₃ hle hle', ← slice_append a₁ hle hle', hsliceLeft, ← hsliceRight]
    exact hl.perm.append hr.perm
  · refine ⟨mid, hle, hle', ?_, ?_, ?_⟩
    · rw [List.getElem?_set_self (by omega), hone, htwo]
    · refine (hone ▸ hl.lays).frame (fun j hj hj' => ?_) fun j _ hj => hr.outside j (Or.inl hj)
      rw [List.getElem?_set_ne (by omega), hr.before j (by omega)]
    · refine (htwo ▸ hr.lays).frame (fun j hj _ => ?_) fun j _ _ => rfl
      rw [List.getElem?_set_ne (by omega)]
  · exact hseparated

variable [LawfulFloat F]

/-- **Building a subtree**: it ends, and the array lays out a separated tree of
the range's points. -/
theorem split_built (hselect : Selects select) (hpts : FinitePoints pts k) (hk : 0 < k) :
    ∀ (n : ℕ) (a : KdArena F) (start stop : ℕ), stop - start ≤ n → start ≤ stop → stop ≤ a.order.length →
      (∀ p ∈ a.slice start stop, p < pts.length) →
      ∃ t, (a.split select pts k start stop).1 = a.nodes.length ∧
        Built pts k a (a.split select pts k start stop).2 start stop t := by
  intro n
  induction n with
  | zero =>
    intro a start stop hn _ _ _
    rw [split, if_pos (by omega)]
    exact ⟨_, rfl, built_leaf a start stop⟩
  | succ n ih =>
    intro a start stop hn hle hstop hvalid
    rw [split]
    by_cases hsmall : stop - start ≤ 8
    · rw [if_pos hsmall]
      exact ⟨_, rfl, built_leaf a start stop⟩
    rw [if_neg hsmall]
    dsimp only
    set dim := widest pts k (a.slice start stop) with hdim
    set mid := (stop - start) / 2 with hmid
    set part := select (fun x y => totalCmp (coord pts x dim) (coord pts y dim)) mid (a.slice start stop) with hpart
    have hslice : (a.slice start stop).length = stop - start := by
      rw [slice, List.length_take, List.length_drop]
      omega
    have hselected : Selected _ mid (a.slice start stop) part := hselect _ mid (a.slice start stop) (by omega)
      (totalOn_totalCmp (fun p => coord pts p dim) (a.slice start stop))
    have hlength : part.length = stop - start := hselected.perm.length_eq.trans hslice
    have hmidlt : mid < part.length := by omega
    have hvalidPart : ∀ p ∈ part, p < pts.length := fun p hp => hvalid p (hselected.perm.subset hp)
    have hget := getElem?_rearranged hle hstop hlength
    -- the order with the range rearranged, and a placeholder
    set a₁ : KdArena F := ⟨a.order.take start ++ part ++ a.order.drop stop, a.nodes ++ [.leaf start stop]⟩ with ha₁
    have hwhole : a₁.slice start stop = part := by
      rw [slice_rearranged _ hle hstop hlength le_rfl le_rfl, Nat.sub_self, List.drop_zero,
        List.take_of_length_le hlength.le]
    have hfirst : a₁.slice start (start + mid) = part.take mid := by
      rw [slice_rearranged _ hle hstop hlength le_rfl (by omega), Nat.sub_self, List.drop_zero, Nat.add_sub_cancel_left]
    have hsecond : a₁.slice (start + mid) stop = part.drop mid := by
      rw [slice_rearranged _ hle hstop hlength (Nat.le_add_right _ _) le_rfl, Nat.add_sub_cancel_left,
        List.take_of_length_le]
      rw [List.length_drop]
      omega
    have houtside : ∀ j, j < start ∨ stop ≤ j → a₁.order[j]? = a.order[j]? := fun j hj =>
      (hget j).trans (if_neg fun h => hj.elim h.1.not_gt h.2.not_ge)
    have horder : a₁.order.length = a.order.length := length_rearranged hle hstop hlength
    obtain ⟨l, hlfst, hl⟩ := ih a₁ start (start + mid) (by omega) (by omega) (by omega) fun p hp =>
      hvalidPart p (List.mem_of_mem_take (hfirst ▸ hp))
    set sl := a₁.split select pts k start (start + mid) with hsl
    have hsecond' : sl.2.slice (start + mid) stop = part.drop mid :=
      (slice_congr fun j hj _ => hl.outside j (Or.inr hj)).trans hsecond
    obtain ⟨r, hrfst, hr⟩ := ih sl.2 (start + mid) stop (by omega) (by omega) (by rw [hl.length]; omega) fun p hp =>
      hvalidPart p (List.mem_of_mem_drop (hsecond' ▸ hp))
    set sr := sl.2.split select pts k (start + mid) stop with hsr
    have hvalue : a₁.order.getD (start + mid) 0 = part[mid] := by
      rw [List.getD_eq_getElem?_getD, hget, if_pos ⟨by omega, by omega⟩, Nat.add_sub_cancel_left,
        List.getElem?_eq_getElem hmidlt]
      rfl
    have hseparated : (KdTree.split dim (coord pts (a₁.order.getD (start + mid) 0) dim) l r).Separated pts k := by
      rw [hvalue]
      exact separated_median hpts (widest_lt hk _ _) hmidlt hvalidPart hselected
        (fun p hp => hfirst ▸ hl.perm.subset (hl.lays.points_eq ▸ hp))
        (fun p hp => hsecond' ▸ hr.perm.subset (hr.lays.points_eq ▸ hp)) hl.separated hr.separated
    have hjoin := Built.join (by omega : start ≤ start + mid) (by omega : start + mid ≤ stop) rfl horder
      houtside (hwhole.symm ▸ hselected.perm) hl hr hseparated
    rw [hlfst, hrfst]
    exact ⟨_, rfl, hjoin⟩

end Build

omit [Scalar F] in
/-- The leaves of the array are those of the tree. -/
theorem Lays.leaves_eq : ∀ {t : KdTree F} {i start stop : ℕ}, a.Lays t i start stop →
    (((a.nodes.drop i).take t.size).filterMap fun
      | .leaf start stop => some (a.slice start stop)
      | .split .. => none) = t.leaves
  | .leaf ps, i, _, _, ⟨hnode, hpoints⟩ => by
    obtain ⟨hi, hget⟩ := List.getElem?_eq_some_iff.mp hnode
    rw [List.drop_eq_getElem_cons hi, hget, KdTree.size, List.take_succ_cons, List.take_zero, hpoints]
    rfl
  | .split _ _ left right, i, _, _, ⟨_, _, _, hnode, hl, hr⟩ => by
    obtain ⟨hi, hget⟩ := List.getElem?_eq_some_iff.mp hnode
    rw [List.drop_eq_getElem_cons hi, hget, KdTree.size, List.take_succ_cons,
      List.filterMap_cons_none rfl, List.take_add, List.drop_drop, List.filterMap_append, hl.leaves_eq,
      hr.leaves_eq, KdTree.leaves]

/-- The nearest other point, if there is one. -/
def NearestOther (pts : List (List F)) (q : List F) (skip : ℕ) : Option ℕ → Prop
  | none => ∀ p < pts.length, p = skip
  | some p => p < pts.length ∧ p ≠ skip ∧
      ∀ p' < pts.length, p' ≠ skip → lt (dist2 pts q p') (dist2 pts q p) = false

/-- **The tree is exact.** Its leaves partition the points; the search of a
radius ends with every point within it once; the search for the nearest ends
with the nearest other point, where the distances do not overflow. -/
theorem search_exact [LawfulFloat F] {select : (ℕ → ℕ → Ordering) → ℕ → List ℕ → List ℕ} (hselect : Selects select)
    {k : ℕ} (hk : 0 < k) {pts : List (List F)} (hpts : FinitePoints pts k) :
    (build select pts k).leaves.flatten.Perm (List.range pts.length) ∧
      ∀ q : List F, q.length = k → (∀ x ∈ q, isFinite x = true) →
        (∀ r2, ∃ found, (build select pts k).within pts q r2 = some found ∧ found.Nodup ∧
          ∀ p, p ∈ found ↔ p < pts.length ∧ le (dist2 pts q p) r2 = true) ∧
        ∀ skip, (∀ p < pts.length, p ≠ skip → belowInf (dist2 pts q p) = true) →
          ∃ r, (build select pts k).nearestExcluding pts q skip = some r ∧ NearestOther pts q skip r := by
  have hall : (⟨List.range pts.length, []⟩ : KdArena F).slice 0 pts.length = List.range pts.length := by
    rw [slice, List.drop_zero, Nat.sub_zero, List.take_of_length_le List.length_range.le]
  obtain ⟨t, -, hbuilt⟩ := split_built hselect hpts hk pts.length ⟨List.range pts.length, []⟩ 0 pts.length le_rfl
    (Nat.zero_le _) List.length_range.ge fun p hp => List.mem_range.mp (hall ▸ hp)
  have hlays : (build select pts k).Lays t 0 0 pts.length := hbuilt.lays
  have hsize : (build select pts k).nodes.length = t.size := hbuilt.nodes.trans (Nat.zero_add _)
  have hpoints : t.points.Perm (List.range pts.length) :=
    (List.Perm.of_eq hlays.points_eq).trans (hall ▸ hbuilt.perm)
  have hmem : ∀ p, p ∈ t.points ↔ p < pts.length := fun p => hpoints.mem_iff.trans List.mem_range
  have hlt : ∀ p ∈ t.points, p < pts.length := fun p hp => (hmem p).mp hp
  refine ⟨?_, fun q hq hqfin => ⟨fun r2 => ?_, fun skip hbelow => ?_⟩⟩
  · have hleaves := hlays.leaves_eq
    rw [List.drop_zero, ← hsize, List.take_length] at hleaves
    rw [leaves, hleaves, flatten_leaves]
    exact hpoints
  · have hperm : (KdTree.within pts q r2 t).Perm (t.points.filter fun p => le (dist2 pts q p) r2) :=
      within_perm hpts hq hqfin hbuilt.separated hlt
    refine ⟨_, withinIn_eq r2 hlays hsize.ge, ?_, fun p => ?_⟩
    · exact hperm.nodup_iff.mpr ((hpoints.nodup_iff.mpr List.nodup_range).filter _)
    · rw [hperm.mem_iff, List.mem_filter, hmem]
  · have hnone : NearestOf pts q skip [] none := fun p hp => absurd hp List.not_mem_nil
    have hnearest : NearestOf pts q skip t.points (KdTree.nearestIn pts q skip t none) :=
      nearestIn_spec hpts hq hqfin hbuilt.separated hlt hnone
    refine ⟨(KdTree.nearestIn pts q skip t none).map (·.1), ?_, ?_⟩
    · rw [nearestExcluding, nearestIn_eq skip hlays hsize.ge]
      rfl
    · cases hbest : KdTree.nearestIn pts q skip t none with
      | none =>
        rw [hbest] at hnearest
        intro p hp
        by_contra hne
        have hno := hnearest p ((hmem p).mpr hp) hne
        rw [hbelow p hp hne] at hno
        exact absurd hno (by decide)
      | some b =>
        rw [hbest] at hnearest
        obtain ⟨hp, hne, hd, -, hleast⟩ := hnearest
        exact ⟨hlt _ hp, hne, fun p' hp' hne' => hd ▸ hleast p' ((hmem p').mpr hp') hne'⟩

/-! ### Exact arithmetic, and a format that overflows -/

theorem sum_zipWith_nonneg (v w : List ℝ) : ∀ s ∈ List.zipWith (fun x y => (x - y) * (x - y)) v w, 0 ≤ s := by
  intro s hs
  obtain ⟨i, hi, rfl⟩ := List.mem_iff_getElem.mp hs
  rw [List.getElem_zipWith]
  exact mul_self_nonneg _

instance : LawfulFloat ℝ where
  lt_irrefl x := Bool.eq_false_iff.mpr (mt lt_real.mp (fun h : x < x => h.ne rfl))
  lt_trans hxy hyz := lt_real.mpr ((lt_real.mp hxy).trans (lt_real.mp hyz))
  le_trans hxy hyz := le_real.mpr ((le_real.mp hxy).trans (le_real.mp hyz))
  lt_of_le_of_lt hxy hyz := lt_real.mpr ((le_real.mp hxy).trans_lt (lt_real.mp hyz))
  belowInf_of_lt _ := rfl
  belowInf_of_le _ _ := rfl
  trans := Rounded.trans
  le_of_totalCmp _ _ h := le_real.mpr (KdTree.totalCmp_ne_gt_real.mp h)
  square_below {q v x} _ _ _ hneg hle := by
    have hneg : q - v < 0 := by simpa using lt_real.mp hneg
    have hle : v ≤ x := le_real.mp hle
    exact le_real.mpr (by nlinarith)
  square_above {q v x} _ _ _ hneg hle := by
    have hneg : ¬q - v < 0 := by simpa using mt lt_real.mpr (Bool.eq_false_iff.mp hneg)
    have hle : x ≤ v := le_real.mp hle
    exact le_real.mpr (by nlinarith)
  le_sum {v w} _ _ s hs := by
    rw [sum_real]
    exact le_real.mpr (List.single_le_sum (sum_zipWith_nonneg v w) s hs)

/-- Nine points on a line, one more than a leaf takes. -/
noncomputable def nine : List (List ℝ) := (List.range 9).map fun i => [(i : ℝ)]

theorem finite_nine : FinitePoints nine 1 := by
  intro row hrow
  obtain ⟨i, -, rfl⟩ := List.mem_map.mp hrow
  exact ⟨rfl, fun _ _ => rfl⟩

/-- They are split once. -/
theorem leaves_nine (select : (ℕ → ℕ → Ordering) → ℕ → List ℕ → List ℕ) : (build select nine 1).leaves.length = 2 := by
  have hlength : nine.length = 9 := by simp [nine]
  unfold build
  rw [hlength, split, if_neg (by decide)]
  dsimp only
  rw [split, if_pos (by decide), split, if_pos (by decide)]
  simp [leaves]

/-- Both sides are searched: all points within distance 5 of the first, and the
nearest other one to it. -/
theorem search_exact_nine : (build scanFirst nine 1).leaves.length = 2 ∧
    (build scanFirst nine 1).leaves.flatten.Perm (List.range 9) ∧
    (∃ found, (build scanFirst nine 1).within nine [0] 25 = some found ∧ found.Nodup ∧
      ∀ p, p ∈ found ↔ p < 9 ∧ le (dist2 nine [0] p) 25 = true) ∧
    ∃ r, (build scanFirst nine 1).nearestExcluding nine [0] 0 = some r ∧ NearestOther nine [0] 0 r := by
  have hlength : nine.length = 9 := by simp [nine]
  obtain ⟨hleaves, hsearch⟩ := search_exact selects_scanFirst Nat.one_pos finite_nine
  obtain ⟨hwithin, hnearest⟩ := hsearch [0] rfl fun _ _ => rfl
  rw [hlength] at hleaves
  have hfound := hwithin 25
  rw [hlength] at hfound
  exact ⟨leaves_nine _, hleaves, hfound, hnearest 0 fun _ _ _ => rfl⟩

/-- Two points whose squared distance overflows: neither is found from the
other. -/
theorem nearest_overflow : ¬∀ select : (ℕ → ℕ → Ordering) → ℕ → List ℕ → List ℕ, Selects select →
    ∀ (k : ℕ) (pts : List (List Wide)), 0 < k → FinitePoints pts k →
      ∀ q : List Wide, q.length = k → (∀ x ∈ q, isFinite x = true) → ∀ skip r,
        (build select pts k).nearestExcluding pts q skip = some r → NearestOther pts q skip r := by
  intro h
  have hbuild : build scanFirst [[Wide.rat (-10 ^ 200)], [Wide.rat (10 ^ 200)]] 1 = ⟨[0, 1], [.leaf 0 2]⟩ := by
    rw [build, split, if_pos (by decide)]
    rfl
  have hpts : FinitePoints [[Wide.rat (-10 ^ 200)], [Wide.rat (10 ^ 200)]] 1 := by
    intro row hrow
    rcases List.mem_pair.mp hrow with rfl | rfl
    · exact ⟨rfl, by decide⟩
    · exact ⟨rfl, by decide⟩
  have hnone := h scanFirst selects_scanFirst 1 [[.rat (-10 ^ 200)], [.rat (10 ^ 200)]] Nat.one_pos hpts
    [.rat (-10 ^ 200)] rfl (by decide) 0 none (by rw [hbuild]; decide +kernel)
  exact absurd (hnone 1 (by decide)) (by decide)

end KdArena

end HeatherDb
