/-
# Attention reads

The raw dot-product attention of `collection.rs` with the activations of
`read.rs` behind it: by a scan of the address matrix, of the locations, or of
the candidates that are left when some locations are barred. The trace names
the locations that contributed, by their index.

Barring locations is the same as not having them
(`barring_is_removing`): the heap of an activation sees similarities only,
so it does the same under other indices (`topK_renumber`), and it is bounded
by how many candidates there are (`topK_min`).

Key definitions: `softmax`, `weightedSum`, `attentionLocked`, `readAttentionTraced`,
`readAttentionExcluding`, `EAMInner.without`.
Key theorems: `topK_renumber`, `activateAutoFull_eq`, `attentionLocked_without`,
`barring_is_removing`.
-/
import HeatherDb.Index

namespace HeatherDb

open Scalar Narrow BinaryHeap

/-- What attention uses of a float format beside its arithmetic. -/
class Exponential (F : Type) where
  exp : F → F
  /-- `f64::NEG_INFINITY` -/
  negInf : F

open Exponential

variable {F S : Type} [Scalar F] [Narrow F S]

/-! ### Weights and values -/

/-- `x.abs()` -/
def fabs (x : F) : F := if lt x (lit 0) then -x else x

namespace HardLocation

/-- The stored pattern `c_i / n_i`, zero when the write count is near zero. -/
def normalizedPattern (loc : HardLocation F) : List F :=
  if lt (fabs loc.writeCount) (lit (1 / 10 ^ 12)) then List.replicate loc.counter.length (lit 0)
  else loc.counter.map (· / loc.writeCount)

/-- The stored pattern with unit norm. -/
def unitPattern (loc : HardLocation F) : List F := normalize loc.normalizedPattern

end HardLocation

/-- Softmax with inverse temperature `beta`; uniform when the greatest value
is not finite. -/
def softmax [Exponential F] (values : List F) (beta : F) : List F :=
  if values.isEmpty then []
  else
    let maxVal := values.foldl fmax negInf
    if !isFinite maxVal then List.replicate values.length (lit 1 / ofUsize values.length)
    else
      let exps := values.map fun v => exp ((v - maxVal) * beta)
      exps.map (· / sum exps)

theorem length_softmax [Exponential F] (values : List F) (beta : F) : (softmax values beta).length = values.length := by
  unfold softmax
  by_cases hempty : values.isEmpty = true
  · rw [if_pos hempty, List.isEmpty_iff.mp hempty]
  rw [if_neg hempty]
  dsimp only
  split_ifs
  · exact List.length_replicate
  · rw [List.length_map, List.length_map]

/-- `Σ weights[i] * vectors[i]` -/
def weightedSum (vectors : List (List F)) (weights : List F) : List F :=
  match vectors with
  | [] => []
  | v :: _ =>
    (vectors.zip weights).foldl (fun result p => addScaled result p.1 p.2) (List.replicate v.length (lit 0))

/-! ### Activations -/

/-- Dot products of a query with rows of `d` entries. -/
def batchDotUnit (query rows : List F) (d : ℕ) : List F :=
  (List.range (rows.length / d)).map fun i => dot query (rowAt rows d i)

/-- Activation by a scan of the address matrix. -/
def activateSoa (query addressMatrix : List F) (d k : ℕ) : List ℕ × List F :=
  (topK k ((batchDotUnit (normalize query) addressMatrix d).zipIdx.map fun p => (p.2, p.1))).unzip

/-- Activation of the candidates at these indices. -/
def activateSubset (query : List F) (locations : List (HardLocation F)) (allowed : List ℕ) (k : ℕ) :
    List ℕ × List F :=
  let q := normalize query
  (topK k ((allowed.filter (· < locations.length)).map fun i => (i, dot q (locationAt locations i).address))).unzip

/-- Activation for reads: a scan of the matrix, or of the locations when it is
empty. -/
def activateAutoFull (query : List F) (locations : List (HardLocation F)) (k : ℕ) (addressMatrix : List F) (d : ℕ) :
    List ℕ × List F :=
  if !addressMatrix.isEmpty then activateSoa query addressMatrix d k else activate query locations k

/-! ### The read -/

/-- A location's part in an attention read: its index, its raw dot product
with the query and the weight of its value. -/
structure AttentionContributor (F : Type) where
  id : ℕ
  similarity : F
  weight : F
deriving DecidableEq

/-- The value of an attention read, and its contributors descending by weight. -/
structure AttentionTrace (F : Type) where
  result : List F
  contributors : List (AttentionContributor F)
deriving DecidableEq

/-- Per-query dimension and non-empty checks. -/
def checkQuery (inner : EAMInner F S) (query : List F) : Except HeatherError Unit :=
  if query.length ≠ inner.config.d then .error (.dimensionMismatch inner.config.d query.length)
  else if inner.locations.isEmpty then .error .emptyMemory
  else .ok ()

/-- The activated indices: among the allowed candidates if these are given,
and without `exclude`, for which one more is activated. -/
def activateLocked (inner : EAMInner F S) (query : List F) (exclude : Option ℕ) (allowed : Option (List ℕ)) :
    List ℕ :=
  let want := inner.config.k + if exclude.isSome then 1 else 0
  let k := min want inner.locations.length
  let indices :=
    match allowed with
    | some allowed => (activateSubset query inner.locations allowed k).1
    | none => (activateAutoFull query inner.locations k inner.addressMatrix inner.config.d).1
  match exclude with
  | none => indices
  | some ex => (indices.filter (· ≠ ex)).take inner.config.k

section reads

variable [Exponential F]

/-- The attention over activated locations: count-weighted softmax of the raw
dot products, and the stored patterns summed by it. -/
def attend (locations : List (HardLocation F)) (query : List F) (scale : F) (indices : List ℕ) : AttentionTrace F :=
  let dots := indices.map fun i => dot query (locationAt locations i).address
  let logits :=
    List.zipWith (fun i dot => scale * dot + ln (fmax (locationAt locations i).writeCount (lit 0))) indices dots
  let alpha := softmax logits (lit 1)
  let values := indices.map fun i => (locationAt locations i).normalizedPattern
  { result := weightedSum values alpha
    contributors := sortBy (fun a b => totalCmp b.weight a.weight)
      (((indices.zip dots).zip alpha).map fun p => ⟨p.1.1, p.1.2, p.2⟩) }

/-- The whole attention read for one query. -/
def attentionLocked (inner : EAMInner F S) (query : List F) (scale : F) (exclude : Option ℕ)
    (allowed : Option (List ℕ)) : AttentionTrace F :=
  attend inner.locations query scale (activateLocked inner query exclude allowed)

/-- `read_attention_traced`: the read with at most one location excluded. -/
def readAttentionTraced (inner : EAMInner F S) (query : List F) (scale : F) (exclude : Option ℕ) :
    Except HeatherError (AttentionTrace F) := do
  validateVector query
  checkValid inner
  checkQuery inner query
  pure (attentionLocked inner query scale exclude none)

/-- The indices that are not barred. -/
def EAMInner.allowed (inner : EAMInner F S) (barred : List ℕ) : List ℕ :=
  (List.range inner.locations.length).filter (· ∉ barred)

/-- `read_attention_excluding`: the read with a set of locations barred from
answering. -/
def readAttentionExcluding (inner : EAMInner F S) (query : List F) (scale : F) (barred : List ℕ) :
    Except HeatherError (AttentionTrace F) := do
  validateVector query
  checkValid inner
  checkQuery inner query
  if (inner.allowed barred).isEmpty then throw .emptyMemory
  pure (attentionLocked inner query scale none (some (inner.allowed barred)))

/-- The memory without the locations at these indices, its arrays built anew. -/
def EAMInner.without (inner : EAMInner F S) (barred : List ℕ) : EAMInner F S :=
  EAMInner.rebuildGraphCache { inner with locations := (inner.allowed barred).map (locationAt inner.locations) }

/-- A trace whose contributors go by other indices. -/
def AttentionTrace.renumber (f : ℕ → ℕ) (trace : AttentionTrace F) : AttentionTrace F :=
  { trace with contributors := trace.contributors.map fun c => { c with id := f c.id } }

end reads

/-! ### Heaps under other indices -/

/-- An entry under another index. -/
def renumbered (f : ℕ → ℕ) (e : ℕ × F) : ℕ × F := (f e.1, e.2)

omit [Scalar F] in
@[simp] theorem fst_renumbered (f : ℕ → ℕ) (e : ℕ × F) : (renumbered f e).1 = f e.1 := rfl

omit [Scalar F] in
@[simp] theorem snd_renumbered (f : ℕ → ℕ) (e : ℕ × F) : (renumbered f e).2 = e.2 := rfl

theorem sortBy_map {α β : Type} (cmp : α → α → Ordering) (cmp' : β → β → Ordering) (g : α → β)
    (h : ∀ a b, cmp' (g a) (g b) = cmp a b) (l : List α) : sortBy cmp' (l.map g) = (sortBy cmp l).map g :=
  (List.map_insertionSort (fun a b => cmp a b ≠ .gt) (fun a b => cmp' a b ≠ .gt) g l fun a _ b _ => by rw [h]).symm

theorem offer_renumber (f : ℕ → ℕ) (k : ℕ) (heap : List (ℕ × F)) (e : ℕ × F) :
    offer k (heap.map (renumbered f)) (renumbered f e) = (offer k heap e).map (renumbered f) := by
  have hle : ∀ a b : ℕ × F, minEntryLe (renumbered f a) (renumbered f b) = minEntryLe a b := fun _ _ => rfl
  by_cases hlt : heap.length < k
  · rw [offer, offer, List.length_map, if_pos hlt, if_pos hlt, push_map hle]
  cases heap with
  | nil =>
    rw [List.map_nil, offer, offer, if_neg hlt, if_neg hlt]
    rfl
  | cons m rest =>
    have hfull : k ≤ (m :: rest).length := Nat.not_lt.mp hlt
    rw [offer_full hfull, List.map_cons, offer_full (by simpa using hfull), ← List.map_cons, snd_renumbered,
      snd_renumbered]
    split_ifs
    · rw [pop_map hle, push_map hle]
    · rfl

/-- **An activation sees similarities only**: under other indices it finds the
same entries in the same order, ties included. -/
theorem topK_renumber (f : ℕ → ℕ) (k : ℕ) (entries : List (ℕ × F)) :
    topK k (entries.map (renumbered f)) = (topK k entries).map (renumbered f) := by
  have hfold : ∀ (es heap : List (ℕ × F)), (es.map (renumbered f)).foldl (offer k) (heap.map (renumbered f)) =
      (es.foldl (offer k) heap).map (renumbered f) := by
    intro es
    induction es with
    | nil => exact fun heap => rfl
    | cons e es ih =>
      intro heap
      rw [List.map_cons, List.foldl_cons, List.foldl_cons, offer_renumber]
      exact ih _
  calc topK k (entries.map (renumbered f))
      = sortBy (fun a b => partialCmp b.2 a.2) ((entries.foldl (offer k) []).map (renumbered f)) :=
        congrArg _ (hfold entries [])
    _ = (topK k entries).map (renumbered f) := sortBy_map _ _ _ (fun _ _ => rfl) _

/-- A heap with room for all entries is offered them as they come. -/
theorem foldl_offer_of_le {k : ℕ} : ∀ {es heap : List (ℕ × F)}, heap.length + es.length ≤ k →
    es.foldl (offer k) heap = es.foldl (push minEntryLe) heap
  | [], _, _ => rfl
  | e :: es, heap, h => by
    rw [List.length_cons] at h
    have hroom : heap.length < k := by omega
    rw [List.foldl_cons, List.foldl_cons, offer, if_pos hroom]
    exact foldl_offer_of_le (by rw [length_push]; omega)

/-- A heap of all entries. -/
theorem foldl_push_perm : ∀ es heap : List (ℕ × F), (es.foldl (push minEntryLe) heap).Perm (heap ++ es)
  | [], heap => (List.append_nil heap).symm ▸ .refl _
  | e :: es, heap => by
    have hpush := (push_perm minEntryLe heap e).append_right es
    rw [List.append_assoc] at hpush
    exact (foldl_push_perm es _).trans hpush

/-- A bound past the number of entries does not matter. -/
theorem topK_min (k : ℕ) (entries : List (ℕ × F)) : topK (min k entries.length) entries = topK k entries := by
  rcases Nat.le_total k entries.length with hle | hle
  · rw [Nat.min_eq_left hle]
  · rw [Nat.min_eq_right hle]
    unfold topK
    have hroom : (([] : List (ℕ × F)).length + entries.length) ≤ k := by simpa using hle
    rw [foldl_offer_of_le hroom, foldl_offer_of_le (by simp)]

/-! ### Activations agree -/

/-- The indices and similarities of all locations. -/
def scored (query : List F) (locations : List (HardLocation F)) : List (ℕ × F) :=
  (List.range locations.length).map fun i => (i, dot (normalize query) (locationAt locations i).address)

@[simp] theorem length_scored (query : List F) (locations : List (HardLocation F)) :
    (scored query locations).length = locations.length := by simp [scored]

theorem activate_eq (query : List F) (locations : List (HardLocation F)) (k : ℕ) :
    activate query locations k = (topK k (scored query locations)).unzip := by
  have hentries : (locations.zipIdx.map fun p => (p.2, dot (normalize query) p.1.address)) =
      scored query locations := by
    apply List.ext_getElem (by simp)
    intro i hi hi'
    have hlt : i < locations.length := by simpa using hi
    have hat : locationAt locations i = locations[i] := List.getD_eq_getElem _ _ hlt
    simp [scored, hat]
  rw [activate, hentries]

/-- The similarities of the rows of a matrix of addresses. -/
theorem batchDotUnit_eq {locations : List (HardLocation F)} {d : ℕ} (hd : ∀ loc ∈ locations, loc.address.length = d)
    (hpos : 0 < d) (query : List F) :
    ((batchDotUnit (normalize query) (locations.flatMap (·.address)) d).zipIdx.map fun p => (p.2, p.1)) =
      scored query locations := by
  unfold batchDotUnit scored
  rw [length_flatMap_rows hd, Nat.mul_div_cancel _ hpos]
  apply List.ext_getElem (by simp)
  intro i hi hi'
  have hlt : i < locations.length := by simpa using hi
  have hrow : rowAt (locations.flatMap (·.address)) d i = (locationAt locations i).address :=
    row_flatMap hd (by rw [locationAt, List.getD_eq_getElem _ _ hlt, List.getElem?_eq_getElem hlt])
  simp [hrow]

/-- **The matrix is scanned as the locations are.** -/
theorem activateAutoFull_eq {inner : EAMInner F S} (harrays : Indexed inner)
    (hshaped : Shaped inner.config.d inner.locations) (query : List F) (k : ℕ) :
    activateAutoFull query inner.locations k inner.addressMatrix inner.config.d =
      (topK k (scored query inner.locations)).unzip := by
  have hd : ∀ loc ∈ inner.locations, loc.address.length = inner.config.d := fun loc hloc => (hshaped loc hloc).1
  unfold activateAutoFull
  cases hmatrix : inner.addressMatrix.isEmpty with
  | true => exact activate_eq query inner.locations k
  | false =>
    have hlength : inner.addressMatrix.length = inner.locations.length * inner.config.d := by
      rw [harrays.matrix]
      exact length_flatMap_rows hd
    have hpos : 0 < inner.config.d := by
      by_contra hzero
      have hnil : inner.addressMatrix.length = 0 := by rw [hlength, Nat.eq_zero_of_not_pos hzero, Nat.mul_zero]
      rw [List.isEmpty_iff.mpr (List.length_eq_zero_iff.mp hnil)] at hmatrix
      exact Bool.noConfusion hmatrix
    rw [Bool.not_false, if_pos rfl, activateSoa, harrays.matrix, batchDotUnit_eq hd hpos]

/-! ### Barring is removing -/

omit [Scalar F] [Narrow F S] in
theorem mem_allowed {inner : EAMInner F S} {barred : List ℕ} {i : ℕ} :
    i ∈ inner.allowed barred ↔ i < inner.locations.length ∧ i ∉ barred := by
  simp [EAMInner.allowed]

omit [Scalar F] [Narrow F S] in
theorem length_allowed_le (inner : EAMInner F S) (barred : List ℕ) :
    (inner.allowed barred).length ≤ inner.locations.length := by
  have h := List.length_filter_le (fun i => decide (i ∉ barred)) (List.range inner.locations.length)
  rwa [List.length_range] at h

/-- The locations kept are the allowed ones. -/
theorem locationAt_without {inner : EAMInner F S} {barred : List ℕ} {j : ℕ} (hj : j < (inner.allowed barred).length) :
    locationAt (inner.without barred).locations j = locationAt inner.locations ((inner.allowed barred).getD j 0) := by
  have hkept : (inner.without barred).locations = (inner.allowed barred).map (locationAt inner.locations) := rfl
  rw [hkept, locationAt, List.getD_eq_getElem _ _ (by simpa using hj), List.getElem_map, List.getD_eq_getElem _ _ hj]

theorem shaped_without {inner : EAMInner F S} (h : Shaped inner.config.d inner.locations) (barred : List ℕ) :
    Shaped (inner.without barred).config.d (inner.without barred).locations := by
  intro loc hloc
  obtain ⟨i, hi, rfl⟩ := List.mem_map.mp hloc
  exact h _ (locationAt_mem (mem_allowed.mp hi).1)

/-- The candidates are the kept locations under their old indices. -/
theorem candidates_eq (inner : EAMInner F S) (query : List F) (barred : List ℕ) :
    (((inner.allowed barred).filter (· < inner.locations.length)).map fun i =>
      (i, dot (normalize query) (locationAt inner.locations i).address)) =
      (scored query (inner.without barred).locations).map (renumbered fun j => (inner.allowed barred).getD j 0) := by
  have hall : (inner.allowed barred).filter (· < inner.locations.length) = inner.allowed barred :=
    List.filter_eq_self.mpr fun i hi => decide_eq_true (mem_allowed.mp hi).1
  have hlength : (inner.without barred).locations.length = (inner.allowed barred).length :=
    List.length_map _
  rw [hall]
  apply List.ext_getElem (by simp [hlength])
  intro j hj hj'
  have hlt : j < (inner.allowed barred).length := by simpa using hj
  have hgetD : (inner.allowed barred).getD j 0 = (inner.allowed barred)[j] := List.getD_eq_getElem _ _ hlt
  simp only [scored, List.getElem_map, List.getElem_range, renumbered, locationAt_without hlt, hgetD]

theorem indexed_without (inner : EAMInner F S) (barred : List ℕ) : Indexed (inner.without barred) :=
  indexed_rebuildGraphCache _

/-- What the scan activates. -/
theorem activateLocked_scan {inner : EAMInner F S} (harrays : Indexed inner)
    (hshaped : Shaped inner.config.d inner.locations) (query : List F) :
    activateLocked inner query none none = (topK inner.config.k (scored query inner.locations)).map (·.1) := by
  have hbound := topK_min inner.config.k (scored query inner.locations)
  rw [length_scored] at hbound
  simp only [activateLocked, Option.isSome_none, Bool.false_eq_true, if_false, Nat.add_zero]
  rw [activateAutoFull_eq harrays hshaped, List.unzip_fst, hbound]

/-- **The activation among the allowed candidates** is the smaller memory's. -/
theorem activateLocked_without {inner : EAMInner F S} (hshaped : Shaped inner.config.d inner.locations)
    (query : List F) (barred : List ℕ) :
    activateLocked inner query none (some (inner.allowed barred)) =
      (activateLocked (inner.without barred) query none none).map fun j => (inner.allowed barred).getD j 0 := by
  set entries := scored query (inner.without barred).locations with hentries
  have hlength : entries.length ≤ inner.locations.length := by
    rw [hentries, length_scored]
    exact (List.length_map _).trans_le (length_allowed_le inner barred)
  -- both heaps are bounded by k and by how many candidates there are
  have hbound : topK (min inner.config.k inner.locations.length) entries = topK inner.config.k entries := by
    rw [← topK_min (min inner.config.k inner.locations.length), Nat.min_assoc, Nat.min_eq_right hlength, topK_min]
  rw [activateLocked_scan (indexed_without inner barred) (shaped_without hshaped barred), ← hentries]
  simp only [activateLocked, Option.isSome_none, Bool.false_eq_true, if_false, Nat.add_zero]
  rw [activateSubset, candidates_eq, topK_renumber, ← hentries, hbound, List.unzip_fst, List.map_map, List.map_map]
  rfl

/-- The logits of an attention read, location by location. -/
theorem logits_eq (locations : List (HardLocation F)) (query : List F) (scale : F) (indices : List ℕ) :
    List.zipWith (fun i dot => scale * dot + ln (fmax (locationAt locations i).writeCount (lit 0))) indices
        (indices.map fun i => dot query (locationAt locations i).address) =
      indices.map fun i => scale * dot query (locationAt locations i).address +
        ln (fmax (locationAt locations i).writeCount (lit 0)) := by
  rw [List.zipWith_map_right, List.zipWith_self]

variable [Exponential F]

/-- Attention over locations that are the same under other indices. -/
theorem attend_renumber {locations locations' : List (HardLocation F)} {f : ℕ → ℕ} {indices : List ℕ}
    (h : ∀ j ∈ indices, locationAt locations (f j) = locationAt locations' j) (query : List F) (scale : F) :
    attend locations query scale (indices.map f) = (attend locations' query scale indices).renumber f := by
  have hmap : ∀ {α : Type} (g : HardLocation F → α), ((indices.map f).map fun i => g (locationAt locations i)) =
      indices.map fun j => g (locationAt locations' j) := by
    intro α g
    rw [List.map_map]
    exact List.map_congr_left fun j hj => congrArg g (h j hj)
  have hdots := hmap fun loc => dot query loc.address
  have hlogits := hmap fun loc => scale * dot query loc.address + ln (fmax loc.writeCount (lit 0))
  have hvalues := hmap (·.normalizedPattern)
  have hsorted : ∀ cs : List (AttentionContributor F),
      (sortBy (fun a b => totalCmp b.weight a.weight) cs).map (fun c => { c with id := f c.id }) =
        sortBy (fun a b => totalCmp b.weight a.weight) (cs.map fun c => { c with id := f c.id }) := fun cs =>
    (sortBy_map _ (fun a b => totalCmp b.weight a.weight) (fun c => { c with id := f c.id }) (fun _ _ => rfl) cs).symm
  unfold attend AttentionTrace.renumber
  dsimp only
  rw [logits_eq, logits_eq, hlogits, hvalues, hdots, hsorted, List.map_map, List.zip_map_left, List.zip_map_left,
    List.map_map]
  rfl

/-- **The read without the barred locations.** -/
theorem attentionLocked_without {inner : EAMInner F S} (hshaped : Shaped inner.config.d inner.locations)
    (query : List F) (scale : F) (barred : List ℕ) :
    attentionLocked inner query scale none (some (inner.allowed barred)) =
      (attentionLocked (inner.without barred) query scale none none).renumber
        fun j => (inner.allowed barred).getD j 0 := by
  unfold attentionLocked
  rw [activateLocked_without hshaped]
  refine attend_renumber (fun j hj => ?_) query scale
  rw [activateLocked_scan (indexed_without inner barred) (shaped_without hshaped barred)] at hj
  obtain ⟨e, he, rfl⟩ := List.mem_map.mp hj
  obtain ⟨i, hi, rfl⟩ := List.mem_map.mp (mem_topK he)
  have hlength : (inner.without barred).locations.length = (inner.allowed barred).length := List.length_map _
  rw [List.mem_range, hlength] at hi
  exact (locationAt_without hi).symm

/-- The checks of a read let the same queries pass. -/
theorem excluding_eq {inner : EAMInner F S} (hshaped : Shaped inner.config.d inner.locations) (query : List F)
    (scale : F) (barred : List ℕ) :
    readAttentionExcluding inner query scale barred =
      (readAttentionTraced (inner.without barred) query scale none).map
        (AttentionTrace.renumber fun j => (inner.allowed barred).getD j 0) := by
  unfold readAttentionExcluding readAttentionTraced
  have hvalid : checkValid (inner.without barred) = checkValid inner := rfl
  rw [hvalid, attentionLocked_without hshaped]
  cases validateVector query with
  | error e => rfl
  | ok =>
    cases checkValid inner with
    | error e => rfl
    | ok =>
      have hconfig : (inner.without barred).config = inner.config := rfl
      have hempty : (inner.without barred).locations.isEmpty = (inner.allowed barred).isEmpty := by
        show ((inner.allowed barred).map _).isEmpty = _
        rw [List.isEmpty_map]
      unfold checkQuery
      rw [hconfig, hempty]
      by_cases hdim : query.length ≠ inner.config.d
      · rw [if_pos hdim, if_pos hdim]
        rfl
      · rw [if_neg hdim, if_neg hdim]
        by_cases hnone : inner.locations.isEmpty = true
        · have hallowed : (inner.allowed barred).isEmpty = true := by
            rw [List.isEmpty_iff] at hnone ⊢
            rw [EAMInner.allowed, hnone]
            rfl
          simp only [hnone, hallowed, ↓reduceIte]
          rfl
        · rw [if_neg hnone]
          by_cases hallowed : (inner.allowed barred).isEmpty = true
          · simp only [hallowed, ↓reduceIte]
            rfl
          · simp only [hallowed, Bool.false_eq_true, ↓reduceIte]
            rfl

variable [Scalar S]

/-- **Barring locations is the same as not having them**: in every state that a
life of a collection reaches, the read with a set of indices barred gives the
value, the contributors under their old indices, or the error of the read on
the memory without them. -/
theorem barring_is_removing [SeededUniform F] {name : String} {collectionId : ℕ} {hive hive' : Hive F S}
    (hnone : hive.handles = []) (hcache : hive.collections.get name = none)
    (hreg : hive.store.registry.get name = some collectionId) (hnew : hive.store.Untouched collectionId)
    {es : List (HiveEvent F)} (hrun : Run (Life name) hive es hive') {h : ℕ} {s : Session F S}
    (hs : hive'.session h = some s) (query : List F) (scale : F) (barred : List ℕ) :
    readAttentionExcluding s.collection.inner query scale barred =
      (readAttentionTraced (s.collection.inner.without barred) query scale none).map
        (AttentionTrace.renumber fun j => (s.collection.inner.allowed barred).getD j 0) :=
  excluding_eq (recoverable_of_run hnone hcache hreg hnew hrun hs).shaped query scale barred

/-- The exponential at 0, and below it a function that falls as it does. -/
instance : Exponential ℚ where
  exp x := if x ≤ 0 then 1 / (1 - x) else 1 + x
  negInf := -10 ^ 18

/-- The small hive after two writes. -/
def twiceWritten : Hive ℚ ℚ := (smallHive.created.calling (.write [1])).calling (.write [2])

theorem life_twiceWritten : ∃ es, Run (Life "c") smallHive es twiceWritten := by
  let once := smallHive.created.calling (.write [1])
  have hcreate : Life "c" smallHive (.create "c" (.ok 0)) smallHive.created :=
    smallHive.life_create (by decide +kernel)
  have hfirst : Life "c" smallHive.created (smallHive.created.answer (.write [1])) once :=
    smallHive.created.life_call _ (by decide +kernel)
  have hsecond : Life "c" once (once.answer (.write [2])) twiceWritten := once.life_call _ (by decide +kernel)
  exact ⟨_, ((Run.single hcreate).snoc hfirst).snoc hsecond⟩

/-- The second of two locations barred: the first answers alone. -/
theorem barring_is_removing_second : ∃ s : Session ℚ ℚ, s.collection.inner.locations.length = 2 ∧
    readAttentionExcluding s.collection.inner [1] 1 [1] =
      (readAttentionTraced (s.collection.inner.without [1]) [1] 1 none).map
        (AttentionTrace.renumber fun j => (s.collection.inner.allowed [1]).getD j 0) := by
  obtain ⟨es, hrun⟩ := life_twiceWritten
  obtain ⟨s, hs⟩ : ∃ s, twiceWritten.session 0 = some s := Option.isSome_iff_exists.mp (by decide +kernel)
  have htwo : (twiceWritten.session 0).all fun s => decide (s.collection.inner.locations.length = 2) := by
    decide +kernel
  rw [hs, Option.all_some, decide_eq_true_iff] at htwo
  exact ⟨s, htwo, barring_is_removing rfl rfl rfl smallHive_untouched hrun hs [1] 1 [1]⟩

end HeatherDb
