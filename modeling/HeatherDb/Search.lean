/-
# Document search

`query_documents_scoped` and `query_documents_multi_role` of `collection.rs`:
the documents posted under the locations that the query activates, those that
resolve, scored one by one, sorted stably by their score and cut. The source
gathers the posted ids in a hash set whose order is not determined; here it is
a parameter that arranges the ids without repetition.

What the order of the set can change is which of two documents of equal score
comes first: the answer is the same for all orders exactly if no two documents
tie at a place that is returned (`hash_order_iff`).

Key definitions: `queryDocumentsScoped`, `queryDocumentsMultiRole`, `found`,
`Untied`.
Key theorems: `hash_order_iff`, `tied_documents_swap`.
-/
import HeatherDb.Documents
import HeatherDb.LeaveOneOut
import HeatherDb.Lib.Ranking
import HeatherDb.Roles

namespace HeatherDb

open Scalar Narrow Exponential

/-- How many times more locations a document query draws candidates from than
a read activates. -/
def queryCandidateFactor : ℕ := 4

/-- How the filler recovered at a role is cleaned up before it is scored. -/
inductive RoleCleanup (F : Type) where
  | mdl
  | beta (beta : F)
  | off

/-- One document with its score for every role. -/
structure MultiRoleHit (F : Type) where
  docId : ℕ
  recallScore : F
  metadata : List UInt8
  roleScores : List F
deriving DecidableEq

structure MultiRoleResults (F : Type) where
  cleanupBeta : Option F
  hits : List (MultiRoleHit F)
deriving DecidableEq

variable {F S : Type} [Scalar F]

/-! ### The temperature of a cleanup -/

section Cleanup

variable [Exponential F]

/-- The log-likelihood of every key under a kernel mixture of the others, up
to constants. -/
def negDl (keys : List (List F)) (d : ℕ) (beta : F) : F :=
  let sim := fun i j => dot (keys.getD i []) (keys.getD j [])
  let halfDLnBeta := ofUsize d / lit 2 * ln beta
  (List.range keys.length).foldl (fun total j =>
    let others := (List.range keys.length).filter (· ≠ j)
    let maxL := others.foldl (fun maxL i =>
      let l := beta * (sim i j - lit 1)
      if lt maxL l then l else maxL) negInf
    let total' := others.foldl (fun acc i => acc + exp (beta * (sim i j - lit 1) - maxL)) (lit 0)
    total + (maxL + ln total' + halfDLnBeta)) (lit 0)

/-- The inverse temperature of least description length on a log grid, the
default when fewer than two keys leave nothing out. -/
def selectBetaMdl (keys : List (List F)) (d : ℕ) (defaultBeta : F) : F :=
  if keys.length < 2 then defaultBeta
  else
    let lnLo := ln (lit (1 / 10))
    let lnHi := ln (lit 500)
    ((List.range 61).foldl (fun best s =>
      let beta := exp (lnLo + (lnHi - lnLo) * ofUsize s / ofUsize 60)
      let score := negDl keys d beta
      if isFinite score && lt best.2 score then (beta, score) else best) (defaultBeta, negInf)).1

/-- `MIN_CLEANUP_BETA` -/
def minCleanupBeta : F := lit 30

/-- Cleanup of `v` against the stored patterns of its most similar locations. -/
def cleanupRead (inner : EAMInner F S) (v : List F) (beta : F) : List F :=
  let k := min inner.config.k inner.locations.length
  let indices := (activateAutoFull v inner.locations k inner.addressMatrix inner.config.d).1
  let logits := indices.map fun i =>
    beta * dot v (locationAt inner.locations i).address + ln (fmax (locationAt inner.locations i).writeCount (lit 0))
  weightedSum (indices.map fun i => (locationAt inner.locations i).normalizedPattern) (softmax logits (lit 1))

/-- The temperature that a query cleans up at. -/
def cleanupBeta (inner : EAMInner F S) (indices : List ℕ) : RoleCleanup F → Option F
  | .off => none
  | .mdl =>
    let keys := indices.map fun i => normalize (locationAt inner.locations i).address
    some (selectBetaMdl keys inner.config.d inner.config.beta)
  | .beta beta => some (fmax beta minCleanupBeta)

end Cleanup

/-! ### Queries -/

/-- The locations that candidates are drawn from. -/
def candidateLocations (inner : EAMInner F S) (query : List F) (n : ℕ) : List ℕ :=
  let k := min (max (inner.config.k * queryCandidateFactor) n) inner.locations.length
  (activateAutoFull query inner.locations k inner.addressMatrix inner.config.d).1

/-- The ids posted under these locations, each once. -/
def candidateIds (s : Session F S) (query : List F) (n : ℕ) : List ℕ :=
  ((candidateLocations s.collection.inner query n).flatMap fun idx =>
    s.store.docIdsForLocation s.collection.collectionId (locationAt s.collection.inner.locations idx).id).dedup

/-- A candidate's document, if it is there and resolves. -/
def fetch (s : Session F S) (docId : ℕ) : Except HeatherError (Option (List F × List UInt8)) :=
  match s.store.getDocument s.collection.collectionId docId with
  | none => .ok none
  | some data => tolerate (resolveDocument s.collection.inner data)

/-- Refuses a vector of another dimension. -/
def checkDim (d : ℕ) (v : List F) : Except HeatherError Unit :=
  if v.length ≠ d then .error (.dimensionMismatch d v.length) else .ok ()

/-- What a scoped query refuses. -/
def checkScoped (inner : EAMInner F S) (query : List F) (unbindRole : Option (List F)) :
    Except HeatherError Unit := do
  validateVector query
  match unbindRole with
  | none => pure ()
  | some role =>
    validateVector role
    checkDim inner.config.d role
  checkValid inner
  checkDim inner.config.d query

/-- How a scoped query scores a document. -/
def scopedScore (fft : RealFft F) (query : List F) (unbindRole : Option (List F)) (vec : List F) : F :=
  match unbindRole with
  | some role => roleScopedSimilarity fft vec role query
  | none => cosineSimilarity query vec

/-- The documents nearest to a query, or to a filler at a role, with their
scores; `arrange` is the order the candidates are enumerated in. -/
def queryDocumentsScoped (fft : RealFft F) (arrange : List ℕ → List ℕ) (s : Session F S) (query : List F) (n : ℕ)
    (unbindRole : Option (List F)) : Except HeatherError (List (ℕ × F × List UInt8)) := do
  checkScoped s.collection.inner query unbindRole
  if s.collection.inner.locations.isEmpty then pure []
  else
    let scored ← (arrange (candidateIds s query n)).mapM fun docId => do
      let doc ← fetch s docId
      pure (doc.map fun doc => (docId, scopedScore fft query unbindRole doc.1, doc.2))
    pure ((sortBy (fun a b => partialCmp b.2.1 a.2.1) (scored.filterMap id)).take n)

/-- `query_documents` -/
def queryDocuments (fft : RealFft F) (arrange : List ℕ → List ℕ) (s : Session F S) (query : List F) (n : ℕ) :
    Except HeatherError (List (ℕ × F × List UInt8)) := queryDocumentsScoped fft arrange s query n none

/-- What a query of several roles refuses. -/
def checkMultiRole (inner : EAMInner F S) (query : List F) (pairs : List (List F × List F)) :
    Except HeatherError Unit := do
  validateVector query
  checkValid inner
  checkDim inner.config.d query
  pairs.forM fun p => do
    validateVector p.1
    validateVector p.2
    checkDim inner.config.d p.1
    checkDim inner.config.d p.2

section MultiRole

variable [Exponential F]

/-- A document's score for each pair of a role and a filler: in the frequency
domain, or of the recovered filler after a cleanup. -/
def roleScores (fft : RealFft F) (inner : EAMInner F S) (pairs : List (List F × List F)) (beta : Option F)
    (vec : List F) : List F :=
  let docSpectrum := rfftForward fft vec
  pairs.map fun p =>
    match beta with
    | some beta =>
      let recovered := unbindBySpectra fft docSpectrum (rfftForward fft p.1) inner.config.d
      cosineSimilarity (cleanupRead inner recovered beta) p.2
    | none =>
      roleScopedSimilaritySpectra fft.toComplexOps docSpectrum (rfftForward fft p.1) (rfftForward fft p.2) (l2Norm p.2)
        inner.config.d

/-- The documents nearest to a query, described by their scores for each pair. -/
def queryDocumentsMultiRole (fft : RealFft F) (arrange : List ℕ → List ℕ) (s : Session F S) (query : List F) (n : ℕ)
    (pairs : List (List F × List F)) (cleanup : RoleCleanup F) : Except HeatherError (MultiRoleResults F) := do
  checkMultiRole s.collection.inner query pairs
  if s.collection.inner.locations.isEmpty then pure ⟨none, []⟩
  else
    let beta := cleanupBeta s.collection.inner (candidateLocations s.collection.inner query n) cleanup
    let hits ← (arrange (candidateIds s query n)).mapM fun docId => do
      let doc ← fetch s docId
      pure (doc.bind fun doc =>
        if doc.1.length ≠ s.collection.inner.config.d then none
        else some ⟨docId, cosineSimilarity query doc.1, doc.2, roleScores fft s.collection.inner pairs beta doc.1⟩)
    pure ⟨beta, (sortBy (fun a b => partialCmp b.recallScore a.recallScore) (hits.filterMap id)).take n⟩

end MultiRole

/-! ### Enumerating candidates -/

/-- Numbers that are equally far up are so beside every other number; what is
not a number is above and below nothing. -/
class IEEERanks (F : Type) [Scalar F] : Prop extends IEEELess F where
  num_of_lt : ∀ {x y : F}, lt x y = true → eq x x = true ∧ eq y y = true
  lt_or_lt : ∀ {x y z : F}, lt x z = true → eq y y = true → lt x y = true ∨ lt y z = true

/-- An order for every set of candidates. -/
def Arranges (arrange : List ℕ → List ℕ) : Prop := ∀ l, (arrange l).Perm l

/-- Candidates of equal score have `n` others of higher score: their order
among each other does not show in the first `n`. -/
def Untied (n : ℕ) (ids : List ℕ) (score : ℕ → Option F) : Prop :=
  ∀ i ∈ ids, ∀ j ∈ ids, i ≠ j → ∀ x y, score i = some x → score j = some y → partialCmp x y = .eq →
    n ≤ ids.countP fun k => (score k).any (lt x ·)

theorem partialCmp_gt [IEEERanks F] {x y : F} : partialCmp x y = .gt ↔ lt y x = true := by
  unfold partialCmp
  split_ifs with hlt hgt
  · refine iff_of_false nofun fun hgt => ?_
    have hself := IEEELess.trans hlt hgt
    rw [IEEELess.irrefl] at hself
    cases hself
  · exact iff_of_true rfl hgt
  · exact iff_of_false nofun hgt

theorem partialCmp_eq {x y : F} : partialCmp x y = .eq ↔ ¬lt x y = true ∧ ¬lt y x = true := by
  unfold partialCmp
  split_ifs with hlt hgt
  · exact iff_of_false nofun fun h => h.1 hlt
  · exact iff_of_false nofun fun h => h.2 hgt
  · exact iff_of_true rfl ⟨hlt, hgt⟩

section Rows

variable {ρ : Type} (score : ρ → F)

/-- Rows rank by their scores. -/
theorem ranks_score [IEEERanks F] :
    Ranking.Ranks (fun a b => partialCmp (score a) (score b) = .gt) fun a => eq (score a) (score a) = true where
  irrefl a h := by
    rw [partialCmp_gt, IEEELess.irrefl] at h
    cases h
  trans hab hbc := partialCmp_gt.mpr (IEEELess.trans (partialCmp_gt.mp hbc) (partialCmp_gt.mp hab))
  left hab := (IEEERanks.num_of_lt (partialCmp_gt.mp hab)).2
  right hab := (IEEERanks.num_of_lt (partialCmp_gt.mp hab)).1
  split hac hb := ((IEEERanks.lt_or_lt (partialCmp_gt.mp hac) hb).imp partialCmp_gt.mpr partialCmp_gt.mpr).symm

/-- The rows a query returns. -/
def best (n : ℕ) (rows : List ρ) : List ρ := (sortBy (fun a b => partialCmp (score b) (score a)) rows).take n

theorem best_eq_top (n : ℕ) (rows : List ρ) :
    best score n rows = Ranking.top (fun a b => partialCmp (score a) (score b) = .gt) n rows := by
  unfold best Ranking.top sortBy
  congr!

theorem tied_score [IEEERanks F] (a b : ρ) :
    Ranking.Tied (fun a b => partialCmp (score a) (score b) = .gt) a b ↔ partialCmp (score a) (score b) = .eq := by
  show ¬partialCmp (score a) (score b) = .gt ∧ ¬partialCmp (score b) (score a) = .gt ↔ _
  rw [partialCmp_gt, partialCmp_gt, partialCmp_eq]
  exact and_comm

/-- **The first rows are the same for every order** of the candidates exactly
when these are untied. -/
theorem arranged_iff [IEEERanks F] (name : ρ → ℕ) {row : ℕ → Option ρ} (hrow : ∀ i r, row i = some r → name r = i)
    {ids : List ℕ} (hnodup : ids.Nodup) (n : ℕ) :
    (∀ arrange arrange', Arranges arrange → Arranges arrange' →
      best score n ((arrange ids).filterMap row) = best score n ((arrange' ids).filterMap row)) ↔
      Untied n ids fun i => (row i).map score := by
  have hcount : ∀ (l : List ℕ) (a : ρ), (l.filterMap row).countP (fun b => partialCmp (score b) (score a) = .gt) =
      l.countP fun k => ((row k).map score).any (lt (score a) ·) := by
    intro l a
    rw [List.countP_filterMap]
    refine List.countP_congr fun k _ => ?_
    cases row k with
    | none => rfl
    | some b => simp [partialCmp_gt]
  have hrows : (ids.filterMap row).Nodup :=
    hnodup.filterMap fun i j r hi hj => (hrow i r hi).symm.trans (hrow j r hj)
  constructor
  · intro hsame i hi j hj hne x y hx hy htie
    obtain ⟨a, ha, rfl⟩ := Option.map_eq_some_iff.mp hx
    obtain ⟨b, hb, rfl⟩ := Option.map_eq_some_iff.mp hy
    by_contra hless
    rw [not_le] at hless
    have hab : a ≠ b := fun h => hne ((hrow i a ha).symm.trans ((congrArg name h).trans (hrow j b hb)))
    have hperm : ids.Perm (i :: j :: (ids.erase i).erase j) :=
      (List.perm_cons_erase hi).trans ((List.perm_cons_erase ((List.mem_erase_of_ne hne.symm).mpr hj)).cons i)
    have harranges : ∀ l, l.Perm ids → Arranges fun l' => if l' = ids then l else l' := by
      intro l hl l'
      show (if l' = ids then l else l').Perm l'
      split_ifs with h
      · exact h ▸ hl
      · exact .refl _
    have heq := hsame _ _ (harranges _ hperm.symm) (harranges _ ((List.Perm.swap i j _).trans hperm.symm))
    simp only [if_true, List.filterMap_cons, ha, hb, best_eq_top] at heq
    refine (ranks_score score).top_ne hab ((tied_score score a b).mpr htie) _ ?_ heq
    rw [hcount]
    refine lt_of_le_of_lt ?_ hless
    exact (((List.erase_sublist).trans List.erase_sublist).countP_le)
  · intro huntied arrange arrange' harrange harrange'
    have hfirst : ∀ arrange : List ℕ → List ℕ, Arranges arrange →
        best score n ((arrange ids).filterMap row) = best score n (ids.filterMap row) := by
      intro arrange harrange
      rw [best_eq_top, best_eq_top]
      refine (ranks_score score).top_perm ((harrange ids).filterMap row) hrows fun a ha b hb hne htied => ?_
      obtain ⟨i, hi, hai⟩ := List.mem_filterMap.mp ha
      obtain ⟨j, hj, hbj⟩ := List.mem_filterMap.mp hb
      have hij : i ≠ j := fun h => hne (Option.some.inj (hai.symm.trans (h ▸ hbj)))
      rw [hcount]
      exact huntied i hi j hj hij _ _ (congrArg (Option.map score) hai) (congrArg (Option.map score) hbj)
        ((tied_score score a b).mp htied)
    rw [hfirst arrange harrange, hfirst arrange' harrange']

/-- The same of answers that hold the first rows, unless the request is
refused or there are no candidates. -/
theorem answers_iff [IEEERanks F] {τ : Type} (name : ρ → ℕ) {row : ℕ → Option ρ}
    (hrow : ∀ i r, row i = some r → name r = i) {ids : List ℕ} (hnodup : ids.Nodup) (n : ℕ)
    (check : Except HeatherError Unit) {empty : Bool} (hempty : empty = true → ids = []) (nothing : τ)
    {answer : List ρ → τ} (hanswer : Function.Injective answer) :
    (∀ arrange arrange', Arranges arrange → Arranges arrange' →
      (check.map fun _ => if empty then nothing else answer (best score n ((arrange ids).filterMap row))) =
        check.map fun _ => if empty then nothing else answer (best score n ((arrange' ids).filterMap row))) ↔
      (check = .ok () → Untied n ids fun i => (row i).map score) := by
  cases check with
  | error e => exact iff_of_true (fun _ _ _ _ => rfl) nofun
  | ok _ =>
    cases empty with
    | true =>
      refine iff_of_true (fun _ _ _ _ => rfl) fun _ i hi => ?_
      rw [hempty rfl] at hi
      cases hi
    | false =>
      rw [← arranged_iff score name hrow hnodup]
      refine ⟨fun h _ arrange arrange' harrange harrange' => ?_, fun h arrange arrange' harrange harrange' => ?_⟩
      · exact hanswer (Except.ok.inj (h arrange arrange' harrange harrange'))
      · exact congrArg (Except.ok ∘ answer) (h rfl arrange arrange' harrange harrange')

end Rows

/-! ### The queries' answers -/

/-- A candidate's document, if it is there and resolves. -/
def found (s : Session F S) (docId : ℕ) : Option (List F × List UInt8) :=
  (s.store.getDocument s.collection.collectionId docId).bind fun r =>
    (resolveDocument s.collection.inner r).toOption

omit [Scalar F] in
theorem fetch_eq (s : Session F S) (docId : ℕ) : fetch s docId = .ok (found s docId) := by
  unfold fetch found
  cases s.store.getDocument s.collection.collectionId docId with
  | none => rfl
  | some r => exact tolerate_resolveDocument _ r

omit [Scalar F] in
theorem mapM_fetch {ρ : Type} (s : Session F S) (g : ℕ → Option (List F × List UInt8) → ρ) (ids : List ℕ) :
    (ids.mapM fun docId => do
      let doc ← fetch s docId
      pure (g docId doc) : Except HeatherError (List ρ)) = .ok (ids.map fun docId => g docId (found s docId)) := by
  refine mapM_ok (fun docId => ?_) ids
  rw [fetch_eq]
  rfl

/-- Without locations there are no candidates. -/
theorem candidateIds_nil {s : Session F S} (hempty : s.collection.inner.locations.isEmpty = true) (query : List F)
    (n : ℕ) : candidateIds s query n = [] := by
  have hheap : ∀ es : List (ℕ × F), es.foldl (offer 0) [] = [] := fun es => by
    induction es with
    | nil => rfl
    | cons e es ih => exact ih
  have htop : ∀ es : List (ℕ × F), topK 0 es = [] := fun es => by
    rw [topK, hheap]
    rfl
  have hnone : candidateLocations s.collection.inner query n = [] := by
    unfold candidateLocations activateAutoFull activateSoa activate
    rw [List.isEmpty_iff.mp hempty]
    simp [htop]
  unfold candidateIds
  rw [hnone]
  rfl

/-- The row of a scoped query for a candidate. -/
def scopedRow (fft : RealFft F) (s : Session F S) (query : List F) (unbindRole : Option (List F)) (docId : ℕ) :
    Option (ℕ × F × List UInt8) :=
  (found s docId).map fun doc => (docId, scopedScore fft query unbindRole doc.1, doc.2)

theorem queryDocumentsScoped_eq (fft : RealFft F) (arrange : List ℕ → List ℕ) (s : Session F S) (query : List F)
    (n : ℕ) (unbindRole : Option (List F)) : queryDocumentsScoped fft arrange s query n unbindRole =
      (checkScoped s.collection.inner query unbindRole).map fun _ =>
        if s.collection.inner.locations.isEmpty then []
        else best (·.2.1) n ((arrange (candidateIds s query n)).filterMap (scopedRow fft s query unbindRole)) := by
  unfold queryDocumentsScoped
  cases checkScoped s.collection.inner query unbindRole with
  | error e => rfl
  | ok _ =>
    show (if s.collection.inner.locations.isEmpty then _ else _) = Except.ok (if _ then _ else _)
    split_ifs
    · rfl
    · show (_ >>= fun scored => _) = _
      rw [mapM_fetch]
      show Except.ok _ = _
      rw [List.filterMap_map]
      rfl

section MultiRole

variable [Exponential F]

/-- The row of a query of several roles for a candidate. -/
def multiRoleRow (fft : RealFft F) (s : Session F S) (query : List F) (pairs : List (List F × List F))
    (beta : Option F) (docId : ℕ) : Option (MultiRoleHit F) :=
  (found s docId).bind fun doc =>
    if doc.1.length ≠ s.collection.inner.config.d then none
    else some ⟨docId, cosineSimilarity query doc.1, doc.2, roleScores fft s.collection.inner pairs beta doc.1⟩

theorem queryDocumentsMultiRole_eq (fft : RealFft F) (arrange : List ℕ → List ℕ) (s : Session F S) (query : List F)
    (n : ℕ) (pairs : List (List F × List F)) (cleanup : RoleCleanup F) :
    queryDocumentsMultiRole fft arrange s query n pairs cleanup =
      (checkMultiRole s.collection.inner query pairs).map fun _ =>
        if s.collection.inner.locations.isEmpty then ⟨none, []⟩
        else
          let beta := cleanupBeta s.collection.inner (candidateLocations s.collection.inner query n) cleanup
          ⟨beta, best (·.recallScore) n
            ((arrange (candidateIds s query n)).filterMap (multiRoleRow fft s query pairs beta))⟩ := by
  unfold queryDocumentsMultiRole
  cases checkMultiRole s.collection.inner query pairs with
  | error e => rfl
  | ok _ =>
    show (if s.collection.inner.locations.isEmpty then _ else _) = Except.ok (if _ then _ else _)
    split_ifs
    · rfl
    · show (_ >>= fun hits => _) = _
      rw [mapM_fetch]
      show Except.ok _ = _
      rw [List.filterMap_map]
      rfl

/-- **The order of the hash set** does not show exactly if no two documents tie
in the score that ranks them, but for those below the cut. -/
theorem hash_order_iff [IEEERanks F] (fft : RealFft F) (s : Session F S) (query : List F) (n : ℕ)
    (unbindRole : Option (List F)) (pairs : List (List F × List F)) (cleanup : RoleCleanup F) :
    ((∀ arrange arrange', Arranges arrange → Arranges arrange' →
        queryDocumentsScoped fft arrange s query n unbindRole =
          queryDocumentsScoped fft arrange' s query n unbindRole) ↔
      (checkScoped s.collection.inner query unbindRole = .ok () → Untied n (candidateIds s query n) fun docId =>
        (found s docId).map fun doc => scopedScore fft query unbindRole doc.1)) ∧
    ((∀ arrange arrange', Arranges arrange → Arranges arrange' →
        queryDocumentsMultiRole fft arrange s query n pairs cleanup =
          queryDocumentsMultiRole fft arrange' s query n pairs cleanup) ↔
      (checkMultiRole s.collection.inner query pairs = .ok () → Untied n (candidateIds s query n) fun docId =>
        (found s docId).bind fun doc =>
          if doc.1.length ≠ s.collection.inner.config.d then none else some (cosineSimilarity query doc.1))) := by
  have hnodup : (candidateIds s query n).Nodup := List.nodup_dedup _
  have hempty : s.collection.inner.locations.isEmpty = true → candidateIds s query n = [] := fun h =>
    candidateIds_nil h query n
  constructor
  · have hname : ∀ docId r, scopedRow fft s query unbindRole docId = some r → r.1 = docId := by
      intro docId r hr
      obtain ⟨doc, -, rfl⟩ := Option.map_eq_some_iff.mp hr
      rfl
    have hiff := answers_iff (fun r : ℕ × F × List UInt8 => r.2.1) (·.1) hname hnodup n
      (checkScoped s.collection.inner query unbindRole) hempty [] Function.injective_id
    simp only [scopedRow, Option.map_map] at hiff
    simp only [queryDocumentsScoped_eq]
    exact hiff
  · set beta := cleanupBeta s.collection.inner (candidateLocations s.collection.inner query n) cleanup with hbeta
    have hname : ∀ docId r, multiRoleRow fft s query pairs beta docId = some r → r.docId = docId := by
      intro docId r hr
      obtain ⟨doc, -, hdoc⟩ := Option.bind_eq_some_iff.mp hr
      split_ifs at hdoc
      exact (congrArg MultiRoleHit.docId (Option.some.inj hdoc)).symm
    have hscore : ∀ docId, (multiRoleRow fft s query pairs beta docId).map (·.recallScore) =
        (found s docId).bind fun doc =>
          if doc.1.length ≠ s.collection.inner.config.d then none else some (cosineSimilarity query doc.1) := by
      intro docId
      unfold multiRoleRow
      rw [Option.map_bind]
      refine Option.bind_congr fun doc _ => ?_
      show Option.map _ (if _ then _ else _) = _
      split_ifs <;> rfl
    have hiff := answers_iff (fun r : MultiRoleHit F => r.recallScore) (·.docId) hname hnodup n
      (checkMultiRole s.collection.inner query pairs) hempty ⟨none, []⟩
      (fun a b h => (MultiRoleResults.mk.inj h).2 : Function.Injective (MultiRoleResults.mk beta))
    simp only [hscore] at hiff
    simp only [queryDocumentsMultiRole_eq]
    exact hiff

end MultiRole

/-! ### Two documents -/

variable [Scalar S] [Narrow F S]

instance : IEEERanks ℚ where
  num_of_lt _ := ⟨decide_eq_true rfl, decide_eq_true rfl⟩
  lt_or_lt {x y _} h _ := (lt_or_ge x y).imp decide_eq_true fun hyx =>
    decide_eq_true (hyx.trans_lt (of_decide_eq_true h))

/-- Bins that are numbers. -/
def realOps : ComplexOps F where
  add x y := ⟨x.re + y.re, lit 0⟩
  mul x y := ⟨x.re * y.re, lit 0⟩
  conj x := x
  divReal x r := ⟨x.re / r, lit 0⟩
  normSqr x := x.re * x.re
  powf x _ := x
  fromPolar r _ := ⟨r, lit 0⟩

/-- The transforms of signals of one entry. -/
def unitFft : RealFft ℚ where
  toComplexOps := realOps
  forward _ v := some (v.map fun x => ⟨x, 0⟩)
  inverse _ spec := some (spec.map (·.re))

/-- A plain collection of two documents with these vectors. -/
def twoDocuments (x y : ℚ) : Hive ℚ ℚ :=
  (smallHive.created.calling (.writeWithMetadata [x] [7])).calling (.writeWithMetadata [y] [8])

/-- **Two documents of one vector** come in either order, and either alone. -/
theorem tied_documents_swap : ∃ es hive, Run (Life "c") smallHive es hive ∧ ∃ s, hive.session 0 = some s ∧
    Arranges id ∧ Arranges List.reverse ∧
    queryDocumentsScoped unitFft id s [1] 1 none ≠ queryDocumentsScoped unitFft List.reverse s [1] 1 none ∧
    queryDocumentsMultiRole unitFft id s [1] 1 [] .off ≠
      queryDocumentsMultiRole unitFft List.reverse s [1] 1 [] .off := by
  have hcreate := smallHive.life_create (h := 0) (by decide +kernel)
  have hfirst := smallHive.created.life_call (.writeWithMetadata [1] [7]) (by decide +kernel)
  have hsecond := (smallHive.created.calling (.writeWithMetadata [1] [7])).life_call (.writeWithMetadata [1] [8])
    (by decide +kernel)
  obtain ⟨s, hs⟩ : ∃ s, (twoDocuments 1 1).session 0 = some s := Option.isSome_iff_exists.mp (by decide +kernel)
  have hswap : ((twoDocuments 1 1).session 0).all fun s => decide
      (queryDocumentsScoped unitFft id s [1] 1 none ≠ queryDocumentsScoped unitFft List.reverse s [1] 1 none ∧
        queryDocumentsMultiRole unitFft id s [1] 1 [] .off ≠
          queryDocumentsMultiRole unitFft List.reverse s [1] 1 [] .off) := by decide +kernel
  rw [hs, Option.all_some, decide_eq_true_iff] at hswap
  exact ⟨_, _, ((Run.single hcreate).snoc hfirst).snoc hsecond, s, hs, fun l => .refl l, List.reverse_perm, hswap⟩

/-- Two documents of opposite vectors. -/
theorem hash_order_opposite : ∃ s : Session ℚ ℚ, (candidateIds s [1] 2).length = 2 ∧
    ∀ arrange arrange', Arranges arrange → Arranges arrange' →
      queryDocumentsScoped unitFft arrange s [1] 2 none = queryDocumentsScoped unitFft arrange' s [1] 2 none := by
  obtain ⟨s, hs⟩ : ∃ s, (twoDocuments 1 (-1)).session 0 = some s := Option.isSome_iff_exists.mp (by decide +kernel)
  have hscores : ((twoDocuments 1 (-1)).session 0).all fun s => decide ((candidateIds s [1] 2).length = 2) &&
      (candidateIds s [1] 2).all fun i => (candidateIds s [1] 2).all fun j => decide (i = j) ||
        (found s i).all fun doc => (found s j).all fun doc' => decide (partialCmp
          (scopedScore unitFft [1] none doc.1) (scopedScore unitFft [1] none doc'.1) ≠ .eq) := by
    decide +kernel
  rw [hs, Option.all_some, Bool.and_eq_true, decide_eq_true_iff] at hscores
  obtain ⟨htwo, hall⟩ := hscores
  refine ⟨s, htwo, (hash_order_iff unitFft s [1] 2 none [] .off).1.mpr fun _ i hi j hj hne x y hx hy htie => ?_⟩
  obtain ⟨doc, hdoc, rfl⟩ := Option.map_eq_some_iff.mp hx
  obtain ⟨doc', hdoc', rfl⟩ := Option.map_eq_some_iff.mp hy
  have hdiffer := List.all_eq_true.mp (List.all_eq_true.mp hall i hi) j hj
  rw [decide_eq_false hne, Bool.false_or, hdoc, Option.all_some, hdoc', Option.all_some, decide_eq_true_iff] at hdiffer
  exact absurd htie hdiffer

end HeatherDb
