/-
# Document search in a plain collection

A collection without competition that was built by document writes and
deletions: every document written got a location of its own, and a location
outlives its document. `Placed` says where: the document `d` is posted under
the location `l_0 + d` and no other, while it is live.

A query draws its candidates from the locations of greatest dot product with
it, among them the random ones, those of deleted documents and those of long
vectors, and ranks the candidates by cosine. Its answer is exact (`Exact`) if
and only if no document that the activation misses belongs in it
(`query_exact_iff`).

Key definitions: `Placed`, `Activates`, `Exact`.
Key theorems: `placed_run`, `exact_best_iff`, `query_exact_iff`, `query_not_exact`.
-/
import Mathlib.Data.Set.Card
import HeatherDb.Analyze
import HeatherDb.Filed
import HeatherDb.Gated
import HeatherDb.Search

namespace HeatherDb

open Scalar Narrow Program Store

variable {F S : Type} [Narrow F S]

/-! ### Where documents are -/

/-- A record that resolves under these location ids. -/
def DocumentRecord.ResolvesAmong (ids : List ℕ) : DocumentRecord F → Prop
  | .document .. => True
  | .reference location _ => location ∈ ids
  | .damaged _ => False

/-- A document is found as it was written. -/
theorem Kept.found {live : Live F} {s : Session F S} (h : Kept live s) (hr : s.Recoverable) (d : ℕ) :
    found s d = live d := by
  unfold HeatherDb.found
  cases hlive : live d with
  | none =>
    rw [h.absent d hlive]
    rfl
  | some v =>
    obtain ⟨r, hget, hreads⟩ := h.stored d v hlive
    rw [hget, Option.bind_some, hreads.resolve hr]
    rfl

variable [Scalar F]

/-- The live documents are stored, each filed under a location of its own. -/
structure Placed (config : EAMConfig F) (live : Live F) (s : Session F S) : Prop where
  configured : s.collection.inner.config = config
  filed : Filed s.store s.collection.collectionId s.collection.inner
  docNextId : s.store.loadU64 s.collection.collectionId "doc_next_id" 0 = .ok s.collection.inner.docNextId
  nextId : s.collection.inner.nextId = config.l0 + s.collection.inner.docNextId
  stored : ∀ d, (s.store.getDocument s.collection.collectionId d).isSome ↔ (live d).isSome
  resolves : ∀ d r, s.store.getDocument s.collection.collectionId d = some r →
    r.ResolvesAmong (s.collection.inner.locations.map (·.id))
  alone : ∀ k d, d ∈ postings s.collection.collectionId s.store.docIndex k → k = config.l0 + d

namespace Placed

variable {config : EAMConfig F} {live : Live F} {s : Session F S}

omit [Scalar F] in
/-- A live document was counted. -/
theorem counted (h : Placed config live s) {d : ℕ} (hd : (live d).isSome) : d < s.collection.inner.docNextId := by
  obtain ⟨k, hk, hposted⟩ := h.filed.posted.covered d ((h.stored d).mpr hd)
  obtain ⟨loc, hloc, hid⟩ := List.mem_map.mp hk
  have hlt := h.filed.fresh loc hloc
  rw [hid, h.nextId, h.alone k d hposted] at hlt
  exact Nat.lt_of_add_lt_add_left hlt

omit [Scalar F] in
/-- **What is posted** under a location: its document, if that is live. -/
theorem mem_postings_iff (h : Placed config live s) {k d : ℕ} :
    d ∈ postings s.collection.collectionId s.store.docIndex k ↔ (live d).isSome ∧ k = config.l0 + d := by
  constructor
  · intro hd
    exact ⟨(h.stored d).mp (h.filed.posted.documented k d hd), h.alone k d hd⟩
  · rintro ⟨hd, rfl⟩
    obtain ⟨k, -, hk⟩ := h.filed.posted.covered d ((h.stored d).mpr hd)
    exact h.alone k d hk ▸ hk

omit [Scalar F] in
/-- **Every live document** is found. -/
theorem isSome_found (h : Placed config live s) (d : ℕ) : (found s d).isSome ↔ (live d).isSome := by
  rw [← h.stored d]
  unfold found
  cases hget : s.store.getDocument s.collection.collectionId d with
  | none => exact Iff.rfl
  | some r =>
    refine iff_of_true ?_ rfl
    have hr := h.resolves d r hget
    cases r with
    | document vector metadata => rfl
    | reference location metadata =>
      obtain ⟨loc, hloc, rfl⟩ := List.mem_map.mp hr
      have haddress := locationAddress_of_mem h.filed.arrays.looks h.filed.nodup hloc
      show (Except.toOption (resolveDocument _ (.reference loc.id metadata))).isSome
      rw [resolveDocument_reference, haddress]
      rfl
    | damaged message => exact hr.elim

/-! ### Failed calls -/

theorem materialized (h : Placed config live s) : Placed config live s.materialized := by
  have hstore : s.materialized.store = _ := materialize_eq _ _ _
  have hget : ∀ d, s.materialized.store.getDocument s.collection.collectionId d = _ :=
    getDocument_materialize s.store s.collection.collectionId s.collection.inner
  refine
    { configured := h.configured
      filed := h.filed.materialized
      docNextId := h.filed.toRecoverable.failed_docNextId (v := 0) h.docNextId .materialized
      nextId := h.nextId
      stored := fun d => ?_
      resolves := fun d r hr => ?_
      alone := fun k d hd => h.alone k d ?_ }
  · have hsome := congrArg Option.isSome (hget d)
    rw [Option.isSome_map] at hsome
    exact (iff_of_eq (congrArg (· = true) hsome)).trans (h.stored d)
  · obtain ⟨r', hr', rfl⟩ := Option.map_eq_some_iff.mp ((hget d).symm.trans hr)
    have hold := h.resolves d r' hr'
    cases r' with
    | document vector metadata => trivial
    | reference location metadata =>
      show DocumentRecord.ResolvesAmong _ (Option.getD (Option.map _ (Option.map _ _)) _)
      cases s.collection.inner.locationAddress location with
      | none => exact hold
      | some v => trivial
    | damaged message => exact hold
  · rw [← (congrArg Store.docIndex hstore :)]
    exact hd

theorem recovered (h : Placed config live s) {v : ℕ} {inner : EAMInner F S} (hr : Recovered s v inner) (rng : Rng F) :
    Placed config live (s.remember inner rng) := by
  have hfiled := h.filed.recovered hr
  have hnextId : inner.nextId = s.collection.inner.nextId :=
    Except.ok.inj (hfiled.nextId.symm.trans h.filed.nextId)
  have hdocNextId := h.filed.toRecoverable.docNextId_recovered hr
  have hsame : inner.docNextId = s.collection.inner.docNextId := Except.ok.inj (hdocNextId.symm.trans h.docNextId)
  refine
    { configured := ?_
      filed := hfiled
      docNextId := hdocNextId
      nextId := (hnextId.trans h.nextId).trans (congrArg (config.l0 + ·) hsame.symm)
      stored := h.stored
      resolves := fun d r hget => ?_
      alone := h.alone }
  · obtain ⟨loaded, hload⟩ := h.filed.toRecoverable.load s.collection.name
    unfold Recovered at hr
    rw [hload] at hr
    subst hr
    obtain ⟨_, _, _, _, -, -, -, -, -, rfl⟩ := load_inv hload
    exact h.configured
  · have hold := h.resolves d r hget
    cases r with
    | reference location metadata => exact (hfiled.mem_iff location).mpr ((h.filed.mem_iff location).mp hold)
    | _ => exact hold

theorem failed (h : Placed config live s) {v : ℕ} {s' : Session F S} (hf : Failed v s s') : Placed config live s' := by
  cases hf with
  | unchanged => exact h
  | materialized => exact h.materialized
  | recovered rng hr => exact h.recovered hr rng
  | recoveredMaterialized rng hr => exact h.materialized.recovered hr rng

/-! ### Writes and deletions -/

omit [Narrow F S] in
/-- The ids a plain write of a batch files its document under. -/
theorem activatedIds_plain {inner : EAMInner F S} {xs : List (Pattern F)} {b : Batch F S} (h : PlainGrown inner xs b)
    {j : ℕ} {a : Adapted F S} (ha : b.writes[j]? = some a) : activatedIds a.inner a.result = [inner.nextId + j] := by
  have hj := congrArg (·[j]?) h.writes
  simp only [List.getElem?_map, List.getElem?_zipIdx, ha, Option.map_some] at hj
  cases hx : xs[j]? with
  | none => simp [hx] at hj
  | some x =>
    simp only [hx, Option.map_some, Option.some.injEq, Prod.mk.injEq, Nat.zero_add] at hj
    unfold activatedIds touchedLocations
    rw [hj.1, hj.2]
    rfl

/-- **Document writes** place their documents. -/
theorem wrote [Scalar S] (h : Placed config live s) (hplain : config.competitive = false)
    (docs : List (List F × List UInt8)) (hfit : s.Fits (docs.map fun doc => .single doc.1)) {p : Puts F}
    (hmeta : p.metadata = documentCounters (s.written (docs.map fun doc => .single doc.1) docs.length).inner)
    (hkeys : p.documents.map (·.1) = List.range' s.collection.inner.docNextId docs.length)
    (hrecords : ∀ e ∈ p.documents, e.2.ResolvesAmong
      ((s.written (docs.map fun doc => .single doc.1) docs.length).inner.locations.map (·.id)))
    (hpostings : ∀ e ∈ p.postings, ∀ d ∈ e.2, ∃ j, d = s.collection.inner.docNextId + j ∧
      e.1 = s.collection.inner.nextId + j)
    (hfiled : Filed (s.wrote (docs.map fun doc => .single doc.1) docs.length p).store s.collection.collectionId
      (s.wrote (docs.map fun doc => .single doc.1) docs.length p).collection.inner) :
    Placed config (live.enter (List.range' s.collection.inner.docNextId docs.length) docs)
      (s.wrote (docs.map fun doc => .single doc.1) docs.length p) := by
  set xs : List (Pattern F) := docs.map fun doc => .single doc.1 with hxs
  have hg := Session.written_grown h.filed.shaped hfit
  have hgrown := batch_plain s.collection.inner.bumpVersion (h.configured ▸ hplain) xs s.rng
  have hstore : (s.wrote xs docs.length p).store = _ := putAll_eq s.collection.collectionId p s.store
  have hlists : (s.wrote xs docs.length p).store.docIndex = _ := congrArg Store.docIndex hstore
  have hnext : (s.wrote xs docs.length p).collection.inner.nextId = s.collection.inner.nextId + docs.length := by
    have hlength : xs.length = docs.length := List.length_map _
    exact hgrown.next.trans (congrArg (s.collection.inner.nextId + ·) hlength)
  have hdocNext : (s.wrote xs docs.length p).collection.inner.docNextId =
      s.collection.inner.docNextId + docs.length := congrArg (· + docs.length) hg.docNextId
  have hin : ∀ d, d ∈ p.documents.map (·.1) ↔
      s.collection.inner.docNextId ≤ d ∧ d < s.collection.inner.docNextId + docs.length := fun d => by
    rw [hkeys, List.mem_range'_1]
  -- a document of the call, and any other
  have hput : ∀ d ∈ p.documents.map (·.1), ∃ r, (d, r) ∈ p.documents ∧
      (s.wrote xs docs.length p).store.getDocument s.collection.collectionId d = some r := by
    intro d hd
    have hkey : (⟨s.collection.collectionId, d⟩ : Scoped ℕ ℕ) ∈
        (p.documents.map fun d => ((⟨s.collection.collectionId, d.1⟩ : Scoped ℕ ℕ), d.2)).map (·.1) := by
      simpa using hd
    obtain ⟨r, hmem, hr⟩ := OrderedTable.exists_get_putAll s.store.documents hkey
    obtain ⟨e, he, heq⟩ := List.mem_map.mp hmem
    simp only [Prod.mk.injEq, Scoped.mk.injEq, true_and] at heq
    obtain ⟨rfl, rfl⟩ := heq
    refine ⟨e.2, he, ?_⟩
    rw [hstore]
    exact hr
  have hsame : ∀ d, d ∉ p.documents.map (·.1) →
      (s.wrote xs docs.length p).store.getDocument s.collection.collectionId d =
        s.store.getDocument s.collection.collectionId d := fun d hd => getDocument_putAll_of_notMem _ hd
  refine
    { configured := hg.config.trans h.configured
      filed := hfiled
      docNextId := written_docNextId hg h.docNextId (Or.inr hmeta)
      nextId := by rw [hnext, hdocNext, h.nextId, Nat.add_assoc]
      stored := fun d => ?_
      resolves := fun d r hget => ?_
      alone := fun k d hd => ?_ }
  · rw [Live.enter_range']
    by_cases hd : d ∈ p.documents.map (·.1)
    · obtain ⟨r, -, hr⟩ := hput d hd
      have hrange := (hin d).mp hd
      rw [if_pos hrange]
      refine iff_of_true (Option.isSome_iff_exists.mpr ⟨r, hr⟩) ?_
      rw [List.getElem?_eq_getElem (by omega)]
      rfl
    · rw [if_neg (mt (hin d).mpr hd)]
      exact (iff_of_eq (congrArg (Option.isSome · = true) (hsame d hd))).trans (h.stored d)
  · by_cases hd : d ∈ p.documents.map (·.1)
    · obtain ⟨r', hmem, hr'⟩ := hput d hd
      obtain rfl : r' = r := Option.some.inj (hr'.symm.trans hget)
      exact hrecords _ hmem
    · have hold := h.resolves d r ((hsame d hd).symm.trans hget)
      cases r with
      | reference location metadata =>
        have hids : (s.wrote xs docs.length p).collection.inner.locations.map (·.id) = _ := hg.ids
        show location ∈ (s.wrote xs docs.length p).collection.inner.locations.map (·.id)
        rw [hids]
        exact List.mem_append_left _ hold
      | _ => exact hold
  · rw [hlists] at hd
    rcases mem_postings_postTo.mp hd with hd | ⟨e, he, rfl, hmem⟩
    · exact h.alone k d hd
    · obtain ⟨j, rfl, hk⟩ := hpostings e he d hmem
      rw [hk, h.nextId, Nat.add_assoc]

omit [Scalar F] in
/-- A deletion leaves the location. -/
theorem deleted [SeededUniform F] (h : Placed config live s) (id : ℕ) : Placed config (Function.update live id none)
    { s with store := s.store.withoutDocument s.collection.collectionId id } := by
  have hstore := withoutDocument_eq s.collection.collectionId id s.store
  have hget : ∀ d, (s.store.withoutDocument s.collection.collectionId id).getDocument s.collection.collectionId d =
      if d = id then none else s.store.getDocument s.collection.collectionId d := by
    intro d
    rw [hstore]
    show (OrderedTable.delete _ _).get _ = _
    rw [OrderedTable.get_delete]
    simp only [Scoped.mk.injEq, true_and]
    rfl
  refine
    { configured := h.configured
      filed := h.filed.withoutDocument id
      docNextId := (loadU64_congr 0 (congrArg (loadMetadata · _ _) hstore :)).trans h.docNextId
      nextId := h.nextId
      stored := fun d => ?_
      resolves := fun d r hr => ?_
      alone := fun k d hd => ?_ }
  · rw [hget, Function.update_apply]
    split_ifs
    · exact Iff.rfl
    · exact h.stored d
  · rw [hget] at hr
    split_ifs at hr
    exact h.resolves d r hr
  · rw [(congrArg Store.docIndex hstore :)] at hd
    have hleft := (@postings_dropped s.collection.collectionId s.store.docIndex id k).1
    exact h.alone k d (List.mem_filter.mp (hleft ▸ hd)).1

end Placed

/-! ### Runs -/

variable [Scalar S]

/-- A document write or a deletion. -/
def Call.OnDocuments : Call F → Prop
  | .writeWithMetadata .. | .writeBatchWithMetadata _ | .deleteDocument _ => True
  | _ => False

section Runs

variable [SeededUniform F]

/-- A document write or a deletion that returned, whatever the storage did. -/
def DocumentStep (s : Session F S) (e : Event F) (s' : Session F S) : Prop := e.1.OnDocuments ∧ Step s e s'

variable {config : EAMConfig F} {live : Live F} {s : Session F S}

omit [Scalar S] [SeededUniform F] in
/-- The records of a plain batch's documents resolve. -/
theorem resolvesAmong_documentRecord {precision : Precision} {result : WriteResult F} {input : List F}
    {metadata : List UInt8} {ids : List ℕ} (h : ∀ loc ∈ result.newLocations, loc.id ∈ ids) :
    (documentRecord precision config result input metadata).ResolvesAmong ids := by
  unfold documentRecord
  split
  · rename_i id hplain
    obtain ⟨-, loc, hnew, rfl⟩ := plainLocation_eq_some hplain
    exact h loc (hnew ▸ List.mem_singleton_self loc)
  · trivial

/-- **A document call** places its documents. -/
theorem Placed.effect (h : Placed config live s) (hplain : config.competitive = false) {c : Call F}
    (hc : c.OnDocuments) (hacc : c.Accepted s) : Placed config (live.after (c, .ok (c.reply s))) (c.effect s) := by
  have hcompetitive : s.collection.inner.config.competitive = false := h.configured ▸ hplain
  have hfiled : Filed (c.effect s).store s.collection.collectionId (c.effect s).collection.inner := by
    refine filed_effect h.filed hacc ?_ ?_ <;> cases c <;> trivial
  -- the locations that the writes create are there after them
  have hthere : ∀ {xs : List (Pattern F)} {n : ℕ}, ∀ a ∈ (s.written xs n).writes, ∀ loc ∈ a.result.newLocations,
      loc.id ∈ (s.written xs n).inner.locations.map (·.id) := by
    intro xs n a ha loc hloc
    have hgrown := batch_plain s.collection.inner.bumpVersion hcompetitive xs s.rng
    have hlocations : (s.written xs n).inner.locations =
        s.collection.inner.locations ++ (s.written xs n).allNewLocs := hgrown.locations
    rw [hlocations, List.map_append]
    exact List.mem_append_right _ (List.mem_map_of_mem (List.mem_flatMap.mpr ⟨a, ha, hloc⟩))
  cases c with
  | writeWithMetadata input metadata =>
    have hgrown := batch_plain s.collection.inner.bumpVersion hcompetitive [.single input] s.rng
    refine h.wrote hplain [(input, metadata)] hacc (documentCounters_written ..).symm rfl (fun e he => ?_)
      (fun e he d hd => ?_) hfiled
    · obtain rfl := List.mem_singleton.mp he
      exact resolvesAmong_documentRecord (hthere (s.adapted (.single input)) (List.mem_singleton_self _))
    · obtain ⟨k, hk, rfl⟩ := List.mem_map.mp he
      obtain rfl := List.mem_singleton.mp hd
      have hids := Placed.activatedIds_plain hgrown (j := 0) (a := s.adapted (.single input)) rfl
      rw [hids] at hk
      exact ⟨0, rfl, List.mem_singleton.mp hk⟩
  | writeBatchWithMetadata items =>
    by_cases hemp : items = []
    · subst hemp
      rw [Call.effect, if_pos rfl, after_of_no_documents live rfl (by simp)]
      exact h
    · rw [Call.effect, if_neg hemp] at hfiled ⊢
      have hgrown := batch_plain s.collection.inner.bumpVersion hcompetitive
        (items.map fun item => .single item.1) s.rng
      refine h.wrote hplain items hacc rfl (documentIds_documentBatch s items) (fun e he => ?_)
        (fun e he d hd => ?_) hfiled
      · obtain ⟨q, hq, rfl⟩ := List.mem_map.mp he
        have hwrite := (List.of_mem_zip (List.fst_mem_of_mem_zipIdx hq)).2
        exact resolvesAmong_documentRecord (hthere q.1.2 hwrite)
      · obtain ⟨j, a, ha, rfl, hk⟩ := mem_batchPostings.mp ⟨e, he, rfl, hd⟩
        rw [Placed.activatedIds_plain hgrown ha] at hk
        exact ⟨j, rfl, List.mem_singleton.mp hk⟩
  | deleteDocument id => exact h.deleted id
  | _ => exact hc.elim

/-- **Every document call**, also when it fails. -/
theorem placed_step (h : Placed config live s) (hplain : config.competitive = false) {e : Event F} {s' : Session F S}
    (hstep : DocumentStep s e s') : Placed config (live.after e) s' := by
  obtain ⟨c, r⟩ := e
  rcases step_cases hstep.2 with ⟨e, rfl, hf⟩ | ⟨hacc, rfl, rfl⟩
  · exact h.failed hf
  · exact h.effect hplain hstep.1 hacc

omit [SeededUniform F] [Scalar S] in
/-- A new collection has no documents. -/
theorem placed_fresh {collectionId : ℕ} (name : String) (config : EAMConfig F) (rng : Rng F) {store : Store F}
    (hnew : store.Untouched collectionId) :
    Placed config (fun _ => none) (Session.fresh (S := S) collectionId name config rng store) := by
  have hstore : (Session.fresh (S := S) collectionId name config rng store).store = _ :=
    putAll_eq collectionId (newPuts config rng) store
  have hget : ∀ d, (Session.fresh (S := S) collectionId name config rng store).store.getDocument collectionId d =
      none := fun d => by
    rw [hstore]
    exact hnew.documents d
  have hnil : store.loadAllLocations collectionId = .ok [] := by
    have hload := loadAllLocations_eq store collectionId
    refine hload.trans (congrArg _ (List.eq_nil_iff_forall_not_mem.mpr fun loc hloc => ?_))
    obtain ⟨id, hid⟩ := (mem_loadAllLocations_iff hload).mp hloc
    exact absurd ((hnew.locations id).symm.trans hid) nofun
  refine
    { configured := rfl
      filed := (Filed.untouched (S := S) config hnew).opened_new hnil
      docNextId := (loadU64_congr 0 (loadMetadata_putAll_of_notMem store (by simp [newPuts]))).trans (hnew.loadU64 _ _)
      nextId := rfl
      stored := fun d => iff_of_eq (congrArg (Option.isSome · = true) (hget d))
      resolves := fun d r hr => absurd ((hget d).symm.trans hr) nofun
      alone := fun k d hd => ?_ }
  have hnone : (Session.fresh (S := S) collectionId name config rng store).store.docIndex = store.docIndex := by
    rw [hstore]
    rfl
  rw [hnone] at hd
  have hempty : postings collectionId store.docIndex k = [] := by rw [postings, hnew.postings]; rfl
  exact absurd (hempty ▸ hd : d ∈ ([] : List ℕ)) (by simp)

/-- **Every state of a run of document calls** has its live documents placed. -/
theorem placed_run {collectionId : ℕ} {name : String} {config : EAMConfig F} {rng : Rng F} {store : Store F}
    (hnew : store.Untouched collectionId) (hplain : config.competitive = false) {es : List (Event F)} {s : Session F S}
    (hrun : Run DocumentStep (Session.fresh collectionId name config rng store) es s) :
    Placed config (liveAfter es) s := by
  refine hrun.history (P := fun es s => Placed config (liveAfter es) s) (placed_fresh name config rng hnew)
    fun {es s e s'} h hstep => ?_
  rw [liveAfter, List.foldl_append]
  exact placed_step h hplain hstep

end Runs

/-! ### Candidates -/

/-- A query draws candidates from the location with this id. -/
def Activates (inner : EAMInner F S) (query : List F) (n k : ℕ) : Prop :=
  ∃ i ∈ candidateLocations inner query n, (locationAt inner.locations i).id = k

omit [Scalar S] in
/-- **The candidates** are the live documents of the locations drawn from. -/
theorem Placed.mem_candidateIds {config : EAMConfig F} {live : Live F} {s : Session F S} (h : Placed config live s)
    (query : List F) (n d : ℕ) : d ∈ candidateIds s query n ↔
      (live d).isSome ∧ Activates s.collection.inner query n (config.l0 + d) := by
  have hlist : ∀ k, d ∈ s.store.docIdsForLocation s.collection.collectionId k ↔
      (live d).isSome ∧ k = config.l0 + d := fun k => h.mem_postings_iff
  unfold candidateIds Activates
  rw [List.mem_dedup, List.mem_flatMap]
  constructor
  · rintro ⟨i, hi, hd⟩
    obtain ⟨hlive, hid⟩ := (hlist _).mp hd
    exact ⟨hlive, i, hi, hid⟩
  · rintro ⟨hlive, i, hi, hid⟩
    exact ⟨i, hi, (hlist _).mpr ⟨hlive, hid⟩⟩

/-- What candidates are drawn from: the locations of greatest dot product with
the query. -/
theorem activated_candidateLocations {inner : EAMInner ℝ ℝ} (harrays : Indexed inner)
    (hshaped : Shaped inner.config.d inner.locations) (query : List ℝ) (n : ℕ) :
    ∃ r, Activated query inner.locations (List.range inner.locations.length)
      (max (inner.config.k * queryCandidateFactor) n) r ∧ r.1 = candidateLocations inner query n := by
  have htop := activated_topK (fun _ _ => rfl : FiniteSims query inner.locations)
    (fun i hi => List.mem_range.mp hi) List.nodup_range
    (min (max (inner.config.k * queryCandidateFactor) n) inner.locations.length)
  refine ⟨_, ?_, congrArg Prod.fst (activateAutoFull_eq harrays hshaped query _).symm⟩
  rw [scored_eq_entriesOf]
  refine { htop with count := htop.count.trans ?_ }
  rw [List.length_range, min_assoc, min_self]

/-- Every location is activated while there are no more than that. -/
theorem activates_of_room {inner : EAMInner ℝ ℝ} (harrays : Indexed inner)
    (hshaped : Shaped inner.config.d inner.locations) {query : List ℝ} {n : ℕ}
    (hroom : inner.locations.length ≤ max (inner.config.k * queryCandidateFactor) n) {loc : HardLocation ℝ}
    (hloc : loc ∈ inner.locations) : Activates inner query n loc.id := by
  obtain ⟨r, hr, heq⟩ := activated_candidateLocations harrays hshaped query n
  have hcount := hr.count
  rw [List.length_range, Nat.min_eq_right hroom] at hcount
  have hall : r.1.Perm (List.range inner.locations.length) :=
    (List.subperm_of_subset hr.distinct hr.within).perm_of_length_le (by rw [hcount, List.length_range])
  obtain ⟨i, hi, rfl⟩ := List.getElem_of_mem hloc
  refine ⟨i, heq ▸ hall.symm.subset (List.mem_range.mpr hi), ?_⟩
  rw [locationAt, List.getD_eq_getElem _ _ hi]

/-! ### Exact answers -/

/-- The answer to a query for `n` of these live documents: as many as there
are, descending by cosine, and none is left out that is nearer than one of
them. -/
structure Exact (docs : Live ℝ) (query : List ℝ) (n : ℕ) (result : List (ℕ × ℝ × List UInt8)) : Prop where
  length : result.length = min n {d | (docs d).isSome}.ncard
  distinct : (result.map (·.1)).Nodup
  live : ∀ r ∈ result, ∃ v, docs r.1 = some (v, r.2.2) ∧ r.2.1 = cosineSimilarity query v
  descending : result.Pairwise fun a b => b.2.1 ≤ a.2.1
  best : ∀ d v, docs d = some v → d ∉ result.map (·.1) → ∀ r ∈ result, cosineSimilarity query v.1 ≤ r.2.1

/-- A live document's row. -/
noncomputable def rowOf (live : Live ℝ) (query : List ℝ) (d : ℕ) : Option (ℕ × ℝ × List UInt8) :=
  (live d).map fun v => (d, cosineSimilarity query v.1, v.2)

/-- As many as a list without repetition names. -/
theorem ncard_mem {l : List ℕ} (hl : l.Nodup) : {d | d ∈ l}.ncard = l.length := by
  rw [← List.coe_toFinset, Set.ncard_coe_finset, List.toFinset_card_of_nodup hl]

section Exactness

variable {live : Live ℝ} {query : List ℝ} {n : ℕ}

theorem mem_rows {ids : List ℕ} {r : ℕ × ℝ × List UInt8} : r ∈ ids.filterMap (rowOf live query) ↔
    r.1 ∈ ids ∧ ∃ v, live r.1 = some (v, r.2.2) ∧ r.2.1 = cosineSimilarity query v := by
  obtain ⟨d, x, metadata⟩ := r
  simp only [List.mem_filterMap, rowOf, Option.map_eq_some_iff, Prod.exists, Prod.mk.injEq]
  constructor
  · rintro ⟨d', hd', v, m, hlive, rfl, rfl, rfl⟩
    exact ⟨hd', v, hlive, rfl⟩
  · rintro ⟨hd, v, hlive, rfl⟩
    exact ⟨d, hd, v, metadata, hlive, rfl, rfl, rfl⟩

/-- Rows name their documents. -/
theorem map_fst_rows (ids : List ℕ) :
    (ids.filterMap (rowOf live query)).map (·.1) = ids.filter fun d => (live d).isSome := by
  rw [List.map_filterMap, ← List.filterMap_eq_filter]
  refine List.filterMap_congr fun d _ => ?_
  unfold rowOf
  cases hlive : live d <;> simp [Option.guard, hlive]

/-- An answer is exact if it has the greatest rows of all, sorted. -/
theorem exact_iff {m : ℕ} (hm : ∀ d, (live d).isSome → d < m) {T : List (ℕ × ℝ × List UInt8)} :
    Exact live query n T ↔
      Greatest (fun r : ℕ × ℝ × List UInt8 => r.2.1) n ((List.range m).filterMap (rowOf live query)) T ∧
        T.Pairwise fun a b => b.2.1 ≤ a.2.1 := by
  set p := (List.range m).filterMap (rowOf live query) with hp
  have hids : (p.map (·.1)).Nodup := by
    rw [hp, map_fst_rows]
    exact List.nodup_range.filter _
  have hcard : {d | (live d).isSome}.ncard = p.length := by
    rw [← (List.length_map _ : (p.map (·.1)).length = p.length), ← ncard_mem hids]
    congr 1
    ext d
    rw [Set.mem_ofPred_eq, Set.mem_ofPred_eq, hp, map_fst_rows, List.mem_filter, List.mem_range]
    exact ⟨fun h => ⟨hm d h, h⟩, fun h => h.2⟩
  have hmem : ∀ r, r ∈ p ↔ ∃ v, live r.1 = some (v, r.2.2) ∧ r.2.1 = cosineSimilarity query v := by
    intro r
    rw [hp, mem_rows, List.mem_range]
    refine and_iff_right_of_imp fun ⟨v, hv, _⟩ => hm r.1 ?_
    rw [hv]
    rfl
  have hrow : ∀ d v, live d = some v → (d, cosineSimilarity query v.1, v.2) ∈ p := fun d v hv =>
    (hmem _).mpr ⟨v.1, hv, rfl⟩
  constructor
  · intro h
    refine ⟨.of_subset hids.of_map h.distinct.of_map (fun r hr => (hmem r).mpr (h.live r hr))
      (h.length.trans (congrArg (min n) hcard)) fun x hx hout t ht => ?_, h.descending⟩
    obtain ⟨v, hv, hx'⟩ := (hmem x).mp hx
    rw [hx']
    refine h.best x.1 (v, x.2.2) hv (fun hin => hout ?_) t ht
    obtain ⟨r, hr, heq⟩ := List.mem_map.mp hin
    have hsame := List.inj_on_of_nodup_map hids ((hmem r).mpr (h.live r hr)) hx heq
    exact hsame ▸ hr
  · rintro ⟨hgreatest, hsorted⟩
    obtain ⟨l, hperm, hsub⟩ := hgreatest.subperm
    refine
      { length := hgreatest.length.trans (congrArg (min n) hcard.symm)
        distinct := (hperm.map _).nodup_iff.mp (hids.sublist (hsub.map _))
        live := fun r hr => (hmem r).mp (hgreatest.mem hr)
        descending := hsorted
        best := fun d v hv hout r hr => ?_ }
    exact hgreatest.le_of_not_mem (hrow d v hv) (fun hin => hout (List.mem_map_of_mem hin)) hr

/-- The rows of some documents and of the others are those of all. -/
theorem rows_split {m : ℕ} (hm : ∀ d, (live d).isSome → d < m) {ids : List ℕ} (hids : ids.Nodup)
    (hlive : ∀ d ∈ ids, (live d).isSome) : ((List.range m).filterMap (rowOf live query)).Perm
      (ids.filterMap (rowOf live query) ++ ((List.range m).filter fun d => d ∉ ids).filterMap (rowOf live query)) := by
  have hsame : ids.Perm ((List.range m).filter fun d => d ∈ ids) := by
    refine (List.perm_ext_iff_of_nodup hids (List.nodup_range.filter _)).mpr fun d => ?_
    rw [List.mem_filter, List.mem_range, decide_eq_true_iff]
    exact ⟨fun hd => ⟨hm d (hlive d hd), hd⟩, fun hd => hd.2⟩
  have hparts := List.filter_append_perm (fun d => decide (d ∈ ids)) (List.range m)
  have hrows := ((hsame.append_right _).trans hparts).filterMap (rowOf live query)
  rw [List.filterMap_append] at hrows
  simp only [decide_not]
  exact hrows.symm

/-- How many rows are not below a score. -/
theorem countP_rows {ids : List ℕ} (hids : ids.Nodup) (x : ℝ) :
    ((ids.filterMap (rowOf live query)).countP fun r => x ≤ r.2.1) =
      {e | e ∈ ids ∧ ∃ w, live e = some w ∧ x ≤ cosineSimilarity query w.1}.ncard := by
  have hdistinct : (((ids.filterMap (rowOf live query)).filter fun r => x ≤ r.2.1).map (·.1)).Nodup := by
    refine List.Nodup.sublist (List.filter_sublist.map _) ?_
    rw [map_fst_rows]
    exact hids.filter _
  rw [List.countP_eq_length_filter, ← List.length_map (·.1), ← ncard_mem hdistinct]
  congr 1
  ext e
  rw [Set.mem_ofPred_eq, Set.mem_ofPred_eq, List.mem_map]
  constructor
  · rintro ⟨r, hr, rfl⟩
    obtain ⟨hr, hx⟩ := List.mem_filter.mp hr
    obtain ⟨hin, v, hv, hscore⟩ := mem_rows.mp hr
    exact ⟨hin, _, hv, hscore ▸ of_decide_eq_true hx⟩
  · rintro ⟨hin, w, hw, hx⟩
    refine ⟨(e, cosineSimilarity query w.1, w.2), List.mem_filter.mpr ⟨mem_rows.mpr ⟨hin, w.1, hw, rfl⟩, ?_⟩, rfl⟩
    exact decide_eq_true hx

/-- The first rows are the greatest. -/
theorem greatest_best {ρ : Type} (score : ρ → ℝ) (n : ℕ) (rows : List ρ) :
    Greatest score n rows (best score n rows) ∧ (best score n rows).Pairwise fun a b => score b ≤ score a := by
  have hsame : (rows.insertionSort fun a b => partialCmp (score b) (score a) ≠ .gt).map id =
      (rows.map id).insertionSort fun a b => score b ≤ score a :=
    List.map_insertionSort _ _ _ _ fun a _ b _ => by
      show partialCmp (score b) (score a) ≠ .gt ↔ score b ≤ score a
      rw [ne_eq, partialCmp_gt_real, not_lt]
  have : Std.Total fun a b : ρ => score b ≤ score a := ⟨fun a b => le_total (score b) (score a)⟩
  have : IsTrans ρ fun a b => score b ≤ score a := ⟨fun _ _ _ hab hbc => hbc.trans hab⟩
  rw [List.map_id, List.map_id] at hsame
  have hsorted : (sortBy (fun a b => partialCmp (score b) (score a)) rows).Pairwise fun a b => score b ≤ score a := by
    rw [sortBy, hsame]
    exact List.pairwise_insertionSort _ rows
  exact ⟨.of_sorted (List.perm_insertionSort _ rows) hsorted, hsorted.sublist (List.take_sublist n _)⟩

/-- **The first rows of some documents** are an exact answer if and only if
each of the others has `n` of these as near. -/
theorem exact_best_iff {m : ℕ} (hm : ∀ d, (live d).isSome → d < m) {ids : List ℕ} (hids : ids.Nodup)
    (hlive : ∀ d ∈ ids, (live d).isSome) :
    Exact live query n (best (·.2.1) n (ids.filterMap (rowOf live query))) ↔
      ∀ d v, live d = some v → d ∉ ids →
        n ≤ {e | e ∈ ids ∧ ∃ w, live e = some w ∧ cosineSimilarity query v.1 ≤ cosineSimilarity query w.1}.ncard := by
  obtain ⟨hgreatest, hsorted⟩ :=
    greatest_best (fun r : ℕ × ℝ × List UInt8 => r.2.1) n (ids.filterMap (rowOf live query))
  rw [exact_iff hm, and_iff_left hsorted, hgreatest.screened_iff (rows_split hm hids hlive)]
  simp only [countP_rows hids]
  constructor
  · intro hmany d v hv hout
    have hin : d ∈ (List.range m).filter fun d => d ∉ ids :=
      List.mem_filter.mpr ⟨List.mem_range.mpr (hm d (hv ▸ rfl)), decide_eq_true hout⟩
    exact hmany (d, cosineSimilarity query v.1, v.2) (mem_rows.mpr ⟨hin, v.1, hv, rfl⟩)
  · intro hmany x hx
    obtain ⟨hin, v, hv, hscore⟩ := mem_rows.mp hx
    rw [hscore]
    exact hmany x.1 (v, x.2.2) hv (of_decide_eq_true (List.mem_filter.mp hin).2)

end Exactness

/-! ### When the answer is exact -/

section When

/-- What a query of a collection with its documents placed answers, and when
that is exact. -/
theorem Placed.answer_exact_iff {config : EAMConfig ℝ} {live : Live ℝ} {s : Session ℝ ℝ} (h : Placed config live s)
    (fft : RealFft ℝ) {arrange : List ℕ → List ℕ} (harrange : Arranges arrange) {query : List ℝ}
    (hlength : query.length = config.d) (n : ℕ) : ∃ result, queryDocuments fft arrange s query n = .ok result ∧
      (Exact (found s) query n result ↔ ∀ d v, found s d = some v →
        ¬Activates s.collection.inner query n (config.l0 + d) →
        n ≤ {e | Activates s.collection.inner query n (config.l0 + e) ∧ ∃ w, found s e = some w ∧
          cosineSimilarity query v.1 ≤ cosineSimilarity query w.1}.ncard) := by
  set ids := arrange (candidateIds s query n) with hids
  have hmem : ∀ d v, found s d = some v → (d ∈ ids ↔ Activates s.collection.inner query n (config.l0 + d)) := by
    intro d v hv
    have hsome : (live d).isSome := (h.isSome_found d).mp (hv ▸ rfl)
    rw [hids, (harrange _).mem_iff, h.mem_candidateIds, and_iff_right hsome]
  refine ⟨best (·.2.1) n (ids.filterMap (rowOf (found s) query)), ?_, ?_⟩
  · have hdim : checkDim s.collection.inner.config.d query = .ok () := by
      rw [checkDim, h.configured, if_neg (not_not.mpr hlength)]
    have hcheck : checkScoped s.collection.inner query none = .ok () := by
      unfold checkScoped checkValid
      rw [validateVector_real, h.filed.valid, hdim]
      rfl
    have hall := queryDocumentsScoped_eq fft arrange s query n none
    rw [hcheck] at hall
    refine hall.trans (congrArg Except.ok ?_)
    by_cases hempty : s.collection.inner.locations.isEmpty = true
    · have hnone : ids = [] := List.perm_nil.mp ((harrange _).trans (by rw [candidateIds_nil hempty]))
      rw [if_pos hempty, hnone]
      exact List.take_nil.symm
    · rw [if_neg hempty]
      rfl
  · have hnodup : ids.Nodup := (harrange _).nodup_iff.mpr (List.nodup_dedup _)
    have hlive : ∀ d ∈ ids, (found s d).isSome := fun d hd =>
      (h.isSome_found d).mpr ((h.mem_candidateIds query n d).mp ((harrange _).mem_iff.mp hd)).1
    have hcounted : ∀ d, (found s d).isSome → d < s.collection.inner.docNextId := fun d hd =>
      h.counted ((h.isSome_found d).mp hd)
    rw [exact_best_iff hcounted hnodup hlive]
    refine forall₃_congr fun d v hv => ?_
    rw [hmem d v hv]
    have hsame : {e | e ∈ ids ∧ ∃ w, found s e = some w ∧ cosineSimilarity query v.1 ≤ cosineSimilarity query w.1} =
        {e | Activates s.collection.inner query n (config.l0 + e) ∧ ∃ w, found s e = some w ∧
          cosineSimilarity query v.1 ≤ cosineSimilarity query w.1} :=
      Set.ext fun e => and_congr_left fun ⟨w, hw, _⟩ => hmem e w hw
    rw [hsame]

variable [SeededUniform ℝ]

/-- **Document search in a plain collection.** After any run of document writes
and deletions, also failed ones, a query for `n` documents answers, and its
answer is exact if and only if every live document whose location is not
activated has `n` others before it: as near, with activated locations. -/
theorem query_exact_iff {collectionId : ℕ} {name : String} {config : EAMConfig ℝ} {rng : Rng ℝ} {store : Store ℝ}
    (hnew : store.Untouched collectionId) (hplain : config.competitive = false) {es : List (Event ℝ)}
    {s : Session ℝ ℝ} (hrun : Run DocumentStep (Session.fresh collectionId name config rng store) es s)
    (fft : RealFft ℝ) {arrange : List ℕ → List ℕ} (harrange : Arranges arrange) {query : List ℝ}
    (hlength : query.length = config.d) (n : ℕ) :
    (∀ d, (found s d).isSome ↔ (liveAfter es d).isSome) ∧ (store.precision = .f64 → found s = liveAfter es) ∧
    (∃ r, Activated query s.collection.inner.locations (List.range s.collection.inner.locations.length)
      (max (config.k * queryCandidateFactor) n) r ∧ r.1 = candidateLocations s.collection.inner query n) ∧
    ∃ result, queryDocuments fft arrange s query n = .ok result ∧
      (Exact (found s) query n result ↔ ∀ d v, found s d = some v →
        ¬Activates s.collection.inner query n (config.l0 + d) →
        n ≤ {e | Activates s.collection.inner query n (config.l0 + e) ∧ ∃ w, found s e = some w ∧
          cosineSimilarity query v.1 ≤ cosineSimilarity query w.1}.ncard) := by
  have h := placed_run hnew hplain hrun
  refine ⟨h.isSome_found, fun hp => ?_, ?_, h.answer_exact_iff fft harrange hlength n⟩
  · obtain ⟨hr, hkept⟩ := kept_run hp hnew (hrun.mono fun hstep => hstep.2)
    funext d
    exact hkept.found hr d
  · have hactivated := activated_candidateLocations h.filed.arrays h.filed.shaped query n
    rw [h.configured] at hactivated
    exact hactivated

end When

/-! ### Deleted documents -/

omit [Scalar F] in
theorem blames_deleteDocumentEverywhere (txn : Store F) (collectionId writeIndex : ℕ) :
    Blames (txn.deleteDocumentEverywhere collectionId writeIndex) := by
  unfold deleteDocumentEverywhere
  dsimp only
  split_ifs
  · exact (blames_write _).bind fun _ => (Blames.foldlM (fun _ _ => blames_write _) _ _).bind fun _ => Blames.pure _
  · exact (Blames.pure _).bind fun _ => (Blames.foldlM (fun _ _ => blames_write _) _ _).bind fun _ => Blames.pure _

/-- A deletion succeeds when no storage step fails. -/
theorem step_deleteDocument [SeededUniform F] {s : Session F S} (hv : s.collection.inner.valid = true) (id : ℕ) :
    Step s (.deleteDocument id, .ok ((Call.deleteDocument id).reply s)) ((Call.deleteDocument id).effect s) := by
  have hblames : BlamesAt (deleteDocument id) (⟨s, []⟩ : World HeatherError (Session F S)) := by
    unfold deleteDocument BlamesAt
    rw [bind_of_ok (readInner_valid hv []), get_bind]
    exact Blames.zoom _ _ (Blames.transaction fun txn => blames_deleteDocumentEverywhere _ _ _) _
  obtain ⟨a, t, hok⟩ := hblames.returns
  refine step_of_isOk ?_
  show ((do let existed ← deleteDocument id; pure (Reply.deleted existed)) _).1.isOk = true
  rw [bind_of_ok hok]
  rfl

/-- Documents deleted one after another. -/
theorem run_deletions [SeededUniform F] {s : Session F S} (hv : s.collection.inner.valid = true) (ids : List ℕ) :
    ∃ es s', Run DocumentStep s es s' ∧ s'.collection = s.collection ∧
      ∀ (live : Live F) d, es.foldl Live.after live d = if d ∈ ids then none else live d := by
  induction ids using List.reverseRecOn with
  | nil => exact ⟨[], s, .nil, rfl, fun live d => by simp⟩
  | append_singleton ids id ih =>
    obtain ⟨es, s', hrun, hcollection, hlive⟩ := ih
    have hstep : DocumentStep s' (.deleteDocument id, .ok ((Call.deleteDocument id).reply s'))
        ((Call.deleteDocument id).effect s') := ⟨trivial, step_deleteDocument (hcollection ▸ hv) id⟩
    refine ⟨_, _, hrun.snoc hstep, hcollection, fun live d => ?_⟩
    rw [List.foldl_append]
    show Function.update (es.foldl Live.after live) id none d = _
    rw [Function.update_apply, hlive]
    by_cases hd : d = id <;> simp [hd]

/-- A new plain collection whose queries activate `4 k` locations. -/
noncomputable def narrowLine (k : ℕ) : Session ℝ ℝ := .fresh 0 "c" { realConfig with k := k } (fun _ => 1) (.empty .f64)

theorem untouched_empty : (Store.empty .f64 : Store ℝ).Untouched 0 :=
  ⟨fun _ => rfl, fun _ => rfl, fun _ => rfl, fun _ => rfl⟩

/-- No transforms. -/
noncomputable def noFft : RealFft ℝ := ⟨realOps, fun _ _ => none, fun _ _ => none⟩

section Opposite

variable [SeededUniform ℝ]

/-- Four documents of one vector, and one of the opposite vector. -/
def opposites : List (List ℝ × List UInt8) := [([1], []), ([1], []), ([1], []), ([1], []), ([-1], [])]

/-- The documents of one vector deleted. -/
theorem run_opposites {k : ℕ} (hwrite : DocumentStep (narrowLine k)
    (.writeBatchWithMetadata opposites, .ok (.documents [0, 1, 2, 3, 4]))
    (Call.effect (narrowLine k) (.writeBatchWithMetadata opposites))) : ∃ es s, Run DocumentStep (narrowLine k) es s ∧
    s.collection = (Call.effect (narrowLine k) (.writeBatchWithMetadata opposites)).collection ∧
    ∀ d, liveAfter es d = if d = 4 then some ([-1], []) else none := by
  have hplaced := placed_run untouched_empty rfl (Run.single hwrite)
  obtain ⟨es, s, hrun, hcollection, hlive⟩ := run_deletions hplaced.filed.valid [0, 1, 2, 3]
  refine ⟨_, s, (Run.single hwrite).trans hrun, hcollection, fun d => ?_⟩
  rw [liveAfter, List.foldl_append, hlive]
  show (if d ∈ [0, 1, 2, 3] then none else
    Live.enter (fun _ => none) (List.range' 0 opposites.length) opposites d) = _
  rw [Live.enter_range']
  rcases d with _ | _ | _ | _ | _ | d
  iterate 5 · rfl
  · simp [opposites]

/-- The location of the opposite vector is not activated. -/
theorem not_activates_opposite {s : Session ℝ ℝ} {live : Live ℝ} (h : Placed { realConfig with k := 1 } live s)
    (hcollection : s.collection = (Call.effect (narrowLine 1) (.writeBatchWithMetadata opposites)).collection) :
    ¬Activates s.collection.inner [1] 1 4 := by
  have hlocations : s.collection.inner.locations =
      opposites.zipIdx.map fun p => freshLocation p.2 p.1.1 p.1.1 := by
    rw [hcollection]
    rfl
  have hunit : normalize [(1 : ℝ)] = [1] := by
    rw [normalize, lit_tiny, l2Norm_singleton zero_le_one, if_neg (mt lt_real.mp (by norm_num [tiny]))]
    simp
  have hsim : ∀ x : ℝ, dot (normalize [1]) [x] = x := fun x => by
    rw [hunit, dot, sum_real]
    simp
  obtain ⟨r, hr, heq⟩ := activated_candidateLocations h.filed.arrays h.filed.shaped [1] 1
  have hcount := hr.count
  rw [h.configured, hlocations] at hcount
  rintro ⟨i, hi, hid⟩
  rw [← heq] at hi
  have hlt := List.mem_range.mp (hr.within i hi)
  rw [hlocations] at hlt hid
  have hfive : i < 5 := hlt
  obtain rfl : i = 4 := by
    interval_cases i
    iterate 4 · cases hid
    · rfl
  -- one of the four others was left out for it
  obtain ⟨j, hj, hout⟩ : ∃ j < 4, j ∉ r.1 := by
    by_contra hall
    push Not at hall
    have hsub : List.range 5 ⊆ r.1 := fun j hj => by
      rcases Nat.lt_succ_iff_lt_or_eq.mp (List.mem_range.mp hj) with hj | rfl
      · exact hall j hj
      · exact hi
    have hlength := (List.subperm_of_subset List.nodup_range hsub).length_le
    rw [hcount] at hlength
    exact absurd hlength (by decide)
  have hbest := hr.best 4 hi j (by rw [hlocations]; exact List.mem_range.mpr (hj.trans (by decide))) hout
  rw [similarity, similarity, hlocations] at hbest
  have hopposite : dot (normalize [1])
      (locationAt (opposites.zipIdx.map fun p => freshLocation p.2 p.1.1 p.1.1) 4).address = -1 := hsim (-1)
  have hone : dot (normalize [1])
      (locationAt (opposites.zipIdx.map fun p => freshLocation p.2 p.1.1 p.1.1) j).address = 1 := by
    interval_cases j <;> exact hsim 1
  rw [hopposite, hone, Bool.eq_false_iff, ne_eq, lt_real] at hbest
  exact hbest (by norm_num)

end Opposite

/-- With room for twelve locations the one document left is found, the four
deleted ones notwithstanding. -/
theorem query_exact_among_deleted : ∃ (_ : SeededUniform ℝ) (es : List (Event ℝ)) (s : Session ℝ ℝ),
    Run DocumentStep (narrowLine 3) es s ∧ (∀ d, liveAfter es d = if d = 4 then some ([-1], []) else none) ∧
    ∃ result, queryDocuments noFft id s [1] 1 = .ok result ∧ Exact (found s) [1] 1 result := by
  let _ : SeededUniform ℝ := { uniform := fun _ => 0 }
  obtain ⟨es, s, hrun, hcollection, hlive⟩ := run_opposites (k := 3) ⟨trivial, step_of_isOk rfl⟩
  have hplaced := placed_run untouched_empty rfl hrun
  obtain ⟨hfound, -, -, result, hresult, hiff⟩ := query_exact_iff untouched_empty rfl hrun noFft
    (fun l => .refl l : Arranges id) (rfl : ([1] : List ℝ).length = realConfig.d) 1
  refine ⟨inferInstance, es, s, hrun, hlive, result, hresult, hiff.mpr fun d v hv hout => ?_⟩
  -- only the opposite document is live, and its location is among the five
  have hsome := (hfound d).mp (hv ▸ rfl)
  rw [hlive] at hsome
  obtain rfl : d = 4 := by
    by_contra hd
    rw [if_neg hd] at hsome
    cases hsome
  have hlocations : s.collection.inner.locations = opposites.zipIdx.map fun p => freshLocation p.2 p.1.1 p.1.1 := by
    rw [hcollection]
    rfl
  have hloc : freshLocation 4 [-1] [-1] ∈ s.collection.inner.locations := by
    rw [hlocations]
    simp [opposites]
  have hroom : s.collection.inner.locations.length ≤ max (s.collection.inner.config.k * queryCandidateFactor) 1 := by
    rw [hlocations, hplaced.configured]
    decide
  exact absurd (activates_of_room hplaced.filed.arrays hplaced.filed.shaped hroom hloc) hout

/-- **Deleted documents keep their places among the activated**: with four of
them, the one live document is not found. -/
theorem query_not_exact : ¬∀ (_ : SeededUniform ℝ) (collectionId : ℕ) (name : String) (config : EAMConfig ℝ)
    (rng : Rng ℝ) (store : Store ℝ), store.Untouched collectionId → config.competitive = false →
    ∀ (es : List (Event ℝ)) (s : Session ℝ ℝ),
      Run DocumentStep (Session.fresh collectionId name config rng store) es s →
    ∀ (fft : RealFft ℝ) (arrange : List ℕ → List ℕ), Arranges arrange → ∀ query : List ℝ, query.length = config.d →
      l2Norm query ≠ 0 → ∀ (n : ℕ) (result : List (ℕ × ℝ × List UInt8)),
      queryDocuments fft arrange s query n = .ok result → Exact (found s) query n result := by
  intro hall
  let _ : SeededUniform ℝ := { uniform := fun _ => 0 }
  obtain ⟨es, s, hrun, hcollection, hlive⟩ := run_opposites (k := 1) ⟨trivial, step_of_isOk rfl⟩
  have hplaced := placed_run untouched_empty rfl hrun
  obtain ⟨result, hresult, hiff⟩ := hplaced.answer_exact_iff noFft (fun l => .refl l : Arranges id)
    (rfl : ([1] : List ℝ).length = 1) 1
  have hnorm : l2Norm [(1 : ℝ)] ≠ 0 := by
    rw [l2Norm_singleton zero_le_one]
    exact one_ne_zero
  have hexact := hall _ 0 "c" _ _ _ untouched_empty rfl es s hrun noFft id (fun l => .refl l) [1] rfl hnorm 1 result
    hresult
  have honly : ∀ d, (found s d).isSome → d = 4 := fun d hd => by
    have hsome := (hplaced.isSome_found d).mp hd
    rw [hlive] at hsome
    by_contra hd
    rw [if_neg hd] at hsome
    cases hsome
  obtain ⟨v, hv⟩ : ∃ v, found s 4 = some v :=
    Option.isSome_iff_exists.mp ((hplaced.isSome_found 4).mpr (by rw [hlive]; rfl))
  have hout : ¬Activates s.collection.inner [1] 1 (0 + 4) := not_activates_opposite hplaced hcollection
  have hmany := hiff.mp hexact 4 v hv hout
  have hnone : {e | Activates s.collection.inner [1] 1 (0 + e) ∧ ∃ w, found s e = some w ∧
      cosineSimilarity [1] v.1 ≤ cosineSimilarity [1] w.1} = ∅ :=
    Set.eq_empty_of_forall_notMem fun e ⟨he, w, hw, _⟩ => by
      obtain rfl := honly e (hw ▸ rfl)
      exact hout he
  have hzero : {e | Activates s.collection.inner [1] 1 (0 + e) ∧ ∃ w, found s e = some w ∧
      cosineSimilarity [1] v.1 ≤ cosineSimilarity [1] w.1}.ncard = 0 := by rw [hnone, Set.ncard_empty]
  exact absurd (hmany.trans_eq hzero) (by decide)

end HeatherDb
