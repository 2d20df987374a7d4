/-
# Document ids are given out once

A collection numbers its documents from a counter that it keeps in memory and
stores with every document write. A handle that loads the collection reads
the counter back. A handle that finds the collection without locations opens
it as a new one, which counts from 0, whatever the store says: an empty
snapshot, a restart and a create, and the next document takes the id, and the
record, of the first.

So ids are never reused as long as no create finds a collection that has
given out ids and has no stored location (`Hive.Forgets`). The invariant
(`Numbered`) bounds the ids given out and the stored documents by the stored
counter.

Key definitions: `Counted`, `Numbered`, `Hive.Forgets`.
Key theorems: `counted_step`, `numbered_step`, `document_ids_never_reused`.
-/
import HeatherDb.Life
import HeatherDb.Recoverable

namespace HeatherDb

open Scalar Narrow Program Store

variable {F S : Type} [Narrow F S]

/-! ### The counter bounds the ids -/

/-- The stored counter is above every id given out and every stored document. -/
structure Counted (used : List ℕ) (store : Store F) (collectionId n : ℕ) : Prop where
  counter : store.loadU64 collectionId "doc_next_id" 0 = .ok n
  given : ∀ id ∈ used, id < n
  stored : ∀ id, (store.getDocument collectionId id).isSome → id < n
  nodup : used.Nodup

namespace Counted

variable {used : List ℕ} {store store' : Store F} {collectionId n : ℕ}

/-- The counter and the ids of the documents are all that matters. -/
theorem of_store (h : Counted used store collectionId n)
    (hm : store'.loadMetadata collectionId "doc_next_id" = store.loadMetadata collectionId "doc_next_id")
    (hd : ∀ id, (store'.getDocument collectionId id).isSome → (store.getDocument collectionId id).isSome) :
    Counted used store' collectionId n where
  counter := (loadU64_congr 0 hm).trans h.counter
  given := h.given
  stored id hid := h.stored id (hd id hid)
  nodup := h.nodup

theorem of_documents (h : Counted used store collectionId n)
    (hm : store'.loadMetadata collectionId "doc_next_id" = store.loadMetadata collectionId "doc_next_id")
    (hd : store'.documents = store.documents) : Counted used store' collectionId n :=
  h.of_store hm fun id hid => by
    rw [Store.getDocument, hd] at hid
    exact hid

/-- The next ids given out. -/
theorem extend (h : Counted used store collectionId n) {k : ℕ}
    (hm : store'.loadU64 collectionId "doc_next_id" 0 = .ok (n + k))
    (hd : ∀ id, id ∉ List.range' n k → store'.getDocument collectionId id = store.getDocument collectionId id) :
    Counted (used ++ List.range' n k) store' collectionId (n + k) where
  counter := hm
  given id hid := by
    rcases List.mem_append.mp hid with hid | hid
    · have := h.given id hid
      omega
    · exact (List.mem_range'_1.mp hid).2
  stored id hid := by
    by_cases hin : id ∈ List.range' n k
    · exact (List.mem_range'_1.mp hin).2
    · rw [hd id hin] at hid
      have := h.stored id hid
      omega
  nodup := by
    refine h.nodup.append List.nodup_range' fun id hid hid' => ?_
    have hlt := h.given id hid
    have hge := (List.mem_range'_1.mp hid').1
    omega

/-- Materializing rewrites documents under their own ids. -/
theorem materialized {s : Session F S} (h : Counted used s.store s.collection.collectionId n) :
    Counted used s.materialized.store s.collection.collectionId n := by
  have hstore : s.materialized.store = _ := materialize_eq _ _ _
  refine h.of_store (congrArg (loadMetadata · _ _) hstore :) fun id hid => ?_
  have hget : s.materialized.store.getDocument s.collection.collectionId id = _ :=
    getDocument_materialize s.store s.collection.collectionId s.collection.inner id
  rw [hget, Option.isSome_map] at hid
  exact hid

/-- A failed call gives out no id. -/
theorem failed [Scalar F] {s s' : Session F S} (h : Counted used s.store s.collection.collectionId n) {v : ℕ}
    (hf : Failed v s s') : Counted used s'.store s'.collection.collectionId n := by
  cases hf with
  | unchanged => exact h
  | materialized => exact h.materialized
  | recovered rng hr => exact h
  | recoveredMaterialized rng hr => exact h.materialized

/-- Writes give out the next ids to their documents. -/
theorem wrote [Scalar F] [Scalar S] {s : Session F S} (hr : s.Recoverable)
    (h : Counted used s.store s.collection.collectionId s.collection.inner.docNextId) {xs : List (Pattern F)}
    (hfit : s.Fits xs) {k : ℕ} {p : Puts F}
    (hids : p.documents.map (·.1) = List.range' s.collection.inner.docNextId k)
    (hmeta : k = 0 ∧ p.metadata = counters (s.written xs k).inner ∨
      p.metadata = documentCounters (s.written xs k).inner) :
    Counted (used ++ List.range' s.collection.inner.docNextId k) (s.wrote xs k p).store s.collection.collectionId
      (s.collection.inner.docNextId + k) := by
  have hg := Session.written_grown hr.shaped hfit
  have hnext : (s.written xs k).inner.docNextId = s.collection.inner.docNextId + k :=
    congrArg (· + k) hg.docNextId
  refine h.extend ?_ fun id hid => getDocument_putAll_of_notMem _ ?_
  · rw [← hnext]
    exact written_docNextId hg h.counter hmeta
  · rw [hids]
    exact hid

end Counted

variable [Scalar F] [Scalar S] [SeededUniform F]

/-- A call's whole effect gives out one id to each document it writes. -/
theorem counted_effect {s : Session F S} (hr : s.Recoverable) {used : List ℕ}
    (h : Counted used s.store s.collection.collectionId s.collection.inner.docNextId) {c : Call F}
    (hacc : c.Accepted s) :
    Counted (used ++ List.range' s.collection.inner.docNextId c.documents.length) (c.effect s).store
      s.collection.collectionId (s.collection.inner.docNextId + c.documents.length) := by
  have hm := h.materialized
  -- a call that writes no document
  have hnone : ∀ {store : Store F},
      Counted used store s.collection.collectionId s.collection.inner.docNextId →
      Counted (used ++ List.range' s.collection.inner.docNextId 0) store s.collection.collectionId
        (s.collection.inner.docNextId + 0) := fun h => by
    rw [List.range'_zero, List.append_nil]
    exact h
  cases c with
  | write input => exact h.wrote hr hacc rfl (Or.inl ⟨rfl, (counters_written ..).symm⟩)
  | writeTwo address counter opts => exact h.wrote hr hacc rfl (Or.inl ⟨rfl, (counters_written ..).symm⟩)
  | writeBatch inputs => exact h.wrote hr hacc rfl (Or.inl ⟨rfl, rfl⟩)
  | writeWithMetadata input metadata => exact h.wrote hr hacc rfl (Or.inr (documentCounters_written ..).symm)
  | writeBatchWithMetadata items =>
    by_cases hemp : items = []
    · subst hemp
      rw [Call.effect, if_pos rfl]
      exact hnone h
    · rw [Call.effect, if_neg hemp]
      exact h.wrote hr hacc (documentIds_documentBatch s items) (Or.inr rfl)
  | merge =>
    show Counted _ s.merged.store _ _
    unfold Session.merged
    dsimp only
    split_ifs with hremoved
    · exact hnone hm
    · have hstore := mergedInto_eq s.collection.collectionId s.materialized.store
        (knnMerge s.collection.inner.locations s.collection.inner.config).1
      exact hnone (hm.of_documents (congrArg (loadMetadata · _ _) hstore :) (congrArg Store.documents hstore :))
  | compress kappa lambda =>
    show Counted _ (s.compressed kappa lambda).store _ _
    unfold Session.compressed
    dsimp only
    split_ifs with hmerged
    · exact hnone hm
    · have hstore := compressedInto_eq s.collection.collectionId s.materialized.store
        (s.compression kappa lambda).1 (s.compression kappa lambda).2
      exact hnone (hm.of_documents (congrArg (loadMetadata · _ _) hstore :) (congrArg Store.documents hstore :))
  | loadSnapshotChecked snapshot config expected =>
    have hstore := replacedBy_eq s.collection.collectionId s.materialized.store s.collection.inner.locations
      snapshot.locations config
    have hload := loadMetadata_replacedBy s.materialized.store s.collection.collectionId
      s.collection.inner.locations snapshot.locations config "doc_next_id" (by decide)
    exact hnone (hm.of_documents hload (congrArg Store.documents hstore :))
  | deleteDocument writeIndex =>
    have hstore := withoutDocument_eq s.collection.collectionId writeIndex s.store
    refine hnone (h.of_store (congrArg (loadMetadata · _ _) hstore :) fun id hid => ?_)
    have hget : (s.store.withoutDocument s.collection.collectionId writeIndex).getDocument
        s.collection.collectionId id = _ :=
      (congrArg (fun t => t.documents.get ⟨s.collection.collectionId, id⟩) hstore).trans
        (OrderedTable.get_delete _ _ _)
    have hid : ((s.store.withoutDocument s.collection.collectionId writeIndex).getDocument
        s.collection.collectionId id).isSome := hid
    rw [hget] at hid
    split_ifs at hid with heq
    · simp at hid
    · exact hid

/-- The memory counts the documents too. -/
theorem docNextId_effect {s : Session F S} (hr : s.Recoverable) {c : Call F} (hacc : c.Accepted s) :
    (c.effect s).collection.inner.docNextId = s.collection.inner.docNextId + c.documents.length := by
  have hwrote : ∀ {xs : List (Pattern F)}, s.Fits xs → ∀ k p,
      (s.wrote xs k p).collection.inner.docNextId = s.collection.inner.docNextId + k := fun hfit k p =>
    congrArg (· + k) (Session.written_grown hr.shaped hfit).docNextId
  cases c with
  | write input => exact hwrote hacc 0 _
  | writeTwo address counter opts => exact hwrote hacc 0 _
  | writeBatch inputs => exact hwrote hacc 0 _
  | writeWithMetadata input metadata => exact hwrote hacc 1 _
  | writeBatchWithMetadata items =>
    by_cases hemp : items = []
    · subst hemp
      rw [Call.effect, if_pos rfl]
      rfl
    · rw [Call.effect, if_neg hemp]
      exact hwrote hacc _ _
  | merge =>
    show s.merged.collection.inner.docNextId = _
    unfold Session.merged
    dsimp only
    split_ifs <;> rfl
  | compress kappa lambda =>
    show (s.compressed kappa lambda).collection.inner.docNextId = _
    unfold Session.compressed
    dsimp only
    split_ifs <;> rfl
  | loadSnapshotChecked snapshot config expected => rfl
  | deleteDocument writeIndex => rfl

/-! ### One collection of a hive -/

/-- A create of this name would find a collection that has given out document
ids without a stored location, and open it as a new one. -/
def Hive.Forgets (hive : Hive F S) (name : String) : Prop :=
  hive.collections.get name = none ∧ ∃ collectionId, hive.store.registry.get name = some collectionId ∧
    hive.store.loadAllLocations collectionId = .ok [] ∧
    hive.store.loadU64 collectionId "doc_next_id" 0 ≠ .ok 0

namespace HiveEvent

/-- The event is a create that forgets the document counter. -/
def Forgets (hive : Hive F S) : HiveEvent F → Prop
  | .create name _ | .getOrCreate name _ => hive.Forgets name
  | _ => False

/-- The document ids the event gave out. -/
def documentIds : HiveEvent F → List ℕ
  | .call _ (_, .ok (.documents ids)) => ids
  | _ => []

omit [Scalar F] [SeededUniform F] in
theorem documentIds_of_isOperation {e : HiveEvent F} (h : e.IsOperation) : e.documentIds = [] := by
  cases e with
  | call k e => exact absurd h id
  | _ => rfl

end HiveEvent

/-- A step that is no create that forgets the document counter. -/
def Counts (name : String) (hive : Hive F S) (e : HiveEvent F) (hive' : Hive F S) : Prop :=
  Life name hive e hive' ∧ ¬ e.Forgets hive

/-- The name's collection is in order and counts its documents. -/
structure Numbered (name : String) (collectionId : ℕ) (used : List ℕ) (hive : Hive F S) : Prop where
  registered : hive.store.registry.get name = some collectionId
  memory : ∃ inner : EAMInner F S, Recoverable hive.store collectionId inner ∧
    Counted used hive.store collectionId inner.docNextId ∧ hive.Holds name collectionId inner

/-- A call gives out ids above all those before. -/
theorem counted_step {s s' : Session F S} (hr : s.Recoverable) {used : List ℕ}
    (h : Counted used s.store s.collection.collectionId s.collection.inner.docNextId) {e : Event F}
    (hstep : Step s e s') :
    Counted (used ++ HiveEvent.documentIds (.call 0 e)) s'.store s.collection.collectionId
      s'.collection.inner.docNextId := by
  obtain ⟨c, r⟩ := e
  rcases step_cases hstep with ⟨e, rfl, hf⟩ | ⟨hacc, rfl, rfl⟩
  · have hfailed := h.failed hf
    rw [hf.within.collectionId] at hfailed
    have hdoc := hr.failed_docNextId h.counter hf
    rw [hf.within.collectionId] at hdoc
    have hnext : s'.collection.inner.docNextId = s.collection.inner.docNextId :=
      Except.ok.inj (hdoc.symm.trans hfailed.counter)
    have hgiven : HiveEvent.documentIds (.call 0 (c, .error e)) = [] := rfl
    rw [hgiven, List.append_nil, hnext]
    exact hfailed
  · have hgiven : HiveEvent.documentIds (.call 0 (c, .ok (c.reply s))) =
        List.range' s.collection.inner.docNextId c.documents.length := by
      cases c <;> rfl
    rw [hgiven, docNextId_effect hr hacc]
    exact counted_effect hr h hacc

/-- **Every step of its life keeps the collection numbered**, but a create that
forgets the counter. -/
theorem numbered_step {name : String} {collectionId : ℕ} {used : List ℕ} {hive hive' : Hive F S}
    (h : Numbered name collectionId used hive) {e : HiveEvent F} (hcounts : Counts name hive e hive') :
    Numbered name collectionId (used ++ e.documentIds) hive' := by
  obtain ⟨hlife, hforget⟩ := hcounts
  obtain ⟨inner, hr, hc, hholds⟩ := h.memory
  obtain ⟨inner', hreg, hholds', hlived⟩ := life_cases h.registered hholds hlife
  refine ⟨hreg, inner', ?_⟩
  cases hlived with
  | idle p he hstore =>
    rw [HiveEvent.documentIds_of_isOperation he, List.append_nil, hstore]
    exact ⟨hr.of_store rfl rfl, hc.of_documents rfl rfl, hholds'⟩
  | @loaded e hive' col he hstore hload =>
    rw [HiveEvent.documentIds_of_isOperation he, List.append_nil, hstore]
    obtain ⟨_, _, _, _, -, -, -, hdoc, -, rfl⟩ := load_inv hload
    have hloaded := hr.reopened hload 0
    rw [Except.ok.inj (hc.counter.symm.trans hdoc)] at hc
    exact ⟨hloaded, hc, hholds'⟩
  | @new e hive' r he hcache hempty hstore =>
    have hforgets : e.Forgets hive = hive.Forgets name := by rcases he with rfl | rfl <;> rfl
    have hop : e.IsOperation := by rcases he with rfl | rfl <;> trivial
    have hzero : hive.store.loadU64 collectionId "doc_next_id" 0 = .ok 0 := by
      by_contra hne
      rw [hforgets] at hforget
      exact hforget ⟨hcache, collectionId, h.registered, hempty, hne⟩
    have hkey : "doc_next_id" ∉ (newPuts hive.config hive.rng).metadata.map (·.1) := by simp [newPuts]
    rw [HiveEvent.documentIds_of_isOperation hop, List.append_nil, hstore]
    refine ⟨recoverable_fresh name hive.config hive.rng (locationAt?_of_loadAll hempty) ⟨0, hzero⟩, ?_, hholds'⟩
    rw [Except.ok.inj (hc.counter.symm.trans hzero)] at hc
    refine hc.of_store (loadMetadata_putAll_of_notMem _ hkey) fun id hid => ?_
    have hnone : id ∉ (newPuts hive.config hive.rng).documents.map (·.1) := by simp [newPuts]
    rwa [← getDocument_putAll_of_notMem hive.store hnone]
  | @called ev hive' s s' hs hstore hid hinner hstep hstore' =>
    subst hid hinner
    rw [← hstore] at hr hc
    have hwithin := step_within hstep
    rw [hstore']
    exact ⟨hwithin.collectionId ▸ recoverable_step hr hstep, counted_step hr hc hstep, hholds'⟩

/-! ### Ids are not reused -/

/-- A document write that succeeds keeps every record there was. -/
theorem getDocument_of_written {used : List ℕ} {s s' : Session F S}
    (hc : Counted used s.store s.collection.collectionId s.collection.inner.docNextId) {c : Call F} {r : Reply F}
    (hdocs : c.documents ≠ []) (hstep : Step s (c, .ok r) s') {id : ℕ} {d : DocumentRecord F}
    (hd : s.store.getDocument s.collection.collectionId id = some d) :
    s'.store.getDocument s.collection.collectionId id = some d := by
  rcases step_cases hstep with ⟨e, herr, -⟩ | ⟨-, -, rfl⟩
  · simp at herr
  have hlt : id < s.collection.inner.docNextId := hc.stored id (by rw [hd]; rfl)
  have hkeep : ∀ {xs : List (Pattern F)} {k : ℕ} {p : Puts F},
      p.documents.map (·.1) = List.range' s.collection.inner.docNextId k →
      (s.wrote xs k p).store.getDocument s.collection.collectionId id = some d := by
    intro xs k p hids
    refine (getDocument_putAll_of_notMem s.store ?_).trans hd
    rw [hids, List.mem_range'_1]
    omega
  cases c with
  | writeWithMetadata input metadata => exact hkeep (k := 1) rfl
  | writeBatchWithMetadata items =>
    have hitems : items ≠ [] := hdocs
    rw [Call.effect, if_neg hitems]
    exact hkeep (documentIds_documentBatch s items)
  | _ => exact absurd rfl hdocs

/-- **Document ids are given out once**: over every life of a collection in
which no create forgets its counter, no two documents get one id, and no
document write touches a record there was. -/
theorem document_ids_never_reused {name : String} {collectionId : ℕ} {hive hive' : Hive F S}
    (hnone : hive.handles = []) (hcache : hive.collections.get name = none)
    (hreg : hive.store.registry.get name = some collectionId) (hnew : hive.store.Untouched collectionId)
    {es : List (HiveEvent F)}
    (hrun : Run (Counts name) hive es hive') :
    (es.flatMap HiveEvent.documentIds).Nodup ∧
      ∀ {h : ℕ} {c : Call F} {r : Reply F} {hive'' : Hive F S}, Life name hive' (.call h (c, .ok r)) hive'' →
        c.documents ≠ [] → ∀ id d, hive'.store.getDocument collectionId id = some d →
          hive''.store.getDocument collectionId id = some d := by
  have hnumbered : Numbered name collectionId (es.flatMap HiveEvent.documentIds) hive' := by
    refine hrun.history (P := fun es hive => Numbered name collectionId (es.flatMap HiveEvent.documentIds) hive)
      ⟨hreg, _, recoverable_untouched hive.config hnew,
        ⟨hnew.loadU64 _ _, by simp, fun id hid => by simp [hnew.documents] at hid, List.nodup_nil⟩,
        .closed hnone hcache⟩ ?_
    intro es hive e hive' h hstep
    rw [List.flatMap_append, List.flatMap_singleton]
    exact numbered_step h hstep
  refine ⟨?_, ?_⟩
  · obtain ⟨inner, -, hc, -⟩ := hnumbered.memory
    exact hc.nodup
  · rintro h c r hive'' ⟨-, plan, hstep⟩ hdocs id d hd
    cases hstep with
    | call hs hr hrun =>
      obtain ⟨inner, -, hc, hholds⟩ := hnumbered.memory
      obtain ⟨-, -, -, hstore, rfl, rfl⟩ := hholds.session hs
      rw [← hstore] at hc hd
      exact getDocument_of_written hc hdocs ⟨hr, plan, _, hrun⟩ hd

/-- A document written before a restart and another after. -/
theorem document_ids_never_reused_reopened :
    let hive := smallHive.created.calling (.writeWithMetadata [1] [7])
    let reopened := (Hive.getCollection "c" ⟨hive.restarted, []⟩).2.state
    ([smallHive.created.answer (.writeWithMetadata [1] [7]),
      reopened.answer (.writeWithMetadata [1] [8])].flatMap HiveEvent.documentIds).Nodup := by
  intro hive reopened
  have hforget : ¬ smallHive.Forgets "c" := by
    rintro ⟨-, id, hid, -, hne⟩
    obtain rfl : 0 = id := Option.some.inj hid
    exact hne rfl
  have hcreate : Counts "c" smallHive (.create "c" (.ok 0)) smallHive.created :=
    ⟨smallHive.life_create (by decide +kernel), hforget⟩
  have hwrite : Counts "c" smallHive.created (smallHive.created.answer (.writeWithMetadata [1] [7])) hive :=
    ⟨smallHive.created.life_call _ (by decide +kernel), id⟩
  have hrestart : Counts "c" hive (.restart (smallConfig false)) hive.restarted := ⟨hive.life_restart, id⟩
  have hget : Counts "c" hive.restarted (.get "c" (.ok (some 0))) reopened :=
    ⟨⟨rfl, [], .get (Prod.ext (by decide +kernel) rfl)⟩, id⟩
  have hagain : Counts "c" reopened (reopened.answer (.writeWithMetadata [1] [8])) _ :=
    ⟨reopened.life_call _ (by decide +kernel), id⟩
  have hrun := ((((Run.single hcreate).snoc hwrite).snoc hrestart).snoc hget).snoc hagain
  exact (document_ids_never_reused rfl rfl rfl smallHive_untouched hrun).1

/-- The locations replaced by none, a restart and a create: the next document
takes the id of the first. -/
theorem document_ids_reused :
    ∃ es hive', Run (Life "c") smallHive es hive' ∧ es.flatMap HiveEvent.documentIds = [0, 0] := by
  let written := smallHive.created.calling (.writeWithMetadata [1] [7])
  let emptied := written.calling (.loadSnapshotChecked emptySnapshot (smallConfig false) none)
  have hcreate := smallHive.life_create (h := 0) (by decide +kernel)
  have hwrite := smallHive.created.life_call (.writeWithMetadata [1] [7]) (by decide +kernel)
  have hload := written.life_call (.loadSnapshotChecked emptySnapshot (smallConfig false) none) (by decide +kernel)
  have hagain := emptied.restarted.life_create (h := 0) (by decide +kernel)
  have hreused := emptied.restarted.created.life_call (.writeWithMetadata [1] [8]) (by decide +kernel)
  have hrun := (((((Run.single hcreate).snoc hwrite).snoc hload).snoc emptied.life_restart).snoc hagain).snoc hreused
  exact ⟨_, _, hrun, by decide +kernel⟩

end HeatherDb
