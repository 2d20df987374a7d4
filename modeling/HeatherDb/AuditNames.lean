/-
# What the access log names

The audited read handlers of `routes.rs` beside the record that each leaves.
A handler makes the list of ids for the log apart from its response. A
response names locations by their place in memory; a location's id stays the
same when merges move it, and the log is searched by it.

`attention` records how many answers it gave and no ids. `analyze` records the
places of the activated locations, which are their ids as long as no location
before them was removed: ids ascend along the memory (`Ascending`). A document
query records the ids of all hits, of which its response lists those with
metadata that parses.

Key definitions: `AuditedRequest.handle`, `AuditedStep`, `Logged.Names`,
`AuditedRequest.Stands`.
Key theorems: `ascending_step`, `names_iff`, `log_names_iff`.
-/
import HeatherDb.Audit
import HeatherDb.Neighbors
import HeatherDb.PlainSearch

namespace HeatherDb

open Scalar Narrow Exponential

/-! ### Records of reads -/

/-- Who asks, and of which database. -/
structure AuditCtx where
  user : String
  scope : String
  db : String

/-- What a read returned, in audit terms. -/
structure ReadEvent (F : Type) where
  collection : String
  route : String
  status : ℕ
  resultCount : ℕ
  locationIds : List ℕ
  documentIds : List ℕ
  queryHash : Option String
  queryRaw : Option (List F)

/-- The identifiers a read handed back, as the log wants them. -/
structure AuditIds where
  resultCount : ℕ
  locationIds : List ℕ
  documentIds : List ℕ

namespace AuditIds

/-- `AuditIds::default` -/
def empty : AuditIds := ⟨0, [], []⟩

def documents (ids : List ℕ) : AuditIds := ⟨ids.length, [], ids⟩

def locations (ids : List ℕ) : AuditIds := ⟨ids.length, ids, []⟩

def count (n : ℕ) : AuditIds := ⟨n, [], []⟩

end AuditIds

/-- The query vector, in audit terms. -/
structure AuditQueryInfo (F : Type) where
  hash : Option String
  raw : Option (List F)

/-- What an audited handler has beside its collection: the log's configuration,
`query_hash`, `serde_json::from_slice`, the transforms and the order of a hash
set. -/
structure AuditSite (F J : Type) where
  config : AuditConfig
  queryHash : List F → String
  fromSlice : List UInt8 → Option J
  fft : RealFft F
  arrange : List ℕ → List ℕ

variable {F S J : Type}

/-- `AuditQueryInfo::of` -/
def AuditQueryInfo.of (site : AuditSite F J) (query : List F) : AuditQueryInfo F where
  hash := some (site.queryHash query)
  raw := if site.config.storeRawQuery then some query else none

/-- `audit::record`: the record that the log is given, if it is on. The log
writes the number and the time. -/
def AuditCtx.record (ctx : AuditCtx) (config : AuditConfig) (ev : ReadEvent F) : Option (AuditRecord F) :=
  if !config.enabled then none
  else some
    { seq := 0
      timestampMs := 0
      user := ctx.user
      scope := ctx.scope
      database := ctx.db
      collection := ev.collection
      route := ev.route
      status := ev.status
      resultCount := ev.resultCount
      locationIds := ev.locationIds
      documentIds := ev.documentIds
      queryHash := ev.queryHash
      queryRaw := if config.storeRawQuery then ev.queryRaw else none }

def auditRead (site : AuditSite F J) (ctx : AuditCtx) (collection route : String) (status : ℕ) (ids : AuditIds)
    (q : AuditQueryInfo F) : Option (AuditRecord F) :=
  ctx.record site.config
    { collection := collection
      route := route
      status := status
      resultCount := ids.resultCount
      locationIds := ids.locationIds
      documentIds := ids.documentIds
      queryHash := q.hash
      queryRaw := q.raw }

/-! ### The handlers -/

structure QueryDocumentResult (F J : Type) where
  id : ℕ
  similarity : F
  metadata : J
  roleScores : Option (List F)

/-- The bodies of the responses. -/
inductive AuditedResponse (F J : Type) where
  | attention (result : List F) (beta : F) (contributors : List (AttentionContributor F))
  | analyze (trace : ReadTrace F)
  | documents (results : List (QueryDocumentResult F J)) (cleanupBeta : Option F)

/-- Why a request is refused: by the handler or by the collection. -/
inductive Refused where
  | handler (message : String)
  | collection (e : HeatherError)

/-- The record of a request and its answer. -/
abbrev Audited (F J : Type) := Option (AuditRecord F) × Except Refused (AuditedResponse F J)

/-- A handler's end: the record of the read, then the response. -/
def audited {α : Type} (site : AuditSite F J) (ctx : AuditCtx) (collection route : String) (query : List F)
    (result : Except HeatherError α) (ids : α → AuditIds) (respond : α → AuditedResponse F J) : Audited F J :=
  match result with
  | .ok a => (auditRead site ctx collection route 200 (ids a) (.of site query), .ok (respond a))
  | .error e => (auditRead site ctx collection route 400 .empty (.of site query), .error (.collection e))

def ReadStrategy.parse (strategy : Option String) : Except Refused ReadStrategy :=
  match strategy.getD "iterative" with
  | "fast" => .ok .hopfieldSS
  | "iterative" => .ok .hopfieldIter
  | other => .error (.handler ("unknown strategy: '" ++ other ++ "'. use 'iterative' or 'fast'"))

/-- The requests that are audited and name what they return. -/
inductive AuditedRequest (F : Type) where
  | attention (query : List F) (scale : F) (excludeId : Option ℕ)
  | analyze (query : List F) (strategy : Option String)
  | queryDocuments (query : List F) (n : ℕ) (unbindRole : Option (List F)) (rolePairs : List (List F × List F))
      (cleanup : RoleCleanup F)

variable [Scalar F] [Narrow F S] [Exponential F]

namespace Routes

variable (site : AuditSite F J) (ctx : AuditCtx) (s : Session F S)

def attention (query : List F) (scale : F) (excludeId : Option ℕ) : Audited F J :=
  audited site ctx s.collection.name "attention" query
    (readAttentionTraced s.collection.inner query scale excludeId)
    (fun _ => .count 1) fun trace => .attention trace.result scale trace.contributors

def analyze (query : List F) (strategy : Option String) : Audited F J :=
  match ReadStrategy.parse strategy with
  | .error e => (none, .error e)
  | .ok strategy =>
    audited site ctx s.collection.name "analyze" query (analyzeRead s.collection.inner query strategy)
      (fun trace => .locations (trace.activatedLocations.map (·.id))) .analyze

/-- Multi-role arm of `query_documents`. -/
def multiRoleQuery (query : List F) (n : ℕ) (rolePairs : List (List F × List F)) (cleanup : RoleCleanup F) :
    Audited F J :=
  audited site ctx s.collection.name "documents/query" query
    (queryDocumentsMultiRole site.fft site.arrange s query n rolePairs cleanup)
    (fun out => .documents (out.hits.map (·.docId)))
    fun out => .documents (out.hits.filterMap fun hit => (site.fromSlice hit.metadata).map fun metadata =>
      ⟨hit.docId, hit.recallScore, metadata, some hit.roleScores⟩) out.cleanupBeta

def queryDocuments (query : List F) (n : ℕ) (unbindRole : Option (List F)) (rolePairs : List (List F × List F))
    (cleanup : RoleCleanup F) : Audited F J :=
  if !rolePairs.isEmpty then
    if unbindRole.isSome then
      (none, .error (.handler ("`unbind_role` and `role_pairs` are mutually exclusive: the single-role path reuses " ++
        "`query` as the filler, the multi-role path gives every pair its own")))
    else multiRoleQuery site ctx s query n rolePairs cleanup
  else
    audited site ctx s.collection.name "documents/query" query
      (queryDocumentsScoped site.fft site.arrange s query n unbindRole)
      (fun rs => .documents (rs.map (·.1)))
      fun rs => .documents (rs.filterMap fun r => (site.fromSlice r.2.2).map fun metadata =>
        ⟨r.1, r.2.1, metadata, none⟩) none

end Routes

/-- The record and the answer of a request. -/
def AuditedRequest.handle (site : AuditSite F J) (ctx : AuditCtx) (s : Session F S) : AuditedRequest F → Audited F J
  | .attention query scale excludeId => Routes.attention site ctx s query scale excludeId
  | .analyze query strategy => Routes.analyze site ctx s query strategy
  | .queryDocuments query n unbindRole rolePairs cleanup =>
    Routes.queryDocuments site ctx s query n unbindRole rolePairs cleanup

/-! ### What a response identifies -/

namespace AuditedResponse

/-- The ids of the locations at the places that a response names. -/
def locationIds (inner : EAMInner F S) : AuditedResponse F J → List ℕ
  | .attention _ _ contributors => contributors.map fun c => (locationAt inner.locations c.id).id
  | .analyze trace => trace.activatedLocations.map fun a => (locationAt inner.locations a.id).id
  | .documents .. => []

/-- The ids of the documents that a response lists. -/
def documentIds : AuditedResponse F J → List ℕ
  | .documents results _ => results.map (·.id)
  | _ => []

end AuditedResponse

/-- A record in the log, and what the response beside it identified. -/
structure Logged (F : Type) where
  record : AuditRecord F
  locations : List ℕ
  documents : List ℕ

/-- The record lists every location and document that the response identified. -/
def Logged.Names (entry : Logged F) : Prop :=
  entry.locations ⊆ entry.record.locationIds ∧ entry.documents ⊆ entry.record.documentIds

/-- A collection with the records of what was read of it. -/
structure AuditedSession (F S : Type) where
  session : Session F S
  log : List (Logged F)

/-- A call with its answer, or a request. -/
inductive AuditedEvent (F : Type) where
  | call (e : Event F)
  | request (ctx : AuditCtx) (r : AuditedRequest F)

/-- A write, merge, compression or deletion, whether it succeeds or not, or a
successful request, which leaves its record in the log. -/
inductive AuditedStep [Scalar S] [SeededUniform F] (site : AuditSite F J) (s : AuditedSession F S) :
    AuditedEvent F → AuditedSession F S → Prop
  | call {e : Event F} {session' : Session F S} (hbuilds : e.1.Builds) (hstep : Step s.session e session') :
    AuditedStep site s (.call e) ⟨session', s.log⟩
  | request {ctx : AuditCtx} {r : AuditedRequest F} {response : AuditedResponse F J}
      (hok : (r.handle site ctx s.session).2 = .ok response) :
    AuditedStep site s (.request ctx r) ⟨s.session, s.log ++ (r.handle site ctx s.session).1.toList.map fun record =>
      ⟨record, response.locationIds s.session.collection.inner, response.documentIds⟩⟩

/-- The places that a request names stand for the ids that its record has: an
attention read finds no location to answer, and every location that an
analysed read activates is at the place of its id. -/
def AuditedRequest.Stands (inner : EAMInner F S) : AuditedRequest F → Prop
  | .attention _ _ excludeId => inner.config.k = 0 ∨ ∀ i < inner.locations.length, excludeId = some i
  | .analyze query _ => ∀ i ∈ (inner.activated query).1, (locationAt inner.locations i).id = i
  | .queryDocuments .. => True

def AuditedEvent.Stands (inner : EAMInner F S) : AuditedEvent F → Prop
  | .call _ => True
  | .request _ r => r.Stands inner

/-! ### Ids ascend along the memory -/

section Places

omit [Exponential F]

/-- In order, and the ids of the locations ascend. -/
structure Ascending (store : Store F) (collectionId : ℕ) (inner : EAMInner F S) : Prop extends
    Recoverable store collectionId inner where
  ascending : (inner.locations.map (·.id)).Pairwise (· < ·)

namespace Ascending

variable {store : Store F} {collectionId : ℕ} {inner : EAMInner F S}

omit [Scalar F] in
theorem distinct (h : Ascending store collectionId inner) : Distinct store collectionId inner :=
  ⟨h.toRecoverable, h.ascending.imp ne_of_lt⟩

/-- A new collection numbers its locations from 0. -/
theorem opened_new (name : String) (config : EAMConfig F) (rng : Rng F) (hnew : store.Untouched collectionId) :
    Ascending (Session.fresh (S := S) collectionId name config rng store).store collectionId
      (Session.fresh (S := S) collectionId name config rng store).collection.inner where
  toRecoverable := recoverable_fresh name config rng hnew.locations ⟨0, hnew.loadU64 _ _⟩
  ascending := by
    show ((randomLocations config rng).1.map (·.id)).Pairwise (· < ·)
    rw [(randomLocations_ok config rng).1]
    exact List.pairwise_lt_range

/-- What loads ascends, as the store does. -/
theorem recovered {s : Session F S} (h : s.Recoverable) {v : ℕ} (hr : Recovered s v inner) :
    (inner.locations.map (·.id)).Pairwise (· < ·) := by
  obtain ⟨loaded, hload⟩ := h.load s.collection.name
  unfold Recovered at hr
  rw [hload] at hr
  subst hr
  exact ascending_ids_of_load (locations_of_load hload) fun id r hr => (h.known id r hr).1

theorem failed {s s' : Session F S} (h : Ascending s.store s.collection.collectionId s.collection.inner) {v : ℕ}
    (hf : Failed v s s') : Ascending s'.store s'.collection.collectionId s'.collection.inner := by
  refine ⟨h.toRecoverable.failed hf, ?_⟩
  cases hf with
  | unchanged => exact h.ascending
  | materialized => exact h.ascending
  | recovered rng hr => exact recovered h.toRecoverable hr
  | recoveredMaterialized rng hr => exact recovered h.toRecoverable.materialized hr

/-- Writes add locations at the end, under fresh ids. -/
theorem written [Scalar S] {s : Session F S} (h : Ascending s.store s.collection.collectionId s.collection.inner)
    {xs : List (Pattern F)} (hfit : s.Fits xs) (n : ℕ) :
    ((s.written xs n).inner.locations.map (·.id)).Pairwise (· < ·) := by
  have hids : (s.written xs n).inner.locations.map (·.id) = _ := (Session.written_grown h.shaped hfit).ids
  rw [hids]
  refine List.pairwise_append.mpr ⟨h.ascending, List.pairwise_lt_range', fun a ha b hb => ?_⟩
  obtain ⟨loc, hloc, rfl⟩ := List.mem_map.mp ha
  exact (h.fresh loc hloc).trans_le (List.mem_range'_1.mp hb).1

variable [SeededUniform F]

/-- A call's whole effect keeps ids ascending: a consolidation removes
locations and moves none past another. -/
theorem effect [Scalar S] {s : Session F S} (h : Ascending s.store s.collection.collectionId s.collection.inner)
    {c : Call F} (hbuilds : c.Builds) (hacc : c.Accepted s) :
    Ascending (c.effect s).store (c.effect s).collection.collectionId (c.effect s).collection.inner := by
  refine ⟨recoverable_effect h.toRecoverable hacc, ?_⟩
  cases c with
  | write input => exact h.written hacc 0
  | writeTwo address counter opts => exact h.written hacc 0
  | writeBatch inputs => exact h.written hacc 0
  | writeWithMetadata input metadata => exact h.written hacc 1
  | writeBatchWithMetadata items =>
    by_cases hemp : items = []
    · rw [Call.effect, if_pos hemp]
      exact h.ascending
    · rw [Call.effect, if_neg hemp]
      exact h.written hacc _
  | merge =>
    rw [(absorbed_effect h.distinct (c := .merge) trivial).ids]
    exact h.ascending.filter _
  | compress kappa lambda =>
    rw [(absorbed_effect h.distinct (c := .compress kappa lambda) trivial).ids]
    exact h.ascending.filter _
  | loadSnapshotChecked snapshot config expected => exact hbuilds.elim
  | deleteDocument writeIndex => exact h.ascending

end Ascending

/-- **Every call keeps ids ascending**, also when it fails. -/
theorem ascending_step [Scalar S] [SeededUniform F] {s s' : Session F S}
    (h : Ascending s.store s.collection.collectionId s.collection.inner) {e : Event F} (hbuilds : e.1.Builds)
    (hstep : Step s e s') : Ascending s'.store s'.collection.collectionId s'.collection.inner := by
  obtain ⟨c, r⟩ := e
  rcases step_cases hstep with ⟨e, -, hf⟩ | ⟨hacc, rfl, rfl⟩
  · exact h.failed hf
  · exact h.effect hbuilds hacc

/-- Ids are as far apart as the places of their locations. -/
theorem add_le_of_ascending {locations : List (HardLocation F)} (h : (locations.map (·.id)).Pairwise (· < ·)) {i : ℕ} :
    ∀ {n : ℕ}, i + n < locations.length → (locationAt locations i).id + n ≤ (locationAt locations (i + n)).id
  | 0, _ => le_refl _
  | n + 1, hn => by
    have ih := add_le_of_ascending h (i := i) (n := n) (by omega)
    have hmid : i + n < locations.length := by omega
    have hnext := List.pairwise_iff_getElem.mp (List.pairwise_map.mp h) (i + n) (i + (n + 1)) hmid hn (by omega)
    rw [locationAt, locationAt, List.getD_eq_getElem _ _ hmid] at ih
    rw [locationAt, locationAt, List.getD_eq_getElem _ _ hn]
    omega

/-- **Places that hold the ids of each other** hold their own: the last of
them does, and ids are as far apart as places. -/
theorem ids_among_iff {locations : List (HardLocation F)} (h : (locations.map (·.id)).Pairwise (· < ·))
    {indices : List ℕ} (hin : ∀ i ∈ indices, i < locations.length) :
    (indices.map fun i => (locationAt locations i).id) ⊆ indices ↔ ∀ i ∈ indices, (locationAt locations i).id = i := by
  constructor
  · intro hsub i hi
    obtain ⟨last, hlast, hgreatest⟩ := indices.toFinset.exists_max_image id ⟨i, List.mem_toFinset.mpr hi⟩
    have hlast := List.mem_toFinset.mp hlast
    have htop : (locationAt locations last).id ≤ last :=
      hgreatest _ (List.mem_toFinset.mpr (hsub (List.mem_map_of_mem hlast)))
    have hle : i ≤ last := hgreatest i (List.mem_toFinset.mpr hi)
    have hpast : (locationAt locations i).id + (last - i) ≤ (locationAt locations (i + (last - i))).id :=
      add_le_of_ascending h (by have := hin last hlast; omega)
    have hbelow : (locationAt locations 0).id + i ≤ (locationAt locations (0 + i)).id :=
      add_le_of_ascending h (by have := hin i hi; omega)
    rw [Nat.add_sub_cancel' hle] at hpast
    rw [Nat.zero_add] at hbelow
    omega
  · intro hown id hid
    obtain ⟨i, hi, rfl⟩ := List.mem_map.mp hid
    rw [hown i hi]
    exact hi

/-! ### What is activated -/

section Activated

variable {inner : EAMInner F S} (harrays : Indexed inner) (hshaped : Shaped inner.config.d inner.locations)

include harrays hshaped

/-- The scan finds as many places as it can hold, each once. -/
theorem places_activateAutoFull (query : List F) (k : ℕ) :
    (activateAutoFull query inner.locations k inner.addressMatrix inner.config.d).1.Subperm
        (List.range inner.locations.length) ∧
      (activateAutoFull query inner.locations k inner.addressMatrix inner.config.d).1.length =
        min k inner.locations.length ∧
      (activateAutoFull query inner.locations k inner.addressMatrix inner.config.d).2.length =
        min k inner.locations.length := by
  have hlength : (topK k (scored query inner.locations)).length = min k inner.locations.length := by
    rw [length_topK, length_scored]
  have hplaces : (scored query inner.locations).map Prod.fst = List.range inner.locations.length := by
    rw [scored, List.map_map]
    exact List.map_id _
  rw [activateAutoFull_eq harrays hshaped, List.unzip_fst, List.unzip_snd, List.length_map, List.length_map]
  refine ⟨?_, hlength, hlength⟩
  obtain ⟨kept, hperm, hsub⟩ := topK_subperm k (scored query inner.locations)
  rw [← hplaces]
  exact ⟨kept.map Prod.fst, hperm.map Prod.fst, hsub.map Prod.fst⟩

theorem lt_of_mem_activated {query : List F} {i : ℕ} (hi : i ∈ (inner.activated query).1) :
    i < inner.locations.length :=
  List.mem_range.mp ((places_activateAutoFull harrays hshaped query _).1.subset hi)

/-- **No location answers** an attention read when none may, or when the only
one is excluded. -/
theorem activateLocked_eq_nil_iff (query : List F) (exclude : Option ℕ) :
    activateLocked inner query exclude none = [] ↔
      inner.config.k = 0 ∨ ∀ i < inner.locations.length, exclude = some i := by
  cases exclude with
  | none =>
    obtain ⟨-, hlength, -⟩ := places_activateAutoFull harrays hshaped query
      (min inner.config.k inner.locations.length)
    simp only [activateLocked, Option.isSome_none, Bool.false_eq_true, if_false, Nat.add_zero]
    rw [← List.length_eq_zero_iff, hlength]
    constructor
    · intro hzero
      by_cases hk : inner.config.k = 0
      · exact Or.inl hk
      · exact Or.inr fun i hi => by omega
    · rintro (hk | hnone)
      · omega
      · have hempty : ¬0 < inner.locations.length := fun hpos => Option.some_ne_none 0 (hnone 0 hpos).symm
        omega
  | some ex =>
    obtain ⟨hwithin, hlength, -⟩ := places_activateAutoFull harrays hshaped query
      (min (inner.config.k + 1) inner.locations.length)
    set places := (activateAutoFull query inner.locations (min (inner.config.k + 1) inner.locations.length)
      inner.addressMatrix inner.config.d).1
    simp only [activateLocked, Option.isSome_some, if_true]
    rw [List.take_eq_nil_iff]
    refine or_congr_right' fun hk => ?_
    have honly : places.filter (· ≠ ex) = [] ↔ ∀ i ∈ places, i = ex := by simp
    rw [honly]
    constructor
    · intro hall i hi
      -- one place is found at most, and there is room for two
      obtain ⟨kept, hperm, hsub⟩ := hwithin
      have hnodup : places.Nodup := hperm.nodup_iff.mp (hsub.nodup List.nodup_range)
      have hone : places.length ≤ 1 :=
        (List.subperm_of_subset hnodup fun i hi => List.mem_singleton.mpr (hall i hi)).length_le
      have hpos : 0 < places.length := by omega
      obtain ⟨j, hj⟩ := List.exists_mem_of_length_pos hpos
      have hlt := List.mem_range.mp (hsub.subset (hperm.mem_iff.mpr hj))
      rw [← hall j hj]
      exact congrArg some (by omega)
    · intro hall i hi
      exact (Option.some.inj (hall i (List.mem_range.mp (hwithin.subset hi)))).symm

end Activated

end Places

/-! ### What is recorded of a response -/

theorem contributors_eq_nil_iff (locations : List (HardLocation F)) (query : List F) (scale : F) (indices : List ℕ) :
    (attend locations query scale indices).contributors = [] ↔ indices = [] := by
  have hlength : (attend locations query scale indices).contributors.length = indices.length := by
    simp only [attend, sortBy, List.length_insertionSort, List.length_map, List.length_zip, length_softmax,
      List.length_zipWith, min_self]
  rw [← List.length_eq_zero_iff, hlength, List.length_eq_zero_iff]

theorem ok_of_bind {ε α β : Type} {x : Except ε α} {f : α → Except ε β} {b : β} (h : (x >>= f) = .ok b) :
    ∃ a, x = .ok a ∧ f a = .ok b := by
  cases x with
  | error e => exact absurd h nofun
  | ok a => exact ⟨a, rfl, h⟩

omit [Narrow F S] in
/-- An attention read that succeeds attends. -/
theorem readAttentionTraced_ok {inner : EAMInner F S} {query : List F} {scale : F} {exclude : Option ℕ}
    {trace : AttentionTrace F} (h : readAttentionTraced inner query scale exclude = .ok trace) :
    trace = attend inner.locations query scale (activateLocked inner query exclude none) := by
  obtain ⟨-, -, h⟩ := ok_of_bind h
  obtain ⟨-, -, h⟩ := ok_of_bind h
  obtain ⟨-, -, h⟩ := ok_of_bind h
  exact (Except.ok.inj h).symm

variable [Scalar S]

omit [Scalar S] in
/-- **An analysed read** names the places that it activated. -/
theorem places_analyzeRead {inner : EAMInner F S} (harrays : Indexed inner)
    (hshaped : Shaped inner.config.d inner.locations) {query : List F} {strategy : ReadStrategy} {trace : ReadTrace F}
    (h : analyzeRead inner query strategy = .ok trace) :
    trace.activatedLocations.map (·.id) = (inner.activated query).1 := by
  obtain ⟨-, hlength, hsims⟩ := places_activateAutoFull harrays hshaped query
    (min inner.config.k inner.locations.length)
  have hsame : (inner.activated query).2.length = (inner.activated query).1.length := hsims.trans hlength.symm
  obtain ⟨-, -, h⟩ := ok_of_bind h
  obtain ⟨-, -, h⟩ := ok_of_bind h
  obtain ⟨-, -, h⟩ := ok_of_bind h
  cases strategy with
  | hopfieldIter =>
    have htrace : analyzeIter query inner.locations inner.config (inner.activated query).1 (inner.activated query).2 =
        trace := Except.ok.inj h
    rw [← htrace, analyzeIter, List.map_map]
    refine List.map_fst_zip (Nat.le_of_eq (Eq.symm ?_))
    rw [length_weights _ _ _ _ _ (by rw [length_softmax, hsame, List.length_map]), List.length_map]
  | hopfieldSS =>
    have htrace : analyzeSS inner.locations inner.config (inner.activated query).1 (inner.activated query).2 = trace :=
      Except.ok.inj h
    have hpairs : (((inner.activated query).1.zip (inner.activated query).2).zip
        (softmax (inner.activated query).2 inner.config.beta)).map Prod.fst =
          (inner.activated query).1.zip (inner.activated query).2 := by
      refine List.map_fst_zip ?_
      rw [List.length_zip, length_softmax]
      exact Nat.min_le_right _ _
    have hplaces := congrArg (List.map Prod.fst) hpairs
    rw [List.map_fst_zip hsame.ge, List.map_map] at hplaces
    rw [← htrace, analyzeSS, List.map_map]
    exact hplaces

section Names

variable {site : AuditSite F J} {ctx : AuditCtx} {collection route : String} {query : List F}

omit [Scalar F] [Exponential F] in
/-- A read that succeeds is recorded with its ids. -/
theorem audited_ok (henabled : site.config.enabled = true) {α : Type} {result : Except HeatherError α}
    {ids : α → AuditIds} {respond : α → AuditedResponse F J} {response : AuditedResponse F J}
    (hok : (audited site ctx collection route query result ids respond).2 = .ok response) :
    ∃ a record, result = .ok a ∧ respond a = response ∧
      (audited site ctx collection route query result ids respond).1 = some record ∧
      record.locationIds = (ids a).locationIds ∧ record.documentIds = (ids a).documentIds := by
  cases result with
  | error e => exact absurd hok nofun
  | ok a =>
    have hrecord : (audited site ctx collection route query (.ok a) ids respond).1 = some _ :=
      if_neg (by rw [henabled]; decide)
    exact ⟨a, _, rfl, Except.ok.inj hok, hrecord, rfl, rfl⟩

omit [Scalar S] [Narrow F S] [Exponential F] in
/-- A response lists no document that was not a hit. -/
theorem names_documents {α : Type} {record : AuditRecord F} {inner : EAMInner F S} {hits : List α} {id : α → ℕ}
    {respond : α → Option (QueryDocumentResult F J)} {beta : Option F}
    (hid : ∀ hit r, respond hit = some r → r.id = id hit)
    (hrecord : record.documentIds = hits.map id) :
    Logged.Names ⟨record, (AuditedResponse.documents (hits.filterMap respond) beta).locationIds inner,
      (AuditedResponse.documents (hits.filterMap respond) beta).documentIds⟩ := by
  refine ⟨List.nil_subset _, ?_⟩
  show (hits.filterMap respond).map (·.id) ⊆ record.documentIds
  rw [hrecord]
  exact (filterMap_keys_sublist fun hit _ => hid hit).subset

omit [Scalar S] in
/-- **The record of a request** lists what its response identifies exactly if
the places that the request names stand for ids. -/
theorem names_iff (henabled : site.config.enabled = true) {s : Session F S}
    (h : Ascending s.store s.collection.collectionId s.collection.inner) {r : AuditedRequest F}
    {response : AuditedResponse F J} (hok : (r.handle site ctx s).2 = .ok response) :
    ∃ record, (r.handle site ctx s).1 = some record ∧
      (Logged.Names ⟨record, response.locationIds s.collection.inner, response.documentIds⟩ ↔
        r.Stands s.collection.inner) := by
  cases r with
  | attention query scale excludeId =>
    obtain ⟨trace, record, hread, rfl, hrecord, hids, -⟩ := audited_ok henabled hok
    obtain rfl := readAttentionTraced_ok hread
    refine ⟨record, hrecord, ?_⟩
    show ((List.map _ _) ⊆ record.locationIds ∧ [] ⊆ record.documentIds) ↔ _
    rw [hids]
    show (List.map _ _ ⊆ [] ∧ _) ↔ _
    rw [and_iff_left (List.nil_subset _), List.subset_nil, List.map_eq_nil_iff, contributors_eq_nil_iff]
    exact activateLocked_eq_nil_iff h.arrays h.shaped query excludeId
  | analyze query strategy =>
    simp only [AuditedRequest.handle, Routes.analyze] at hok ⊢
    cases hparse : ReadStrategy.parse strategy with
    | error e =>
      rw [hparse] at hok
      exact absurd hok nofun
    | ok strategy =>
      rw [hparse] at hok
      obtain ⟨trace, record, hread, rfl, hrecord, hids, -⟩ := audited_ok henabled hok
      have hplaces := places_analyzeRead h.arrays h.shaped hread
      refine ⟨record, hrecord, ?_⟩
      show (trace.activatedLocations.map (fun a => (locationAt s.collection.inner.locations a.id).id) ⊆
        record.locationIds ∧ [] ⊆ record.documentIds) ↔ _
      have hlocated : trace.activatedLocations.map (fun a => (locationAt s.collection.inner.locations a.id).id) =
          (s.collection.inner.activated query).1.map fun i => (locationAt s.collection.inner.locations i).id := by
        rw [← hplaces, List.map_map]
        rfl
      rw [and_iff_left (List.nil_subset _), hids, hlocated]
      show _ ⊆ trace.activatedLocations.map (·.id) ↔ _
      rw [hplaces]
      exact ids_among_iff h.ascending fun i hi => lt_of_mem_activated h.arrays h.shaped hi
  | queryDocuments query n unbindRole rolePairs cleanup =>
    simp only [AuditedRequest.handle, Routes.queryDocuments] at hok ⊢
    split_ifs at hok with hpairs hrole
    · rw [if_pos hpairs, if_neg hrole]
      obtain ⟨out, record, -, rfl, hrecord, -, hids⟩ := audited_ok henabled hok
      refine ⟨record, hrecord, iff_of_true (names_documents (fun hit r hr => ?_) hids) trivial⟩
      obtain ⟨metadata, -, rfl⟩ := Option.map_eq_some_iff.mp hr
      rfl
    · rw [if_neg hpairs]
      obtain ⟨rs, record, -, rfl, hrecord, -, hids⟩ := audited_ok henabled hok
      refine ⟨record, hrecord, iff_of_true (names_documents (fun hit r hr => ?_) hids) trivial⟩
      obtain ⟨metadata, -, rfl⟩ := Option.map_eq_some_iff.mp hr
      rfl

/-! ### Runs -/

variable [SeededUniform F]

/-- The collection stays in order, its ids ascending. -/
theorem ascending_run {s t : AuditedSession F S} {es : List (AuditedEvent F)}
    (h : Ascending s.session.store s.session.collection.collectionId s.session.collection.inner)
    (hrun : Run (AuditedStep site) s es t) :
    Ascending t.session.store t.session.collection.collectionId t.session.collection.inner := by
  refine hrun.invariant (P := fun s : AuditedSession F S =>
    Ascending s.session.store s.session.collection.collectionId s.session.collection.inner) h fun h hstep => ?_
  cases hstep with
  | call hbuilds hstep => exact ascending_step h hbuilds hstep
  | request hok => exact h

/-- A step leaves the log as good as it was exactly if its request's places
stand for ids. -/
theorem log_names_step (henabled : site.config.enabled = true) {s t : AuditedSession F S} {e : AuditedEvent F}
    (h : Ascending s.session.store s.session.collection.collectionId s.session.collection.inner)
    (hstep : AuditedStep site s e t) :
    (∀ entry ∈ t.log, entry.Names) ↔ (∀ entry ∈ s.log, entry.Names) ∧ e.Stands s.session.collection.inner := by
  cases hstep with
  | call hbuilds hstep => exact (and_iff_left trivial).symm
  | request hok =>
    obtain ⟨record, hrecord, hnames⟩ := names_iff henabled h hok
    rw [hrecord]
    show (∀ entry ∈ s.log ++ [_], entry.Names) ↔ _
    rw [List.forall_mem_append, List.forall_mem_singleton]
    exact and_congr_right' hnames

/-- **The log names what was returned** in every state of a run exactly if the
places that each request names stand for ids when it comes. -/
theorem log_names_iff (henabled : site.config.enabled = true) {collectionId : ℕ} {name : String} {config : EAMConfig F}
    {rng : Rng F} {store : Store F} (hnew : store.Untouched collectionId) {es : List (AuditedEvent F)}
    {t : AuditedSession F S} (hrun : Run (AuditedStep site) ⟨.fresh collectionId name config rng store, []⟩ es t) :
    (∀ entry ∈ t.log, entry.Names) ↔
      Run (fun s e s' => AuditedStep site s e s' ∧ e.Stands s.session.collection.inner)
        ⟨.fresh collectionId name config rng store, []⟩ es t := by
  have hfresh := Ascending.opened_new (S := S) name config rng hnew
  constructor
  · intro hnames
    induction hrun with
    | nil => exact .nil
    | snoc hrun hstep ih =>
      have hboth := (log_names_step henabled (ascending_run hfresh hrun) hstep).mp hnames
      exact .snoc (ih hboth.1) ⟨hstep, hboth.2⟩
  · intro hstands
    induction hstands with
    | nil => exact fun entry hentry => absurd hentry List.not_mem_nil
    | snoc hstands hstep ih =>
      have hbefore := hstands.mono fun {s e s'} h => h.1
      exact (log_names_step henabled (ascending_run hfresh hbefore) hstep.1).mpr ⟨ih hbefore, hstep.2⟩

end Names

/-! ### One location -/

/-- A database with the log as it is by default. -/
noncomputable def keptSite : AuditSite ℝ (List UInt8) := ⟨.standard, fun _ => "", some, noFft, id⟩

/-- A caller without authentication. -/
def guest : AuditCtx := ⟨"-", "-", "default"⟩

section One

variable [SeededUniform ℝ]

/-- The collection after one write. -/
noncomputable def wroteOne : AuditedSession ℝ ℝ := ⟨(Call.write [1]).effect plainLine, []⟩

theorem run_wroteOne : Run (AuditedStep keptSite) ⟨plainLine, []⟩ [.call (.write [1], .ok .done)] wroteOne :=
  .single (.call trivial (step_of_isOk rfl))

theorem ascending_wroteOne : Ascending wroteOne.session.store wroteOne.session.collection.collectionId
    wroteOne.session.collection.inner :=
  ascending_run (.opened_new "c" realConfig (fun _ => 1) untouched_empty) run_wroteOne

omit [SeededUniform ℝ] in
theorem exists_audited_step {F S J : Type} [Scalar F] [Scalar S] [Narrow F S] [Exponential F] [SeededUniform F]
    {site : AuditSite F J} {ctx : AuditCtx} {s : AuditedSession F S} {r : AuditedRequest F}
    (h : (r.handle site ctx s.session).2.isOk = true) : ∃ t, AuditedStep site s (.request ctx r) t := by
  cases hok : (r.handle site ctx s.session).2 with
  | error e =>
    rw [hok] at h
    exact absurd h nofun
  | ok response => exact ⟨_, .request hok⟩

end One

/-- One write, and an analysed read of its location. -/
theorem log_names_analyzed : ∃ (_ : SeededUniform ℝ) (es : List (AuditedEvent ℝ)) (t : AuditedSession ℝ ℝ),
    Run (AuditedStep keptSite) ⟨plainLine, []⟩ es t ∧ es ≠ [] ∧ ∀ entry ∈ t.log, entry.Names := by
  let _ : SeededUniform ℝ := { uniform := fun _ => 0 }
  have hread : analyzeRead wroteOne.session.collection.inner [1] .hopfieldIter = _ :=
    analyzeRead_accepted rfl rfl (List.cons_ne_nil _ _) .hopfieldIter
  have hok : ((AuditedRequest.analyze [1] none).handle keptSite guest wroteOne.session).2.isOk = true := by
    show (audited keptSite guest _ "analyze" [1] (analyzeRead wroteOne.session.collection.inner [1] .hopfieldIter)
      _ _).2.isOk = true
    rw [hread]
    rfl
  have hstands : (AuditedRequest.analyze [1] none).Stands wroteOne.session.collection.inner := fun i hi => by
    have hlt : i < 1 := lt_of_mem_activated ascending_wroteOne.arrays ascending_wroteOne.shaped hi
    obtain rfl : i = 0 := Nat.lt_one_iff.mp hlt
    rfl
  obtain ⟨t, hstep⟩ := exists_audited_step hok
  have hrun : Run (AuditedStep keptSite) ⟨.fresh 0 "c" realConfig (fun _ => 1) (.empty .f64), []⟩ _ t :=
    run_wroteOne.snoc hstep
  exact ⟨inferInstance, _, t, hrun, List.cons_ne_nil _ _,
    (log_names_iff rfl untouched_empty hrun).mpr
      ((Run.single ⟨.call trivial (step_of_isOk rfl), trivial⟩).snoc ⟨hstep, hstands⟩)⟩

/-- **An attention read** is recorded without the location that answered it. -/
theorem log_names_nothing : ¬∀ (_ : SeededUniform ℝ) (site : AuditSite ℝ (List UInt8)), site.config.enabled = true →
    ∀ (collectionId : ℕ) (name : String) (config : EAMConfig ℝ) (rng : Rng ℝ) (store : Store ℝ),
    store.Untouched collectionId → ∀ (es : List (AuditedEvent ℝ)) (t : AuditedSession ℝ ℝ),
      Run (AuditedStep site) ⟨.fresh collectionId name config rng store, []⟩ es t → ∀ entry ∈ t.log, entry.Names := by
  intro hall
  let _ : SeededUniform ℝ := { uniform := fun _ => 0 }
  have hok : ((AuditedRequest.attention [1] 1 none).handle keptSite guest wroteOne.session).2.isOk = true := by
    have hread : readAttentionTraced wroteOne.session.collection.inner [1] 1 none =
        .ok (attentionLocked wroteOne.session.collection.inner [1] 1 none none) := by
      unfold readAttentionTraced
      rw [validateVector_real]
      rfl
    simp only [AuditedRequest.handle, Routes.attention, audited, hread]
    rfl
  obtain ⟨t, hstep⟩ := exists_audited_step hok
  have hnames := hall _ keptSite rfl 0 "c" realConfig (fun _ => 1) _ untouched_empty _ t (run_wroteOne.snoc hstep)
  have hstands := ((log_names_step rfl ascending_wroteOne hstep).mp hnames).2
  rcases hstands with hk | hnone
  · exact absurd hk (by decide)
  · exact Option.some_ne_none 0 (hnone 0 Nat.one_pos).symm

end HeatherDb
