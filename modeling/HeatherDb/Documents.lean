/-
# Documents keep their vectors

A document of a plain collection may be stored as a reference to a location
whose address is its vector. `Live` is what was written under each id and not
deleted since, read off the history of calls alone; `Kept` ties it to the
store: every live document is stored with its vector, or refers to a location
that has it as its address, in memory and in the store (`Refers`), and no
other document is stored. A plain write moves no address, and whatever else
moves or removes locations first stores every document inline
(`Session.materialized`).

Key definitions: `Live`, `Live.after`, `Refers`, `Kept`.
Key theorems: `kept_step`, `getDocument_eq`, `listDocuments_eq`,
`documents_immutable`.
-/
import HeatherDb.Recoverable
import HeatherDb.Rollback

namespace HeatherDb

open Scalar Narrow Program Store

variable {F S : Type} [Narrow F S]

/-! ### What was written -/

/-- The live documents by id: vector and metadata. -/
abbrev Live (F : Type) := ℕ → Option (List F × List UInt8)

namespace Live

variable {F : Type}

/-- Documents entered under their ids. -/
def enter (live : Live F) (ids : List ℕ) (docs : List (List F × List UInt8)) : Live F :=
  (ids.zip docs).foldl (fun live d => Function.update live d.1 (some d.2)) live

/-- The live documents after an event. -/
def after (live : Live F) (e : Event F) : Live F :=
  match e.2 with
  | .error _ => live
  | .ok r =>
    match e.1, r with
    | .deleteDocument id, _ => Function.update live id none
    | c, .documents ids => live.enter ids c.documents
    | _, _ => live

/-- Documents entered under consecutive ids. -/
theorem enter_range' (live : Live F) (docs : List (List F × List UInt8)) (m id : ℕ) :
    live.enter (List.range' m docs.length) docs id =
      if m ≤ id ∧ id < m + docs.length then docs[id - m]? else live id := by
  induction docs generalizing live m with
  | nil =>
    rw [if_neg (by simp only [List.length_nil]; omega)]
    rfl
  | cons d docs ih =>
    have hstep : live.enter (List.range' m (d :: docs).length) (d :: docs) =
        enter (Function.update live m (some d)) (List.range' (m + 1) docs.length) docs := rfl
    rw [hstep, ih, List.length_cons]
    by_cases hid : m = id
    · subst hid
      rw [if_neg (by omega), if_pos (by omega), Function.update_self, Nat.sub_self]
      rfl
    · by_cases hin : m + 1 ≤ id ∧ id < m + 1 + docs.length
      · have hsub : id - m = id - (m + 1) + 1 := by omega
        rw [if_pos hin, if_pos (by omega), hsub, List.getElem?_cons_succ]
      · rw [if_neg hin, if_neg (by omega), Function.update_of_ne (Ne.symm hid)]

end Live

/-- The live documents after these events. -/
def liveAfter {F : Type} (es : List (Event F)) : Live F := es.foldl Live.after fun _ => none

/-! ### How they are stored -/

/-- The location `k` stands for the vector `v`, in memory and in the store. -/
structure Refers (s : Session F S) (k : ℕ) (v : List F) : Prop where
  plain : s.collection.inner.config.competitive = false
  mem : k ∈ s.collection.inner.locations.map (·.id)
  address : ∀ loc ∈ s.collection.inner.locations, loc.id = k → loc.address = v
  stored : ∃ r, s.store.locationAt? s.collection.collectionId k = some r ∧ r.address = v

/-- A record that reads as this document. -/
def Reads (s : Session F S) (v : List F × List UInt8) (r : DocumentRecord F) : Prop :=
  r = .document v.1 v.2 ∨ ∃ k, r = .reference k v.2 ∧ Refers s k v.1

/-- The store has the live documents and no others. -/
structure Kept (live : Live F) (s : Session F S) : Prop where
  f64 : s.store.precision = .f64
  docNextId : s.store.loadU64 s.collection.collectionId "doc_next_id" 0 = .ok s.collection.inner.docNextId
  absent : ∀ id, live id = none → s.store.getDocument s.collection.collectionId id = none
  stored : ∀ id v, live id = some v → ∃ r, s.store.getDocument s.collection.collectionId id = some r ∧ Reads s v r
  counted : ∀ id v, live id = some v → id < s.collection.inner.docNextId

/-- A location that stands for a vector is found with it. -/
theorem Refers.locationAddress {s : Session F S} (hr : s.Recoverable) {k : ℕ} {v : List F} (h : Refers s k v) :
    s.collection.inner.locationAddress k = some v :=
  locationAddress_eq hr.arrays.looks h.mem h.address

theorem Reads.resolve {s : Session F S} (hr : s.Recoverable) {v : List F × List UInt8} {r : DocumentRecord F}
    (h : Reads s v r) : resolveDocument s.collection.inner r = .ok v := by
  rcases h with rfl | ⟨k, rfl, href⟩
  · rfl
  · rw [resolveDocument_reference, href.locationAddress hr]
    rfl

/-! ### Materializing -/

/-- The documents are stored with their vectors. -/
def Inline (live : Live F) (s : Session F S) : Prop :=
  ∀ id, s.store.getDocument s.collection.collectionId id = (live id).map fun v => .document v.1 v.2

omit [Narrow F S] in
theorem Kept.of_inline {live : Live F} {s : Session F S} (h : Inline live s) (hp : s.store.precision = .f64)
    (hdoc : s.store.loadU64 s.collection.collectionId "doc_next_id" 0 = .ok s.collection.inner.docNextId)
    (hcounted : ∀ id v, live id = some v → id < s.collection.inner.docNextId) : Kept live s where
  f64 := hp
  docNextId := hdoc
  absent id hid := by rw [h id, hid]; rfl
  stored id v hv := ⟨_, by rw [h id, hv]; rfl, Or.inl rfl⟩
  counted := hcounted

/-- **Materializing stores every document inline.** -/
theorem Kept.inline_materialized {live : Live F} {s : Session F S} (h : Kept live s) (hr : s.Recoverable) :
    Inline live s.materialized := by
  intro id
  have hget := getDocument_materialize s.store s.collection.collectionId s.collection.inner id
  refine Eq.trans hget ?_
  cases hlive : live id with
  | none =>
    rw [h.absent id hlive]
    rfl
  | some v =>
    obtain ⟨r, hr', hreads⟩ := h.stored id v hlive
    rw [hr', h.f64]
    rcases hreads with rfl | ⟨k, rfl, href⟩
    · rfl
    · have hfound := href.locationAddress hr
      simp [inlined, inlinedRef, hfound, encodeDocument, atPrecision]

variable [Scalar F]

theorem Kept.materialized {live : Live F} {s : Session F S} (h : Kept live s) (hr : s.Recoverable) :
    Kept live s.materialized :=
  .of_inline (h.inline_materialized hr) ((congrArg Store.precision (materialize_eq _ _ _)).trans h.f64)
    (hr.failed_docNextId (v := 0) h.docNextId .materialized) h.counted

omit [Scalar F] [Narrow F S] in
/-- The documents stay inline while the table of documents does. -/
theorem Inline.kept {live : Live F} {s t : Session F S} (h : Inline live s) (hp : t.store.precision = .f64)
    (hdoc : t.store.loadU64 t.collection.collectionId "doc_next_id" 0 = .ok t.collection.inner.docNextId)
    (hid : t.collection.collectionId = s.collection.collectionId) (hdocs : t.store.documents = s.store.documents)
    (hcounted : ∀ id v, live id = some v → id < t.collection.inner.docNextId) : Kept live t := by
  refine .of_inline (fun id => ?_) hp hdoc hcounted
  have hget : t.store.getDocument t.collection.collectionId id =
      s.store.getDocument s.collection.collectionId id := by
    rw [Store.getDocument, hdocs, hid]
    rfl
  rw [hget]
  exact h id

/-! ### Reading the memory back -/

/-- Memory read back keeps what the references stand for. -/
theorem Refers.recovered {s : Session F S} (hs : s.Recoverable) {v : ℕ} {inner : EAMInner F S}
    (hr : Recovered s v inner) (rng : Rng F) {k : ℕ} {a : List F} (h : Refers s k a) :
    Refers (s.remember inner rng) k a := by
  obtain ⟨loaded, hload⟩ := hs.load s.collection.name
  unfold Recovered at hr
  rw [hload] at hr
  subst hr
  obtain ⟨locations, nextId, docNextId, eta, hlocations, -, -, -, -, rfl⟩ := load_inv hload
  obtain ⟨r, hat, haddr⟩ := h.stored
  have hkey : ∀ loc ∈ locations, s.store.locationAt? s.collection.collectionId loc.id = some loc := by
    intro loc hloc
    obtain ⟨id, hid⟩ := (mem_loadAllLocations_iff hlocations).mp hloc
    rw [(hs.known id loc hid).1]
    exact hid
  refine ⟨h.plain, ?_, fun loc hloc hid => ?_, ⟨r, hat, haddr⟩⟩
  · have hmem := (mem_loadAllLocations_iff hlocations).mpr ⟨k, hat⟩
    exact List.mem_map.mpr ⟨r, hmem, (hs.known k r hat).1⟩
  · have hfound := hkey loc hloc
    rw [hid, hat] at hfound
    exact Option.some.inj hfound ▸ haddr

theorem Kept.recovered {live : Live F} {s : Session F S} (h : Kept live s) (hs : s.Recoverable) {v : ℕ}
    {inner : EAMInner F S} (hr : Recovered s v inner) (rng : Rng F) : Kept live (s.remember inner rng) where
  f64 := h.f64
  docNextId := hs.docNextId_recovered hr
  absent := h.absent
  stored id w hw := by
    obtain ⟨r, hget, hreads⟩ := h.stored id w hw
    exact ⟨r, hget, hreads.imp_right fun ⟨k, hk, href⟩ => ⟨k, hk, href.recovered hs hr rng⟩⟩
  counted id w hw := by
    have hsame := h.docNextId.symm.trans (hs.docNextId_recovered hr)
    exact (h.counted id w hw).trans_eq (Except.ok.inj hsame)

/-- A failed call keeps the documents. -/
theorem Kept.failed {live : Live F} {s s' : Session F S} (h : Kept live s) (hr : s.Recoverable) {v : ℕ}
    (hf : Failed v s s') : Kept live s' := by
  cases hf with
  | unchanged => exact h
  | materialized => exact h.materialized hr
  | recovered rng hrec => exact h.recovered hr hrec rng
  | recoveredMaterialized rng hrec => exact (h.materialized hr).recovered hr.materialized hrec rng

/-! ### Writes -/

/-- Every record put under an id there was is a location the writes left. -/
structure Current (s : Session F S) (after puts : List (HardLocation F)) : Prop where
  shaped : Shaped s.collection.inner.config.d puts
  put : ∀ q ∈ puts, q.id < s.collection.inner.nextId → ∃ loc ∈ after, SameLocation q loc

/-- Writes keep what the references stand for. -/
theorem Refers.wrote [Scalar S] {s : Session F S} (h64 : s.store.precision = .f64) (hr : s.Recoverable)
    {xs : List (Pattern F)} (hfit : s.Fits xs) {n : ℕ}
    {p : Puts F} (hp : Current s (s.written xs n).inner.locations p.locations) {k : ℕ} {v : List F}
    (h : Refers s k v) : Refers (s.wrote xs n p) k v := by
  have hg := Session.written_grown hr.shaped hfit
  have hplain := batch_plain s.collection.inner.bumpVersion h.plain xs s.rng
  have hlocs : (s.written xs n).inner.locations =
      s.collection.inner.locations ++ (s.written xs n).allNewLocs := hplain.locations
  have hcreated : (s.written xs n).allNewLocs.map (·.id) = _ := hg.createdIds
  have hk : k < s.collection.inner.nextId := by
    obtain ⟨loc, hloc, rfl⟩ := List.mem_map.mp h.mem
    exact hr.fresh loc hloc
  have haddress : ∀ loc ∈ (s.written xs n).inner.locations, loc.id = k → loc.address = v := by
    intro loc hloc hid
    rw [hlocs, List.mem_append] at hloc
    rcases hloc with hloc | hloc
    · exact h.address loc hloc hid
    · have hmem : loc.id ∈ (s.written xs n).allNewLocs.map (·.id) := List.mem_map_of_mem hloc
      rw [hcreated] at hmem
      have hge : s.collection.inner.nextId ≤ loc.id := (List.mem_range'_1.mp hmem).1
      omega
  refine ⟨(congrArg EAMConfig.competitive hplain.config).trans h.plain, ?_, haddress, ?_⟩
  · show k ∈ (s.written xs n).inner.locations.map (·.id)
    rw [hlocs, List.map_append]
    exact List.mem_append_left _ h.mem
  · by_cases hput : k ∈ p.locations.map (·.id)
    · obtain ⟨q, hq, rfl, r, hat, hs⟩ := exists_locationAt?_putAll h64 s.collection.collectionId
        hp.shaped.sameLengths hput
      obtain ⟨loc, hloc, hs'⟩ := hp.put q hq hk
      exact ⟨r, hat, hs.address.trans (hs'.address.trans (haddress loc hloc hs'.id.symm))⟩
    · obtain ⟨r, hat, haddr⟩ := h.stored
      exact ⟨r, (locationAt?_putAll_of_notMem _ hput).trans hat, haddr⟩

/-- The location a plain write creates stands for its address. -/
theorem refers_created [Scalar S] {s : Session F S} (h64 : s.store.precision = .f64) (hr : s.Recoverable)
    {xs : List (Pattern F)} (hfit : s.Fits xs) {n : ℕ} {p : Puts F}
    (hc : s.collection.inner.config.competitive = false)
    (hrec : Records s.collection.inner.locations (s.written xs n).inner.locations p.locations) {j : ℕ}
    {x : Pattern F} (hx : xs[j]? = some x) :
    Refers (s.wrote xs n p) (s.collection.inner.nextId + j) x.address := by
  have hplain := batch_plain s.collection.inner.bumpVersion hc xs s.rng
  have hlocs : (s.written xs n).inner.locations =
      s.collection.inner.locations ++ (s.written xs n).allNewLocs := hplain.locations
  have hcreated : (s.written xs n).allNewLocs = _ := hplain.created
  have hold : ∀ loc ∈ s.collection.inner.locations, loc.id ≠ s.collection.inner.nextId + j := by
    intro loc hloc heq
    have := hr.fresh loc hloc
    omega
  have hnew : freshLocation (s.collection.inner.nextId + j) x.address x.counter ∈
      (s.written xs n).inner.locations := by
    rw [hlocs, hcreated]
    exact List.mem_append_right _ (List.mem_map.mpr ⟨(x, j), List.mem_zipIdx_iff_getElem?.mpr hx, rfl⟩)
  have haddress : ∀ loc ∈ (s.written xs n).inner.locations, loc.id = s.collection.inner.nextId + j →
      loc.address = x.address := by
    intro loc hloc hid
    rw [hlocs, hcreated, List.mem_append] at hloc
    rcases hloc with hloc | hloc
    · exact absurd hid (hold loc hloc)
    · obtain ⟨⟨y, i⟩, hy, rfl⟩ := List.mem_map.mp hloc
      have hi : s.collection.inner.nextId + i = s.collection.inner.nextId + j := hid
      obtain rfl : i = j := by omega
      have hget := List.mem_zipIdx_iff_getElem?.mp hy
      obtain rfl : y = x := Option.some.inj (hget.symm.trans hx)
      rfl
  refine ⟨(congrArg EAMConfig.competitive hplain.config).trans hc, List.mem_map_of_mem hnew, haddress, ?_⟩
  have hput := (hrec.all _ hnew).resolve_right fun hmem => hold _ hmem rfl
  have hlen := (hrec.shaped (Session.written_grown hr.shaped hfit).shaped).sameLengths
  obtain ⟨q, hq, hqid, r, hat, hs⟩ := exists_locationAt?_putAll h64 s.collection.collectionId hlen hput
  obtain ⟨loc, hloc, hs'⟩ := hrec.put q hq
  exact ⟨r, hat, hs.address.trans (hs'.address.trans (haddress loc hloc (hs'.id.symm.trans hqid)))⟩

theorem plainLocation_eq_some {config : EAMConfig F} {result : WriteResult F} {input : List F} {id : ℕ}
    (h : plainLocation config result input = some id) :
    config.competitive = false ∧ ∃ loc, result.newLocations = [loc] ∧ loc.id = id := by
  unfold plainLocation at h
  split at h
  · rename_i loc hnew
    split_ifs at h with hcond
    simp only [Bool.and_eq_true, Bool.not_eq_true'] at hcond
    exact ⟨hcond.1.1, loc, hnew, Option.some.inj h⟩
  · simp at h

/-- A record written for a document reads as it, if its location does. -/
theorem reads_documentRecord {s : Session F S} {config : EAMConfig F} {result : WriteResult F} {input : List F}
    {metadata : List UInt8} (h : ∀ id, plainLocation config result input = some id → Refers s id input) :
    Reads s (input, metadata) (documentRecord .f64 config result input metadata) := by
  unfold documentRecord
  split
  · rename_i id hplain
    exact Or.inr ⟨id, rfl, h id hplain⟩
  · exact Or.inl rfl

/-- **Writes keep the documents** and enter their own. -/
theorem Kept.wrote [Scalar S] {live : Live F} {s : Session F S} (h : Kept live s) (docs : List (List F × List UInt8))
    (hr : s.Recoverable) {xs : List (Pattern F)} (hfit : s.Fits xs) {p : Puts F}
    (hp : Current s (s.written xs docs.length).inner.locations p.locations)
    (hmeta : docs.length = 0 ∧ p.metadata = counters (s.written xs docs.length).inner ∨
      p.metadata = documentCounters (s.written xs docs.length).inner)
    (hkeys : p.documents.map (·.1) = List.range' s.collection.inner.docNextId docs.length)
    (hdocs : ∀ j v, docs[j]? = some v → ∃ r, (s.collection.inner.docNextId + j, r) ∈ p.documents ∧
      Reads (s.wrote xs docs.length p) v r) :
    Kept (live.enter (List.range' s.collection.inner.docNextId docs.length) docs) (s.wrote xs docs.length p) := by
  have hg := Session.written_grown hr.shaped hfit
  have hnext : (s.wrote xs docs.length p).collection.inner.docNextId =
      s.collection.inner.docNextId + docs.length := congrArg (· + docs.length) hg.docNextId
  have hnodup : (p.documents.map (·.1)).Nodup := by
    rw [hkeys]
    exact List.nodup_range'
  -- the table after, under an id that was given out and under any other
  have hget : ∀ id r, (id, r) ∈ p.documents →
      (s.wrote xs docs.length p).store.getDocument s.collection.collectionId id = some r := by
    intro id r hmem
    show (s.store.putAll s.collection.collectionId p).documents.get _ = _
    rw [putAll_eq]
    refine OrderedTable.get_putAll _ (List.mem_map.mpr ⟨_, hmem, rfl⟩) fun w hw => ?_
    obtain ⟨d, hd, heq⟩ := List.mem_map.mp hw
    simp only [Prod.mk.injEq, Scoped.mk.injEq, true_and] at heq
    obtain ⟨rfl, rfl⟩ := heq
    have := List.inj_on_of_nodup_map hnodup hd hmem rfl
    rw [this]
  have hsame : ∀ id, id ∉ p.documents.map (·.1) →
      (s.wrote xs docs.length p).store.getDocument s.collection.collectionId id =
        s.store.getDocument s.collection.collectionId id := by
    intro id hid
    exact getDocument_putAll_of_notMem _ hid
  have hin : ∀ id, id ∈ p.documents.map (·.1) ↔
      s.collection.inner.docNextId ≤ id ∧ id < s.collection.inner.docNextId + docs.length := fun id => by
    rw [hkeys, List.mem_range'_1]
  constructor
  · exact (congrArg Store.precision (putAll_eq _ _ _)).trans h.f64
  · exact written_docNextId hg h.docNextId hmeta
  · intro id hid
    rw [Live.enter_range'] at hid
    split_ifs at hid with hrange
    · have hlt : id - s.collection.inner.docNextId < docs.length := by omega
      rw [List.getElem?_eq_getElem hlt] at hid
      simp at hid
    · exact (hsame id ((hin id).not.mpr hrange)).trans (h.absent id hid)
  · intro id v hv
    rw [Live.enter_range'] at hv
    split_ifs at hv with hrange
    · obtain ⟨r, hmem, hreads⟩ := hdocs _ v hv
      have hid : s.collection.inner.docNextId + (id - s.collection.inner.docNextId) = id := by omega
      rw [hid] at hmem
      exact ⟨r, hget id r hmem, hreads⟩
    · obtain ⟨r, hr', hreads⟩ := h.stored id v hv
      exact ⟨r, (hsame id ((hin id).not.mpr hrange)).trans hr',
        hreads.imp_right fun ⟨k, hk, href⟩ => ⟨k, hk, href.wrote h.f64 hr hfit hp⟩⟩
  · intro id v hv
    rw [Live.enter_range'] at hv
    rw [hnext]
    split_ifs at hv with hrange
    · exact hrange.2
    · have := h.counted id v hv
      omega

/-! ### Reading documents -/

omit [Scalar F] in
/-- **A read gets the live document.** -/
theorem getDocument_eq {live : Live F} {s : Session F S} (h : Kept live s) (hr : s.Recoverable) (id : ℕ)
    (fs : List (Option HeatherError)) : getDocument id ⟨s, fs⟩ = (.ok (live id), ⟨s, fs⟩) := by
  unfold HeatherDb.getDocument
  rw [get_bind]
  cases hlive : live id with
  | none =>
    rw [h.absent id hlive]
    rfl
  | some v =>
    obtain ⟨r, hget, hreads⟩ := h.stored id v hlive
    rw [hget]
    show (readInner >>= _) _ = _
    rw [bind_of_ok (readInner_valid hr.valid fs), hreads.resolve hr]
    rfl

omit [Scalar F] [Narrow F S] in
/-- A record read of many resolves, or is skipped. -/
theorem tolerate_resolveDocument (inner : EAMInner F S) (r : DocumentRecord F) :
    tolerate (resolveDocument inner r) = .ok (resolveDocument inner r).toOption := by
  cases r with
  | document vector metadata => rfl
  | damaged message => rfl
  | reference location metadata =>
    rw [resolveDocument_reference]
    cases inner.locationAddress location <;> rfl

/-- What a listing makes of the records it read. -/
def resolveAll (inner : EAMInner F S) (raw : List (ℕ × DocumentRecord F)) : List (Option (Document F)) :=
  raw.map fun doc => (resolveDocument inner doc.2).toOption.map fun r => (doc.1, r)

omit [Scalar F] [Narrow F S] in
theorem decodeAll_eq (s : Session F S) (hv : s.collection.inner.valid = true) (raw : List (ℕ × DocumentRecord F))
    (fs : List (Option HeatherError)) : decodeAll raw ⟨s, fs⟩ =
      (.ok ((resolveAll s.collection.inner raw).filterMap id, (resolveAll s.collection.inner raw).countP (·.isNone)),
        ⟨s, fs⟩) := by
  unfold decodeAll
  rw [bind_of_ok (readInner_valid hv fs), mapM_ok (g := fun doc : ℕ × DocumentRecord F =>
    (resolveDocument s.collection.inner doc.2).toOption.map fun r => (doc.1, r)), ofExcept_ok_bind]
  · rfl
  · intro doc
    rw [tolerate_resolveDocument]
    rfl

omit [Scalar F] [Narrow F S] in
/-- A document is listed when its record resolves to it. -/
theorem mem_resolveAll {inner : EAMInner F S} {raw : List (ℕ × DocumentRecord F)} {d : Document F} :
    d ∈ (resolveAll inner raw).filterMap id ↔ ∃ r, (d.1, r) ∈ raw ∧ resolveDocument inner r = .ok d.2 := by
  simp only [resolveAll, List.mem_filterMap, List.mem_map, id_eq, exists_eq_right]
  constructor
  · rintro ⟨⟨n, r⟩, hmem, hres⟩
    obtain ⟨v, hv, rfl⟩ := Option.map_eq_some_iff.mp hres
    refine ⟨r, hmem, ?_⟩
    cases hdec : resolveDocument inner r with
    | error e =>
      rw [hdec] at hv
      simp [Except.toOption] at hv
    | ok w =>
      rw [hdec] at hv
      exact congrArg Except.ok (Option.some.inj hv)
  · rintro ⟨r, hmem, hres⟩
    refine ⟨(d.1, r), hmem, ?_⟩
    show Option.map _ (resolveDocument inner r).toOption = _
    rw [hres]
    rfl

omit [Scalar F] in
/-- **A listing has the live documents and no others.** -/
theorem listDocuments_eq {live : Live F} {s : Session F S} (h : Kept live s) (hr : s.Recoverable)
    (fs : List (Option HeatherError)) : ∃ docs, listDocuments ⟨s, fs⟩ = (.ok docs, ⟨s, fs⟩) ∧
      ∀ id v, (id, v) ∈ docs ↔ live id = some v := by
  refine ⟨(resolveAll s.collection.inner (s.store.listDocuments s.collection.collectionId)).filterMap id, ?_,
    fun id v => mem_resolveAll.trans ?_⟩
  · unfold HeatherDb.listDocuments
    rw [get_bind, bind_of_ok (decodeAll_eq s hr.valid _ fs)]
    rfl
  · constructor
    · rintro ⟨r, hmem, hres⟩
      have hget := mem_listDocuments_iff.mp hmem
      cases hlive : live id with
      | none =>
        have := (h.absent id hlive).symm.trans hget
        simp at this
      | some w =>
        obtain ⟨r', hget', hreads⟩ := h.stored id w hlive
        obtain rfl : r' = r := Option.some.inj (hget'.symm.trans hget)
        have := (hreads.resolve hr).symm.trans hres
        rw [Except.ok.inj this]
    · intro hlive
      obtain ⟨r, hget, hreads⟩ := h.stored id v hlive
      exact ⟨r, mem_listDocuments_iff.mpr hget, hreads.resolve hr⟩

/-! ### Calls -/

variable [Scalar S]

omit [Scalar F] in
/-- What a call that is not a document write enters. -/
theorem after_of_no_documents (live : Live F) {c : Call F} (hc : c.documents = [])
    (hdelete : ∀ id, c ≠ .deleteDocument id) (r : Reply F) : live.after (c, .ok r) = live := by
  have hnone : ∀ ids, live.enter ids [] = live := fun ids => by simp [Live.enter]
  cases c with
  | deleteDocument id => exact absurd rfl (hdelete id)
  | writeWithMetadata input metadata => simp [Call.documents] at hc
  | writeBatchWithMetadata items =>
    obtain rfl : items = [] := hc
    cases r <;> first | rfl | exact hnone _
  | _ => cases r <;> first | rfl | exact hnone _

/-- Writes that enter no document. -/
theorem Kept.wrote_no_documents {live : Live F} {s : Session F S} (h : Kept live s) (hr : s.Recoverable)
    {xs : List (Pattern F)} (hfit : s.Fits xs) {p : Puts F}
    (hp : Current s (s.written xs 0).inner.locations p.locations)
    (hmeta : p.metadata = counters (s.written xs 0).inner) (hdocs : p.documents = []) :
    Kept live (s.wrote xs 0 p) := by
  refine h.wrote [] hr hfit hp (Or.inl ⟨rfl, hmeta⟩) ?_ ?_
  · rw [hdocs]
    rfl
  · simp

omit [Scalar S] [Narrow F S] in
theorem Records.current {s : Session F S} {before after puts : List (HardLocation F)}
    (h : Records before after puts) (hd : Shaped s.collection.inner.config.d after) : Current s after puts :=
  ⟨h.shaped hd, fun q hq _ => h.put q hq⟩

/-- A stale copy a batch puts is of a location that was not there before. -/
theorem current_batch {s : Session F S} (hd : Shaped s.collection.inner.config.d s.collection.inner.locations)
    {inputs : List (List F)} (hfit : s.Fits (inputs.map .single)) :
    Current s (s.written (inputs.map .single) 0).inner.locations (batchPuts s inputs).locations := by
  have hg := Session.written_grown hd hfit
  have hcreated : (s.written (inputs.map .single) 0).allNewLocs.map (·.id) = _ := hg.createdIds
  refine ⟨shaped_batchPuts hd hfit, fun q hq hlt => ?_⟩
  rcases List.mem_append.mp hq with hq | hq
  · obtain ⟨i, hi, rfl⟩ := List.mem_map.mp hq
    exact ⟨_, locationAt_mem (by simpa using (List.mem_filter.mp hi).2), .refl _⟩
  · have hmem : q.id ∈ (s.written (inputs.map .single) 0).allNewLocs.map (·.id) := List.mem_map_of_mem hq
    rw [hcreated] at hmem
    have hge : s.collection.inner.nextId ≤ q.id := (List.mem_range'_1.mp hmem).1
    omega

/-- A document write keeps the documents and enters its own. -/
theorem Kept.wroteDocument {live : Live F} {s : Session F S} (h : Kept live s) (hr : s.Recoverable)
    {input : List F} {metadata : List UInt8} (hfit : s.Fits [.single input]) :
    Kept (live.enter [s.collection.inner.docNextId] [(input, metadata)])
      (s.wrote [.single input] 1 (documentPuts s input metadata)) := by
  have hrec := records_single hr.shaped hfit 1
  have hg := Session.written_grown hr.shaped hfit
  refine h.wrote [(input, metadata)] hr hfit (hrec.current hg.shaped) (Or.inr (documentCounters_written ..).symm) rfl
    fun j v hj => ?_
  obtain ⟨rfl, rfl⟩ : j = 0 ∧ v = (input, metadata) := by
    cases j with
    | zero => exact ⟨rfl, (Option.some.inj hj).symm⟩
    | succ j => simp at hj
  refine ⟨_, List.mem_cons_self, ?_⟩
  rw [h.f64]
  refine reads_documentRecord fun id hplain => ?_
  obtain ⟨hc, loc, hnew, rfl⟩ := plainLocation_eq_some hplain
  have hcreated := (batch_plain s.collection.inner.bumpVersion hc [.single input] s.rng).newLocations (j := 0)
    (a := s.adapted (.single input)) rfl rfl
  obtain rfl : loc = _ := List.singleton_injective (hnew.symm.trans hcreated)
  exact refers_created (x := .single input) h.f64 hr hfit hc hrec (j := 0) rfl

/-- A batch of document writes keeps the documents and enters its own. -/
theorem Kept.wroteDocuments {live : Live F} {s : Session F S} (h : Kept live s) (hr : s.Recoverable)
    {items : List (List F × List UInt8)} (hfit : s.Fits (items.map fun item => .single item.1)) :
    Kept (live.enter (List.range' s.collection.inner.docNextId items.length) items)
      (s.wrote (items.map fun item => .single item.1) items.length (documentBatchPuts s items)) := by
  have hrec := records_documentBatch hr.shaped hfit
  have hg := Session.written_grown hr.shaped hfit
  have hlen : (s.written (items.map fun item => .single item.1) items.length).writes.length = items.length :=
    (length_writes _ _ _).trans (List.length_map _)
  refine h.wrote items hr hfit (hrec.current hg.shaped) (Or.inr rfl) ?_ fun j v hj => ?_
  · exact documentIds_documentBatch s items
  · obtain ⟨hlt, -⟩ := List.getElem?_eq_some_iff.mp hj
    obtain ⟨a, ha⟩ : ∃ a, (s.written (items.map fun item => .single item.1) items.length).writes[j]? = some a :=
      ⟨_, List.getElem?_eq_getElem (hlen.symm ▸ hlt)⟩
    refine ⟨_, List.mem_map.mpr ⟨((v, a), j), List.mem_zipIdx_iff_getElem?.mpr ?_, rfl⟩, ?_⟩
    · exact List.getElem?_zip_eq_some.mpr ⟨hj, ha⟩
    · rw [h.f64]
      refine reads_documentRecord fun id hplain => ?_
      obtain ⟨hc, loc, hnew, rfl⟩ := plainLocation_eq_some hplain
      have hconfig : (s.written (items.map fun item => .single item.1) items.length).inner.config =
        s.collection.inner.config := hg.config
      rw [hconfig] at hc
      have hx : (items.map fun item => Pattern.single item.1)[j]? = some (.single v.1) := by
        rw [List.getElem?_map, hj]
        rfl
      have hcreated := (batch_plain s.collection.inner.bumpVersion hc _ s.rng).newLocations hx ha
      obtain rfl : loc = _ := List.singleton_injective (hnew.symm.trans hcreated)
      exact refers_created h.f64 hr hfit hc hrec hx

omit [Scalar S] [Narrow F S] [Scalar F] in
/-- Deleting a document keeps the others. -/
theorem Kept.deleted {live : Live F} {s : Session F S} (h : Kept live s) (id : ℕ) :
    Kept (Function.update live id none)
      { s with store := s.store.withoutDocument s.collection.collectionId id } := by
  have hget : ∀ j, (s.store.withoutDocument s.collection.collectionId id).getDocument s.collection.collectionId j =
      if j = id then none else s.store.getDocument s.collection.collectionId j := by
    intro j
    rw [withoutDocument_eq]
    show (OrderedTable.delete _ _).get _ = _
    rw [OrderedTable.get_delete]
    simp only [Scoped.mk.injEq, true_and]
    rfl
  have hlocations : (s.store.withoutDocument s.collection.collectionId id).locations = s.store.locations := by
    rw [withoutDocument_eq]
  constructor
  · exact (congrArg Store.precision (withoutDocument_eq _ _ _)).trans h.f64
  · have hstore := withoutDocument_eq s.collection.collectionId id s.store
    exact (loadU64_congr 0 (congrArg (loadMetadata · _ _) hstore :)).trans h.docNextId
  · intro j hj
    rw [Function.update_apply] at hj
    refine (hget j).trans ?_
    split_ifs with heq
    · rfl
    · rw [if_neg heq] at hj
      exact h.absent j hj
  · intro j v hv
    rw [Function.update_apply] at hv
    split_ifs at hv with heq
    obtain ⟨r, hr, hreads⟩ := h.stored j v hv
    refine ⟨r, (hget j).trans (by rw [if_neg heq, hr]), hreads.imp_right fun ⟨k, hk, href⟩ => ⟨k, hk, ?_⟩⟩
    obtain ⟨r', hat, haddr⟩ := href.stored
    refine ⟨href.plain, href.mem, href.address, r', ?_, haddr⟩
    rw [locationAt?_eq] at hat ⊢
    exact (congrArg (decodeAt · s.collection.collectionId k) hlocations).trans hat
  · intro j v hv
    rw [Function.update_apply] at hv
    split_ifs at hv
    exact h.counted j v hv

variable [SeededUniform F]

/-- **A call's whole effect keeps the documents.** -/
theorem kept_effect {live : Live F} {s : Session F S} (h : Kept live s) (hr : s.Recoverable) {c : Call F}
    (hacc : c.Accepted s) : Kept (live.after (c, .ok (c.reply s))) (c.effect s) := by
  have hinline := h.inline_materialized hr
  have hm64 : s.materialized.store.precision = .f64 := (h.materialized hr).f64
  have hmdoc := (h.materialized hr).docNextId
  cases c with
  | write input =>
    rw [after_of_no_documents live rfl (by simp)]
    have hg := Session.written_grown hr.shaped hacc
    exact h.wrote_no_documents hr hacc ((records_single hr.shaped hacc 0).current hg.shaped)
      (counters_written ..).symm rfl
  | writeTwo address counter opts =>
    rw [after_of_no_documents live rfl (by simp)]
    have hg := Session.written_grown hr.shaped hacc
    exact h.wrote_no_documents hr hacc ((records_single hr.shaped hacc 0).current hg.shaped)
      (counters_written ..).symm rfl
  | writeBatch inputs =>
    rw [after_of_no_documents live rfl (by simp)]
    exact h.wrote_no_documents hr hacc (current_batch hr.shaped hacc) rfl rfl
  | writeWithMetadata input metadata => exact h.wroteDocument hr hacc
  | writeBatchWithMetadata items =>
    by_cases hemp : items = []
    · subst hemp
      rw [Call.effect, if_pos rfl, after_of_no_documents live rfl (by simp)]
      exact h
    · rw [Call.effect, if_neg hemp]
      exact h.wroteDocuments hr hacc
  | merge =>
    rw [after_of_no_documents live rfl (by simp)]
    show Kept live s.merged
    unfold Session.merged
    dsimp only
    split_ifs with hremoved
    · exact hinline.kept hm64 hmdoc rfl rfl h.counted
    · have hstore := mergedInto_eq s.collection.collectionId s.materialized.store
        (knnMerge s.collection.inner.locations s.collection.inner.config).1
      exact hinline.kept ((congrArg Store.precision hstore).trans hm64)
        ((loadU64_congr 0 (congrArg (loadMetadata · _ _) hstore :)).trans hmdoc) rfl
        (congrArg Store.documents hstore :) h.counted
  | compress kappa lambda =>
    rw [after_of_no_documents live rfl (by simp)]
    show Kept live (s.compressed kappa lambda)
    unfold Session.compressed
    dsimp only
    split_ifs with hmerged
    · exact hinline.kept hm64 hmdoc rfl rfl h.counted
    · have hstore := compressedInto_eq s.collection.collectionId s.materialized.store
        (s.compression kappa lambda).1 (s.compression kappa lambda).2
      exact hinline.kept ((congrArg Store.precision hstore).trans hm64)
        ((loadU64_congr 0 (congrArg (loadMetadata · _ _) hstore :)).trans hmdoc) rfl
        (congrArg Store.documents hstore :) h.counted
  | loadSnapshotChecked snapshot config expected =>
    rw [after_of_no_documents live rfl (by simp)]
    have hstore := replacedBy_eq s.collection.collectionId s.materialized.store s.collection.inner.locations
      snapshot.locations config
    have hload := loadMetadata_replacedBy s.materialized.store s.collection.collectionId
      s.collection.inner.locations snapshot.locations config "doc_next_id" (by decide)
    exact hinline.kept ((congrArg Store.precision hstore).trans hm64) ((loadU64_congr 0 hload).trans hmdoc) rfl
      (congrArg Store.documents hstore :) h.counted
  | deleteDocument writeIndex => exact h.deleted writeIndex

/-- **Every call keeps the documents**, also when it fails. -/
theorem kept_step {live : Live F} {s s' : Session F S} (h : Kept live s) (hr : s.Recoverable) {e : Event F}
    (hstep : Step s e s') : Kept (live.after e) s' := by
  obtain ⟨c, r⟩ := e
  rcases step_cases hstep with ⟨e, rfl, hf⟩ | ⟨hacc, rfl, rfl⟩
  · exact h.failed hr hf
  · exact kept_effect h hr hacc

omit [SeededUniform F] [Scalar S] in
/-- A new collection has no documents. -/
theorem kept_fresh {collectionId : ℕ} (name : String) (config : EAMConfig F) (rng : Rng F) {store : Store F}
    (hp : store.precision = .f64) (hnew : store.Untouched collectionId) :
    Kept (fun _ => none) (Session.fresh (S := S) collectionId name config rng store) where
  f64 := (congrArg Store.precision (putAll_eq collectionId (newPuts config rng) store)).trans hp
  docNextId := (loadU64_congr 0 (loadMetadata_putAll_of_notMem store (by simp [newPuts]))).trans (hnew.loadU64 _ _)
  absent id _ := by
    show (store.putAll collectionId (newPuts config rng)).getDocument collectionId id = none
    rw [putAll_eq]
    exact hnew.documents id
  stored id v hv := by simp at hv
  counted id v hv := by simp at hv

/-- Every state of a run is in order and has the live documents. -/
theorem kept_run {collectionId : ℕ} {name : String} {config : EAMConfig F} {rng : Rng F} {store : Store F}
    (hp : store.precision = .f64) (hnew : store.Untouched collectionId) {es : List (Event F)} {s : Session F S}
    (hrun : Run Step (Session.fresh collectionId name config rng store) es s) :
    s.Recoverable ∧ Kept (liveAfter es) s := by
  refine hrun.history (P := fun es s => s.Recoverable ∧ Kept (liveAfter es) s)
    ⟨recoverable_fresh name config rng hnew.locations ⟨0, hnew.loadU64 _ _⟩, kept_fresh name config rng hp hnew⟩ ?_
  intro es s e s' ⟨hr, hk⟩ hstep
  refine ⟨recoverable_step hr hstep, ?_⟩
  rw [liveAfter, List.foldl_append]
  exact kept_step hk hr hstep

/-! ### Immutability -/

/-- What a call says it wrote is live after it. -/
theorem after_of_written (live : Live F) {s s' : Session F S} {e : Event F} (hstep : Step s e s') {id : ℕ}
    {v : List F × List UInt8} (hw : (id, v) ∈ e.1.written e.2) : live.after e id = some v := by
  obtain ⟨c, r⟩ := e
  rcases step_cases hstep with ⟨e, rfl, -⟩ | ⟨-, rfl, -⟩
  · simp [Call.written] at hw
  have hin : ∀ docs : List (List F × List UInt8),
      (id, v) ∈ (List.range' s.collection.inner.docNextId docs.length).zip docs →
      live.enter (List.range' s.collection.inner.docNextId docs.length) docs id = some v := by
    intro docs hmem
    obtain ⟨j, hj⟩ := List.mem_iff_getElem?.mp hmem
    obtain ⟨hrange, hdoc⟩ := List.getElem?_zip_eq_some.mp hj
    obtain ⟨hlt, -⟩ := List.getElem?_eq_some_iff.mp hdoc
    obtain ⟨hlt', hid⟩ := List.getElem?_eq_some_iff.mp hrange
    rw [List.getElem_range'] at hid
    rw [Live.enter_range', if_pos (by omega), ← hdoc]
    congr 1
    omega
  cases c with
  | writeWithMetadata input metadata => exact hin [(input, metadata)] hw
  | writeBatchWithMetadata items => exact hin items hw
  | _ => simp [Call.written, Call.reply] at hw

/-- A live document stays live until its deletion. -/
theorem after_of_live {live : Live F} {s s' : Session F S} (hk : Kept live s) {e : Event F} (hstep : Step s e s')
    {id : ℕ} {v : List F × List UInt8} (hlive : live id = some v) (hdelete : ¬ e.Deletes id) :
    live.after e id = some v := by
  obtain ⟨c, r⟩ := e
  rcases step_cases hstep with ⟨e, rfl, -⟩ | ⟨-, rfl, -⟩
  · exact hlive
  have hold : ∀ docs : List (List F × List UInt8),
      live.enter (List.range' s.collection.inner.docNextId docs.length) docs id = some v := by
    intro docs
    have hlt := hk.counted id v hlive
    rw [Live.enter_range', if_neg (by omega), hlive]
  cases c with
  | writeWithMetadata input metadata => exact hold [(input, metadata)]
  | writeBatchWithMetadata items => exact hold items
  | deleteDocument j =>
    show Function.update live j none id = some v
    rw [Function.update_of_ne, hlive]
    rintro rfl
    exact hdelete ⟨_, rfl⟩
  | _ => exact hlive

/-- What was written under an id and not deleted since is live. -/
theorem live_of_written {collectionId : ℕ} {name : String} {config : EAMConfig F} {rng : Rng F} {store : Store F}
    (hp : store.precision = .f64) (hnew : store.Untouched collectionId) {before after : List (Event F)}
    {e : Event F} {s : Session F S}
    (hrun : Run Step (Session.fresh collectionId name config rng store) (before ++ e :: after) s) {id : ℕ}
    {v : List F × List UInt8} (hw : (id, v) ∈ e.1.written e.2) (hdelete : ∀ e' ∈ after, ¬ e'.Deletes id) :
    liveAfter (before ++ e :: after) id = some v := by
  have hall := hrun.history (P := fun es s => (s.Recoverable ∧ Kept (liveAfter es) s) ∧
    ∀ before after : List (Event F), es = before ++ e :: after → (∀ e' ∈ after, ¬ e'.Deletes id) →
      liveAfter es id = some v)
    ⟨⟨recoverable_fresh name config rng hnew.locations ⟨0, hnew.loadU64 _ _⟩, kept_fresh name config rng hp hnew⟩,
      fun before after heq => by simp at heq⟩ ?_
  · exact hall.2 before after rfl hdelete
  intro es s l s' ⟨⟨hr, hk⟩, hlive⟩ hstep
  have hafter : liveAfter (es ++ [l]) = (liveAfter es).after l := by rw [liveAfter, List.foldl_append]; rfl
  rw [hafter]
  refine ⟨⟨recoverable_step hr hstep, kept_step hk hr hstep⟩, fun before after heq hdel => ?_⟩
  -- the last event is the write itself, or one that came after it
  rcases List.eq_nil_or_concat after with rfl | ⟨after, l', rfl⟩
  · obtain ⟨-, hlast⟩ := List.append_inj' heq rfl
    obtain rfl : l = e := List.singleton_injective hlast
    exact after_of_written _ hstep hw
  · rw [List.concat_eq_append] at heq hdel
    rw [← List.cons_append, ← List.append_assoc] at heq
    obtain ⟨hes, hlast⟩ := List.append_inj' heq rfl
    obtain rfl : l = l' := List.singleton_injective hlast
    exact after_of_live hk hstep (hlive before after hes fun e' he' => hdel e' (List.mem_append_left _ he'))
      (hdel l (List.mem_append_right _ List.mem_cons_self))

/-- **Documents are immutable.** After any run of calls, whatever became of the
locations, a document reads as the vector and metadata written under its id,
alone and in a listing, until it is deleted. -/
theorem documents_immutable {collectionId : ℕ} {name : String} {config : EAMConfig F} {rng : Rng F} {store : Store F}
    (hp : store.precision = .f64) (hnew : store.Untouched collectionId) {before after : List (Event F)}
    {e : Event F} {s : Session F S}
    (hrun : Run Step (Session.fresh collectionId name config rng store) (before ++ e :: after) s) {id : ℕ}
    {v : List F × List UInt8} (hw : (id, v) ∈ e.1.written e.2) (hdelete : ∀ e' ∈ after, ¬ e'.Deletes id)
    (fs : List (Option HeatherError)) :
    getDocument id ⟨s, fs⟩ = (.ok (some v), ⟨s, fs⟩) ∧
      ∃ docs, listDocuments ⟨s, fs⟩ = (.ok docs, ⟨s, fs⟩) ∧ (id, v) ∈ docs ∧ ∀ w, (id, w) ∈ docs → w = v := by
  obtain ⟨hr, hk⟩ := kept_run hp hnew hrun
  have hlive := live_of_written hp hnew hrun hw hdelete
  refine ⟨hlive ▸ getDocument_eq hk hr id fs, ?_⟩
  obtain ⟨docs, hlist, hdocs⟩ := listDocuments_eq hk hr fs
  refine ⟨docs, hlist, (hdocs id v).mpr hlive, fun w hmem => ?_⟩
  exact Option.some.inj (((hdocs id w).mp hmem).symm.trans hlive)

/-- A document of a plain collection, stored as a reference. -/
def smallDocument : Session ℚ ℚ := Call.effect (smallSession false) (.writeWithMetadata [1] [7])

/-- Another location with the same address. -/
def smallTwins : Session ℚ ℚ := Call.effect smallDocument (.write [1])

/-- The location the document refers to was merged away. -/
theorem documents_immutable_merged :
    (getDocument 0 ⟨Call.effect smallTwins .merge, []⟩).1.toOption = some (some ([1], [7])) := by
  have hwrite := step_of_isOk (s := smallSession false) (c := .writeWithMetadata [1] [7]) (by decide +kernel)
  have htwin := step_of_isOk (s := smallDocument) (c := .write [1]) (by decide +kernel)
  have hmerge := step_of_isOk (s := smallTwins) (c := .merge) (by decide +kernel)
  have hrun := Run.trans (.single hwrite) (.snoc (.single htwin) hmerge)
  have hwritten : ((0, [1], [7]) : ℕ × List ℚ × List UInt8) ∈ Call.written (.writeWithMetadata [1] [7])
      (.ok ((Call.writeWithMetadata [1] [7]).reply (smallSession false))) := List.mem_cons_self
  have hread := (@documents_immutable ℚ ℚ _ _ _ _ _ _ _ _ _ rfl
    ⟨fun _ => rfl, fun _ => rfl, fun _ => rfl, fun _ => rfl⟩ [] _ _ _ hrun _ _ hwritten
    (by simp [Event.Deletes]) []).1
  rw [hread]
  rfl

end HeatherDb
