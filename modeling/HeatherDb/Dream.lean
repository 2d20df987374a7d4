/-
# Dreaming

`dream.rs` of the server: an idle database reprocesses its own memory. A dream
in place writes every address of a collection to it again, then the centroids
of ever coarser clusters, and merges after each pass.

Whatever the parts of a dream keep, a dream keeps wherever the storage stops
it (`Undisturbed`). So documents outlive dreams, and a dream that returns
leaves a store from which the collection reloads as it is in memory.

Key definitions: `clusterCentroids`, `dreamCollection`, `Undisturbed`,
`DreamStep`.
Key theorems: `ensures_dreamCollection`, `agrees_flushed`,
`documents_outlive_dreams`, `dream_settles`.
-/
import HeatherDb.Documents
import HeatherDb.Postings
import Mathlib.Data.List.ReduceOption

namespace HeatherDb

open Scalar Narrow Program Store

/-- Outcome of a dream of one collection. -/
structure CollectionDream (F : Type) where
  collection : String
  passes : ℕ
  locationsBefore : ℕ
  locationsAfter : ℕ
  merged : ℕ
  tauSplit : F
  tauCohere : F

variable {F S : Type} [Scalar F] [Narrow F S]

/-! ### Clusters -/

/-- The cluster whose mean is most similar, the first of several; none is
below −1. -/
def nearestCluster (centroids : List (List F)) (a : List F) : F × Option ℕ :=
  centroids.zipIdx.foldl (fun best p =>
    let cos := dot (normalize p.1) a
    if lt best.1 cos then (cos, some p.2) else best) (lit (-1), none)

/-- The clusters' sums with one more address. -/
def joinCluster (threshold : F) (centroids : List (List F)) (a : List F) : List (List F) :=
  match nearestCluster centroids a with
  | (cos, some i) => if le threshold cos then centroids.modify i fun c => List.zipWith (· + ·) c a else centroids ++ [a]
  | (_, none) => centroids ++ [a]

/-- Greedy cosine clustering: one normalized centroid per cluster. -/
def clusterCentroids (addrs : List (List F)) (threshold : F) : List (List F) :=
  (addrs.foldl (joinCluster threshold) []).map normalize

/-! ### Dreaming in place -/

/-- `flush`: stores all locations and the counters. -/
def flush : Program HeatherError (Session F S) Unit := do
  let inner ← readInner
  let s ← get
  zoom (·.store) (fun store s => { s with store := store })
    (transaction (putTransaction s.collection.collectionId
      { locations := inner.locations
        documents := []
        postings := []
        metadata := counters inner }))

/-- What pass `g` writes: the addresses themselves, then centroids of clusters
that are coarser with every pass. -/
def dreamOperands (g : ℕ) (addrs : List (List F)) : List (List F) :=
  if g = 0 then addrs
  else clusterCentroids addrs (fmax (lit (7 / 10) - lit (2 / 10) * (ofUsize g - lit 1)) (lit (1 / 10)))

/-- The passes from `g` on, so many at most; the pairs they merged. -/
def dreamPasses [Scalar S] [SeededUniform F] : ℕ → ℕ → Program HeatherError (Session F S) ℕ
  | 0, _ => pure 0
  | n + 1, g => do
    let inner ← readInner
    if inner.locations.isEmpty then pure 0
    else do
      (dreamOperands g (inner.locations.map (·.address))).forM write
      let merged ← merge
      let rest ← dreamPasses n (g + 1)
      pure (merged + rest)

/-- Dream a collection in place. -/
def dreamCollection [Scalar S] [SeededUniform F]
    (passes : ℕ) : Program HeatherError (Session F S) (CollectionDream F) := do
  let s ← get
  let merged ← dreamPasses (max passes 1) 0
  flush
  let t ← get
  pure ⟨s.collection.name, max passes 1, s.collection.inner.locations.length, t.collection.inner.locations.length,
    merged, lit 0, lit 0⟩

/-! ### What dreaming keeps -/

/-- The session once its memory is stored. -/
def Session.flushed (s : Session F S) : Session F S :=
  { s with
    store := s.store.putAll s.collection.collectionId
      { locations := s.collection.inner.locations
        documents := []
        postings := []
        metadata := counters s.collection.inner } }

/-- A flush failed and changed nothing, or stored the memory. -/
theorem flush_cases (s : Session F S) (fs : List (Option HeatherError)) :
    (∃ e fs', flush ⟨s, fs⟩ = (.error e, ⟨s, fs'⟩)) ∨
      s.collection.inner.valid = true ∧ ∃ fs', flush ⟨s, fs⟩ = (.ok (), ⟨s.flushed, fs'⟩) := by
  unfold flush
  cases hv : s.collection.inner.valid with
  | false =>
    refine Or.inl ⟨recoveryFailed, fs, bind_of_error ?_ _⟩
    unfold readInner
    rw [get_bind, checkValid, hv]
    rfl
  | true =>
    rw [bind_of_ok (readInner_valid hv fs), get_bind]
    unfold zoom
    rcases transaction_cases (w := ⟨s.store, fs⟩) (steady_putTransaction s.collection.collectionId
      ⟨s.collection.inner.locations, [], [], counters s.collection.inner⟩ s.store) with ⟨e, fs', h⟩ | ⟨fs', h⟩
    · exact Or.inl ⟨e, fs', by rw [h]⟩
    · exact Or.inr ⟨rfl, fs', by rw [h]; rfl⟩

/-- What no part of a dream disturbs. -/
structure Undisturbed [Scalar S] [SeededUniform F] (P : Session F S → Prop) : Prop where
  failed : ∀ {v : ℕ} {s s' : Session F S}, P s → Failed v s s' → P s'
  write : ∀ {s : Session F S} {input : List F}, P s → (Call.write input).Accepted s → P ((Call.write input).effect s)
  merge : ∀ {s : Session F S}, P s → P s.merged
  flush : ∀ {s : Session F S}, P s → P s.flushed

namespace Undisturbed

variable [SeededUniform F] {P : Session F S → Prop}

theorem and [Scalar S] {P' : Session F S → Prop} (h : Undisturbed P) (h' : Undisturbed P') :
    Undisturbed fun s => P s ∧ P' s where
  failed hP hf := ⟨h.failed hP.1 hf, h'.failed hP.2 hf⟩
  write hP hacc := ⟨h.write hP.1 hacc, h'.write hP.2 hacc⟩
  merge hP := ⟨h.merge hP.1, h'.merge hP.2⟩
  flush hP := ⟨h.flush hP.1, h'.flush hP.2⟩

theorem of_imp [Scalar S] (h : Undisturbed P) (p : Prop) : Undisturbed fun s => p → P s where
  failed hP hf hp := h.failed (hP hp) hf
  write hP hacc hp := h.write (hP hp) hacc
  merge hP hp := h.merge (hP hp)
  flush hP hp := h.flush (hP hp)

theorem ensures_write [Scalar S] (h : Undisturbed P) (input : List F) :
    Ensures P (HeatherDb.write (S := S) input) fun _ => True := fun w hP => by
  refine ⟨?_, fun _ _ => trivial⟩
  rcases write_cases input w.state w.faults with ⟨e, fs', s', hrun, hf⟩ | ⟨hfit, fs', hrun⟩
  · rw [hrun]
    exact h.failed hP hf
  · rw [hrun]
    exact h.write hP hfit

theorem ensures_merge [Scalar S] (h : Undisturbed P) : Ensures P (HeatherDb.merge (F := F) (S := S)) fun _ => True :=
  fun w hP => by
  refine ⟨?_, fun _ _ => trivial⟩
  rcases merge_cases w.state w.faults with ⟨e, fs', s', hrun, hf⟩ | ⟨fs', hrun⟩
  · rw [hrun]
    exact h.failed hP hf
  · rw [hrun]
    exact h.merge hP

theorem ensures_flush [Scalar S] (h : Undisturbed P) : Ensures P (HeatherDb.flush (F := F) (S := S)) fun _ => True :=
  fun w hP => by
  refine ⟨?_, fun _ _ => trivial⟩
  rcases flush_cases w.state w.faults with ⟨e, fs', hrun⟩ | ⟨-, fs', hrun⟩
  · rw [hrun]
    exact hP
  · rw [hrun]
    exact h.flush hP

theorem ensures_dreamPasses [Scalar S] (h : Undisturbed P) : ∀ n g : ℕ,
    Ensures P (dreamPasses (F := F) (S := S) n g) fun _ => True
  | 0, _ => .pure trivial
  | n + 1, g => by
    unfold dreamPasses
    refine Ensures.bind (Q := fun _ => True) (.get_bind fun s _ => Ensures.ofExcept.bind fun _ _ => .pure trivial)
      fun inner _ => ?_
    split_ifs
    · exact .pure trivial
    · refine (Ensures.forM fun c _ => h.ensures_write c).bind fun _ _ => h.ensures_merge.bind fun merged _ => ?_
      exact (h.ensures_dreamPasses n (g + 1)).bind fun rest _ => .pure trivial

/-- **What the parts of a dream keep, it keeps**, wherever it stops. -/
theorem ensures_dreamCollection [Scalar S] (h : Undisturbed P) (passes : ℕ) :
    Ensures P (dreamCollection (F := F) (S := S) passes) fun _ => True :=
  .get_bind fun _ _ => (h.ensures_dreamPasses _ _).bind fun _ _ => h.ensures_flush.bind fun _ _ =>
    .get_bind fun _ _ => .pure trivial

end Undisturbed

/-! ### Storing the memory -/

theorem flushed_precision (s : Session F S) : s.flushed.store.precision = s.store.precision := by
  rw [Session.flushed, putAll_eq]

theorem flushed_nextId (s : Session F S) :
    s.flushed.store.loadMetadata s.collection.collectionId "next_id" = some (.u64 s.collection.inner.nextId) :=
  loadMetadata_putAll _ (by simp [counters]) (by simp [counters])

theorem flushed_eta (s : Session F S) :
    s.flushed.store.loadMetadata s.collection.collectionId "eta" = some (.f64 s.collection.inner.eta) :=
  loadMetadata_putAll _ (by simp [counters]) (by simp [counters])

/-- A flush leaves the counter of document ids. -/
theorem flushed_docNextId (s : Session F S) :
    s.flushed.store.loadU64 s.collection.collectionId "doc_next_id" 0 =
      s.store.loadU64 s.collection.collectionId "doc_next_id" 0 :=
  loadU64_congr 0 (loadMetadata_putAll_of_notMem _ (by simp [counters]))

theorem flushed_getDocument (s : Session F S) (id : ℕ) :
    s.flushed.store.getDocument s.collection.collectionId id = s.store.getDocument s.collection.collectionId id :=
  getDocument_putAll_of_notMem _ (by simp)

/-- A flush stores each id as some location of the memory that has it. -/
theorem flushed_locationAt? {s : Session F S} (hr : s.Recoverable) (h64 : s.store.precision = .f64) {id : ℕ}
    (h : id ∈ s.collection.inner.locations.map (·.id)) :
    ∃ loc ∈ s.collection.inner.locations, loc.id = id ∧
      ∃ r, s.flushed.store.locationAt? s.collection.collectionId id = some r ∧ SameLocation r loc :=
  exists_locationAt?_putAll h64 s.collection.collectionId
    (p := ⟨s.collection.inner.locations, [], [], counters s.collection.inner⟩) hr.shaped.sameLengths h

/-- Stored locations are those of the memory before and after. -/
theorem Recoverable.flushed {s : Session F S} (h : s.Recoverable) : s.flushed.Recoverable := by
  refine
    { valid := h.valid
      arrays := h.arrays
      shaped := h.shaped
      fresh := h.fresh
      known := ?_
      nextId := loadU64_of_some _ (flushed_nextId s)
      eta := fun eta0 => ⟨_, loadF64_of_some _ (flushed_eta s)⟩
      docNextId := h.docNextId.imp fun n hn => (flushed_docNextId s).trans hn }
  have htable : s.flushed.store.locations = _ := congrArg Store.locations (putAll_eq s.collection.collectionId _ s.store)
  rw [htable]
  exact h.known.putAll _ (fun _ hloc => List.mem_map_of_mem hloc) h.shaped

/-- A flush stores each location as the memory has it. -/
theorem Refers.flushed {s : Session F S} (hr : s.Recoverable) (h64 : s.store.precision = .f64) {k : ℕ} {v : List F}
    (h : Refers s k v) : Refers s.flushed k v where
  plain := h.plain
  mem := h.mem
  address := h.address
  stored := by
    obtain ⟨q, hq, hid, r, hat, hsame⟩ := flushed_locationAt? hr h64 h.mem
    exact ⟨r, hat, hsame.address.trans (h.address q hq hid)⟩

/-- The documents stay what they were. -/
theorem Kept.flushed {live : Live F} {s : Session F S} (h : Kept live s) (hr : s.Recoverable) :
    Kept live s.flushed := by
  refine
    { f64 := (flushed_precision s).trans h.f64
      docNextId := (flushed_docNextId s).trans h.docNextId
      absent := fun id hid => (flushed_getDocument s id).trans (h.absent id hid)
      stored := fun id v hv => ?_
      counted := h.counted }
  obtain ⟨r, hget, hreads⟩ := h.stored id v hv
  refine ⟨r, (flushed_getDocument s id).trans hget, ?_⟩
  rcases hreads with hdoc | ⟨k, hk, href⟩
  · exact Or.inl hdoc
  · exact Or.inr ⟨k, hk, href.flushed hr h.f64⟩

/-- **A stored memory and its store agree.** -/
theorem agrees_flushed {s : Session F S} (hr : s.Recoverable) (h64 : s.store.precision = .f64)
    (hn : (s.collection.inner.locations.map (·.id)).Nodup)
    (hdoc : s.store.loadU64 s.collection.collectionId "doc_next_id" 0 = .ok s.collection.inner.docNextId) :
    Agrees s.flushed := by
  refine
    { f64 := (flushed_precision s).trans h64
      valid := hr.valid
      nodup := hn
      fresh := hr.fresh
      shaped := hr.shaped
      stored := fun loc hloc => ?_
      only := fun id r hat => ?_
      nextId := flushed_nextId s
      eta := flushed_eta s
      docNextId := (flushed_docNextId s).trans hdoc }
  · obtain ⟨q, hq, hid, r, hat, hsame⟩ := flushed_locationAt? hr h64 (List.mem_map_of_mem (f := HardLocation.id) hloc)
    obtain rfl : q = loc := List.inj_on_of_nodup_map hn hq hloc hid
    exact ⟨r, hat, hsame⟩
  · have hknown := hr.flushed.known id r hat
    exact ⟨hknown.1, hknown.2.1⟩

/-! ### Dreams in a session's life -/

variable [Scalar S] [SeededUniform F]

theorem undisturbed_kept (live : Live F) : Undisturbed fun s : Session F S => s.Recoverable ∧ Kept live s where
  failed h hf := ⟨h.1.failed hf, h.2.failed h.1 hf⟩
  write h hacc := by
    have hkept := kept_effect h.2 h.1 hacc
    rw [after_of_no_documents live rfl (by simp)] at hkept
    exact ⟨recoverable_effect h.1 hacc, hkept⟩
  merge h := by
    have hkept := kept_effect h.2 h.1 (c := .merge) (by simp [Call.Accepted, Session.Fits, Call.patterns])
    rw [after_of_no_documents live rfl (by simp)] at hkept
    exact ⟨h.1.merged, hkept⟩
  flush h := ⟨h.1.flushed, h.2.flushed h.1⟩

theorem undisturbed_distinct :
    Undisturbed fun s : Session F S => Distinct s.store s.collection.collectionId s.collection.inner where
  failed h hf := h.failed hf
  write h hacc := distinct_effect h hacc trivial
  merge {s} h := by
    have hmerged := distinct_effect h (c := .merge) (by simp [Call.Accepted, Session.Fits, Call.patterns]) trivial
    rwa [← (effect_within s .merge).collectionId] at hmerged
  flush h := ⟨h.toRecoverable.flushed, h.nodup⟩

theorem undisturbed_within (s₀ : Session F S) : Undisturbed s₀.Within := by
  have htrans : ∀ {s s' : Session F S}, s₀.Within s → s.Within s' → s₀.Within s' := fun h h' =>
    ⟨h'.collectionId.trans h.collectionId, h.store.trans (h.collectionId ▸ h'.store)⟩
  exact
    { failed := fun h hf => htrans h hf.within
      write := fun h _ => htrans h (effect_within _ _)
      merge := fun h => htrans h (effect_within _ .merge)
      flush := fun h => htrans h ⟨rfl, putAll_onlyUnder _ _⟩ }

/-- What a session lives through: calls that returned, and flushes and dreams
however they ended. -/
inductive DreamStep (s : Session F S) : Option (Event F) → Session F S → Prop
  | call {e : Event F} {s' : Session F S} (h : Step s e s') : DreamStep s (some e) s'
  | flushed (fs : List (Option HeatherError)) : DreamStep s none (flush ⟨s, fs⟩).2.state
  | dreamt (passes : ℕ) (fs : List (Option HeatherError)) : DreamStep s none (dreamCollection passes ⟨s, fs⟩).2.state

/-- **What calls keep by their events, and no dream disturbs**, holds all along. -/
theorem dreamStep_history {P : List (Event F) → Session F S → Prop} {s s' : Session F S} {es : List (Option (Event F))}
    (hrun : Run DreamStep s es s') (h0 : P [] s) (hdream : ∀ es, Undisturbed (P es))
    (hcall : ∀ {es s e s'}, P es s → Step s e s' → P (es ++ [e]) s') : P es.reduceOption s' := by
  refine hrun.history (P := fun es s => P es.reduceOption s) h0 ?_
  intro es s e s' h hstep
  rw [List.reduceOption_append]
  cases hstep with
  | call hstep => exact hcall h hstep
  | flushed fs =>
    rw [List.reduceOption_singleton, Option.toList_none, List.append_nil]
    exact ((hdream _).ensures_flush ⟨s, fs⟩ h).1
  | dreamt passes fs =>
    rw [List.reduceOption_singleton, Option.toList_none, List.append_nil]
    exact ((hdream _).ensures_dreamCollection passes ⟨s, fs⟩ h).1

/-- Every state that calls and dreams reach is in order and has the live documents. -/
theorem kept_dreams {collectionId : ℕ} {name : String} {config : EAMConfig F} {rng : Rng F} {store : Store F}
    (hp : store.precision = .f64) (hnew : store.Untouched collectionId) {es : List (Option (Event F))}
    {s : Session F S} (hrun : Run DreamStep (Session.fresh collectionId name config rng store) es s) :
    s.Recoverable ∧ Kept (liveAfter es.reduceOption) s := by
  refine dreamStep_history (P := fun es s => s.Recoverable ∧ Kept (liveAfter es) s) hrun
    ⟨recoverable_fresh name config rng hnew.locations ⟨0, hnew.loadU64 _ _⟩, kept_fresh name config rng hp hnew⟩
    (fun es => undisturbed_kept (liveAfter es)) ?_
  intro es s e s' ⟨hr, hk⟩ hstep
  refine ⟨recoverable_step hr hstep, ?_⟩
  rw [liveAfter, List.foldl_append]
  exact kept_step hk hr hstep

/-- **Documents outlive dreams.** After any calls, flushes and dreams, in any
order and wherever the storage stopped them, a collection has the documents
that were written and not deleted, alone and in a listing. -/
theorem documents_outlive_dreams {collectionId : ℕ} {name : String} {config : EAMConfig F} {rng : Rng F}
    {store : Store F} (hp : store.precision = .f64) (hnew : store.Untouched collectionId)
    {es : List (Option (Event F))} {s : Session F S}
    (hrun : Run DreamStep (Session.fresh collectionId name config rng store) es s) (fs : List (Option HeatherError)) :
    (∀ id, getDocument id ⟨s, fs⟩ = (.ok (liveAfter es.reduceOption id), ⟨s, fs⟩)) ∧
      ∃ docs, listDocuments ⟨s, fs⟩ = (.ok docs, ⟨s, fs⟩) ∧
        ∀ id v, (id, v) ∈ docs ↔ liveAfter es.reduceOption id = some v := by
  obtain ⟨hr, hk⟩ := kept_dreams hp hnew hrun
  exact ⟨fun id => getDocument_eq hk hr id fs, listDocuments_eq hk hr fs⟩

theorem dreamStep_smallDocument :
    Run DreamStep (smallSession false) [some (.writeWithMetadata [1] [7], .ok (.documents [0]))] smallDocument := by
  have hwrite := step_of_isOk (s := smallSession false) (c := .writeWithMetadata [1] [7]) (by decide +kernel)
  exact .single (.call hwrite)

/-- The storage fails in the second pass of a dream. -/
theorem documents_outlive_dreams_faulty :
    (getDocument 0 ⟨(dreamCollection 2 ⟨smallDocument, List.replicate 20 none ++ [some .hang]⟩).2.state, []⟩).1.toOption =
      some (some ([1], [7])) := by
  have hdream := DreamStep.dreamt (s := smallDocument) 2 (List.replicate 20 none ++ [some .hang])
  have hread := (@documents_outlive_dreams ℚ ℚ _ _ _ _ _ _ _ _ _ rfl
    ⟨fun _ => rfl, fun _ => rfl, fun _ => rfl, fun _ => rfl⟩ _ _ (dreamStep_smallDocument.snoc hdream) []).1 0
  rw [hread]
  rfl

/-- Ids stay distinct while what is loaded repeats none. -/
theorem distinct_dreams {collectionId : ℕ} {name : String} {config : EAMConfig F} {rng : Rng F} {store : Store F}
    (hnew : store.Untouched collectionId) {es : List (Option (Event F))} {s : Session F S}
    (hrun : Run DreamStep (Session.fresh collectionId name config rng store) es s)
    (hload : ∀ e ∈ es.reduceOption, HiveEvent.LoadsDistinct (.call 0 e)) :
    Distinct s.store s.collection.collectionId s.collection.inner := by
  refine dreamStep_history (P := fun es s => (∀ e ∈ es, HiveEvent.LoadsDistinct (.call 0 e)) →
    Distinct s.store s.collection.collectionId s.collection.inner) hrun (fun _ => ?_)
    (fun es => undisturbed_distinct.of_imp _) ?_ hload
  · exact Distinct.opened_new hnew.locations ⟨0, hnew.loadU64 _ _⟩
  · intro es s e s' h hstep hall
    have hd := distinct_step (h fun e' he' => hall e' (List.mem_append_left _ he'))
      (hall e (List.mem_append_right _ List.mem_cons_self)) hstep
    rwa [← (step_within hstep).collectionId] at hd

/-- A dream that returns ends with a flush. -/
theorem dreamCollection_gives {passes : ℕ} {s s' : Session F S} {r : CollectionDream F}
    (h : Gives (dreamCollection passes) s r s') : ∃ t m, Gives (dreamPasses (max passes 1) 0) s m t ∧
      s' = t.flushed ∧ r.locationsAfter = t.collection.inner.locations.length := by
  obtain ⟨m, t, hpasses, h⟩ := Gives.bind (Gives.get_bind h)
  obtain ⟨_, u, hflush, h⟩ := h.bind
  obtain ⟨rfl, rfl⟩ := (Gives.get_bind h).pure
  obtain ⟨fs, fs', hflush⟩ := hflush
  rcases flush_cases t fs with ⟨e, fs'', hrun⟩ | ⟨-, fs'', hrun⟩
  · simp [hrun] at hflush
  · rw [hrun] at hflush
    simp only [Prod.mk.injEq, World.mk.injEq] at hflush
    obtain ⟨-, rfl, -⟩ := hflush
    exact ⟨t, m, hpasses, rfl, rfl⟩

/-- **A dream that returns has stored what it made of the memory.** Whatever
calls and dreams went before, if no snapshot they loaded repeats an id, the
collection reloads from the store as it is in memory, and the records of
other collections are what they were. -/
theorem dream_settles {collectionId : ℕ} {name : String} {config : EAMConfig F} {rng : Rng F} {store : Store F}
    (hp : store.precision = .f64) (hnew : store.Untouched collectionId) {es : List (Option (Event F))}
    {s s' : Session F S} (hrun : Run DreamStep (Session.fresh collectionId name config rng store) es s)
    (hload : ∀ e ∈ es.reduceOption, HiveEvent.LoadsDistinct (.call 0 e)) {passes : ℕ} {r : CollectionDream F}
    {fs fs' : List (Option HeatherError)} (hdream : dreamCollection passes ⟨s, fs⟩ = (.ok r, ⟨s', fs'⟩)) :
    Reloads SameLocation s' ∧ r.locationsAfter = s'.collection.inner.locations.length ∧
      OnlyUnder s.collection.collectionId s.store s'.store := by
  obtain ⟨t, m, ⟨gs, gs', hpasses⟩, rfl, hafter⟩ := dreamCollection_gives ⟨fs, fs', hdream⟩
  have hall := ((undisturbed_kept (liveAfter es.reduceOption)).and
    (undisturbed_distinct.and (undisturbed_within s))).ensures_dreamPasses (max passes 1) 0 ⟨s, gs⟩
    ⟨kept_dreams hp hnew hrun, distinct_dreams hnew hrun hload, rfl, .refl _⟩
  rw [hpasses] at hall
  obtain ⟨⟨⟨hr, hk⟩, hd, hw⟩, -⟩ := hall
  exact ⟨(agrees_flushed hr hk.f64 hd.nodup hk.docNextId).reloads, hafter,
    ((undisturbed_within s).flush hw).store⟩

/-- The dream of a collection with one document. -/
theorem dream_settles_small : ∃ r s', dreamCollection 2 ⟨smallDocument, []⟩ = (.ok r, ⟨s', []⟩) ∧
    Reloads SameLocation s' := by
  have hok : (dreamCollection 2 ⟨smallDocument, []⟩).1.isOk = true := by decide +kernel
  have hplan : (dreamCollection 2 ⟨smallDocument, []⟩).2.faults = [] := by decide +kernel
  rcases hdream : dreamCollection 2 ⟨smallDocument, []⟩ with ⟨e | r, ⟨s', fs'⟩⟩
  · rw [hdream] at hok
    exact absurd hok Bool.false_ne_true
  · rw [hdream] at hplan
    subst hplan
    exact ⟨r, s', rfl, (@dream_settles ℚ ℚ _ _ _ _ _ _ _ _ _ rfl
      ⟨fun _ => rfl, fun _ => rfl, fun _ => rfl, fun _ => rfl⟩ _ _ _ dreamStep_smallDocument (by simp; trivial) _ _ _ _
      hdream).1⟩

end HeatherDb
