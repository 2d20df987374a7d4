/-
# Document reads beside other calls

A read of documents has two steps: it reads records from the store, and then
takes the collection's lock and resolves them. Whole calls of other clients
may run between (`DocumentRead.records`, `DocumentRead.resolve`). A record
stored inline resolves alone; one that is a reference resolves with the
address its location has when the lock is taken, which a merge, a compression
or a snapshot load may have taken away.

Key definitions: `DocumentRead`, `DocumentRead.Returns`.
Key theorems: `resolve_records`, `reads_exact_iff`.
-/
import HeatherDb.Documents

namespace HeatherDb

open Scalar Narrow Program Store

variable {F S : Type}

/-- `get_document`, `list_documents` and `list_documents_page`. -/
inductive DocumentRead where
  | document (writeIndex : ℕ)
  | all
  | page (offset limit : ℕ)

namespace DocumentRead

/-- The records read from the store. -/
def records (s : Session F S) : DocumentRead → List (ℕ × DocumentRecord F)
  | .document writeIndex =>
    (s.store.getDocument s.collection.collectionId writeIndex).toList.map fun r => (writeIndex, r)
  | .all => s.store.listDocuments s.collection.collectionId
  | .page offset limit => (s.store.listDocumentsPage s.collection.collectionId offset limit).1

/-- The records resolved under the lock: the documents returned. -/
def resolve (raw : List (ℕ × DocumentRecord F)) : DocumentRead → Program HeatherError (Session F S) (List (Document F))
  | .document writeIndex => do
    let doc ← resolveRecord (raw.head?.map (·.2))
    pure (doc.toList.map fun d => (writeIndex, d))
  | .all | .page .. => do
    let docs ← decodeAll raw
    pure docs.1

/-- The record of a single document. -/
theorem head_records (s : Session F S) (writeIndex : ℕ) :
    ((DocumentRead.document writeIndex).records s).head?.map (·.2) =
      s.store.getDocument s.collection.collectionId writeIndex := by
  show ((Option.toList _).map _).head?.map _ = _
  cases s.store.getDocument s.collection.collectionId writeIndex <;> rfl

/-- The read as one call. -/
def whole : DocumentRead → Program HeatherError (Session F S) (List (Document F))
  | .document writeIndex => do
    let doc ← HeatherDb.getDocument writeIndex
    pure (doc.toList.map fun d => (writeIndex, d))
  | .all => HeatherDb.listDocuments
  | .page offset limit => do
    let page ← HeatherDb.listDocumentsPage offset limit
    pure page.1

/-- **Undisturbed**, the two steps of a read are the call. -/
theorem resolve_records (s : Session F S) (fs : List (Option HeatherError)) (read : DocumentRead) :
    read.resolve (read.records s) ⟨s, fs⟩ = read.whole ⟨s, fs⟩ := by
  cases read with
  | document writeIndex =>
    show (resolveRecord _ >>= _) _ = (HeatherDb.getDocument writeIndex >>= _) _
    unfold HeatherDb.getDocument
    rw [Program.bind_assoc, get_bind, head_records]
  | all => rfl
  | page offset limit =>
    show (decodeAll _ >>= _) _ = (HeatherDb.listDocumentsPage offset limit >>= _) _
    unfold HeatherDb.listDocumentsPage
    rw [Program.bind_assoc, get_bind, Program.bind_assoc]
    rfl

/-- Read from `s` and resolved in `s'`, the document comes back with `v` alone. -/
def Returns (s s' : Session F S) (id : ℕ) (v : List F × List UInt8) (read : DocumentRead) : Prop :=
  ∀ fs, ∃ docs, read.resolve (read.records s) ⟨s', fs⟩ = (.ok docs, ⟨s', fs⟩) ∧
    (id, v) ∈ docs ∧ ∀ w, (id, w) ∈ docs → w = v

/-- A record read is the one in the table. -/
theorem get_of_mem_records {s : Session F S} {read : DocumentRead} {id : ℕ} {r : DocumentRecord F}
    (hr : (id, r) ∈ read.records s) : s.store.getDocument s.collection.collectionId id = some r := by
  cases read with
  | document writeIndex =>
    obtain ⟨r', hmem, heq⟩ := List.mem_map.mp hr
    obtain ⟨rfl, rfl⟩ := Prod.mk.inj heq
    simpa using hmem
  | all => exact mem_listDocuments_iff.mp hr
  | page offset limit => exact mem_listDocuments_iff.mp (List.mem_of_mem_drop (List.mem_of_mem_take hr))

/-- One record under an id at most. -/
theorem records_unique {s : Session F S} {read : DocumentRead} {id : ℕ} {r r' : DocumentRecord F}
    (h : (id, r) ∈ read.records s) (h' : (id, r') ∈ read.records s) : r = r' :=
  Option.some.inj ((get_of_mem_records h).symm.trans (get_of_mem_records h'))

/-- **A document comes back just when its record resolves to it.** -/
theorem returns_iff {s s' : Session F S} (hv : s'.collection.inner.valid = true) {read : DocumentRead} {n : ℕ}
    {r : DocumentRecord F} (hr : (n, r) ∈ read.records s) (v : List F × List UInt8) :
    read.Returns s s' n v ↔ resolveDocument s'.collection.inner r = .ok v := by
  have hlist : ∀ raw : List (ℕ × DocumentRecord F), (n, r) ∈ raw → (∀ r', (n, r') ∈ raw → r' = r) →
      ((∀ fs : List (Option HeatherError), ∃ docs,
        (decodeAll raw >>= fun docs => pure docs.1 : Program HeatherError (Session F S) _) ⟨s', fs⟩ =
          (.ok docs, ⟨s', fs⟩) ∧ (n, v) ∈ docs ∧ ∀ w, (n, w) ∈ docs → w = v) ↔
        resolveDocument s'.collection.inner r = .ok v) := by
    intro raw hmem hone
    have hrun : ∀ fs, (decodeAll raw >>= fun docs => pure docs.1 : Program HeatherError (Session F S) _) ⟨s', fs⟩ =
        (.ok ((resolveAll s'.collection.inner raw).filterMap id), ⟨s', fs⟩) := fun fs => by
      rw [bind_of_ok (decodeAll_eq s' hv raw fs)]
      rfl
    constructor
    · intro h
      obtain ⟨docs, heq, hin, -⟩ := h []
      obtain rfl := Except.ok.inj (Prod.mk.inj ((hrun []).symm.trans heq)).1
      obtain ⟨r', hr', hres⟩ := mem_resolveAll.mp hin
      exact hone r' hr' ▸ hres
    · intro hres fs
      refine ⟨_, hrun fs, mem_resolveAll.mpr ⟨r, hmem, hres⟩, fun w hw => ?_⟩
      obtain ⟨r', hr', hres'⟩ := mem_resolveAll.mp hw
      rw [hone r' hr'] at hres'
      exact Except.ok.inj (hres'.symm.trans hres)
  cases read with
  | document writeIndex =>
    have hget := get_of_mem_records hr
    obtain ⟨r', -, heq⟩ := List.mem_map.mp hr
    obtain ⟨rfl, -⟩ := Prod.mk.inj heq
    have hrun : ∀ fs, (DocumentRead.document writeIndex).resolve
        ((DocumentRead.document writeIndex).records s) ⟨s', fs⟩ =
        ((resolveDocument s'.collection.inner r).map fun d => [(writeIndex, d)], ⟨s', fs⟩) := by
      intro fs
      have hread : resolveRecord (some r) ⟨s', fs⟩ =
          ((resolveDocument s'.collection.inner r).map some, ⟨s', fs⟩) := by
        show (readInner >>= _) _ = _
        rw [bind_of_ok (readInner_valid hv fs)]
        cases resolveDocument s'.collection.inner r <;> rfl
      show (resolveRecord (((DocumentRead.document writeIndex).records s).head?.map (·.2)) >>= _) _ = _
      rw [head_records, hget]
      cases hres : resolveDocument s'.collection.inner r with
      | error e =>
        rw [hres] at hread
        exact bind_of_error hread _
      | ok d =>
        rw [hres] at hread
        exact bind_of_ok hread _
    constructor
    · intro h
      obtain ⟨docs, heq, hin, -⟩ := h []
      have hdocs := (Prod.mk.inj ((hrun []).symm.trans heq)).1
      cases hres : resolveDocument s'.collection.inner r with
      | error e =>
        rw [hres] at hdocs
        simp [Except.map] at hdocs
      | ok d =>
        rw [hres] at hdocs
        obtain rfl : [(writeIndex, d)] = docs := Except.ok.inj hdocs
        obtain ⟨-, rfl⟩ := Prod.mk.inj (List.mem_singleton.mp hin)
        rfl
    · intro hres fs
      refine ⟨[(writeIndex, v)], ?_, List.mem_cons_self, fun w hw => ?_⟩
      · rw [hrun fs, hres]
        rfl
      · exact (Prod.mk.inj (List.mem_singleton.mp hw)).2
  | all => exact hlist _ hr fun r' hr' => records_unique hr' hr
  | page offset limit => exact hlist _ hr fun r' hr' => records_unique hr' hr

end DocumentRead

variable [Scalar F] [Scalar S] [Narrow F S] [SeededUniform F]

/-- **Which reads are exact.** Of the documents live throughout a read, all
that it covers come back as they were written just when every location that
one of their records refers to still has, when the lock is taken, the address
it had when the records were read. -/
theorem reads_exact_iff {collectionId : ℕ} {name : String} {config : EAMConfig F} {rng : Rng F} {store : Store F}
    (hp : store.precision = .f64) (hnew : store.Untouched collectionId) {before during : List (Event F)}
    {s s' : Session F S} (hbefore : Run Step (Session.fresh collectionId name config rng store) before s)
    (hduring : Run Step s during s') (read : DocumentRead) :
    (∀ id v, liveAfter before id = some v → (∀ e ∈ during, ¬ e.Deletes id) →
        id ∈ (read.records s).map (·.1) → read.Returns s s' id v) ↔
      ∀ id v k metadata, liveAfter before id = some v → (∀ e ∈ during, ¬ e.Deletes id) →
        (id, .reference k metadata) ∈ read.records s →
        s'.collection.inner.locationAddress k = s.collection.inner.locationAddress k := by
  obtain ⟨hr, hk⟩ := kept_run hp hnew hbefore
  obtain ⟨hr', -⟩ := kept_run hp hnew (hbefore.trans hduring)
  constructor
  · intro h id v k metadata hlive hdelete hmem
    have hreturns := h id v hlive hdelete (List.mem_map_of_mem hmem)
    have hres := (DocumentRead.returns_iff hr'.valid hmem v).mp hreturns
    obtain ⟨r, hget, hreads⟩ := hk.stored id v hlive
    obtain rfl : r = .reference k metadata :=
      Option.some.inj (hget.symm.trans (DocumentRead.get_of_mem_records hmem))
    -- a reference that resolves resolves to the address found
    have haddr : ∀ {m : EAMInner F S} {w : List F × List UInt8},
        resolveDocument m (.reference k metadata) = .ok w → m.locationAddress k = some w.1 := by
      intro m w hw
      rw [resolveDocument_reference] at hw
      cases ha : m.locationAddress k with
      | none =>
        rw [ha] at hw
        cases hw
      | some a =>
        rw [ha] at hw
        rw [← Except.ok.inj hw]
    rw [haddr hres, haddr (hreads.resolve hr)]
  · intro h id v hlive hdelete hcovered
    obtain ⟨⟨n, r⟩, hmem, rfl⟩ := List.mem_map.mp hcovered
    refine (DocumentRead.returns_iff hr'.valid hmem v).mpr ?_
    obtain ⟨r', hget, hreads⟩ := hk.stored n v hlive
    obtain rfl : r' = r := Option.some.inj (hget.symm.trans (DocumentRead.get_of_mem_records hmem))
    rcases hreads with rfl | ⟨k, rfl, href⟩
    · rfl
    · have hsame := h n v k v.2 hlive hdelete hmem
      show resolveDocument s'.collection.inner (.reference k v.2) = .ok v
      rw [resolveDocument_reference, hsame, href.locationAddress hr]
      rfl

/-- A listing during which another client stores a document at a new location:
the first document comes back from its own. -/
theorem reads_exact_beside_write : ∃ during s', Run Step smallDocument during s' ∧
    s'.collection.inner.locations.length = 2 ∧ DocumentRead.all.Returns smallDocument s' 0 ([1], [7]) := by
  have hwrite := step_of_isOk (s := smallSession false) (c := .writeWithMetadata [1] [7]) (by decide +kernel)
  have hbeside := step_of_isOk (s := smallDocument) (c := .writeWithMetadata [-1] [8]) (by decide +kernel)
  have hrecords : DocumentRead.all.records smallDocument = [(0, .reference 0 [7])] := rfl
  refine ⟨_, _, .single hbeside, by decide +kernel, (reads_exact_iff rfl
    ⟨fun _ => rfl, fun _ => rfl, fun _ => rfl, fun _ => rfl⟩ (.single hwrite) (.single hbeside) .all).mpr
      (fun id v k metadata _ _ hmem => ?_) 0 ([1], [7]) rfl (by simp [Event.Deletes]) (by decide +kernel)⟩
  -- the only record refers to the location that was there
  replace hmem : (id, DocumentRecord.reference k metadata) ∈ [(0, .reference 0 [7])] := hrecords ▸ hmem
  obtain rfl : k = 0 := by cases List.mem_singleton.mp hmem; rfl
  decide +kernel

/-- Two documents stored as references. -/
def smallDocuments : Session ℚ ℚ := Call.effect smallDocument (.writeWithMetadata [1] [8])

/-- **A read across a merge** reports a live document corrupt: its record
refers to a location that the merge removed before the lock was taken. -/
theorem read_across_merge : ∃ before r s', Run Step (smallSession false) before smallDocuments ∧
    liveAfter before 1 = some ([1], [8]) ∧ Run Step smallDocuments [(.merge, .ok r)] s' ∧
    ∃ message, ((DocumentRead.document 1).resolve ((DocumentRead.document 1).records smallDocuments) ⟨s', []⟩).1 =
      .error (.corrupt message) := by
  have hfirst := step_of_isOk (s := smallSession false) (c := .writeWithMetadata [1] [7]) (by decide +kernel)
  have hsecond := step_of_isOk (s := smallDocument) (c := .writeWithMetadata [1] [8]) (by decide +kernel)
  have hmerge := step_of_isOk (s := smallDocuments) (c := .merge) (by decide +kernel)
  exact ⟨_, _, _, Run.trans (.single hfirst) (.single hsecond), rfl, .single hmerge,
    "document refers to location 1, which does not exist", by decide +kernel⟩

end HeatherDb
