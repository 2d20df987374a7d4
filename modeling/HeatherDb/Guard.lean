/-
# What the guard lets happen

Whatever the storage does, a call under the guard that returns either failed,
and left the session as `Failed` allows, or its whole effect happened. A
mutation that ends with one transaction is all or nothing (`mutation_cases`);
one that first stores its documents inline may stop between its two
transactions (`consolidation_cases`).

Key definitions: `Store.putAll`, `Session.materialized`, `Recovered`, `Failed`.
Key theorems: `materialize_cases`, `mutation_cases`, `consolidation_cases`.
-/
import HeatherDb.Collection

namespace HeatherDb

open Scalar Narrow Program AtomicMutation

variable {F S : Type} [Narrow F S]

/-! ### Pure effects -/

/-- The records stored. -/
def Store.putAll [Scalar F] (collectionId : ℕ) (p : Puts F) (s : Store F) : Store F :=
  let s := p.locations.foldl (fun s loc => s.putLocation collectionId loc) s
  let s := p.documents.foldl (fun s d => s.putDocument collectionId d.1 d.2) s
  let s := p.postings.foldl (fun s e => s.appendDocsToLocation collectionId e.1 e.2) s
  p.metadata.foldl (fun s kv => s.putMetadata collectionId kv.1 kv.2) s

/-- A document stored by reference that resolves, with its vector inline. -/
def inlinedRef (precision : Precision) (inner : EAMInner F S) (doc : ℕ × DocumentRecord F) :
    Option (ℕ × DocumentRecord F) :=
  match doc.2 with
  | .reference id metadata =>
    (inner.locationAddress id).map fun v => (doc.1, encodeDocument precision v metadata)
  | _ => none

/-- The store after `materializeDocumentRefs`. -/
def Store.materialize (s : Store F) (collectionId : ℕ) (inner : EAMInner F S) : Store F :=
  ((s.listDocuments collectionId).filterMap (inlinedRef s.precision inner)).foldl
    (fun s d => s.putDocument collectionId d.1 d.2) s

def Session.materialized (s : Session F S) : Session F S :=
  { s with store := s.store.materialize s.collection.collectionId s.collection.inner }

theorem steady_persist [Scalar F] (collectionId : ℕ) (p : Puts F) (txn : Store F) :
    Steady (txn.persist collectionId p) (txn.putAll collectionId p) := by
  unfold Store.persist Store.putAll
  refine (Steady.foldlM (fun txn loc => Store.steady_write _) _ _).bind ?_
  refine (Steady.foldlM (fun txn d => Store.steady_write _) _ _).bind ?_
  refine (Steady.foldlM (fun txn e => Store.steady_write _) _ _).bind ?_
  exact Steady.foldlM (fun txn kv => Store.steady_write _) _ _

theorem inlineDocument_eq (precision : Precision) (inner : EAMInner F S) (doc : ℕ × DocumentRecord F) :
    inlineDocument precision inner doc = .ok (inlinedRef precision inner doc) := by
  obtain ⟨n, r⟩ := doc
  cases r with
  | document v md => rfl
  | damaged msg => rfl
  | reference id md =>
    simp only [inlineDocument, inlinedRef, decodeDocumentParts, resolveDocument, bind, Except.bind]
    cases inner.locationAddress id <;> rfl

/-! ### The guard -/

omit [Narrow F S] in
theorem inTransaction_cases {α : Type} {body : Store F → Program HeatherError (Store F) (α × Store F)}
    {m : AtomicMutation F S} {v : α × Store F} (h : Steady (body m.store) v)
    (fs : List (Option HeatherError)) :
    (∃ e fs', inTransaction body ⟨m, fs⟩ = (.error e, ⟨m, fs'⟩)) ∨
      ∃ fs', inTransaction body ⟨m, fs⟩ = (.ok v.1, ⟨{ m with store := v.2 }, fs'⟩) := by
  unfold inTransaction zoom
  rcases transaction_cases (w := ⟨m.store, fs⟩) h with ⟨e, fs', h⟩ | ⟨fs', h⟩
  · exact Or.inl ⟨e, fs', by simp only [h]⟩
  · exact Or.inr ⟨fs', by simp only [h]⟩

theorem steady_documentTransaction (collectionId : ℕ) (documents : List (ℕ × DocumentRecord F)) (txn : Store F) :
    Steady (documentTransaction collectionId documents txn)
      ((), documents.foldl (fun s d => s.putDocument collectionId d.1 d.2) txn) :=
  (Steady.foldlM (fun _ _ => Store.steady_write _) _ _).bind (Steady.pure _)

/-- Materializing under the guard: an error and nothing changed, or the
references are gone. -/
theorem materialize_cases (m : AtomicMutation F S) (fs : List (Option HeatherError)) :
    (∃ e fs', materializeDocumentRefs ⟨m, fs⟩ = (.error e, ⟨m, fs'⟩)) ∨
      ∃ fs', materializeDocumentRefs ⟨m, fs⟩ =
        (.ok (), ⟨{ m with store := m.store.materialize m.collectionId m.inner }, fs'⟩) := by
  unfold materializeDocumentRefs Store.materialize
  rw [get_bind, mapM_ok (inlineDocument_eq _ _), ofExcept_ok_bind]
  simp only [List.filterMap_map, Function.id_comp]
  split_ifs with h
  · rw [h]
    exact Or.inr ⟨fs, rfl⟩
  · exact inTransaction_cases (m := m) (steady_documentTransaction m.collectionId _ m.store) fs

variable [Scalar F]

/-- The memory read back from the session's store at a version. -/
def Recovered (s : Session F S) (v : ℕ) (inner : EAMInner F S) : Prop :=
  match Collection.load (S := S) s.collection.collectionId s.collection.name s.store
    s.collection.inner.config with
  | .ok loaded => inner = { loaded.inner with version := v }
  | .error _ => inner.valid = false ∧ inner.version = v

/-- A session with another memory and generator. -/
def Session.remember (s : Session F S) (inner : EAMInner F S) (rng : Rng F) : Session F S :=
  { s with rng := rng, collection := { s.collection with inner := inner } }

/-- What a call that returned an error may have left: the session as it was,
its references materialized, or its memory read back from the store at
version `v`, in either case. -/
inductive Failed (v : ℕ) (s : Session F S) : Session F S → Prop
  | unchanged : Failed v s s
  | materialized : Failed v s s.materialized
  | recovered {inner : EAMInner F S} (rng : Rng F) (h : Recovered s v inner) :
    Failed v s (s.remember inner rng)
  | recoveredMaterialized {inner : EAMInner F S} (rng : Rng F) (h : Recovered s.materialized v inner) :
    Failed v s (s.materialized.remember inner rng)

/-- A mutation that stopped after it touched memory. -/
theorem recovered_of_dirty {s : Session F S} {m : AtomicMutation F S}
    (hid : m.collectionId = s.collection.collectionId) (hname : m.name = s.collection.name)
    (hstore : m.store = s.store) (hconfig : m.inner.config = s.collection.inner.config) :
    Recovered s m.inner.version m.recovered := by
  unfold Recovered AtomicMutation.recovered
  rw [hid, hname, hstore, hconfig]
  cases Collection.load (S := S) s.collection.collectionId s.collection.name s.store
    s.collection.inner.config with
  | ok loaded => rfl
  | error e => exact ⟨rfl, rfl⟩

omit [Scalar F] [Narrow F S] in
/-- Reading the memory gives it, or fails when it is not readable. -/
theorem readInner_cases (s : Session F S) (fs : List (Option HeatherError)) :
    (s.collection.inner.valid = true ∧ readInner ⟨s, fs⟩ = (.ok s.collection.inner, ⟨s, fs⟩)) ∨
      readInner ⟨s, fs⟩ = (.error recoveryFailed, ⟨s, fs⟩) := by
  unfold readInner
  rw [get_bind, checkValid]
  split_ifs with hv
  · exact Or.inl ⟨hv, rfl⟩
  · exact Or.inr rfl

omit [Scalar F] [Narrow F S] in
theorem readInner_valid {s : Session F S} (hv : s.collection.inner.valid = true) (fs : List (Option HeatherError)) :
    readInner ⟨s, fs⟩ = (.ok s.collection.inner, ⟨s, fs⟩) := by
  unfold readInner
  rw [get_bind, checkValid, if_pos hv]
  rfl

theorem atomicMutation_invalid {α : Type} {s : Session F S} (h : s.collection.inner.valid = false)
    (body : Program HeatherError (AtomicMutation F S) α) (fs : List (Option HeatherError)) :
    atomicMutation body ⟨s, fs⟩ = (.error recoveryFailed, ⟨s, fs⟩) := by
  simp [atomicMutation, checkValid, h]

theorem atomicMutation_valid {α : Type} {s : Session F S} (h : s.collection.inner.valid = true)
    {body : Program HeatherError (AtomicMutation F S) α} {fs fs' : List (Option HeatherError)}
    {r : Except HeatherError α} {m : AtomicMutation F S} (hb : body ⟨.begin s, fs⟩ = (r, ⟨m, fs'⟩)) :
    atomicMutation body ⟨s, fs⟩ = (r, ⟨m.release s, fs'⟩) := by
  simp [atomicMutation, checkValid, h, hb]

/-- A call that checks its input, and under the guard what it finds there,
failed before it did anything, or all was in order. -/
theorem failed_or_checked {α : Type} {validated : Except HeatherError Unit}
    {check : AtomicMutation F S → Except HeatherError Unit}
    {body : AtomicMutation F S → Program HeatherError (AtomicMutation F S) α} {s : Session F S}
    {fs : List (Option HeatherError)} {version : ℕ} {P : Prop}
    (h : validated = .ok () → s.collection.inner.valid = true → check (.begin s) = .ok () →
      (∃ e fs' s', (do
          ofExcept validated
          atomicMutation do
            let m ← get
            ofExcept (check m)
            body m) ⟨s, fs⟩ = (.error e, ⟨s', fs'⟩) ∧ Failed version s s') ∨ P) :
    (∃ e fs' s', (do
        ofExcept validated
        atomicMutation do
          let m ← get
          ofExcept (check m)
          body m) ⟨s, fs⟩ = (.error e, ⟨s', fs'⟩) ∧ Failed version s s') ∨ P := by
  cases hvalidated : validated with
  | error e => exact Or.inl ⟨e, fs, s, rfl, .unchanged⟩
  | ok u =>
    rw [hvalidated] at h
    rw [ofExcept_ok_bind] at h ⊢
    by_cases hvalid : s.collection.inner.valid = true
    swap
    · exact Or.inl ⟨_, _, s, atomicMutation_invalid (by simpa using hvalid) _ _, .unchanged⟩
    cases hcheck : check (.begin s) with
    | ok u => exact h rfl hvalid hcheck
    | error e =>
      refine Or.inl ⟨e, fs, s, atomicMutation_valid (m := .begin s) hvalid ?_, .unchanged⟩
      rw [get_bind, hcheck, ofExcept_error_bind]

/-- A check of every item passed on each of them. -/
theorem forM_ok {α : Type} {f : α → Except HeatherError Unit} : ∀ {l : List α} {u : Unit},
    l.forM f = .ok u → ∀ a ∈ l, f a = .ok ()
  | a :: l, u, h, b, hb => by
    change (f a >>= fun _ => l.forM f) = .ok u at h
    cases ha : f a with
    | error e =>
      rw [ha] at h
      exact absurd h (by simp [bind, Except.bind])
    | ok v =>
      rw [ha] at h
      rcases List.mem_cons.mp hb with rfl | hb
      · exact ha
      · exact forM_ok h b hb

theorem forM_of_forall {α : Type} {f : α → Except HeatherError Unit} : ∀ {l : List α},
    (∀ a ∈ l, f a = .ok ()) → l.forM f = .ok ()
  | [], _ => rfl
  | a :: l, h => by
    change (f a >>= fun _ => l.forM f) = .ok ()
    rw [h a List.mem_cons_self]
    exact forM_of_forall fun b hb => h b (List.mem_cons_of_mem _ hb)

theorem steady_putTransaction (collectionId : ℕ) (p : Puts F) (txn : Store F) :
    Steady (putTransaction collectionId p txn) ((), txn.putAll collectionId p) :=
  (steady_persist _ _ _).bind (Steady.pure _)

/-- Storing records and going on. -/
theorem persist_bind {α : Type} (p : Puts F) (k : Unit → Program HeatherError (AtomicMutation F S) α)
    (m : AtomicMutation F S) (fs : List (Option HeatherError)) :
    (∃ e fs', (persist p >>= k) ⟨m, fs⟩ = (.error e, ⟨m, fs'⟩)) ∨
      ∃ fs', (persist p >>= k) ⟨m, fs⟩ = k () ⟨{ m with store := m.store.putAll m.collectionId p }, fs'⟩ := by
  have hp : persist p ⟨m, fs⟩ = inTransaction (putTransaction m.collectionId p) ⟨m, fs⟩ := rfl
  rcases inTransaction_cases (m := m) (steady_putTransaction m.collectionId p m.store) fs with
    ⟨e, fs', h⟩ | ⟨fs', h⟩
  · exact Or.inl ⟨e, fs', bind_of_error (hp.trans h) k⟩
  · exact Or.inr ⟨fs', bind_of_ok (hp.trans h) k⟩

/-- The session with this memory, after these records were stored. -/
def Session.mutated (s : Session F S) (inner : EAMInner F S) (rng : Rng F) (p : Puts F) : Session F S :=
  { store := s.store.putAll s.collection.collectionId p
    rng := rng
    collection := { s.collection with inner := inner } }

/-- A mutation that ends with a transaction: it failed there, or all of it
happened. -/
theorem mutation_cases {α : Type} {body : Program HeatherError (AtomicMutation F S) α} {s : Session F S}
    {fs : List (Option HeatherError)} {m : AtomicMutation F S} {p : Puts F}
    {k : Unit → Program HeatherError (AtomicMutation F S) α} {i : EAMInner F S} {a : α}
    (hv : s.collection.inner.valid = true) (hbody : body ⟨.begin s, fs⟩ = (persist p >>= k) ⟨m, fs⟩)
    (hk : ∀ fs, k () ⟨{ m with store := m.store.putAll m.collectionId p }, fs⟩ =
      (.ok a, ⟨⟨m.store.putAll m.collectionId p, m.rng, m.collectionId, m.name, i, true, true⟩, fs⟩))
    (hid : m.collectionId = s.collection.collectionId) (hname : m.name = s.collection.name)
    (hstore : m.store = s.store) (hconfig : m.inner.config = s.collection.inner.config)
    (hdirty : m.dirty = true) (hcommitted : m.committed = false) :
    (∃ e fs' s', atomicMutation body ⟨s, fs⟩ = (.error e, ⟨s', fs'⟩) ∧ Failed m.inner.version s s') ∨
      ∃ fs', atomicMutation body ⟨s, fs⟩ = (.ok a, ⟨s.mutated i m.rng p, fs'⟩) := by
  rcases persist_bind p k m fs with ⟨e, fs', h⟩ | ⟨fs', h⟩
  · refine Or.inl ⟨e, fs', _, atomicMutation_valid hv (hbody.trans h), ?_⟩
    have hrel : m.release s = s.remember m.recovered m.rng := by
      simp [release, Session.remember, hdirty, hcommitted, hstore]
    rw [hrel]
    exact .recovered _ (recovered_of_dirty hid hname hstore hconfig)
  · refine Or.inr ⟨fs', (atomicMutation_valid hv ((hbody.trans h).trans (hk fs'))).trans ?_⟩
    rw [hstore, hid]
    rfl

theorem release_committed {m : AtomicMutation F S} {s : Session F S} (hc : m.committed = true) :
    m.release s = ⟨m.store, m.rng, { s.collection with inner := m.inner }⟩ := by
  simp [release, hc]

/-- The guard with the references materialized. -/
def AtomicMutation.materialized (s : Session F S) : AtomicMutation F S :=
  { AtomicMutation.begin s with store := s.materialized.store }

/-- A mutation that materializes first: it failed there, or failed after and
left `m`, or all of it happened and left `n`. -/
theorem consolidation_cases {α : Type} {body : Program HeatherError (AtomicMutation F S) α}
    {s : Session F S} {fs : List (Option HeatherError)} {m n : AtomicMutation F S}
    {k : Unit → Program HeatherError (AtomicMutation F S) α} {a : α}
    (hv : s.collection.inner.valid = true)
    (hbody : body ⟨.begin s, fs⟩ = (materializeDocumentRefs >>= k) ⟨.begin s, fs⟩)
    (hk : ∀ fs, (∃ e fs', k () ⟨.materialized s, fs⟩ = (.error e, ⟨m, fs'⟩)) ∨
      ∃ fs', k () ⟨.materialized s, fs⟩ = (.ok a, ⟨n, fs'⟩))
    (hid : m.collectionId = s.collection.collectionId) (hname : m.name = s.collection.name)
    (hstore : m.store = s.materialized.store) (hconfig : m.inner.config = s.collection.inner.config)
    (hdirty : m.dirty = true) (hcommitted : m.committed = false) (hdone : n.committed = true) :
    (∃ e fs' s', atomicMutation body ⟨s, fs⟩ = (.error e, ⟨s', fs'⟩) ∧ Failed m.inner.version s s') ∨
      ∃ fs', atomicMutation body ⟨s, fs⟩ =
        (.ok a, ⟨⟨n.store, n.rng, { s.collection with inner := n.inner }⟩, fs'⟩) := by
  rcases materialize_cases (.begin s) fs with ⟨e, fs', h⟩ | ⟨fs', h⟩
  · refine Or.inl ⟨e, fs', s, ?_, .unchanged⟩
    exact atomicMutation_valid (m := .begin s) hv (hbody.trans (bind_of_error h _))
  have hb : body ⟨.begin s, fs⟩ = k () ⟨.materialized s, fs'⟩ := hbody.trans (bind_of_ok h _)
  rcases hk fs' with ⟨e, fs'', hk⟩ | ⟨fs'', hk⟩
  · refine Or.inl ⟨e, fs'', _, atomicMutation_valid hv (hb.trans hk), ?_⟩
    have hrel : m.release s = s.materialized.remember m.recovered m.rng := by
      simp [release, Session.remember, hdirty, hcommitted, hstore, Session.materialized]
    rw [hrel]
    exact .recoveredMaterialized _ (recovered_of_dirty hid hname hstore hconfig)
  · refine Or.inr ⟨fs'', (atomicMutation_valid hv (hb.trans hk)).trans ?_⟩
    rw [release_committed hdone]

/-- A mutation that can only fail while it materializes: it failed there and
nothing changed, or all of it happened. -/
theorem materialization_cases {α : Type} {body : Program HeatherError (AtomicMutation F S) α}
    {s : Session F S} {fs : List (Option HeatherError)} {n : AtomicMutation F S}
    {k : Unit → Program HeatherError (AtomicMutation F S) α} {a : α}
    (hv : s.collection.inner.valid = true)
    (hbody : body ⟨.begin s, fs⟩ = (materializeDocumentRefs >>= k) ⟨.begin s, fs⟩)
    (hk : ∀ fs, ∃ fs', k () ⟨.materialized s, fs⟩ = (.ok a, ⟨n, fs'⟩)) (hdone : n.committed = true) :
    (∃ e fs', atomicMutation body ⟨s, fs⟩ = (.error e, ⟨s, fs'⟩)) ∨
      ∃ fs', atomicMutation body ⟨s, fs⟩ =
        (.ok a, ⟨⟨n.store, n.rng, { s.collection with inner := n.inner }⟩, fs'⟩) := by
  rcases materialize_cases (.begin s) fs with ⟨e, fs', h⟩ | ⟨fs', h⟩
  · exact Or.inl ⟨e, fs', atomicMutation_valid (m := .begin s) hv (hbody.trans (bind_of_error h _))⟩
  · have hb : body ⟨.begin s, fs⟩ = k () ⟨.materialized s, fs'⟩ := hbody.trans (bind_of_ok h _)
    obtain ⟨fs'', hk⟩ := hk fs'
    refine Or.inr ⟨fs'', (atomicMutation_valid hv (hb.trans hk)).trans ?_⟩
    rw [release_committed hdone]

end HeatherDb
