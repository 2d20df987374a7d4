/-
# What requests carry

The vectors of a request come in by JSON or base64 (`Routes.Carries`). Only
base64 can carry a number that is not finite. A write that carries one is
refused. A bulk load is not: it is the one way in for such numbers, and for
write counts that the learning rate cannot be damped by. Over requests without
such a load every stored vector stays finite (`stored_finite`).

Key definitions: `Routes.Carries`, `Routes.Accepted`, `Routes.Harmless`, `StoredFinite`.
Key theorems: `Routes.finite_write`, `Routes.finite_bulkLoad`, `Routes.finite_step`,
`Routes.stored_finite`.
-/
import HeatherDb.Exact
import HeatherDb.Requests
import HeatherDb.StaysFinite

namespace HeatherDb

open Scalar Narrow HeatherDb.Valued Unbounded Program

variable {F S J : Type} [Scalar F] [Narrow F S]

/-- A call on a handle keeps what it keeps of its session. -/
theorem FiniteHive.onHandle [Unbounded F] [NarrowsFinite F] {config : EAMConfig F} {α : Type}
    {m : Program HeatherError (Session F S) α} {Q : α → Prop}
    (hm : Ensures (FiniteSession config) m Q) (h : ℕ) : Ensures (FiniteHive config) (Hive.onHandle h m) Q := by
  intro w hw
  unfold Hive.onHandle
  cases hs : w.state.session h with
  | none => exact ⟨hw, fun a ha => by cases ha⟩
  | some s =>
    obtain ⟨hkeep, hpost⟩ := hm ⟨s, w.faults⟩ (hw.session hs)
    exact ⟨hw.withSession h hkeep, hpost⟩

/-! ### Passes that may fail -/

variable [Scalar S]

/-- What a pass that succeeded returned, entry by entry. -/
theorem forall₂_of_mapM {ε α β : Type} {f : α → Except ε β} : ∀ {l : List α} {r : List β}, l.mapM f = .ok r →
    List.Forall₂ (fun a b => f a = .ok b) l r
  | [], r, h => by
    obtain rfl := Except.ok.inj h
    exact .nil
  | a :: l, r, h => by
    rw [List.mapM_cons] at h
    cases ha : f a with
    | error e =>
      rw [ha] at h
      cases h
    | ok b =>
      cases hl : l.mapM f with
      | error e =>
        rw [ha, hl] at h
        cases h
      | ok bs =>
        rw [ha, hl] at h
        obtain rfl := Except.ok.inj h
        exact .cons ha (forall₂_of_mapM hl)

/-- Every entry has its partner. -/
theorem exists_of_forall₂ {α β : Type} {R : α → β → Prop} {l : List α} {r : List β} (h : List.Forall₂ R l r) :
    (∀ a ∈ l, ∃ b ∈ r, R a b) ∧ ∀ b ∈ r, ∃ a ∈ l, R a b := by
  induction h with
  | nil => exact ⟨List.forall_mem_nil _, List.forall_mem_nil _⟩
  | cons hab _ ih =>
    refine ⟨List.forall_mem_cons.mpr ⟨⟨_, List.mem_cons_self, hab⟩, fun a ha => ?_⟩,
      List.forall_mem_cons.mpr ⟨⟨_, List.mem_cons_self, hab⟩, fun b hb => ?_⟩⟩
    · obtain ⟨b, hb, hr⟩ := ih.1 a ha
      exact ⟨b, List.mem_cons_of_mem _ hb, hr⟩
    · obtain ⟨a, ha, hr⟩ := ih.2 b hb
      exact ⟨a, List.mem_cons_of_mem _ ha, hr⟩

/-! ### The vectors of a request -/

/-- The vectors of one field: those spelled out, and those behind its base64
text. -/
inductive InField (wire : Wire F J) (json : List (List (JsonNumber F))) (b64 : Option (List String)) : List F → Prop
  | spelled {v : List F} (h : v ∈ jsonVectors json) : InField wire json b64 v
  | encoded {texts : List String} {text : String} {bytes : List UInt8} (hsent : b64 = some texts) (htext : text ∈ texts)
    (hbytes : wire.decodeBase64 text = .ok bytes) : InField wire json b64 (wire.floats bytes)

/-- A spelled-out number is finite. -/
theorem finite_spelled {json : List (List (JsonNumber F))} {v : List F} (h : v ∈ jsonVectors json) :
    ∀ x ∈ v, isFinite x = true := by
  obtain ⟨numbers, -, rfl⟩ := List.mem_map.mp h
  intro x hx
  obtain ⟨number, -, rfl⟩ := List.mem_map.mp hx
  exact number.2

omit [Scalar F] in
theorem decodeVector_ok {wire : Wire F J} {field : String} {e : String × ℕ} {v : List F}
    (h : decodeVector wire field e = .ok v) : ∃ bytes, wire.decodeBase64 e.1 = .ok bytes ∧ v = wire.floats bytes := by
  unfold decodeVector at h
  split at h
  · cases h
  · rename_i bytes hbytes
    split_ifs at h
    exact ⟨bytes, hbytes, (Except.ok.inj h).symm⟩

/-- **A field that resolves** to vectors is those vectors, but for numbers
that were spelled out beside base64 text: none are. -/
theorem mem_of_resolveVectors {wire : Wire F J} {json : List (List (JsonNumber F))} {b64 : Option (List String)}
    {field : String} {vectors : List (List F)}
    (h : resolveVectors wire (jsonVectors json) b64 field = .ok vectors) (v : List F) :
    InField wire json b64 v ↔ v ∈ vectors := by
  unfold resolveVectors at h
  cases b64 with
  | none =>
    obtain rfl := Except.ok.inj h
    refine ⟨fun hv => ?_, .spelled⟩
    cases hv with
    | spelled hv => exact hv
    | encoded hsent => cases hsent
  | some texts =>
    dsimp only at h
    split_ifs at h with hempty
    have hpaired := exists_of_forall₂ (forall₂_of_mapM h)
    refine ⟨fun hv => ?_, fun hv => ?_⟩
    · cases hv with
      | spelled hv =>
        have hnone : jsonVectors json = [] := by simpa using hempty
        rw [hnone] at hv
        cases hv
      | encoded hsent htext hbytes =>
        obtain rfl := Option.some.inj hsent
        obtain ⟨i, hi, rfl⟩ := List.getElem_of_mem htext
        obtain ⟨v, hv, hdecoded⟩ := hpaired.1 (texts[i], i) (List.mk_mem_zipIdx_iff_getElem?.mpr (by simp))
        obtain ⟨bytes, hbytes', rfl⟩ := decodeVector_ok hdecoded
        obtain rfl := Except.ok.inj (hbytes.symm.trans hbytes')
        exact hv
    · obtain ⟨e, he, hdecoded⟩ := hpaired.2 v hv
      obtain ⟨bytes, hbytes, rfl⟩ := decodeVector_ok hdecoded
      exact .encoded rfl (List.fst_mem_of_mem_zipIdx he) hbytes

namespace Routes

/-- A vector that a request carries. -/
def Carries (wire : Wire F J) : Request F J → List F → Prop
  | .write _ req, v => InField wire req.vectors req.vectorsB64 v
  | .bulkLoad _ req, v => InField wire req.addresses req.addressesB64 v ∨ InField wire req.counters req.countersB64 v

/-- The checks that a bulk load makes of its request: those of its fields and
that of the dimension. -/
def Accepted (wire : Wire F J) (maxItems d : ℕ) (req : BulkLoadRequest F) : Prop :=
  ∃ vectors locations, bulkVectors wire maxItems req = .ok vectors ∧
    bulkLocations d req.writeCounts vectors = .ok locations

/-- A request that stores only finite vectors, and only write counts that
leave the learning rate a positive divisor: any write, and a bulk load that
does not pass its checks or is of such vectors and counts. -/
def Harmless (wire : Wire F J) (maxItems : ℕ) (config : EAMConfig F) : Request F J → Prop
  | .write .. => True
  | .bulkLoad name req => Accepted wire maxItems config.d req →
    (∀ v, Carries wire (.bulkLoad name req) v → FiniteVec v) ∧
      (config.competitive = true → ∀ counts, req.writeCounts = some counts → ∀ w ∈ counts, Damped config.tauDamp w.1)

section Steps

variable [Unbounded F] {config : EAMConfig F} (hconfig : FiniteConfig config)

include hconfig

/-! ### Writes -/

omit hconfig [Unbounded F] [Scalar F] in
/-- Metadata leaves the vectors as they are. -/
theorem mem_withMetadata {wire : Wire F J} {vectors : List (List F)} {metadata : List J}
    (hlength : metadata.length = vectors.length) {items : List (List F × List UInt8)}
    (h : (vectors.zip metadata).mapM (withMetadata wire) = .ok items) {v : List F} (hv : v ∈ vectors) :
    ∃ item ∈ items, item.1 = v := by
  obtain ⟨i, hi, rfl⟩ := List.getElem_of_mem hv
  have hzip : (vectors[i], metadata[i]) ∈ vectors.zip metadata :=
    List.mem_iff_getElem.mpr ⟨i, by simp [hlength, hi], by simp⟩
  obtain ⟨item, hitem, hmade⟩ := (exists_of_forall₂ (forall₂_of_mapM h)).1 _ hzip
  refine ⟨item, hitem, ?_⟩
  unfold withMetadata at hmade
  split at hmade
  · exact congrArg Prod.fst (Except.ok.inj hmade).symm
  · cases hmade

variable [NarrowsFinite F]

theorem finite_writeVectors (wire : Wire F J) (vectors : List (List F)) (metadata : Option (List J)) :
    Ensures (FiniteSession (S := S) config) (writeVectors wire vectors metadata) fun _ =>
      ∀ v ∈ vectors, FiniteVec v := by
  cases metadata with
  | none => exact (finite_writeBatch hconfig vectors).bind fun _ hfinite => Ensures.pure hfinite
  | some metadata =>
    dsimp only [writeVectors]
    split_ifs with hlength
    · exact Ensures.fail
    · refine Ensures.ofExcept.bind fun items hitems => ?_
      refine (finite_writeBatchWithMetadata hconfig items).bind fun _ hfinite => Ensures.pure fun v hv => ?_
      obtain ⟨item, hitem, rfl⟩ := mem_withMetadata (not_not.mp hlength) hitems hv
      exact hfinite item hitem

/-- **A write** is answered well only if all it carries is finite. -/
theorem finite_write (wire : Wire F J) (name : String) (req : WriteRequest F J) :
    Ensures (FiniteHive (S := S) config) (write wire name req) fun answer =>
      ∀ response, answer = .ok response → ∀ v, Carries wire (.write name req) v → FiniteVec v := by
  unfold write
  split
  · exact Ensures.pure fun _ h => by cases h
  · rename_i vectors hvectors
    split_ifs
    · exact Ensures.pure fun _ h => by cases h
    refine (FiniteHive.getOrCreateCollection hconfig name).attempt.bind fun opened _ => ?_
    cases opened with
    | error e => exact Ensures.pure fun _ h => by cases h
    | ok h =>
      have hwrite := (FiniteHive.onHandle (finite_writeVectors hconfig wire vectors req.metadata) h).attempt
      refine hwrite.bind fun answer hanswer => ?_
      cases answer with
      | error e => exact Ensures.pure fun _ h => by cases h
      | ok response =>
        refine Ensures.pure fun _ _ v hv => ?_
        exact hanswer response rfl v ((mem_of_resolveVectors hvectors v).mp hv)

/-! ### Bulk loads -/

omit hconfig [Unbounded F] [NarrowsFinite F] in
/-- What a bulk load takes is what its fields resolve to. -/
theorem bulkVectors_ok {wire : Wire F J} {maxItems : ℕ} {req : BulkLoadRequest F}
    {vectors : List (List F) × List (List F)} (h : bulkVectors wire maxItems req = .ok vectors) :
    resolveVectors wire (jsonVectors req.addresses) req.addressesB64 "addresses" = .ok vectors.1 ∧
      resolveVectors wire (jsonVectors req.counters) req.countersB64 "counters" = .ok vectors.2 := by
  unfold bulkVectors at h
  cases ha : resolveVectors wire (jsonVectors req.addresses) req.addressesB64 "addresses" with
  | error e =>
    rw [ha] at h
    cases h
  | ok addresses =>
  cases hc : resolveVectors wire (jsonVectors req.counters) req.countersB64 "counters" with
  | error e =>
    rw [ha, hc] at h
    cases h
  | ok counters =>
    rw [ha, hc] at h
    have hpair : (addresses, counters) = vectors := by
      simp only [bind, Except.bind, throw, throwThe, MonadExceptOf.throw, pure, Except.pure] at h
      split_ifs at h
      cases hw : req.writeCounts with
      | none =>
        rw [hw] at h
        exact Except.ok.inj h
      | some counts =>
        rw [hw] at h
        dsimp only at h
        split_ifs at h
        exact Except.ok.inj h
    subst hpair
    exact ⟨rfl, rfl⟩

/-- The locations of a harmless bulk load are finite. -/
theorem finite_bulkLocations {writeCounts : Option (List (JsonNumber F))} {vectors : List (List F) × List (List F)}
    (hvectors : ∀ v, v ∈ vectors.1 ∨ v ∈ vectors.2 → FiniteVec v)
    (hcounts : config.competitive = true → ∀ counts, writeCounts = some counts →
      ∀ w ∈ counts, Damped config.tauDamp w.1)
    {d : ℕ} {locations : List (ShapedLocation F d)} (h : bulkLocations d writeCounts vectors = .ok locations) :
    FiniteLocations config (locations.map (·.1)) := by
  refine List.forall_mem_map.mpr fun loc hloc => ?_
  obtain ⟨⟨⟨address, counter⟩, i⟩, he, hmade⟩ := (exists_of_forall₂ (forall₂_of_mapM h)).2 loc hloc
  obtain ⟨ha, hc⟩ := List.of_mem_zip (List.fst_mem_of_mem_zipIdx he)
  -- the count is one that was sent, or 1
  have hcount : ∀ n, (n = lit 1 ∨ ∃ counts, writeCounts = some counts ∧ ∃ w ∈ counts, w.1 = n) →
      FiniteLocation config { HardLocation.new i address with counter := counter, writeCount := n } := by
    rintro n (rfl | ⟨counts, hsent, w, hw, rfl⟩)
    · exact ⟨hvectors _ (Or.inl ha), hvectors _ (Or.inr hc), finite_lit 1,
        fun _ => damped_of_nonneg hconfig (finite_lit 1) (val_lit_nonneg zero_le_one)⟩
    · exact ⟨hvectors _ (Or.inl ha), hvectors _ (Or.inr hc), w.2,
        fun hcompetitive => hcounts hcompetitive counts hsent w hw⟩
  unfold bulkLocation at hmade
  split_ifs at hmade
  obtain rfl := Except.ok.inj hmade
  refine hcount _ ?_
  cases writeCounts with
  | none => exact Or.inl rfl
  | some counts =>
    dsimp only
    cases hw : counts[i]? with
    | none => exact Or.inl rfl
    | some w => exact Or.inr ⟨counts, rfl, w, List.mem_of_getElem? hw, rfl⟩

omit hconfig [Unbounded F] [NarrowsFinite F] [Scalar S] [Narrow F S] in
/-- The configuration that a bulk load reads is the database's. -/
theorem finite_snapshotVersioned :
    Ensures (FiniteSession (S := S) config) snapshotVersioned fun seen => seen.2.1 = config := by
  rintro ⟨s, fs⟩ hs
  unfold snapshotVersioned
  rcases readInner_cases s fs with ⟨-, h⟩ | h
  · rw [bind_of_ok h]
    exact ⟨hs, fun seen hseen => Except.ok.inj hseen ▸ hs.memory.config_eq⟩
  · rw [bind_of_error h]
    exact ⟨hs, fun seen hseen => by cases hseen⟩

omit [Scalar S] in
/-- Vectors and counts that pass their checks as finite are loaded. -/
theorem finite_loadVectors {writeCounts : Option (List (JsonNumber F))} {vectors : List (List F) × List (List F)}
    (hfinite : (∃ locations, bulkLocations config.d writeCounts vectors = .ok locations) →
      (∀ v, v ∈ vectors.1 ∨ v ∈ vectors.2 → FiniteVec v) ∧ (config.competitive = true →
        ∀ counts, writeCounts = some counts → ∀ w ∈ counts, Damped config.tauDamp w.1)) :
    Ensures (FiniteSession (S := S) config) (loadVectors writeCounts vectors) fun _ =>
      ∃ locations, bulkLocations config.d writeCounts vectors = .ok locations := by
  refine finite_snapshotVersioned.bind fun seen hseen => Ensures.ofExcept.bind fun locations hlocations => ?_
  obtain ⟨before, seenConfig, version⟩ := seen
  dsimp only at hseen locations hlocations ⊢
  subst hseen
  obtain ⟨hvectors, hcounts⟩ := hfinite ⟨locations, hlocations⟩
  have hsnapshot := finite_bulkLocations hconfig hvectors hcounts hlocations
  exact (finite_loadSnapshotChecked hconfig hsnapshot _).bind fun _ _ => Ensures.pure ⟨locations, hlocations⟩

omit [Scalar S] in
/-- **A harmless bulk load** keeps the database finite, and one that is
answered well passed its checks. -/
theorem finite_bulkLoad {wire : Wire F J} {maxItems : ℕ} {name : String} {req : BulkLoadRequest F}
    (hharmless : Harmless wire maxItems config (.bulkLoad name req)) :
    Ensures (FiniteHive (S := S) config) (bulkLoad wire maxItems name req) fun answer =>
      ∀ response, answer = .ok response → Accepted wire maxItems config.d req := by
  unfold bulkLoad
  split
  · exact Ensures.pure fun _ h => by cases h
  · rename_i vectors hvectors
    refine (FiniteHive.getOrCreateCollection hconfig name).attempt.bind fun opened _ => ?_
    cases opened with
    | error e => exact Ensures.pure fun _ h => by cases h
    | ok h =>
      obtain ⟨haddresses, hcounters⟩ := bulkVectors_ok hvectors
      have hload : Ensures (FiniteSession (S := S) config) (loadVectors req.writeCounts vectors) _ :=
        finite_loadVectors hconfig fun ⟨locations, hlocations⟩ =>
          (hharmless ⟨vectors, locations, hvectors, hlocations⟩).imp_left fun hcarried v hv => hcarried v (hv.imp
            (mem_of_resolveVectors haddresses v).mpr (mem_of_resolveVectors hcounters v).mpr)
      refine (FiniteHive.onHandle hload h).attempt.bind fun answer hanswer => ?_
      cases answer with
      | error e => cases e <;> exact Ensures.pure fun _ h => by cases h
      | ok response =>
        refine Ensures.pure fun _ _ => ?_
        obtain ⟨locations, hlocations⟩ := hanswer response rfl
        exact ⟨vectors, locations, hvectors, hlocations⟩

/-! ### Sequences of requests -/

/-- **One harmless request** keeps the database finite, and is refused if it
carries a number that is not. -/
theorem finite_step {wire : Wire F J} {maxItems : ℕ} {hive hive' : Hive F S} {e : Request F J × Except Refusal Response}
    (hhive : FiniteHive config hive) (hharmless : Harmless wire maxItems config e.1)
    (hstep : Step wire maxItems hive e hive') :
    FiniteHive config hive' ∧ ∀ response, e.2 = .ok response → ∀ v, Carries wire e.1 v → FiniteVec v := by
  obtain ⟨plan, fs', hrun⟩ := hstep
  obtain ⟨request, answer⟩ := e
  have hhandle : Ensures (FiniteHive (S := S) config) (handle wire maxItems request) fun answer =>
      ∀ response, answer = .ok response → ∀ v, Carries wire request v → FiniteVec v := by
    cases request with
    | write name req =>
      refine (finite_write hconfig wire name req).bind fun answer hanswer => Ensures.pure fun response hr => ?_
      cases answer with
      | error refusal => cases hr
      | ok written => exact hanswer written rfl
    | bulkLoad name req =>
      refine (finite_bulkLoad hconfig hharmless).bind fun answer hanswer => Ensures.pure fun response hr => ?_
      cases answer with
      | error refusal => cases hr
      | ok loaded => exact (hharmless (hanswer loaded rfl)).1
  obtain ⟨hkeep, hpost⟩ := hhandle ⟨hive, plan.map (Option.map .storage)⟩ hhive
  rw [hrun] at hkeep hpost
  exact ⟨hkeep, hpost answer rfl⟩

end Steps

end Routes

/-- What is stored is finite: in memory, in the records, and in every document
as it is read. -/
structure StoredFinite (hive : Hive F S) : Prop where
  memory : ∀ col ∈ hive.handles, ∀ loc ∈ col.inner.locations, FiniteVec loc.address ∧ FiniteVec loc.counter
  locations : ∀ key r loc, hive.store.locations.get key = some r → decodeLocation r = .ok loc →
    FiniteVec loc.address ∧ FiniteVec loc.counter
  documents : ∀ key v metadata, hive.store.documents.get key = some (.document v metadata) → FiniteVec v
  read : ∀ h s id r v metadata, hive.session h = some s → s.store.getDocument s.collection.collectionId id = some r →
    resolveDocument s.collection.inner r = .ok (v, metadata) → FiniteVec v

section Runs

variable [Unbounded F] {config : EAMConfig F}

omit [Scalar S] [Narrow F S] [Unbounded F] in
theorem FiniteHive.stored {hive : Hive F S} (h : FiniteHive config hive) : StoredFinite hive where
  memory col hcol loc hloc :=
    have hfinite := (h.memories col hcol).locations loc hloc
    ⟨hfinite.address, hfinite.counter⟩
  locations key r loc hget hdec :=
    have hfinite := h.store.locations key r loc hget hdec
    ⟨hfinite.address, hfinite.counter⟩
  documents := h.store.documents
  read k s id r v metadata hs hget hresolve := by
    have hsession := h.session hs
    cases r with
    | document vector md =>
      obtain ⟨rfl, rfl⟩ := Prod.mk.inj (Except.ok.inj hresolve)
      exact hsession.store.documents _ _ _ hget
    | damaged message => cases hresolve
    | reference location md =>
      simp only [resolveDocument, decodeDocumentParts, bind, Except.bind] at hresolve
      cases hfound : s.collection.inner.locationAddress location with
      | none =>
        rw [hfound] at hresolve
        cases hresolve
      | some address =>
        rw [hfound] at hresolve
        obtain ⟨rfl, rfl⟩ := Prod.mk.inj (Except.ok.inj hresolve)
        obtain ⟨loc, hloc, -, rfl⟩ := mem_of_locationAddress hfound
        exact (hsession.memory.locations loc hloc).address

end Runs

namespace Routes

variable [Unbounded F] [NarrowsFinite F]

/-- **Stored vectors are finite** over every sequence of harmless requests, and
each of them that carries a number that is not finite is refused. -/
theorem stored_finite (wire : Wire F J) (maxItems : ℕ) {store : Store F} {config : EAMConfig F} {rng : Rng F}
    (hstore : FiniteStore config store) (hrng : FiniteRng rng) {hive : Hive F S}
    (hopen : Hive.openAt store config rng = .ok hive) {es : List (Request F J × Except Refusal Response)}
    {hive' : Hive F S}
    (hrun : Run (fun hive e hive' => Step wire maxItems hive e hive' ∧ Harmless wire maxItems config e.1)
      hive es hive') :
    StoredFinite hive' ∧ ∀ e ∈ es, (∃ v, Carries wire e.1 v ∧ ¬FiniteVec v) → ∃ refusal, e.2 = .error refusal := by
  have hconfig : FiniteConfig config := by
    cases hvalid : config.validate with
    | error e =>
      rw [Hive.openAt, hvalid] at hopen
      cases hopen
    | ok u => exact finiteConfig_of_validate hvalid
  have hkept : FiniteHive config hive' ∧
      ∀ e ∈ es, ∀ response, e.2 = .ok response → ∀ v, Carries wire e.1 v → FiniteVec v := by
    refine hrun.history (P := fun es hive => FiniteHive config hive ∧
      ∀ e ∈ es, ∀ response, e.2 = .ok response → ∀ v, Carries wire e.1 v → FiniteVec v)
      ⟨.openAt hstore hrng hopen, List.forall_mem_nil _⟩ fun hP hs => ?_
    obtain ⟨hhive, hanswered⟩ := finite_step hconfig hP.1 hs.2 hs.1
    exact ⟨hhive, List.forall_mem_append.mpr ⟨hP.2, List.forall_mem_singleton.mpr hanswered⟩⟩
  refine ⟨hkept.1.stored, fun e he ⟨v, hcarries, hv⟩ => ?_⟩
  cases hanswer : e.2 with
  | error refusal => exact ⟨refusal, rfl⟩
  | ok response => exact absurd (hkept.2 e he response hanswer v hcarries) hv

end Routes

/-! ### On exact numbers -/

theorem NanRat.exists_rat {x : NanRat} (h : isFinite x = true) : ∃ q, x = .rat q := by
  cases x with
  | nan => cases h
  | rat q => exact ⟨q, rfl⟩

/-- The rationals overflow nowhere. -/
noncomputable instance : Unbounded NanRat where
  val
    | .nan => 0
    | .rat q => q
  lt_iff hx hy := by
    obtain ⟨p, rfl⟩ := NanRat.exists_rat hx
    obtain ⟨q, rfl⟩ := NanRat.exists_rat hy
    show decide (p < q) = true ↔ _
    rw [decide_eq_true_iff]
    exact Rat.cast_lt.symm
  rnd := id
  rnd_mono := monotone_id
  rnd_val _ := rfl
  rnd_zero := rfl
  rnd_one := rfl
  rnd_tiny := by norm_num
  literal q := ⟨rfl, rfl⟩
  neg hx := by
    obtain ⟨p, rfl⟩ := NanRat.exists_rat hx
    exact ⟨rfl, Rat.cast_neg p⟩
  add hx hy := by
    obtain ⟨p, rfl⟩ := NanRat.exists_rat hx
    obtain ⟨q, rfl⟩ := NanRat.exists_rat hy
    exact ⟨rfl, Rat.cast_add p q⟩
  sub hx hy := by
    obtain ⟨p, rfl⟩ := NanRat.exists_rat hx
    obtain ⟨q, rfl⟩ := NanRat.exists_rat hy
    rfl
  mul hx hy := by
    obtain ⟨p, rfl⟩ := NanRat.exists_rat hx
    obtain ⟨q, rfl⟩ := NanRat.exists_rat hy
    exact ⟨rfl, Rat.cast_mul p q⟩
  div {x y} hx hy hne := by
    obtain ⟨p, rfl⟩ := NanRat.exists_rat hx
    obtain ⟨q, rfl⟩ := NanRat.exists_rat hy
    have hq : q ≠ 0 := by
      rintro rfl
      exact hne Rat.cast_zero
    have hdiv : (NanRat.rat p / NanRat.rat q : NanRat) = .rat (p / q) := if_neg (by simpa using hq)
    rw [hdiv]
    exact ⟨rfl, Rat.cast_div p q⟩
  sqrt hx _ := by
    obtain ⟨p, rfl⟩ := NanRat.exists_rat hx
    rfl
  le_iff hx hy := by
    obtain ⟨p, rfl⟩ := NanRat.exists_rat hx
    obtain ⟨q, rfl⟩ := NanRat.exists_rat hy
    show decide (p ≤ q) = true ↔ _
    rw [decide_eq_true_iff]
    exact Rat.cast_le.symm
  eq_self hx := by
    obtain ⟨p, rfl⟩ := NanRat.exists_rat hx
    exact decide_eq_true rfl

instance : NarrowsFinite NanRat := ⟨id⟩

/-- The number that these bits stand for, if they stand for one. -/
def NanRat.ofBits (bits : ℕ) : NanRat :=
  let exponent := bits / 2 ^ 52 % 2 ^ 11
  let fraction : ℚ := (bits % 2 ^ 52 : ℕ) / 2 ^ 52
  if exponent = 2 ^ 11 - 1 then .nan
  else
    let magnitude := if exponent = 0 then fraction / 2 ^ 1022 else (1 + fraction) * 2 ^ exponent / 2 ^ 1023
    .rat (if bits / 2 ^ 63 % 2 = 0 then magnitude else -magnitude)

namespace Routes

/-- The crates on the base64 text of 1 and of a number that is none. -/
def nanWire : Wire NanRat Unit where
  decodeBase64 text :=
    if text = "AAAAAAAA8D8=" then .ok [0, 0, 0, 0, 0, 0, 0xF0, 0x3F]
    else if text = "AAAAAAAA+H8=" then .ok [0, 0, 0, 0, 0, 0, 0xF8, 0x7F]
    else .error "Invalid padding"
  fromLeBytes bytes := .ofBits (Bytes.ofLe bytes)
  toVec _ := .ok [110, 117, 108, 108]

/-- A bulk load of one location. -/
def loadOne (address counter : String) : BulkLoadRequest NanRat where
  addresses := []
  counters := []
  addressesB64 := some [address]
  countersB64 := some [counter]
  writeCounts := none

theorem floats_one : nanWire.floats [0, 0, 0, 0, 0, 0, 0xF0, 0x3F] = [.rat 1] := by decide +kernel

/-- The database that opens on an empty store. -/
def nanHive (competitive : Bool) : Hive NanRat NanRat :=
  ⟨.empty .f64, { nanConfig with competitive := competitive }, fun _ => .rat 1, [], .empty⟩

theorem openAt_nanHive (competitive : Bool) :
    Hive.openAt (.empty .f64) { nanConfig with competitive := competitive } (fun _ => .rat 1) =
      .ok (nanHive competitive) := by
  have hvalid : ({ nanConfig with competitive := competitive } : EAMConfig NanRat).validate = .ok () := by
    cases competitive <;> decide +kernel
  rw [Hive.openAt, hvalid]
  rfl

/-- Some number in memory is not finite. -/
def holdsNan (hive : Hive NanRat NanRat) : Bool :=
  hive.handles.any fun col => col.inner.locations.any fun loc => loc.address.any fun x => !isFinite x

theorem not_storedFinite {hive : Hive NanRat NanRat} (h : holdsNan hive = true) : ¬StoredFinite hive := by
  intro hfinite
  simp only [holdsNan, List.any_eq_true, Bool.not_eq_true'] at h
  obtain ⟨col, hcol, loc, hloc, x, hx, hnan⟩ := h
  exact absurd ((hfinite.memory col hcol loc hloc).1 x hx) (by rw [hnan]; exact Bool.false_ne_true)

/-- A request answered without storage errors. -/
def answered (request : Request NanRat Unit) (hive : Hive NanRat NanRat) : Hive NanRat NanRat :=
  (handle nanWire 0 request ⟨hive, []⟩).2.state

/-- It was answered, with an error or not. -/
def answers (ok : Bool) (request : Request NanRat Unit) (hive : Hive NanRat NanRat) : Bool :=
  match (handle nanWire 0 request ⟨hive, []⟩).1 with
  | .ok answer => answer.isOk == ok
  | .error _ => false

theorem exists_of_isOk {answer : Except Refusal Response} (h : answer.isOk = true) :
    ∃ response, answer = .ok response := by
  cases answer with
  | error refusal => cases h
  | ok response => exact ⟨response, rfl⟩

theorem step_of_answers (ok : Bool) (request : Request NanRat Unit) (hive : Hive NanRat NanRat)
    (h : answers ok request hive = true) :
    ∃ answer, answer.isOk = ok ∧ Step nanWire 0 hive (request, answer) (answered request hive) := by
  unfold answers at h
  split at h
  · rename_i answer hanswer
    exact ⟨answer, by simpa using h, [], _, Prod.ext hanswer rfl⟩
  · cases h

/-- **A bulk load of base64 text** is answered well and stores an address that
is not a number. -/
theorem bulk_load_stores_nan : ∃ hive answer hive',
    Hive.openAt (S := NanRat) (.empty .f64) nanConfig (fun _ => .rat 1) = .ok hive ∧
    Step nanWire 0 hive (.bulkLoad "c" (loadOne "AAAAAAAA+H8=" "AAAAAAAA8D8="), answer) hive' ∧
    (∃ v, Carries nanWire (.bulkLoad "c" (loadOne "AAAAAAAA+H8=" "AAAAAAAA8D8=")) v ∧ ¬FiniteVec v) ∧
    (∃ response, answer = .ok response) ∧ ¬StoredFinite hive' := by
  let load : Request NanRat Unit := .bulkLoad "c" (loadOne "AAAAAAAA+H8=" "AAAAAAAA8D8=")
  obtain ⟨answer, hok, hstep⟩ :=
    step_of_answers true load (nanHive false) (by decide +kernel)
  have hcarries : Carries nanWire load (nanWire.floats [0, 0, 0, 0, 0, 0, 0xF8, 0x7F]) :=
    Or.inl (.encoded rfl List.mem_cons_self rfl)
  have hnan : ¬FiniteVec (nanWire.floats [0, 0, 0, 0, 0, 0, 0xF8, 0x7F]) := fun h =>
    absurd (h .nan (by decide +kernel)) Bool.false_ne_true
  exact ⟨nanHive false, answer, _, openAt_nanHive false, hstep, ⟨_, hcarries, hnan⟩, exists_of_isOk hok,
    not_storedFinite (by decide +kernel)⟩

/-- A refused write and a bulk load of two finite vectors. -/
theorem stored_finite_small : ∃ es hive', Run (fun hive e hive' => Step nanWire 0 hive e hive' ∧
      Harmless nanWire 0 nanConfig e.1) (nanHive false) es hive' ∧ es.length = 2 ∧
    (hive'.handles.any fun col => !col.inner.locations.isEmpty) = true ∧
    StoredFinite hive' ∧ ∀ e ∈ es, (∃ v, Carries nanWire e.1 v ∧ ¬FiniteVec v) → ∃ refusal, e.2 = .error refusal := by
  let write : Request NanRat Unit := .write "c" ⟨[], some ["AAAAAAAA+H8="], none⟩
  let load : Request NanRat Unit := .bulkLoad "c" (loadOne "AAAAAAAA8D8=" "AAAAAAAA8D8=")
  obtain ⟨refused, -, hwrite⟩ :=
    step_of_answers false write (nanHive false) (by decide +kernel)
  obtain ⟨loaded, -, hload⟩ := step_of_answers true load (answered write (nanHive false))
    (by decide +kernel)
  have hone : ∀ {v : List NanRat}, InField nanWire [] (some ["AAAAAAAA8D8="]) v → FiniteVec v := by
    intro v hv
    cases hv with
    | spelled hv => exact finite_spelled hv
    | encoded hsent htext hbytes =>
      obtain rfl := Option.some.inj hsent
      obtain rfl := List.mem_singleton.mp htext
      obtain rfl := Except.ok.inj hbytes
      rw [floats_one]
      exact List.forall_mem_singleton.mpr rfl
  have hharmless : Harmless nanWire 0 nanConfig load := fun _ => ⟨fun v hv => hv.elim hone hone, fun h => by cases h⟩
  have hrun : Run (fun hive e hive' => Step nanWire 0 hive e hive' ∧ Harmless nanWire 0 nanConfig e.1) (nanHive false)
      ([(write, refused)] ++ [(load, loaded)]) (answered load (answered write (nanHive false))) :=
    (Run.single ⟨hwrite, trivial⟩).snoc ⟨hload, hharmless⟩
  exact ⟨_, _, hrun, rfl, by decide +kernel,
    stored_finite nanWire 0 (.empty _) (fun _ => rfl) (openAt_nanHive false) hrun⟩

end Routes

end HeatherDb
