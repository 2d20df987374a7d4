/-
# The ladder

`dream.rs` of the server: a ladder consolidates. Each rung reads a
collection's locations, unbinds every counter from its address and writes
what is left to the collection of the next level, which it clears first. A
database dream replays the collections that its configuration selects, or
climbs a ladder from each.

The collections of one database share one store, so what a dream leaves alone
is a property of the hive. A hive is `Ordered` when its collections are apart
and every cached handle has the id of its name; then the handle of a level is
no other collection's (`Spared.aside`), and what runs on it stays under its id.

Key definitions: `consolidateRung`, `dreamLadder`, `dreamDatabase`,
`Hive.Ordered`, `Spared`, `DreamingStep`.
Key theorems: `Hive.Ordered.step`, `Spared.leads_climbRungs`,
`Spared.leads_selected`, `dreamDatabase_spares`.
-/
import HeatherDb.Binding
import HeatherDb.Dream
import HeatherDb.Life
import HeatherDb.Registry
import HeatherDb.Search
import HeatherDb.Thresholds

namespace HeatherDb

open Scalar Narrow Program Store OrderedTable

variable {F S : Type}

/-! ### Rungs -/

/-- The law that a location carries: its counter unbound from its address. -/
def lawOf [Scalar F] (fft : RealFft F) (loc : HardLocation F) : Option (List F) := unbindVec fft loc.counter loc.address

/-- The merge boundaries of a rung, calibrated where they are not given; none
where unbinding panics. -/
def rungOpts [Scalar F] (fft : RealFft F) (opts : WriteOpts F) (locations : List (HardLocation F)) :
    Option (WriteOpts F) :=
  if le opts.tauSplit (lit 0) || le opts.tauCohere (lit 0) then do
    let rels ← locations.mapM (lawOf fft)
    let taus := calibrate opts.tauSplit opts.tauCohere (locations.map (·.address)) rels
    pure { opts with tauSplit := taus.1, tauCohere := taus.2 }
  else some opts

/-- A program on the session of a handle, which always has its collection. -/
def onHandle {α : Type} (h : ℕ) (m : Program HeatherError (Session F S) α) : Program HeatherError (Hive F S) α :=
  fun w =>
    match w.state.session h with
    | none => (.error .hang, w)
    | some s =>
      match m ⟨s, w.faults⟩ with
      | (r, w') => (r, ⟨w.state.withSession h w'.state, w'.faults⟩)

/-- What does not panic goes on; a dream that panics returns nothing. -/
def unlessPanics {α τ : Type} : Option α → Program HeatherError τ α
  | some a => pure a
  | none => ofExcept (.error .hang)

/-- One rung: `dst` is cleared, and the law of each location of `src` is
written to it by its address. -/
def consolidateRung [Scalar F] [Scalar S] [Narrow F S] (fft : RealFft F) (src dst : ℕ) (opts : WriteOpts F) :
    Program HeatherError (Hive F S) Unit := do
  let source ← onHandle src readInner
  let target ← onHandle dst readInner
  onHandle dst (loadSnapshotChecked [] target.config none)
  source.locations.forM fun loc => do
    let law ← unlessPanics (lawOf fft loc)
    onHandle dst (writeTwo loc.address law opts)

/-- The collection of a level. -/
def levelName (base : String) (k : ℕ) : String := base ++ "__L" ++ toString k

/-- The rungs above level `k`, so many at most; below two locations there is
nothing left to abstract. -/
def climbRungs [Scalar F] [Scalar S] [Narrow F S] (fft : RealFft F) (base : String) (opts : WriteOpts F) :
    ℕ → ℕ → String → Program HeatherError (Hive F S) (List (CollectionDream F))
  | 0, _, _ => pure []
  | n + 1, k, srcName => do
    match ← Hive.getCollection srcName with
    | none => pure []
    | some src => do
      let source ← onHandle src readInner
      if source.locations.length < 2 then pure []
      else do
        let dst ← Hive.getOrCreateCollection (levelName base (k + 1))
        let rung ← unlessPanics (rungOpts fft opts source.locations)
        consolidateRung fft src dst rung
        let target ← onHandle dst readInner
        let rest ← climbRungs fft base opts n (k + 1) (levelName base (k + 1))
        pure (⟨levelName base (k + 1), k + 1, source.locations.length, target.locations.length, 0, rung.tauSplit,
          rung.tauCohere⟩ :: rest)

/-- Climb the consolidation ladder from a base collection. -/
def dreamLadder [Scalar F] [Scalar S] [Narrow F S] (fft : RealFft F) (base : String) (levels : ℕ) (opts : WriteOpts F) :
    Program HeatherError (Hive F S) (List (CollectionDream F)) := climbRungs fft base opts (max levels 1) 0 base

/-! ### Dreaming a database -/

/-- What a dream pass does to a collection. -/
inductive DreamMode
  | replay
  | ladder
  deriving DecidableEq

/-- What to dream over; no collections are all of them. -/
structure DreamConfig (F : Type) where
  collections : List String
  passes : ℕ
  mode : DreamMode
  tauCohere : F
  tauSplit : F

/-- Outcome of dreaming a whole database. -/
structure DreamReport (F : Type) where
  database : String
  collections : List (CollectionDream F)

/-- The name of a generated level, which is no base. -/
def Generated (name : String) : Prop := "__L".toList <:+: name.toList

instance (name : String) : Decidable (Generated name) := inferInstanceAs (Decidable (_ <:+: _))

/-- The dream of one selected collection. -/
def dreamSelected [Scalar F] [Scalar S] [Narrow F S] [SeededUniform F] (fft : RealFft F) (cfg : DreamConfig F)
    (name : String) : Program HeatherError (Hive F S) (List (CollectionDream F)) :=
  match cfg.mode with
  | .ladder =>
    if Generated name then pure []
    else dreamLadder fft name cfg.passes ⟨true, cfg.tauCohere, cfg.tauSplit⟩
  | .replay => do
    match ← Hive.getCollection name with
    | none => pure []
    | some h => do
      let report ← onHandle h (dreamCollection cfg.passes)
      pure [report]

/-- The names that a configuration selects. -/
def DreamConfig.selected (cfg : DreamConfig F) (hive : Hive F S) : List String :=
  if cfg.collections.isEmpty then hive.listCollections else cfg.collections

/-- The levels above each collection that is selected. -/
def DreamConfig.levels (cfg : DreamConfig F) : ℕ :=
  match cfg.mode with
  | .replay => 0
  | .ladder => max cfg.passes 1

/-- The names whose collections the dream may change: those selected, or so
many levels above them; no ladder starts from a generated level. -/
def DreamConfig.Touches (cfg : DreamConfig F) (hive : Hive F S) (name : String) : Prop :=
  match cfg.mode with
  | .replay => name ∈ cfg.selected hive
  | .ladder => ∃ base ∈ cfg.selected hive, ¬Generated base ∧ ∃ k < cfg.levels, name = levelName base (k + 1)

/-- The ids that the dream may register. -/
def DreamConfig.registers (cfg : DreamConfig F) (hive : Hive F S) : ℕ := (cfg.selected hive).length * cfg.levels

/-- To select all collections is a look into the store. -/
def DreamConfig.look (cfg : DreamConfig F) : Program HeatherError (Hive F S) Unit :=
  if cfg.collections.isEmpty then step else pure ()

/-- Dream every collection that the configuration selects. -/
def dreamDatabase [Scalar F] [Scalar S] [Narrow F S] [SeededUniform F] (fft : RealFft F) (db : String)
    (cfg : DreamConfig F) : Program HeatherError (Hive F S) (DreamReport F) := do
  cfg.look
  let hive ← get
  let collections ← (cfg.selected hive).foldlM (fun collections name => do
    let reports ← dreamSelected fft cfg name
    pure (collections ++ reports)) []
  pure ⟨db, collections⟩

/-! ### Handles -/

theorem Hive.session_withSession {hive : Hive F S} {h : ℕ} {s : Session F S} (hs : hive.session h = some s)
    (s' : Session F S) : (hive.withSession h s').session h = some s' := by
  obtain ⟨col, hcol, rfl⟩ := Option.map_eq_some_iff.mp hs
  simp only [Hive.session, Hive.withSession, List.getElem?_set_self (List.getElem?_eq_some_iff.mp hcol).1,
    Option.map_some]

theorem Hive.withSession_self {hive : Hive F S} {h : ℕ} {s : Session F S} (hs : hive.session h = some s) :
    hive.withSession h s = hive := by
  obtain ⟨col, hcol, rfl⟩ := Option.map_eq_some_iff.mp hs
  obtain ⟨hlt, rfl⟩ := List.getElem?_eq_some_iff.mp hcol
  simp only [Hive.withSession, List.set_getElem_self hlt]

section handle

variable {α : Type} {h : ℕ} {p : Program HeatherError (Session F S) α} {hive hive' : Hive F S}
  {s s' : Session F S} {a : α}

theorem onHandle_none (hs : hive.session h = none) (fs : List (Option HeatherError)) :
    onHandle h p ⟨hive, fs⟩ = (.error .hang, ⟨hive, fs⟩) := by
  rw [onHandle]
  dsimp only
  rw [hs]

theorem onHandle_some (hs : hive.session h = some s) (fs : List (Option HeatherError)) : onHandle h p ⟨hive, fs⟩ =
    ((p ⟨s, fs⟩).1, ⟨hive.withSession h (p ⟨s, fs⟩).2.state, (p ⟨s, fs⟩).2.faults⟩) := by
  rw [onHandle]
  dsimp only
  rw [hs]

/-- A handle's program that returned. -/
theorem onHandle_gives (hgives : Gives (onHandle h p) hive a hive') :
    ∃ s s', hive.session h = some s ∧ Gives p s a s' ∧ hive'.session h = some s' := by
  obtain ⟨fs, fs', hrun⟩ := hgives
  cases hs : hive.session h with
  | none => simp [onHandle_none hs] at hrun
  | some s =>
    rcases hp : p ⟨s, fs⟩ with ⟨r, ⟨s', fs''⟩⟩
    rw [onHandle_some hs, hp] at hrun
    simp only [Prod.mk.injEq, World.mk.injEq] at hrun
    obtain ⟨rfl, rfl, rfl⟩ := hrun
    exact ⟨s, s', rfl, ⟨fs, fs'', hp⟩, Hive.session_withSession hs s'⟩

theorem returns_onHandle (hs : hive.session h = some s) (hp : Returns p s a s') :
    Returns (onHandle h p) hive a (hive.withSession h s') := by
  rw [Returns] at hp
  rw [Returns, onHandle_some hs, hp]

end handle

/-- A handle is read. -/
theorem ensures_onHandle_readInner {P : Hive F S → Prop} (h : ℕ) :
    Ensures P (onHandle h readInner : Program HeatherError (Hive F S) (EAMInner F S)) fun _ => True := fun w hP => by
  refine ⟨?_, fun _ _ => trivial⟩
  obtain ⟨hive, fs⟩ := w
  cases hs : hive.session h with
  | none =>
    rw [onHandle_none hs]
    exact hP
  | some s =>
    have hread : Ensures (· = s) (readInner (F := F) (S := S)) fun _ => True :=
      .get_bind fun _ _ => Ensures.ofExcept.bind fun _ _ => .pure trivial
    obtain ⟨hsame, -⟩ := hread ⟨s, fs⟩ rfl
    rw [onHandle_some hs, hsame, Hive.withSession_self hs]
    exact hP

theorem ensures_unlessPanics {α τ : Type} {P : τ → Prop} (x : Option α) :
    Ensures P (unlessPanics x : Program HeatherError τ α) fun _ => True := by
  cases x with
  | some a => exact .pure trivial
  | none => exact Ensures.ofExcept.mono fun _ _ => trivial

theorem onHandle_readInner_gives {h : ℕ} {hive hive' : Hive F S} {inner : EAMInner F S}
    (hgives : Gives (onHandle h readInner) hive inner hive') :
    ∃ s, hive.session h = some s ∧ inner = s.collection.inner ∧ hive' = hive := by
  obtain ⟨s, s', hs, hread, -⟩ := onHandle_gives hgives
  obtain ⟨_, -, hread⟩ := (Gives.get_bind hread).ofExcept_bind
  refine ⟨s, hs, hread.pure.1, ?_⟩
  obtain ⟨fs, fs', hrun⟩ := hgives
  have hkeep := (ensures_onHandle_readInner (P := (· = hive)) h ⟨hive, fs⟩ rfl).1
  rw [hrun] at hkeep
  exact hkeep

theorem unlessPanics_gives {α τ : Type} {x : Option α} {s s' : τ} {a : α} (h : Gives (unlessPanics x) s a s') :
    x = some a ∧ s' = s := by
  cases x with
  | none =>
    have hfail : Gives (Program.ofExcept (.error HeatherError.hang)) s a s' := h
    simpa using hfail.ofExcept.1
  | some a' =>
    obtain ⟨rfl, hs⟩ := Gives.pure h
    exact ⟨rfl, hs⟩

/-! ### Ordered hives -/

namespace Hive

/-- The handle cached under each name has its id. -/
def Caches (hive : Hive F S) : Prop :=
  ∀ name h, hive.collections.get name = some h →
    ∃ col, hive.handles[h]? = some col ∧ hive.store.registry.get name = some col.collectionId

/-- Collections are apart, and handles are cached under the names of their ids. -/
structure Ordered (hive : Hive F S) : Prop where
  apart : hive.Apart
  caches : hive.Caches

namespace Caches

variable {hive : Hive F S} {name : String}

theorem registered (h : hive.Caches)
    (hcached : ∀ name k, hive.collections.get name = some k → name ≠ nextCollectionIdKey) (name : String) :
    Caches { hive with store := (hive.store.registered name).2 } := fun other k hk => by
  obtain ⟨col, hcol, hreg⟩ := h other k hk
  exact ⟨col, hcol, get_registered_of_some (hcached other k hk) hreg⟩

theorem opened (h : hive.Caches) {s : Session F S} (hkeep : s.store.registry = hive.store.registry)
    (hname : hive.store.registry.get name = some s.collection.collectionId) :
    (hive.opened name s).Caches := fun other k hk => by
  show ∃ col, (hive.handles ++ [s.collection])[k]? = some col ∧ s.store.registry.get other = some col.collectionId
  rw [hkeep]
  change (hive.collections.put name hive.handles.length).get other = some k at hk
  rw [get_put] at hk
  split_ifs at hk with hother
  · obtain rfl := Option.some.inj hk
    exact ⟨s.collection, List.getElem?_concat_length, hother ▸ hname⟩
  · obtain ⟨col, hcol, hreg⟩ := h other k hk
    exact ⟨col, (List.getElem?_append_left (List.getElem?_eq_some_iff.mp hcol).1).trans hcol, hreg⟩

theorem withSession (h : hive.Caches) {k : ℕ} {s s' : Session F S} (hs : hive.session k = some s)
    (hwithin : s.Within s') : (hive.withSession k s').Caches := fun other j hj => by
  obtain ⟨own, hown, rfl⟩ := Option.map_eq_some_iff.mp hs
  obtain ⟨col, hcol, hreg⟩ := h other j hj
  have hreg' : s'.store.registry.get other = some col.collectionId := by
    rw [hwithin.store.registry]
    exact hreg
  by_cases hjk : k = j
  · subst hjk
    obtain rfl := Option.some.inj (hown.symm.trans hcol)
    refine ⟨s'.collection, List.getElem?_set_self (List.getElem?_eq_some_iff.mp hown).1, ?_⟩
    rw [hwithin.collectionId]
    exact hreg'
  · exact ⟨col, (List.getElem?_set_ne hjk).trans hcol, hreg'⟩

end Caches

theorem Ordered.withSession {hive : Hive F S} (h : hive.Ordered) {k : ℕ} {s s' : Session F S}
    (hs : hive.session k = some s) (hwithin : s.Within s') : (hive.withSession k s').Ordered :=
  ⟨h.apart.withSession hs hwithin, h.caches.withSession hs hwithin⟩

variable [SeededUniform F]

/-- **A proper step keeps a hive ordered.** -/
theorem Ordered.step [Scalar F] [Scalar S] [Narrow F S] {plan : List (Option String)} {hive hive' : Hive F S}
    {e : HiveEvent F} (h : hive.Ordered) (hproper : e.Proper hive)
    (hmoved : HiveMoved plan hive e hive') : hive'.Ordered := by
  refine ⟨(apart_step h.apart hproper hmoved).1, ?_⟩
  have hregistered := h.caches.registered fun name k hk => (h.apart.cached name k hk).1
  cases hmoved with
  | cached he hcache => exact h.caches
  | failed he hcache hstore hplan =>
    rcases hstore with rfl | rfl
    · exact h.caches
    · exact hregistered _
  | @opened name _ s he hcache hopens =>
    obtain ⟨hid, hunder⟩ := hopens.under
    refine (hregistered name).opened (s := s) hunder.registry ?_
    rw [hid]
    exact get_registered_self _ (HiveEvent.proper_create he hproper).1
  | got name r => exact h.caches
  | @loaded name id col hcache hreg hload =>
    have hid : col.collectionId = id := by
      obtain ⟨_, _, _, _, -, -, -, -, -, rfl⟩ := load_inv hload
      rfl
    exact h.caches.opened (s := ⟨hive.store, hive.rng, col⟩) rfl (hid ▸ hreg)
  | notDropped hr hnone => exact h.caches
  | @dropped name id hreg =>
    intro other k hk
    change (hive.collections.delete name).get other = some k at hk
    rw [get_delete] at hk
    split_ifs at hk with hother
    obtain ⟨col, hcol, hget⟩ := h.caches other k hk
    exact ⟨col, hcol, (get_delete_of_ne _ hother).trans hget⟩
  | restarted config rng =>
    intro other k hk
    simp at hk
  | called hs hstep => exact h.caches.withSession hs (step_within hstep)

omit [SeededUniform F] in
theorem ordered_openAt [Scalar F] {p : Precision} {config : EAMConfig F} {rng : Rng F} {hive : Hive F S}
    (hopen : openAt (Store.empty p) config rng = .ok hive) : hive.Ordered := by
  refine ⟨(apart_openAt hopen).1, ?_⟩
  obtain rfl := openAt_inv hopen
  intro name k hk
  simp at hk

end Hive

/-! ### What the ladder spares -/

theorem levelName_ne_counter (base : String) (k : ℕ) : levelName base k ≠ nextCollectionIdKey := fun h => by
  have hmem : 'L' ∈ (levelName base k).toList := by simp [levelName]
  rw [h] at hmem
  revert hmem
  decide +kernel

theorem generated_levelName (base : String) (k : ℕ) : Generated (levelName base k) := by
  refine ⟨base.toList, (toString k).toList, ?_⟩
  simp only [levelName, String.toList_append]

/-- What a hive has under a name and its id is what it had before. -/
structure Unmoved (before : Hive F S) (name : String) (id : ℕ) (hive : Hive F S) : Prop where
  listed : (name, id) ∈ hive.store.listCollections
  records : SameRecords id before.store hive.store
  cached : ∀ h, before.collections.get name = some h → hive.collections.get name = some h
  memory : ∀ h, before.collections.get name = some h → hive.handles[h]? = before.handles[h]?

namespace Unmoved

variable {before hive : Hive F S} {name level : String} {id : ℕ}

/-- What opens under another name, or first under this one, is appended. -/
theorem opened (h : Unmoved before name id hive) (ho : hive.Ordered) {s : Session F S}
    (hfirst : level = name → hive.collections.get name = none) :
    (∀ k, before.collections.get name = some k → (hive.opened level s).collections.get name = some k) ∧
      ∀ k, before.collections.get name = some k → (hive.opened level s).handles[k]? = before.handles[k]? := by
  refine ⟨fun k hk => ?_, fun k hk => ?_⟩
  · have hcached := h.cached k hk
    show (hive.collections.put level hive.handles.length).get name = some k
    rw [get_put_of_ne _ _ fun hname => by simp [hfirst hname.symm] at hcached]
    exact hcached
  · obtain ⟨col, hcol, -⟩ := ho.caches name k (h.cached k hk)
    rw [← h.memory k hk]
    exact List.getElem?_append_left (List.getElem?_eq_some_iff.mp hcol).1

/-- Another name is created. -/
theorem moved [Scalar F] [Scalar S] [Narrow F S] [SeededUniform F] (h : Unmoved before name id hive)
    (ho : hive.Ordered) (hne : level ≠ name) {plan : List (Option String)} {r : Except HeatherError ℕ}
    {hive' : Hive F S} (hproper : (HiveEvent.create level r).Proper hive)
    (hmoved : HiveMoved plan hive (.create level r) hive') : Unmoved before name id hive' := by
  have hcache : (∀ k, before.collections.get name = some k → hive'.collections.get name = some k) ∧
      ∀ k, before.collections.get name = some k → hive'.handles[k]? = before.handles[k]? := by
    cases hmoved with
    | cached he hcache => exact ⟨h.cached, h.memory⟩
    | failed he hcache hstore hplan => exact ⟨h.cached, h.memory⟩
    | opened he hcache hopens =>
      obtain ⟨rfl, -⟩ := by simpa using he
      exact h.opened ho fun hname => absurd hname hne
  exact ⟨listed_moved hproper hmoved h.listed (by simp),
    h.records.trans (sameRecords_of_moved hmoved (target_ne ho.apart hproper h.listed hne)), hcache.1, hcache.2⟩

/-- A handle cached under another name is of another id. -/
theorem aside (h : Unmoved before name id hive) (ho : hive.Ordered) (hne : level ≠ name) {k : ℕ}
    (hcached : hive.collections.get level = some k) {s : Session F S} (hs : hive.session k = some s) :
    s.collection.collectionId ≠ id := by
  rintro rfl
  obtain ⟨own, hown, rfl⟩ := Option.map_eq_some_iff.mp hs
  obtain ⟨col, hcol, hreg⟩ := ho.caches level k hcached
  obtain rfl := Option.some.inj (hown.symm.trans hcol)
  obtain ⟨hname, hid⟩ := mem_listCollections_iff.mp h.listed
  exact hne (ho.apart.registry.distinct _ _ _ (ho.apart.cached level k hcached).1 hname hreg hid)

/-- A handle of another id is called. -/
theorem withSession (h : Unmoved before name id hive) (ho : hive.Ordered) {k : ℕ} {s s' : Session F S}
    (hs : hive.session k = some s) (hwithin : s.Within s') (hother : s.collection.collectionId ≠ id) :
    Unmoved before name id (hive.withSession k s') := by
  obtain ⟨own, hown, rfl⟩ := Option.map_eq_some_iff.mp hs
  refine ⟨mem_listCollections_iff.mpr ?_, h.records.trans (hwithin.store.sameRecords hother.symm), h.cached,
    fun j hj => ?_⟩
  · show _ ∧ s'.store.registry.get name = some id
    rw [hwithin.store.registry]
    exact mem_listCollections_iff.mp h.listed
  · have hne : k ≠ j := by
      rintro rfl
      obtain ⟨col, hcol, hreg⟩ := ho.caches name k (h.cached k hj)
      obtain rfl := Option.some.inj (hown.symm.trans hcol)
      exact hother (Option.some.inj (hreg.symm.trans (mem_listCollections_iff.mp h.listed).2))
    exact (List.getElem?_set_ne hne).trans (h.memory j hj)

end Unmoved

variable [Scalar F] [Scalar S] [Narrow F S] [SeededUniform F]

/-- An ordered hive with so many ids left, and what it had before of the
collections that are `off` the ladder. -/
structure Spared (off : String → ℕ → Prop) (before : Hive F S) (n : ℕ) (hive : Hive F S) : Prop where
  ordered : hive.Ordered
  room : hive.store.given + n ≤ 2 ^ 32
  unmoved : ∀ name id, off name id → Unmoved before name id hive

/-- The handle is of no collection off the ladder. -/
def Aside (off : String → ℕ → Prop) (h : ℕ) (hive : Hive F S) : Prop :=
  ∀ s, hive.session h = some s → ∀ name, ¬ off name s.collection.collectionId

namespace Spared

variable {off : String → ℕ → Prop} {base level : String} {before hive : Hive F S} {m n : ℕ}

omit [Scalar S] [Narrow F S] [SeededUniform F] [Scalar F] in
theorem start (h : hive.Ordered) (hroom : hive.store.given + n ≤ 2 ^ 32)
    (hoff : ∀ name id, off name id → (name, id) ∈ hive.store.listCollections) : Spared off hive n hive :=
  ⟨h, hroom, fun name id hname => ⟨hoff name id hname, .refl _ _, fun _ h => h, fun _ _ => rfl⟩⟩

omit [Scalar F] [Scalar S] [Narrow F S] [SeededUniform F] in
theorem mono (h : Spared off before n hive) (hle : m ≤ n) : Spared off before m hive :=
  { h with room := (Nat.add_le_add_left hle _).trans h.room }

/-- A name is looked up. -/
theorem ensures_getCollection (hlevel : level ≠ nextCollectionIdKey) :
    Ensures (Spared off before n) (Hive.getCollection level) fun _ => True := fun w h => by
  refine ⟨?_, fun _ _ => trivial⟩
  obtain ⟨hive, fs⟩ := w
  rcases Hive.getCollection_cases level hive fs with
    ⟨k, -, hrun⟩ | ⟨hcache, ⟨-, hrun⟩ | ⟨e, hrun⟩ | ⟨other, col, hreg, hload, hrun⟩⟩ <;> rw [hrun]
  · exact h
  · exact h
  · exact h
  · have hmoved : HiveMoved [] hive _ _ := .loaded hcache hreg hload
    have hproper : (HiveEvent.get level (.ok (some hive.handles.length))).Proper hive := fun _ => hlevel
    refine ⟨h.ordered.step hproper hmoved, h.room, fun name id hoff => ?_⟩
    have hsame := h.unmoved name id hoff
    obtain ⟨hcached, hmemory⟩ :=
      hsame.opened h.ordered (s := ⟨hive.store, hive.rng, col⟩) fun hname => hname ▸ hcache
    exact ⟨hsame.listed, hsame.records, hcached, hmemory⟩

omit [Scalar S] [Narrow F S] [SeededUniform F] [Scalar F] in
/-- A handle cached under a name that is not off is of no collection that is. -/
theorem aside (hoff : ∀ id, ¬off level id) (h : Spared off before n hive) {j : ℕ}
    (hcached : hive.collections.get level = some j) : Aside off j hive := fun s hs name hname => by
  refine (h.unmoved name _ hname).aside h.ordered ?_ hcached hs rfl
  rintro rfl
  exact hoff _ hname

/-- A name that is looked up is the name of the handle. -/
theorem leads_getCollection (hname : level ≠ nextCollectionIdKey) (hoff : ∀ id, ¬off level id) :
    Leads (Spared off before n) (Hive.getCollection level)
      (fun found hive => Spared off before n hive ∧ ∀ h, found = some h → Aside off h hive) (Spared off before n) :=
  fun w h => by
  obtain ⟨hkeep, -⟩ := ensures_getCollection hname w h
  refine ⟨fun found hfound => ⟨hkeep, ?_⟩, fun _ _ => hkeep⟩
  rintro k rfl
  have hcached : (Hive.getCollection level w).2.state.collections.get level = some k := by
    obtain ⟨hive, fs⟩ := w
    rcases Hive.getCollection_cases level hive fs with
      ⟨j, hcache, hrun⟩ | ⟨-, ⟨-, hrun⟩ | ⟨e, hrun⟩ | ⟨other, col, -, -, hrun⟩⟩ <;> rw [hrun] at hfound ⊢
    · exact hcache.trans (Except.ok.inj hfound)
    · simp at hfound
    · simp at hfound
    · obtain rfl : hive.handles.length = k := Option.some.inj (Except.ok.inj hfound)
      exact get_put_self _ _ _
  exact aside hoff hkeep hcached

/-- A level is created. -/
theorem moved {k : ℕ} (hlevel : ∀ id, ¬off (levelName base (k + 1)) id)
    (h : Spared off before (n + 1) hive) {plan : List (Option String)} {r : Except HeatherError ℕ}
    {hive' : Hive F S} (hmoved : HiveMoved plan hive (.create (levelName base (k + 1)) r) hive') :
    Spared off before n hive' := by
  have hroom := h.room
  have hwrap : hive.store.registry.get nextCollectionIdKey ≠ some 0 := fun hzero => by
    have hfull : hive.store.given = 2 ^ 32 := by
      rw [given, hzero]
      rfl
    omega
  have hproper : (HiveEvent.create (levelName base (k + 1)) r).Proper hive :=
    ⟨levelName_ne_counter _ _, fun _ => hwrap⟩
  have hgiven : hive'.store.given ≤ hive.store.given + 1 := by
    rcases registry_cases hmoved with ⟨hreg, -⟩ | ⟨other, -, -, hnone, hreg⟩ | ⟨other, oid, he, -⟩
    · exact (given_congr (congrArg (·.get nextCollectionIdKey) hreg)).trans_le (Nat.le_succ _)
    · have hsame := given_congr (congrArg (·.get nextCollectionIdKey) hreg)
      exact (hsame.trans (h.ordered.apart.registry.given_registered hnone hwrap)).le
    · simp at he
  exact ⟨h.ordered.step hproper hmoved, by omega, fun name id hoff =>
    (h.unmoved name id hoff).moved h.ordered (fun hname => hlevel id (by rwa [hname])) hproper hmoved⟩

/-- A level is opened. -/
theorem leads_getOrCreateCollection {k : ℕ} (hlevel : ∀ id, ¬off (levelName base (k + 1)) id) :
    Leads (Spared off before (n + 1)) (Hive.getOrCreateCollection (levelName base (k + 1)))
      (fun dst hive => Spared off before n hive ∧ Aside off dst hive) (Spared off before n) := fun w h => by
  obtain ⟨hive, fs⟩ := w
  rw [Hive.getOrCreateCollection_eq]
  rcases Hive.createCollection_cases (levelName base (k + 1)) hive fs with
    ⟨j, hcache, hrun⟩ | ⟨hcache, ⟨e, fs', store, hrun, hstore⟩ | ⟨s, fs', hopens, hrun⟩⟩ <;> rw [hrun]
  · refine ⟨fun a ha => ?_, fun _ he => by simp at he⟩
    obtain rfl : j = a := by simpa using ha
    exact ⟨h.mono (Nat.le_succ n), aside hlevel h hcache⟩
  · have hmoved : HiveMoved [none] hive (.create _ (.error e)) { hive with store := store } :=
      .failed (Or.inl rfl) hcache hstore (by simp)
    exact ⟨fun _ ha => by simp at ha, fun _ _ => moved hlevel h hmoved⟩
  · have hmoved : HiveMoved [] hive (.create _ (.ok hive.handles.length)) (hive.opened _ s) :=
      .opened (Or.inl rfl) hcache hopens
    have hspared := moved hlevel h hmoved
    refine ⟨fun a ha => ?_, fun _ he => by simp at he⟩
    obtain rfl : hive.handles.length = a := by simpa using ha
    exact ⟨hspared, aside hlevel hspared (get_put_self _ _ _)⟩

omit [SeededUniform F] [Scalar S] [Narrow F S] [Scalar F] in
/-- A handle of no collection off the ladder is called. -/
theorem ensures_onHandle {α : Type} {dst : ℕ} {p : Program HeatherError (Session F S) α}
    (hp : ∀ (s : Session F S) fs, s.Within (p ⟨s, fs⟩).2.state) :
    Ensures (fun hive => Spared off before n hive ∧ Aside off dst hive) (onHandle dst p) fun _ => True :=
  fun w h => by
  refine ⟨?_, fun _ _ => trivial⟩
  obtain ⟨hive, fs⟩ := w
  obtain ⟨h, haside⟩ := h
  cases hs : hive.session dst with
  | none =>
    rw [onHandle_none hs]
    exact ⟨h, haside⟩
  | some s =>
    have hwithin := hp s fs
    rw [onHandle_some hs]
    refine ⟨⟨h.ordered.withSession hs hwithin, ?_, fun name id hoff => ?_⟩, fun t ht name hoff => ?_⟩
    · obtain ⟨own, -, rfl⟩ := Option.map_eq_some_iff.mp hs
      exact (given_congr (congrArg (·.get nextCollectionIdKey) hwithin.store.registry)).symm ▸ h.room
    · refine (h.unmoved name id hoff).withSession h.ordered hs hwithin ?_
      rintro rfl
      exact haside s hs name hoff
    · obtain rfl := Option.some.inj ((Hive.session_withSession hs _).symm.trans ht)
      rw [hwithin.collectionId] at hoff
      exact haside _ hs name hoff

end Spared

/-! ### Rung by rung -/

variable {off : String → ℕ → Prop} {base : String} {before : Hive F S} {m n : ℕ}

theorem within_loadSnapshotChecked (snapshot : Snapshot F) (config : EAMConfig F) (expected : Option ℕ)
    (s : Session F S) (fs : List (Option HeatherError)) :
    s.Within (loadSnapshotChecked snapshot.locations config expected ⟨s, fs⟩).2.state := by
  rcases loadSnapshotChecked_cases snapshot.locations config expected s fs with ⟨e, fs', s', hrun, hf⟩ | ⟨-, -, fs', hrun⟩
  · rw [hrun]
    exact hf.within
  · rw [hrun]
    exact effect_within s (.loadSnapshotChecked snapshot config expected)

theorem within_writeTwo (address counter : List F) (opts : WriteOpts F) (s : Session F S)
    (fs : List (Option HeatherError)) : s.Within (writeTwo address counter opts ⟨s, fs⟩).2.state := by
  rcases writeTwo_cases address counter opts s fs with ⟨e, fs', s', hrun, hf⟩ | ⟨-, fs', hrun⟩
  · rw [hrun]
    exact hf.within
  · rw [hrun]
    exact effect_within s (.writeTwo address counter opts)

/-- A rung. -/
theorem Spared.ensures_consolidateRung (fft : RealFft F) (src dst : ℕ) (opts : WriteOpts F) :
    Ensures (fun hive : Hive F S => Spared off before n hive ∧ Aside off dst hive)
      (consolidateRung fft src dst opts) fun _ => True := by
  refine (ensures_onHandle_readInner src).bind fun source _ => (ensures_onHandle_readInner dst).bind fun target _ => ?_
  refine (ensures_onHandle (within_loadSnapshotChecked ⟨[], fun _ hloc => absurd hloc List.not_mem_nil⟩ _ _)).bind fun _ _ => Ensures.forM fun loc _ => ?_
  exact (ensures_unlessPanics _).bind fun law _ => ensures_onHandle (within_writeTwo _ _ _)

/-- **Rung by rung**, as long as there are ids for the levels. -/
theorem Spared.leads_climbRungs (fft : RealFft F) (opts : WriteOpts F)
    {levels : ℕ} (hbase : ∀ k < levels, ∀ id, ¬off (levelName base (k + 1)) id) : ∀ (n k : ℕ) (src : String),
    k + n ≤ levels → src ≠ nextCollectionIdKey →
      Leads (Spared off before (m + n)) (climbRungs (S := S) fft base opts n k src)
        (fun _ => Spared off before m) (Spared off before m)
  | 0, _, _, _, _ => .pure fun _ h => h
  | n + 1, k, src, hk, hsrc => by
    have hless : ∀ {n : ℕ} (hive : Hive F S), Spared off before (m + n) hive → Spared off before m hive :=
      fun _ h => h.mono (Nat.le_add_right _ _)
    unfold climbRungs
    refine Leads.after (ensures_getCollection hsrc) hless fun found => ?_
    cases found with
    | none => exact .pure hless
    | some src =>
      refine Leads.after (ensures_onHandle_readInner src) hless fun source => ?_
      split_ifs
      · exact .pure hless
      refine Leads.bind ((leads_getOrCreateCollection (hbase k (by omega))).fails hless) fun dst => ?_
      have hless' : ∀ hive : Hive F S,
          Spared off before (m + n) hive ∧ Aside off dst hive → Spared off before m hive := fun _ h => hless _ h.1
      refine Leads.after (ensures_unlessPanics _) hless' fun rung => ?_
      refine Leads.after (ensures_consolidateRung fft src dst rung) hless' fun _ => ?_
      refine Leads.after (ensures_onHandle_readInner dst) hless' fun target => ?_
      have hrest := leads_climbRungs fft opts hbase n (k + 1) _ (by omega) (levelName_ne_counter base (k + 1))
      exact (hrest.of_imp fun _ h => h.1).bind fun rest => .pure fun _ h => h

/-- A ladder spares what is off it. -/
theorem Spared.leads_dreamLadder (fft : RealFft F) (opts : WriteOpts F)
    {levels : ℕ} (hbase : ∀ k < max levels 1, ∀ id, ¬off (levelName base (k + 1)) id)
    (hcounter : base ≠ nextCollectionIdKey) :
    Leads (Spared off before (m + max levels 1)) (dreamLadder (S := S) fft base levels opts)
      (fun _ => Spared off before m) (Spared off before m) :=
  leads_climbRungs fft opts hbase (max levels 1) 0 base (Nat.zero_add _).le hcounter

/-- A dream in place changes only its collection. -/
theorem within_dreamCollection (passes : ℕ) (s : Session F S) (fs : List (Option HeatherError)) :
    s.Within (dreamCollection passes ⟨s, fs⟩).2.state :=
  ((undisturbed_within s).ensures_dreamCollection passes ⟨s, fs⟩ ⟨rfl, .refl _⟩).1

variable (before) in
/-- The dream of one collection spares what it does not touch. -/
theorem Spared.leads_dreamSelected (fft : RealFft F) (cfg : DreamConfig F) {name : String}
    (hname : name ≠ nextCollectionIdKey) (hreplay : cfg.mode = .replay → ∀ id, ¬off name id)
    (hladder : cfg.mode = .ladder → ¬Generated name → ∀ k < cfg.levels, ∀ id,
      ¬off (levelName name (k + 1)) id) :
    Leads (Spared off before (m + cfg.levels)) (dreamSelected (S := S) fft cfg name) (fun _ => Spared off before m)
      (Spared off before m) := by
  have hless : ∀ {n : ℕ} (hive : Hive F S), Spared off before (m + n) hive → Spared off before m hive :=
    fun _ h => h.mono (Nat.le_add_right _ _)
  unfold dreamSelected
  unfold DreamConfig.levels at hladder ⊢
  cases hmode : cfg.mode with
  | ladder =>
    rw [hmode] at hladder
    dsimp only at hladder ⊢
    split_ifs with hgenerated
    · exact .pure hless
    · exact leads_dreamLadder fft _ (hladder rfl hgenerated) hname
  | replay =>
    dsimp only
    refine ((leads_getCollection hname (hreplay hmode)).fails hless).bind fun found => ?_
    cases found with
    | none => exact .pure fun hive h => hless hive h.1
    | some h =>
      have hdream : Leads (fun hive : Hive F S => Spared off before (m + 0) hive ∧ Aside off h hive)
          (onHandle h (dreamCollection cfg.passes) >>= fun report => pure [report]) (fun _ => Spared off before m)
          (Spared off before m) :=
        Leads.after (ensures_onHandle (within_dreamCollection cfg.passes)) (fun hive h => hless hive h.1)
          fun report => .pure fun hive h => hless hive h.1
      exact hdream.of_imp fun _ hh => ⟨hh.1, hh.2 h rfl⟩

variable (before) in
/-- **Collection by collection** a database dream spares what it does not touch. -/
theorem Spared.leads_selected (fft : RealFft F) (cfg : DreamConfig F) : ∀ {names : List String}
    (reports : List (CollectionDream F)), (∀ name ∈ names, name ≠ nextCollectionIdKey) →
    (cfg.mode = .replay → ∀ name ∈ names, ∀ id, ¬off name id) →
    (cfg.mode = .ladder → ∀ name ∈ names, ¬Generated name → ∀ k < cfg.levels, ∀ id,
      ¬off (levelName name (k + 1)) id) →
      Leads (Spared off before (names.length * cfg.levels))
        (names.foldlM (fun collections name => do
          let reports ← dreamSelected (S := S) fft cfg name
          pure (collections ++ reports)) reports)
        (fun _ => Spared off before 0) (Spared off before 0)
  | [], _, _, _, _ => .pure fun _ h => h.mono (Nat.zero_le _)
  | name :: names, reports, hnames, hreplay, hladder => by
    have hselected := leads_dreamSelected before (m := names.length * cfg.levels) fft cfg
      (hnames name List.mem_cons_self) (fun hmode => hreplay hmode name List.mem_cons_self)
      fun hmode => hladder hmode name List.mem_cons_self
    have hjoined : Leads (Spared off before (names.length * cfg.levels + cfg.levels))
        (dreamSelected (S := S) fft cfg name >>= fun more => pure (reports ++ more))
        (fun _ => Spared off before (names.length * cfg.levels)) (Spared off before 0) :=
      (hselected.fails fun _ h => h.mono (Nat.zero_le _)).bind fun more => .pure fun _ h => h
    rw [List.foldlM_cons, List.length_cons, Nat.succ_mul]
    refine hjoined.bind fun joined => ?_
    exact leads_selected fft cfg joined (fun other hother => hnames other (List.mem_cons_of_mem _ hother))
      (fun hmode other hother => hreplay hmode other (List.mem_cons_of_mem _ hother))
      (fun hmode other hother => hladder hmode other (List.mem_cons_of_mem _ hother))

/-- What a program leads to, it leads to however it ends. -/
theorem Leads.state {ε τ α : Type} {P E : τ → Prop} {p : Program ε τ α} (h : Leads P p (fun _ => E) E)
    {s : τ} (hs : P s) (fs : List (Option ε)) : E (p ⟨s, fs⟩).2.state := by
  obtain ⟨hreturns, hfails⟩ := h ⟨s, fs⟩ hs
  cases hr : (p ⟨s, fs⟩).1 with
  | ok a => exact hreturns a hr
  | error e => exact hfails e hr

/-- What a database dream leaves. -/
theorem Spared.dreamDatabase {hive : Hive F S} (h : hive.Ordered) {cfg : DreamConfig F}
    (hroom : hive.store.given + cfg.registers hive ≤ 2 ^ 32) (hcounter : nextCollectionIdKey ∉ cfg.collections)
    (fft : RealFft F) (db : String) (fs : List (Option HeatherError)) :
    Spared (fun name id => (name, id) ∈ hive.store.listCollections ∧ ¬cfg.Touches hive name) hive 0
      (HeatherDb.dreamDatabase fft db cfg ⟨hive, fs⟩).2.state := by
  have hnames : ∀ name ∈ cfg.selected hive, name ≠ nextCollectionIdKey := by
    rintro name hname rfl
    unfold DreamConfig.selected at hname
    split_ifs at hname
    · obtain ⟨⟨name, id⟩, hlisted, hsame⟩ := List.mem_map.mp hname
      exact (mem_listCollections_iff.mp hlisted).1 hsame
    · exact hcounter hname
  have hreplay : cfg.mode = .replay → ∀ name ∈ cfg.selected hive, ∀ id,
      ¬((name, id) ∈ hive.store.listCollections ∧ ¬cfg.Touches hive name) := fun hmode name hname id hoff => by
    rw [DreamConfig.Touches, hmode] at hoff
    exact hoff.2 hname
  have hladder : cfg.mode = .ladder → ∀ name ∈ cfg.selected hive, ¬Generated name → ∀ k < cfg.levels, ∀ id,
      ¬((levelName name (k + 1), id) ∈ hive.store.listCollections ∧ ¬cfg.Touches hive (levelName name (k + 1))) :=
    fun hmode name hname hgenerated k hk id hoff => by
    rw [DreamConfig.Touches, hmode] at hoff
    exact hoff.2 ⟨name, hname, hgenerated, k, hk, rfl⟩
  have hselected := leads_selected hive fft cfg [] hnames hreplay hladder
  have hprogram : Leads _ ((cfg.selected hive).foldlM (fun collections name => do
      let reports ← dreamSelected fft cfg name
      pure (collections ++ reports)) [] >>= fun collections => pure (⟨db, collections⟩ : DreamReport F)) _ _ :=
    hselected.bind (R := fun _ => _) fun collections => .pure fun _ h => h
  have hstart : Spared (fun name id => (name, id) ∈ hive.store.listCollections ∧ ¬cfg.Touches hive name) hive
      ((cfg.selected hive).length * cfg.levels) hive := .start h hroom fun _ _ hoff => hoff.1
  have hlook : Steady (cfg.look : Program HeatherError (Hive F S) Unit) () := by
    unfold DreamConfig.look
    split_ifs
    · exact .step
    · exact .pure ()
  -- nothing has changed yet when the look fails
  rcases hlook.cases ⟨hive, fs⟩ with ⟨e, fs', hfailed⟩ | ⟨fs', hlooked⟩
  · have hend : HeatherDb.dreamDatabase fft db cfg ⟨hive, fs⟩ = (.error e, ⟨hive, fs'⟩) := bind_of_error hfailed _
    rw [hend]
    exact hstart.mono (Nat.zero_le _)
  · have hend : HeatherDb.dreamDatabase fft db cfg ⟨hive, fs⟩ =
        ((cfg.selected hive).foldlM (fun collections name => do
          let reports ← dreamSelected fft cfg name
          pure (collections ++ reports)) [] >>= fun collections => pure (⟨db, collections⟩ : DreamReport F))
            ⟨hive, fs'⟩ := bind_of_ok hlooked _
    rw [hend]
    exact Leads.state hprogram hstart fs'

/-! ### Dreams in a hive's life -/

/-- What a hive lives through: proper steps, and database dreams however they
ended, while there are ids for their levels. -/
inductive DreamingStep (fft : RealFft F) (hive : Hive F S) :
    Option (List (Option String) × HiveEvent F) → Hive F S → Prop
  | step {l : List (Option String) × HiveEvent F} {hive' : Hive F S} (h : ProperStep hive l hive') :
    DreamingStep fft hive (some l) hive'
  | dreamt (db : String) (cfg : DreamConfig F) (fs : List (Option HeatherError))
    (hroom : hive.store.given + cfg.registers hive ≤ 2 ^ 32) (hcounter : nextCollectionIdKey ∉ cfg.collections) :
    DreamingStep fft hive none (dreamDatabase fft db cfg ⟨hive, fs⟩).2.state

/-- Every state that steps and dreams reach is ordered. -/
theorem ordered_dreams {fft : RealFft F} {p : Precision} {config : EAMConfig F} {rng : Rng F} {hive hive' : Hive F S}
    (hopen : Hive.openAt (Store.empty p) config rng = .ok hive)
    {ls : List (Option (List (Option String) × HiveEvent F))} (hrun : Run (DreamingStep fft) hive ls hive') :
    hive'.Ordered := by
  refine hrun.invariant (Hive.ordered_openAt hopen) fun h hstep => ?_
  cases hstep with
  | step hstep => exact h.step hstep.2 (hiveStep_cases hstep.1)
  | dreamt db cfg fs hroom hcounter => exact (Spared.dreamDatabase h hroom hcounter fft db fs).ordered

/-- **A database dream changes what it touches.** Whatever steps and dreams
went before, and however this one ends, every collection that it neither
replays nor generates, and so every base of a ladder, keeps its name and id,
every record, its handle and its memory; and no two collections have one id. -/
theorem dreamDatabase_spares {fft : RealFft F} {p : Precision} {config : EAMConfig F} {rng : Rng F}
    {hive₀ hive hive' : Hive F S} (hopen : Hive.openAt (Store.empty p) config rng = .ok hive₀)
    {ls : List (Option (List (Option String) × HiveEvent F))} (hrun : Run (DreamingStep fft) hive₀ ls hive)
    {db : String} {cfg : DreamConfig F} {fs : List (Option HeatherError)}
    (hroom : hive.store.given + cfg.registers hive ≤ 2 ^ 32) (hcounter : nextCollectionIdKey ∉ cfg.collections)
    (hdream : (dreamDatabase fft db cfg ⟨hive, fs⟩).2.state = hive') :
    (hive'.store.listCollections.map (·.2)).Nodup ∧
      ∀ name id, (name, id) ∈ hive.store.listCollections →
        (¬cfg.Touches hive name ∨ cfg.mode = .ladder ∧ ¬Generated name) →
        (name, id) ∈ hive'.store.listCollections ∧ SameRecords id hive.store hive'.store ∧
          ∀ h, hive.collections.get name = some h →
            hive'.collections.get name = some h ∧ hive'.handles[h]? = hive.handles[h]? := by
  have hspared := Spared.dreamDatabase (ordered_dreams hopen hrun) hroom hcounter fft db fs
  rw [hdream] at hspared
  refine ⟨hspared.ordered.apart.registry.ids_nodup, fun name id hlisted hoff => ?_⟩
  have huntouched : ¬cfg.Touches hive name := by
    rcases hoff with hoff | ⟨hmode, hbase⟩
    · exact hoff
    · rw [DreamConfig.Touches, hmode]
      rintro ⟨base, -, -, k, -, rfl⟩
      exact hbase (generated_levelName _ _)
  have hsame := hspared.unmoved name id ⟨hlisted, huntouched⟩
  exact ⟨hsame.listed, hsame.records, fun h hh => ⟨hsame.cached h hh, hsame.memory h hh⟩⟩

/-- Two documents, and a dream of two rungs. -/
theorem dreamDatabase_spares_documents :
    let hive := ((newHive.creating "c").calling (.writeWithMetadata [1] [7])).calling (.writeWithMetadata [-1] [8])
    let dreamt := (dreamDatabase unitFft "db" ⟨[], 2, .ladder, 0, 0⟩ ⟨hive, []⟩).2.state
    dreamt.listCollections = ["c", "c__L1", "c__L2"] ∧
      ∀ id, ("c", id) ∈ hive.store.listCollections → SameRecords id hive.store dreamt.store := by
  intro hive dreamt
  have hcreate : ProperStep newHive ([], .create "c" (.ok 0)) (newHive.creating "c") :=
    ⟨.create (Prod.ext (by decide +kernel) rfl), by decide +kernel, fun _ => by decide +kernel⟩
  have hcall : ∀ (hive : Hive ℚ ℚ) (c : Call ℚ),
      (hive.session 0).any (fun s => (c.run ⟨s, []⟩).1.isOk) = true →
        ∃ l, ProperStep hive l (hive.calling c) := fun hive c hok => by
    obtain ⟨-, plan, hstep⟩ := hive.life_call c hok
    refine ⟨(plan, hive.answer c), hstep, ?_⟩
    unfold Hive.answer
    split <;> trivial
  obtain ⟨first, hfirst⟩ := hcall (newHive.creating "c") (.writeWithMetadata [1] [7]) (by decide +kernel)
  obtain ⟨second, hsecond⟩ := hcall ((newHive.creating "c").calling (.writeWithMetadata [1] [7]))
    (.writeWithMetadata [-1] [8]) (by decide +kernel)
  have hrun : Run (DreamingStep unitFft) newHive [some _, some first, some second] hive :=
    ((Run.single (.step hcreate)).snoc (.step hfirst)).snoc (.step hsecond)
  have hroom : hive.store.given + DreamConfig.registers ⟨[], 2, .ladder, 0, 0⟩ hive ≤ 2 ^ 32 := by decide +kernel
  have hdream : (dreamDatabase unitFft "db" ⟨[], 2, .ladder, 0, 0⟩ ⟨hive, []⟩).2.state = dreamt := rfl
  have hspared := (dreamDatabase_spares openAt_newHive hrun hroom List.not_mem_nil hdream).2 "c"
  exact ⟨by decide +kernel, fun id hid => (hspared id hid (Or.inr ⟨rfl, by decide +kernel⟩)).2.1⟩

end HeatherDb
