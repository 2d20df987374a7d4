/-
# The hive

`hive.rs`: the collections of one database, cached by name, and the registry
that gives a name its id. A client holds handles; two clients that open a
name while it is cached share one. A handle outlives the drop of its
collection, but not the process: `restart` opens the database anew, with
whatever configuration it is given, and no handle is left.

Here each call runs whole. The pieces it is made of are what the locks of
`hive.rs` keep together.

Key definitions: `Hive`, `createCollection`, `getCollection`,
`dropCollection`, `HiveStep`.
Key theorems: `createCollection_cases`, `getCollection_cases`,
`dropCollection_cases`.
-/
import HeatherDb.Runs
import HeatherDb.Stored

namespace HeatherDb

open Scalar Narrow Program

/-- A database open in a process. -/
structure Hive (F S : Type) where
  store : Store F
  config : EAMConfig F
  rng : Rng F
  /-- The collections opened so far, by handle. -/
  handles : List (Collection F S)
  /-- The handle cached under each name. -/
  collections : OrderedTable String ℕ

variable {F S : Type} [Scalar F] [Narrow F S]

/-! ### The operations -/

namespace Hive

/-- `open_with_audit`, but for the log -/
def openAt (store : Store F) (config : EAMConfig F) (rng : Rng F) : Except HeatherError (Hive F S) := do
  config.validate
  pure ⟨{ store with precision := config.precision }, config, rng, [], .empty⟩

omit [Narrow F S] in
/-- What a database opens as. -/
theorem openAt_inv {store : Store F} {config : EAMConfig F} {rng : Rng F} {hive : Hive F S}
    (hopen : openAt store config rng = .ok hive) :
    hive = ⟨{ store with precision := config.precision }, config, rng, [], .empty⟩ := by
  unfold openAt at hopen
  cases hconfig : config.validate with
  | error e =>
    rw [hconfig] at hopen
    simp [bind, Except.bind] at hopen
  | ok u =>
    rw [hconfig] at hopen
    exact (Except.ok.inj hopen).symm

/-- A program on the store alone. -/
def inStore {α : Type} (m : Program HeatherError (Store F) α) : Program HeatherError (Hive F S) α :=
  zoom (·.store) (fun store hive => { hive with store := store }) m

/-- The cache's handle for a name. -/
def cached (name : String) : Program HeatherError (Hive F S) (Option ℕ) := do
  let hive ← get
  pure (hive.collections.get name)

/-- Caches a collection under a new handle. -/
def insert (name : String) (col : Collection F S) : Program HeatherError (Hive F S) ℕ := do
  let hive ← get
  modify fun hive =>
    { hive with
      handles := hive.handles ++ [col]
      collections := hive.collections.put name hive.handles.length }
  pure hive.handles.length

/-- The id of a name, which is registered if it was not. -/
def register (name : String) : Program HeatherError (Hive F S) ℕ :=
  inStore (transaction fun txn => txn.createCollection name)

/-- A registered collection, loaded if it has locations and new if not. -/
def openRegistered (collectionId : ℕ) (name : String) : Program HeatherError (Hive F S) (Collection F S) := do
  let hive ← get
  let existing ← ofExcept (hive.store.loadAllLocations collectionId)
  if existing.isEmpty then do
    let col ← inStore (Collection.new collectionId name hive.config hive.rng)
    modify fun hive => { hive with rng := col.2 }
    pure col.1
  else ofExcept (Collection.load collectionId name hive.store hive.config)

/-- `create_collection` under the cache's write lock. -/
def createLocked (name : String) : Program HeatherError (Hive F S) ℕ := do
  match ← cached name with
  | some h => pure h
  | none =>
    let collectionId ← register name
    let col ← openRegistered collectionId name
    insert name col

/-- Create a new collection. Returns it if it already exists. -/
def createCollection (name : String) : Program HeatherError (Hive F S) ℕ := do
  match ← cached name with
  | some h => pure h
  | none => createLocked name

/-- `get_collection` under the cache's write lock, with the id it read before. -/
def loadLocked (name : String) (collectionId : ℕ) : Program HeatherError (Hive F S) ℕ := do
  match ← cached name with
  | some h => pure h
  | none =>
    let hive ← get
    let col ← ofExcept (Collection.load collectionId name hive.store hive.config)
    insert name col

/-- Get an existing collection; none if it does not exist. -/
def getCollection (name : String) : Program HeatherError (Hive F S) (Option ℕ) := do
  match ← cached name with
  | some h => pure (some h)
  | none =>
    let hive ← get
    match hive.store.registry.get name with
    | none => pure none
    | some collectionId => do
      let h ← loadLocked name collectionId
      pure (some h)

/-- Get or create a collection. -/
def getOrCreateCollection (name : String) : Program HeatherError (Hive F S) ℕ := do
  match ← cached name with
  | some h => pure h
  | none => createCollection name

/-- Drop a collection with all its records; true when it existed. -/
def dropCollection (name : String) : Program HeatherError (Hive F S) Bool := do
  let hive ← get
  match hive.store.registry.get name with
  | none => pure false
  | some collectionId => do
    inStore (transaction fun txn => txn.deleteCollection name collectionId)
    modify fun hive => { hive with collections := hive.collections.delete name }
    pure true

/-- All collection names from the registry. -/
def listCollections (hive : Hive F S) : List String := hive.store.listCollections.map (·.1)

/-- What a handle's calls work on. -/
def session (hive : Hive F S) (h : ℕ) : Option (Session F S) :=
  (hive.handles[h]?).map fun col => ⟨hive.store, hive.rng, col⟩

/-- The hive after a handle's call. -/
def withSession (hive : Hive F S) (h : ℕ) (s : Session F S) : Hive F S :=
  { hive with store := s.store, rng := s.rng, handles := hive.handles.set h s.collection }

/-- A collection opened under a name. -/
def opened (hive : Hive F S) (name : String) (s : Session F S) : Hive F S :=
  { hive with
    store := s.store
    rng := s.rng
    handles := hive.handles ++ [s.collection]
    collections := hive.collections.put name hive.handles.length }

end Hive

/-! ### What the store is left with -/

namespace Store

/-- A name's id, and the store with the name registered. -/
def registered (s : Store F) (name : String) : ℕ × Store F :=
  match s.registry.get name with
  | some existing => (existing, s)
  | none => (s.nextCollectionId, { s with
      registry := (s.registry.put name s.nextCollectionId).put nextCollectionIdKey
        ((s.nextCollectionId + 1) % 2 ^ 32) })

/-- The store without a name and the records of its id. -/
def dropped (s : Store F) (name : String) (collectionId : ℕ) : Store F :=
  { s with
    registry := s.registry.delete name
    locations := s.locations.clear collectionId
    docIndex := s.docIndex.clear collectionId
    documents := s.documents.clear collectionId
    metadata := s.metadata.clear collectionId }

omit [Scalar F] in
theorem steady_createCollection (txn : Store F) (name : String) :
    Steady (txn.createCollection name) (txn.registered name) := by
  unfold createCollection registered
  cases txn.registry.get name with
  | some existing => exact Steady.pure _
  | none =>
    refine (steady_write _).bind ?_
    refine (steady_write _).bind ?_
    exact Steady.pure _

omit [Scalar F] in
theorem foldl_deleteDocIndexEntry (collectionId : ℕ) : ∀ (ids : List ℕ) (s : Store F),
    ids.foldl (fun s id => s.deleteDocIndexEntry collectionId id) s =
      { s with docIndex := s.docIndex.deleteAll (ids.map fun id => ⟨collectionId, id⟩) }
  | [], _ => rfl
  | id :: ids, s => foldl_deleteDocIndexEntry collectionId ids (s.deleteDocIndexEntry collectionId id)

omit [Scalar F] in
theorem foldl_deleteDocument (collectionId : ℕ) : ∀ (ids : List ℕ) (s : Store F),
    ids.foldl (fun s id => s.deleteDocument collectionId id) s =
      { s with documents := s.documents.deleteAll (ids.map fun id => ⟨collectionId, id⟩) }
  | [], _ => rfl
  | id :: ids, s => foldl_deleteDocument collectionId ids (s.deleteDocument collectionId id)

omit [Scalar F] in
theorem foldl_deleteMetadata (collectionId : ℕ) : ∀ (keys : List String) (s : Store F),
    keys.foldl (fun s key => s.deleteMetadata collectionId key) s =
      { s with metadata := s.metadata.deleteAll (keys.map fun key => ⟨collectionId, key⟩) }
  | [], _ => rfl
  | key :: keys, s => foldl_deleteMetadata collectionId keys (s.deleteMetadata collectionId key)

omit [Scalar F] in
theorem steady_deleteCollection (txn : Store F) (name : String) (collectionId : ℕ) :
    Steady (txn.deleteCollection name collectionId) ((), txn.dropped name collectionId) := by
  unfold deleteCollection
  refine (steady_write _).bind ?_
  refine (Steady.foldlM (fun _ _ => steady_write _) _ _).bind ?_
  rw [foldl_deleteLocation]
  refine (Steady.foldlM (fun _ _ => steady_write _) _ _).bind ?_
  rw [foldl_deleteDocIndexEntry]
  refine (Steady.foldlM (fun _ _ => steady_write _) _ _).bind ?_
  rw [foldl_deleteDocument]
  refine (Steady.foldlM (fun _ _ => steady_write _) _ _).bind ?_
  rw [foldl_deleteMetadata]
  exact Steady.pure _

end Store

/-! ### How the operations end -/

namespace Hive

/-- What a registered name opens as. -/
inductive Opens (config : EAMConfig F) (rng : Rng F) (store : Store F) (collectionId : ℕ) (name : String) :
    Session F S → Prop
  | new (h : store.loadAllLocations collectionId = .ok []) :
    Opens config rng store collectionId name (Session.fresh collectionId name config rng store)
  | load {locations : List (HardLocation F)} {col : Collection F S}
    (h : store.loadAllLocations collectionId = .ok locations) (hne : locations ≠ [])
    (hload : Collection.load collectionId name store config = .ok col) :
    Opens config rng store collectionId name ⟨store, rng, col⟩

omit [Scalar F] [Narrow F S] in
/-- A transaction on the store: an error and nothing changed, or its change. -/
theorem inStore_cases {α : Type} (body : Store F → Program HeatherError (Store F) (α × Store F)) {hive : Hive F S}
    {v : α × Store F} (h : Steady (body hive.store) v) (fs : List (Option HeatherError)) :
    (∃ e fs', inStore (transaction body) ⟨hive, fs⟩ = (.error e, ⟨hive, fs'⟩)) ∨
      ∃ fs', inStore (transaction body) ⟨hive, fs⟩ = (.ok v.1, ⟨{ hive with store := v.2 }, fs'⟩) := by
  unfold inStore zoom
  rcases transaction_cases (w := ⟨hive.store, fs⟩) h with ⟨e, fs', h⟩ | ⟨fs', h⟩
  · exact Or.inl ⟨e, fs', by simp only [h]⟩
  · exact Or.inr ⟨fs', by simp only [h]⟩

/-- Opening a registered name: an error and nothing changed, or its session. -/
theorem openRegistered_cases (collectionId : ℕ) (name : String) (hive : Hive F S) (fs : List (Option HeatherError)) :
    (∃ e fs', openRegistered collectionId name ⟨hive, fs⟩ = (.error e, ⟨hive, fs'⟩)) ∨
      ∃ s fs', Opens hive.config hive.rng hive.store collectionId name s ∧ openRegistered collectionId name ⟨hive, fs⟩ =
        (.ok s.collection, ⟨{ hive with store := s.store, rng := s.rng }, fs'⟩) := by
  obtain ⟨locations, hlocations⟩ : ∃ locations, hive.store.loadAllLocations collectionId = .ok locations :=
    ⟨_, Store.loadAllLocations_eq _ _⟩
  unfold openRegistered
  rw [get_bind, hlocations, ofExcept_ok_bind]
  cases locations with
  | nil =>
    rw [List.isEmpty_nil, if_pos rfl]
    rcases new_cases (S := S) collectionId name hive.config hive.rng hive.store fs with ⟨e, fs', h⟩ | ⟨fs', h⟩
    · refine Or.inl ⟨e, fs', bind_of_error ?_ _⟩
      simp only [inStore, zoom, h]
    · refine Or.inr ⟨_, fs', .new hlocations, ?_⟩
      simp only [inStore, zoom, bind_apply, h]
      rfl
  | cons first rest =>
    rw [if_neg (by simp)]
    cases hload : Collection.load (S := S) collectionId name hive.store hive.config with
    | error e => exact Or.inl ⟨e, fs, rfl⟩
    | ok col => exact Or.inr ⟨⟨hive.store, hive.rng, col⟩, fs, .load hlocations (by simp) hload, rfl⟩

/-- **Creating** hands out the cached handle, fails and at most registers the
name, or opens the name. -/
theorem createCollection_cases (name : String) (hive : Hive F S) (fs : List (Option HeatherError)) :
    (∃ h, hive.collections.get name = some h ∧ createCollection name ⟨hive, fs⟩ = (.ok h, ⟨hive, fs⟩)) ∨
      hive.collections.get name = none ∧
        ((∃ e fs' store, createCollection name ⟨hive, fs⟩ = (.error e, ⟨{ hive with store := store }, fs'⟩) ∧
            (store = hive.store ∨ store = (hive.store.registered name).2)) ∨
          ∃ s fs', Opens hive.config hive.rng (hive.store.registered name).2 (hive.store.registered name).1 name s ∧
            createCollection name ⟨hive, fs⟩ = (.ok hive.handles.length, ⟨hive.opened name s, fs'⟩)) := by
  cases hcache : hive.collections.get name with
  | some h =>
    refine Or.inl ⟨h, rfl, ?_⟩
    simp only [createCollection, cached, bind_apply, get_apply, pure_apply, hcache]
  | none =>
    refine Or.inr ⟨rfl, ?_⟩
    have hlocked : createCollection name ⟨hive, fs⟩ =
        (register name >>= fun id => openRegistered id name >>= fun col => insert name col) ⟨hive, fs⟩ := by
      simp only [createCollection, createLocked, cached, bind_apply, get_apply, pure_apply, hcache]
    rw [hlocked, register]
    rcases inStore_cases (·.createCollection name) (hive.store.steady_createCollection name) fs with ⟨e, fs', h⟩ |
      ⟨fs', h⟩
    · exact Or.inl ⟨e, fs', hive.store, bind_of_error h _, Or.inl rfl⟩
    rw [bind_of_ok h]
    rcases openRegistered_cases (hive.store.registered name).1 name
      { hive with store := (hive.store.registered name).2 } fs' with ⟨e, fs', h⟩ | ⟨s, fs', hs, h⟩
    · exact Or.inl ⟨e, fs', _, bind_of_error h _, Or.inr rfl⟩
    · refine Or.inr ⟨s, fs', hs, ?_⟩
      rw [bind_of_ok h]
      rfl

omit [Narrow F S] [Scalar F] in
theorem blames_register (name : String) : Blames (register (F := F) (S := S) name) := by
  refine (Blames.transaction fun txn => ?_).zoom _ _
  unfold Store.createCollection
  cases txn.registry.get name with
  | some existing => exact Blames.pure _
  | none => exact (blames_write _).bind fun txn => (blames_write _).bind fun txn => Blames.pure _

/-- Opening a name without locations fails only with the storage. -/
theorem openRegistered_blames {collectionId : ℕ} {name : String} {hive : Hive F S}
    (hempty : hive.store.loadAllLocations collectionId = .ok []) {fs : List (Option HeatherError)} {e : HeatherError}
    (h : (openRegistered collectionId name ⟨hive, fs⟩).1 = .error e) : some e ∈ fs := by
  have hnew : Blames (inStore (F := F) (S := S) (Collection.new (S := S) collectionId name hive.config hive.rng)) :=
    ((Blames.transaction fun txn => (blames_persist _ _ _).bind fun _ => Blames.pure _).bind fun _ =>
      Blames.pure _).zoom _ _
  have hopen : openRegistered collectionId name ⟨hive, fs⟩ =
      (inStore (F := F) (S := S) (Collection.new (S := S) collectionId name hive.config hive.rng) >>= fun col => do
        modify fun hive => { hive with rng := col.2 }
        pure col.1) ⟨hive, fs⟩ := by
    unfold openRegistered
    rw [get_bind, hempty, ofExcept_ok_bind, List.isEmpty_nil, if_pos rfl]
  rw [hopen] at h
  exact ((hnew.bind fun col => (Blames.modify _).bind fun _ => Blames.pure _) ⟨hive, fs⟩).2 e h

/-- Without storage errors a name without locations opens. -/
theorem createCollection_of_empty {name : String} {hive : Hive F S} (hcache : hive.collections.get name = none)
    (hempty : (hive.store.registered name).2.loadAllLocations (hive.store.registered name).1 = .ok [])
    (e : HeatherError) :
    (createCollection name ⟨hive, []⟩).1 ≠ .error e := by
  have hlocked : createCollection name ⟨hive, []⟩ =
      (register name >>= fun id => openRegistered id name >>= fun col => insert name col) ⟨hive, []⟩ := by
    simp only [createCollection, createLocked, cached, bind_apply, get_apply, pure_apply, hcache]
  have hblames := blames_register (S := S) name ⟨hive, []⟩
  rw [hlocked]
  rcases inStore_cases (·.createCollection name) (hive.store.steady_createCollection name) [] with ⟨e, fs', h⟩ |
    ⟨fs', h⟩
  · have hmem := hblames.2 e (congrArg Prod.fst h)
    simp at hmem
  have hregister : register name ⟨hive, []⟩ = _ := h
  rw [hregister] at hblames
  obtain rfl : fs' = [] := List.suffix_nil.mp hblames.1
  rw [bind_of_ok hregister]
  rcases hopen : openRegistered (hive.store.registered name).1 name
    ⟨{ hive with store := (hive.store.registered name).2 }, []⟩ with ⟨e | col, w⟩
  · have hmem : some e ∈ [] := openRegistered_blames hempty (congrArg Prod.fst hopen)
    simp at hmem
  · rw [bind_of_ok hopen]
    simp [insert]

/-- Getting or creating is creating, as the locks change nothing between. -/
theorem getOrCreateCollection_eq (name : String) :
    (getOrCreateCollection name : Program HeatherError (Hive F S) ℕ) = createCollection name := by
  funext w
  cases hcache : w.state.collections.get name <;>
    simp [getOrCreateCollection, createCollection, cached, bind_apply, hcache]

/-- **Getting** hands out the cached handle, finds no such name, fails and
changes nothing, or loads the name. -/
theorem getCollection_cases (name : String) (hive : Hive F S) (fs : List (Option HeatherError)) :
    (∃ h, hive.collections.get name = some h ∧ getCollection name ⟨hive, fs⟩ = (.ok (some h), ⟨hive, fs⟩)) ∨
      hive.collections.get name = none ∧
        (hive.store.registry.get name = none ∧ getCollection name ⟨hive, fs⟩ = (.ok none, ⟨hive, fs⟩) ∨
          (∃ e, getCollection name ⟨hive, fs⟩ = (.error e, ⟨hive, fs⟩)) ∨
          ∃ collectionId col, hive.store.registry.get name = some collectionId ∧
            Collection.load collectionId name hive.store hive.config = .ok col ∧
            getCollection name ⟨hive, fs⟩ =
              (.ok (some hive.handles.length), ⟨hive.opened name ⟨hive.store, hive.rng, col⟩, fs⟩)) := by
  cases hcache : hive.collections.get name with
  | some h =>
    refine Or.inl ⟨h, rfl, ?_⟩
    simp only [getCollection, cached, bind_apply, get_apply, pure_apply, hcache]
  | none =>
    refine Or.inr ⟨rfl, ?_⟩
    cases hreg : hive.store.registry.get name with
    | none =>
      refine Or.inl ⟨rfl, ?_⟩
      simp only [getCollection, cached, bind_apply, get_apply, pure_apply, hcache, hreg]
    | some collectionId =>
      refine Or.inr ?_
      cases hload : Collection.load (S := S) collectionId name hive.store hive.config with
      | error e =>
        refine Or.inl ⟨e, ?_⟩
        simp only [getCollection, loadLocked, cached, bind_apply, get_apply, pure_apply, hcache, hreg, hload,
          Program.ofExcept, fail_apply]
      | ok col =>
        refine Or.inr ⟨collectionId, col, rfl, hload, ?_⟩
        simp only [getCollection, loadLocked, cached, bind_apply, get_apply, pure_apply, hcache, hreg, hload,
          Program.ofExcept, insert, modify_apply]
        rfl

omit [Narrow F S] [Scalar F] in
/-- **Dropping** finds no such name, fails and changes nothing, or drops it. -/
theorem dropCollection_cases (name : String) (hive : Hive F S) (fs : List (Option HeatherError)) :
    (hive.store.registry.get name = none ∧ dropCollection name ⟨hive, fs⟩ = (.ok false, ⟨hive, fs⟩)) ∨
      (∃ e fs', dropCollection name ⟨hive, fs⟩ = (.error e, ⟨hive, fs'⟩)) ∨
      ∃ collectionId fs', hive.store.registry.get name = some collectionId ∧
        dropCollection name ⟨hive, fs⟩ = (.ok true, ⟨{ hive with
          store := hive.store.dropped name collectionId
          collections := hive.collections.delete name }, fs'⟩) := by
  unfold dropCollection
  rw [get_bind]
  dsimp only
  cases hreg : hive.store.registry.get name with
  | none => exact Or.inl ⟨rfl, rfl⟩
  | some collectionId =>
    refine Or.inr ?_
    rcases inStore_cases (·.deleteCollection name collectionId)
      (hive.store.steady_deleteCollection name collectionId) fs with
      ⟨e, fs', h⟩ | ⟨fs', h⟩
    · exact Or.inl ⟨e, fs', bind_of_error h _⟩
    · refine Or.inr ⟨collectionId, fs', rfl, ?_⟩
      dsimp only
      rw [bind_of_ok h]
      rfl

end Hive

/-! ### Runs of a hive -/

variable [Scalar S]

/-- An operation of a hive or a call on a handle, with its answer. -/
inductive HiveEvent (F : Type) where
  | create (name : String) (r : Except HeatherError ℕ)
  | get (name : String) (r : Except HeatherError (Option ℕ))
  | getOrCreate (name : String) (r : Except HeatherError ℕ)
  | drop (name : String) (r : Except HeatherError Bool)
  | restart (config : EAMConfig F)
  | call (h : ℕ) (e : Event F)

variable [SeededUniform F]

/-- One operation, its storage steps answered as planned. -/
inductive HiveStep (plan : List (Option String)) : Hive F S → HiveEvent F → Hive F S → Prop
  | create {hive hive' : Hive F S} {name : String} {r : Except HeatherError ℕ} {fs' : List (Option HeatherError)}
    (h : Hive.createCollection name ⟨hive, plan.map (Option.map .storage)⟩ = (r, ⟨hive', fs'⟩)) :
    HiveStep plan hive (.create name r) hive'
  | get {hive hive' : Hive F S} {name : String} {r : Except HeatherError (Option ℕ)}
    {fs' : List (Option HeatherError)}
    (h : Hive.getCollection name ⟨hive, plan.map (Option.map .storage)⟩ = (r, ⟨hive', fs'⟩)) :
    HiveStep plan hive (.get name r) hive'
  | getOrCreate {hive hive' : Hive F S} {name : String} {r : Except HeatherError ℕ}
    {fs' : List (Option HeatherError)}
    (h : Hive.getOrCreateCollection name ⟨hive, plan.map (Option.map .storage)⟩ = (r, ⟨hive', fs'⟩)) :
    HiveStep plan hive (.getOrCreate name r) hive'
  | drop {hive hive' : Hive F S} {name : String} {r : Except HeatherError Bool} {fs' : List (Option HeatherError)}
    (h : Hive.dropCollection name ⟨hive, plan.map (Option.map .storage)⟩ = (r, ⟨hive', fs'⟩)) :
    HiveStep plan hive (.drop name r) hive'
  | restart {hive hive' : Hive F S} {config : EAMConfig F} {rng : Rng F}
    (h : Hive.openAt hive.store config rng = .ok hive') : HiveStep plan hive (.restart config) hive'
  | call {hive : Hive F S} {h : ℕ} {s s' : Session F S} {c : Call F} {r : Except HeatherError (Reply F)}
    {fs' : List (Option HeatherError)} (hs : hive.session h = some s) (hr : r ≠ .error .hang)
    (hrun : c.run ⟨s, plan.map (Option.map .storage)⟩ = (r, ⟨s', fs'⟩)) :
    HiveStep plan hive (.call h (c, r)) (hive.withSession h s')

/-! ### What a step does -/

/-- What one operation did to the hive. -/
inductive HiveMoved (plan : List (Option String)) (hive : Hive F S) : HiveEvent F → Hive F S → Prop
  | cached {name : String} {h : ℕ} {e : HiveEvent F} (he : e = .create name (.ok h) ∨ e = .getOrCreate name (.ok h))
    (hcache : hive.collections.get name = some h) : HiveMoved plan hive e hive
  | failed {name : String} {err : HeatherError} {e : HiveEvent F} {store : Store F}
    (he : e = .create name (.error err) ∨ e = .getOrCreate name (.error err))
    (hcache : hive.collections.get name = none)
    (hstore : store = hive.store ∨ store = (hive.store.registered name).2)
    (hplan : plan = [] → (hive.store.registered name).2.loadAllLocations (hive.store.registered name).1 ≠ .ok []) :
    HiveMoved plan hive e { hive with store := store }
  | opened {name : String} {e : HiveEvent F} {s : Session F S}
    (he : e = .create name (.ok hive.handles.length) ∨ e = .getOrCreate name (.ok hive.handles.length))
    (hcache : hive.collections.get name = none)
    (hopens : Hive.Opens hive.config hive.rng (hive.store.registered name).2 (hive.store.registered name).1 name s) :
    HiveMoved plan hive e (hive.opened name s)
  | got (name : String) (r : Except HeatherError (Option ℕ)) : HiveMoved plan hive (.get name r) hive
  | loaded {name : String} {collectionId : ℕ} {col : Collection F S} (hcache : hive.collections.get name = none)
    (hreg : hive.store.registry.get name = some collectionId)
    (hload : Collection.load collectionId name hive.store hive.config = .ok col) :
    HiveMoved plan hive (.get name (.ok (some hive.handles.length))) (hive.opened name ⟨hive.store, hive.rng, col⟩)
  | notDropped {name : String} {r : Except HeatherError Bool} (hr : r ≠ .ok true)
    (hnone : r = .ok false → hive.store.registry.get name = none) : HiveMoved plan hive (.drop name r) hive
  | dropped {name : String} {collectionId : ℕ} (hreg : hive.store.registry.get name = some collectionId) :
    HiveMoved plan hive (.drop name (.ok true)) { hive with
      store := hive.store.dropped name collectionId
      collections := hive.collections.delete name }
  | restarted (config : EAMConfig F) (rng : Rng F) :
    HiveMoved plan hive (.restart config) ⟨{ hive.store with precision := config.precision }, config, rng, [], .empty⟩
  | called {h : ℕ} {s s' : Session F S} {e : Event F} (hs : hive.session h = some s) (hstep : Step s e s') :
    HiveMoved plan hive (.call h e) (hive.withSession h s')

/-- **A step of a hive** is one of these. -/
theorem hiveStep_cases {plan : List (Option String)} {hive hive' : Hive F S} {e : HiveEvent F}
    (hstep : HiveStep plan hive e hive') : HiveMoved plan hive e hive' := by
  have hcreate : ∀ {e : HiveEvent F} {name : String} {r : Except HeatherError ℕ} {fs' : List (Option HeatherError)},
      (e = .create name r ∨ e = .getOrCreate name r) →
      Hive.createCollection name ⟨hive, plan.map (Option.map .storage)⟩ = (r, ⟨hive', fs'⟩) →
      HiveMoved plan hive e hive' := by
    intro e name r fs' he hrun
    rcases Hive.createCollection_cases name hive (plan.map (Option.map .storage)) with
      ⟨k, hcache, hcached⟩ | ⟨hcache, ⟨err, fs'', store, herror, hstore⟩ | ⟨s, fs'', hopens, hok⟩⟩
    · obtain ⟨rfl, rfl, -⟩ := by simpa using hcached.symm.trans hrun
      exact .cached he hcache
    · obtain ⟨rfl, rfl, -⟩ := by simpa using herror.symm.trans hrun
      refine .failed he hcache hstore fun hplan hempty => ?_
      subst hplan
      exact Hive.createCollection_of_empty hcache hempty err (congrArg Prod.fst herror)
    · obtain ⟨rfl, rfl, -⟩ := by simpa using hok.symm.trans hrun
      exact .opened he hcache hopens
  cases hstep with
  | create hrun => exact hcreate (Or.inl rfl) hrun
  | getOrCreate hrun =>
    rw [Hive.getOrCreateCollection_eq] at hrun
    exact hcreate (Or.inr rfl) hrun
  | @get _ name r _ hrun =>
    rcases Hive.getCollection_cases name hive (plan.map (Option.map .storage)) with
      ⟨k, -, hcached⟩ | ⟨hcache, ⟨-, hnone⟩ | ⟨err, herror⟩ | ⟨id, col, hid, hload, hok⟩⟩
    · obtain ⟨rfl, rfl, -⟩ := by simpa using hcached.symm.trans hrun
      exact .got name _
    · obtain ⟨rfl, rfl, -⟩ := by simpa using hnone.symm.trans hrun
      exact .got name _
    · obtain ⟨rfl, rfl, -⟩ := by simpa using herror.symm.trans hrun
      exact .got name _
    · obtain ⟨rfl, rfl, -⟩ := by simpa using hok.symm.trans hrun
      exact .loaded hcache hid hload
  | @drop _ name r _ hrun =>
    rcases Hive.dropCollection_cases name hive (plan.map (Option.map .storage)) with
      ⟨hnone, hfalse⟩ | ⟨err, fs'', herror⟩ | ⟨id, fs'', hid, hok⟩
    · obtain ⟨rfl, rfl, -⟩ := by simpa using hfalse.symm.trans hrun
      exact .notDropped (by simp) fun _ => hnone
    · obtain ⟨rfl, rfl, -⟩ := by simpa using herror.symm.trans hrun
      exact .notDropped (by simp) (by simp)
    · obtain ⟨rfl, rfl, -⟩ := by simpa using hok.symm.trans hrun
      exact .dropped hid
  | @restart _ config rng hopen =>
    obtain rfl := Hive.openAt_inv hopen
    exact .restarted config rng
  | call hs hr hrun => exact .called hs ⟨hr, plan, _, hrun⟩

end HeatherDb
