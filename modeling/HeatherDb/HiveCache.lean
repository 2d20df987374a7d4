/-
# The hive's cache under concurrent calls

`hive.rs` keeps the cache and the store under locks of their own. Here each
step that one of them makes alone is a step of its own: a look into the cache,
a lock taken with the second look, a transaction, the reads of a load, the
insertion and the removal. Any number of clients are on their way at once
(`Moves`). A create or a get that looked twice holds the cache's write lock
until it inserted; a drop holds it only to remove.

The cache is coherent if three races stay out (`Act.Orderly`): a drop deletes
a name that was dropped and created again since it read the id, a create
stores the locations of a collection that was dropped since it registered it,
and a create or a get caches a collection that was dropped since, with no
drop left to take it out again.

Key definitions: `Progress`, `Shared`, `Moves`, `Act.Orderly`, `Coherent`.
Key theorems: `moves_alone`, `coherent_move`, `hive_cache_coherent`.
-/
import HeatherDb.Registry

namespace HeatherDb

open Scalar Narrow Program OrderedTable

variable {F S : Type} [Scalar F] [Narrow F S]

/-! ### The steps -/

/-- What the four reads of a load saw, each in a transaction of its own; no
value before all are done. -/
def Collection.loadAcross (collectionId : ℕ) (name : String) (config : EAMConfig F) :
    List (Store F) → Option (Except HeatherError (Collection F S))
  | [s₁, s₂, s₃, s₄] => some do
    let locations ← s₁.loadAllLocations collectionId
    let nextId ← s₂.loadU64 collectionId "next_id" locations.length
    let eta ← s₃.loadF64 collectionId "eta" config.eta0
    let docNextId ← s₄.loadU64 collectionId "doc_next_id" 0
    Collection.checkDimension config locations
    pure ⟨collectionId, name, .opened config locations nextId eta docNextId⟩
  | _ => none

namespace HiveCache

/-- How far a client's call has come. -/
inductive Progress (F S : Type) where
  | idle
  /-- A create that missed the cache. -/
  | creating (name : String)
  /-- A create that missed it again, under the lock. -/
  | locked (name : String)
  | registered (name : String) (collectionId : ℕ)
  /-- A create that found no location. -/
  | making (name : String) (collectionId : ℕ)
  /-- A load under the lock, and the stores it has read. -/
  | loading (name : String) (collectionId : ℕ) (seen : List (Store F))
  | opened (name : String) (col : Collection F S)
  /-- A get that missed the cache. -/
  | getting (name : String)
  | found (name : String) (collectionId : ℕ)
  | dropping (name : String) (collectionId : ℕ)
  /-- A drop whose delete is committed. -/
  | removing (name : String)

/-- What a step did that others can see. -/
inductive Act (F S : Type) where
  | silent
  | registers (name : String)
  | makes (name : String) (collectionId : ℕ)
  | inserts (name : String) (col : Collection F S)
  | deletes (name : String) (collectionId : ℕ)

/-- A hive, the client that holds the cache's write lock, and all clients. -/
structure Shared (F S : Type) where
  hive : Hive F S
  writer : Option ℕ
  clients : ℕ → Progress F S

namespace Shared

/-- A client moved on. -/
def client (w : Shared F S) (i : ℕ) (p : Progress F S) : Shared F S :=
  { w with clients := Function.update w.clients i p }

/-- A client's call ended and let go of the lock. -/
def release (w : Shared F S) (i : ℕ) : Shared F S := { w.client i .idle with writer := none }

/-- A client took the lock. -/
def acquire (w : Shared F S) (i : ℕ) (p : Progress F S) : Shared F S := { w.client i p with writer := some i }

/-- A transaction was committed. -/
def store (w : Shared F S) (store : Store F) : Shared F S := { w with hive := { w.hive with store := store } }

end Shared

/-- One step of a client, or a restart. -/
inductive Moves : Shared F S → ℕ × Act F S → Shared F S → Prop
  | createHit {w : Shared F S} {i : ℕ} {name : String} {h : ℕ} (hi : w.clients i = .idle) (hlock : w.writer = none)
    (hcache : w.hive.collections.get name = some h) : Moves w (i, .silent) w
  | createMiss {w : Shared F S} {i : ℕ} {name : String} (hi : w.clients i = .idle) (hlock : w.writer = none)
    (hcache : w.hive.collections.get name = none) : Moves w (i, .silent) (w.client i (.creating name))
  | lockHit {w : Shared F S} {i : ℕ} {name : String} {h : ℕ} (hi : w.clients i = .creating name)
    (hlock : w.writer = none) (hcache : w.hive.collections.get name = some h) :
    Moves w (i, .silent) (w.client i .idle)
  | lockMiss {w : Shared F S} {i : ℕ} {name : String} (hi : w.clients i = .creating name) (hlock : w.writer = none)
    (hcache : w.hive.collections.get name = none) : Moves w (i, .silent) (w.acquire i (.locked name))
  | register {w : Shared F S} {i : ℕ} {name : String} (hi : w.clients i = .locked name) :
    Moves w (i, .registers name)
      ((w.store (w.hive.store.registered name).2).client i (.registered name (w.hive.store.registered name).1))
  | notRegistered {w : Shared F S} {i : ℕ} {name : String} (hi : w.clients i = .locked name) :
    Moves w (i, .silent) (w.release i)
  | scanEmpty {w : Shared F S} {i : ℕ} {name : String} {collectionId : ℕ}
    (hi : w.clients i = .registered name collectionId)
    (hscan : w.hive.store.loadAllLocations collectionId = .ok []) :
    Moves w (i, .silent) (w.client i (.making name collectionId))
  | scanFull {w : Shared F S} {i : ℕ} {name : String} {collectionId : ℕ} {locations : List (HardLocation F)}
    (hi : w.clients i = .registered name collectionId)
    (hscan : w.hive.store.loadAllLocations collectionId = .ok locations) (hne : locations ≠ []) :
    Moves w (i, .silent) (w.client i (.loading name collectionId []))
  | make {w : Shared F S} {i : ℕ} {name : String} {collectionId : ℕ} {s : Session F S}
    (hi : w.clients i = .making name collectionId)
    (hs : s = .fresh collectionId name w.hive.config w.hive.rng w.hive.store) :
    Moves w (i, .makes name collectionId)
      ({ w with hive := { w.hive with store := s.store, rng := s.rng } }.client i (.opened name s.collection))
  | notMade {w : Shared F S} {i : ℕ} {name : String} {collectionId : ℕ}
    (hi : w.clients i = .making name collectionId) : Moves w (i, .silent) (w.release i)
  | read {w : Shared F S} {i : ℕ} {name : String} {collectionId : ℕ} {seen : List (Store F)}
    (hi : w.clients i = .loading name collectionId seen) (hseen : seen.length < 4) :
    Moves w (i, .silent) (w.client i (.loading name collectionId (seen ++ [w.hive.store])))
  | loaded {w : Shared F S} {i : ℕ} {name : String} {collectionId : ℕ} {seen : List (Store F)} {col : Collection F S}
    (hi : w.clients i = .loading name collectionId seen)
    (hload : Collection.loadAcross collectionId name w.hive.config seen = some (.ok col)) :
    Moves w (i, .silent) (w.client i (.opened name col))
  | notLoaded {w : Shared F S} {i : ℕ} {name : String} {collectionId : ℕ} {seen : List (Store F)} {e : HeatherError}
    (hi : w.clients i = .loading name collectionId seen)
    (hload : Collection.loadAcross (S := S) collectionId name w.hive.config seen = some (.error e)) :
    Moves w (i, .silent) (w.release i)
  | insert {w : Shared F S} {i : ℕ} {name : String} {col : Collection F S} (hi : w.clients i = .opened name col) :
    Moves w (i, .inserts name col)
      ({ w with hive := { w.hive with
          handles := w.hive.handles ++ [col]
          collections := w.hive.collections.put name w.hive.handles.length } }.release i)
  | getHit {w : Shared F S} {i : ℕ} {name : String} {h : ℕ} (hi : w.clients i = .idle) (hlock : w.writer = none)
    (hcache : w.hive.collections.get name = some h) : Moves w (i, .silent) w
  | getMiss {w : Shared F S} {i : ℕ} {name : String} (hi : w.clients i = .idle) (hlock : w.writer = none)
    (hcache : w.hive.collections.get name = none) : Moves w (i, .silent) (w.client i (.getting name))
  | notFound {w : Shared F S} {i : ℕ} {name : String} (hi : w.clients i = .getting name)
    (hreg : w.hive.store.registry.get name = none) : Moves w (i, .silent) (w.client i .idle)
  | found {w : Shared F S} {i : ℕ} {name : String} {collectionId : ℕ} (hi : w.clients i = .getting name)
    (hreg : w.hive.store.registry.get name = some collectionId) :
    Moves w (i, .silent) (w.client i (.found name collectionId))
  | getLockHit {w : Shared F S} {i : ℕ} {name : String} {collectionId h : ℕ}
    (hi : w.clients i = .found name collectionId) (hlock : w.writer = none)
    (hcache : w.hive.collections.get name = some h) : Moves w (i, .silent) (w.client i .idle)
  | getLockMiss {w : Shared F S} {i : ℕ} {name : String} {collectionId : ℕ}
    (hi : w.clients i = .found name collectionId) (hlock : w.writer = none)
    (hcache : w.hive.collections.get name = none) :
    Moves w (i, .silent) (w.acquire i (.loading name collectionId []))
  | dropNone {w : Shared F S} {i : ℕ} {name : String} (hi : w.clients i = .idle)
    (hreg : w.hive.store.registry.get name = none) : Moves w (i, .silent) w
  | dropFound {w : Shared F S} {i : ℕ} {name : String} {collectionId : ℕ} (hi : w.clients i = .idle)
    (hreg : w.hive.store.registry.get name = some collectionId) :
    Moves w (i, .silent) (w.client i (.dropping name collectionId))
  | delete {w : Shared F S} {i : ℕ} {name : String} {collectionId : ℕ}
    (hi : w.clients i = .dropping name collectionId) :
    Moves w (i, .deletes name collectionId)
      ((w.store (w.hive.store.dropped name collectionId)).client i (.removing name))
  | notDeleted {w : Shared F S} {i : ℕ} {name : String} {collectionId : ℕ}
    (hi : w.clients i = .dropping name collectionId) : Moves w (i, .silent) (w.client i .idle)
  | remove {w : Shared F S} {i : ℕ} {name : String} (hi : w.clients i = .removing name) (hlock : w.writer = none) :
    Moves w (i, .silent)
      ({ w with hive := { w.hive with collections := w.hive.collections.delete name } }.client i .idle)
  -- the process ends, with whatever its clients were at
  | restart {w : Shared F S} {i : ℕ} {config : EAMConfig F} {rng : Rng F} {hive' : Hive F S}
    (hopen : Hive.openAt w.hive.store config rng = .ok hive') :
    Moves w (i, .silent) ⟨hive', none, fun _ => .idle⟩

namespace Shared

omit [Scalar F] [Narrow F S] in
@[simp] theorem client_self (w : Shared F S) (i : ℕ) (p : Progress F S) : (w.client i p).clients i = p := by
  simp [client]

omit [Scalar F] [Narrow F S] in
theorem client_of_ne (w : Shared F S) {i j : ℕ} (p : Progress F S) (h : j ≠ i) :
    (w.client i p).clients j = w.clients j := by
  simp [client, Function.update_of_ne h]

end Shared

/-! ### Steps that are no race -/

/-- The step is none of the races: what it deletes is still the collection it
read, what it stores belongs to a collection that is still registered, and so
does what it caches, unless a drop is yet to take it out; it does not name the
counter, and registers no name once the counter wrapped. -/
def Act.Orderly (w : Shared F S) : Act F S → Prop
  | .silent => True
  | .registers name => name ≠ Store.nextCollectionIdKey ∧
    (w.hive.store.registry.get name = none → w.hive.store.registry.get Store.nextCollectionIdKey ≠ some 0)
  | .makes name collectionId => (name, collectionId) ∈ w.hive.store.listCollections
  | .inserts name col => name ≠ Store.nextCollectionIdKey ∧
    ((name, col.collectionId) ∈ w.hive.store.listCollections ∨ ∃ j, w.clients j = .removing name)
  | .deletes name collectionId => name ≠ Store.nextCollectionIdKey ∧
    ∀ id, (name, id) ∈ w.hive.store.listCollections → id = collectionId

/-- A step that is no race. -/
def OrderlyMoves (w : Shared F S) (l : ℕ × Act F S) (w' : Shared F S) : Prop := Moves w l w' ∧ l.2.Orderly w

/-- A step that commits, deletes and caches nothing is no race. -/
theorem orderly_of_silent {w w' : Shared F S} {i : ℕ} (h : Moves w (i, .silent) w') : OrderlyMoves w (i, .silent) w' :=
  ⟨h, trivial⟩

/-! ### Calls that run alone -/

section Alone

variable {hive hive' : Hive F S} {writer writer' : Option ℕ} {clients : ℕ → Progress F S} {i : ℕ} {p q : Progress F S}

/-- Only the last move of a client counts. -/
theorem move_at {l : ℕ × Act F S} (h : Moves ⟨hive, writer, Function.update clients i p⟩ l
      ⟨hive', writer', Function.update (Function.update clients i p) i q⟩) :
    Moves ⟨hive, writer, Function.update clients i p⟩ l ⟨hive', writer', Function.update clients i q⟩ := by
  rwa [Function.update_idem] at h

/-- The reads of a load with no other step between them, and its insertion. -/
theorem load_alone {name : String} {collectionId : ℕ} {col : Collection F S}
    (hload : Collection.load collectionId name hive.store hive.config = .ok col)
    (hlisted : (name, collectionId) ∈ hive.store.listCollections) (hi : clients i = .idle) :
    ∃ ls, Run OrderlyMoves ⟨hive, some i, Function.update clients i (.loading name collectionId [])⟩ ls
      ⟨hive.opened name ⟨hive.store, hive.rng, col⟩, none, clients⟩ := by
  have hread : ∀ seen : List (Store F), seen.length < 4 →
      OrderlyMoves ⟨hive, some i, Function.update clients i (.loading name collectionId seen)⟩ (i, .silent)
        ⟨hive, some i, Function.update clients i (.loading name collectionId (seen ++ [hive.store]))⟩ :=
          fun seen hseen =>
    orderly_of_silent (move_at (.read (by simp) hseen))
  have hseen : Collection.loadAcross collectionId name hive.config (List.replicate 4 hive.store) = some (.ok col) :=
    congrArg some hload
  have hloaded : OrderlyMoves
      ⟨hive, some i, Function.update clients i (.loading name collectionId (List.replicate 4 hive.store))⟩
      (i, .silent) ⟨hive, some i, Function.update clients i (.opened name col)⟩ :=
    orderly_of_silent (move_at (.loaded (by simp) hseen))
  have hcol : col.collectionId = collectionId := by
    obtain ⟨_, _, _, _, -, -, -, -, -, rfl⟩ := load_inv hload
    rfl
  have hinsert : OrderlyMoves ⟨hive, some i, Function.update clients i (.opened name col)⟩ (i, .inserts name col)
      ⟨hive.opened name ⟨hive.store, hive.rng, col⟩, none, Function.update clients i .idle⟩ :=
    ⟨move_at (.insert (by simp)), (Store.mem_listCollections_iff.mp hlisted).1, Or.inl (hcol ▸ hlisted)⟩
  have hrun := (((((Run.single (hread [] (by simp))).snoc (hread _ (by simp))).snoc (hread _ (by simp))).snoc
    (hread _ (by simp))).snoc hloaded).snoc hinsert
  rw [← hi, Function.update_eq_self] at hrun
  exact ⟨_, hrun⟩

omit [Scalar F] in
/-- What was just registered is listed. -/
theorem registered_listed (store : Store F) {name : String} (hname : name ≠ Store.nextCollectionIdKey) :
    (name, (store.registered name).1) ∈ (store.registered name).2.listCollections := by
  apply Store.mem_listCollections_iff.mpr
  cases hreg : store.registry.get name with
  | some id =>
    rw [Store.registered, hreg]
    exact ⟨hname, hreg⟩
  | none =>
    rw [Store.Registry.get_registered hreg hname, if_pos rfl]
    exact ⟨hname, rfl⟩

variable [SeededUniform F]

/-- **A call that nobody interrupts** is the operation, and no race: what a
proper create, get or drop does at once is a run of one client's steps. -/
theorem moves_alone [Scalar S] {plan : List (Option String)} {e : HiveEvent F} (hmoved : HiveMoved plan hive e hive')
    (hproper : e.Proper hive) (hi : clients i = .idle) {name : String}
    (he : (∃ h, e = .create name (.ok h)) ∨ (∃ r, e = .get name r) ∨ ∃ r, e = .drop name r) :
    ∃ ls, Run OrderlyMoves ⟨hive, none, clients⟩ ls ⟨hive', none, clients⟩ := by
  have hidle : Function.update clients i .idle = clients := by rw [← hi, Function.update_eq_self]
  cases hmoved with
  | cached he' hcache => exact ⟨[], .nil⟩
  | failed he' hcache hstore hplan => rcases he' with rfl | rfl <;> simp at he
  | @opened other _ s he' hcache hopens =>
    obtain ⟨hname, hwrap⟩ := HiveEvent.proper_create he' hproper
    have hlisted := registered_listed hive.store hname
    have hmiss : OrderlyMoves ⟨hive, none, clients⟩ (i, .silent)
        ⟨hive, none, Function.update clients i (.creating other)⟩ := orderly_of_silent (.createMiss hi rfl hcache)
    have hlock : OrderlyMoves ⟨hive, none, Function.update clients i (.creating other)⟩ (i, .silent)
        ⟨hive, some i, Function.update clients i (.locked other)⟩ :=
      orderly_of_silent (move_at (.lockMiss (by simp) rfl hcache))
    have hregister : OrderlyMoves ⟨hive, some i, Function.update clients i (.locked other)⟩ (i, .registers other)
        ⟨{ hive with store := (hive.store.registered other).2 }, some i,
          Function.update clients i (.registered other (hive.store.registered other).1)⟩ :=
      ⟨move_at (.register (by simp)), hname, hwrap⟩
    have hstart := ((Run.single hmiss).snoc hlock).snoc hregister
    cases hopens with
    | new hempty =>
      have hscan : OrderlyMoves ⟨{ hive with store := (hive.store.registered other).2 }, some i,
          Function.update clients i (.registered other (hive.store.registered other).1)⟩ (i, .silent)
          ⟨{ hive with store := (hive.store.registered other).2 }, some i,
            Function.update clients i (.making other (hive.store.registered other).1)⟩ :=
        orderly_of_silent (move_at (.scanEmpty (by simp) hempty))
      set s : Session F S := .fresh (hive.store.registered other).1 other hive.config hive.rng
        (hive.store.registered other).2
        with hs
      have hmake : OrderlyMoves ⟨{ hive with store := (hive.store.registered other).2 }, some i,
          Function.update clients i (.making other (hive.store.registered other).1)⟩
          (i, .makes other (hive.store.registered other).1)
          ⟨{ hive with store := s.store, rng := s.rng }, some i,
            Function.update clients i (.opened other s.collection)⟩ :=
        ⟨move_at (.make (by simp) hs), hlisted⟩
      have hunder := (Hive.Opens.new hempty : Hive.Opens hive.config hive.rng _ _ other s).under.2
      have hstored : (other, s.collection.collectionId) ∈ s.store.listCollections := by
        rw [Store.listCollections, hunder.registry]
        exact hlisted
      have hinsert : OrderlyMoves ⟨{ hive with store := s.store, rng := s.rng }, some i,
          Function.update clients i (.opened other s.collection)⟩ (i, .inserts other s.collection)
          ⟨hive.opened other s, none, Function.update clients i .idle⟩ :=
        ⟨move_at (.insert (by simp)), hname, Or.inl hstored⟩
      rw [hidle] at hinsert
      exact ⟨_, ((hstart.snoc hscan).snoc hmake).snoc hinsert⟩
    | load hlocations hne hload =>
      have hscan : OrderlyMoves ⟨{ hive with store := (hive.store.registered other).2 }, some i,
          Function.update clients i (.registered other (hive.store.registered other).1)⟩ (i, .silent)
          ⟨{ hive with store := (hive.store.registered other).2 }, some i,
            Function.update clients i (.loading other (hive.store.registered other).1 [])⟩ :=
        orderly_of_silent (move_at (.scanFull (by simp) hlocations hne))
      let registered : Hive F S := { hive with store := (hive.store.registered other).2 }
      obtain ⟨ls, hrun⟩ : ∃ ls, Run OrderlyMoves ⟨registered, some i, _⟩ ls
          ⟨registered.opened other _, none, clients⟩ :=
        load_alone hload hlisted hi
      exact ⟨_, (hstart.snoc hscan).trans hrun⟩
  | got other r => exact ⟨[], .nil⟩
  | @loaded other collectionId col hcache hreg hload =>
    have hname : other ≠ Store.nextCollectionIdKey := by
      rintro rfl
      exact hproper (by rw [hreg]; simp) rfl
    have hlisted : (other, collectionId) ∈ hive.store.listCollections := Store.mem_listCollections_iff.mpr ⟨hname, hreg⟩
    have hmiss : OrderlyMoves ⟨hive, none, clients⟩ (i, .silent)
        ⟨hive, none, Function.update clients i (.getting other)⟩ := orderly_of_silent (.getMiss hi rfl hcache)
    have hfound : OrderlyMoves ⟨hive, none, Function.update clients i (.getting other)⟩ (i, .silent)
        ⟨hive, none, Function.update clients i (.found other collectionId)⟩ :=
      orderly_of_silent (move_at (.found (by simp) hreg))
    have hlock : OrderlyMoves ⟨hive, none, Function.update clients i (.found other collectionId)⟩ (i, .silent)
        ⟨hive, some i, Function.update clients i (.loading other collectionId [])⟩ :=
      orderly_of_silent (move_at (.getLockMiss (by simp) rfl hcache))
    obtain ⟨ls, hrun⟩ := load_alone hload hlisted hi
    exact ⟨_, (((Run.single hmiss).snoc hfound).snoc hlock).trans hrun⟩
  | notDropped hr hnone => exact ⟨[], .nil⟩
  | @dropped other collectionId hreg =>
    have hname : other ≠ Store.nextCollectionIdKey := by
      rintro rfl
      exact hproper (by rw [hreg]; simp) rfl
    have hread : ∀ id, (other, id) ∈ hive.store.listCollections → id = collectionId := by
      intro id hid
      rw [(Store.mem_listCollections_iff.mp hid).2] at hreg
      exact Option.some.inj hreg
    have hfound : OrderlyMoves ⟨hive, none, clients⟩ (i, .silent)
        ⟨hive, none, Function.update clients i (.dropping other collectionId)⟩ :=
      orderly_of_silent (.dropFound hi hreg)
    have hdelete : OrderlyMoves ⟨hive, none, Function.update clients i (.dropping other collectionId)⟩
        (i, .deletes other collectionId) ⟨{ hive with store := hive.store.dropped other collectionId }, none,
          Function.update clients i (.removing other)⟩ := ⟨move_at (.delete (by simp)), hname, hread⟩
    have hremove : OrderlyMoves ⟨{ hive with store := hive.store.dropped other collectionId }, none,
        Function.update clients i (.removing other)⟩ (i, .silent)
        ⟨{ hive with
            store := hive.store.dropped other collectionId
            collections := hive.collections.delete other }, none, Function.update clients i .idle⟩ :=
      orderly_of_silent (move_at (.remove (by simp) rfl))
    rw [hidle] at hremove
    exact ⟨_, ((Run.single hfound).snoc hdelete).snoc hremove⟩
  | restarted config rng => simp at he
  | called hs hstep => simp at he

end Alone

/-! ### Coherence -/

/-- The registry is in order, what is cached is registered or about to be taken
out, and no unregistered id has a record. -/
structure Coherent (w : Shared F S) : Prop where
  registry : w.hive.store.Registry
  cached : ∀ name h, w.hive.collections.get name = some h → ∃ col, w.hive.handles[h]? = some col ∧
    ((name, col.collectionId) ∈ w.hive.store.listCollections ∨ ∃ i, w.clients i = .removing name)
  untouched : ∀ id, (∀ name, (name, id) ∉ w.hive.store.listCollections) → w.hive.store.Untouched id

namespace Coherent

variable {w w' : Shared F S}

omit [Scalar F] [Narrow F S] in
/-- A step that neither commits nor touches the cache, of a client that removes
nothing. -/
theorem client (h : Coherent w) {i : ℕ} (hi : ∀ name, w.clients i ≠ .removing name) (p : Progress F S) :
    Coherent (w.client i p) where
  registry := h.registry
  cached name k hcache := by
    obtain ⟨col, hcol, hlisted | ⟨j, hj⟩⟩ := h.cached name k hcache
    · exact ⟨col, hcol, Or.inl hlisted⟩
    · have hne : j ≠ i := fun hc => hi name (hc ▸ hj)
      exact ⟨col, hcol, Or.inr ⟨j, (w.client_of_ne p hne).trans hj⟩⟩
  untouched := h.untouched

omit [Scalar F] [Narrow F S] in
/-- The lock does not matter. -/
theorem of_writer (h : Coherent w) (writer : Option ℕ) : Coherent { w with writer := writer } :=
  ⟨h.registry, h.cached, h.untouched⟩

omit [Scalar F] [Narrow F S] in
/-- A committed step of a client that removes nothing, which unlists no name and
leaves an unlisted id without records. -/
theorem commit (h : Coherent w) {i : ℕ} (hi : ∀ name, w.clients i ≠ .removing name) {store : Store F} (p : Progress F S)
    (hregistry : store.Registry) (hlisted : ∀ e ∈ w.hive.store.listCollections, e ∈ store.listCollections)
    (huntouched : ∀ id, (∀ name, (name, id) ∉ w.hive.store.listCollections) →
      (∀ name, (name, id) ∉ store.listCollections) → store.Untouched id) :
    Coherent ((w.store store).client i p) := by
  have hstored : Coherent (w.store store) := by
    refine ⟨hregistry, fun name k hcache => ?_, fun id hid => ?_⟩
    · obtain ⟨col, hcol, hname⟩ := h.cached name k hcache
      exact ⟨col, hcol, hname.imp (hlisted _) id⟩
    · exact huntouched id (fun name hname => hid name (hlisted _ hname)) hid
  exact hstored.client hi p

end Coherent

omit [Scalar F] in
/-- Registering unlists no name. -/
theorem listed_registered {store : Store F} {other name : String} {id : ℕ} (h : (other, id) ∈ store.listCollections) :
    (other, id) ∈ (store.registered name).2.listCollections := by
  obtain ⟨hother, hid⟩ := Store.mem_listCollections_iff.mp h
  refine Store.mem_listCollections_iff.mpr ⟨hother, ?_⟩
  cases hreg : store.registry.get name with
  | some _ =>
    have hsame : (store.registered name).2 = store := by rw [Store.registered, hreg]
    rwa [hsame]
  | none =>
    have hne : other ≠ name := by
      rintro rfl
      rw [hreg] at hid
      cases hid
    rw [Store.Registry.get_registered hreg hother, if_neg hne]
    exact hid

omit [Scalar F] in
/-- Dropping a name unlists no other. -/
theorem listed_dropped {store : Store F} {other name : String} {id collectionId : ℕ}
    (h : (other, id) ∈ store.listCollections) (hne : other ≠ name) :
    (other, id) ∈ (store.dropped name collectionId).listCollections := by
  obtain ⟨hother, hid⟩ := Store.mem_listCollections_iff.mp h
  exact Store.mem_listCollections_iff.mpr ⟨hother, (get_delete_of_ne _ hne).trans hid⟩

/-- **Coherence survives every step** that is no race. -/
theorem coherent_move {w w' : Shared F S} {l : ℕ × Act F S} (hmove : OrderlyMoves w l w') (h : Coherent w) :
    Coherent w' := by
  obtain ⟨hmove, horderly⟩ := hmove
  cases hmove with
  | createHit | getHit | dropNone => exact h
  | createMiss hi | getMiss hi | dropFound hi => exact h.client (fun name hc => by rw [hi] at hc; cases hc) _
  | lockHit hi | notFound hi | found hi | getLockHit hi | notDeleted hi =>
    exact h.client (fun name hc => by rw [hi] at hc; cases hc) _
  | scanEmpty hi | scanFull hi | read hi | loaded hi =>
    exact h.client (fun name hc => by rw [hi] at hc; cases hc) _
  | lockMiss hi | getLockMiss hi => exact (h.client (fun name hc => by rw [hi] at hc; cases hc) _).of_writer _
  | notRegistered hi | notMade hi | notLoaded hi =>
    exact (h.client (fun name hc => by rw [hi] at hc; cases hc) _).of_writer _
  | @register i name hi =>
    obtain ⟨hname, hwrap⟩ := horderly
    apply h.commit (fun name hc => by rw [hi] at hc; cases hc) _ (h.registry.registered hname hwrap)
    · exact fun e he => listed_registered he
    · exact fun id hold _ => Store.registered_untouched (h.untouched id hold) name
  | @make i name collectionId s hi hs =>
    have hlisted : (name, collectionId) ∈ w.hive.store.listCollections := horderly
    obtain ⟨hname, hid⟩ := Store.mem_listCollections_iff.mp hlisted
    have hunder : Store.OnlyUnder collectionId w.hive.store s.store := hs ▸ Store.putAll_onlyUnder _ _
    have hsame : s.store.listCollections = w.hive.store.listCollections := by
      rw [Store.listCollections, hunder.registry, Store.listCollections]
    have hcommit : Coherent ((w.store s.store).client i (.opened name s.collection)) := by
      apply h.commit (fun name hc => by rw [hi] at hc; cases hc) _
        (h.registry.onlyUnder (h.registry.below name collectionId hname hid) hunder)
      · exact fun e he => hsame ▸ he
      · intro id hold _
        have hne : id ≠ collectionId := fun hc => hold name (hc ▸ hlisted)
        exact hunder.untouched hne (h.untouched id hold)
    exact ⟨hcommit.registry, hcommit.cached, hcommit.untouched⟩
  | @insert i name col hi =>
    obtain ⟨-, hcol⟩ := horderly
    have hidle := h.client (fun other hc => by rw [hi] at hc; cases hc) (i := i) .idle
    refine ⟨h.registry, fun other k hcache => ?_, h.untouched⟩
    have hput : (w.hive.collections.put name w.hive.handles.length).get other = some k := hcache
    rw [get_put] at hput
    split_ifs at hput with hsame
    · obtain rfl := Option.some.inj hput
      subst hsame
      refine ⟨col, List.getElem?_concat_length, hcol.imp_right (Exists.imp fun j hj => ?_)⟩
      have hne : j ≠ i := by
        rintro rfl
        rw [hi] at hj
        cases hj
      exact (w.client_of_ne .idle hne).trans hj
    · obtain ⟨old, hold, hname⟩ := hidle.cached other k hput
      have hlt : k < w.hive.handles.length := (List.getElem?_eq_some_iff.mp hold).1
      exact ⟨old, (List.getElem?_append_left hlt).trans hold, hname⟩
  | @delete i name collectionId hi =>
    obtain ⟨hname, hread⟩ := horderly
    refine ⟨h.registry.dropped hname collectionId, fun other k hcache => ?_, fun id hid => ?_⟩
    · obtain ⟨col, hcol, hother⟩ := h.cached other k hcache
      refine ⟨col, hcol, ?_⟩
      by_cases hsame : other = name
      · exact Or.inr ⟨i, hsame ▸ Shared.client_self _ _ _⟩
      · refine hother.imp (fun hlisted => listed_dropped hlisted hsame) (Exists.imp fun j hj => ?_)
        have hne : j ≠ i := by
          rintro rfl
          rw [hi] at hj
          cases hj
        exact (Shared.client_of_ne _ _ hne).trans hj
    · apply Store.dropped_untouched
      by_cases hsame : id = collectionId
      · exact Or.inl hsame
      · refine Or.inr (h.untouched id fun other hother => ?_)
        have hne : other ≠ name := fun hc => hsame (hread id (hc ▸ hother))
        exact hid other (listed_dropped hother hne)
  | restart hopen =>
    obtain rfl := Hive.openAt_inv hopen
    refine ⟨h.registry.of_precision _, fun name k hcache => by simp at hcache, fun id hid => ?_⟩
    exact ⟨(h.untouched id hid).locations, (h.untouched id hid).documents, (h.untouched id hid).metadata,
      (h.untouched id hid).postings⟩
  | @remove i name hi hlock =>
    refine ⟨h.registry, fun other k hcache => ?_, h.untouched⟩
    have hdel : (w.hive.collections.delete name).get other = some k := hcache
    rw [get_delete] at hdel
    split_ifs at hdel with hsame
    obtain ⟨col, hcol, hother⟩ := h.cached other k hdel
    refine ⟨col, hcol, hother.imp_right (Exists.imp fun j hj => ?_)⟩
    have hne : j ≠ i := by
      rintro rfl
      rw [hi] at hj
      exact hsame (Progress.removing.inj hj).symm
    exact (Shared.client_of_ne _ _ hne).trans hj

/-- **Between calls the cache is coherent** if no step was a race: what is
cached has the registered id, nothing unregistered is cached, and no record of
an unregistered id remains. -/
theorem hive_cache_coherent {p : Precision} {config : EAMConfig F} {rng : Rng F} {hive : Hive F S}
    (hopen : Hive.openAt (Store.empty p) config rng = .ok hive) {ls : List (ℕ × Act F S)} {w : Shared F S}
    (hrun : Run OrderlyMoves ⟨hive, none, fun _ => .idle⟩ ls w) (hquiet : ∀ i, w.clients i = .idle) :
    (∀ name h, w.hive.collections.get name = some h →
      ∃ col, w.hive.handles[h]? = some col ∧ w.hive.store.registry.get name = some col.collectionId) ∧
      (∀ name, w.hive.store.registry.get name = none → w.hive.collections.get name = none) ∧
      ∀ id, (∀ name, (name, id) ∉ w.hive.store.listCollections) → w.hive.store.Untouched id := by
  have hstart : Coherent (⟨hive, none, fun _ => .idle⟩ : Shared F S) := by
    have hregistry : (Store.empty config.precision : Store F).Registry := .empty _
    obtain rfl := Hive.openAt_inv hopen
    exact ⟨hregistry, fun name k hcache => by simp at hcache, fun id _ => hregistry.free id (Nat.zero_le _)⟩
  have hcoherent : Coherent w := hrun.invariant hstart fun h hmove => coherent_move hmove h
  have hcached : ∀ name h, w.hive.collections.get name = some h →
      ∃ col, w.hive.handles[h]? = some col ∧ w.hive.store.registry.get name = some col.collectionId := by
    intro name k hcache
    obtain ⟨col, hcol, hlisted | ⟨i, hi⟩⟩ := hcoherent.cached name k hcache
    · exact ⟨col, hcol, (Store.mem_listCollections_iff.mp hlisted).2⟩
    · rw [hquiet i] at hi
      cases hi
  refine ⟨hcached, fun name hnone => ?_, hcoherent.untouched⟩
  cases hcache : w.hive.collections.get name with
  | none => rfl
  | some k =>
    obtain ⟨col, -, hreg⟩ := hcached name k hcache
    rw [hnone] at hreg
    cases hreg

variable [SeededUniform F]

/-- One client creates a collection and another finds it cached under its id. -/
theorem hive_cache_coherent_created : ∃ w : Shared ℚ ℚ,
    (w.hive.collections.get "a" = some 0 ∧ w.hive.handles.length = 1) ∧
    (∃ col, w.hive.handles[0]? = some col ∧ w.hive.store.registry.get "a" = some col.collectionId) ∧
      w.hive.store.Untouched 1 := by
  have hcreate : HiveStep [] newHive (.create "a" (.ok 0)) (newHive.creating "a") :=
    .create (Prod.ext (by decide +kernel) rfl)
  have hproper : (HiveEvent.create "a" (.ok 0) : HiveEvent ℚ).Proper newHive :=
    ⟨by decide +kernel, fun _ => by decide +kernel⟩
  obtain ⟨ls, hrun⟩ : ∃ ls, Run OrderlyMoves ⟨newHive, none, fun _ => .idle⟩ ls
      ⟨newHive.creating "a", none, fun _ => .idle⟩ :=
    moves_alone (i := 0) (hiveStep_cases hcreate) hproper rfl (Or.inl ⟨0, rfl⟩)
  have hall := hive_cache_coherent openAt_newHive hrun fun _ => rfl
  refine ⟨_, ⟨by decide +kernel, by decide +kernel⟩, hall.1 "a" 0 (by decide +kernel), hall.2.2 1 fun name hname => ?_⟩
  have hlist : (newHive.creating "a").store.listCollections = [("a", 0)] := by decide +kernel
  rw [hlist] at hname
  simp at hname

/-- A drop between the two commits of a create: the collection is unregistered
and its metadata stays, under an id that no later drop clears. -/
theorem hive_cache_race : ∃ ls, ∃ w : Shared ℚ ℚ, Run Moves ⟨newHive, none, fun _ => .idle⟩ ls w ∧
    (∀ i, w.clients i = .idle) ∧ w.hive.store.listCollections = [] ∧ ¬ w.hive.store.Untouched 0 := by
  let registered : Store ℚ := (newHive.store.registered "a").2
  let dropped : Store ℚ := registered.dropped "a" 0
  let s : Session ℚ ℚ := .fresh 0 "a" newHive.config newHive.rng dropped
  let start : Shared ℚ ℚ := ⟨newHive, none, fun _ => .idle⟩
  let missed := (start.client 0 (.creating "a")).acquire 0 (.locked "a")
  let committed := (missed.store registered).client 0 (.registered "a" 0)
  let deleted := ((committed.client 1 (.dropping "a" 0)).store dropped).client 1 (.removing "a")
  let scanned := deleted.client 0 (.making "a" 0)
  let made : Shared ℚ ℚ :=
    { scanned with hive := { scanned.hive with store := s.store, rng := s.rng } }.client 0 (.opened "a" s.collection)
  let inserted := { made with hive := { made.hive with
    handles := made.hive.handles ++ [s.collection]
    collections := made.hive.collections.put "a" made.hive.handles.length } }.release 0
  let quiet := { inserted with hive := { inserted.hive with
    collections := inserted.hive.collections.delete "a" } }.client 1 .idle
  have hmiss : Moves start (0, .silent) (start.client 0 (.creating "a")) := .createMiss rfl rfl (by decide +kernel)
  have hlock : Moves (start.client 0 (.creating "a")) (0, .silent) missed := .lockMiss rfl rfl (by decide +kernel)
  have hregister : Moves missed (0, .registers "a") committed := .register rfl
  have hfound : Moves committed (1, .silent) (committed.client 1 (.dropping "a" 0)) :=
    .dropFound rfl (show registered.registry.get "a" = some 0 by decide +kernel)
  have hdelete : Moves (committed.client 1 (.dropping "a" 0)) (1, .deletes "a" 0) deleted := .delete rfl
  have hscan : Moves deleted (0, .silent) scanned :=
    .scanEmpty rfl (show dropped.loadAllLocations 0 = .ok [] by rfl)
  have hmake : Moves scanned (0, .makes "a" 0) made := .make rfl rfl
  have hinsert : Moves made (0, .inserts "a" s.collection) inserted := .insert rfl
  have hremove : Moves inserted (1, .silent) quiet := .remove rfl rfl
  refine ⟨_, quiet, ((((((((Run.single hmiss).snoc hlock).snoc hregister).snoc hfound).snoc hdelete).snoc hscan).snoc
    hmake).snoc hinsert).snoc hremove, fun i => ?_, ?_, fun huntouched => ?_⟩
  · match i with
    | 0 | 1 => rfl
    | _ + 2 => rfl
  · show s.store.listCollections = []
    decide +kernel
  · have hnone : s.store.metadata.get ⟨0, "next_id"⟩ = none := huntouched.metadata "next_id"
    revert hnone
    decide +kernel

end HiveCache

end HeatherDb
