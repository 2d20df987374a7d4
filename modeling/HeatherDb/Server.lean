/-
# The server and its data directory

`server.rs`: a server mounts one hive for each database, a directory under
`db/` with a `db.toml` and an LMDB environment. Each call on the file system
or on LMDB is a step that may fail, and what was done before it stays done.

The directory a database lives in, the name inside its `db.toml` and the name
it is mounted under are three things here, as they are in the source: a hive
is mounted under the name of its directory, and opens the environment of the
directory that its `db.toml` names.

What is a library's is a `Backend`: which configurations TOML can write, what
LMDB makes in an empty directory, and at which map size it opens an
environment. Within a process LMDB refuses to open an environment a second
time with another map size.

Key definitions: `DbDir`, `DataDir`, `Server`, `Backend`, `openWith`,
`createDatabase`, `dropDatabaseWith`.
-/
import HeatherDb.DbConfig
import HeatherDb.Lib.Faults
import HeatherDb.Lib.OrderedTable
import Mathlib.Data.String.Basic

namespace HeatherDb

open Program OrderedTable

/-! ### The data directory -/

/-- A database's directory. `E` is what an environment holds. -/
structure DbDir (F E : Type) where
  /-- `db.toml` -/
  toml : Option (DbConfig F)
  /-- `db.toml.tmp` -/
  tomlTmp : Option (DbConfig F)
  /-- The environment under `data/`. -/
  data : Option E

structure DataDir (F E : Type) where
  /-- The layout named in `server.toml`. -/
  layout : Option String
  /-- `db/`, by directory. -/
  db : OrderedTable String (DbDir F E)
  /-- `_trash/` -/
  trash : OrderedTable String (DbDir F E)

namespace DataDir

variable {F E : Type}

/-- A new data directory. -/
def fresh : DataDir F E := ⟨none, .empty, .empty⟩

/-- What a directory holds; one that is not there holds nothing. -/
def dir (root : DataDir F E) (name : String) : DbDir F E := (root.db.get name).getD ⟨none, none, none⟩

/-- Changes what a directory holds, and makes it if it is not there. -/
def update (f : DbDir F E → DbDir F E) (name : String) (root : DataDir F E) : DataDir F E :=
  { root with db := root.db.put name (f (root.dir name)) }

/-- `fs::create_dir_all` -/
def createDir : String → DataDir F E → DataDir F E := update id

def writeTmp (cfg : DbConfig F) : String → DataDir F E → DataDir F E := update fun d => { d with tomlTmp := some cfg }

/-- Renames `db.toml.tmp` to `db.toml`. -/
def renameTmp : String → DataDir F E → DataDir F E := update fun d => { d with toml := d.tomlTmp, tomlTmp := none }

/-- The environment of a directory, made if there is none. -/
def makeEnv (fresh : E) : String → DataDir F E → DataDir F E :=
  update fun d => { d with data := some (d.data.getD fresh) }

@[simp] theorem dir_update (f : DbDir F E → DbDir F E) (name other : String) (root : DataDir F E) :
    (update f name root).dir other = if other = name then f (root.dir name) else root.dir other := by
  simp only [dir, update, get_put]
  split_ifs <;> rfl

end DataDir

/-! ### The server -/

/-- A mounted hive: its configuration, and the directory whose environment it
serves. -/
structure Mounted (F : Type) where
  config : DbConfig F
  env : String

structure Server (F E : Type) where
  root : DataDir F E
  inner : OrderedTable String (Mounted F)
  /-- Databases not mounted, with why. -/
  refused : OrderedTable String String

/-- What the libraries below decide. -/
structure Backend (F E : Type) where
  /-- TOML can write this configuration. -/
  encodes : DbConfig F → Bool
  /-- The environment LMDB makes. -/
  fresh : E
  /-- LMDB opens the environment with this map size in MiB. -/
  opens : ℕ → E → Bool

variable {F E : Type}

/-- The name whose database always exists. -/
def defaultDb : String := "default"

def supportedLayout : String := "v0.2"

namespace Server

/-- The hive mounted under a name. -/
def database (s : Server F E) (name : String) : Option (Mounted F) := s.inner.get name

/-- What the database of a name reads. -/
def reads (s : Server F E) (name : String) : Option E := do
  let mounted ← s.database name
  (s.root.dir mounted.env).data

/-- A change of the data directory. -/
def onRoot (f : DataDir F E → DataDir F E) : Program HeatherError (Server F E) Unit :=
  modify fun s => { s with root := f s.root }

/-! ### Files -/

/-- `fs::write` of the temporary file. -/
def writeTmp (dir : String) (cfg : DbConfig F) : Program HeatherError (Server F E) Unit := do
  step
  onRoot (DataDir.writeTmp cfg dir)

/-- `fs::rename` of the temporary file, which has to be there. -/
def renameTmp (dir : String) : Program HeatherError (Server F E) Unit := do
  step
  let s ← get
  ensure ((s.root.dir dir).tomlTmp.isSome) (.storage s!"rename {dir}")
  onRoot (DataDir.renameTmp dir)

/-- `DbConfig::save` into a directory. -/
def save (b : Backend F E) (dir : String) (cfg : DbConfig F) : Program HeatherError (Server F E) Unit := do
  ensure (b.encodes cfg) (.serialization "toml encode")
  writeTmp dir cfg
  renameTmp dir

/-- `fs::create_dir_all` of a directory and its `data/`. -/
def createDir (dir : String) : Program HeatherError (Server F E) Unit := do
  step
  onRoot (DataDir.createDir dir)

/-! ### Environments -/

/-- No hive has the environment open with another map size. -/
def Sharable (s : Server F E) (env : String) (mapSizeMb : ℕ) : Prop :=
  ∀ e ∈ s.inner.entries, e.2.env = env → e.2.config.mapSizeMb = mapSizeMb

instance (s : Server F E) (env : String) (mapSizeMb : ℕ) : Decidable (s.Sharable env mapSizeMb) :=
  inferInstanceAs (Decidable (∀ _ ∈ _, _))

/-- `EnvOpenOptions::open` -/
def openEnv (b : Backend F E) (env : String) (mapSizeMb : ℕ) : Program HeatherError (Server F E) Unit := do
  step
  let s ← get
  ensure (s.Sharable env mapSizeMb) (.storage "an environment is already opened with different options")
  ensure (b.opens mapSizeMb ((s.root.dir env).data.getD b.fresh)) (.storage "open environment")
  onRoot (DataDir.makeEnv b.fresh env)

/-- `open_hive_for`: the environment is the one of the directory that the
configuration names. -/
def openHiveFor [Scalar F] (b : Backend F E) (cfg : DbConfig F) : Program HeatherError (Server F E) (Mounted F) := do
  createDir cfg.name
  ofExcept cfg.eam.validate
  step  -- create_dir_all of Store::open
  openEnv b cfg.name cfg.mapSizeMb
  step  -- the transaction that creates the sub-databases
  step  -- last_audit_seq
  pure ⟨cfg, cfg.name⟩

/-! ### Creating -/

/-- Fails if the name is mounted. -/
def refuseMounted (name : String) : Program HeatherError (Server F E) Unit := do
  let s ← get
  ensure (s.inner.get name).isNone (.invalidInput s!"database already exists: {name}")

/-- Mounts a hive, unless the name was mounted meanwhile. -/
def insert (name : String) (mounted : Mounted F) : Program HeatherError (Server F E) Unit := do
  refuseMounted name
  modify fun s => { s with inner := s.inner.put name mounted }

def createDatabase [Scalar F] (b : Backend F E) (cfg : DbConfig F) : Program HeatherError (Server F E) (Mounted F) := do
  ofExcept (validateDbName cfg.name)
  ofExcept cfg.eam.validate
  refuseMounted cfg.name
  createDir cfg.name
  save b cfg.name cfg
  let mounted ← openHiveFor b cfg
  insert cfg.name mounted
  pure mounted

/-! ### Opening -/

/-- An older database is said to be of the current format from now on. -/
def upgrade (b : Backend F E) (dir : String) (cfg : DbConfig F) : Program HeatherError (Server F E) (DbConfig F) :=
  if cfg.formatVersion < currentFormat then do
    save b dir { cfg with formatVersion := currentFormat }
    pure { cfg with formatVersion := currentFormat }
  else pure cfg

/-- Why a database of a newer format is not mounted. -/
def refusal (name : String) (format : ℕ) : String :=
  s!"database {name} uses format {format} but this HeatherDB reads up to {currentFormat}; " ++
    "upgrade HeatherDB to open it"

/-- One turn of the mount loop. -/
def mountOne [Scalar F] (b : Backend F E) (name : String) : Program HeatherError (Server F E) Unit := do
  let s ← get
  if name.startsWith "_" then pure ()
  else
    match (s.root.dir name).toml with
    | none => pure ()
    | some cfg => do
      step  -- DbConfig::load
      if currentFormat < cfg.formatVersion then
        modify fun s => { s with refused := s.refused.put name (refusal name cfg.formatVersion) }
      else do
        let cfg ← upgrade b name cfg
        let mounted ← openHiveFor b cfg
        modify fun s => { s with inner := s.inner.put name mounted }

/-- The layout tag: written on the first boot, checked on every later one. -/
def checkLayout : Program HeatherError (Server F E) Unit := do
  let s ← get
  step
  match s.root.layout with
  | none => onRoot fun root => { root with layout := some supportedLayout }
  | some layout => ensure (layout = supportedLayout) (.storage s!"data dir has layout '{layout}'")

/-- The configuration a missing default database is created with. -/
def defaultConfig [Scalar F] (dimension l0 mapSizeMb now : ℕ) : Except HeatherError (DbConfig F) := do
  let cfg ← DbConfig.new defaultDb dimension now
  let cfg := { cfg with eam := { cfg.eam with l0 := l0 }, mapSizeMb := mapSizeMb }
  cfg.eam.validate
  pure cfg

/-- Creates the default database if it is neither mounted nor refused. -/
def ensureDefault [Scalar F] (b : Backend F E)
    (dimension l0 mapSizeMb now : ℕ) : Program HeatherError (Server F E) Unit := do
  let s ← get
  if (s.inner.get defaultDb).isNone ∧ (s.refused.get defaultDb).isNone then do
    let cfg ← ofExcept (defaultConfig dimension l0 mapSizeMb now)
    let _ ← createDatabase b cfg
    pure ()
  else pure ()

/-- `Server::open_with`, from a server that has mounted nothing yet. -/
def openWith [Scalar F] (b : Backend F E)
    (dimension l0 mapSizeMb now : ℕ) : Program HeatherError (Server F E) Unit := do
  step  -- create_dir_all of the root
  step  -- the engine lock
  checkLayout
  step  -- create_dir_all of db/
  step  -- read_dir
  let s ← get
  s.root.db.keys.forM (mountOne b)
  ensureDefault b dimension l0 mapSizeMb now

/-! ### Dropping -/

/-- `fs::rename` of a directory into the trash. Another directory may only be
in its place if it is empty. -/
def renameToTrash (name trashed : String) : Program HeatherError (Server F E) Unit := do
  step
  let s ← get
  ensure ((s.root.trash.get trashed).all fun d => d.toml.isNone && d.tomlTmp.isNone && d.data.isNone)
    (.storage "directory not empty")
  onRoot fun root =>
    { root with db := root.db.delete name, trash := root.trash.put trashed (root.dir name) }

/-- `fs::remove_dir_all` of a directory in the trash, one entry at a time. -/
def removeDirAll (trashed : String) : Program HeatherError (Server F E) Unit := do
  let change (f : DbDir F E → DbDir F E) : Program HeatherError (Server F E) Unit :=
    onRoot fun root =>
      { root with trash := root.trash.put trashed (f ((root.trash.get trashed).getD ⟨none, none, none⟩)) }
  step
  change fun d => { d with data := none }
  step
  change fun d => { d with toml := none, tomlTmp := none }
  step
  onRoot fun root => { root with trash := root.trash.delete trashed }

/-- The attempts to rename, and the purge after the first that succeeds. -/
def moveToTrash (name trashed : String) (purge : Bool) : ℕ → HeatherError → Program HeatherError (Server F E) Bool
  | 0, last => fail last
  | n + 1, _ => do
    match ← attempt (renameToTrash name trashed) with
    | .ok () => if purge then removeDirAll trashed >>= fun _ => pure true else pure true
    | .error e => moveToTrash name trashed purge n e

def dropDatabaseWith (name : String) (purge : Bool) (now : ℕ) : Program HeatherError (Server F E) Bool :=
  if name = defaultDb then
    fail (.invalidInput "cannot drop the default database (rename or restart with empty data dir)")
  else do
    let s ← get
    match s.inner.get name with
    | none => pure false
    | some _ => do
      modify fun s => { s with inner := s.inner.delete name }
      match s.root.db.get name with
      | none => pure true
      | some _ => do
        step  -- create_dir_all of _trash/
        moveToTrash name s!"{name}-{now}" purge 40 (.storage "loop runs at least once")

/-! ### What the calls did when they returned -/

variable {b : Backend F E} {s s' : Server F E} {cfg : DbConfig F} {dir name : String} {u : Unit}

theorem createDir_gives (h : Gives (createDir dir) s u s') :
    s' = { s with root := DataDir.createDir dir s.root } :=
  h.step_bind.modify

/-- `db.toml` after a save. -/
def saved (cfg : DbConfig F) (dir : String) (root : DataDir F E) : DataDir F E :=
  DataDir.renameTmp dir (DataDir.writeTmp cfg dir root)

theorem save_gives (h : Gives (save b dir cfg) s u s') :
    b.encodes cfg = true ∧ s' = { s with root := saved cfg dir s.root } := by
  obtain ⟨hencodes, h⟩ := h.ensure_bind
  obtain ⟨_, _, hwrite, h⟩ := h.bind
  obtain rfl := hwrite.step_bind.modify
  obtain ⟨-, h⟩ := h.step_bind.get_bind.ensure_bind
  exact ⟨hencodes, h.modify⟩

theorem openEnv_gives {env : String} {mapSizeMb : ℕ} (h : Gives (openEnv b env mapSizeMb) s u s') :
    s.Sharable env mapSizeMb ∧ b.opens mapSizeMb ((s.root.dir env).data.getD b.fresh) = true ∧
      s' = { s with root := DataDir.makeEnv b.fresh env s.root } := by
  obtain ⟨hshare, h⟩ := h.step_bind.get_bind.ensure_bind
  obtain ⟨hopens, h⟩ := h.ensure_bind
  exact ⟨hshare, hopens, h.modify⟩

/-- The directory and the environment that a configuration names. -/
def opened (b : Backend F E) (dir : String) (root : DataDir F E) : DataDir F E :=
  DataDir.makeEnv b.fresh dir (DataDir.createDir dir root)

/-- A hive can be opened: its parameters are valid, no one has the environment
open in another way, and LMDB opens it. -/
structure Opens [Scalar F] (b : Backend F E) (s : Server F E) (cfg : DbConfig F) : Prop where
  valid : cfg.eam.validate = .ok ()
  sharable : s.Sharable cfg.name cfg.mapSizeMb
  opens : b.opens cfg.mapSizeMb ((s.root.dir cfg.name).data.getD b.fresh) = true

theorem openHiveFor_gives [Scalar F] {mounted : Mounted F} (h : Gives (openHiveFor b cfg) s mounted s') :
    mounted = ⟨cfg, cfg.name⟩ ∧ Opens b s cfg ∧ s' = { s with root := opened b cfg.name s.root } := by
  obtain ⟨_, s₁, hdir, h⟩ := h.bind
  obtain rfl := createDir_gives hdir
  obtain ⟨_, hvalid, h⟩ := h.ofExcept_bind
  obtain ⟨_, s₂, henv, h⟩ := h.step_bind.bind
  obtain ⟨hshare, hopens, rfl⟩ := openEnv_gives henv
  obtain ⟨rfl, rfl⟩ := h.step_bind.step_bind.pure
  exact ⟨rfl, ⟨hvalid, hshare, by simpa [DataDir.createDir] using hopens⟩, rfl⟩

theorem refuseMounted_gives (h : Gives (refuseMounted name) s u s') : s.inner.get name = none ∧ s' = s := by
  obtain ⟨hnone, hs⟩ := h.get_bind.ensure
  exact ⟨Option.isNone_iff_eq_none.mp hnone, hs⟩

theorem createDatabase_gives [Scalar F] {mounted : Mounted F} (h : Gives (createDatabase b cfg) s mounted s') :
    validateDbName cfg.name = .ok () ∧ s.inner.get cfg.name = none ∧ b.encodes cfg = true ∧
      mounted = ⟨cfg, cfg.name⟩ ∧
      Opens b { s with root := saved cfg cfg.name (DataDir.createDir cfg.name s.root) } cfg ∧
      s' = { s with
        root := opened b cfg.name (saved cfg cfg.name (DataDir.createDir cfg.name s.root))
        inner := s.inner.put cfg.name mounted } := by
  obtain ⟨_, hname, h⟩ := h.ofExcept_bind
  obtain ⟨_, -, h⟩ := h.ofExcept_bind
  obtain ⟨_, s₁, hcheck, hrest⟩ := h.bind
  obtain ⟨hnone, hs⟩ := refuseMounted_gives hcheck
  rw [hs] at hrest
  obtain ⟨_, s₂, hdir, hrest⟩ := hrest.bind
  rw [createDir_gives hdir] at hrest
  obtain ⟨_, s₃, hsave, hrest⟩ := hrest.bind
  obtain ⟨hencodes, hs⟩ := save_gives hsave
  rw [hs] at hrest
  obtain ⟨_, s₄, hopen, hrest⟩ := hrest.bind
  obtain ⟨hmounted, hopens, hs⟩ := openHiveFor_gives hopen
  rw [hs, hmounted] at hrest
  obtain ⟨_, s₅, hinsert, hrest⟩ := hrest.bind
  obtain ⟨_, s₆, hcheck, hinsert⟩ := hinsert.bind
  obtain ⟨-, hs⟩ := refuseMounted_gives hcheck
  rw [hs] at hinsert
  obtain ⟨rfl, hs⟩ := hrest.pure
  rw [hinsert.modify] at hs
  exact ⟨hname, hnone, hencodes, rfl, hopens, hs⟩

/-! ### What a boot mounted -/

/-- The configuration as the mount loop leaves it. -/
def upgraded (cfg : DbConfig F) : DbConfig F :=
  if cfg.formatVersion < currentFormat then { cfg with formatVersion := currentFormat } else cfg

@[simp] theorem name_upgraded (cfg : DbConfig F) : (upgraded cfg).name = cfg.name := by
  unfold upgraded
  split_ifs <;> rfl

@[simp] theorem mapSizeMb_upgraded (cfg : DbConfig F) : (upgraded cfg).mapSizeMb = cfg.mapSizeMb := by
  unfold upgraded
  split_ifs <;> rfl

/-- What a directory holds that the mount loop mounts: it is no hidden one,
and its `db.toml` is of a readable format. -/
def live (root : DataDir F E) (name : String) : Option (DbConfig F) :=
  if name.startsWith "_" then none
  else (root.dir name).toml.filter fun cfg => decide (cfg.formatVersion ≤ currentFormat)

/-- Why the mount loop refuses a directory, if it does. -/
def refusedAt (root : DataDir F E) (name : String) : Option String :=
  if name.startsWith "_" then none
  else ((root.dir name).toml.filter fun cfg => decide (currentFormat < cfg.formatVersion)).map fun cfg =>
    refusal name cfg.formatVersion

/-- The directory with its configuration upgraded. -/
def renewed (name : String) (cfg : DbConfig F) (root : DataDir F E) : DataDir F E :=
  if cfg.formatVersion < currentFormat then saved (upgraded cfg) name root else root

/-- One turn of the mount loop that returns. -/
def mountedBy (b : Backend F E) (name : String) (s : Server F E) : Server F E :=
  match live s.root name with
  | some cfg =>
    { s with
      root := opened b cfg.name (renewed name cfg s.root)
      inner := s.inner.put name ⟨upgraded cfg, cfg.name⟩ }
  | none =>
    match refusedAt s.root name with
    | some reason => { s with refused := s.refused.put name reason }
    | none => s

/-- A turn of the mount loop can return. -/
def Mountable [Scalar F] (b : Backend F E) (s : Server F E) (name : String) : Prop :=
  ∀ cfg, live s.root name = some cfg →
    (cfg.formatVersion < currentFormat → b.encodes (upgraded cfg) = true) ∧
      Opens b { s with root := renewed name cfg s.root } (upgraded cfg)

theorem upgrade_gives {cfg' : DbConfig F} (h : Gives (upgrade b dir cfg) s cfg' s') :
    cfg' = upgraded cfg ∧ (cfg.formatVersion < currentFormat → b.encodes (upgraded cfg) = true) ∧
      s' = { s with root := renewed dir cfg s.root } := by
  unfold upgrade at h
  unfold renewed upgraded
  split_ifs at h ⊢ with hold
  · obtain ⟨_, _, hsave, h⟩ := h.bind
    obtain ⟨hencodes, hs⟩ := save_gives hsave
    obtain ⟨rfl, hs'⟩ := h.pure
    exact ⟨rfl, fun _ => hencodes, hs'.trans hs⟩
  · obtain ⟨rfl, hs⟩ := h.pure
    exact ⟨rfl, fun hlt => absurd hlt hold, hs⟩

theorem mountOne_gives [Scalar F] (h : Gives (mountOne b name) s () s') :
    Mountable b s name ∧ s' = mountedBy b name s := by
  have h := h.get_bind
  unfold Mountable mountedBy live refusedAt
  split_ifs at h ⊢ with hhidden
  · exact ⟨fun _ h => by simp at h, h.pure.2⟩
  · cases htoml : (s.root.dir name).toml with
    | none =>
      simp only [htoml] at h
      exact ⟨fun _ h => by simp at h, by simpa using h.pure.2⟩
    | some cfg =>
      simp only [htoml] at h
      have h := h.step_bind
      split_ifs at h with hnew
      · have hle : ¬cfg.formatVersion ≤ currentFormat := not_le.mpr hnew
        exact ⟨fun _ hlive => by simp [Option.filter_some, hle] at hlive,
          by simpa [Option.filter_some, hle, hnew] using h.modify⟩
      · have hle : cfg.formatVersion ≤ currentFormat := not_lt.mp hnew
        obtain ⟨_, s₁, hupgrade, hrest⟩ := h.bind
        obtain ⟨rfl, hencodes, hs₁⟩ := upgrade_gives hupgrade
        obtain ⟨_, s₂, hopen, hlast⟩ := hrest.bind
        obtain ⟨rfl, hopens, hs₂⟩ := openHiveFor_gives hopen
        subst hs₁
        refine ⟨fun cfg' hlive => ?_, ?_⟩
        · obtain rfl : cfg = cfg' := by simpa [Option.filter_some, hle] using hlive
          exact ⟨hencodes, hopens⟩
        · rw [hlast.modify, hs₂]
          simp [Option.filter_some, hle]

/-! ### The files the mount loop leaves -/

@[simp] theorem toml_opened (root : DataDir F E) (other : String) :
    ((opened b dir root).dir other).toml = (root.dir other).toml := by
  simp only [opened, DataDir.makeEnv, DataDir.createDir, DataDir.dir_update]
  split_ifs <;> simp_all

@[simp] theorem data_saved (root : DataDir F E) (other : String) :
    ((saved cfg dir root).dir other).data = (root.dir other).data := by
  simp only [saved, DataDir.renameTmp, DataDir.writeTmp, DataDir.dir_update]
  split_ifs <;> simp_all

@[simp] theorem toml_saved (root : DataDir F E) (other : String) :
    ((saved cfg dir root).dir other).toml = if other = dir then some cfg else (root.dir other).toml := by
  simp only [saved, DataDir.renameTmp, DataDir.writeTmp, DataDir.dir_update]
  split_ifs <;> simp_all

/-- What an environment holds once it is opened. -/
def envAt (b : Backend F E) (root : DataDir F E) (env : String) : E := ((root.dir env).data).getD b.fresh

@[simp] theorem envAt_opened (root : DataDir F E) (env : String) :
    envAt b (opened b dir root) env = envAt b root env := by
  simp only [envAt, opened, DataDir.makeEnv, DataDir.createDir, DataDir.dir_update]
  split_ifs <;> simp_all

@[simp] theorem envAt_saved (root : DataDir F E) (env : String) :
    envAt b (saved cfg dir root) env = envAt b root env := by
  simp [envAt]

@[simp] theorem envAt_renewed (root : DataDir F E) (env : String) :
    envAt b (renewed dir cfg root) env = envAt b root env := by
  unfold renewed
  split_ifs <;> simp

theorem toml_renewed (root : DataDir F E) {other : String} (h : (root.dir dir).toml = some cfg) :
    ((renewed dir cfg root).dir other).toml = if other = dir then some (upgraded cfg) else (root.dir other).toml := by
  unfold renewed
  split_ifs with hold hother hother
  · rw [toml_saved, if_pos hother]
  · rw [toml_saved, if_neg hother]
  · rw [hother, h, upgraded, if_neg hold]
  · rfl

/-- What is mounted for a directory. -/
def mountedOf (root : DataDir F E) (name : String) : Option (Mounted F) :=
  (live root name).map fun cfg => ⟨upgraded cfg, cfg.name⟩

theorem toml_of_live (root : DataDir F E) (h : live root name = some cfg) : (root.dir name).toml = some cfg := by
  unfold live at h
  split_ifs at h
  exact (Option.filter_eq_some_iff.mp h).1

/-- A turn changes the `db.toml` of its own directory alone. -/
theorem toml_mountedBy (other : String) :
    ((mountedBy b name s).root.dir other).toml =
      if other = name then ((live s.root name).map upgraded).or (s.root.dir name).toml else
        (s.root.dir other).toml := by
  unfold mountedBy
  cases hlive : live s.root name with
  | none =>
    have hsame : ((s.root.dir other).toml) =
        if other = name then (s.root.dir name).toml else (s.root.dir other).toml := by
      split_ifs with h
      · rw [h]
      · rfl
    cases refusedAt s.root name <;> simpa using hsame
  | some cfg => simp [toml_renewed s.root (toml_of_live s.root hlive)]

theorem envAt_mountedBy (env : String) : envAt b (mountedBy b name s).root env = envAt b s.root env := by
  unfold mountedBy
  split
  · simp
  · split <;> rfl

theorem live_mountedBy {other : String} (h : other ≠ name) :
    live (mountedBy b name s).root other = live s.root other := by
  simp [live, toml_mountedBy, h]

theorem refusedAt_mountedBy {other : String} (h : other ≠ name) :
    refusedAt (mountedBy b name s).root other = refusedAt s.root other := by
  simp [refusedAt, toml_mountedBy, h]

theorem inner_mountedBy (other : String) :
    (mountedBy b name s).inner.get other =
      if other = name then (mountedOf s.root name).or (s.inner.get name) else s.inner.get other := by
  unfold mountedBy mountedOf
  cases live s.root name with
  | none =>
    cases refusedAt s.root name <;> simp only [Option.map_none, Option.none_or] <;> split_ifs with h <;> simp [h]
  | some cfg =>
    simp only [get_put, Option.map_some, Option.some_or]

/-- What is mounted is not refused. -/
theorem refusedAt_of_live {root : DataDir F E} (h : live root name = some cfg) : refusedAt root name = none := by
  unfold live at h
  unfold refusedAt
  split_ifs at h ⊢
  obtain ⟨htoml, hle⟩ := Option.filter_eq_some_iff.mp h
  have hle : cfg.formatVersion ≤ currentFormat := of_decide_eq_true hle
  simp [htoml, Option.filter_some, not_lt.mpr hle]

theorem refused_mountedBy (other : String) :
    (mountedBy b name s).refused.get other =
      if other = name then (refusedAt s.root name).or (s.refused.get name) else s.refused.get other := by
  unfold mountedBy
  cases hlive : live s.root name with
  | none =>
    cases refusedAt s.root name with
    | none =>
      rw [Option.none_or]
      split_ifs with h <;> simp [h]
    | some reason => simp [get_put]
  | some cfg =>
    rw [refusedAt_of_live hlive, Option.none_or]
    split_ifs with h <;> simp [h]

/-- The turns of the mount loop. -/
def mountedAll (b : Backend F E) (names : List String) (s : Server F E) : Server F E :=
  names.foldl (fun s name => mountedBy b name s) s

theorem inner_mountedAll (other : String) {names : List String} (hnodup : names.Nodup) :
    (mountedAll b names s).inner.get other =
      if other ∈ names then (mountedOf s.root other).or (s.inner.get other) else s.inner.get other := by
  induction names generalizing s with
  | nil => rfl
  | cons name names ih =>
    obtain ⟨hnot, hnodup⟩ := List.nodup_cons.mp hnodup
    show (mountedAll b names (mountedBy b name s)).inner.get other = _
    rw [ih hnodup, inner_mountedBy]
    by_cases hname : other = name
    · subst hname
      simp [hnot]
    · simp [hname, mountedOf, live_mountedBy hname]

theorem refused_mountedAll (other : String) {names : List String} (hnodup : names.Nodup) :
    (mountedAll b names s).refused.get other =
      if other ∈ names then (refusedAt s.root other).or (s.refused.get other) else s.refused.get other := by
  induction names generalizing s with
  | nil => rfl
  | cons name names ih =>
    obtain ⟨hnot, hnodup⟩ := List.nodup_cons.mp hnodup
    show (mountedAll b names (mountedBy b name s)).refused.get other = _
    rw [ih hnodup, refused_mountedBy]
    by_cases hname : other = name
    · subst hname
      simp [hnot]
    · simp [hname, refusedAt_mountedBy hname]

theorem toml_mountedAll (other : String) {names : List String} (hnodup : names.Nodup) :
    ((mountedAll b names s).root.dir other).toml =
      if other ∈ names then ((live s.root other).map upgraded).or (s.root.dir other).toml
      else (s.root.dir other).toml := by
  induction names generalizing s with
  | nil => rfl
  | cons name names ih =>
    obtain ⟨hnot, hnodup⟩ := List.nodup_cons.mp hnodup
    show ((mountedAll b names (mountedBy b name s)).root.dir other).toml = _
    rw [ih hnodup, toml_mountedBy]
    by_cases hname : other = name
    · subst hname
      simp [hnot]
    · simp [hname, live_mountedBy hname]

/-- A directory that is not there is not mounted. -/
theorem mem_keys_of_live {root : DataDir F E} (h : live root name = some cfg) : name ∈ root.db.keys := by
  have htoml := toml_of_live root h
  rw [mem_keys_iff]
  cases hdir : root.db.get name with
  | none => simp [DataDir.dir, hdir] at htoml
  | some d => rfl

/-- The directory with the tag of its layout. -/
def tagged (root : DataDir F E) : DataDir F E := { root with layout := some supportedLayout }

theorem checkLayout_gives (h : Gives (checkLayout : Program HeatherError (Server F E) Unit) s u s') :
    s.root.layout.all (· = supportedLayout) = true ∧ s' = { s with root := tagged s.root } := by
  have h := h.get_bind.step_bind
  obtain ⟨⟨layout, db, trash⟩, inner, refused⟩ := s
  cases layout with
  | none => exact ⟨rfl, h.modify⟩
  | some layout =>
    obtain ⟨rfl, hs⟩ := h.ensure
    exact ⟨by simp, hs⟩

theorem ensureDefault_gives [Scalar F] {dimension l0 mapSizeMb now : ℕ}
    (h : Gives (ensureDefault b dimension l0 mapSizeMb now) s u s') :
    s' = s ∧ ¬(s.inner.get defaultDb = none ∧ s.refused.get defaultDb = none) ∨
      s.inner.get defaultDb = none ∧ s.refused.get defaultDb = none ∧
        ∃ cfg mounted, defaultConfig dimension l0 mapSizeMb now = .ok cfg ∧
          Gives (createDatabase b cfg) s mounted s' := by
  have h := h.get_bind
  split_ifs at h with hneeded
  · simp only [Option.isNone_iff_eq_none] at hneeded
    obtain ⟨cfg, hcfg, h⟩ := h.ofExcept_bind
    obtain ⟨mounted, s₁, hcreate, hlast⟩ := h.bind
    obtain ⟨-, rfl⟩ := hlast.pure
    exact .inr ⟨hneeded.1, hneeded.2, cfg, mounted, hcfg, hcreate⟩
  · simp only [Option.isNone_iff_eq_none] at hneeded
    exact .inl ⟨h.pure.2, hneeded⟩

/-- The server after the mount loop. -/
def looped (b : Backend F E) (root : DataDir F E) : Server F E :=
  mountedAll b root.db.keys ⟨tagged root, .empty, .empty⟩

theorem inner_looped (root : DataDir F E) (name : String) : (looped b root).inner.get name = mountedOf root name := by
  rw [looped, inner_mountedAll name root.db.keys_nodup]
  show (if name ∈ root.db.keys then (mountedOf root name).or _ else _) = _
  split_ifs with hmem
  · simp
  · cases hlive : live root name with
    | none => simp [mountedOf, hlive]
    | some cfg => exact absurd (mem_keys_of_live hlive) hmem

theorem toml_looped (root : DataDir F E) (name : String) :
    ((looped b root).root.dir name).toml = ((live root name).map upgraded).or (root.dir name).toml := by
  rw [looped, toml_mountedAll name root.db.keys_nodup]
  show (if name ∈ root.db.keys then ((live root name).map upgraded).or (root.dir name).toml else
    (root.dir name).toml) = _
  split_ifs with hmem
  · rfl
  · cases hlive : live root name with
    | none => rfl
    | some cfg => exact absurd (mem_keys_of_live hlive) hmem

/-- **What a server that opened has mounted.** -/
theorem openWith_gives [Scalar F] {root : DataDir F E} {dimension l0 mapSizeMb now : ℕ}
    (h : Gives (openWith b dimension l0 mapSizeMb now) ⟨root, .empty, .empty⟩ u s') :
    root.layout.all (· = supportedLayout) = true ∧
      Along (Mountable b) (mountedBy b) root.db.keys ⟨tagged root, .empty, .empty⟩ ∧
      Gives (ensureDefault b dimension l0 mapSizeMb now) (looped b root) () s' := by
  obtain ⟨_, s₁, hlayout, h⟩ := h.step_bind.step_bind.bind
  obtain ⟨htag, hs₁⟩ := checkLayout_gives hlayout
  rw [hs₁] at h
  obtain ⟨_, s₂, hloop, hlast⟩ := h.step_bind.step_bind.get_bind.bind
  obtain ⟨halong, hs₂⟩ := Gives.forM mountOne_gives hloop
  rw [hs₂] at hlast
  exact ⟨htag, halong, hlast⟩

/-- What every default configuration has. -/
theorem of_defaultConfig [Scalar F] {dimension l0 mapSizeMb now : ℕ}
    (h : defaultConfig dimension l0 mapSizeMb now = .ok cfg) :
    cfg.name = defaultDb ∧ cfg.formatVersion = currentFormat ∧ cfg.eam.validate = .ok () := by
  unfold defaultConfig DbConfig.new at h
  cases hnew : (EAMConfig.new dimension : Except HeatherError (EAMConfig F)) with
  | error e => simp [hnew, bind, Except.bind] at h
  | ok eam =>
    simp only [hnew, bind, Except.bind, pure, Except.pure] at h
    split at h
    · simp at h
    · rename_i hvalid
      rw [← Except.ok.inj h]
      exact ⟨rfl, rfl, hvalid⟩

/-- What is mounted for each name. -/
theorem database_openWith [Scalar F] {root : DataDir F E} {dimension l0 mapSizeMb now : ℕ}
    (h : Gives (openWith b dimension l0 mapSizeMb now) ⟨root, .empty, .empty⟩ u s') (name : String) :
    (∃ mounted, mountedOf root name = some mounted ∧ s'.database name = some mounted) ∨
      mountedOf root name = none ∧ ∀ mounted, s'.database name = some mounted →
        name = defaultDb ∧ mounted.env = defaultDb := by
  obtain ⟨-, -, hdefault⟩ := openWith_gives h
  have hinner := inner_looped (b := b) root name
  rcases ensureDefault_gives hdefault with ⟨rfl, -⟩ | ⟨hnone, -, cfg, mounted, hcfg, hcreate⟩
  · cases hm : mountedOf root name with
    | none => exact .inr ⟨rfl, fun mounted hd => by simp [database, hinner, hm] at hd⟩
    | some mounted => exact .inl ⟨mounted, rfl, hinner.trans hm⟩
  · obtain ⟨-, -, -, rfl, -, rfl⟩ := createDatabase_gives hcreate
    obtain ⟨hname, -⟩ := of_defaultConfig hcfg
    rw [hname] at hcreate ⊢
    by_cases hn : name = defaultDb
    · subst hn
      exact .inr ⟨hinner ▸ hnone, fun mounted hd => by
        simp only [database, get_put_self, Option.some.injEq] at hd
        exact ⟨rfl, hd ▸ rfl⟩⟩
    · have hother : ((looped b root).inner.put defaultDb ⟨cfg, defaultDb⟩).get name = mountedOf root name :=
        (get_put_of_ne _ _ hn).trans hinner
      cases hm : mountedOf root name with
      | none => exact .inr ⟨rfl, fun mounted hd => by simp [database, hother, hm] at hd⟩
      | some mounted => exact .inl ⟨mounted, rfl, hother.trans hm⟩

end Server

end HeatherDb
