/-
# Snapshots, backups and restores

`backup.rs` of the server, and the life of a data directory: a server opens
it, creates and drops databases, and stops; the tools beside it take
snapshots at any time, and back up and restore while no server runs.

A snapshot is one database's `db.toml` and environment. It is restored under
the name inside its `db.toml`, or under another one: `restore --db` copies
that `db.toml` as it is into the directory of the other name. An archive keeps
directories by name, and `--db` picks one of them.

Key definitions: `Site`, `doSnapshot`, `doBackup`, `doRestore`,
`doRestoreArchive`, `SiteEvent`, `Site.step`.
-/
import HeatherDb.Exact
import HeatherDb.Lib.Runs
import HeatherDb.Server

namespace HeatherDb

open Program OrderedTable

/-- What a server that runs has in memory. -/
structure Mounts (F : Type) where
  inner : OrderedTable String (Mounted F)
  refused : OrderedTable String String

/-- A data directory with the server on it, if one runs, and what the tools
have put elsewhere, by path. -/
structure Site (F E : Type) where
  root : DataDir F E
  server : Option (Mounts F)
  snapshots : OrderedTable String (DbDir F E)
  archives : OrderedTable String (OrderedTable String (DbDir F E))

variable {F E : Type} [Scalar F]

/-! ### The tools -/

/-- A change of the data directory. -/
def changeRoot (f : DataDir F E → DataDir F E) : Program HeatherError (Site F E) Unit :=
  modify fun site => { site with root := f site.root }

/-- Fails while a server holds the engine lock. -/
def refuseIfEngineRunning : Program HeatherError (Site F E) Unit := do
  let site ← get
  ensure site.server.isNone (.storage "an engine is running on this data dir (engine.lock is held)")

/-- `do_snapshot`: the environment is copied first, then its `db.toml`. -/
def doSnapshot (db output : String) : Program HeatherError (Site F E) Unit := do
  let site ← get
  match (site.root.dir db).data, (site.root.dir db).toml with
  | some data, some toml => do
    ensure (site.snapshots.get output).isNone (.storage s!"output already exists: {output}")
    step  -- create_dir_all
    modify fun site => { site with snapshots := site.snapshots.put output ⟨none, none, none⟩ }
    step  -- open the environment
    step  -- copy_to_file
    modify fun site => { site with snapshots := site.snapshots.put output ⟨none, none, some data⟩ }
    step  -- copy db.toml
    modify fun site => { site with snapshots := site.snapshots.put output ⟨some toml, none, some data⟩ }
  | _, _ => fail (.storage s!"database not found: {db}")

/-- `do_backup`: the directories of all databases, or of one. -/
def doBackup (output : String) (db : Option String) : Program HeatherError (Site F E) Unit := do
  refuseIfEngineRunning
  step  -- File::create
  let site ← get
  match db with
  | none => do
    step
    modify fun site => { site with archives := site.archives.put output site.root.db }
  | some name => do
    ofExcept (validateDbName name)
    ensure (site.root.db.get name).isSome (.storage s!"database not found: {name}")
    step
    modify fun site => { site with archives := site.archives.put output (empty.put name (site.root.dir name)) }

/-- `do_restore` of a snapshot directory. -/
def doRestore (input : String) (onlyDb : Option String) : Program HeatherError (Site F E) Unit := do
  refuseIfEngineRunning
  ofExcept (onlyDb.elim (.ok ()) validateDbName)
  step  -- create_dir_all of the data directory
  let site ← get
  match site.snapshots.get input with
  | some ⟨some toml, _, some data⟩ => do
    step  -- read db.toml
    let name := onlyDb.getD toml.name
    ofExcept (validateDbName name)
    step  -- create_dir_all of db/
    ensure (site.root.db.get name).isNone (.storage s!"target already exists: {name} (move it aside first)")
    step
    changeRoot (DataDir.createDir name)
    step  -- copy db.toml
    changeRoot (DataDir.update (fun d => { d with toml := some toml }) name)
    step  -- copy data/
    changeRoot (DataDir.update (fun d => { d with data := some data }) name)
  | _ => fail (.storage s!"{input}: not a snapshot directory (missing db.toml or data/)")

/-- The entries of one archived directory, unpacked over what is there. -/
def unpack (name : String) (archived : DbDir F E) : Program HeatherError (Site F E) Unit := do
  step
  changeRoot (DataDir.update (fun d => { d with toml := archived.toml.or d.toml }) name)
  step
  changeRoot (DataDir.update (fun d => { d with tomlTmp := archived.tomlTmp.or d.tomlTmp }) name)
  step
  changeRoot (DataDir.update (fun d => { d with data := archived.data.or d.data }) name)

/-- `do_restore` of an archive. -/
def doRestoreArchive (input : String) (onlyDb : Option String) : Program HeatherError (Site F E) Unit := do
  refuseIfEngineRunning
  ofExcept (onlyDb.elim (.ok ()) validateDbName)
  step  -- create_dir_all of the data directory
  let site ← get
  match site.archives.get input with
  | some archive =>
    (archive.entries.filter fun e => onlyDb.all (· = e.1)).forM fun e => unpack e.1 e.2
  | none => fail (.storage s!"open {input}")

/-! ### The life of a data directory -/

/-- A committed write of the hive mounted under a name. -/
def Server.writeData (name : String) (data : E) : Program HeatherError (Server F E) Unit := do
  let s ← get
  match s.database name with
  | none => pure ()
  | some mounted => do
    step
    Server.onRoot (DataDir.update (fun d => { d with data := some data }) mounted.env)

inductive SiteEvent (F E : Type) where
  /-- `Server::open_with` -/
  | start (dimension l0 mapSizeMb now : ℕ)
  | stop
  | create (cfg : DbConfig F)
  | drop (name : String) (purge : Bool) (now : ℕ)
  | write (name : String) (data : E)
  | snapshot (db output : String)
  | backup (output : String) (db : Option String)
  | restore (input : String) (onlyDb : Option String)
  | restoreArchive (input : String) (onlyDb : Option String)

namespace Site

/-- A new data directory. -/
def fresh : Site F E := ⟨.fresh, none, .empty, .empty⟩

/-- The server that runs. -/
def running (site : Site F E) : Option (Server F E) :=
  site.server.map fun mounts => ⟨site.root, mounts.inner, mounts.refused⟩

/-- A call of the server that runs. -/
def call {α : Type} (site : Site F E) (m : Program HeatherError (Server F E) α)
    (faults : List (Option HeatherError)) : Site F E :=
  match site.running with
  | none => site
  | some s =>
    let s' := (m ⟨s, faults⟩).2.state
    { site with root := s'.root, server := some ⟨s'.inner, s'.refused⟩ }

/-- One event, with the plan of its faults. A second server finds the engine
lock held, and a start that fails leaves no server. -/
def step (b : Backend F E) (site : Site F E) : SiteEvent F E × List (Option HeatherError) → Site F E
  | (.start dimension l0 mapSizeMb now, faults) =>
    match site.server with
    | some _ => site
    | none =>
      let (r, w) := Server.openWith b dimension l0 mapSizeMb now ⟨⟨site.root, .empty, .empty⟩, faults⟩
      { site with
        root := w.state.root
        server := r.toOption.map fun _ => ⟨w.state.inner, w.state.refused⟩ }
  | (.stop, _) => { site with server := none }
  | (.create cfg, faults) => site.call (Server.createDatabase b cfg) faults
  | (.drop name purge now, faults) => site.call (Server.dropDatabaseWith name purge now) faults
  | (.write name data, faults) => site.call (Server.writeData name data) faults
  | (.snapshot db output, faults) => (doSnapshot db output ⟨site, faults⟩).2.state
  | (.backup output db, faults) => (doBackup output db ⟨site, faults⟩).2.state
  | (.restore input onlyDb, faults) => (doRestore input onlyDb ⟨site, faults⟩).2.state
  | (.restoreArchive input onlyDb, faults) => (doRestoreArchive input onlyDb ⟨site, faults⟩).2.state

/-- Events one after another. -/
abbrev Steps (b : Backend F E) (site : Site F E) (events : List (SiteEvent F E × List (Option HeatherError)))
    (site' : Site F E) : Prop :=
  Run (fun site event site' => step b site event = site') site events site'

end Site

/-! ### One to evaluate on -/

/-- A database of the small configuration. -/
def smallDb (name : String) (mapSizeMb : ℕ) : DbConfig ℚ :=
  ⟨name, 0, smallConfig true, mapSizeMb, currentFormat, .standard⟩

/-- Environments hold a number, 0 when new, and address less than a terabyte. -/
def smallBackend : Backend ℚ ℕ := ⟨fun _ => true, 0, fun mapSizeMb _ => mapSizeMb < 2 ^ 20⟩

end HeatherDb
