/-
# No two databases on one environment

A hive serves the environment of the directory that its `db.toml` names, so
each name has its own environment exactly when every mounted directory's
`db.toml` names that directory (`separate_openWith_iff`). Creating, dropping,
backing up and restoring keep it so (`named_step`), except a snapshot restored
under another name than its own.

Key definitions: `Server.Separate`, `DataDir.Named`, `Site.KeepsName`.
Key theorems: `separate_openWith_iff`, `named_step`, `databases_separate_iff`.
-/
import HeatherDb.Backup

namespace HeatherDb

open Program OrderedTable

variable {F E : Type}

/-! ### One server -/

/-- Every mounted name serves the environment of its own directory, no two the
same one, and what is in a name's directory is what it reads. -/
structure Server.Separate (s : Server F E) : Prop where
  own : ∀ name mounted, s.database name = some mounted → mounted.env = name
  apart : ∀ name name' mounted mounted', s.database name = some mounted → s.database name' = some mounted' →
    mounted.env = mounted'.env → name = name'
  reads : ∀ name mounted, s.database name = some mounted → s.reads name = (s.root.dir name).data

namespace Server

variable {b : Backend F E} {s s' : Server F E}

/-- The first part gives the others. -/
theorem separate_of_own (own : ∀ name mounted, s.database name = some mounted → mounted.env = name) :
    Separate s where
  own := own
  apart := fun name name' mounted mounted' h h' henv => by
    calc name = mounted.env := (own name mounted h).symm
      _ = mounted'.env := henv
      _ = name' := own name' mounted' h'
  reads := fun name mounted h => by
    have henv := own name mounted h
    simp only [Server.reads, h, Option.bind_eq_bind, Option.bind_some, henv]

/-- **A server that opened has its databases apart exactly when each mounted
directory's `db.toml` names it.** -/
theorem separate_openWith_iff [Scalar F] {root : DataDir F E} {dimension l0 mapSizeMb now : ℕ} {u : Unit}
    (h : Gives (openWith b dimension l0 mapSizeMb now) ⟨root, .empty, .empty⟩ u s') :
    Separate s' ↔ ∀ name cfg, live root name = some cfg → cfg.name = name := by
  constructor
  · intro hseparate name cfg hlive
    rcases database_openWith h name with ⟨mounted, hm, hd⟩ | ⟨hnone, -⟩
    · have henv := hseparate.own name mounted hd
      obtain ⟨cfg', hlive', rfl⟩ := Option.map_eq_some_iff.mp hm
      obtain rfl := Option.some.inj (hlive.symm.trans hlive')
      exact henv
    · simp [mountedOf, hlive] at hnone
  · intro hnamed
    refine separate_of_own fun name mounted hd => ?_
    rcases database_openWith h name with ⟨mounted', hm, hd'⟩ | ⟨-, hdefault⟩
    · obtain rfl := Option.some.inj (hd.symm.trans hd')
      obtain ⟨cfg, hlive, rfl⟩ := Option.map_eq_some_iff.mp hm
      exact hnamed name cfg hlive
    · obtain ⟨rfl, henv⟩ := hdefault mounted hd
      exact henv

end Server

/-! ### Directories that name themselves -/

/-- What a directory says of its name is its name. -/
def DbDir.Named (name : String) (d : DbDir F E) : Prop :=
  ∀ cfg, d.toml = some cfg ∨ d.tomlTmp = some cfg → cfg.name = name

def DataDir.Named (root : DataDir F E) : Prop := ∀ name, DbDir.Named name (root.dir name)

theorem DataDir.Named.update {root : DataDir F E} (h : root.Named) {f : DbDir F E → DbDir F E} {name : String}
    (hf : ∀ d : DbDir F E, d.Named name → (f d).Named name) : (DataDir.update f name root).Named := by
  intro other
  rw [DataDir.dir_update]
  split_ifs with hother
  · exact hother ▸ hf _ (h name)
  · exact h other

/-- The directories name themselves, and so do the mounts. -/
structure Server.Named (s : Server F E) : Prop where
  root : s.root.Named
  own : ∀ name mounted, s.database name = some mounted → mounted.env = name

namespace Server

variable {b : Backend F E} {cfg : DbConfig F} {name : String}

theorem Named.onRoot {f : DataDir F E → DataDir F E} (hf : ∀ root : DataDir F E, root.Named → (f root).Named) :
    Ensures Named (onRoot f : Program HeatherError (Server F E) Unit) fun _ => True :=
  Ensures.modify fun _ h => ⟨hf _ h.root, h.own⟩

theorem Named.createDir : Ensures Named (createDir name : Program HeatherError (Server F E) Unit) fun _ => True :=
  Ensures.step.bind fun _ _ => Named.onRoot fun _ h => h.update fun _ h => h

theorem Named.save (cfg : DbConfig F) (hname : cfg.name = name) : Ensures Named (save b name cfg) fun _ => True := by
  have hensure : ∀ {c : Prop} [Decidable c] {e : HeatherError},
      Ensures Named (ensure c e : Program HeatherError (Server F E) Unit) fun _ => c := Ensures.ensure
  refine hensure.bind fun _ _ => ?_
  refine Ensures.bind (Q := fun _ => True) (Ensures.step.bind fun _ _ => Named.onRoot fun _ h =>
    h.update ?_) fun _ _ => ?_
  · rintro d hd cfg' (h | h)
    · exact hd cfg' (.inl h)
    · exact Option.some.inj h ▸ hname
  · refine Ensures.step.bind fun _ _ => Ensures.get_bind fun _ _ => hensure.bind fun _ _ => Named.onRoot fun _ h =>
      h.update ?_
    rintro d hd cfg' (h | h)
    · exact hd cfg' (.inr h)
    · cases h

theorem Named.openEnv {env : String} {mapSizeMb : ℕ} : Ensures Named (openEnv b env mapSizeMb) fun _ => True :=
  Ensures.step.bind fun _ _ => Ensures.get_bind fun _ _ => Ensures.ensure.bind fun _ _ => Ensures.ensure.bind fun _ _ =>
    Named.onRoot fun _ h => h.update fun _ h => h

theorem Named.openHiveFor [Scalar F] : Ensures Named (openHiveFor b cfg) fun mounted => mounted.env = cfg.name :=
  Named.createDir.bind fun _ _ => Ensures.ofExcept.bind fun _ _ => Ensures.step.bind fun _ _ =>
    Named.openEnv.bind fun _ _ => Ensures.step.bind fun _ _ => Ensures.step.bind fun _ _ => Ensures.pure rfl

/-- A hive that serves its own directory may be mounted. -/
theorem Named.put {s : Server F E} (h : s.Named) {mounted : Mounted F} (henv : mounted.env = name) :
    Named { s with inner := s.inner.put name mounted } := by
  refine ⟨h.root, fun other mounted' hother => ?_⟩
  change (s.inner.put name mounted).get other = some mounted' at hother
  rw [get_put] at hother
  split_ifs at hother with hname
  · obtain rfl := Option.some.inj hother
    exact henv.trans hname.symm
  · exact h.own other mounted' hother

theorem Named.refuseMounted :
    Ensures Named (refuseMounted name : Program HeatherError (Server F E) Unit) fun _ => True :=
  Ensures.get_bind fun _ _ => Ensures.ensure.mono fun _ _ => trivial

theorem Named.createDatabase [Scalar F] : Ensures Named (createDatabase b cfg) fun _ => True := by
  refine Ensures.ofExcept.bind fun _ _ => Ensures.ofExcept.bind fun _ _ => Named.refuseMounted.bind fun _ _ => ?_
  refine Named.createDir.bind fun _ _ => (Named.save _ rfl).bind fun _ _ =>
    Named.openHiveFor.bind fun mounted henv => ?_
  refine Ensures.bind (Q := fun _ => True) ?_ fun _ _ => Ensures.pure trivial
  exact Named.refuseMounted.bind fun _ _ => Ensures.modify fun _ h => h.put henv

theorem Named.upgrade (hname : cfg.name = name) :
    Ensures Named (upgrade b name cfg) fun cfg' => cfg'.name = name := by
  unfold Server.upgrade
  split_ifs
  · exact Ensures.bind (Named.save { cfg with formatVersion := currentFormat } hname) fun _ _ =>
      Ensures.pure hname
  · exact Ensures.pure hname

theorem Named.mountOne [Scalar F] : Ensures Named (mountOne b name) fun _ => True := by
  refine Ensures.get_bind fun s hs => ?_
  split_ifs
  · exact Ensures.pure trivial
  cases htoml : (s.root.dir name).toml with
  | none => exact Ensures.pure trivial
  | some cfg =>
    have hname : cfg.name = name := hs.root name cfg (.inl htoml)
    refine Ensures.step.bind fun _ _ => ?_
    split_ifs
    · exact Ensures.modify fun _ h => ⟨h.root, h.own⟩
    · refine (Named.upgrade hname).bind fun cfg' hname' => Named.openHiveFor.bind fun mounted henv => ?_
      exact Ensures.modify fun _ h => h.put (henv.trans hname')

theorem Named.checkLayout : Ensures Named (checkLayout : Program HeatherError (Server F E) Unit) fun _ => True := by
  refine Ensures.get_bind fun s _ => Ensures.step.bind fun _ _ => ?_
  cases s.root.layout with
  | none => exact Named.onRoot fun _ h => h
  | some layout => exact Ensures.ensure.mono fun _ _ => trivial

theorem Named.ensureDefault [Scalar F] {dimension l0 mapSizeMb now : ℕ} :
    Ensures Named (ensureDefault b dimension l0 mapSizeMb now) fun _ => True := by
  refine Ensures.get_bind fun s _ => ?_
  split_ifs
  · exact Ensures.ofExcept.bind fun _ _ => Named.createDatabase.bind fun _ _ => Ensures.pure trivial
  · exact Ensures.pure trivial

theorem Named.openWith [Scalar F] (b : Backend F E) (dimension l0 mapSizeMb now : ℕ) :
    Ensures Named (Server.openWith b dimension l0 mapSizeMb now) fun _ => True := by
  refine Ensures.step.bind fun _ _ => Ensures.step.bind fun _ _ => Named.checkLayout.bind fun _ _ => ?_
  refine Ensures.step.bind fun _ _ => Ensures.step.bind fun _ _ => Ensures.get_bind fun s _ => ?_
  exact (Ensures.forM fun _ _ => Named.mountOne).bind fun _ _ => Named.ensureDefault

/-! ### Dropping -/

/-- A directory that is gone names nothing. -/
theorem dir_delete (root : DataDir F E) (name other : String) :
    ({ root with db := root.db.delete name } : DataDir F E).dir other =
      if other = name then ⟨none, none, none⟩ else root.dir other := by
  simp only [DataDir.dir, get_delete]
  split_ifs <;> rfl

theorem Named.trash {f : DataDir F E → OrderedTable String (DbDir F E)} :
    Ensures Named (Server.onRoot fun root => { root with trash := f root } : Program HeatherError (Server F E) Unit)
      fun _ => True :=
  Named.onRoot fun _ h => h

theorem Named.renameToTrash {trashed : String} :
    Ensures Named (renameToTrash name trashed : Program HeatherError (Server F E) Unit) fun _ => True := by
  refine Ensures.step.bind fun _ _ => Ensures.get_bind fun _ _ => Ensures.ensure.bind fun _ _ => ?_
  refine Named.onRoot fun root h other => ?_
  have hdir := dir_delete root name other
  change DbDir.Named other (DataDir.dir { root with db := root.db.delete name } other)
  rw [hdir]
  split_ifs
  · intro cfg hcfg
    simp at hcfg
  · exact h other

theorem Named.removeDirAll {trashed : String} :
    Ensures Named (removeDirAll trashed : Program HeatherError (Server F E) Unit) fun _ => True :=
  Ensures.step.bind fun _ _ => Named.trash.bind fun _ _ => Ensures.step.bind fun _ _ => Named.trash.bind fun _ _ =>
    Ensures.step.bind fun _ _ => Named.trash

theorem Named.moveToTrash {trashed : String} {purge : Bool} : ∀ (n : ℕ) (e : HeatherError),
    Ensures Named (moveToTrash name trashed purge n e : Program HeatherError (Server F E) Bool) fun _ => True
  | 0, _ => Ensures.fail
  | n + 1, _ => by
    refine (Named.renameToTrash.attempt).bind fun r _ => ?_
    cases r with
    | error e => exact Named.moveToTrash n e
    | ok u =>
      split_ifs
      · exact Named.removeDirAll.bind fun _ _ => Ensures.pure trivial
      · exact Ensures.pure trivial

theorem Named.unmount {s : Server F E} (h : s.Named) : Named { s with inner := s.inner.delete name } := by
  refine ⟨h.root, fun other mounted hother => ?_⟩
  change (s.inner.delete name).get other = some mounted at hother
  rw [get_delete] at hother
  split_ifs at hother
  exact h.own other mounted hother

theorem Named.dropDatabaseWith {purge : Bool} {now : ℕ} :
    Ensures Named (dropDatabaseWith name purge now : Program HeatherError (Server F E) Bool) fun _ => True := by
  unfold Server.dropDatabaseWith
  split_ifs
  · exact Ensures.fail
  refine Ensures.get_bind fun s _ => ?_
  cases s.inner.get name with
  | none => exact Ensures.pure trivial
  | some _ =>
    refine (Ensures.modify fun _ h => h.unmount).bind fun _ _ => ?_
    cases s.root.db.get name with
    | none => exact Ensures.pure trivial
    | some _ => exact Ensures.step.bind fun _ _ => Named.moveToTrash 40 _

theorem Named.writeData {data : E} :
    Ensures Named (writeData name data : Program HeatherError (Server F E) Unit) fun _ => True := by
  refine Ensures.get_bind fun s _ => ?_
  cases s.database name with
  | none => exact Ensures.pure trivial
  | some mounted => exact Ensures.step.bind fun _ _ => Named.onRoot fun _ h => h.update fun _ h => h

end Server

/-! ### A run -/

namespace Site

variable {b : Backend F E} {site : Site F E}

/-- A snapshot goes back under its own name. -/
def KeepsName (site : Site F E) : SiteEvent F E → Prop
  | .restore input onlyDb =>
    ∀ snapshot toml, site.snapshots.get input = some snapshot → snapshot.toml = some toml →
      onlyDb.getD toml.name = toml.name
  | _ => True

/-- Directories name themselves, on disk and in archives, and mounts serve
their own. -/
structure Named (site : Site F E) : Prop where
  root : site.root.Named
  own : ∀ mounts, site.server = some mounts → ∀ name mounted, mounts.inner.get name = some mounted → mounted.env = name
  archived : ∀ path archive, site.archives.get path = some archive → ∀ e ∈ archive.entries, DbDir.Named e.1 e.2

theorem Named.running {s : Server F E} (h : site.Named) (hs : site.running = some s) : s.Named := by
  obtain ⟨mounts, hmounts, rfl⟩ := Option.map_eq_some_iff.mp hs
  exact ⟨h.root, h.own mounts hmounts⟩

theorem Named.call {α : Type} {m : Program HeatherError (Server F E) α} {faults : List (Option HeatherError)}
    (h : site.Named) (hm : Ensures Server.Named m fun _ => True) : (site.call m faults).Named := by
  unfold Site.call
  cases hrun : site.running with
  | none => exact h
  | some s =>
    obtain ⟨hnamed, -⟩ := hm ⟨s, faults⟩ (h.running hrun)
    exact ⟨hnamed.root, fun mounts hmounts => Option.some.inj hmounts ▸ hnamed.own, h.archived⟩

theorem Named.changeRoot {P : Site F E → Prop} {f : DbDir F E → DbDir F E} {name : String}
    (hf : ∀ d : DbDir F E, d.Named name → (f d).Named name)
    (hP : ∀ (site : Site F E) (root : DataDir F E), P site → P { site with root := root }) :
    Ensures (fun site : Site F E => site.Named ∧ P site) (HeatherDb.changeRoot (DataDir.update f name)) fun _ => True :=
  Ensures.modify fun site h => ⟨⟨h.1.root.update hf, h.1.own, h.1.archived⟩, hP site _ h.2⟩

theorem Named.entries (h : site.root.Named) : ∀ e ∈ site.root.db.entries, DbDir.Named e.1 e.2 := by
  rintro ⟨name, d⟩ hmem
  have hdir : site.root.dir name = d := by rw [DataDir.dir, get_eq_some_iff.mpr hmem, Option.getD_some]
  exact hdir ▸ h name

theorem Named.archive {path : String} {archive : OrderedTable String (DbDir F E)} (h : site.Named)
    (harchive : ∀ e ∈ archive.entries, DbDir.Named e.1 e.2) :
    Named { site with archives := site.archives.put path archive } := by
  refine ⟨h.root, h.own, fun other archive' hother => ?_⟩
  change (site.archives.put path archive).get other = some archive' at hother
  rw [get_put] at hother
  split_ifs at hother
  · exact Option.some.inj hother ▸ harchive
  · exact h.archived other archive' hother

theorem Named.doSnapshot {db output : String} :
    Ensures Named (doSnapshot db output : Program HeatherError (Site F E) Unit) fun _ => True := by
  refine Ensures.get_bind fun site _ => ?_
  have hput : ∀ d : DbDir F E, Ensures Named
      (modify fun site => { site with snapshots := site.snapshots.put output d } : Program HeatherError (Site F E) Unit)
      fun _ => True := fun d => Ensures.modify fun _ h => ⟨h.root, h.own, h.archived⟩
  split
  · exact Ensures.ensure.bind fun _ _ => Ensures.step.bind fun _ _ => (hput _).bind fun _ _ =>
      Ensures.step.bind fun _ _ =>
      Ensures.step.bind fun _ _ => (hput _).bind fun _ _ => Ensures.step.bind fun _ _ => hput _
  · exact Ensures.fail

theorem Named.refuseIfEngineRunning {P : Site F E → Prop} :
    Ensures P (refuseIfEngineRunning : Program HeatherError (Site F E) Unit) fun _ => True :=
  Ensures.get_bind fun _ _ => Ensures.ensure.mono fun _ _ => trivial

theorem Named.doBackup {output : String} {db : Option String} :
    Ensures Named (doBackup output db : Program HeatherError (Site F E) Unit) fun _ => True := by
  refine Named.refuseIfEngineRunning.bind fun _ _ => Ensures.step.bind fun _ _ => Ensures.get_bind fun site _ => ?_
  cases db with
  | none => exact Ensures.step.bind fun _ _ => Ensures.modify fun _ h => h.archive (Named.entries h.root)
  | some name =>
    refine Ensures.ofExcept.bind fun _ _ => Ensures.ensure.bind fun _ _ => Ensures.step.bind fun _ _ => ?_
    refine Ensures.modify fun site h => h.archive fun e hmem => ?_
    obtain rfl : e = (name, site.root.dir name) := by simpa [OrderedTable.put, insertEntry, empty] using hmem
    exact h.root name

theorem Named.doRestore {input : String} {onlyDb : Option String} :
    Ensures (fun site : Site F E => site.Named ∧ site.KeepsName (.restore input onlyDb)) (doRestore input onlyDb)
      fun _ => True := by
  refine Named.refuseIfEngineRunning.bind fun _ _ => Ensures.ofExcept.bind fun _ _ => Ensures.step.bind fun _ _ => ?_
  refine Ensures.get_bind fun site hsite => ?_
  have hkeep : ∀ (site : Site F E) (root : DataDir F E), site.KeepsName (.restore input onlyDb) →
      KeepsName { site with root := root } (.restore input onlyDb) := fun _ _ h => h
  split
  · rename_i toml t data hsnapshot
    have hname := hsite.2 _ toml hsnapshot rfl
    refine Ensures.step.bind fun _ _ => Ensures.ofExcept.bind fun _ _ => Ensures.step.bind fun _ _ => ?_
    refine Ensures.ensure.bind fun _ _ => Ensures.step.bind fun _ _ => ?_
    refine (Named.changeRoot (fun _ h => h) hkeep).bind fun _ _ => Ensures.step.bind fun _ _ => ?_
    refine (Named.changeRoot (fun d h cfg hcfg => ?_) hkeep).bind fun _ _ => Ensures.step.bind fun _ _ => ?_
    · rcases hcfg with hcfg | hcfg
      · exact Option.some.inj hcfg ▸ hname.symm
      · exact h cfg (.inr hcfg)
    · exact Named.changeRoot (fun _ h => h) hkeep
  · exact Ensures.fail

/-- An archived directory goes where it was. -/
theorem Named.unpack {name : String} {archived : DbDir F E} (harchived : archived.Named name) :
    Ensures Named (unpack name archived : Program HeatherError (Site F E) Unit) fun _ => True := by
  have hchange : ∀ f : DbDir F E → DbDir F E, (∀ d : DbDir F E, d.Named name → (f d).Named name) →
      Ensures Named (HeatherDb.changeRoot (DataDir.update f name)) fun _ => True := fun f hf =>
    Ensures.modify fun site h => ⟨h.root.update hf, h.own, h.archived⟩
  refine Ensures.step.bind fun _ _ => (hchange _ fun d h cfg hcfg => ?_).bind fun _ _ => Ensures.step.bind fun _ _ => ?_
  · rcases hcfg with hcfg | hcfg
    · rcases Option.or_eq_some_iff.mp hcfg with hcfg | ⟨-, hcfg⟩
      · exact harchived cfg (.inl hcfg)
      · exact h cfg (.inl hcfg)
    · exact h cfg (.inr hcfg)
  refine (hchange _ fun d h cfg hcfg => ?_).bind fun _ _ => Ensures.step.bind fun _ _ => hchange _ fun _ h => h
  rcases hcfg with hcfg | hcfg
  · exact h cfg (.inl hcfg)
  · rcases Option.or_eq_some_iff.mp hcfg with hcfg | ⟨-, hcfg⟩
    · exact harchived cfg (.inr hcfg)
    · exact h cfg (.inr hcfg)

theorem Named.doRestoreArchive {input : String} {onlyDb : Option String} :
    Ensures Named (doRestoreArchive input onlyDb : Program HeatherError (Site F E) Unit) fun _ => True := by
  refine Named.refuseIfEngineRunning.bind fun _ _ => Ensures.ofExcept.bind fun _ _ => Ensures.step.bind fun _ _ => ?_
  refine Ensures.get_bind fun site hsite => ?_
  split
  · rename_i archive harchive
    exact Ensures.forM fun e hmem => Named.unpack (hsite.archived input archive harchive e (List.mem_filter.mp hmem).1)
  · exact Ensures.fail

theorem Named.start [Scalar F] {dimension l0 mapSizeMb now : ℕ} {faults : List (Option HeatherError)} (h : site.Named) :
    (site.step b (.start dimension l0 mapSizeMb now, faults)).Named := by
  unfold Site.step
  cases hserver : site.server with
  | some _ => exact h
  | none =>
    have hempty : Server.Named ⟨site.root, .empty, .empty⟩ := ⟨h.root, fun _ _ hd => by simp [Server.database] at hd⟩
    obtain ⟨hnamed, -⟩ := Server.Named.openWith b dimension l0 mapSizeMb now
      ⟨⟨site.root, .empty, .empty⟩, faults⟩ hempty
    refine ⟨hnamed.root, fun mounts hmounts => ?_, h.archived⟩
    obtain ⟨_, -, rfl⟩ := Option.map_eq_some_iff.mp hmounts
    exact hnamed.own

/-- **Every event keeps directories and mounts named.** -/
theorem named_step [Scalar F] {event : SiteEvent F E × List (Option HeatherError)} (h : site.Named)
    (hkeep : site.KeepsName event.1) :
    (site.step b event).Named := by
  obtain ⟨event, faults⟩ := event
  cases event with
  | start dimension l0 mapSizeMb now => exact h.start
  | stop => exact ⟨h.root, fun _ hmounts => by simp [Site.step] at hmounts, h.archived⟩
  | create cfg => exact h.call Server.Named.createDatabase
  | drop name purge now => exact h.call Server.Named.dropDatabaseWith
  | write name data => exact h.call Server.Named.writeData
  | snapshot db output => exact (Named.doSnapshot ⟨site, faults⟩ h).1
  | backup output db => exact (Named.doBackup ⟨site, faults⟩ h).1
  | restore input onlyDb => exact (Named.doRestore ⟨site, faults⟩ ⟨h, hkeep⟩).1.1
  | restoreArchive input onlyDb => exact (Named.doRestoreArchive ⟨site, faults⟩ h).1

theorem named_fresh : (fresh : Site F E).Named :=
  ⟨fun _ _ h => by simp [fresh, DataDir.fresh, DataDir.dir] at h, fun _ h => by simp [fresh] at h,
    fun _ _ h => by simp [fresh] at h⟩

/-- Events in which every snapshot goes back under its own name. -/
abbrev KeepingNames [Scalar F] (b : Backend F E) (site : Site F E) (events : List (SiteEvent F E × List (Option HeatherError)))
    (site' : Site F E) : Prop :=
  Run (fun site event site' => site.KeepsName event.1 ∧ site.step b event = site') site events site'

/-- **Databases are apart in every run whose snapshots go back under their own
names, and after any boot exactly if each `db.toml` names its directory.** -/
theorem databases_separate_iff [Scalar F] (b : Backend F E) :
    (∀ events site, KeepingNames b fresh events site → ∀ s, site.running = some s → s.Separate) ∧
      ∀ root dimension l0 mapSizeMb now s,
        Gives (Server.openWith b dimension l0 mapSizeMb now) ⟨root, .empty, .empty⟩ () s →
        (s.Separate ↔ ∀ name cfg, Server.live root name = some cfg → cfg.name = name) := by
  refine ⟨fun events site hrun s hs => ?_, fun root dimension l0 mapSizeMb now s hopen =>
    Server.separate_openWith_iff hopen⟩
  have hnamed : site.Named := hrun.invariant named_fresh fun h hstep => by
    obtain ⟨hkeep, rfl⟩ := hstep
    exact named_step h hkeep
  exact Server.separate_of_own (hnamed.running hs).own

/-- A database, a snapshot of it, and its restore under a name, with the
database dropped before or not. -/
def restoredAs (dropped : Bool) (onlyDb : Option String) : List (SiteEvent ℚ ℕ × List (Option HeatherError)) :=
  [(.start 1 0 1 0, []), (.create (smallDb "a" 1), []), (.write "a" 7, []), (.snapshot "a" "copy", [])] ++
    (if dropped then [(.drop "a" true 5, [])] else []) ++
    [(.stop, []), (.restore "copy" onlyDb, []), (.start 1 0 1 9, [])]

/-- The theorem about a database restored under its own name. -/
theorem databases_separate_restored :
    KeepingNames smallBackend fresh (restoredAs true none) ((restoredAs true none).foldl (step smallBackend) fresh) ∧
      (((restoredAs true none).foldl (step smallBackend) fresh).running.bind fun s => s.reads "a") = some 7 ∧
      ∀ s, ((restoredAs true none).foldl (step smallBackend) fresh).running = some s → s.Separate := by
  have hrun : KeepingNames smallBackend fresh (restoredAs true none)
      ((restoredAs true none).foldl (step smallBackend) fresh) := by
    refine Run.of_along (Along.of_forall (fun event hevent site => ?_) _)
    simp only [restoredAs, if_true, List.cons_append, List.nil_append, List.mem_cons, List.not_mem_nil,
      or_false] at hevent
    rcases hevent with rfl | rfl | rfl | rfl | rfl | rfl | rfl | rfl <;> first | trivial | exact fun _ _ _ _ => rfl
  exact ⟨hrun, by decide +kernel, (databases_separate_iff smallBackend).1 _ _ hrun⟩

/-- A snapshot restored under another name serves the environment of its
origin. -/
theorem restored_shares :
    ∃ s, ((restoredAs false (some "b")).foldl (step smallBackend) fresh).running = some s ∧
      ((s.database "a").map (·.env), (s.database "b").map (·.env)) = (some "a", some "a") ∧ ¬s.Separate := by
  have hservers : (((restoredAs false (some "b")).foldl (step smallBackend) fresh).running.map fun s =>
      ((s.database "a").map (·.env), (s.database "b").map (·.env))) = some (some "a", some "a") := by decide +kernel
  obtain ⟨s, hs, henvs⟩ := Option.map_eq_some_iff.mp hservers
  refine ⟨s, hs, henvs, fun hseparate => ?_⟩
  obtain ⟨mounted, hmounted, henv⟩ := Option.map_eq_some_iff.mp (Prod.ext_iff.mp henvs).2
  have hname : "a" = "b" := henv.symm.trans (hseparate.own "b" mounted hmounted)
  exact absurd hname (by decide)

end Site

end HeatherDb
