/-
# Where a restore writes

`do_restore` of the server's `backup.rs` over a file system of paths: the
probe of the engine lock, an archive's entries one after another with the
check of their paths, their types and the `--db` filter, and a snapshot
directory copied to the name that its `db.toml` carries.

A restore makes the data directory, its lock file and with `--db` the
directory `db` where they are missing. Everything else it changes lies where
it may (`Restored`), and what it leaves there are files and directories. This
is an invariant of the run (`Kept`): each entry finds the data directory as
free of links as the entries before it did, so its path means what it says.

Key definitions: `TarEntry`, `Listing`, `Input`, `Tools`, `doRestore`,
`sanitizeArchivePath`, `copyDir`, `Restored`, `Made`.
Key theorems: `restoreEntry_kept`, `restoreSnapshot_kept`, `restore_inside`.
-/
import HeatherDb.DbConfig
import HeatherDb.Lib.Files

namespace HeatherDb
namespace OnDisk

open Files Program

/-- The bytes of a string. -/
def utf8 (s : String) : List UInt8 := s.toList.flatMap String.utf8EncodeChar

/-- The name `server.toml`. -/
def serverToml : FileName := ⟨[115, 101, 114, 118, 101, 114, 46, 116, 111, 109, 108], by decide⟩

/-- The name `system`. -/
def system : FileName := ⟨[115, 121, 115, 116, 101, 109], by decide⟩

/-- The name `db`. -/
def db : FileName := ⟨[100, 98], by decide⟩

/-- The name `engine.lock`. -/
def engineLock : FileName := ⟨[101, 110, 103, 105, 110, 101, 46, 108, 111, 99, 107], by decide⟩

/-- The name `db.toml`. -/
def dbToml : FileName := ⟨[100, 98, 46, 116, 111, 109, 108], by decide⟩

/-- The name `data`. -/
def dataName : FileName := ⟨[100, 97, 116, 97], by decide⟩

example : [serverToml, system, db, engineLock, dbToml, dataName].map FileName.bytes =
    ["server.toml", "system", "db", "engine.lock", "db.toml", "data"].map utf8 := by decide

/-- The entry types of tar. -/
inductive EntryType where
  | regular
  | link
  | symlink
  | char
  | block
  | directory
  | fifo
  | continuous
  | gnuLongName
  | gnuLongLink
  | gnuSparse
  | xGlobalHeader
  | xHeader
  | other (code : UInt8)
  deriving DecidableEq

/-- The types that are unpacked. -/
def EntryType.unpacked (t : EntryType) : Bool := t = .regular || t = .directory || t = .gnuSparse

structure TarEntry where
  path : Except String (List UInt8)
  entryType : EntryType
  data : List UInt8

/-- What `read_dir` shows while a directory is copied, its subdirectories
included. -/
inductive Listing where
  | done
  | file (name : FileName) (bytes : List UInt8) (rest : Listing)
  | dir (name : FileName) (children rest : Listing)

inductive TomlValue where
  | string (s : String)
  | other

/-- What the input path of a restore leads to: nothing, a directory with its
`db.toml` and its `data`, or a file that may be an archive. -/
inductive Input where
  | missing
  | dir (toml : Option (List UInt8)) (data : Option Listing)
  | file (entries : Except String (List (Except String TarEntry)))

/-- The crates: `Entry::unpack` of tar, and toml's reading of a file as a
table. -/
structure Tools where
  unpack : TarEntry → Place → List UInt8 → Program String FileSystem Unit
  fromStr : List UInt8 → Except String (List (String × TomlValue))

/-- As tar documents it: an entry to unpack becomes what is at the path it is
given, in place of what was there, and nothing else. -/
def Tools.Unpacks (tools : Tools) : Prop :=
  ∀ entry base path w, entry.entryType.unpacked = true →
    (tools.unpack entry base path w).2.state = w.state ∨
    ∃ p node, Files.entry w.state base (components path) = some p ∧
      (node = none ∨ node = some .dir ∨ ∃ bytes, node = some (.file bytes)) ∧
      (tools.unpack entry base path w).2.state = w.state.set p node

/-! ### The restore -/

/-- Takes the engine lock and lets it go. -/
def refuseIfEngineRunning (dataDir : Place) (held : Bool) : Program String FileSystem Unit := do
  createDirAll "engine lock check: create root" [] (dataDir.map FileName.component)
  write "engine lock check: open" dataDir [engineLock.component] id
  step  -- try_lock_exclusive
  ensure (held = false) "an engine is running on this data dir (engine.lock is held) — stop it first"

def sanitizeArchivePath (path : List UInt8) : Except String Unit :=
  if path.isEmpty || (components path).any (fun c => !c.isNormal) then
    .error "refusing to unpack archive entry with unsafe path"
  else if [serverToml, system, db].any fun top => (components path).head? = some top.component then .ok ()
  else .error "archive entry outside the known layout (server.toml, system/, db/)"

/-- One turn of the loop over an archive's entries. -/
def restoreEntry (tools : Tools) (dataDir : Place) (onlyDb : Option String) (entry : Except String TarEntry) :
    Program String FileSystem Unit := do
  let entry ← ofExcept entry
  let path ← ofExcept entry.path
  ofExcept (sanitizeArchivePath path)
  ensure (entry.entryType.unpacked = true) "refusing to unpack non-regular archive entry"
  if onlyDb.all fun only => (components (utf8 ("db/" ++ only))).isPrefixOf (components path) then do
    createDirAll "mkdir" dataDir (components path).dropLast
    tools.unpack entry dataDir path
  else pure ()

/-- The loop of `copy_dir`. -/
def copyEntries (dataDir : Place) (dst : List Component) : Listing → Program String FileSystem Unit
  | .done => step
  | .file name bytes rest => do
    step
    write "copy" dataDir (dst ++ components name.bytes) fun _ => bytes
    copyEntries dataDir dst rest
  | .dir name children rest => do
    step
    createDirAll "mkdir" dataDir (dst ++ components name.bytes)
    copyEntries dataDir (dst ++ components name.bytes) children
    copyEntries dataDir dst rest

def copyDir (dataDir : Place) (dst : List Component) (src : Listing) : Program String FileSystem Unit := do
  createDirAll "mkdir" dataDir dst
  copyEntries dataDir dst src

/-- The restore of a snapshot directory. -/
def restoreSnapshot (tools : Tools) (dataDir : Place) (onlyDb : Option String) (toml : Option (List UInt8))
    (data : Option Listing) : Program String FileSystem Unit :=
  match toml, data with
  | some text, some src => do
    step  -- read_to_string
    let parsed ← ofExcept (tools.fromStr text)
    match parsed.lookup "name" with
    | some (.string name) => do
      let restoreName := onlyDb.getD name
      ofExcept ((validateDbName restoreName).mapError fun _ => "invalid database name in snapshot")
      let target := db.component :: components (utf8 restoreName)
      createDirAll "create db" dataDir [db.component]
      let fs ← get
      ensure (stat fs dataDir target = none) "target already exists (move it aside first)"
      createDirAll "create target" dataDir target
      write "copy db.toml" dataDir (target ++ [dbToml.component]) fun _ => text
      copyDir dataDir (target ++ [dataName.component]) src
    | _ => fail "db.toml missing 'name' field"
  | _, _ => fail "not a snapshot directory (missing db.toml or data/)"

/-- `do_restore`, into the data directory at a place. -/
def doRestore (tools : Tools) (dataDir : Place) (held : Bool) (input : Input) (onlyDb : Option String) :
    Program String FileSystem Unit := do
  refuseIfEngineRunning dataDir held
  ofExcept (onlyDb.elim (.ok ()) fun only => (validateDbName only).mapError fun _ => "invalid --db name")
  createDirAll "create" [] (dataDir.map FileName.component)
  match input with
  | .missing => fail "stat"
  | .dir toml data => restoreSnapshot tools dataDir onlyDb toml data
  | .file opened => do
    let entries ← ofExcept opened
    entries.forM (restoreEntry tools dataDir onlyDb)

/-! ### Names -/

/-- A valid database name is a file name. -/
theorem fileName_of_validateDbName {name : String} (h : validateDbName name = .ok ()) :
    ∃ n, fileName (utf8 name) = some n := by
  have hbytes : ∀ b ∈ utf8 name, b ≠ 47 ∧ b ≠ 0 ∧ b ≠ 46 := by
    intro b hb
    obtain ⟨c, hc, hb⟩ := List.mem_flatMap.mp hb
    have hplain := plain_of_validateDbName h c hc
    have hlt := nameChar_lt hplain
    have hb : b = UInt8.ofNat c.toNat := by
      have hle : c.toNat ≤ 127 := Nat.le_of_lt_succ hlt
      simpa [String.utf8EncodeChar, hle] using hb
    have hnat : b.toNat = c.toNat := by
      rw [hb, UInt8.toNat_ofNat']
      omega
    have hne : ∀ d : Char, nameChar d = false → b.toNat ≠ d.toNat := fun d hd heq => by
      have hcd : c = d := Char.toNat_inj.mp (hnat.symm.trans heq)
      rw [hcd, hd] at hplain
      cases hplain
    exact ⟨fun heq => hne '/' (by decide) (heq ▸ rfl), fun heq => hne (Char.ofNat 0) (by decide) (heq ▸ rfl),
      fun heq => hne '.' (by decide) (heq ▸ rfl)⟩
  have hne : utf8 name ≠ [] := by
    intro hnil
    cases hlist : name.toList with
    | nil =>
      unfold validateDbName at h
      rw [String.toList_eq_nil_iff.mp hlist] at h
      cases h
    | cons c rest =>
      simp [utf8, hlist] at hnil
  exact ⟨_, dif_pos ⟨hne, fun hm => (hbytes _ hm).1 rfl, fun hm => (hbytes _ hm).2.1 rfl,
    fun heq => (hbytes 46 (heq ▸ by simp)).2.2 rfl, fun heq => (hbytes 46 (heq ▸ by simp)).2.2 rfl⟩⟩

theorem components_of_fileName {bytes : List UInt8} {n : FileName} (h : fileName bytes = some n) :
    components bytes = [n.component] := by
  rw [← bytes_of_fileName h, components_of_valid]

/-- The prefix that `--db` filters by. -/
theorem components_db {only : String} {n : FileName} (h : fileName (utf8 only) = some n) :
    components (utf8 ("db/" ++ only)) = [db.component, n.component] := by
  have hn := bytes_of_fileName h
  have htext : utf8 ("db/" ++ only) = [100, 98] ++ 47 :: n.bytes := by
    rw [hn, utf8, String.toList_append, List.flatMap_append]
    rfl
  have hsplit : (utf8 ("db/" ++ only)).splitOn 47 = [[100, 98], n.bytes] := by
    rw [htext, List.splitOn_append_cons_self_of_not_mem (by decide), List.splitOn_eq_singleton n.valid.2.1]
  rw [components, hsplit]
  simp only [List.filterMap_cons, List.filterMap_nil, piece_of_valid]
  rfl

/-! ### What a restore changes -/

/-- The places that a restore may change: those at or below `server.toml`,
`system` and `db`, or only those of one database. -/
def Restored (dataDir : Place) (onlyDb : Option String) (p : Place) : Prop :=
  match onlyDb with
  | none => ∃ top ∈ [serverToml, system, db], dataDir ++ [top] <+: p
  | some only => ∃ n, fileName (utf8 only) = some n ∧ dataDir ++ [db, n] <+: p

/-- A file, a directory or nothing. -/
def Sound (node : Option Node) : Prop := node = none ∨ node = some .dir ∨ ∃ bytes, node = some (.file bytes)

/-- What was missing and is made on the way: the directories down to the data
directory and `db` in it, and the file of the engine lock. -/
def Made (dataDir : Place) (before after : FileSystem) (p : Place) : Prop :=
  before p = none ∧
    ((after p = some .dir ∧ (p <+: dataDir ∨ p = dataDir ++ [db])) ∨
      (after p = some (.file []) ∧ p = dataDir ++ [engineLock]))

/-- There are no links on the way to a place nor below it. -/
def Unlinked (fs : FileSystem) (place : Place) : Prop :=
  ∀ p, p <+: place ∨ place <+: p → ∀ target, fs p ≠ some (.link target)

/-- What is somewhere is in a directory. -/
def Tree (fs : FileSystem) : Prop := ∀ p n, fs (p ++ [n]) ≠ none → fs.node p = some .dir

/-- The invariant: still no links, and changes only in an area, where they are
sound, and for what is made on the way. -/
def Kept (dataDir : Place) (before : FileSystem) (area : Place → Prop) (fs : FileSystem) : Prop :=
  Unlinked fs dataDir ∧ ∀ p, fs p = before p ∨ (area p ∧ Sound (fs p)) ∨ Made dataDir before fs p

variable {dataDir : Place} {before fs : FileSystem} {area : Place → Prop} {p : Place}

theorem Unlinked.direct (h : Unlinked fs dataDir) (path : List Component) : Direct fs dataDir path :=
  fun names _ => h _ (.inr (List.prefix_append dataDir names))

theorem Unlinked.direct_root (h : Unlinked fs dataDir) : Direct fs [] (dataDir.map FileName.component) :=
  fun _ hnames => h _ (.inl ((List.prefix_map_iff_of_injective component_injective).mp hnames))

theorem Unlinked.set {node : Option Node} (h : Unlinked fs dataDir) (hnode : ∀ target, node ≠ some (.link target)) :
    Unlinked (fs.set p node) dataDir := fun q hq target => by
  by_cases hqp : q = p
  · rw [hqp, FileSystem.set_self]
    exact hnode target
  · rw [FileSystem.set_of_ne hqp]
    exact h q hq target

theorem Sound.ne_link {node : Option Node} (h : Sound node) (target : List UInt8) : node ≠ some (.link target) := by
  rcases h with rfl | rfl | ⟨bytes, rfl⟩ <;> simp

theorem kept_before (h : Unlinked before dataDir) : Kept dataDir before area before := ⟨h, fun _ => .inl rfl⟩

/-- A sound change in the area. -/
theorem Kept.set {node : Option Node} (h : Kept dataDir before area fs) (hp : area p) (hnode : Sound node) :
    Kept dataDir before area (fs.set p node) := by
  refine ⟨h.1.set hnode.ne_link, fun q => ?_⟩
  by_cases hqp : q = p
  · rw [hqp, FileSystem.set_self]
    exact .inr (.inl ⟨hp, hnode⟩)
  · rw [Made, FileSystem.set_of_ne hqp]
    exact h.2 q

/-- What is not there was not there, or has been removed from the area. -/
theorem Kept.absent (h : Kept dataDir before area fs) (hp : fs p = none) : before p = none ∨ area p := by
  rcases h.2 p with hsame | ⟨harea, -⟩ | ⟨hnone, -⟩
  · exact .inl (hsame ▸ hp)
  · exact .inr harea
  · exact .inl hnone

/-- Something made on the way. -/
theorem Kept.make {node : Node} (h : Kept dataDir before area fs) (hp : fs p = none)
    (hnode : node = .dir ∧ (p <+: dataDir ∨ p = dataDir ++ [db]) ∨ node = .file [] ∧ p = dataDir ++ [engineLock]) :
    Kept dataDir before area (fs.set p (some node)) := by
  have hsound : Sound (some node) := by
    rcases hnode with ⟨rfl, -⟩ | ⟨rfl, -⟩
    · exact .inr (.inl rfl)
    · exact .inr (.inr ⟨_, rfl⟩)
  rcases h.absent hp with hbefore | harea
  · refine ⟨h.1.set hsound.ne_link, fun q => ?_⟩
    by_cases hqp : q = p
    · subst hqp
      refine .inr (.inr ⟨hbefore, ?_⟩)
      rw [FileSystem.set_self]
      simpa using hnode
    · rw [Made, FileSystem.set_of_ne hqp]
      exact h.2 q
  · exact h.set harea hsound

theorem kept_createDataDir {err : String} :
    Ensures (Kept dataDir before area) (createDirAll err [] (dataDir.map FileName.component)) fun _ => True := by
  refine ensures_createDirAll fun part hpart fs p hkept hentry hnone => ?_
  have hnormal : part.all Component.isNormal = true := List.all_eq_true.mpr fun c hc => by
    obtain ⟨n, -, rfl⟩ := List.mem_map.mp (hpart.subset hc)
    rfl
  obtain ⟨names, rfl, rfl⟩ := entry_normal (hkept.1.direct_root.mono hpart) hnormal hentry
  exact hkept.make hnone (.inl ⟨rfl, .inl ((List.prefix_map_iff_of_injective component_injective).mp hpart)⟩)

/-- Directories made inside the data directory, each in the area or `db`. -/
theorem kept_createDirAll {err : String} {path : List Component} (hpath : path.all Component.isNormal = true)
    (harea : ∀ names : Place, names ≠ [] → names.map FileName.component <+: path →
      area (dataDir ++ names) ∨ names = [db]) :
    Ensures (Kept dataDir before area) (createDirAll err dataDir path) fun _ => True := by
  refine ensures_createDirAll fun part hpart fs p hkept hentry hnone => ?_
  have hnormal : part.all Component.isNormal = true :=
    List.all_eq_true.mpr fun c hc => List.all_eq_true.mp hpath c (hpart.subset hc)
  obtain ⟨names, rfl, rfl⟩ := entry_normal (hkept.1.direct _) hnormal hentry
  have hne : names ≠ [] := by
    rintro rfl
    simp [entry] at hentry
  rcases harea names hne hpart with hin | rfl
  · exact hkept.set hin (.inr (.inl rfl))
  · exact hkept.make hnone (.inl ⟨rfl, .inr rfl⟩)

theorem kept_write {err : String} {path : List Component} {change : List UInt8 → List UInt8}
    (hpath : path.all Component.isNormal = true)
    (harea : ∀ names : Place, path = names.map FileName.component → area (dataDir ++ names)) :
    Ensures (Kept dataDir before area) (write err dataDir path change) fun _ => True := by
  refine ensures_write fun fs p old hkept hfollow _ => ?_
  obtain ⟨names, hnames, rfl⟩ := follow_normal (hkept.1.direct _) hpath hfollow
  exact hkept.set (harea names hnames) (.inr (.inr ⟨_, rfl⟩))

/-- The probe of the lock makes the data directory and the lock file. -/
theorem kept_refuseIfEngineRunning {held : Bool} :
    Ensures (Kept dataDir before area) (refuseIfEngineRunning dataDir held) fun _ => True := by
  refine kept_createDataDir.bind fun _ _ => Ensures.bind (Q := fun _ => True) ?_ fun _ _ =>
    Ensures.step.bind fun _ _ => Ensures.ensure.mono fun _ _ => trivial
  refine ensures_write fun fs p old hkept hfollow hold => ?_
  obtain ⟨names, hnames, rfl⟩ := follow_normal (hkept.1.direct _) rfl hfollow
  obtain rfl : names = [engineLock] := List.map_injective_iff.mpr component_injective hnames.symm
  have hnode : fs.node (dataDir ++ [engineLock]) = fs (dataDir ++ [engineLock]) := if_neg (by simp)
  rw [hnode] at hold
  rcases hold with hfile | ⟨hnone, rfl⟩
  · have hset : fs.set (dataDir ++ [engineLock]) (some (.file (id old))) = fs := by
      funext q
      by_cases hq : q = dataDir ++ [engineLock]
      · rw [hq, FileSystem.set_self]
        exact hfile.symm
      · exact FileSystem.set_of_ne hq
    rw [hset]
    exact hkept
  · exact hkept.make hnone (.inr ⟨rfl, rfl⟩)

/-! ### An archive -/

theorem sanitizeArchivePath_ok {path : List UInt8} (h : sanitizeArchivePath path = .ok ()) :
    (components path).all Component.isNormal = true ∧
      ∃ top ∈ [serverToml, system, db], (components path).head? = some top.component := by
  unfold sanitizeArchivePath at h
  split_ifs at h with hunsafe htop
  simp only [Bool.or_eq_true, not_or, Bool.not_eq_true, List.any_eq_false] at hunsafe
  refine ⟨List.all_eq_true.mpr fun c hc => by simpa using hunsafe.2 c hc, ?_⟩
  obtain ⟨top, hmem, hhead⟩ := List.any_eq_true.mp htop
  exact ⟨top, hmem, of_decide_eq_true hhead⟩

/-- Where an entry that is not refused or skipped lies, and what is made on
the way to it. -/
theorem restored_of_passes {onlyDb : Option String} {path : List UInt8} {names : Place}
    (hvalid : ∀ only, onlyDb = some only → validateDbName only = .ok ())
    (hsafe : sanitizeArchivePath path = .ok ())
    (hfilter : onlyDb.all (fun only => (components (utf8 ("db/" ++ only))).isPrefixOf (components path)) = true)
    (hne : names ≠ []) (hnames : names.map FileName.component <+: components path) :
    Restored dataDir onlyDb (dataDir ++ names) ∨
      (names = [db] ∧ names.map FileName.component ≠ components path) := by
  obtain ⟨first, rest, rfl⟩ := List.exists_cons_of_ne_nil hne
  cases onlyDb with
  | none =>
    obtain ⟨top, htop, hhead⟩ := (sanitizeArchivePath_ok hsafe).2
    obtain ⟨tail, htail⟩ := hnames
    rw [← htail, List.map_cons, List.cons_append, List.head?_cons] at hhead
    obtain rfl := component_injective (Option.some.inj hhead)
    exact .inl ⟨first, htop, rest, by simp⟩
  | some only =>
    obtain ⟨n, hn⟩ := fileName_of_validateDbName (hvalid only rfl)
    have hprefix : [db, n].map FileName.component <+: components path := by
      rw [Option.all_some, components_db hn] at hfilter
      exact List.isPrefixOf_iff_prefix.mp hfilter
    rcases List.prefix_or_prefix_of_prefix hprefix hnames with hlong | hshort
    · have hunder := (List.prefix_map_iff_of_injective component_injective).mp hlong
      exact .inl ⟨n, hn, (List.prefix_append_right_inj dataDir).mpr hunder⟩
    · have hunder := (List.prefix_map_iff_of_injective component_injective).mp hshort
      obtain ⟨rfl, hrest⟩ := List.cons_prefix_cons.mp hunder
      rcases List.prefix_cons_iff.mp hrest with rfl | ⟨more, rfl, hmore⟩
      · refine .inr ⟨rfl, fun heq => ?_⟩
        have hlength := hprefix.length_le
        rw [← heq] at hlength
        simp at hlength
      · obtain rfl := List.prefix_nil.mp hmore
        exact .inl ⟨n, hn, List.prefix_rfl⟩

/-- **One entry of an archive** changes only what it may. -/
theorem restoreEntry_kept {tools : Tools} (htools : tools.Unpacks) {onlyDb : Option String}
    (hvalid : ∀ only, onlyDb = some only → validateDbName only = .ok ()) (entry : Except String TarEntry) :
    Ensures (Kept dataDir before (Restored dataDir onlyDb)) (restoreEntry tools dataDir onlyDb entry)
      fun _ => True := by
  refine Ensures.ofExcept.bind fun entry _ => Ensures.ofExcept.bind fun path _ => Ensures.ofExcept.bind
    fun _ hsafe => Ensures.ensure.bind fun _ htype => ?_
  split_ifs with hfilter
  · have hnormal := (sanitizeArchivePath_ok hsafe).1
    refine Ensures.bind (Q := fun _ => True) ?_ fun _ _ w hkept => ⟨?_, fun _ _ => trivial⟩
    · refine kept_createDirAll (List.all_eq_true.mpr fun c hc =>
        List.all_eq_true.mp hnormal c (List.mem_of_mem_dropLast hc)) fun names hne hnames => ?_
      exact (restored_of_passes hvalid hsafe hfilter hne (hnames.trans (List.dropLast_prefix _))).imp_right And.left
    · rcases htools entry dataDir path w htype with hsame | ⟨p, node, hentry, hnode, hset⟩
      · rw [hsame]
        exact hkept
      · obtain ⟨names, hnames, rfl⟩ := entry_normal (hkept.1.direct _) hnormal hentry
        have hne : names ≠ [] := by
          rintro rfl
          rw [hnames] at hentry
          cases hentry
        rw [hset]
        refine hkept.set ?_ hnode
        exact (restored_of_passes hvalid hsafe hfilter hne (hnames ▸ List.prefix_rfl)).resolve_right
          fun h => h.2 hnames.symm
  · exact Ensures.pure trivial

/-! ### A snapshot -/

/-- The places of one new database directory, the one asked for if one is. -/
def NewDb (dataDir : Place) (before : FileSystem) (onlyDb : Option String) (p : Place) : Prop :=
  ∃ n, dataDir ++ [db, n] <+: p ∧ before (dataDir ++ [db, n]) = none ∧
    ∀ only, onlyDb = some only → fileName (utf8 only) = some n

theorem stat_none {a b : FileName} (hunlinked : Unlinked fs dataDir)
    (h : stat fs dataDir [a.component, b.component] = none) :
    fs (dataDir ++ [a]) ≠ some .dir ∨ fs (dataDir ++ [a, b]) = none := by
  by_contra hcontra
  obtain ⟨hdir, hsome⟩ := not_or.mp hcontra
  have hdir := not_not.mp hdir
  have hlink := hunlinked (dataDir ++ [a, b]) (.inr (List.prefix_append dataDir _))
  have hadvance : ∃ p, advance fs dataDir [a.component, b.component] = .arrived p ∧ p = dataDir ++ [a, b] := by
    simp only [FileName.component, advance, fileName_bytes, hdir, List.append_assoc, List.singleton_append]
    rcases hnode : fs (dataDir ++ [a, b]) with _ | _ | _ | target | _
    · exact absurd hnode hsome
    · exact ⟨_, rfl, rfl⟩
    · exact ⟨_, rfl, rfl⟩
    · exact absurd hnode (hlink target)
    · exact ⟨_, rfl, rfl⟩
  obtain ⟨p, hadvance, rfl⟩ := hadvance
  have hfollow : follow fs maxLinks dataDir [a.component, b.component] = some (dataDir ++ [a, b]) := by
    rw [maxLinks, follow, hadvance]
  rw [stat, hfollow, Option.bind_some, FileSystem.node, if_neg (by simp)] at h
  exact hsome h

/-- A target that is not there when it is looked for was not there before. -/
theorem Kept.target_absent {onlyDb : Option String} {n : FileName} (htree : Tree before)
    (h : Kept dataDir before (NewDb dataDir before onlyDb) fs)
    (habsent : stat fs dataDir [db.component, n.component] = none) : before (dataDir ++ [db, n]) = none := by
  rcases stat_none h.1 habsent with hdir | hnone
  · have hbefore : before (dataDir ++ [db]) ≠ some .dir := by
      rcases h.2 (dataDir ++ [db]) with hsame | ⟨⟨n', hprefix, -⟩, -⟩ | ⟨-, ⟨hmade, -⟩ | ⟨-, hlock⟩⟩
      · exact hsame ▸ hdir
      · have hlength := hprefix.length_le
        simp at hlength
      · exact absurd hmade hdir
      · exact absurd (List.append_cancel_left hlock) (by decide)
    by_contra hsome
    have hparent := htree (dataDir ++ [db]) n (by rwa [List.append_assoc])
    rw [FileSystem.node, if_neg (by simp)] at hparent
    exact hbefore hparent
  · rcases h.absent hnone with hbefore | ⟨n', hprefix, hbefore, -⟩
    · exact hbefore
    · have hsame := hprefix.eq_of_length (by simp)
      rwa [← hsame]

/-- Where a copy may go: below it lies the area, and on the way to it is
nothing else but `db`. -/
def Inside (dataDir : Place) (area : Place → Prop) (dst : Place) : Prop :=
  (∀ names : Place, names ≠ [] → names <+: dst → area (dataDir ++ names) ∨ names = [db]) ∧
    ∀ p, dataDir ++ dst <+: p → area p

theorem Inside.snoc {dst : Place} (h : Inside dataDir area dst) (n : FileName) :
    Inside dataDir area (dst ++ [n]) := by
  have hbelow : ∀ p, dataDir ++ (dst ++ [n]) <+: p → area p := fun p hp => h.2 p (by
    rw [← List.append_assoc] at hp
    exact (List.prefix_append _ _).trans hp)
  refine ⟨fun names hne hnames => ?_, hbelow⟩
  rcases List.prefix_concat_iff.mp hnames with rfl | hnames
  · exact .inl (hbelow _ List.prefix_rfl)
  · exact h.1 names hne hnames

theorem Inside.createDirAll {dst : Place} {err : String} (h : Inside dataDir area dst) :
    Ensures (Kept dataDir before area) (createDirAll err dataDir (dst.map FileName.component)) fun _ => True :=
  kept_createDirAll (all_isNormal dst) fun names hne hnames =>
    h.1 names hne ((List.prefix_map_iff_of_injective component_injective).mp hnames)

theorem Inside.write {dst : Place} {err : String} {change : List UInt8 → List UInt8} (h : Inside dataDir area dst) :
    Ensures (Kept dataDir before area) (write err dataDir (dst.map FileName.component) change) fun _ => True :=
  kept_write (all_isNormal dst) fun names hnames => by
    obtain rfl := List.map_injective_iff.mpr component_injective hnames
    exact h.2 _ List.prefix_rfl

theorem map_snoc (dst : Place) (n : FileName) :
    dst.map FileName.component ++ [n.component] = (dst ++ [n]).map FileName.component := by
  rw [List.map_append, List.map_singleton]

theorem copyEntries_kept : ∀ (src : Listing) {dst : Place}, Inside dataDir area dst →
    Ensures (Kept dataDir before area) (copyEntries dataDir (dst.map FileName.component) src) fun _ => True
  | .done, _, _ => Ensures.step
  | .file name bytes rest, dst, hdst => by
    refine Ensures.step.bind fun _ _ => Ensures.bind (Q := fun _ => True) ?_ fun _ _ => copyEntries_kept rest hdst
    rw [components_of_valid, map_snoc]
    exact (hdst.snoc name).write
  | .dir name children rest, dst, hdst => by
    unfold copyEntries
    rw [components_of_valid, map_snoc]
    exact Ensures.step.bind fun _ _ => (hdst.snoc name).createDirAll.bind fun _ _ =>
      (copyEntries_kept children (hdst.snoc name)).bind fun _ _ => copyEntries_kept rest hdst

theorem mapError_ok {ε ε' : Type} {x : Except ε Unit} {f : ε → ε'} {u : Unit} (h : x.mapError f = .ok u) :
    x = .ok () := by
  cases x with
  | error e => cases h
  | ok a => rfl

/-- **The restore of a snapshot** makes a new database directory or nothing. -/
theorem restoreSnapshot_kept (htree : Tree before) (tools : Tools) (onlyDb : Option String)
    (toml : Option (List UInt8)) (data : Option Listing) :
    Ensures (Kept dataDir before (NewDb dataDir before onlyDb)) (restoreSnapshot tools dataDir onlyDb toml data)
      fun _ => True := by
  unfold restoreSnapshot
  split
  case h_2 => exact Ensures.fail
  case h_1 text src =>
    refine Ensures.step.bind fun _ _ => Ensures.ofExcept.bind fun parsed _ => ?_
    split
    case h_2 => exact Ensures.fail
    case h_1 name _ =>
      refine Ensures.ofExcept.bind fun _ hvalid => ?_
      obtain ⟨n, hn⟩ := fileName_of_validateDbName (mapError_ok hvalid)
      have hdb : Ensures (Kept dataDir before (NewDb dataDir before onlyDb))
          (createDirAll "create db" dataDir [db.component]) fun _ => True :=
        kept_createDirAll rfl fun names hne hnames => .inr (by
          have hshort : names <+: [db] := (List.prefix_map_iff_of_injective component_injective).mp hnames
          rcases List.prefix_cons_iff.mp hshort with rfl | ⟨rest, rfl, hrest⟩
          · exact absurd rfl hne
          · rw [List.prefix_nil.mp hrest])
      refine hdb.bind fun _ _ => Ensures.get_bind fun fs hkept => Ensures.ensure.bind fun _ habsent => ?_
      rw [components_of_fileName hn] at habsent ⊢
      have hnone := hkept.target_absent htree habsent
      have harea : ∀ p, dataDir ++ [db, n] <+: p → NewDb dataDir before onlyDb p := fun p hp =>
        ⟨n, hp, hnone, fun only honly => by rwa [honly] at hn⟩
      have hinside : Inside dataDir (NewDb dataDir before onlyDb) [db, n] := by
        refine ⟨fun names hne hnames => ?_, harea⟩
        have hstep : names <+: [db] ++ [n] := hnames
        rcases List.prefix_concat_iff.mp hstep with rfl | hnames
        · exact .inl (harea _ List.prefix_rfl)
        · rcases List.prefix_cons_iff.mp hnames with rfl | ⟨rest, rfl, hrest⟩
          · exact absurd rfl hne
          · exact .inr (by rw [List.prefix_nil.mp hrest])
      exact hinside.createDirAll.bind fun _ _ => (hinside.snoc dbToml).write.bind fun _ _ =>
        (hinside.snoc dataName).createDirAll.bind fun _ _ => copyEntries_kept src (hinside.snoc dataName)

/-! ### Any restore -/

/-- The area of a restore, by its input. -/
def restoreArea (dataDir : Place) (before : FileSystem) (input : Input) (onlyDb : Option String) : Place → Prop :=
  match input with
  | .dir _ _ => NewDb dataDir before onlyDb
  | _ => Restored dataDir onlyDb

theorem doRestore_kept {tools : Tools} (htools : tools.Unpacks) (htree : Tree before) (held : Bool)
    (input : Input) (onlyDb : Option String) :
    Ensures (Kept dataDir before (restoreArea dataDir before input onlyDb)) (doRestore tools dataDir held input onlyDb)
      fun _ => True := by
  refine kept_refuseIfEngineRunning.bind fun _ _ => Ensures.ofExcept.bind fun _ hvalid =>
    kept_createDataDir.bind fun _ _ => ?_
  have hvalid : ∀ only, onlyDb = some only → validateDbName only = .ok () := by
    rintro only rfl
    exact mapError_ok hvalid
  cases input with
  | missing => exact Ensures.fail
  | dir toml data => exact restoreSnapshot_kept htree tools onlyDb toml data
  | file opened =>
    exact Ensures.ofExcept.bind fun entries _ => Ensures.forM fun entry _ => restoreEntry_kept htools hvalid entry

/-- A new database directory lies where a restore may write. -/
theorem NewDb.restored {onlyDb : Option String} (h : NewDb dataDir before onlyDb p) : Restored dataDir onlyDb p := by
  obtain ⟨n, hprefix, -, honly⟩ := h
  cases onlyDb with
  | none =>
    refine ⟨db, by simp, List.IsPrefix.trans ⟨[n], ?_⟩ hprefix⟩
    rw [List.append_assoc, List.singleton_append]
  | some only => exact ⟨n, honly only rfl, hprefix⟩

/-- Only entries of the three types reach `unpack`. -/
theorem restoreEntry_congr {tools : Tools} {unpack : TarEntry → Place → List UInt8 → Program String FileSystem Unit}
    (h : ∀ entry, entry.entryType.unpacked = true → unpack entry = tools.unpack entry) (onlyDb : Option String)
    (entry : Except String TarEntry) :
    restoreEntry { tools with unpack } dataDir onlyDb entry = restoreEntry tools dataDir onlyDb entry := by
  funext w
  cases entry with
  | error e => rfl
  | ok entry =>
    unfold restoreEntry
    rw [ofExcept_ok_bind, ofExcept_ok_bind]
    cases hpath : entry.path with
    | error e => rfl
    | ok path =>
      rw [ofExcept_ok_bind, ofExcept_ok_bind]
      cases hsafe : sanitizeArchivePath path with
      | error e => rfl
      | ok u =>
        rw [ofExcept_ok_bind, ofExcept_ok_bind, ensure_bind, ensure_bind]
        by_cases htype : entry.entryType.unpacked = true
        · rw [if_pos htype, if_pos htype]
          dsimp only
          rw [h entry htype]
        · rw [if_neg htype, if_neg htype]

/-- **A restore stays inside.** Whatever the input and wherever it fails, it
changes only what it may and what it has to make on the way; it unpacks
entries of the three types only; and from a snapshot it writes into no
database directory that exists. -/
theorem restore_inside (tools : Tools) (htools : tools.Unpacks) (dataDir : Place) (held : Bool) (input : Input)
    (onlyDb : Option String) (w : World String FileSystem) (htree : Tree w.state)
    (hunlinked : Unlinked w.state dataDir) :
    (∀ p, (doRestore tools dataDir held input onlyDb w).2.state p = w.state p ∨
      (Restored dataDir onlyDb p ∧ Sound ((doRestore tools dataDir held input onlyDb w).2.state p)) ∨
      Made dataDir w.state (doRestore tools dataDir held input onlyDb w).2.state p) ∧
    (∀ unpack, (∀ entry, entry.entryType.unpacked = true → unpack entry = tools.unpack entry) →
      doRestore { tools with unpack } dataDir held input onlyDb = doRestore tools dataDir held input onlyDb) ∧
    ∀ toml data, input = .dir toml data → ∀ n, w.state (dataDir ++ [db, n]) ≠ none →
      ∀ p, dataDir ++ [db, n] <+: p → (doRestore tools dataDir held input onlyDb w).2.state p = w.state p := by
  have hkept := (doRestore_kept htools htree held input onlyDb w (kept_before hunlinked)).1
  refine ⟨fun p => ?_, fun unpack h => ?_, ?_⟩
  · refine (hkept.2 p).imp_right (Or.imp_left (And.imp_left fun harea => ?_))
    cases input with
    | dir toml data => exact NewDb.restored harea
    | missing | file _ => exact harea
  · have hentries : restoreEntry { tools with unpack } dataDir onlyDb = restoreEntry tools dataDir onlyDb :=
      funext (restoreEntry_congr h onlyDb)
    unfold doRestore
    rw [hentries]
    rfl
  · rintro toml data rfl n hthere p hp
    have hlength := hp.length_le
    rcases hkept.2 p with hsame | ⟨⟨n', hprefix, habsent, -⟩, -⟩ | ⟨-, ⟨-, hshort | rfl⟩ | ⟨-, rfl⟩⟩
    · exact hsame
    · have hsame := List.IsPrefix.eq_of_length_le
        (List.prefix_of_prefix_length_le hprefix hp (by simp)) (by simp)
      exact absurd (hsame ▸ habsent) hthere
    · have := hshort.length_le
      simp at hlength
      omega
    · simp at hlength
    · simp at hlength

/-- A data directory `/db` and tar's `unpack` of whole entries into
directories that are there. -/
def bareDir : FileSystem := fun p => if p = [db] then some .dir else none

def plainTools : Tools where
  unpack entry base path := do
    let fs ← get
    match Files.entry fs base (components path) with
    | some p => modify fun fs => fs.set p (some (if entry.entryType = .directory then .dir else .file entry.data))
    | none => fail "unpack"
  fromStr _ := .error "toml"

theorem plainTools_unpacks : plainTools.Unpacks := fun entry base path w htype => by
  dsimp only [plainTools]
  rw [get_bind]
  cases hentry : Files.entry w.state base (components path) with
  | none => exact .inl rfl
  | some p =>
    refine .inr ⟨p, _, rfl, ?_, rfl⟩
    split_ifs
    · exact .inr (.inl rfl)
    · exact .inr (.inr ⟨_, rfl⟩)

theorem bareDir_tree : Tree bareDir := fun p n h => by
  have hp : p ++ [n] = [db] := by
    by_contra hne
    exact h (if_neg hne)
  obtain rfl : p = [] := by simpa using congrArg List.length hp
  rfl

theorem bareDir_unlinked : Unlinked bareDir [db] := fun p _ target => by
  unfold bareDir
  split_ifs <;> simp

/-- A restore of `db/main/x` for `main` into the bare directory. -/
theorem restore_inside_bare : plainTools.Unpacks ∧ Tree bareDir ∧ Unlinked bareDir [db] ∧
    ∀ p, (doRestore plainTools [db] false
        (.file (.ok [.ok ⟨.ok (utf8 "db/main/x"), .regular, [7]⟩])) (some "main") ⟨bareDir, []⟩).2.state p = bareDir p ∨
      (Restored [db] (some "main") p ∧ Sound ((doRestore plainTools [db] false
        (.file (.ok [.ok ⟨.ok (utf8 "db/main/x"), .regular, [7]⟩])) (some "main") ⟨bareDir, []⟩).2.state p)) ∨
      Made [db] bareDir (doRestore plainTools [db] false
        (.file (.ok [.ok ⟨.ok (utf8 "db/main/x"), .regular, [7]⟩])) (some "main") ⟨bareDir, []⟩).2.state p :=
  ⟨plainTools_unpacks, bareDir_tree, bareDir_unlinked,
    (restore_inside plainTools plainTools_unpacks [db] false _ (some "main") ⟨bareDir, []⟩ bareDir_tree
      bareDir_unlinked).1⟩

/-- A restore from an archive without entries makes the lock file, which is
none of the three. -/
theorem restore_makes_lock :
    ¬∀ (tools : Tools) (_ : tools.Unpacks) (dataDir : Place) (held : Bool) (input : Input) (onlyDb : Option String)
      (w : World String FileSystem) (_ : Tree w.state) (_ : Unlinked w.state dataDir) (p : Place),
      w.state p = none → (doRestore tools dataDir held input onlyDb w).2.state p ≠ none →
        Restored dataDir onlyDb p := fun h => by
  obtain ⟨top, htop, hprefix⟩ := h plainTools plainTools_unpacks [db] false (.file (.ok [])) none ⟨bareDir, []⟩
    bareDir_tree bareDir_unlinked [db, engineLock] (by decide) (by decide)
  obtain rfl : top = engineLock := by simpa using hprefix
  exact absurd htop (by decide)

end OnDisk
end HeatherDb
