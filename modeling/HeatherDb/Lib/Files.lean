/-
# Files on a Unix system

A file system maps places to what is there. A place is the list of the names
on the way to it from the root, without links: the names are those a Unix
kernel allows. A path is any bytes; `components` cuts it up as Rust's
`Path::components` does, and `follow` walks along the components from a place
as the kernel does, through links, up to `maxLinks` of them.

The operations are programs over a file system, so each of them may fail as
the plan says. Their rules say when they keep a predicate of the file system:
if each single change they may make keeps it.

A path of plain names with no link on its way leads to the place it starts
from and the names (`follow_normal`, `entry_normal`).

Key definitions: `FileName`, `Place`, `Node`, `FileSystem`, `components`,
`follow`, `entry`, `Direct`, `mkdir`, `createDirAll`, `write`, `removeDirAll`.
Key theorems: `follow_normal`, `entry_normal`, `ensures_createDirAll`,
`ensures_write`.
-/
import HeatherDb.Lib.Faults
import Mathlib.Data.List.Infix

namespace Files

/-- A name that a directory entry may have: not empty, no `/` and no NUL, and
neither `.` nor `..`. -/
structure FileName where
  bytes : List UInt8
  valid : bytes ≠ [] ∧ 47 ∉ bytes ∧ 0 ∉ bytes ∧ bytes ≠ [46] ∧ bytes ≠ [46, 46]
  deriving DecidableEq

/-- The names from the root on. -/
abbrev Place := List FileName

inductive Node where
  | file (bytes : List UInt8)
  | dir
  | link (target : List UInt8)
  | device
  deriving DecidableEq

/-- What is at each place below the root. -/
abbrev FileSystem := Place → Option Node

/-- What is at a place. The root is a directory. -/
def FileSystem.node (fs : FileSystem) (p : Place) : Option Node := if p = [] then some .dir else fs p

def FileSystem.set (fs : FileSystem) (p : Place) (n : Option Node) : FileSystem := fun q => if q = p then n else fs q

/-- Takes away what is at these places. -/
def FileSystem.clear (fs : FileSystem) (places : List Place) : FileSystem :=
  fun q => if q ∈ places then none else fs q

/-- Takes away everything below a place. -/
def FileSystem.removeBelow (fs : FileSystem) (p : Place) : FileSystem :=
  fun q => if p <+: q ∧ q ≠ p then none else fs q

/-- What reading the directories below a place shows: all that is there, a
directory after what is in it. -/
structure Walks (fs : FileSystem) (p : Place) (places : List Place) : Prop where
  mem_iff : ∀ q, q ∈ places ↔ p <+: q ∧ q ≠ p ∧ fs q ≠ none
  inner_first : places.Pairwise fun q q' => ¬q <+: q'

theorem FileSystem.set_of_ne {fs : FileSystem} {p q : Place} {n : Option Node} (h : q ≠ p) : fs.set p n q = fs q :=
  if_neg h

@[simp] theorem FileSystem.set_self (fs : FileSystem) (p : Place) (n : Option Node) : fs.set p n p = n :=
  if_pos rfl

/-! ### Paths -/

inductive Component where
  | rootDir
  | curDir
  | parentDir
  | normal (name : List UInt8)
  deriving DecidableEq

def Component.isNormal : Component → Bool
  | .normal _ => true
  | _ => false

/-- A name as a component. -/
def FileName.component (n : FileName) : Component := .normal n.bytes

/-- What stands between two slashes. -/
def piece : List UInt8 → Option Component
  | [] => none
  | [46] => none
  | [46, 46] => some .parentDir
  | name => some (.normal name)

/-- `Path::components` -/
def components (path : List UInt8) : List Component :=
  match path.splitOn 47 with
  | [] => []
  | first :: rest =>
    (if first = [] ∧ rest ≠ [] then [.rootDir] else if first = [46] then [.curDir] else (piece first).toList) ++
      rest.filterMap piece

/-- How the text of a path ends. -/
inductive Ending where
  | plain
  | slash
  | dot
  deriving DecidableEq

def ending (path : List UInt8) : Ending :=
  match (path.splitOn 47).getLast? with
  | some [] => .slash
  | some [46] => .dot
  | _ => .plain

/-- The name with these bytes, if a directory entry may have it. -/
def fileName (bytes : List UInt8) : Option FileName :=
  if h : bytes ≠ [] ∧ 47 ∉ bytes ∧ 0 ∉ bytes ∧ bytes ≠ [46] ∧ bytes ≠ [46, 46] then some ⟨bytes, h⟩ else none

@[simp] theorem fileName_bytes (n : FileName) : fileName n.bytes = some n := dif_pos n.valid

theorem bytes_of_fileName {bytes : List UInt8} {n : FileName} (h : fileName bytes = some n) : n.bytes = bytes := by
  unfold fileName at h
  split_ifs at h with hvalid
  exact Option.some.inj h ▸ rfl

theorem piece_of_valid (n : FileName) : piece n.bytes = some n.component := by
  obtain ⟨hempty, -, -, hdot, hdots⟩ := n.valid
  unfold piece
  split
  · exact absurd (by assumption) hempty
  · exact absurd (by assumption) hdot
  · exact absurd (by assumption) hdots
  · rfl

/-- The path that is one name. -/
theorem components_of_valid (n : FileName) : components n.bytes = [n.component] := by
  have hsplit : n.bytes.splitOn 47 = [n.bytes] := List.splitOn_eq_singleton n.valid.2.1
  rw [components, hsplit]
  simp [n.valid.1, n.valid.2.2.2.1, piece_of_valid]

/-! ### Where a path leads -/

/-- How far a walk comes before it meets a link. -/
inductive Advance where
  | arrived (place : Place)
  | link (base : Place) (target : List UInt8) (rest : List Component)
  | stopped

/-- Only a directory has something inside; the last name need not exist. -/
def advance (fs : FileSystem) (base : Place) : List Component → Advance
  | [] => .arrived base
  | .rootDir :: rest => advance fs [] rest
  | .curDir :: rest => advance fs base rest
  | .parentDir :: rest => advance fs base.dropLast rest
  | .normal name :: rest =>
    match fileName name with
    | none => .stopped
    | some n =>
      match fs (base ++ [n]) with
      | some (.link target) => .link base target rest
      | some .dir => advance fs (base ++ [n]) rest
      | _ => if rest = [] then .arrived (base ++ [n]) else .stopped

/-- The place that a path leads to from a place, past at most so many links. -/
def follow (fs : FileSystem) : ℕ → Place → List Component → Option Place
  | 0, base, path =>
    match advance fs base path with
    | .arrived p => some p
    | _ => none
  | links + 1, base, path =>
    match advance fs base path with
    | .arrived p => some p
    | .link base target rest => follow fs links base (components target ++ rest)
    | .stopped => none

/-- After so many links the kernel gives up. -/
def maxLinks : ℕ := 40

/-- What a path leads to. -/
def stat (fs : FileSystem) (base : Place) (path : List Component) : Option Node :=
  (follow fs maxLinks base path).bind fs.node

/-- The place a path's last name has, whether something is there or not and
also if it is a link. -/
def entry (fs : FileSystem) (base : Place) (path : List Component) : Option Place :=
  match path.getLast? with
  | some (.normal name) => do
    let dir ← follow fs maxLinks base path.dropLast
    let n ← fileName name
    if fs.node dir = some .dir then some (dir ++ [n]) else none
  | _ => none

/-- There is no link where the names at the front of a path lead. -/
def Direct (fs : FileSystem) (base : Place) (path : List Component) : Prop :=
  ∀ names : Place, names.map FileName.component <+: path → ∀ target, fs (base ++ names) ≠ some (.link target)

theorem Direct.next {fs : FileSystem} {base : Place} {n : FileName} {path : List Component}
    (h : Direct fs base (n.component :: path)) : Direct fs (base ++ [n]) path := fun names hnames => by
  have hcons := h (n :: names) (List.cons_prefix_cons.mpr ⟨rfl, hnames⟩)
  rwa [List.append_assoc, List.singleton_append]

theorem Direct.mono {fs : FileSystem} {base : Place} {path path' : List Component} (h : Direct fs base path')
    (hpath : path <+: path') : Direct fs base path := fun names hnames => h names (hnames.trans hpath)

theorem component_injective : Function.Injective FileName.component := by
  rintro ⟨bytes, _⟩ ⟨bytes', _⟩ h
  obtain rfl : bytes = bytes' := Component.normal.inj h
  rfl

theorem all_isNormal (names : Place) : (names.map FileName.component).all Component.isNormal = true := by
  rw [List.all_map]
  exact List.all_eq_true.mpr fun _ _ => rfl

/-- Without links on the way, a walk along names arrives at them or nowhere. -/
theorem advance_normal {fs : FileSystem} : ∀ {path : List Component} {base : Place}, Direct fs base path →
    path.all Component.isNormal = true →
    (∃ names : Place, path = names.map FileName.component ∧ advance fs base path = .arrived (base ++ names)) ∨
      advance fs base path = .stopped
  | [], base, _, _ => .inl ⟨[], rfl, by simp [advance]⟩
  | .normal name :: rest, base, hdirect, hpath => by
    unfold advance
    cases hname : fileName name with
    | none => exact .inr rfl
    | some n =>
      have hcomponent : Component.normal name = n.component := by rw [FileName.component, bytes_of_fileName hname]
      have hone : rest = [] → Component.normal name :: rest = [n].map FileName.component := fun h => by
        rw [h, hcomponent]
        rfl
      dsimp only
      rcases hnode : fs (base ++ [n]) with _ | _ | _ | target | _
      all_goals dsimp only
      · split_ifs with hrest
        · exact .inl ⟨[n], hone hrest, rfl⟩
        · exact .inr rfl
      · split_ifs with hrest
        · exact .inl ⟨[n], hone hrest, rfl⟩
        · exact .inr rfl
      · have hrest : rest.all Component.isNormal = true := by simpa [Component.isNormal] using hpath
        rw [hcomponent] at hdirect
        rcases advance_normal hdirect.next hrest with ⟨names, hnames, hadvance⟩ | hstopped
        · refine .inl ⟨n :: names, ?_, ?_⟩
          · rw [hcomponent, hnames, List.map_cons]
          · rw [hadvance, List.append_assoc, List.singleton_append]
        · exact .inr hstopped
      · exact absurd hnode (hdirect [n] (hcomponent ▸ List.prefix_append [n.component] rest) target)
      · split_ifs with hrest
        · exact .inl ⟨[n], hone hrest, rfl⟩
        · exact .inr rfl
  | .rootDir :: _, _, _, hpath => by simp [Component.isNormal] at hpath
  | .curDir :: _, _, _, hpath => by simp [Component.isNormal] at hpath
  | .parentDir :: _, _, _, hpath => by simp [Component.isNormal] at hpath

theorem follow_normal {fs : FileSystem} {base p : Place} {path : List Component} {links : ℕ} (hdirect : Direct fs base path)
    (hpath : path.all Component.isNormal = true) (h : follow fs links base path = some p) :
    ∃ names : Place, path = names.map FileName.component ∧ p = base ++ names := by
  rcases advance_normal hdirect hpath with ⟨names, hnames, hadvance⟩ | hstopped
  · refine ⟨names, hnames, ?_⟩
    cases links <;> simpa [follow, hadvance] using h.symm
  · cases links <;> simp [follow, hstopped] at h

theorem entry_normal {fs : FileSystem} {base p : Place} {path : List Component} (hdirect : Direct fs base path)
    (hpath : path.all Component.isNormal = true) (h : entry fs base path = some p) :
    ∃ names : Place, path = names.map FileName.component ∧ p = base ++ names := by
  unfold entry at h
  split at h
  case h_2 => cases h
  case h_1 name hlast =>
    obtain ⟨dir, hdir, h⟩ := Option.bind_eq_some_iff.mp h
    obtain ⟨n, hn, h⟩ := Option.bind_eq_some_iff.mp h
    split_ifs at h
    obtain ⟨front, rfl⟩ := List.getLast?_eq_some_iff.mp hlast
    have hfront : front.all Component.isNormal = true := by
      rw [List.all_append, Bool.and_eq_true] at hpath
      exact hpath.1
    rw [List.dropLast_concat] at hdir
    obtain ⟨names, rfl, rfl⟩ := follow_normal (hdirect.mono (List.prefix_append front _)) hfront hdir
    refine ⟨names ++ [n], ?_, ?_⟩
    · rw [List.map_append, List.map_singleton, FileName.component, bytes_of_fileName hn]
    · rw [← Option.some.inj h, List.append_assoc]

/-! ### Operations -/

variable {ε : Type}

open Program

/-- `mkdir`: the directory's own directory must be there, and nothing at its
place. -/
def mkdir (err : ε) (base : Place) (path : List Component) : Program ε FileSystem Unit := do
  step
  let fs ← get
  match entry fs base path with
  | some p => do
    ensure (fs p = none) err
    modify fun fs => fs.set p (some .dir)
  | none => fail err

/-- `fs::create_dir_all`: each directory on the way that is missing is made. -/
def createDirAll (err : ε) (base : Place) (path : List Component) : Program ε FileSystem Unit :=
  path.inits.forM fun part => do
    let fs ← get
    if stat fs base part = some .dir then pure () else mkdir err base part

/-- Opens a file to write, made if it is missing, and changes its bytes. A
link leads to what is written. -/
def write (err : ε) (base : Place) (path : List Component) (change : List UInt8 → List UInt8) :
    Program ε FileSystem Unit := do
  step
  let fs ← get
  match follow fs maxLinks base path with
  | none => fail err
  | some p =>
    match fs.node p with
    | some (.file bytes) => modify fun fs => fs.set p (some (.file (change bytes)))
    | some .device => pure ()
    | some _ => fail err
    | none => do
      ensure (fs.node p.dropLast = some .dir) err
      modify fun fs => fs.set p (some (.file (change [])))

/-- The place whose node a path names: the last name's own, also if it is a
link, unless the path goes on after it. -/
def named (fs : FileSystem) (base : Place) (path : List UInt8) : Option Place :=
  if ending path = .plain then entry fs base (components path) else follow fs maxLinks base (components path)

/-- `fs::remove_dir_all`: a link that the path itself names is unlinked, a
directory emptied and then removed by its name. Below a place the directories
show what `walk` has for it, and entry by entry goes. A path that ends in `.`
names no entry that could be removed, and one that ends in a slash names the
directory behind a link. -/
def removeDirAll (err : ε) (walk : Place → List Place) (base : Place) (path : List UInt8) :
    Program ε FileSystem Unit := do
  step
  let fs ← get
  match named fs base path with
  | none => fail err
  | some p =>
    match fs.node p with
    | some (.link _) => do
      ensure (ending path = .plain) err
      step
      modify fun fs => fs.set p none
    | some .dir => do
      (walk p).forM fun q => do
        step
        modify fun fs => fs.set q none
      step
      ensure (ending path ≠ .dot ∧ entry fs base (components path) = some p) err
      -- a name that led through the directory is gone, and one that is gone is no error
      let emptied ← get
      if entry emptied base (components path) = some p then modify fun fs => fs.set p none else pure ()
    | _ => fail err

/-! ### Removal -/

@[simp] theorem FileSystem.clear_nil (fs : FileSystem) : fs.clear [] = fs := funext fun q => by simp [clear]

theorem FileSystem.foldl_set_none : ∀ (places : List Place) (fs : FileSystem),
    places.foldl (fun fs q => fs.set q none) fs = fs.clear places
  | [], fs => fs.clear_nil.symm
  | p :: places, fs => funext fun q => by
    rw [List.foldl_cons, foldl_set_none places]
    by_cases hq : q = p <;> simp [clear, set, hq]

/-- All that is below a place, taken away. -/
theorem Walks.clear_eq {fs : FileSystem} {p : Place} {places : List Place} (h : Walks fs p places) :
    fs.clear places = fs.removeBelow p := by
  funext q
  unfold FileSystem.clear FileSystem.removeBelow
  by_cases hq : p <+: q ∧ q ≠ p
  · rw [if_pos hq]
    split_ifs with hmem
    · rfl
    · by_contra hsome
      exact hmem ((h.mem_iff q).mpr ⟨hq.1, hq.2, hsome⟩)
  · rw [if_neg hq, if_neg fun hmem => hq ⟨((h.mem_iff q).mp hmem).1, ((h.mem_iff q).mp hmem).2.1⟩]

/-- A file system of so many nodes. -/
def FileSystem.ofNodes (nodes : List (Place × Node)) : FileSystem := fun p =>
  (nodes.find? fun node => node.1 = p).map (·.2)

/-- Its walks, where the nodes are listed from the inside. -/
theorem walks_ofNodes {nodes : List (Place × Node)} (h : (nodes.map (·.1)).Pairwise fun q q' => ¬q <+: q') (p : Place) :
    Walks (.ofNodes nodes) p ((nodes.map (·.1)).filter fun q => p <+: q ∧ q ≠ p) where
  mem_iff q := by
    have hmem : q ∈ nodes.map (·.1) ↔ FileSystem.ofNodes nodes q ≠ none := by
      rw [FileSystem.ofNodes, ne_eq, Option.map_eq_none_iff, List.find?_eq_none, List.mem_map]
      push Not
      simp
    rw [List.mem_filter, hmem, decide_eq_true_iff]
    tauto
  inner_first := h.filter _

section Removal

variable {err : ε} {walk : Place → List Place} {base p : Place} {path : List UInt8} {s : FileSystem}
  {faults : List (Option ε)}

/-- A path that leads to no directory and names no link. -/
theorem removeDirAll_error (h : ∀ p, named s base path = some p →
      s.node p ≠ some .dir ∧ (ending path = .plain → ∀ target, s.node p ≠ some (.link target))) :
    ∃ e fs', removeDirAll err walk base path ⟨s, faults⟩ = (.error e, ⟨s, fs'⟩) := by
  by_cases hfirst : Faultless 1 faults
  swap
  · obtain ⟨e, he⟩ := step_bind_of_faulty hfirst _ s
    exact ⟨e, _, he⟩
  refine ⟨err, faults.tail, ?_⟩
  rw [removeDirAll, step_bind_of_faultless hfirst, get_bind]
  cases hnamed : named s base path with
  | none => rfl
  | some p =>
    obtain ⟨hdir, hlink⟩ := h p hnamed
    dsimp only
    rcases hnode : s.node p with _ | _ | _ | target | _
    all_goals dsimp only
    · rfl
    · rfl
    · exact absurd hnode hdir
    · rw [ensure_bind, if_neg fun hending => hlink hending target hnode]
    · rfl

/-- A link that the path names. -/
theorem removeDirAll_link (err : ε) (walk : Place → List Place) (faults : List (Option ε)) {target : List UInt8}
    (hnamed : named s base path = some p)
    (hlink : s.node p = some (.link target)) (hending : ending path = .plain) :
    (Faultless 2 faults ∧ ∃ fs', removeDirAll err walk base path ⟨s, faults⟩ = (.ok (), ⟨s.set p none, fs'⟩)) ∨
      ¬Faultless 2 faults ∧ ∃ e fs', removeDirAll err walk base path ⟨s, faults⟩ = (.error e, ⟨s, fs'⟩) := by
  by_cases hfirst : Faultless 1 faults
  swap
  · obtain ⟨e, he⟩ := step_bind_of_faulty hfirst _ s
    exact .inr ⟨fun h => hfirst (faultless_succ.mp h).1, e, _, he⟩
  have hrun : removeDirAll err walk base path ⟨s, faults⟩ =
      (step >>= fun _ => modify fun fs => fs.set p none) ⟨s, faults.tail⟩ := by
    rw [removeDirAll, step_bind_of_faultless hfirst, get_bind, hnamed]
    dsimp only
    rw [hlink]
    dsimp only
    rw [ensure_bind, if_pos hending]
  by_cases hsecond : Faultless 1 faults.tail
  · exact .inl ⟨faultless_succ.mpr ⟨hfirst, hsecond⟩, faults.tail.tail, hrun.trans (step_bind_of_faultless hsecond _ s)⟩
  · obtain ⟨e, he⟩ := step_bind_of_faulty hsecond (fun _ => modify fun fs => fs.set p none) s
    exact .inr ⟨fun h => hsecond (faultless_succ.mp h).2, e, _, hrun.trans he⟩

/-- A directory: the system stops the removal after so many entries, or it is
emptied and, if its name still leads to it, removed. -/
theorem removeDirAll_dir (err : ε) (walk : Place → List Place) (faults : List (Option ε))
    (hnamed : named s base path = some p) (hdir : s.node p = some .dir) :
    (¬Faultless ((walk p).length + 2) faults ∧ ∃ e k fs', (k = 0 ↔ ¬Faultless 2 faults) ∧ k ≤ (walk p).length ∧
        removeDirAll err walk base path ⟨s, faults⟩ = (.error e, ⟨s.clear ((walk p).take k), fs'⟩)) ∨
      Faultless ((walk p).length + 2) faults ∧ ∃ r fs', removeDirAll err walk base path ⟨s, faults⟩ = (r, ⟨
        if (ending path ≠ .dot ∧ entry s base (components path) = some p) ∧
          entry (s.clear (walk p)) base (components path) = some p
        then (s.clear (walk p)).set p none else s.clear (walk p), fs'⟩) ∧
        (r = .ok () ↔ ending path ≠ .dot ∧ entry s base (components path) = some p) := by
  by_cases hfirst : Faultless 1 faults
  swap
  · obtain ⟨e, he⟩ := step_bind_of_faulty hfirst _ s
    have hfaulty (n : ℕ) : ¬Faultless (n + 1) faults := fun h => hfirst (faultless_succ.mp h).1
    exact .inl ⟨hfaulty _, e, 0, _, by simp [hfaulty 1], Nat.zero_le _, by
      rw [List.take_zero, FileSystem.clear_nil]
      exact he⟩
  have hrun : removeDirAll err walk base path ⟨s, faults⟩ =
      (((walk p).forM fun q => step >>= fun _ => modify fun fs => fs.set q none) >>= fun _ => step >>= fun _ =>
        ensure (ending path ≠ .dot ∧ entry s base (components path) = some p) err >>= fun _ => get >>= fun emptied =>
          if entry emptied base (components path) = some p then modify fun fs => fs.set p none else pure ())
        ⟨s, faults.tail⟩ := by
    rw [removeDirAll, step_bind_of_faultless hfirst, get_bind, hnamed]
    dsimp only
    rw [hdir]
  rw [hrun]
  rcases forM_step_modify (ε := ε) (fun (q : Place) (fs : FileSystem) => fs.set q none) (walk p) s faults.tail with
    ⟨hentries, hloop⟩ | ⟨k, e, hk, hbefore, hfaulty, hloop⟩
  · rw [bind_of_ok hloop, FileSystem.foldl_set_none]
    by_cases hlast : Faultless 1 (faults.tail.drop (walk p).length)
    · refine .inr ⟨faultless_succ.mpr ⟨hfirst, faultless_add.mpr ⟨hentries, hlast⟩⟩, ?_⟩
      rw [step_bind_of_faultless hlast, ensure_bind]
      by_cases hname : ending path ≠ .dot ∧ entry s base (components path) = some p
      · refine ⟨.ok (), (faults.tail.drop (walk p).length).tail, ?_, iff_of_true rfl hname⟩
        rw [if_pos hname, get_bind]
        by_cases hstill : entry (s.clear (walk p)) base (components path) = some p
        · rw [if_pos hstill, if_pos ⟨hname, hstill⟩, modify_apply]
        · rw [if_neg hstill, if_neg fun h => hstill h.2, pure_apply]
      · refine ⟨.error err, (faults.tail.drop (walk p).length).tail, ?_, iff_of_false (by simp) hname⟩
        rw [if_neg hname, if_neg fun h => hname h.1]
    · obtain ⟨e, he⟩ := step_bind_of_faulty hlast (fun _ =>
        ensure (ending path ≠ .dot ∧ entry s base (components path) = some p) err >>= fun _ => get >>= fun emptied =>
          if entry emptied base (components path) = some p then modify fun fs => fs.set p none else pure ())
        (s.clear (walk p))
      refine .inl ⟨fun h => hlast (faultless_add.mp (faultless_succ.mp h).2).2, e, (walk p).length, _, ?_, le_rfl,
        by rw [List.take_length]; exact he⟩
      rw [faultless_succ, and_iff_right hfirst]
      rcases Nat.eq_zero_or_pos (walk p).length with hnone | hsome
      · rw [hnone, List.drop_zero] at hlast
        exact iff_of_true hnone hlast
      · exact iff_of_false hsome.ne' (not_not.mpr (faultless_mono hentries hsome))
  · rw [bind_of_error hloop, FileSystem.foldl_set_none]
    refine .inl ⟨fun h => hfaulty ?_, e, k, _, ?_, hk.le, rfl⟩
    · exact faultless_mono (faultless_succ.mp h).2 (Nat.succ_le_succ hk.le)
    · rw [faultless_succ, and_iff_right hfirst]
      rcases Nat.eq_zero_or_pos k with rfl | hsome
      · exact iff_of_true rfl hfaulty
      · exact iff_of_false hsome.ne' (not_not.mpr (faultless_mono hbefore hsome))

/-- A removal that the system stops at one of its first two calls changes
nothing. -/
theorem removeDirAll_faulty (h : ¬Faultless 2 faults) :
    ∃ e fs', removeDirAll err walk base path ⟨s, faults⟩ = (.error e, ⟨s, fs'⟩) := by
  by_cases hother : ∀ p, named s base path = some p →
      s.node p ≠ some .dir ∧ (ending path = .plain → ∀ target, s.node p ≠ some (.link target))
  · exact removeDirAll_error hother
  push Not at hother
  obtain ⟨p, hnamed, hnode⟩ := hother
  by_cases hdir : s.node p = some .dir
  · rcases removeDirAll_dir err walk faults hnamed hdir with
      ⟨-, e, k, fs', hk, -, hrun⟩ | ⟨hall, -⟩
    · obtain rfl := hk.mpr h
      refine ⟨e, fs', hrun.trans ?_⟩
      rw [List.take_zero, FileSystem.clear_nil]
    · exact absurd (faultless_mono hall (Nat.le_add_left 2 _)) h
  · obtain ⟨hending, target, hlink⟩ := hnode hdir
    exact (removeDirAll_link err walk faults hnamed hlink hending).resolve_left (fun hrun => h hrun.1) |>.2

end Removal

/-! ### What the operations keep -/

variable {P : FileSystem → Prop} {err : ε} {base : Place} {path : List Component}

theorem ensures_mkdir (h : ∀ fs p, P fs → entry fs base path = some p → fs p = none → P (fs.set p (some .dir))) :
    Ensures P (mkdir err base path) fun _ => True := by
  refine Ensures.step.bind fun _ _ w hP => ?_
  rw [get_bind]
  cases hentry : entry w.state base path with
  | none => exact Ensures.fail w hP
  | some p =>
    dsimp only
    rw [ensure_bind]
    split_ifs with hnone
    · exact ⟨h _ p hP hentry hnone, fun _ _ => trivial⟩
    · exact ⟨hP, fun _ _ => trivial⟩

/-- What keeps a predicate when a missing directory on the way is made. -/
theorem ensures_createDirAll (h : ∀ part, part <+: path → ∀ fs p, P fs → entry fs base part = some p → fs p = none →
    P (fs.set p (some .dir))) : Ensures P (createDirAll err base path) fun _ => True := by
  refine Ensures.forM fun part hpart => Ensures.get_bind fun fs _ => ?_
  split_ifs
  · exact Ensures.pure trivial
  · exact ensures_mkdir (h part ((List.mem_inits part path).mp hpart))

/-- What keeps a predicate when a file is written or made. -/
theorem ensures_write {change : List UInt8 → List UInt8}
    (h : ∀ fs p old, P fs → follow fs maxLinks base path = some p →
      fs.node p = some (.file old) ∨ fs.node p = none ∧ old = [] → P (fs.set p (some (.file (change old))))) :
    Ensures P (write err base path change) fun _ => True := by
  refine Ensures.step.bind fun _ _ w hP => ?_
  rw [get_bind]
  cases hfollow : follow w.state maxLinks base path with
  | none => exact Ensures.fail w hP
  | some p =>
    dsimp only
    rcases hnode : w.state.node p with _ | bytes | _ | _ | _
    all_goals dsimp only
    · rw [ensure_bind]
      split_ifs
      · exact ⟨h _ p _ hP hfollow (.inr ⟨hnode, rfl⟩), fun _ _ => trivial⟩
      · exact ⟨hP, fun _ _ => trivial⟩
    · exact ⟨h _ p _ hP hfollow (.inl hnode), fun _ _ => trivial⟩
    · exact Ensures.fail w hP
    · exact Ensures.fail w hP
    · exact ⟨hP, fun _ _ => trivial⟩

end Files
