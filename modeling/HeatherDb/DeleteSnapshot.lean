/-
# Deleting a snapshot

`delete_snapshot` of the server's `backup.rs`. The name comes from the
command line: one with a slash or two dots in a row is refused, the rest are
joined to `snapshots/` and removed with everything below. A name that passes
and is an entry's name removes that entry, unless the system stops the removal
after its first entry. The empty name and `.` pass too, and lead to `snapshots`
itself: the first removes it, the second empties it before the removal fails.
And an entry that is a link is unlinked.

Key definitions: `deleteSnapshot`, `OneDeleted`, `Spares`, `Finishes`.
Key theorems: `LeadsTo.remove_directory`, `LeadsTo.remove_other`,
`deleteSnapshot_named`, `deleteSnapshot_itself`, `deletes_one_iff`.
-/
import HeatherDb.RestorePaths

namespace HeatherDb
namespace OnDisk

open Files Program

/-- The name `snapshots`. -/
def snapshots : FileName := ⟨[115, 110, 97, 112, 115, 104, 111, 116, 115], by decide⟩

example : snapshots.bytes = utf8 "snapshots" := by decide

/-- The names that are not even looked for. -/
def Refused (name : String) : Prop := 47 ∈ utf8 name ∨ [46, 46] <:+: utf8 name

instance (name : String) : Decidable (Refused name) := inferInstanceAs (Decidable (_ ∨ _))

/-- `data_dir.join("snapshots").join(name)`, from the data directory on. -/
def snapshotPath (name : String) : List UInt8 := snapshots.bytes ++ 47 :: utf8 name

/-- Whether a path in the data directory leads nowhere. -/
def Missing (fs : FileSystem) (dataDir : Place) (name : String) : Prop :=
  stat fs dataDir (components (snapshotPath name)) = none

instance (fs : FileSystem) (dataDir : Place) (name : String) : Decidable (Missing fs dataDir name) :=
  inferInstanceAs (Decidable (_ = _))

/-- `walk`: what the removal finds below a directory. -/
def deleteSnapshot (walk : Place → List Place) (dataDir : Place) (name : String) : Program String FileSystem Unit := do
  ensure (¬Refused name) "invalid snapshot name"
  let fs ← get
  ensure (¬Missing fs dataDir name) "snapshot not found"
  removeDirAll "remove" walk dataDir (snapshotPath name)

/-- Either nothing is removed and there is an error, or one directory in
`snapshots` is, the one with the name, and nothing else. -/
def OneDeleted (dataDir : Place) (name : String) (before : FileSystem) (r : Except String Unit)
    (after : FileSystem) : Prop :=
  (r ≠ .ok () ∧ after = before) ∨
    ∃ dir n, follow before maxLinks dataDir [snapshots.component] = some dir ∧ n.bytes = utf8 name ∧
      before (dir ++ [n]) = some .dir ∧ ∀ p, after p = if dir ++ [n] <+: p then none else before p

/-- There is nothing below a place. -/
def Bare (fs : FileSystem) (dir : Place) : Prop := ∀ p, dir <+: p → p ≠ dir → fs p = none

/-- The empty name finds no directory, or a link to one with nothing in it;
`.` finds no directory or one with nothing in it; another name finds no link. -/
def Spares (fs : FileSystem) (dataDir : Place) (name : String) : Prop :=
  ∀ dir, follow fs maxLinks dataDir [snapshots.component] = some dir → fs.node dir = some .dir →
    if utf8 name = [] then Bare fs dir ∧ entry fs dataDir [snapshots.component] ≠ some dir
    else if utf8 name = [46] then Bare fs dir
    else ∀ n, fileName (utf8 name) = some n → ∀ target, fs (dir ++ [n]) ≠ some (.link target)

/-- The system stops no call of the removal of the directory with the name, one
for each entry below and two more, and the path to it does not run through it. -/
def Finishes (walk : Place → List Place) (fs : FileSystem) (dataDir : Place) (name : String)
    (faults : List (Option String)) : Prop :=
  ∀ dir, follow fs maxLinks dataDir [snapshots.component] = some dir → fs.node dir = some .dir →
    ∀ n, fileName (utf8 name) = some n → fs (dir ++ [n]) = some .dir →
      Faultless ((walk (dir ++ [n])).length + 2) faults ∧
        entry (fs.removeBelow (dir ++ [n])) dataDir [snapshots.component, n.component] = some (dir ++ [n])

/-! ### The path -/

variable {name : String} {fs : FileSystem} {dataDir : Place} {walk : Place → List Place}

theorem components_snapshotPath (h : ¬Refused name) :
    components (snapshotPath name) = snapshots.component :: (piece (utf8 name)).toList ∧
      ending (snapshotPath name) =
        if utf8 name = [] then .slash else if utf8 name = [46] then .dot else .plain := by
  have hslash : 47 ∉ utf8 name := fun hm => h (.inl hm)
  have hsplit : (snapshotPath name).splitOn 47 = [snapshots.bytes, utf8 name] := by
    rw [snapshotPath, List.splitOn_append_cons_self_of_not_mem (by decide), List.splitOn_eq_singleton hslash]
  constructor
  · rw [components, hsplit]
    dsimp only
    rw [if_neg fun h => snapshots.valid.1 h.1, if_neg snapshots.valid.2.2.2.1, piece_of_valid, List.filterMap_cons]
    cases piece (utf8 name) <;> rfl
  · rw [ending, hsplit]
    split <;> simp_all

theorem piece_of_ne (h : ¬Refused name) (hempty : utf8 name ≠ []) (hdot : utf8 name ≠ [46]) :
    piece (utf8 name) = some (.normal (utf8 name)) := by
  unfold piece
  split
  · exact absurd (by assumption) hempty
  · exact absurd (by assumption) hdot
  · rename_i hdots
    exact absurd (.inr (hdots ▸ List.infix_rfl)) h
  · rfl

/-! ### The two kinds of names -/

theorem removeBelow_eq_iff {dir : Place} : fs.removeBelow dir = fs ↔ Bare fs dir := by
  refine ⟨fun h p hp hne => ?_, fun h => funext fun p => ?_⟩
  · rw [← h]
    exact if_pos ⟨hp, hne⟩
  · unfold FileSystem.removeBelow
    split_ifs with hp
    · exact (h p hp.1 hp.2).symm
    · rfl

/-- Emptied and removed. -/
theorem set_removeBelow (fs : FileSystem) (p q : Place) :
    (fs.removeBelow p).set p none q = if p <+: q then none else fs q := by
  by_cases hq : q = p
  · rw [hq, FileSystem.set_self, if_pos List.prefix_rfl]
  · rw [FileSystem.set_of_ne hq]
    simp [FileSystem.removeBelow, hq]

theorem deleteSnapshot_refused (h : Refused name) (w : World String FileSystem) :
    deleteSnapshot walk dataDir name w = (.error "invalid snapshot name", w) := by
  rw [deleteSnapshot, ensure_bind, if_neg (not_not.mpr h)]

/-- What is found is removed. -/
theorem deleteSnapshot_passed (h : ¬Refused name) (w : World String FileSystem) :
    deleteSnapshot walk dataDir name w =
      if Missing w.state dataDir name then (.error "snapshot not found", w)
      else removeDirAll "remove" walk dataDir (snapshotPath name) w := by
  rw [deleteSnapshot, ensure_bind, if_pos h, get_bind, ensure_bind, ite_not]

/-- An error that changed nothing. -/
theorem oneDeleted_of_error {before : FileSystem} {e : String} :
    OneDeleted dataDir name before (.error e) before := .inl ⟨by simp, rfl⟩

/-- The first entries of a walk, taken away, make a difference. -/
theorem clear_take_ne {p : Place} (h : Walks fs p (walk p)) {k : ℕ} (hk : k ≠ 0) (hle : k ≤ (walk p).length) :
    fs.clear ((walk p).take k) ≠ fs := by
  obtain ⟨q, rest, hwalk⟩ := List.exists_cons_of_length_pos (lt_of_lt_of_le (Nat.pos_of_ne_zero hk) hle)
  obtain ⟨j, rfl⟩ := Nat.exists_eq_succ_of_ne_zero hk
  have hq := (h.mem_iff q).mp (hwalk ▸ List.mem_cons_self)
  intro hsame
  refine hq.2.2 ?_
  rw [← hsame]
  exact if_pos (by rw [hwalk]; exact List.mem_cons_self)

/-- The name leads to the entry `n` of the directory of snapshots, `dir`. -/
structure LeadsTo (fs : FileSystem) (dataDir : Place) (name : String) (dir : Place) (n : FileName) : Prop where
  followed : follow fs maxLinks dataDir [snapshots.component] = some dir
  isDir : fs.node dir = some .dir
  fileName_eq : fileName (utf8 name) = some n
  components_eq : components (snapshotPath name) = [snapshots.component, n.component]
  ending_eq : ending (snapshotPath name) = .plain

section Named

variable {w : World String FileSystem} {dir : Place} {n : FileName}

/-- Where the path to an ordinary name leads. -/
theorem named_snapshotPath (hpass : ¬Refused name) (hempty : utf8 name ≠ []) (hdot : utf8 name ≠ [46]) :
    named fs dataDir (snapshotPath name) =
      (follow fs maxLinks dataDir [snapshots.component]).bind fun dir => (fileName (utf8 name)).bind fun n =>
        if fs.node dir = some .dir then some (dir ++ [n]) else none := by
  obtain ⟨hcomponents, hending⟩ := components_snapshotPath hpass
  rw [piece_of_ne hpass hempty hdot, Option.toList_some] at hcomponents
  rw [if_neg hempty, if_neg hdot] at hending
  rw [named, if_pos hending, hcomponents]
  rfl

theorem leadsTo_of_named (hpass : ¬Refused name) (hempty : utf8 name ≠ []) (hdot : utf8 name ≠ [46]) {p : Place}
    (h : named fs dataDir (snapshotPath name) = some p) : ∃ dir n, LeadsTo fs dataDir name dir n ∧ p = dir ++ [n] := by
  rw [named_snapshotPath hpass hempty hdot] at h
  obtain ⟨dir, hfollow, h⟩ := Option.bind_eq_some_iff.mp h
  obtain ⟨n, hname, h⟩ := Option.bind_eq_some_iff.mp h
  split_ifs at h with hdir
  obtain ⟨hcomponents, hending⟩ := components_snapshotPath hpass
  rw [piece_of_ne hpass hempty hdot, Option.toList_some, ← bytes_of_fileName hname] at hcomponents
  rw [if_neg hempty, if_neg hdot] at hending
  exact ⟨dir, n, ⟨hfollow, hdir, hname, hcomponents, hending⟩, (Option.some.inj h).symm⟩

theorem LeadsTo.entry_eq (h : LeadsTo fs dataDir name dir n) :
    entry fs dataDir (components (snapshotPath name)) = some (dir ++ [n]) := by
  have hentry : entry fs dataDir [snapshots.component, n.component] =
      (follow fs maxLinks dataDir [snapshots.component]).bind fun dir => (fileName n.bytes).bind fun n =>
        if fs.node dir = some .dir then some (dir ++ [n]) else none := rfl
  rw [h.components_eq, hentry, h.followed, Option.bind_some, fileName_bytes, Option.bind_some, if_pos h.isDir]

theorem LeadsTo.named_eq (h : LeadsTo fs dataDir name dir n) :
    named fs dataDir (snapshotPath name) = some (dir ++ [n]) := by
  rw [named, if_pos h.ending_eq, h.entry_eq]

theorem LeadsTo.node_eq (_ : LeadsTo fs dataDir name dir n) : fs.node (dir ++ [n]) = fs (dir ++ [n]) := by
  rw [FileSystem.node, if_neg (by simp)]

/-- A removal that took some entries and not the directory. -/
theorem LeadsTo.not_oneDeleted (h : LeadsTo fs dataDir name dir n) {after : FileSystem} {r : Except String Unit}
    (hdir : after (dir ++ [n]) = some .dir) (hr : r = .ok () ∨ after ≠ fs) : ¬OneDeleted dataDir name fs r after := by
  rintro (⟨hfailed, hsame⟩ | ⟨dir', n', hfollow', hn', -, hafter⟩)
  · exact hr.elim hfailed fun hchanged => hchanged hsame
  · obtain rfl := Option.some.inj (h.followed.symm.trans hfollow')
    have hsame : some n = some n' := by rw [← h.fileName_eq, ← hn', fileName_bytes]
    obtain rfl := Option.some.inj hsame
    rw [hafter, if_pos List.prefix_rfl] at hdir
    cases hdir

/-- **A directory** goes whole, or some of it stays. -/
theorem LeadsTo.remove_directory (h : LeadsTo w.state dataDir name dir n)
    (hwalk : Walks w.state (dir ++ [n]) (walk (dir ++ [n]))) (hisdir : w.state (dir ++ [n]) = some .dir)
    (hfaultless : Faultless 2 w.faults) :
    OneDeleted dataDir name w.state (removeDirAll "remove" walk dataDir (snapshotPath name) w).1
        (removeDirAll "remove" walk dataDir (snapshotPath name) w).2.state ↔
      Faultless ((walk (dir ++ [n])).length + 2) w.faults ∧
        entry (w.state.removeBelow (dir ++ [n])) dataDir (components (snapshotPath name)) = some (dir ++ [n]) := by
  have hclear : w.state.clear (walk (dir ++ [n])) = w.state.removeBelow (dir ++ [n]) := hwalk.clear_eq
  have hkept : ∀ k, w.state.clear ((walk (dir ++ [n])).take k) (dir ++ [n]) = some .dir := fun k => by
    rw [FileSystem.clear, if_neg fun hmem => ((hwalk.mem_iff _).mp (List.mem_of_mem_take hmem)).2.1 rfl, hisdir]
  rcases removeDirAll_dir "remove" walk w.faults h.named_eq (h.node_eq.trans hisdir) with
    ⟨hfaulty, e, k, faults, hk, hle, hrun⟩ | ⟨hall, r, faults, hrun, hr⟩
  · -- stopped midway, after at least one entry
    rw [show removeDirAll "remove" walk dataDir (snapshotPath name) w = _ from hrun]
    have hsome : k ≠ 0 := fun h => absurd hfaultless (hk.mp h)
    exact iff_of_false (h.not_oneDeleted (hkept k) (.inr (clear_take_ne hwalk hsome hle))) fun hall => hfaulty hall.1
  · rw [show removeDirAll "remove" walk dataDir (snapshotPath name) w = _ from hrun, and_iff_right hall]
    have hnames : ending (snapshotPath name) ≠ .dot ∧
        entry w.state dataDir (components (snapshotPath name)) = some (dir ++ [n]) :=
      ⟨by rw [h.ending_eq]; decide, h.entry_eq⟩
    by_cases hstill : entry (w.state.clear (walk (dir ++ [n]))) dataDir (components (snapshotPath name)) =
        some (dir ++ [n])
    · rw [if_pos ⟨hnames, hstill⟩, hclear]
      rw [hclear] at hstill
      exact iff_of_true
        (.inr ⟨dir, n, h.followed, bytes_of_fileName h.fileName_eq, hisdir, set_removeBelow w.state _⟩) hstill
    · -- the path ran through the directory, which is empty now and stays
      rw [if_neg fun hboth => hstill hboth.2]
      refine iff_of_false (h.not_oneDeleted ?_ (.inl (hr.mpr hnames))) (hclear ▸ hstill)
      rw [← List.take_length (l := walk (dir ++ [n]))]
      exact hkept _

/-- **No directory**: a link is unlinked, anything else stays. -/
theorem LeadsTo.remove_other (h : LeadsTo w.state dataDir name dir n) (hisdir : w.state (dir ++ [n]) ≠ some .dir)
    (hfaultless : Faultless 2 w.faults) :
    OneDeleted dataDir name w.state (removeDirAll "remove" walk dataDir (snapshotPath name) w).1
        (removeDirAll "remove" walk dataDir (snapshotPath name) w).2.state ↔
      ∀ target, w.state (dir ++ [n]) ≠ some (.link target) := by
  by_cases hlink : ∃ target, w.state (dir ++ [n]) = some (.link target)
  · obtain ⟨target, hlink⟩ := hlink
    refine iff_of_false ?_ fun hall => hall target hlink
    rcases removeDirAll_link "remove" walk w.faults h.named_eq (h.node_eq.trans hlink) h.ending_eq with
      ⟨-, faults, hrun⟩ | ⟨hfaulty, -⟩
    · rw [show removeDirAll "remove" walk dataDir (snapshotPath name) w = _ from hrun]
      rintro (⟨hfailed, -⟩ | ⟨dir', n', hfollow', hn', hdir', -⟩)
      · exact hfailed rfl
      · obtain rfl := Option.some.inj (h.followed.symm.trans hfollow')
        have hsame : some n = some n' := by rw [← h.fileName_eq, ← hn', fileName_bytes]
        obtain rfl := Option.some.inj hsame
        exact hisdir hdir'
    · exact absurd hfaultless hfaulty
  · obtain ⟨e, faults, hrun⟩ : ∃ e faults, removeDirAll "remove" walk dataDir (snapshotPath name) w =
        (.error e, ⟨w.state, faults⟩) := by
      refine removeDirAll_error fun p hp => ?_
      obtain rfl := Option.some.inj (h.named_eq.symm.trans hp)
      rw [h.node_eq]
      exact ⟨hisdir, fun _ target hnode => hlink ⟨target, hnode⟩⟩
    rw [hrun]
    exact iff_of_true oneDeleted_of_error fun target hnode => hlink ⟨target, hnode⟩

/-- **An entry's name**: the one entry is removed, or the name is spared. -/
theorem deleteSnapshot_named (hwalk : ∀ p, Walks w.state p (walk p)) (hpass : ¬Refused name)
    (hempty : utf8 name ≠ []) (hdot : utf8 name ≠ [46]) (hfound : ¬Missing w.state dataDir name)
    (hfaultless : Faultless 2 w.faults) :
    OneDeleted dataDir name w.state (deleteSnapshot walk dataDir name w).1
        (deleteSnapshot walk dataDir name w).2.state ↔
      Spares w.state dataDir name ∧ Finishes walk w.state dataDir name w.faults := by
  rw [deleteSnapshot_passed hpass, if_neg hfound]
  cases hnamed : named w.state dataDir (snapshotPath name) with
  | none =>
    -- there is no directory for the name to be in
    obtain ⟨e, faults, hrun⟩ : ∃ e faults, removeDirAll "remove" walk dataDir (snapshotPath name) w =
        (.error e, ⟨w.state, faults⟩) := removeDirAll_error fun p hp => by rw [hnamed] at hp; cases hp
    rw [hrun]
    have hnowhere : ∀ dir, follow w.state maxLinks dataDir [snapshots.component] = some dir →
        w.state.node dir = some .dir → ∀ n, fileName (utf8 name) ≠ some n := by
      intro dir hfollow hdir n hname
      rw [named_snapshotPath hpass hempty hdot, hfollow, Option.bind_some, hname, Option.bind_some, if_pos hdir]
        at hnamed
      cases hnamed
    refine iff_of_true oneDeleted_of_error ⟨fun dir hfollow hdir => ?_, fun dir hfollow hdir n hname => ?_⟩
    · rw [if_neg hempty, if_neg hdot]
      exact fun n hname => absurd hname (hnowhere dir hfollow hdir n)
    · exact absurd hname (hnowhere dir hfollow hdir n)
  | some p =>
    obtain ⟨dir, n, h, -⟩ := leadsTo_of_named hpass hempty hdot hnamed
    have hspares : Spares w.state dataDir name ↔ ∀ target, w.state (dir ++ [n]) ≠ some (.link target) := by
      simp [Spares, hempty, hdot, h.followed, h.fileName_eq, h.isDir]
    have hfinishes : Finishes walk w.state dataDir name w.faults ↔ (w.state (dir ++ [n]) = some .dir →
        Faultless ((walk (dir ++ [n])).length + 2) w.faults ∧
          entry (w.state.removeBelow (dir ++ [n])) dataDir (components (snapshotPath name)) = some (dir ++ [n])) := by
      rw [h.components_eq]
      simp [Finishes, h.followed, h.fileName_eq, h.isDir]
    rw [hspares, hfinishes]
    by_cases hisdir : w.state (dir ++ [n]) = some .dir
    · rw [h.remove_directory (hwalk _) hisdir hfaultless, and_iff_right fun target => by simp [hisdir],
        imp_iff_right hisdir]
    · rw [h.remove_other hisdir hfaultless, and_iff_left fun hdir => absurd hdir hisdir]

end Named

/-- **The empty name and `.`** lead to `snapshots` itself. -/
theorem deleteSnapshot_itself {w : World String FileSystem} (hwalk : ∀ p, Walks w.state p (walk p))
    (hpass : ¬Refused name) (hname : utf8 name = [] ∨ utf8 name = [46])
    (hfound : ¬Missing w.state dataDir name) (hfaultless : Faultless 2 w.faults) :
    OneDeleted dataDir name w.state (deleteSnapshot walk dataDir name w).1
        (deleteSnapshot walk dataDir name w).2.state ↔
      Spares w.state dataDir name ∧ Finishes walk w.state dataDir name w.faults := by
  obtain ⟨hcomponents, hending⟩ := components_snapshotPath hpass
  have hpiece : piece (utf8 name) = none := by
    rcases hname with hname | hname <;> rw [hname] <;> rfl
  rw [hpiece, Option.toList_none] at hcomponents
  have hplain : ending (snapshotPath name) ≠ .plain := by
    rw [hending]
    rcases hname with hname | hname <;> simp [hname]
  -- no entry has such a name
  have hnone : ∀ n : FileName, n.bytes ≠ utf8 name := fun n hn => by
    rcases hname with hname | hname
    · exact n.valid.1 (hn.trans hname)
    · exact n.valid.2.2.2.1 (hn.trans hname)
  have hone : ∀ {before after : FileSystem} {r : Except String Unit},
      OneDeleted dataDir name before r after ↔ r ≠ .ok () ∧ after = before := by
    intro before after r
    refine ⟨fun h => h.resolve_right ?_, .inl⟩
    rintro ⟨_, n, -, hn, -⟩
    exact hnone n hn
  have hfinishes : Finishes walk w.state dataDir name w.faults := fun dir _ _ n hn =>
    absurd (bytes_of_fileName hn) (hnone n)
  rw [deleteSnapshot_passed hpass, if_neg hfound, hone, and_iff_left hfinishes]
  have hnamed : named w.state dataDir (snapshotPath name) =
      follow w.state maxLinks dataDir [snapshots.component] := by rw [named, if_neg hplain, hcomponents]
  by_cases hplace : ∃ dir, follow w.state maxLinks dataDir [snapshots.component] = some dir ∧
      w.state.node dir = some .dir
  swap
  · obtain ⟨e, faults, hrun⟩ : ∃ e faults, removeDirAll "remove" walk dataDir (snapshotPath name) w =
        (.error e, ⟨w.state, faults⟩) := by
      refine removeDirAll_error fun p hp => ⟨fun hdir => hplace ⟨p, hnamed ▸ hp, hdir⟩, fun h => absurd h hplain⟩
    rw [hrun]
    exact iff_of_true ⟨by simp, rfl⟩ fun dir hfollow hdir => absurd ⟨dir, hfollow, hdir⟩ hplace
  obtain ⟨dir, hfollow, hdir⟩ := hplace
  have hspares : Spares w.state dataDir name ↔ Bare w.state dir ∧ ¬(ending (snapshotPath name) ≠ .dot ∧
      entry w.state dataDir (components (snapshotPath name)) = some dir) := by
    rw [Spares, hending, hcomponents]
    rcases hname with hname | hname <;> simp [hname, hfollow, hdir]
  rw [hspares]
  have hclear : w.state.clear (walk dir) = w.state.removeBelow dir := (hwalk dir).clear_eq
  have hwalk0 : walk dir = [] ↔ Bare w.state dir := by
    rw [← removeBelow_eq_iff, ← hclear]
    refine ⟨fun h => by rw [h, FileSystem.clear_nil], fun h => by_contra fun hsome => ?_⟩
    refine clear_take_ne (hwalk dir) (List.length_pos_of_ne_nil hsome).ne' le_rfl ?_
    rw [List.take_length, h]
  rcases removeDirAll_dir "remove" walk w.faults (hnamed.trans hfollow) hdir with
    ⟨hfaulty, e, k, faults, hk, hle, hrun⟩ | ⟨hall, r, faults, hrun, hr⟩
  · -- it stops after some entry
    rw [show removeDirAll "remove" walk dataDir (snapshotPath name) w = _ from hrun]
    have hsome : k ≠ 0 := fun h => absurd hfaultless (hk.mp h)
    refine iff_of_false (fun h => clear_take_ne (hwalk dir) hsome hle h.2) fun h => ?_
    rw [hwalk0.mpr h.1] at hle
    exact hsome (Nat.le_zero.mp hle)
  · rw [show removeDirAll "remove" walk dataDir (snapshotPath name) w = _ from hrun, ← hwalk0]
    dsimp only
    by_cases hnames : ending (snapshotPath name) ≠ .dot ∧
        entry w.state dataDir (components (snapshotPath name)) = some dir
    · exact iff_of_false (fun h => h.1 (hr.mpr hnames)) fun h => h.2 hnames
    · rw [if_neg fun h => hnames h.1, and_iff_right fun h => hnames (hr.mp h), and_iff_left hnames, hwalk0, hclear,
        removeBelow_eq_iff]

/-- **Which deletions delete one snapshot or nothing.** Of a name that is refused
or leads nowhere; those that the system stops at one of the first two calls; and
those that it does not stop later and whose name `Spares` what it should not
remove. These and no others. -/
theorem deletes_one_iff (walk : Place → List Place) (dataDir : Place) (name : String) (w : World String FileSystem)
    (hwalk : ∀ p, Walks w.state p (walk p)) :
    OneDeleted dataDir name w.state (deleteSnapshot walk dataDir name w).1
        (deleteSnapshot walk dataDir name w).2.state ↔
      Refused name ∨ Missing w.state dataDir name ∨ ¬Faultless 2 w.faults ∨
        Spares w.state dataDir name ∧ Finishes walk w.state dataDir name w.faults := by
  by_cases hrefused : Refused name
  · rw [deleteSnapshot_refused hrefused]
    exact ⟨fun _ => .inl hrefused, fun _ => oneDeleted_of_error⟩
  rw [or_iff_right hrefused]
  by_cases hfound : Missing w.state dataDir name
  · rw [deleteSnapshot_passed hrefused, if_pos hfound]
    exact ⟨fun _ => .inl hfound, fun _ => oneDeleted_of_error⟩
  rw [or_iff_right hfound]
  by_cases hfaultless : Faultless 2 w.faults
  · rw [or_iff_right (not_not.mpr hfaultless)]
    by_cases hempty : utf8 name = []
    · exact deleteSnapshot_itself hwalk hrefused (.inl hempty) hfound hfaultless
    by_cases hdot : utf8 name = [46]
    · exact deleteSnapshot_itself hwalk hrefused (.inr hdot) hfound hfaultless
    exact deleteSnapshot_named hwalk hrefused hempty hdot hfound hfaultless
  · refine ⟨fun _ => .inl hfaultless, fun _ => ?_⟩
    obtain ⟨e, faults, hfailed⟩ : ∃ e faults, removeDirAll "remove" walk dataDir (snapshotPath name) w =
        (.error e, ⟨w.state, faults⟩) := removeDirAll_faulty hfaultless
    rw [deleteSnapshot_passed hrefused, if_neg hfound, hfailed]
    exact oneDeleted_of_error

/-- A data directory `/data` with two snapshots, one file in each. -/
def twoSnapshots : List (Place × Node) :=
  [([dataName, snapshots, ⟨utf8 "main", by decide⟩, dataName], .file []),
    ([dataName, snapshots, ⟨utf8 "main", by decide⟩], .dir),
    ([dataName, snapshots, ⟨utf8 "old", by decide⟩, dataName], .file []),
    ([dataName, snapshots, ⟨utf8 "old", by decide⟩], .dir), ([dataName, snapshots], .dir), ([dataName], .dir)]

def walkTwo (p : Place) : List Place := (twoSnapshots.map (·.1)).filter fun q => p <+: q ∧ q ≠ p

theorem walks_two (p : Place) : Walks (.ofNodes twoSnapshots) p (walkTwo p) :=
  walks_ofNodes (by decide +kernel) p

/-- A snapshot is deleted beside another; and the system stops the removal of
one in the middle. -/
theorem deletes_one_main :
    OneDeleted [dataName] "main" (.ofNodes twoSnapshots)
        (deleteSnapshot walkTwo [dataName] "main" ⟨.ofNodes twoSnapshots, []⟩).1
        (deleteSnapshot walkTwo [dataName] "main" ⟨.ofNodes twoSnapshots, []⟩).2.state ∧
      ¬OneDeleted [dataName] "main" (.ofNodes twoSnapshots)
        (deleteSnapshot walkTwo [dataName] "main" ⟨.ofNodes twoSnapshots, [none, none, some "busy"]⟩).1
        (deleteSnapshot walkTwo [dataName] "main" ⟨.ofNodes twoSnapshots, [none, none, some "busy"]⟩).2.state := by
  have hfollow : follow (.ofNodes twoSnapshots) maxLinks [dataName] [snapshots.component] =
      some [dataName, snapshots] := by decide +kernel
  have hname : fileName (utf8 "main") = some ⟨utf8 "main", by decide⟩ := by decide +kernel
  have hdir : (FileSystem.ofNodes twoSnapshots) ([dataName, snapshots] ++ [⟨utf8 "main", by decide⟩]) = some .dir := by
    decide +kernel
  constructor
  · refine (deletes_one_iff walkTwo [dataName] "main" ⟨.ofNodes twoSnapshots, []⟩ walks_two).mpr
      (.inr (.inr (.inr ⟨fun dir hplace _ => ?_, fun dir hplace _ n hn _ => ?_⟩)))
    · obtain rfl := Option.some.inj (hfollow.symm.trans hplace)
      rw [if_neg (by decide), if_neg (by decide)]
      intro n hn target hlink
      obtain rfl := Option.some.inj (hname.symm.trans hn)
      exact absurd (hdir.symm.trans hlink) (by simp)
    · obtain rfl := Option.some.inj (hfollow.symm.trans hplace)
      obtain rfl := Option.some.inj (hname.symm.trans hn)
      exact ⟨by simp [Faultless], by decide +kernel⟩
  · intro hone
    rcases (deletes_one_iff walkTwo [dataName] "main" ⟨.ofNodes twoSnapshots, [none, none, some "busy"]⟩ walks_two).mp
      hone with hrefused | hmissing | hfaulty | ⟨-, hfinishes⟩
    · exact absurd hrefused (by decide +kernel)
    · exact absurd hmissing (by decide +kernel)
    · exact hfaulty (by decide +kernel)
    · exact absurd (hfinishes _ hfollow (by decide +kernel) _ hname hdir).1 (by decide +kernel)

/-- The empty name removes the snapshots with their directory. -/
theorem delete_empty_name : ¬∀ (walk : Place → List Place) (dataDir : Place) (name : String)
    (w : World String FileSystem), (∀ p, Walks w.state p (walk p)) → OneDeleted dataDir name w.state
      (deleteSnapshot walk dataDir name w).1 (deleteSnapshot walk dataDir name w).2.state := fun h => by
  have hremoved : (deleteSnapshot walkTwo [dataName] "" ⟨.ofNodes twoSnapshots, []⟩).2.state [dataName, snapshots] = none := by
    decide +kernel
  rcases h walkTwo [dataName] "" ⟨.ofNodes twoSnapshots, []⟩ walks_two with ⟨-, hsame⟩ | ⟨_, n, -, hn, -⟩
  · rw [hsame] at hremoved
    exact absurd hremoved (by decide +kernel)
  · exact n.valid.1 hn

end OnDisk
end HeatherDb
