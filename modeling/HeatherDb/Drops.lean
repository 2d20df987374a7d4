/-
# Dropping a database

`drop_database_with` takes the database out of the map, then moves its
directory into the trash under its name and the second, and with `purge`
deletes it there. A rename is tried 40 times; another directory may stand in
its place only if it is empty.

A drop that fails before the rename has unmounted a database whose files are
still in place, and one that fails in the midst of a purge leaves part of it in
the trash (`drop_iff`). What is in the trash already stays there, whatever
happens (`trash_handle`).

Key definitions: `Moves`, `Purges`, `DropAtomic`, `DropHolds`.
Key theorems: `drop_cases`, `drop_iff`, `drop_atomic_iff`.
-/
import HeatherDb.Creates

namespace HeatherDb

open Program OrderedTable

variable {F E : Type}

/-- A directory without files. -/
def DbDir.isEmpty (d : DbDir F E) : Bool := d.toml.isNone && d.tomlTmp.isNone && d.data.isNone

namespace Server

variable {b : Backend F E} {s : Server F E} {name trashed : String}

/-! ### The rename -/

/-- The server without a database. -/
def unmounted (name : String) (s : Server F E) : Server F E := { s with inner := s.inner.delete name }

/-- The server with a directory moved to the trash. -/
def moved (name trashed : String) (s : Server F E) : Server F E :=
  { s with root :=
    { s.root with
      db := s.root.db.delete name
      trash := s.root.trash.put trashed (s.root.dir name) } }

/-- Nothing stands in the way of a rename. -/
def Free (s : Server F E) (trashed : String) : Prop := (s.root.trash.get trashed).all DbDir.isEmpty = true

instance (s : Server F E) (trashed : String) : Decidable (s.Free trashed) := inferInstanceAs (Decidable (_ = _))

/-- The steps planned to fail before the first that succeeds. -/
def failures (faults : List (Option HeatherError)) : ℕ := (faults.takeWhile (·.isSome)).length

theorem renameToTrash_moves {faults : List (Option HeatherError)} (hfree : s.Free trashed)
    (hstep : Faultless 1 faults) :
    renameToTrash name trashed ⟨s, faults⟩ = (.ok (), ⟨s.moved name trashed, faults.tail⟩) := by
  have hensure : (s.root.trash.get trashed).all (fun d =>
      d.toml.isNone && d.tomlTmp.isNone && d.data.isNone) = true := hfree
  rw [renameToTrash, step_bind_of_faultless hstep, get_bind, ensure_bind, if_pos hensure]
  rfl

theorem renameToTrash_fails {faults : List (Option HeatherError)} (h : ¬(s.Free trashed ∧ Faultless 1 faults)) :
    ∃ e, renameToTrash name trashed ⟨s, faults⟩ = (.error e, ⟨s, faults.tail⟩) := by
  by_cases hstep : Faultless 1 faults
  · have hensure : ¬(s.root.trash.get trashed).all (fun d =>
      d.toml.isNone && d.tomlTmp.isNone && d.data.isNone) = true :=
      fun hfree => h ⟨hfree, hstep⟩
    refine ⟨.storage "directory not empty", ?_⟩
    rw [renameToTrash, step_bind_of_faultless hstep, get_bind, ensure_bind, if_neg hensure]
  · exact step_bind_of_faulty hstep _ s

theorem failures_eq_zero_iff {faults : List (Option HeatherError)} : failures faults = 0 ↔ Faultless 1 faults := by
  match faults with
  | [] => simp [failures, Faultless]
  | none :: _ => simp [failures, Faultless]
  | some _ :: _ => simp [failures, Faultless]

theorem failures_of_faulty {faults : List (Option HeatherError)} (h : ¬Faultless 1 faults) :
    failures faults = failures faults.tail + 1 := by
  match faults with
  | [] => simp [Faultless] at h
  | none :: _ => simp [Faultless] at h
  | some _ :: _ => rfl

/-- The first attempt whose step succeeds moves the directory, if it may be
moved at all and the attempts last. -/
theorem moveToTrash_moves (hfree : s.Free trashed) (purge : Bool) {n : ℕ} {e : HeatherError}
    {faults : List (Option HeatherError)} (hlast : failures faults < n) :
    moveToTrash name trashed purge n e ⟨s, faults⟩ =
      (if purge then removeDirAll trashed >>= fun _ => pure true else pure true)
        ⟨s.moved name trashed, faults.drop (failures faults + 1)⟩ := by
  induction n generalizing e faults with
  | zero => omega
  | succ n ih =>
    by_cases hstep : Faultless 1 faults
    · rw [moveToTrash, attempt_bind, renameToTrash_moves hfree hstep, failures_eq_zero_iff.mpr hstep, List.drop_one]
    · obtain ⟨e', hrename⟩ : ∃ e', renameToTrash name trashed ⟨s, faults⟩ = (.error e', ⟨s, faults.tail⟩) :=
        renameToTrash_fails fun h => hstep h.2
      have hcount := failures_of_faulty hstep
      have hrest : faults.tail.drop (failures faults.tail + 1) = faults.drop (failures faults + 1) := by
        rw [List.drop_tail, hcount]
      rw [moveToTrash, attempt_bind, hrename, ← hrest]
      exact ih (by omega)

/-- Else none does, and the directory stays. -/
theorem moveToTrash_fails (purge : Bool) {n : ℕ} {e : HeatherError} {faults : List (Option HeatherError)}
    (h : ¬(s.Free trashed ∧ failures faults < n)) :
    ∃ e' faults', moveToTrash name trashed purge n e ⟨s, faults⟩ = (.error e', ⟨s, faults'⟩) := by
  induction n generalizing e faults with
  | zero => exact ⟨e, faults, rfl⟩
  | succ n ih =>
    have hnow : ¬(s.Free trashed ∧ Faultless 1 faults) := fun ⟨hfree, hstep⟩ =>
      h ⟨hfree, by rw [failures_eq_zero_iff.mpr hstep]; omega⟩
    obtain ⟨e', hrename⟩ : ∃ e', renameToTrash name trashed ⟨s, faults⟩ = (.error e', ⟨s, faults.tail⟩) :=
      renameToTrash_fails hnow
    rw [moveToTrash, attempt_bind, hrename]
    refine ih fun ⟨hfree, hlast⟩ => h ⟨hfree, ?_⟩
    have hstep : ¬Faultless 1 faults := fun hstep => hnow ⟨hfree, hstep⟩
    have hcount := failures_of_faulty hstep
    omega

/-! ### The purge -/

/-- A change of a directory in the trash. -/
def changed (trashed : String) (f : DbDir F E → DbDir F E) (s : Server F E) : Server F E :=
  { s with root :=
    { s.root with trash := s.root.trash.put trashed (f ((s.root.trash.get trashed).getD ⟨none, none, none⟩)) } }

/-- What a purge leaves, by how many of its steps succeed. -/
theorem removeDirAll_cases (trashed : String) (s : Server F E) (faults : List (Option HeatherError)) :
    (¬Faultless 1 faults ∧ ∃ e faults', removeDirAll trashed ⟨s, faults⟩ = (.error e, ⟨s, faults'⟩)) ∨
      (Faultless 1 faults ∧ ¬Faultless 2 faults ∧ ∃ e faults', removeDirAll trashed ⟨s, faults⟩ =
        (.error e, ⟨s.changed trashed fun d => { d with data := none }, faults'⟩)) ∨
      (Faultless 2 faults ∧ ¬Faultless 3 faults ∧ ∃ e faults', removeDirAll trashed ⟨s, faults⟩ =
        (.error e, ⟨(s.changed trashed fun d => { d with data := none }).changed trashed
          fun d => { d with toml := none, tomlTmp := none }, faults'⟩)) ∨
      Faultless 3 faults ∧ ∃ s' faults', removeDirAll trashed ⟨s, faults⟩ = (.ok (), ⟨s', faults'⟩) ∧
        s'.inner = s.inner ∧ s'.root.db = s.root.db ∧
          ∀ other, s'.root.trash.get other = if other = trashed then none else s.root.trash.get other := by
  unfold removeDirAll
  dsimp only [onRoot]
  by_cases h₁ : Faultless 1 faults
  swap
  · obtain ⟨e, he⟩ := step_bind_of_faulty h₁ _ s
    exact .inl ⟨h₁, e, _, he⟩
  rw [step_bind_of_faultless h₁, modify_bind]
  by_cases h₂ : Faultless 1 faults.tail
  swap
  · obtain ⟨e, he⟩ := step_bind_of_faulty h₂ _ (s.changed trashed fun d => { d with data := none })
    exact .inr (.inl ⟨h₁, fun h => h₂ (faultless_succ.mp h).2, e, _, he⟩)
  rw [step_bind_of_faultless h₂, modify_bind]
  by_cases h₃ : Faultless 1 faults.tail.tail
  swap
  · obtain ⟨e, he⟩ := step_bind_of_faulty h₃ _ ((s.changed trashed fun d => { d with data := none }).changed trashed
      fun d => { d with toml := none, tomlTmp := none })
    refine .inr (.inr (.inl ⟨faultless_succ.mpr ⟨h₁, h₂⟩, fun h => h₃ ?_, e, _, he⟩))
    exact (faultless_succ.mp (faultless_succ.mp h).2).2
  rw [step_bind_of_faultless h₃, modify_apply]
  refine .inr (.inr (.inr ⟨faultless_succ.mpr ⟨h₁, faultless_succ.mpr ⟨h₂, h₃⟩⟩, _, _, rfl, rfl, rfl, fun other => ?_⟩))
  simp only [get_delete, get_put]
  split_ifs <;> rfl

/-! ### The whole drop -/

/-- Where a database goes in the trash. -/
def trashName (name : String) (now : ℕ) : String := s!"{name}-{now}"

/-- The directory gets into the trash: `_trash/` is there, nothing stands in
the way, and one of the attempts succeeds. -/
def Moves (s : Server F E) (trashed : String) (faults : List (Option HeatherError)) : Prop :=
  Faultless 1 faults ∧ s.Free trashed ∧ failures faults.tail < 40

instance (s : Server F E) (trashed : String)
    (faults : List (Option HeatherError)) : Decidable (s.Moves trashed faults) :=
  inferInstanceAs (Decidable (_ ∧ _ ∧ _))

/-- What is planned after that. -/
def afterMove (faults : List (Option HeatherError)) : List (Option HeatherError) :=
  faults.tail.drop (failures faults.tail + 1)

/-- **What a drop does.** -/
theorem drop_cases (s : Server F E) (name : String) (purge : Bool) (now : ℕ) (faults : List (Option HeatherError)) :
    ((name = defaultDb ∨ s.database name = none) ∧ ∃ r,
      dropDatabaseWith name purge now ⟨s, faults⟩ = (r, ⟨s, faults⟩)) ∨
      (name ≠ defaultDb ∧ (s.database name).isSome ∧ s.root.db.get name = none ∧
        dropDatabaseWith name purge now ⟨s, faults⟩ = (.ok true, ⟨s.unmounted name, faults⟩)) ∨
      (name ≠ defaultDb ∧ (s.database name).isSome ∧ (s.root.db.get name).isSome ∧
        ¬s.Moves (trashName name now) faults ∧
        ∃ e faults', dropDatabaseWith name purge now ⟨s, faults⟩ = (.error e, ⟨s.unmounted name, faults'⟩)) ∨
      name ≠ defaultDb ∧ (s.database name).isSome ∧ (s.root.db.get name).isSome ∧ s.Moves (trashName name now) faults ∧
        dropDatabaseWith name purge now ⟨s, faults⟩ =
          (if purge then removeDirAll (trashName name now) >>= fun _ => pure true else pure true)
            ⟨(s.unmounted name).moved name (trashName name now), afterMove faults⟩ := by
  by_cases hdefault : name = defaultDb
  · exact .inl ⟨.inl hdefault, _, by rw [dropDatabaseWith, if_pos hdefault]; rfl⟩
  cases hmounted : s.inner.get name with
  | none =>
    refine .inl ⟨.inr hmounted, .ok false, ?_⟩
    simp only [dropDatabaseWith, if_neg hdefault, get_bind, hmounted]
    rfl
  | some mounted =>
    have hsome : (s.database name).isSome := by rw [database, hmounted]; rfl
    cases hdir : s.root.db.get name with
    | none =>
      refine .inr (.inl ⟨hdefault, hsome, rfl, ?_⟩)
      simp only [dropDatabaseWith, if_neg hdefault, get_bind, hmounted, modify_bind, hdir]
      rfl
    | some d =>
      have hrun : dropDatabaseWith name purge now ⟨s, faults⟩ =
          (step >>= fun _ => moveToTrash name (trashName name now) purge 40 (.storage "loop runs at least once"))
            ⟨s.unmounted name, faults⟩ := by
        simp only [dropDatabaseWith, if_neg hdefault, get_bind, hmounted, modify_bind, hdir]
        rfl
      rw [hrun]
      refine .inr (.inr ?_)
      by_cases htrash : Faultless 1 faults
      · rw [step_bind_of_faultless htrash]
        by_cases hmoves : s.Free (trashName name now) ∧ failures faults.tail < 40
        · have hfree : (s.unmounted name).Free (trashName name now) := hmoves.1
          exact .inr ⟨hdefault, hsome, rfl, ⟨htrash, hmoves⟩, moveToTrash_moves hfree purge hmoves.2⟩
        · have hstays : ¬((s.unmounted name).Free (trashName name now) ∧ failures faults.tail < 40) := hmoves
          exact .inl ⟨hdefault, hsome, rfl, fun h => hmoves h.2, moveToTrash_fails purge hstays⟩
      · obtain ⟨e, he⟩ := step_bind_of_faulty htrash
          (fun _ => moveToTrash name (trashName name now) purge 40 (.storage "loop runs at least once"))
            (s.unmounted name)
        exact .inl ⟨hdefault, hsome, rfl, fun h => htrash h.1, e, _, he⟩

/-- The database is mounted and on disk as before. -/
def Served (name : String) (s s' : Server F E) : Prop :=
  s'.database name = s.database name ∧ s'.root.db.get name = s.root.db.get name

/-- The database is nowhere but in the trash, and there completely. -/
def InTrash (name trashed : String) (s s' : Server F E) : Prop :=
  s'.database name = none ∧ s'.root.db.get name = none ∧ s'.root.trash.get trashed = s.root.db.get name

/-- A drop that fails leaves the database as it was or all of it in the trash,
and no drop changes what is in the trash. A directory without files, which holds
nothing, may be replaced. -/
structure DropAtomic (name trashed : String) (s s' : Server F E) (r : Except HeatherError Bool) : Prop where
  whole : ∀ e, r = .error e → Served name s s' ∨ InTrash name trashed s s'
  kept : ∀ other d, s.root.trash.get other = some d → d.isEmpty = false → s'.root.trash.get other = some d

/-- A purge deletes nothing or everything. -/
def Purges (d : DbDir F E) (faults : List (Option HeatherError)) : Prop :=
  ¬Faultless 1 faults ∨ Faultless 3 faults ∨
    d.data = none ∧ (¬Faultless 2 faults ∨ d.toml = none ∧ d.tomlTmp = none)

/-- When a drop is atomic. -/
def DropHolds (s : Server F E) (name : String) (purge : Bool) (now : ℕ) (faults : List (Option HeatherError)) : Prop :=
  name = defaultDb ∨ s.database name = none ∨ s.root.db.get name = none ∨
    s.Moves (trashName name now) faults ∧ (purge = true → Purges (s.root.dir name) (afterMove faults))

/-! ### When a drop is atomic -/

@[simp] theorem database_unmounted (s : Server F E) (name : String) : (s.unmounted name).database name = none :=
  get_delete_self _ _

theorem trash_moved (hfree : s.Free trashed) {other : String} {d : DbDir F E} (hd : s.root.trash.get other = some d)
    (hfiles : d.isEmpty = false) : (s.moved name trashed).root.trash.get other = some d ∧ other ≠ trashed := by
  have hother : other ≠ trashed := by
    rintro rfl
    rw [Free, hd, Option.all_some, hfiles] at hfree
    cases hfree
  exact ⟨(get_put_of_ne _ _ hother).trans hd, hother⟩

/-- What a purge does to the other entries of the trash and outside of it. -/
theorem removeDirAll_other (trashed : String) (s : Server F E) (faults : List (Option HeatherError)) {other : String}
    (hother : other ≠ trashed) :
    (removeDirAll trashed ⟨s, faults⟩).2.state.root.trash.get other = s.root.trash.get other := by
  rcases removeDirAll_cases trashed s faults with ⟨-, e, fs, h⟩ | ⟨-, -, e, fs, h⟩ | ⟨-, -, e, fs, h⟩ |
    ⟨-, s', fs, h, -, -, hget⟩
  · rw [h]
  · rw [h]
    exact get_put_of_ne _ _ hother
  · rw [h]
    exact (get_put_of_ne _ _ hother).trans (get_put_of_ne _ _ hother)
  · rw [h]
    exact (hget other).trans (if_neg hother)

theorem inner_removeDirAll (trashed : String) (s : Server F E) (faults : List (Option HeatherError)) :
    (removeDirAll trashed ⟨s, faults⟩).2.state.inner = s.inner := by
  rcases removeDirAll_cases trashed s faults with ⟨-, e, fs, h⟩ | ⟨-, -, e, fs, h⟩ | ⟨-, -, e, fs, h⟩ |
    ⟨-, s', fs, h, hinner, -⟩
  · rw [h]
  · rw [h]
    rfl
  · rw [h]
    rfl
  · rw [h]
    exact hinner

/-- The purge as the last part of a drop. -/
theorem purged_apply (trashed : String) (w : World HeatherError (Server F E)) :
    ((removeDirAll trashed >>= fun _ => pure true) w).2 = (removeDirAll trashed w).2 ∧
      ∀ e, ((removeDirAll trashed >>= fun _ => pure true) w).1 = .error e ↔ (removeDirAll trashed w).1 = .error e := by
  rw [bind_apply]
  rcases removeDirAll trashed w with ⟨e | u, w'⟩
  · exact ⟨rfl, fun e' => by simp⟩
  · exact ⟨rfl, fun e' => by simp⟩

/-- **Nothing in the trash is overwritten or merged into**, whatever fails. -/
theorem trash_kept (s : Server F E) (name : String) (purge : Bool) (now : ℕ) (faults : List (Option HeatherError))
    {other : String} {d : DbDir F E} (hd : s.root.trash.get other = some d) (hfiles : d.isEmpty = false) :
    (dropDatabaseWith name purge now ⟨s, faults⟩).2.state.root.trash.get other = some d := by
  rcases drop_cases s name purge now faults with ⟨-, r, h⟩ | ⟨-, -, -, h⟩ | ⟨-, -, -, -, e, fs, h⟩ |
    ⟨-, -, -, hmoves, h⟩
  · rw [h]
    exact hd
  · rw [h]
    exact hd
  · rw [h]
    exact hd
  · have hfree : (s.unmounted name).Free (trashName name now) := hmoves.2.1
    obtain ⟨hmoved, hother⟩ : (s.moved name (trashName name now)).root.trash.get other = some d ∧
        other ≠ trashName name now := trash_moved hfree hd hfiles
    rw [h]
    cases purge with
    | false => exact hmoved
    | true =>
      rw [if_pos rfl, (purged_apply _ _).1]
      exact (removeDirAll_other _ _ _ hother).trans hmoved

/-- A database that was taken out of the map is not served. -/
theorem not_served {s' : Server F E} (hsome : (s.database name).isSome) (hgone : s'.database name = none) :
    ¬Served name s s' := fun h => by
  rw [← h.1, hgone] at hsome
  cases hsome

/-- A purge leaves the whole directory in the trash, if it fails, exactly when
it deletes nothing or everything. -/
theorem purge_iff {s₁ : Server F E} {d : DbDir F E} {faults : List (Option HeatherError)}
    (hdir : s.root.db.get name = some d)
    (hunmounted : s₁.database name = none) (hgone : s₁.root.db.get name = none)
    (htrash : s₁.root.trash.get trashed = some d) :
    (∀ e, (removeDirAll trashed ⟨s₁, faults⟩).1 = .error e →
      InTrash name trashed s (removeDirAll trashed ⟨s₁, faults⟩).2.state) ↔ Purges d faults := by
  have hin : ∀ d' : DbDir F E, ∀ s' : Server F E, s'.database name = none → s'.root.db.get name = none →
      s'.root.trash.get trashed = some d' → (InTrash name trashed s s' ↔ d' = d) := by
    intro d' s' hnone hdb hget
    rw [InTrash, hget, hdir, Option.some.injEq]
    exact ⟨fun h => h.2.2, fun h => ⟨hnone, hdb, h⟩⟩
  have hchanged : ∀ (f : DbDir F E → DbDir F E) (s' : Server F E) (d' : DbDir F E),
      s'.root.trash.get trashed = some d' →
      (s'.changed trashed f).root.trash.get trashed = some (f d') := by
    intro f s' d' hget
    simp [changed, hget]
  unfold Purges
  rcases removeDirAll_cases trashed s₁ faults with ⟨h₁, e, fs, h⟩ | ⟨h₁, h₂, e, fs, h⟩ | ⟨h₂, h₃, e, fs, h⟩ |
    ⟨h₃, s', fs, h, -⟩
  · rw [h]
    exact iff_of_true (fun _ _ => (hin d s₁ hunmounted hgone htrash).mpr rfl) (.inl h₁)
  · have h₃ : ¬Faultless 3 faults := fun h₃ => h₂ (fun f hf => h₃ f (List.take_subset_take_left faults (by omega) hf))
    rw [h]
    have hdata : ({ d with data := none } : DbDir F E) = d ↔ d.data = none := by
      obtain ⟨toml, tmp, data⟩ := d
      simp [eq_comm]
    have htrash' := hin _ (s₁.changed trashed fun d => { d with data := none }) hunmounted hgone (hchanged _ _ _ htrash)
    simp only [h₁, h₂, h₃, not_true_eq_false, not_false_eq_true, true_or, and_true, false_or, ← hdata, ← htrash']
    exact ⟨fun hwhole => hwhole e rfl, fun hwhole _ _ => hwhole⟩
  · have h₁ : Faultless 1 faults := fun f hf => h₂ f (List.take_subset_take_left faults (by omega) hf)
    rw [h]
    have hempty : ({ ({ d with data := none } : DbDir F E) with toml := none, tomlTmp := none } : DbDir F E) = d ↔
        d.data = none ∧ d.toml = none ∧ d.tomlTmp = none := by
      obtain ⟨toml, tmp, data⟩ := d
      simp only [DbDir.mk.injEq, eq_comm]
      tauto
    have htrash' := hin _ ((s₁.changed trashed fun d => { d with data := none }).changed trashed
      fun d => { d with toml := none, tomlTmp := none }) hunmounted hgone (hchanged _ _ _ (hchanged _ _ _ htrash))
    simp only [h₁, h₂, h₃, not_true_eq_false, false_or, ← hempty, ← htrash']
    exact ⟨fun hwhole => hwhole e rfl, fun hwhole _ _ => hwhole⟩
  · rw [h]
    exact iff_of_true (fun _ he => by cases he) (.inr (.inl h₃))

/-- **A drop is atomic exactly when it holds.** -/
theorem drop_iff (s : Server F E) (name : String) (purge : Bool) (now : ℕ) (faults : List (Option HeatherError)) :
    DropAtomic name (trashName name now) s (dropDatabaseWith name purge now ⟨s, faults⟩).2.state
        (dropDatabaseWith name purge now ⟨s, faults⟩).1 ↔ DropHolds s name purge now faults := by
  have hkept : ∀ other d, s.root.trash.get other = some d → d.isEmpty = false →
      (dropDatabaseWith name purge now ⟨s, faults⟩).2.state.root.trash.get other = some d :=
    fun other d hd hfiles => trash_kept s name purge now faults hd hfiles
  have hiff : DropAtomic name (trashName name now) s (dropDatabaseWith name purge now ⟨s, faults⟩).2.state
      (dropDatabaseWith name purge now ⟨s, faults⟩).1 ↔
        ∀ e, (dropDatabaseWith name purge now ⟨s, faults⟩).1 = .error e →
          Served name s (dropDatabaseWith name purge now ⟨s, faults⟩).2.state ∨
            InTrash name (trashName name now) s (dropDatabaseWith name purge now ⟨s, faults⟩).2.state :=
    ⟨fun h => h.whole, fun h => ⟨h, hkept⟩⟩
  rw [hiff]
  unfold DropHolds
  rcases drop_cases s name purge now faults with ⟨hsame, r, h⟩ | ⟨hdefault, hsome, hdir, h⟩ |
    ⟨hdefault, hsome, hdir, hmoves, e, fs, h⟩ | ⟨hdefault, hsome, hdir, hmoves, h⟩
  · rw [h]
    exact iff_of_true (fun _ _ => .inl ⟨rfl, rfl⟩) (hsame.imp_right .inl)
  · rw [h]
    exact iff_of_true (fun _ he => by cases he) (.inr (.inr (.inl hdir)))
  · obtain ⟨d, hd⟩ := Option.isSome_iff_exists.mp hdir
    have hmounted : s.database name ≠ none := fun hnone => by simp [hnone] at hsome
    rw [h]
    refine iff_of_false (fun hwhole => ?_) (by simp [hdefault, hmounted, hd, hmoves])
    rcases hwhole e rfl with hserved | ⟨-, hgone, -⟩
    · exact not_served hsome (database_unmounted s name) hserved
    · exact absurd (hd.symm.trans hgone) (by simp)
  · obtain ⟨d, hd⟩ := Option.isSome_iff_exists.mp hdir
    have hmounted : s.database name ≠ none := fun hnone => by simp [hnone] at hsome
    have hdirName : s.root.dir name = d := by rw [DataDir.dir, hd, Option.getD_some]
    simp only [hdefault, hmounted, hd, hmoves, hdirName, reduceCtorEq, false_or, true_and]
    cases purge with
    | false =>
      rw [h]
      exact iff_of_true (fun _ he => by cases he) (fun hp => by cases hp)
    | true =>
      let s₁ := (s.unmounted name).moved name (trashName name now)
      have hunmounted : s₁.database name = none := database_unmounted s name
      have hgone : s₁.root.db.get name = none := get_delete_self _ _
      have htrash : s₁.root.trash.get (trashName name now) = some d := by
        rw [← hdirName]
        exact get_put_self _ _ _
      have hpurge : (∀ e, (removeDirAll (trashName name now) ⟨s₁, afterMove faults⟩).1 = .error e →
          InTrash name (trashName name now) s (removeDirAll (trashName name now) ⟨s₁, afterMove faults⟩).2.state) ↔
            Purges d (afterMove faults) := purge_iff hd hunmounted hgone htrash
      have hserved : ¬Served name s (removeDirAll (trashName name now) ⟨s₁, afterMove faults⟩).2.state :=
        not_served hsome (by rw [database, inner_removeDirAll]; exact hunmounted)
      obtain ⟨hstate, herror⟩ := purged_apply (trashName name now) ⟨s₁, afterMove faults⟩
      have hrun : dropDatabaseWith name true now ⟨s, faults⟩ =
          (removeDirAll (trashName name now) >>= fun _ => pure true) ⟨s₁, afterMove faults⟩ := h
      rw [hrun, hstate]
      simp only [herror, hserved, false_or, hpurge, true_implies]

/-! ### Creates and drops in turn -/

inductive DbEvent (F : Type) where
  | create (cfg : DbConfig F)
  | drop (name : String) (purge : Bool) (now : ℕ)

/-- One call, with the plan of its faults. -/
def handle [Scalar F] (b : Backend F E) (s : Server F E) : DbEvent F × List (Option HeatherError) → Server F E
  | (.create cfg, faults) => (createDatabase b cfg ⟨s, faults⟩).2.state
  | (.drop name purge now, faults) => (dropDatabaseWith name purge now ⟨s, faults⟩).2.state

/-- A create leaves the trash alone. -/
theorem trash_createDatabase [Scalar F] (cfg : DbConfig F) (trash : OrderedTable String (DbDir F E)) :
    Ensures (fun s : Server F E => s.root.trash = trash) (createDatabase b cfg) fun _ => True := by
  have hpiece : ∀ phase, Ensures (fun s : Server F E => s.root.trash = trash) (createStep b cfg phase) fun _ => True :=
    fun phase => (createStep_atomic b cfg phase).ensures fun s h => by
      rw [← h]
      cases phase <;> rfl
  rw [createDatabase_eq]
  refine (hpiece .check).bind fun _ _ => (hpiece .makeDir).bind fun _ _ => (hpiece .writeTmp).bind fun _ _ => ?_
  refine (hpiece .renameTmp).bind fun _ _ => (hpiece .openDir).bind fun _ _ => (hpiece .openEnv).bind fun _ _ => ?_
  exact (hpiece .insert).bind fun _ _ => Ensures.pure trivial

theorem trash_handle [Scalar F] {event : DbEvent F × List (Option HeatherError)} {other : String} {d : DbDir F E}
    (hd : s.root.trash.get other = some d) (hfiles : d.isEmpty = false) :
    (handle b s event).root.trash.get other = some d := by
  obtain ⟨cfg | ⟨name, purge, now⟩, faults⟩ := event
  · have hsame := (trash_createDatabase (b := b) cfg s.root.trash ⟨s, faults⟩ rfl).1
    exact (congrArg (fun t => t.get other) hsame).trans hd
  · exact trash_kept s name purge now faults hd hfiles

/-- **Each drop, in any state and whatever fails, is atomic exactly when it
holds, and in no run of creates and drops is anything in the trash overwritten
or merged into.** -/
theorem drop_atomic_iff [Scalar F] (b : Backend F E) :
    (∀ (s : Server F E) name purge now faults,
      DropAtomic name (trashName name now) s (dropDatabaseWith name purge now ⟨s, faults⟩).2.state
        (dropDatabaseWith name purge now ⟨s, faults⟩).1 ↔ DropHolds s name purge now faults) ∧
      ∀ s events s', Run (fun s event s' => handle b s event = s') s events s' → ∀ other d,
        s.root.trash.get other = some d → d.isEmpty = false → s'.root.trash.get other = some d :=
  ⟨drop_iff, fun _ _ _ hrun _ _ hd hfiles => hrun.invariant hd fun hd hs => hs ▸ trash_handle hd hfiles⟩

/-- A database that was created, dropped and created again. -/
def recreated : Server ℚ ℕ :=
  [(DbEvent.create (smallDb "a" 1), []), (.drop "a" false 5, []),
    (.create (smallDb "a" 1), [])].foldl (handle smallBackend)
    ⟨.fresh, .empty, .empty⟩

/-- To drop it within the same second fails, and unmounts a database that stays
on disk. -/
theorem second_drop_unmounts :
    ¬DropAtomic "a" (trashName "a" 5) recreated (dropDatabaseWith "a" false 5 ⟨recreated, []⟩).2.state
      (dropDatabaseWith "a" false 5 ⟨recreated, []⟩).1 := by
  intro h
  have hfails : (dropDatabaseWith "a" false 5 ⟨recreated, []⟩).1.isOk = false := by decide +kernel
  have hbefore : (recreated.database "a").isSome := by decide +kernel
  have hafter : ((dropDatabaseWith "a" false 5 ⟨recreated, []⟩).2.state.database "a").isSome =
      false := by decide +kernel
  have hstays : ((dropDatabaseWith "a" false 5 ⟨recreated, []⟩).2.state.root.db.get "a").isSome := by decide +kernel
  cases hresult : (dropDatabaseWith "a" false 5 ⟨recreated, []⟩).1 with
  | ok r =>
    rw [hresult] at hfails
    cases hfails
  | error e =>
    rcases h.whole e hresult with hserved | htrashed
    · rw [hserved.1, hbefore] at hafter
      cases hafter
    · rw [htrashed.2.1] at hstays
      cases hstays

end Server

end HeatherDb
