/-
# The user store

`users.rs` of the server: a table of users by name that the command line and
the server share, every call of which is a transaction whose steps may fail,
and `bootstrap_admin_if_needed` of `auth.rs`, which a boot calls. Argon2 and
its random salts are outside; a row's bytes are the user here.

`verify` takes exactly the password that was last acknowledged: a call that
returned an error changed nothing, and one that returned put its row
(`keeps_step`). So the table refines the accounts as whoever made the calls
knows them (`Accounts.after`), over every run and every plan of faults.

Key definitions: `Argon2`, `validateUsername`, `UserStore.create`,
`UserStore.setPassword`, `UserStore.delete`, `UserStore.verify`,
`UserStore.bootstrapAdminIfNeeded`, `Accounts.after`, `Refines`.
Key theorems: `keeps_step`, `verify_acknowledged`.
-/
import HeatherDb.DbConfig
import HeatherDb.Lib.Faults
import HeatherDb.Lib.OrderedTable
import HeatherDb.Users

namespace HeatherDb

open Program OrderedTable

/-- Argon2: hashing with a salt, and whether a stored hash parses and is this
password's. -/
structure Argon2 where
  hash : String → String → Except String String
  verify : String → String → Bool

/-- A hash is that of its password alone. -/
class Argon2.Sound (argon : Argon2) : Prop where
  verify_hash {salt password hash : String} (h : argon.hash salt password = .ok hash) (password' : String) :
    argon.verify hash password' = true ↔ password' = password

/-! ### Names -/

/-- The characters of a user name after the first. -/
def usernameChar (c : Char) : Bool := c.isAlphanum || c == '_' || c == '-' || c == '.'

def validateUsername (name : String) : Except String Unit :=
  if name.isEmpty || decide (64 < name.utf8ByteSize) then .error "username must be 1..=64 chars"
  else
    match name.toList with
    | [] => .ok ()
    | first :: rest =>
      if !first.isAlpha then .error "username must start with a letter"
      else
        match rest.find? fun c => !usernameChar c with
        | some c => .error s!"username has invalid char {c.quote} (allowed: a-zA-Z0-9 _ - .)"
        | none => .ok ()

/-! ### The operations -/

/-- Users by name. -/
abbrev UserTable := OrderedTable String User

namespace UserStore

variable (argon : Argon2)

/-- Whether no user is there; also when it cannot be read. -/
def isEmpty : Program String UserTable Bool := do
  match ← attempt step with
  | .error _ => pure true
  | .ok _ =>
    match ← attempt step with
    | .error _ => pure true
    | .ok _ => do
      let users ← get
      pure users.entries.isEmpty

/-- Create a new user. -/
def create (name password : String) (scope : Scope) (salt : String) (now : ℕ) : Program String UserTable User := do
  ofExcept (validateUsername name)
  ensure (8 ≤ password.utf8ByteSize) "password must be at least 8 characters"
  let hash ← ofExcept (argon.hash salt password)
  let user : User := ⟨name, hash, scope, now⟩
  transaction fun txn => do
    step
    ensure (txn.get name = none) s!"user already exists: {name}"
    step
    pure (user, txn.put user.name user)

/-- Update a user's password. -/
def setPassword (name newPassword salt : String) : Program String UserTable Unit := do
  ensure (8 ≤ newPassword.utf8ByteSize) "password must be at least 8 characters"
  let hash ← ofExcept (argon.hash salt newPassword)
  transaction fun txn => do
    step
    match txn.get name with
    | none => fail s!"user not found: {name}"
    | some user => do
      step
      pure ((), txn.put user.name { user with passwordHash := hash })

/-- Delete a user; whether there was one. -/
def delete (name : String) : Program String UserTable Bool :=
  transaction fun txn => do
    step
    pure ((txn.get name).isSome, txn.delete name)

/-- The current user of a name. -/
def get (name : String) : Program String UserTable (Option User) := do
  match ← attempt step with
  | .error _ => pure none
  | .ok _ =>
    match ← attempt step with
    | .error _ => pure none
    | .ok _ => do
      let users ← Program.get
      pure (users.get name)

/-- The hash that is checked when there is no user to check. -/
def decoy : String :=
  "$argon2id$v=19$m=19456,t=2,p=1$YWFhYWFhYWFhYWFhYWFhYQ$qJDuO5/0aMQHsfZK2dMNgJsEuXRTyT5xhI8Sx5Z03Ag"

/-- The user with this name and password. A hash is checked in any case, so
that the time it takes does not tell who is a user. -/
def verify (name password : String) : Program String UserTable (Option User) := do
  match ← attempt step with
  | .error _ => pure none
  | .ok _ => do
    let read ← attempt step
    let users ← Program.get
    let found := match read with
      | .ok _ => users.get name
      | .error _ => none
    let hash := (found.map (·.passwordHash)).getD decoy
    pure (if argon.verify hash password then found else none)

/-- The password of the first user, and whether it is the generated one. -/
def adminPassword (explicitPassword : Option String) (generated : String) : String × Bool :=
  match explicitPassword with
  | some p => if p.isEmpty then (generated, true) else (p, false)
  | none => (generated, true)

/-- `bootstrap_admin_if_needed`: the password of the user it created, if it
did, and whether it is the generated one. -/
def bootstrapAdminIfNeeded (userName : String) (explicitPassword : Option String) (generated salt : String) (now : ℕ) :
    Program String UserTable (Option (String × Bool)) := do
  if !(← isEmpty) then pure none
  else
    let password := adminPassword explicitPassword generated
    let _ ← create argon userName password.1 .root salt now
    pure (some password)

end UserStore

/-! ### Runs -/

/-- A call that may change the table, with the salt it draws and its reading
of the clock. -/
inductive UserEvent where
  | create (name password : String) (scope : Scope) (salt : String) (now : ℕ)
  | setPassword (name password salt : String)
  | delete (name : String)
  | bootstrap (userName : String) (explicitPassword : Option String) (generated salt : String) (now : ℕ)

/-- What a call tells its caller. -/
inductive UserReply where
  | created (user : User)
  | done
  | deleted (existed : Bool)
  | bootstrapped (password : Option (String × Bool))

namespace UserEvent

def run (argon : Argon2) : UserEvent → Program String UserTable UserReply
  | .create name password scope salt now => do
    let user ← UserStore.create argon name password scope salt now
    pure (.created user)
  | .setPassword name password salt => do
    UserStore.setPassword argon name password salt
    pure .done
  | .delete name => do
    let existed ← UserStore.delete name
    pure (.deleted existed)
  | .bootstrap userName explicitPassword generated salt now => do
    let password ← UserStore.bootstrapAdminIfNeeded argon userName explicitPassword generated salt now
    pure (.bootstrapped password)

/-- The hash a call would store. -/
def hash (argon : Argon2) : UserEvent → Option String
  | .create _ password _ salt _ | .setPassword _ password salt => (argon.hash salt password).toOption
  | .delete _ => none
  | .bootstrap _ explicitPassword generated salt _ =>
    (argon.hash salt (UserStore.adminPassword explicitPassword generated).1).toOption

end UserEvent

/-- A call and its outcome. -/
abbrev UserOutcome := UserEvent × Except String UserReply

/-- One call, whatever the storage answers its steps. -/
def UserStep (argon : Argon2) (s : UserTable) (o : UserOutcome) (s' : UserTable) : Prop :=
  ∃ faults faults', o.1.run argon ⟨s, faults⟩ = (o.2, ⟨s', faults'⟩)

/-! ### What the callers know -/

/-- An account as its holder knows it. -/
structure Account where
  password : String
  scope : Scope
  createdAt : ℕ
deriving DecidableEq

/-- Accounts by name. -/
abbrev Accounts := String → Option Account

/-- The accounts after a call, from what it told its caller. -/
def Accounts.after (accounts : Accounts) : UserOutcome → Accounts
  | (.create name password scope _ now, .ok _) => Function.update accounts name (some ⟨password, scope, now⟩)
  | (.setPassword name password _, .ok _) =>
    Function.update accounts name ((accounts name).map fun a => { a with password := password })
  | (.delete name, .ok _) => Function.update accounts name none
  | (.bootstrap userName _ _ _ now, .ok (.bootstrapped (some (password, _)))) =>
    Function.update accounts userName (some ⟨password, .root, now⟩)
  | _ => accounts

/-- The accounts that the outcomes of a run leave. -/
def accountsAfter (os : List UserOutcome) : Accounts := os.foldl Accounts.after fun _ => none

/-- The row of an account: its hash is of the account's password. -/
structure Account.Row (argon : Argon2) (name : String) (a : Account) (u : User) : Prop where
  name_eq : u.name = name
  hash : ∃ salt, argon.hash salt a.password = .ok u.passwordHash
  scope_eq : u.scope = a.scope
  createdAt_eq : u.createdAt = a.createdAt

/-- The table holds the accounts. -/
def Refines (argon : Argon2) (accounts : Accounts) (s : UserTable) : Prop :=
  ∀ name, Option.Rel (Account.Row argon name) (accounts name) (s.get name)

variable {argon : Argon2} {accounts : Accounts} {s s' : UserTable}

/-- A row is stored under its user's name. -/
theorem Refines.name_eq (h : Refines argon accounts s) {name : String} {u : User} (hget : s.get name = some u) :
    u.name = name := by
  have hrow := h name
  rw [hget] at hrow
  generalize accounts name = account at hrow
  cases hrow with
  | some hrow => exact hrow.name_eq

theorem Refines.update (h : Refines argon accounts s) {name : String} {a : Option Account}
    (hs : ∀ other, other ≠ name → s'.get other = s.get other)
    (ha : Option.Rel (Account.Row argon name) a (s'.get name)) :
    Refines argon (Function.update accounts name a) s' := fun other => by
  rcases eq_or_ne other name with rfl | hne
  · rw [Function.update_self]
    exact ha
  · rw [Function.update_of_ne hne, hs other hne]
    exact h other

/-! ### How the calls end -/

namespace UserStore

variable {name password salt : String} {now : ℕ} {fs : List (Option String)}

/-- A creation failed and changed nothing, or put the new user's row. -/
theorem create_cases (argon : Argon2) (name password : String) (scope : Scope) (salt : String) (now : ℕ)
    (s : UserTable) (fs : List (Option String)) :
    (∃ e fs', create argon name password scope salt now ⟨s, fs⟩ = (.error e, ⟨s, fs'⟩)) ∨
      ∃ hash fs', argon.hash salt password = .ok hash ∧ s.get name = none ∧
        create argon name password scope salt now ⟨s, fs⟩ =
          (.ok ⟨name, hash, scope, now⟩, ⟨s.put name ⟨name, hash, scope, now⟩, fs'⟩) := by
  unfold create
  cases hname : validateUsername name with
  | error e => exact Or.inl ⟨e, fs, rfl⟩
  | ok u =>
    rw [ofExcept_ok_bind, ensure_bind]
    split_ifs with hlong
    · cases hhash : argon.hash salt password with
      | error e => exact Or.inl ⟨e, fs, rfl⟩
      | ok hash =>
        have hbody : Ensures (· = s) (do
            step
            ensure (s.get name = none) s!"user already exists: {name}"
            step
            pure ((⟨name, hash, scope, now⟩ : User), s.put name ⟨name, hash, scope, now⟩) :
            Program String UserTable (User × UserTable))
            fun v => s.get name = none ∧ v = (⟨name, hash, scope, now⟩, s.put name ⟨name, hash, scope, now⟩) :=
          Ensures.step.bind fun _ _ => Ensures.ensure.bind fun _ hfree => Ensures.step.bind fun _ _ =>
            Ensures.pure ⟨hfree, rfl⟩
        rcases transaction_ends (f := fun txn : UserTable => (do
            step
            ensure (txn.get name = none) s!"user already exists: {name}"
            step
            pure ((⟨name, hash, scope, now⟩ : User), txn.put name ⟨name, hash, scope, now⟩) :
            Program String UserTable (User × UserTable))) hbody fs with ⟨e, fs', h⟩ | ⟨_, fs', ⟨hfree, rfl⟩, h⟩
        · exact Or.inl ⟨e, fs', h⟩
        · exact Or.inr ⟨hash, fs', rfl, hfree, h⟩
    · exact Or.inl ⟨_, fs, rfl⟩

/-- A change of password failed and changed nothing, or put the row with the
new hash. -/
theorem setPassword_cases (argon : Argon2) (name newPassword salt : String) (s : UserTable)
    (fs : List (Option String)) :
    (∃ e fs', setPassword argon name newPassword salt ⟨s, fs⟩ = (.error e, ⟨s, fs'⟩)) ∨
      ∃ hash user fs', argon.hash salt newPassword = .ok hash ∧ s.get name = some user ∧
        setPassword argon name newPassword salt ⟨s, fs⟩ =
          (.ok (), ⟨s.put user.name { user with passwordHash := hash }, fs'⟩) := by
  unfold setPassword
  rw [ensure_bind]
  split_ifs with hlong
  · cases hhash : argon.hash salt newPassword with
    | error e => exact Or.inl ⟨e, fs, rfl⟩
    | ok hash =>
      have hbody : Ensures (· = s) (do
          step
          match s.get name with
          | none => fail s!"user not found: {name}"
          | some user => do
            step
            pure ((), s.put user.name { user with passwordHash := hash }) : Program String UserTable (Unit × UserTable))
          fun v => ∃ user, s.get name = some user ∧ v = ((), s.put user.name { user with passwordHash := hash }) := by
        refine Ensures.step.bind fun _ _ => ?_
        cases s.get name with
        | none => exact Ensures.fail
        | some user => exact Ensures.step.bind fun _ _ => Ensures.pure ⟨user, rfl, rfl⟩
      rcases transaction_ends (f := fun txn : UserTable => (do
          step
          match txn.get name with
          | none => fail s!"user not found: {name}"
          | some user => do
            step
            pure ((), txn.put user.name { user with passwordHash := hash }) : Program String UserTable (Unit × UserTable)))
          hbody fs with ⟨e, fs', h⟩ | ⟨_, fs', ⟨user, hget, rfl⟩, h⟩
      · exact Or.inl ⟨e, fs', h⟩
      · exact Or.inr ⟨hash, user, fs', rfl, hget, h⟩
  · exact Or.inl ⟨_, fs, rfl⟩

/-- A deletion failed and changed nothing, or deleted the row. -/
theorem delete_cases (name : String) (s : UserTable) (fs : List (Option String)) :
    (∃ e fs', delete name ⟨s, fs⟩ = (.error e, ⟨s, fs'⟩)) ∨
      ∃ fs', delete name ⟨s, fs⟩ = (.ok (s.get name).isSome, ⟨s.delete name, fs'⟩) := by
  have hbody : Ensures (· = s) (do
      step
      pure ((s.get name).isSome, s.delete name) : Program String UserTable (Bool × UserTable))
      fun v => v = ((s.get name).isSome, s.delete name) := Ensures.step.bind fun _ _ => Ensures.pure rfl
  rcases transaction_ends (f := fun txn : UserTable => (do
      step
      pure ((txn.get name).isSome, txn.delete name) : Program String UserTable (Bool × UserTable))) hbody fs with
    ⟨e, fs', h⟩ | ⟨_, fs', rfl, h⟩
  · exact Or.inl ⟨e, fs', h⟩
  · exact Or.inr ⟨fs', h⟩

/-- Asking whether the table is empty changes nothing. -/
theorem isEmpty_cases (s : UserTable) (fs : List (Option String)) : ∃ b fs', isEmpty ⟨s, fs⟩ = (.ok b, ⟨s, fs'⟩) := by
  rcases fs with _ | ⟨_ | e, _ | ⟨_ | e', fs⟩⟩ <;> exact ⟨_, _, rfl⟩

/-- The boot failed or left the users alone, or created one whose name was
free, with the root scope. -/
theorem bootstrap_cases (argon : Argon2) (userName : String) (explicitPassword : Option String)
    (generated salt : String) (now : ℕ) (s : UserTable) (fs : List (Option String)) :
    (∃ e fs', bootstrapAdminIfNeeded argon userName explicitPassword generated salt now ⟨s, fs⟩ = (.error e, ⟨s, fs'⟩)) ∨
      (∃ fs', bootstrapAdminIfNeeded argon userName explicitPassword generated salt now ⟨s, fs⟩ =
        (.ok none, ⟨s, fs'⟩)) ∨
      ∃ hash fs', argon.hash salt (adminPassword explicitPassword generated).1 = .ok hash ∧ s.get userName = none ∧
        bootstrapAdminIfNeeded argon userName explicitPassword generated salt now ⟨s, fs⟩ =
          (.ok (some (adminPassword explicitPassword generated)),
            ⟨s.put userName ⟨userName, hash, .root, now⟩, fs'⟩) := by
  obtain ⟨b, fs', hempty⟩ := isEmpty_cases s fs
  unfold bootstrapAdminIfNeeded
  rw [bind_of_ok hempty]
  cases b with
  | false => exact Or.inr (Or.inl ⟨fs', rfl⟩)
  | true =>
    rw [Bool.not_true, if_neg Bool.false_ne_true]
    rcases create_cases argon userName (adminPassword explicitPassword generated).1 .root salt now s fs' with
      ⟨e, fs'', h⟩ | ⟨hash, fs'', hhash, hfree, h⟩
    · exact Or.inl ⟨e, fs'', bind_of_error h _⟩
    · exact Or.inr (Or.inr ⟨hash, fs'', hhash, hfree, bind_of_ok h _⟩)

/-- What a check of a password answers. -/
theorem verify_result (argon : Argon2) (name password : String) (s : UserTable) (fs : List (Option String)) :
    (verify argon name password ⟨s, fs⟩).1 =
      .ok (if Faultless 2 fs then (s.get name).filter fun u => argon.verify u.passwordHash password else none) := by
  have hfound : (if argon.verify (((s.get name).map (·.passwordHash)).getD decoy) password then s.get name else none) =
      (s.get name).filter fun u => argon.verify u.passwordHash password := by
    cases s.get name with
    | none => simp
    | some u => simp [Option.filter]
  rcases fs with _ | ⟨_ | e, _ | ⟨_ | e', fs⟩⟩ <;>
    simp [verify, bind_apply, Program.step, Faultless, hfound]

theorem get_result (name : String) (s : UserTable) (fs : List (Option String)) :
    (get name ⟨s, fs⟩).1 = .ok (if Faultless 2 fs then s.get name else none) := by
  rcases fs with _ | ⟨_ | e, _ | ⟨_ | e', fs⟩⟩ <;> simp [get, bind_apply, Program.step, Faultless]

end UserStore

/-! ### The table holds what was acknowledged -/

/-- How a call ends: with an error and nothing changed, or with what it told
its caller and one row put or deleted. -/
inductive UserStep.Cases (argon : Argon2) (s : UserTable) : UserOutcome → UserTable → Prop
  | failed {e : UserEvent} {err : String} : Cases argon s (e, .error err) s
  | put {e : UserEvent} {name password hash : String} {scope : Scope} {now : ℕ} {r : UserReply}
    (hhash : e.hash argon = some hash) (hof : ∃ salt, argon.hash salt password = .ok hash) (hfree : s.get name = none)
    (hafter : ∀ accounts : Accounts,
      accounts.after (e, .ok r) = Function.update accounts name (some ⟨password, scope, now⟩)) :
    Cases argon s (e, .ok r) (s.put name ⟨name, hash, scope, now⟩)
  | changed {name password salt hash : String} {user : User} (hhash : argon.hash salt password = .ok hash)
    (hget : s.get name = some user) :
    Cases argon s (.setPassword name password salt, .ok .done) (s.put user.name { user with passwordHash := hash })
  | deleted {name : String} : Cases argon s (.delete name, .ok (.deleted (s.get name).isSome)) (s.delete name)
  | idle {userName generated salt : String} {explicitPassword : Option String} {now : ℕ} :
    Cases argon s (.bootstrap userName explicitPassword generated salt now, .ok (.bootstrapped none)) s

theorem UserStep.cases {o : UserOutcome} (h : UserStep argon s o s') : UserStep.Cases argon s o s' := by
  obtain ⟨e, r⟩ := o
  obtain ⟨fs, fs', h⟩ := h
  cases e with
  | create name password scope salt now =>
    rcases UserStore.create_cases argon name password scope salt now s fs with ⟨err, fs'', hrun⟩ | ⟨hash, fs'', hhash, hfree, hrun⟩
    · have hcall := (bind_of_error hrun _).symm.trans h
      simp only [Prod.mk.injEq, World.mk.injEq] at hcall
      obtain ⟨rfl, rfl, -⟩ := hcall
      exact .failed
    · have hcall := (bind_of_ok hrun _).symm.trans h
      simp only [pure_apply, Prod.mk.injEq, World.mk.injEq] at hcall
      obtain ⟨rfl, rfl, -⟩ := hcall
      exact .put (by rw [UserEvent.hash, hhash]; rfl) ⟨salt, hhash⟩ hfree fun _ => rfl
  | setPassword name password salt =>
    rcases UserStore.setPassword_cases argon name password salt s fs with ⟨err, fs'', hrun⟩ | ⟨hash, user, fs'', hhash, hget, hrun⟩
    · have hcall := (bind_of_error hrun _).symm.trans h
      simp only [Prod.mk.injEq, World.mk.injEq] at hcall
      obtain ⟨rfl, rfl, -⟩ := hcall
      exact .failed
    · have hcall := (bind_of_ok hrun _).symm.trans h
      simp only [pure_apply, Prod.mk.injEq, World.mk.injEq] at hcall
      obtain ⟨rfl, rfl, -⟩ := hcall
      exact .changed hhash hget
  | delete name =>
    rcases UserStore.delete_cases name s fs with ⟨err, fs'', hrun⟩ | ⟨fs'', hrun⟩
    · have hcall := (bind_of_error hrun _).symm.trans h
      simp only [Prod.mk.injEq, World.mk.injEq] at hcall
      obtain ⟨rfl, rfl, -⟩ := hcall
      exact .failed
    · have hcall := (bind_of_ok hrun _).symm.trans h
      simp only [pure_apply, Prod.mk.injEq, World.mk.injEq] at hcall
      obtain ⟨rfl, rfl, -⟩ := hcall
      exact .deleted
  | bootstrap userName explicitPassword generated salt now =>
    rcases UserStore.bootstrap_cases argon userName explicitPassword generated salt now s fs with ⟨err, fs'', hrun⟩ |
      ⟨fs'', hrun⟩ | ⟨hash, fs'', hhash, hfree, hrun⟩
    · have hcall := (bind_of_error hrun _).symm.trans h
      simp only [Prod.mk.injEq, World.mk.injEq] at hcall
      obtain ⟨rfl, rfl, -⟩ := hcall
      exact .failed
    · have hcall := (bind_of_ok hrun _).symm.trans h
      simp only [pure_apply, Prod.mk.injEq, World.mk.injEq] at hcall
      obtain ⟨rfl, rfl, -⟩ := hcall
      exact .idle
    · have hcall := (bind_of_ok hrun _).symm.trans h
      simp only [pure_apply, Prod.mk.injEq, World.mk.injEq] at hcall
      obtain ⟨rfl, rfl, -⟩ := hcall
      exact .put (by rw [UserEvent.hash, hhash]; rfl) ⟨salt, hhash⟩ hfree fun _ => rfl

/-- **A call keeps the table and the accounts together**, if it fails too. -/
theorem keeps_step {o : UserOutcome} (h : Refines argon accounts s) (hstep : UserStep argon s o s') :
    Refines argon (accounts.after o) s' := by
  cases hstep.cases with
  | @failed e err => cases e <;> exact h
  | @put e name password hash scope now r hhash hof hfree hafter =>
    rw [hafter]
    refine h.update (fun other hne => get_put_of_ne _ _ hne) ?_
    rw [get_put_self]
    exact .some ⟨rfl, hof, rfl, rfl⟩
  | @changed name password salt hash user hhash hget =>
    have hrow := h name
    rw [hget] at hrow
    cases haccount : accounts name with
    | none =>
      rw [haccount] at hrow
      cases hrow
    | some a =>
      rw [haccount] at hrow
      cases hrow with
      | some hrow =>
        have hafter : accounts.after (.setPassword name password salt, .ok .done) =
            Function.update accounts name (some { a with password := password }) := by
          rw [Accounts.after, haccount]
          rfl
        rw [hafter, hrow.name_eq]
        refine h.update (fun other hne => get_put_of_ne _ _ hne) ?_
        rw [get_put_self]
        exact .some ⟨rfl, ⟨salt, hhash⟩, hrow.scope_eq, hrow.createdAt_eq⟩
  | @deleted name =>
    refine h.update (fun other hne => get_delete_of_ne _ hne) ?_
    rw [get_delete_self]
    exact .none
  | idle => exact h

/-- Over a run from the empty table. -/
theorem refines_run {os : List UserOutcome} (hrun : Run (UserStep argon) .empty os s) :
    Refines argon (accountsAfter os) s := by
  refine hrun.history (P := fun os s => Refines argon (accountsAfter os) s) (fun name => ?_) ?_
  · rw [get_empty]
    exact .none
  · intro os s o s' h hstep
    rw [accountsAfter, List.foldl_append]
    exact keeps_step h hstep

/-- **The password that was acknowledged last** is the one that is taken: after
any calls, however they failed, a check that the storage lets through answers
the user of the account with this name and password, and no one else. -/
theorem verify_acknowledged [argon.Sound] {os : List UserOutcome} (hrun : Run (UserStep argon) .empty os s)
    (name password : String) (faults : List (Option String)) :
    (∀ u, (UserStore.verify argon name password ⟨s, faults⟩).1 = .ok (some u) →
      u.name = name ∧ accountsAfter os name = some ⟨password, u.scope, u.createdAt⟩) ∧
    ((∃ u, (UserStore.verify argon name password ⟨s, faults⟩).1 = .ok (some u)) ↔
      Faultless 2 faults ∧ ∃ a, accountsAfter os name = some a ∧ a.password = password) := by
  have hrefines := refines_run hrun name
  rw [UserStore.verify_result]
  have hrow : ∀ {a : Account} {u : User}, Account.Row argon name a u →
      (argon.verify u.passwordHash password = true ↔ a.password = password) := fun {a u} hrow => by
    obtain ⟨salt, hhash⟩ := hrow.hash
    rw [Argon2.Sound.verify_hash hhash, eq_comm]
  generalize accountsAfter os name = account at hrefines ⊢
  generalize s.get name = user at hrefines ⊢
  by_cases hfaults : Faultless 2 faults
  · rw [if_pos hfaults]
    cases hrefines with
    | none => simp
    | @some a u h =>
      have hanswer : ∀ u', ((Option.some u).filter fun u => argon.verify u.passwordHash password) = some u' ↔
          u = u' ∧ a.password = password := fun u' => by
        rw [Option.filter_eq_some_iff, Option.some.injEq, and_congr_right_iff]
        rintro rfl
        exact hrow h
      refine ⟨fun u' hu' => ?_, ?_⟩
      · obtain ⟨rfl, rfl⟩ := (hanswer u').mp (Except.ok.inj hu')
        exact ⟨h.name_eq, by rw [h.scope_eq, h.createdAt_eq]⟩
      · constructor
        · rintro ⟨u', hu'⟩
          exact ⟨hfaults, a, rfl, ((hanswer u').mp (Except.ok.inj hu')).2⟩
        · rintro ⟨-, a', ha', hpassword⟩
          obtain rfl := Option.some.inj ha'
          exact ⟨u, congrArg _ ((hanswer u).mpr ⟨rfl, hpassword⟩)⟩
  · rw [if_neg hfaults]
    simp [hfaults]

/-- A hash that hides nothing, but is that of its password alone. -/
def plainArgon : Argon2 := ⟨fun _ password => .ok password, fun hash password => hash == password⟩

instance : plainArgon.Sound where
  verify_hash h password' := by
    obtain rfl := Except.ok.inj h
    rw [plainArgon, beq_iff_eq, eq_comm]

/-- A user who has changed their password. -/
def changedPassword : List UserOutcome :=
  [(.create "alice" "passw0rd!" .root "salt" 100, .ok (.created ⟨"alice", "passw0rd!", .root, 100⟩)),
    (.setPassword "alice" "new-passw0rd" "salt", .ok .done)]

/-- What is in the table then. -/
def changedTable : UserTable := OrderedTable.empty.put "alice" ⟨"alice", "new-passw0rd", .root, 100⟩

/-- The theorem about both passwords of that user. -/
theorem verify_acknowledged_changed :
    (∃ u, (UserStore.verify plainArgon "alice" "new-passw0rd" ⟨changedTable, []⟩).1 = .ok (some u)) ∧
      ¬∃ u, (UserStore.verify plainArgon "alice" "passw0rd!" ⟨changedTable, []⟩).1 = .ok (some u) := by
  have hrun : Run (UserStep plainArgon) .empty changedPassword changedTable :=
    .snoc (.snoc .nil ⟨[], [], rfl⟩) ⟨[], [], rfl⟩
  refine ⟨(verify_acknowledged hrun "alice" "new-passw0rd" []).2.mpr ⟨by simp [Faultless], _, rfl, rfl⟩, fun h => ?_⟩
  obtain ⟨-, a, ha, hpassword⟩ := (verify_acknowledged hrun "alice" "passw0rd!" []).2.mp h
  obtain rfl := Option.some.inj ha
  exact absurd hpassword (by decide)

end HeatherDb
