/-
# What a bearer token stands for

The user store and the token store of one data directory behind the
middleware, over whole runs: calls of the command line, boots, requests with
either kind of credentials, mints, revocations, sweeps and restarts, in any
order and with any faults.

A token is held only from a mint on, and the mint asks for a password. The
middleware takes a token only while its user's row is the one it was minted
for. As no two hashes are the same, a row that was changed, deleted or put
anew is not that row again (`hash_of_new_row`); so an accepted token was minted
for the password that its account still has, within the hour, and nothing has
touched the user since (`bearer_traces_to_login`).

Key definitions: `Realm`, `Visit`, `Realm.identify`, `RealmStep`.
Key theorems: `hash_of_new_row`, `held_from_login`, `bearer_traces_to_login`.
-/
import HeatherDb.Auth
import HeatherDb.Tokens
import HeatherDb.UserStore

namespace HeatherDb

open Program OrderedTable

/-- The two stores. -/
structure Realm where
  users : UserTable
  tokens : TokenServer

/-- What a request shows, and what its checks meet: readings of the clock and
faults of the reads. -/
structure Visit where
  /-- The value of the `Authorization` header. -/
  header : Option (List Char)
  now : ℕ
  later : ℕ
  userFaults : List (Option String)
  tokenFaults : List (Option String)

/-- The bearer token of a request. -/
def Visit.bearer (v : Visit) : Option String :=
  v.header.bind fun header => (stripPrefix "Bearer " header).map fun rest => String.ofList (trim rest)

/-- How long a token is good for, in seconds. -/
def tokenTtl : ℕ := 3600

namespace Realm

/-- An empty data directory, and no process. -/
def fresh : Realm := ⟨.empty, .fresh⟩

variable (argon : Argon2) (decodeB64 : List Char → Option (List Char))

/-- What the middleware asks of the stores. -/
def auth (s : Realm) (v : Visit) : AuthState where
  getUser name := (UserStore.get name ⟨s.users, v.userFaults⟩).1.toOption.join
  verifyUser name password := (UserStore.verify argon name password ⟨s.users, v.userFaults⟩).1.toOption.join
  verifyToken := some fun token => s.tokens.verify token v.now v.later v.tokenFaults
  disabled := false
  auditVisibility _ := none

/-- Who a request comes from. -/
def identify (s : Realm) (v : Visit) : Except Denial AuthedUser := authenticate decodeB64 (s.auth argon v) v.header

/-- A call on the token store. -/
def onTokens (s : Realm) (e : TokenEvent) (faults : List (Option String)) : Realm :=
  ⟨s.users, s.tokens.step (e, faults)⟩

/-- The check of a bearer token sweeps it when it has expired. -/
def swept (s : Realm) (v : Visit) : Realm :=
  match v.bearer with
  | some token => s.onTokens (.verify token v.now v.later) v.tokenFaults
  | none => s

end Realm

/-- What happens to the stores, with the random tokens, the readings of the
clock and the plans of faults. -/
inductive RealmEvent where
  /-- A call of the command line or of a boot. -/
  | user (o : UserOutcome)
  /-- Any request but the two below. -/
  | visit (v : Visit)
  /-- `POST /auth/token` -/
  | mint (v : Visit) (token : String) (now : ℕ) (faults : List (Option String))
  /-- `POST /auth/token/revoke` -/
  | revoke (v : Visit) (faults : List (Option String))
  | gc (now : ℕ) (faults : List (Option String))
  | restart (now : ℕ) (faults : List (Option String))

namespace RealmEvent

/-- The hash that the event would store. -/
def hash (argon : Argon2) : RealmEvent → Option String
  | .user o => o.1.hash argon
  | _ => none

/-- The call on the user store. -/
def outcome : RealmEvent → Option UserOutcome
  | .user o => some o
  | _ => none

end RealmEvent

namespace Realm

variable (argon : Argon2) (decodeB64 : List Char → Option (List Char))

/-- The token store after the event. A mint refuses a bearer. -/
def serve (s : Realm) : RealmEvent → Realm
  | .user _ => s
  | .visit v => s.swept v
  | .mint v token now faults =>
    match s.identify argon decodeB64 v with
    | .ok authed =>
      if authed.kind = .bearer then s.swept v
      else (s.swept v).onTokens (.mint token now authed.user tokenTtl) faults
    | .error _ => s.swept v
  | .revoke v faults =>
    match s.identify argon decodeB64 v with
    | .ok authed =>
      match authed.token with
      | some token => (s.swept v).onTokens (.revoke token) faults
      | none => s.swept v
    | .error _ => s.swept v
  | .gc now faults => s.onTokens (.gc now) faults
  | .restart now faults => s.onTokens (.restart now) faults

end Realm

/-- One event. -/
inductive RealmStep (argon : Argon2) (decodeB64 : List Char → Option (List Char)) (s : Realm) :
    RealmEvent → Realm → Prop
  | user {o : UserOutcome} {users : UserTable} (h : UserStep argon s.users o users) :
    RealmStep argon decodeB64 s (.user o) { s with users := users }
  | serve {e : RealmEvent} (h : e.outcome = none) : RealmStep argon decodeB64 s e (s.serve argon decodeB64 e)

/-- The calls on the user store. -/
def userOutcomes (es : List RealmEvent) : List UserOutcome := es.filterMap RealmEvent.outcome

variable {argon : Argon2} {decodeB64 : List Char → Option (List Char)} {s s' : Realm}

/-! ### The users -/

theorem users_swept (s : Realm) (v : Visit) : (s.swept v).users = s.users := by
  unfold Realm.swept
  cases v.bearer <;> rfl

/-- Serving changes no user. -/
theorem users_serve (s : Realm) (e : RealmEvent) : (s.serve argon decodeB64 e).users = s.users := by
  cases e with
  | user o => rfl
  | visit v => exact users_swept s v
  | mint v token now faults =>
    dsimp only [Realm.serve]
    split
    · split_ifs <;> exact users_swept s v
    · exact users_swept s v
  | revoke v faults =>
    dsimp only [Realm.serve]
    split
    · split <;> exact users_swept s v
    · exact users_swept s v
  | gc now faults => rfl
  | restart now faults => rfl

/-- The user table goes through the calls of the run. -/
theorem users_run {es : List RealmEvent} (hrun : Run (RealmStep argon decodeB64) s es s') :
    Run (UserStep argon) s.users (userOutcomes es) s'.users := by
  induction hrun with
  | nil => exact .nil
  | @snoc es s' s'' e _ hstep ih =>
    rw [userOutcomes, List.filterMap_append]
    cases hstep with
    | user h => exact .snoc ih h
    | serve h =>
      rw [users_serve, List.filterMap_cons_none h, List.filterMap_nil, List.append_nil]
      exact ih

/-- **A row that was not there** was put by a call that hashed a password to
the row's hash. -/
theorem hash_of_new_row {es : List RealmEvent} (hrun : Run (RealmStep argon decodeB64) s es s') {name : String}
    {u : User} (hend : s'.users.get name = some u) (hstart : s.users.get name ≠ some u) :
    u.passwordHash ∈ es.filterMap (RealmEvent.hash argon) := by
  induction hrun with
  | nil => exact absurd hend hstart
  | @snoc es s' s'' e _ hstep ih =>
    rw [List.filterMap_append, List.mem_append]
    by_cases hbefore : s'.users.get name = some u
    · exact Or.inl (ih hbefore)
    refine Or.inr ?_
    cases hstep with
    | serve h =>
      rw [users_serve] at hend
      exact absurd hend hbefore
    | @user o users h =>
      have hone : ∀ {hash : String}, o.1.hash argon = some hash →
          hash ∈ List.filterMap (RealmEvent.hash argon) [.user o] := fun {hash} hhash => by
        simp [RealmEvent.hash, hhash]
      generalize hs' : s'.users = table at h hbefore
      cases h.cases with
      | failed => exact absurd hend hbefore
      | @put e name' password hash scope now r hhash hof hfree hafter =>
        rw [get_put] at hend
        split_ifs at hend with hname
        · obtain rfl := Option.some.inj hend
          exact hone hhash
        · exact absurd hend hbefore
      | @changed name' password salt hash user hhash hget =>
        rw [get_put] at hend
        split_ifs at hend with hname
        · obtain rfl := Option.some.inj hend
          exact hone (by rw [UserEvent.hash, hhash]; rfl)
        · exact absurd hend hbefore
      | @deleted name' =>
        rw [get_delete] at hend
        split_ifs at hend with hname
        exact absurd hend hbefore
      | idle => exact absurd hend hbefore

/-! ### The credentials -/

/-- Who a request with a password comes from. -/
theorem identify_basic {v : Visit} {authed : AuthedUser} (h : s.identify argon decodeB64 v = .ok authed)
    (hkind : authed.kind ≠ .bearer) : ∃ u name password, authed = ⟨u, .basic, none⟩ ∧
      v.header.bind (parseBasic decodeB64) = some (name, password) ∧
      (UserStore.verify argon name password ⟨s.users, v.userFaults⟩).1 = .ok (some u) := by
  unfold Realm.identify authenticate at h
  cases hheader : v.header with
  | none => simp [hheader] at h
  | some header =>
    rw [hheader] at h
    dsimp only at h
    cases hbearer : stripPrefix "Bearer " header with
    | some rest =>
      rw [hbearer] at h
      dsimp only at h
      split at h
      · split at h
        · split_ifs at h
          exact absurd (congrArg AuthedUser.kind (Except.ok.inj h).symm) hkind
        · cases h
      · cases h
    | none =>
      rw [hbearer] at h
      dsimp only at h
      split_ifs at h
      cases hparse : parseBasic decodeB64 header with
      | none => simp [hparse] at h
      | some credentials =>
        obtain ⟨name, password⟩ := credentials
        rw [hparse] at h
        dsimp only [Realm.auth] at h
        rw [UserStore.verify_result] at h
        split at h
        · rename_i u hu
          exact ⟨u, name, password, (Except.ok.inj h).symm, hparse, by rw [UserStore.verify_result]; exact congrArg _ hu⟩
        · cases h

/-- Who a request with a token comes from. -/
theorem identify_bearer {v : Visit} {u : User} {t : String}
    (h : s.identify argon decodeB64 v = .ok ⟨u, .bearer, some t⟩) : ∃ issued exp,
      s.tokens.verify t v.now v.later v.tokenFaults = some (issued, exp) ∧ s.users.get issued.name = some u ∧
      u.passwordHash = issued.passwordHash ∧ u.createdAt = issued.createdAt ∧ u.scope = issued.scope := by
  unfold Realm.identify authenticate at h
  cases hheader : v.header with
  | none => simp [hheader] at h
  | some header =>
    rw [hheader] at h
    dsimp only at h
    cases hbearer : stripPrefix "Bearer " header with
    | some rest =>
      rw [hbearer] at h
      dsimp only [Realm.auth, Option.bind_some] at h
      split at h
      · rename_i issued exp hverify
        rw [UserStore.get_result] at h
        split at h
        · rename_i current hcurrent
          split_ifs at h with hsame
          obtain ⟨rfl, rfl⟩ : current = u ∧ String.ofList (trim rest) = t := by
            simpa using h
          split_ifs at hcurrent with hfaults
          · exact ⟨issued, exp, hverify, hcurrent, hsame⟩
          · cases hcurrent
        · cases h
      · cases h
    | none =>
      rw [hbearer] at h
      dsimp only at h
      split_ifs at h
      split at h
      · split at h
        · simp at h
        · cases h
      · cases h

/-! ### The tokens -/

/-- The login an entry comes from: a request that showed a name and a password,
both taken, and then a mint. -/
structure Login (argon : Argon2) (decodeB64 : List Char → Option (List Char)) (entry : TokenEntry)
    (before : List RealmEvent) (s : Realm) (v : Visit) (now : ℕ) (name password : String) : Prop where
  run : Run (RealmStep argon decodeB64) .fresh before s
  shown : v.header.bind (parseBasic decodeB64) = some (name, password)
  accepted : (UserStore.verify argon name password ⟨s.users, v.userFaults⟩).1 = .ok (some entry.user)
  expires : entry.expiresAt ≤ now + tokenTtl

/-- What is held after a call of the token store that mints nothing was held. -/
theorem held_onTokens {t : String} {entry : TokenEntry} {e : TokenEvent} {faults : List (Option String)}
    (h : TokenServer.Holds t entry (s.onTokens e faults).tokens) : TokenServer.Holds t entry s.tokens ∨ e.Mints t entry :=
  TokenServer.holds_step h

theorem held_swept {t : String} {entry : TokenEntry} {v : Visit} (h : TokenServer.Holds t entry (s.swept v).tokens) :
    TokenServer.Holds t entry s.tokens := by
  unfold Realm.swept at h
  cases hbearer : v.bearer with
  | none =>
    rw [hbearer] at h
    exact h
  | some token =>
    rw [hbearer] at h
    exact (held_onTokens h).resolve_right id

/-- **Only a login brings a token in.** -/
theorem held_serve {t : String} {entry : TokenEntry} {e : RealmEvent}
    (h : TokenServer.Holds t entry (s.serve argon decodeB64 e).tokens) : TokenServer.Holds t entry s.tokens ∨
      ∃ v now faults name password, e = .mint v t now faults ∧
        v.header.bind (parseBasic decodeB64) = some (name, password) ∧
        (UserStore.verify argon name password ⟨s.users, v.userFaults⟩).1 = .ok (some entry.user) ∧
        entry.expiresAt ≤ now + tokenTtl := by
  cases e with
  | user o => exact Or.inl h
  | visit v => exact Or.inl (held_swept h)
  | mint v token now faults =>
    dsimp only [Realm.serve] at h
    split at h
    · rename_i authed hidentify
      split_ifs at h with hkind
      · exact Or.inl (held_swept h)
      · rcases held_onTokens h with h | ⟨rfl, rfl⟩
        · exact Or.inl (held_swept h)
        · obtain ⟨u, name, password, rfl, hshown, haccepted⟩ := identify_basic hidentify hkind
          exact Or.inr ⟨v, now, faults, name, password, rfl, hshown, haccepted, min_le_left _ _⟩
    · exact Or.inl (held_swept h)
  | revoke v faults =>
    dsimp only [Realm.serve] at h
    split at h
    · split at h
      · exact Or.inl (held_swept ((held_onTokens h).resolve_right id))
      · exact Or.inl (held_swept h)
    · exact Or.inl (held_swept h)
  | gc now faults => exact (held_onTokens h).imp_right False.elim
  | restart now faults => exact (held_onTokens h).imp_right False.elim

/-- **A held token comes from a login**, and the run goes on from there. -/
theorem held_from_login {es : List RealmEvent} (hrun : Run (RealmStep argon decodeB64) .fresh es s') {t : String}
    {entry : TokenEntry} (h : TokenServer.Holds t entry s'.tokens) : ∃ before after s v now faults name password,
      es = before ++ .mint v t now faults :: after ∧
      Login argon decodeB64 entry before s v now name password ∧
      Run (RealmStep argon decodeB64) s (.mint v t now faults :: after) s' := by
  induction hrun with
  | nil => rcases h with h | ⟨cache, h, -⟩ <;> simp [Realm.fresh, TokenServer.fresh] at h
  | @snoc es s₁ s₂ e hrun hstep ih =>
    have hheld : TokenServer.Holds t entry s₁.tokens ∨ ∃ v now faults name password, e = .mint v t now faults ∧
        v.header.bind (parseBasic decodeB64) = some (name, password) ∧
        (UserStore.verify argon name password ⟨s₁.users, v.userFaults⟩).1 = .ok (some entry.user) ∧
        entry.expiresAt ≤ now + tokenTtl := by
      cases hstep with
      | user hcall => exact Or.inl h
      | serve hcall => exact held_serve h
    rcases hheld with hheld | ⟨v, now, faults, name, password, rfl, hshown, haccepted, hexpires⟩
    · obtain ⟨before, after, s, v, now, faults, name, password, rfl, hlogin, hrest⟩ := ih hheld
      exact ⟨before, after ++ [e], s, v, now, faults, name, password, by simp,
        ⟨hlogin.run, hlogin.shown, hlogin.accepted, hlogin.expires⟩, .snoc hrest hstep⟩
    · exact ⟨es, [], s₁, v, now, faults, name, password, rfl, ⟨hrun, hshown, haccepted, hexpires⟩, .single hstep⟩

/-- **An accepted bearer token** stands for the password its account has now:
it was minted within the hour, for a request that showed this password, and
from then on no call, acknowledged or not, touched the user's row. So a change
of the password, a deletion and a recreation each end every token minted
before, whatever faults, restarts and clocks come in between. -/
theorem bearer_traces_to_login [argon.Sound] {es : List RealmEvent}
    (hrun : Run (RealmStep argon decodeB64) .fresh es s')
    (hfresh : (es.filterMap (RealmEvent.hash argon)).Nodup) {v : Visit} {u : User} {t : String}
    (haccepted : s'.identify argon decodeB64 v = .ok ⟨u, .bearer, some t⟩) :
    ∃ before after s login now faults password, es = before ++ .mint login t now faults :: after ∧
      Run (RealmStep argon decodeB64) .fresh before s ∧ Run (RealmStep argon decodeB64) s (.mint login t now faults :: after) s' ∧
      login.header.bind (parseBasic decodeB64) = some (u.name, password) ∧ v.now < now + tokenTtl ∧
      accountsAfter (userOutcomes es) u.name = some ⟨password, u.scope, u.createdAt⟩ ∧
      ∀ middle rest s₂, after = middle ++ rest → Run (RealmStep argon decodeB64) s (.mint login t now faults :: middle) s₂ →
        Run (RealmStep argon decodeB64) s₂ rest s' → s₂.users.get u.name = some u := by
  obtain ⟨issued, exp, hverify, hget, hhash, hcreated, hscope⟩ := identify_bearer haccepted
  obtain ⟨hlive, hheld⟩ := TokenServer.verifies_held hverify
  obtain ⟨before, after, s, login, now, faults, name, password, rfl, hlogin, hrest⟩ := held_from_login hrun hheld
  -- the current row is the one the token was minted for
  have hrefines := refines_run (users_run hrun) issued.name
  rw [hget] at hrefines
  obtain ⟨a, haccount, hrow⟩ : ∃ a, accountsAfter (userOutcomes (before ++ .mint login t now faults :: after)) issued.name =
      some a ∧ Account.Row argon issued.name a u := by
    generalize accountsAfter (userOutcomes (before ++ .mint login t now faults :: after)) issued.name = account at hrefines
    cases hrefines with
    | some hrow => exact ⟨_, rfl, hrow⟩
  obtain rfl : u = issued := by
    have hname : u.name = issued.name := hrow.name_eq
    obtain ⟨uname, uhash, uscope, ucreated⟩ := u
    obtain ⟨iname, ihash, iscope, icreated⟩ := issued
    simp only at hname hhash hcreated hscope
    rw [hname, hhash, hcreated, hscope]
  have hloginRow : s.users.get u.name = some u ∧ name = u.name ∧ argon.verify u.passwordHash password = true := by
    have hfound := hlogin.accepted
    rw [UserStore.verify_result] at hfound
    split_ifs at hfound
    · obtain ⟨hget, hpassword⟩ := Option.filter_eq_some_iff.mp (Except.ok.inj hfound)
      have hname : u.name = name := (refines_run (users_run hlogin.run)).name_eq hget
      exact ⟨hname ▸ hget, hname.symm, hpassword⟩
    · cases hfound
  obtain ⟨hstart, rfl, hpassword⟩ := hloginRow
  -- so the password shown is the account's
  have hsame : a = ⟨password, u.scope, u.createdAt⟩ := by
    obtain ⟨salt, hsalt⟩ := hrow.hash
    obtain ⟨apassword, ascope, acreated⟩ := a
    obtain rfl : password = apassword := (Argon2.Sound.verify_hash hsalt password).mp hpassword
    rw [hrow.scope_eq, hrow.createdAt_eq]
  refine ⟨before, after, s, login, now, faults, password, rfl, hlogin.run, hrest, hlogin.shown,
    hlive.trans_le hlogin.expires, hsame ▸ haccount, fun middle rest s₂ hafter hmiddle hend => ?_⟩
  by_contra hgone
  -- were the row gone in between, two calls would have hashed to one hash
  have hlater := hash_of_new_row hend hget hgone
  have hearlier := hash_of_new_row hlogin.run hstart (by simp [Realm.fresh])
  rw [List.filterMap_append, List.nodup_append] at hfresh
  refine hfresh.2.2 _ hearlier _ ?_ rfl
  rw [hafter, ← List.cons_append, List.filterMap_append]
  exact List.mem_append_right _ hlater

/-- A user is created, the server starts, and the user logs in. -/
def aliceLogsIn : List RealmEvent :=
  [.user (.create "alice" "passw0rd!" .root "salt" 100, .ok (.created ⟨"alice", "passw0rd!", .root, 100⟩)),
    .restart 200 [],
    .mint ⟨some "Basic YWxpY2U6cGFzc3cwcmQh".toList, 300, 300, [], []⟩ "token" 300 []]

/-- Her next request, with the token. -/
def aliceReturns : Visit := ⟨some "Bearer token".toList, 400, 400, [], []⟩

def aliceRow : User := ⟨"alice", "passw0rd!", .root, 100⟩

/-- The stores when she makes it. -/
def aliceRealm : Realm :=
  let users : UserTable := OrderedTable.empty.put "alice" aliceRow
  let tokens : TokenTable := OrderedTable.empty.put "token" ⟨aliceRow, 3900⟩
  ⟨users, ⟨tokens, some tokens⟩⟩

/-- The theorem about that request. -/
theorem bearer_traces_to_login_alice : ∃ before after s login now faults password,
    aliceLogsIn = before ++ .mint login "token" now faults :: after ∧
      Run (RealmStep plainArgon fun _ => some "alice:passw0rd!".toList) .fresh before s ∧
      400 < now + tokenTtl ∧ accountsAfter (userOutcomes aliceLogsIn) "alice" = some ⟨password, .root, 100⟩ := by
  have hrun : Run (RealmStep plainArgon fun _ => some "alice:passw0rd!".toList) .fresh aliceLogsIn aliceRealm := by
    have hcreated : Run (RealmStep plainArgon fun _ => some "alice:passw0rd!".toList) .fresh (aliceLogsIn.take 1)
        ⟨OrderedTable.empty.put "alice" aliceRow, .fresh⟩ := .single (.user ⟨[], [], rfl⟩)
    have hstarted : Run (RealmStep plainArgon fun _ => some "alice:passw0rd!".toList) .fresh (aliceLogsIn.take 2)
        ⟨OrderedTable.empty.put "alice" aliceRow, ⟨.empty, some .empty⟩⟩ := .snoc hcreated (.serve rfl)
    exact .snoc hstarted (.serve rfl)
  obtain ⟨before, after, s, login, now, faults, password, heq, hbefore, -, -, hlive, haccount, -⟩ :=
    bearer_traces_to_login hrun (by decide) (v := aliceReturns) (u := aliceRow) (t := "token") rfl
  exact ⟨before, after, s, login, now, faults, password, heq, hbefore, hlive, haccount⟩

end HeatherDb
