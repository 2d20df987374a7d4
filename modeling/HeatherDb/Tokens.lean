/-
# Session tokens

`tokens.rs`: bearer tokens live in a cache in memory, which answers `verify`,
and in a table that a restart loads the cache from. Every call on the table is
a transaction whose steps may fail; `mint`, `verify`, `revoke` and `gc` go on
when one does.

A `TokenServer` is the table with the cache of the process that runs, if one
does. The random token of a mint and the readings of the clock come with the
event, so a run covers every source of randomness and every clock.

Nothing but the mint of a token brings it into the cache or the table
(`holds_step`), from which both halves of the result follow.

Key definitions: `TokenEntry`, `Tokens.mint`, `Tokens.verify`,
`Tokens.revoke`, `Tokens.gc`, `Tokens.load`, `TokenServer.step`.
Key theorems: `holds_step`, `verifies_minted`, `revocation_final_iff`.
-/
import HeatherDb.Lib.Faults
import HeatherDb.Lib.OrderedTable
import HeatherDb.Lib.Runs
import HeatherDb.Users

namespace HeatherDb

open Program OrderedTable

structure TokenEntry where
  user : User
  /-- Unix seconds. -/
  expiresAt : ℕ
deriving DecidableEq, Repr

/-- Entries by token: the table on disk, and the cache. -/
abbrev TokenTable := OrderedTable String TokenEntry

/-- The store of a running process. -/
structure Tokens where
  db : TokenTable
  cache : TokenTable

variable {ε : Type}

namespace Tokens

/-! ### The table -/

/-- One transaction that writes a token's row. -/
def persist (token : String) (entry : TokenEntry) : Program ε TokenTable Unit :=
  transaction fun txn => do
    step
    pure ((), txn.put token entry)

/-- `let _ = db.delete(txn, token)`: a deletion whose error nobody sees. -/
def deleteQuietly (txn : TokenTable) (token : String) : Program ε TokenTable TokenTable := do
  match ← attempt step with
  | .ok () => pure (txn.delete token)
  | .error _ => pure txn

def removePersisted (token : String) : Program ε TokenTable Unit :=
  transaction fun txn => do
    let txn ← deleteQuietly txn token
    pure ((), txn)

/-- The rows of several tokens, in one transaction. -/
def removeAllPersisted (tokens : List String) : Program ε TokenTable Unit :=
  transaction fun txn => do
    let txn ← tokens.foldlM deleteQuietly txn
    pure ((), txn)

/-- The store opened on a table: the cache holds what has not expired, and the
table loses the rest. An iterator that cannot start yields no rows. -/
def load (now : ℕ) : Program ε TokenTable TokenTable := do
  step  -- create_dir_all
  step  -- open the environment
  transaction fun txn => do
    step  -- create_database
    pure ((), txn)
  step  -- read_txn
  let iter ← attempt step
  let db ← get
  let rows := match iter with
    | .ok () => db
    | .error _ => .empty
  let toDelete := (rows.filter fun e => !decide (now < e.expiresAt)).keys
  (if toDelete = [] then pure () else removeAllPersisted toDelete)
  pure (rows.filter fun e => decide (now < e.expiresAt))

/-! ### The operations -/

/-- A program on the table. -/
def onDb {α : Type} (m : Program ε TokenTable α) : Program ε Tokens α :=
  zoom (·.db) (fun db tokens => { tokens with db := db }) m

def setCache (f : TokenTable → TokenTable) : Program ε Tokens Unit :=
  modify fun tokens => { tokens with cache := f tokens.cache }

/-- `mint`, with the random token and the clock's reading. A row that cannot be
written leaves a token of this process alone. -/
def mint (token : String) (now : ℕ) (user : User) (ttl : ℕ) : Program ε Tokens (String × ℕ) := do
  let expiresAt := min (now + ttl) (2 ^ 64 - 1)
  let entry : TokenEntry := ⟨user, expiresAt⟩
  let _ ← attempt (onDb (persist token entry))
  setCache (·.put token entry)
  pure (token, expiresAt)

/-- `verify`, with the clock's readings: the second one is taken under the
write lock, before an expired entry is swept. -/
def verify (token : String) (now later : ℕ) : Program ε Tokens (Option (User × ℕ)) := do
  let tokens ← get
  match tokens.cache.get token with
  | none => pure none
  | some entry =>
    if now < entry.expiresAt then pure (some (entry.user, entry.expiresAt))
    else
      if entry.expiresAt ≤ later then setCache (·.delete token)
      let _ ← attempt (onDb (removePersisted token))
      pure none

/-- `revoke`: whether the cache had the token. -/
def revoke (token : String) : Program ε Tokens Bool := do
  let tokens ← get
  setCache (·.delete token)
  let _ ← attempt (onDb (removePersisted token))
  pure (tokens.cache.get token).isSome

/-- `gc`: how many entries expired. -/
def gc (now : ℕ) : Program ε Tokens ℕ := do
  let tokens ← get
  let expired := (tokens.cache.filter fun e => decide (e.expiresAt ≤ now)).keys
  if expired = [] then pure 0
  else
    setCache (deleteAll expired)
    let _ ← attempt (onDb (removeAllPersisted expired))
    pure expired.length

end Tokens

/-! ### The server -/

/-- The table, and the cache of the process that runs, if one does. -/
structure TokenServer where
  db : TokenTable
  cache : Option TokenTable

inductive TokenEvent where
  | mint (token : String) (now : ℕ) (user : User) (ttl : ℕ)
  | verify (token : String) (now later : ℕ)
  | revoke (token : String)
  | gc (now : ℕ)
  | restart (now : ℕ)

/-- The event puts the token under this entry. -/
def TokenEvent.Mints (token : String) (entry : TokenEntry) : TokenEvent → Prop
  | .mint token' now user ttl => token' = token ∧ entry = ⟨user, min (now + ttl) (2 ^ 64 - 1)⟩
  | _ => False

namespace TokenServer

/-- A data directory without tokens, and no process. -/
def fresh : TokenServer := ⟨.empty, none⟩

/-- A call of the running process. -/
def call {α : Type} (s : TokenServer) (m : Program ε Tokens α) (faults : List (Option ε)) : TokenServer :=
  match s.cache with
  | none => s
  | some cache =>
    let w := (m ⟨⟨s.db, cache⟩, faults⟩).2
    ⟨w.state.db, some w.state.cache⟩

/-- One event, with the plan of its faults. A start that fails leaves no
process. -/
def step (s : TokenServer) : TokenEvent × List (Option ε) → TokenServer
  | (.mint token now user ttl, faults) => s.call (Tokens.mint token now user ttl) faults
  | (.verify token now later, faults) => s.call (Tokens.verify token now later) faults
  | (.revoke token, faults) => s.call (Tokens.revoke token) faults
  | (.gc now, faults) => s.call (Tokens.gc now) faults
  | (.restart now, faults) =>
    let (cache, w) := Tokens.load now ⟨s.db, faults⟩
    ⟨w.state, cache.toOption⟩

/-- What a call of `verify` returns. -/
def verify (s : TokenServer) (token : String) (now later : ℕ) (faults : List (Option ε)) :
    Option (User × ℕ) := do
  let cache ← s.cache
  (Tokens.verify token now later ⟨⟨s.db, cache⟩, faults⟩).1.toOption.join

/-- Events one after another. -/
abbrev Steps (ε : Type) (s : TokenServer) (es : List (TokenEvent × List (Option ε))) (s' : TokenServer) : Prop :=
  Run (fun s e s' => step s e = s') s es s'

/-- The table or the cache has the token under this entry. -/
def Holds (token : String) (entry : TokenEntry) (s : TokenServer) : Prop :=
  s.db.get token = some entry ∨ ∃ cache, s.cache = some cache ∧ cache.get token = some entry

end TokenServer

/-! ### What the calls keep -/

namespace Tokens

variable {token t : String} {entry e : TokenEntry}

theorem delete_ne {table : TokenTable} (h : table.get t ≠ some e) : (table.delete token).get t ≠ some e := by
  rw [get_delete]
  split_ifs
  · exact Option.some_ne_none e |>.symm
  · exact h

theorem deleteAll_ne {table : TokenTable} (tokens : List String) (h : table.get t ≠ some e) :
    (deleteAll tokens table).get t ≠ some e := by
  rw [get_deleteAll]
  split_ifs
  · exact Option.some_ne_none e |>.symm
  · exact h

theorem put_ne {table : TokenTable} (h : table.get t ≠ some e) (hne : ¬(token = t ∧ entry = e)) :
    (table.put token entry).get t ≠ some e := by
  rw [get_put]
  split_ifs with ht
  · exact fun he => hne ⟨ht.symm, Option.some.inj he⟩
  · exact h

theorem filter_ne {table : TokenTable} (p : TokenEntry → Bool) (h : table.get t ≠ some e) :
    (table.filter p).get t ≠ some e := fun hg => h ((get_filter _ _).mp hg).1

/-- A deletion works on a copy, so it changes no state. -/
theorem deleteQuietly_ensures {P : TokenTable → Prop} {txn : TokenTable} (h : txn.get t ≠ some e) :
    Ensures P (deleteQuietly txn token : Program ε TokenTable TokenTable) fun txn' => txn'.get t ≠ some e :=
  Ensures.step.attempt.bind fun r _ => by
    cases r with
    | ok _ => exact Ensures.pure (delete_ne h)
    | error _ => exact Ensures.pure h

theorem removePersisted_ensures :
    Ensures (fun db => db.get t ≠ some e) (removePersisted token : Program ε TokenTable Unit) fun _ => True :=
  Ensures.inTransaction fun _ hs => (deleteQuietly_ensures hs).bind fun _ h => Ensures.pure h

theorem removeAllPersisted_ensures (tokens : List String) :
    Ensures (fun db => db.get t ≠ some e) (removeAllPersisted tokens : Program ε TokenTable Unit) fun _ => True :=
  Ensures.inTransaction fun s hs =>
    (Ensures.foldlM (R := fun txn : TokenTable => txn.get t ≠ some e)
      (fun _ _ h => deleteQuietly_ensures h) tokens s hs).bind fun _ h => Ensures.pure h

theorem persist_ensures (hne : ¬(token = t ∧ entry = e)) :
    Ensures (fun db => db.get t ≠ some e) (persist token entry : Program ε TokenTable Unit) fun _ => True :=
  Ensures.inTransaction fun _ hs => Ensures.step.bind fun _ _ => Ensures.pure (put_ne hs hne)

theorem load_ensures (now : ℕ) :
    Ensures (fun db => db.get t ≠ some e) (load now : Program ε TokenTable TokenTable)
      fun cache => cache.get t ≠ some e := by
  unfold load
  refine Ensures.step.bind fun _ _ => Ensures.step.bind fun _ _ => ?_
  refine (Ensures.inTransaction fun _ hs => Ensures.step.bind fun _ _ => Ensures.pure hs).bind fun _ _ => ?_
  refine Ensures.step.bind fun _ _ => Ensures.step.attempt.bind fun iter _ => Ensures.get_bind fun db hdb => ?_
  extract_lets rows toDelete
  have hrows : rows.get t ≠ some e := by
    cases iter with
    | ok _ => exact hdb
    | error _ => simp [rows]
  split_ifs
  · exact Ensures.pure (filter_ne _ hrows)
  · exact (removeAllPersisted_ensures _).bind fun _ _ => Ensures.pure (filter_ne _ hrows)

theorem verify_result (now later : ℕ) (w : World ε Tokens) :
    (verify t now later w).1 = .ok (((w.state.cache.get t).filter fun e => decide (now < e.expiresAt)).map
      fun e => (e.user, e.expiresAt)) := by
  unfold verify
  rw [get_bind]
  cases w.state.cache.get t with
  | none => rfl
  | some entry =>
    by_cases hx : now < entry.expiresAt
    · simp [hx]
    · have hx' : entry.expiresAt ≤ now := not_lt.mp hx
      by_cases hl : entry.expiresAt ≤ later <;> simp [hx, hx', hl, setCache]

/-- The row goes if none of the removal's three steps fails. -/
theorem removePersisted_state (w : World ε TokenTable) :
    (removePersisted t w).2.state = if Faultless 3 w.faults then w.state.delete t else w.state := by
  obtain ⟨db, faults⟩ := w
  rcases faults with _ | ⟨_ | f, _ | ⟨_ | f, _ | ⟨_ | f, faults⟩⟩⟩ <;>
    simp [removePersisted, deleteQuietly, transaction, bind_apply, Program.step, Program.get,
      Program.modify, Faultless]

theorem blames_deleteQuietly (txn : TokenTable) :
    Blames (deleteQuietly txn token : Program ε TokenTable TokenTable) :=
  Blames.step.attempt.bind fun r => by
    cases r with
    | ok _ => exact Blames.pure _
    | error _ => exact Blames.pure _

theorem blames_removeAllPersisted (tokens : List String) :
    Blames (removeAllPersisted tokens : Program ε TokenTable Unit) :=
  Blames.transaction fun _ =>
    (Blames.foldlM (fun txn _ => blames_deleteQuietly txn) tokens _).bind fun _ => Blames.pure _

/-- Without faults, what has not expired is loaded. -/
theorem load_faultless {db : TokenTable} {now : ℕ} (hg : db.get t = some entry) (hx : now < entry.expiresAt) :
    ∃ db' cache, (load now : Program ε TokenTable TokenTable) ⟨db, []⟩ = (.ok cache, ⟨db', []⟩) ∧
      cache.get t = some entry := by
  have hlive : (db.filter fun e => decide (now < e.expiresAt)).get t = some entry :=
    (get_filter _ _).mpr ⟨hg, by simpa using hx⟩
  let toDelete := (db.filter fun e => !decide (now < e.expiresAt)).keys
  have hload : (load now : Program ε TokenTable TokenTable) ⟨db, []⟩ =
      ((if toDelete = [] then pure () else removeAllPersisted toDelete) >>= fun _ =>
        pure (db.filter fun e => decide (now < e.expiresAt))) ⟨db, []⟩ := rfl
  rw [hload]
  split_ifs
  · exact ⟨_, _, rfl, hlive⟩
  · obtain ⟨_, db', hremove⟩ := BlamesAt.returns (blames_removeAllPersisted (ε := ε) toDelete ⟨db, []⟩)
    exact ⟨db', _, bind_of_ok hremove _, hlive⟩

/-- Neither the table nor the cache has the token under this entry. -/
def Absent (t : String) (e : TokenEntry) (tokens : Tokens) : Prop :=
  tokens.db.get t ≠ some e ∧ tokens.cache.get t ≠ some e

theorem ensures_onDb {α : Type} {m : Program ε TokenTable α}
    (hm : Ensures (fun db => db.get t ≠ some e) m fun _ => True) :
    Ensures (Absent t e) (onDb m) fun _ => True :=
  hm.zoom (fun _ h => h.1) fun _ _ h hdb => ⟨hdb, h.2⟩

theorem ensures_setCache {f : TokenTable → TokenTable}
    (hf : ∀ cache : TokenTable, cache.get t ≠ some e → (f cache).get t ≠ some e) :
    Ensures (Absent t e) (setCache f : Program ε Tokens Unit) fun _ => True :=
  Ensures.modify fun _ h => ⟨h.1, hf _ h.2⟩

theorem mint_ensures {now ttl : ℕ} {user : User}
    (hne : ¬(token = t ∧ (⟨user, min (now + ttl) (2 ^ 64 - 1)⟩ : TokenEntry) = e)) :
    Ensures (Absent t e) (mint token now user ttl : Program ε Tokens (String × ℕ)) fun _ => True :=
  (ensures_onDb (persist_ensures hne)).attempt.bind fun _ _ =>
    (ensures_setCache fun _ h => put_ne h hne).bind fun _ _ => Ensures.pure trivial

theorem verify_ensures (now later : ℕ) :
    Ensures (Absent t e) (verify token now later : Program ε Tokens (Option (User × ℕ))) fun _ => True := by
  refine Ensures.get_bind fun tokens _ => ?_
  have hsweep : Ensures (Absent t e) (do
      let _ ← attempt (onDb (removePersisted token))
      pure none : Program ε Tokens (Option (User × ℕ))) fun _ => True :=
    (ensures_onDb removePersisted_ensures).attempt.bind fun _ _ => Ensures.pure trivial
  split
  · exact Ensures.pure trivial
  · split_ifs
    · exact Ensures.pure trivial
    · exact (ensures_setCache fun _ => delete_ne).bind fun _ _ => hsweep
    · exact hsweep

theorem revoke_ensures : Ensures (Absent t e) (revoke token : Program ε Tokens Bool) fun _ => True :=
  Ensures.get_bind fun _ _ => (ensures_setCache fun _ => delete_ne).bind fun _ _ =>
    (ensures_onDb removePersisted_ensures).attempt.bind fun _ _ => Ensures.pure trivial

theorem gc_ensures (now : ℕ) : Ensures (Absent t e) (gc now : Program ε Tokens ℕ) fun _ => True := by
  refine Ensures.get_bind fun tokens _ => ?_
  extract_lets expired
  split_ifs
  · exact Ensures.pure trivial
  · exact (ensures_setCache fun _ => deleteAll_ne expired).bind fun _ _ =>
      (ensures_onDb (removeAllPersisted_ensures expired)).attempt.bind fun _ _ => Ensures.pure trivial

end Tokens

namespace TokenServer

variable {s s' : TokenServer} {t : String} {e : TokenEntry}

theorem call_absent {α : Type} {m : Program ε Tokens α} {faults : List (Option ε)}
    (hm : Ensures (Tokens.Absent t e) m fun _ => True) (h : ¬Holds t e s) : ¬Holds t e (s.call m faults) := by
  obtain ⟨db, cache⟩ := s
  cases cache with
  | none => exact h
  | some cache =>
    have habsent : Tokens.Absent t e ⟨db, cache⟩ :=
      ⟨fun hdb => h (.inl hdb), fun hc => h (.inr ⟨cache, rfl, hc⟩)⟩
    obtain ⟨hdb, hcache⟩ := (hm ⟨⟨db, cache⟩, faults⟩ habsent).1
    rintro (hg | ⟨c, hc, hg⟩)
    · exact hdb hg
    · exact hcache (Option.some.inj hc ▸ hg)

/-- **Only the mint of a token brings it in.** -/
theorem holds_step {event : TokenEvent × List (Option ε)} (h : Holds t e (s.step event)) :
    Holds t e s ∨ event.1.Mints t e := by
  by_contra hcon
  obtain ⟨habsent, hmint⟩ := not_or.mp hcon
  revert h
  obtain ⟨event, faults⟩ := event
  cases event with
  | mint token now user ttl =>
    exact call_absent (Tokens.mint_ensures fun ⟨ht, he⟩ => hmint ⟨ht, he.symm⟩) habsent
  | verify token now later => exact call_absent (Tokens.verify_ensures now later) habsent
  | revoke token => exact call_absent Tokens.revoke_ensures habsent
  | gc now => exact call_absent (Tokens.gc_ensures now) habsent
  | restart now =>
    obtain ⟨hdb, hcache⟩ := Tokens.load_ensures now ⟨s.db, faults⟩ fun hdb => habsent (.inl hdb)
    rintro (hg | ⟨c, hc, hg⟩)
    · exact hdb hg
    · refine hcache c ?_ hg
      simp only [step] at hc
      cases hload : (Tokens.load now ⟨s.db, faults⟩).1 with
      | error _ => simp [hload, Except.toOption] at hc
      | ok _ => simpa [hload, Except.toOption] using hc

/-- What a run holds was held at its start or minted in it. -/
theorem holds_run {events : List (TokenEvent × List (Option ε))} (hrun : Steps ε s events s')
    (h : Holds t e s') : Holds t e s ∨ ∃ event ∈ events, event.1.Mints t e := by
  induction hrun with
  | nil => exact .inl h
  | snoc _ hs ih =>
    subst hs
    rcases holds_step h with h | h
    · rcases ih h with h | ⟨event, hmem, hmint⟩
      · exact .inl h
      · exact .inr ⟨event, List.mem_append_left _ hmem, hmint⟩
    · exact .inr ⟨_, List.mem_append_right _ (List.mem_singleton_self _), h⟩

/-! ### What `verify` answers -/

theorem verify_eq_some_iff {now later : ℕ} {faults : List (Option ε)} {user : User} {exp : ℕ} :
    s.verify t now later faults = some (user, exp) ↔
      now < exp ∧ ∃ cache, s.cache = some cache ∧ cache.get t = some ⟨user, exp⟩ := by
  obtain ⟨db, cache⟩ := s
  cases cache with
  | none => simp [verify]
  | some cache =>
    simp only [verify, Option.bind_eq_bind, Option.bind_some, Tokens.verify_result, Except.toOption,
      Option.join_some, Option.map_eq_some_iff, Option.filter_eq_some_iff, decide_eq_true_eq,
      Prod.mk.injEq, Option.some.injEq, exists_eq_left']
    constructor
    · rintro ⟨⟨u, x⟩, ⟨hg, hx⟩, rfl, rfl⟩
      exact ⟨hx, hg⟩
    · rintro ⟨hx, hg⟩
      exact ⟨⟨user, exp⟩, ⟨hg, hx⟩, rfl, rfl⟩

/-- A token is answered for only while it is held. -/
theorem verifies_held {now later : ℕ} {faults : List (Option ε)} {user : User} {exp : ℕ}
    (h : s.verify t now later faults = some (user, exp)) : now < exp ∧ Holds t ⟨user, exp⟩ s := by
  obtain ⟨hx, cache, hc, hg⟩ := verify_eq_some_iff.mp h
  exact ⟨hx, .inr ⟨cache, hc, hg⟩⟩

/-- **A token verifies only if it was minted, and until it expires.** -/
theorem verifies_minted {events : List (TokenEvent × List (Option ε))} (hrun : Steps ε fresh events s)
    {now later : ℕ} {faults : List (Option ε)} {user : User} {exp : ℕ}
    (h : s.verify t now later faults = some (user, exp)) :
    now < exp ∧ ∃ event ∈ events, event.1.Mints t ⟨user, exp⟩ := by
  obtain ⟨hx, hheld⟩ := verifies_held h
  refine ⟨hx, (holds_run hrun hheld).resolve_left ?_⟩
  rintro (hg | ⟨cache, hc, -⟩)
  · simp [fresh] at hg
  · simp [fresh] at hc

/-! ### Revocation -/

theorem step_revoke {db cache : TokenTable} {faults : List (Option ε)} :
    step ⟨db, some cache⟩ (.revoke t, faults) =
      ⟨if Faultless 3 faults then db.delete t else db, some (cache.delete t)⟩ := by
  show TokenServer.mk (Tokens.removePersisted t ⟨db, faults⟩).2.state (some (cache.delete t)) = _
  rw [Tokens.removePersisted_state]

/-- A start without faults loads every row that has not expired. -/
theorem step_restart {now : ℕ} {entry : TokenEntry} (hg : s.db.get t = some entry) (hx : now < entry.expiresAt) :
    ∃ db cache, step (ε := ε) s (.restart now, []) = ⟨db, some cache⟩ ∧ cache.get t = some entry := by
  obtain ⟨db, cache, hload, hget⟩ := Tokens.load_faultless (ε := ε) hg hx
  exact ⟨db, cache, by simp [step, hload, Except.toOption], hget⟩

/-- **Revocation is final exactly when the row goes too.** Whatever the faults
and the clock, a token verifies only if it was minted and has not expired. A
revoked token stays revoked, through any later run that does not draw it
again, if and only if each of the removal's storage steps succeeds or the
table has no row of it to load. -/
theorem revocation_final_iff {events : List (TokenEvent × List (Option ε))} (hrun : Steps ε fresh events s) :
    (∀ t now later (faults : List (Option ε)) user exp, s.verify t now later faults = some (user, exp) →
      now < exp ∧ ∃ event ∈ events, event.1.Mints t ⟨user, exp⟩) ∧
    ∀ t (faults : List (Option ε)), s.cache.isSome →
      ((∀ events' s', Steps ε (s.step (.revoke t, faults)) events' s' →
          (∀ event ∈ events', ∀ e, ¬event.1.Mints t e) →
          ∀ now later (faults' : List (Option ε)), s'.verify t now later faults' = none) ↔
        ((∃ e, s.db.get t = some e ∧ 0 < e.expiresAt) → Faultless 3 faults)) := by
  refine ⟨fun t now later faults user exp h => verifies_minted hrun h, fun t faults hup => ?_⟩
  obtain ⟨db, cache⟩ := s
  obtain ⟨cache, rfl⟩ := Option.isSome_iff_exists.mp hup
  constructor
  · rintro hfinal ⟨entry, hg, hx⟩
    by_contra hfault
    have hrow : (step ⟨db, some cache⟩ (.revoke t, faults)).db.get t = some entry := by
      rw [step_revoke, if_neg hfault]
      exact hg
    obtain ⟨db', cache', hstart, hloaded⟩ := step_restart (ε := ε) hrow hx
    have hnone := hfinal _ _ (Run.single hstart) (by simp [TokenEvent.Mints]) 0 0 []
    have hsome : verify (ε := ε) ⟨db', some cache'⟩ t 0 0 [] = some (entry.user, entry.expiresAt) :=
      verify_eq_some_iff.mpr ⟨hx, cache', rfl, hloaded⟩
    exact Option.some_ne_none _ (hsome.symm.trans hnone)
  · intro hremoved events' s' hrun' hfresh now later faults'
    cases hv : s'.verify t now later faults' with
    | none => rfl
    | some r =>
      obtain ⟨hx, hheld⟩ := verifies_held hv
      obtain hheld := (holds_run hrun' hheld).resolve_right fun ⟨event, hmem, hmint⟩ => hfresh event hmem _ hmint
      rw [step_revoke] at hheld
      rcases hheld with hg | ⟨_, hc, hg⟩
      · by_cases hfault : Faultless 3 faults
        · rw [if_pos hfault] at hg
          simp at hg
        · rw [if_neg hfault] at hg
          exact absurd (hremoved ⟨_, hg, Nat.zero_lt_of_lt hx⟩) hfault
      · obtain rfl := Option.some.inj hc
        simp at hg

/-- A user for the runs below. -/
def someone : User := ⟨"admin", "hash", .root, 0⟩

/-- A start, and a token minted. -/
def oneMinted : List (TokenEvent × List (Option String)) :=
  [(.restart 100, []), (.mint "token" 100 someone 3600, [])]

/-- The theorem about the server that has just minted a token. -/
theorem revocation_final_minted :
    Steps String fresh oneMinted (oneMinted.foldl step fresh) ∧
      (oneMinted.foldl step fresh).cache.isSome ∧
      ¬∀ events' s', Steps String ((oneMinted.foldl step fresh).step (.revoke "token", [some "disk full"])) events' s' →
        (∀ event ∈ events', ∀ e, ¬event.1.Mints "token" e) →
        ∀ now later (faults' : List (Option String)), s'.verify "token" now later faults' = none := by
  have hrun : Steps String fresh oneMinted (oneMinted.foldl step fresh) := Run.foldl _ _ _
  have hrow : (oneMinted.foldl step fresh).db.get "token" = some ⟨someone, 3700⟩ := by decide
  refine ⟨hrun, rfl, fun hfinal => ?_⟩
  have hclean := ((revocation_final_iff hrun).2 "token" [some "disk full"] rfl).mp hfinal ⟨_, hrow, by decide⟩
  exact absurd hclean (by decide)

/-- A revocation whose transaction cannot open is undone by a restart: the
token verifies again. -/
theorem revoked_token_returns :
    ((oneMinted ++ [(TokenEvent.revoke "token", [some "disk full"]), (TokenEvent.restart 110, [])]).foldl
      step fresh).verify "token" 120 120 ([] : List (Option String)) = some (someone, 3700) := by
  decide

end TokenServer

end HeatherDb
