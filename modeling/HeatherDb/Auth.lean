/-
# Authorization against the router

`auth.rs` and the route table of `main.rs`. The middleware authenticates a
request, looks up the visibility of the log it asks for, and checks the user's
scope against the raw path; the router then matches the path on its own and
decodes what it captured. Three readings of one path, and they agree
(`authorization_agrees_with_router`).

The table lists the routes of a collection once; the legacy router has them at
the root, for the default database, and the scoped one under `/db/{db}`. What
the middleware asks of the user store, the token store and the server are
functions here, and so is base64.

Key definitions: `routeTable`, `RouteHandler.database`, `AuthState`, `middleware`.
Key theorems: `routeTable_placed`, `middleware_next`,
`authorization_agrees_with_router`.
-/
import HeatherDb.DbConfig
import HeatherDb.Users
import Mathlib.Data.List.DropRight

namespace HeatherDb

open Router

/-! ### The route table -/

inductive Method where
  | get
  | head
  | post
  | put
  | delete
  | other
deriving DecidableEq, Repr

/-- A route for `GET` serves `HEAD` too. -/
def Method.serves (route request : Method) : Bool := request == route || (request == .head && route == .get)

/-- What a handler of the legacy router does on one database. -/
inductive Operation where
  | createCollection
  | listCollections
  | dropCollection
  | write
  | bulkLoad
  | read
  | attention
  | attentionMdl
  | calibrate
  | stats
  | compress
  | collectionConfig
  | locations
  | analyze
  | batchAnalyze
  | fingerprint
  | getDocuments
  | queryDocuments
  | getDocument
  | deleteDocument
  | algebraAdd
  | algebraSub
  | algebraScale
  | algebraIntersect
  | algebraBind
  | algebraPermute
  | algebraUnbind
  | composeRead
  | vecBind
  | vecUnbind
  | vecBundle
  | vecPow
  | vecRotate
deriving DecidableEq, Repr

inductive RouteHandler where
  | health
  | ready
  /-- The operation on the default database. -/
  | routes (op : Operation)
  | listDatabases
  | createDatabase
  | getDatabase
  | dropDatabase
  /-- `dream::trigger` -/
  | dream
  | queryAudit
  | getDurability
  | setDurability
  /-- The operation on the database of the path. -/
  | routesDb (op : Operation)
  /-- `tokens::mint` -/
  | mint
  /-- `tokens::revoke` -/
  | revoke
deriving DecidableEq, Repr

/-- The routes of collections and their algebra, below a database. -/
def operationRoutes : List (Method × List Segment × Operation) :=
  [(.post, [.static "collections"], .createCollection),
    (.get, [.static "collections"], .listCollections),
    (.delete, [.static "collections", .capture], .dropCollection),
    (.post, [.static "collections", .capture, .static "write"], .write),
    (.post, [.static "collections", .capture, .static "bulk_load"], .bulkLoad),
    (.post, [.static "collections", .capture, .static "read"], .read),
    (.post, [.static "collections", .capture, .static "attention"], .attention),
    (.post, [.static "collections", .capture, .static "attention", .static "mdl"], .attentionMdl),
    (.post, [.static "collections", .capture, .static "attention", .static "calibrate"], .calibrate),
    (.get, [.static "collections", .capture, .static "stats"], .stats),
    (.post, [.static "collections", .capture, .static "compress"], .compress),
    (.get, [.static "collections", .capture, .static "config"], .collectionConfig),
    (.get, [.static "collections", .capture, .static "locations"], .locations),
    (.post, [.static "collections", .capture, .static "analyze"], .analyze),
    (.post, [.static "collections", .capture, .static "batch_analyze"], .batchAnalyze),
    (.get, [.static "collections", .capture, .static "fingerprint"], .fingerprint),
    (.get, [.static "collections", .capture, .static "documents"], .getDocuments),
    (.post, [.static "collections", .capture, .static "documents", .static "query"], .queryDocuments),
    (.get, [.static "collections", .capture, .static "documents", .capture], .getDocument),
    (.delete, [.static "collections", .capture, .static "documents", .capture], .deleteDocument),
    (.post, [.static "algebra", .static "add"], .algebraAdd),
    (.post, [.static "algebra", .static "sub"], .algebraSub),
    (.post, [.static "algebra", .static "scale"], .algebraScale),
    (.post, [.static "algebra", .static "intersect"], .algebraIntersect),
    (.post, [.static "algebra", .static "bind"], .algebraBind),
    (.post, [.static "algebra", .static "permute"], .algebraPermute),
    (.post, [.static "algebra", .static "unbind"], .algebraUnbind),
    (.post, [.static "compose", .static "read"], .composeRead)]

/-- Vector operations have no database of their own, and no scoped route. -/
def vectorRoutes : List (Method × List Segment × Operation) :=
  [(.post, [.static "vec", .static "bind"], .vecBind),
    (.post, [.static "vec", .static "unbind"], .vecUnbind),
    (.post, [.static "vec", .static "bundle"], .vecBundle),
    (.post, [.static "vec", .static "pow"], .vecPow),
    (.post, [.static "vec", .static "rotate"], .vecRotate)]

def healthRoutes : List (Route Method RouteHandler) :=
  [⟨.get, [.static "health"], .health⟩, ⟨.get, [.static "healthz"], .health⟩,
    ⟨.get, [.static "ready"], .ready⟩, ⟨.get, [.static "readyz"], .ready⟩]

def legacyRouter : List (Route Method RouteHandler) :=
  (operationRoutes ++ vectorRoutes).map fun (method, pattern, op) => ⟨method, pattern, .routes op⟩

def dbAdminRouter : List (Route Method RouteHandler) :=
  [⟨.get, [.static "db"], .listDatabases⟩,
    ⟨.post, [.static "db"], .createDatabase⟩,
    ⟨.get, [.static "db", .capture], .getDatabase⟩,
    ⟨.delete, [.static "db", .capture], .dropDatabase⟩,
    ⟨.post, [.static "db", .capture, .static "dream"], .dream⟩,
    ⟨.get, [.static "db", .capture, .static "audit"], .queryAudit⟩]

def dbScopedRouter : List (Route Method RouteHandler) :=
  [⟨.get, [.static "db", .capture, .static "durability"], .getDurability⟩,
    ⟨.put, [.static "db", .capture, .static "durability"], .setDurability⟩] ++
  operationRoutes.map fun (method, pattern, op) => ⟨method, .static "db" :: .capture :: pattern, .routesDb op⟩

def authRouter : List (Route Method RouteHandler) :=
  [⟨.post, [.static "auth", .static "token"], .mint⟩,
    ⟨.post, [.static "auth", .static "token", .static "revoke"], .revoke⟩]

def routeTable : List (Route Method RouteHandler) :=
  healthRoutes ++ legacyRouter ++ dbAdminRouter ++ dbScopedRouter ++ authRouter

namespace RouteHandler

/-- The database a handler works on, of the decoded captures. -/
def database (args : List String) : RouteHandler → Option String
  | .routes _ => some "default"
  | .getDatabase | .dropDatabase | .dream | .queryAudit | .getDurability | .setDurability | .routesDb _ => args.head?
  | .health | .ready | .listDatabases | .createDatabase | .mint | .revoke => none

/-- Answers without credentials. -/
def isHealth (handler : RouteHandler) : Bool := handler == .health || handler == .ready

/-- An identity operation, under `/auth/`. -/
def isAuth (handler : RouteHandler) : Bool := handler == .mint || handler == .revoke

end RouteHandler

/-- A route is where its handler belongs. -/
def placed (route : Route Method RouteHandler) : Bool :=
  match route.handler with
  | .health => route.pattern == [.static "health"] || route.pattern == [.static "healthz"]
  | .ready => route.pattern == [.static "ready"] || route.pattern == [.static "readyz"]
  | .routes _ => ["collections", "algebra", "compose", "vec"].any fun s => route.pattern.head? == some (.static s)
  | .listDatabases | .createDatabase => route.pattern == [.static "db"]
  | .queryAudit => route.pattern == [.static "db", .capture, .static "audit"]
  | .mint | .revoke => route.pattern.head? == some (.static "auth")
  | .getDatabase | .dropDatabase | .dream | .getDurability | .setDurability | .routesDb _ =>
    route.pattern.take 2 == [.static "db", .capture]

theorem routeTable_placed : ∀ route ∈ routeTable, placed route = true := by decide

/-! ### The middleware -/

/-- How a request authenticated. -/
inductive AuthKind where
  | basic
  | bearer
deriving DecidableEq, Repr

/-- What the middleware asks of the stores. -/
structure AuthState where
  getUser : String → Option User
  /-- The user with this name and password. -/
  verifyUser : String → String → Option User
  /-- `Tokens::verify`; none when authentication is off. -/
  verifyToken : Option (String → Option (User × ℕ))
  disabled : Bool
  /-- The visibility of a mounted database's log. -/
  auditVisibility : String → Option AuditVisibility

structure AuthedUser where
  user : User
  kind : AuthKind
  /-- The bearer token presented. -/
  token : Option String

structure Request where
  method : Method
  path : List Char
  /-- The value of the `Authorization` header. -/
  authorization : Option (List Char)

/-- An answer that no handler gave. -/
structure Denial where
  status : ℕ
  message : String

/-- `deny_401` -/
def deny401 (message : String) : Denial := ⟨401, message⟩

/-- `deny_403` -/
def deny403 (message : String) : Denial := ⟨403, message⟩

inductive Verdict where
  | deny (denial : Denial)
  /-- The request goes on, as this user. -/
  | next (authed : Option AuthedUser)

/-- The database of a `/db/{name}/audit` path. -/
def auditRouteDb (path : List Char) : Option String := do
  let rest ← stripPrefix "/db/" path
  match rest.dropWhile (· ≠ '/') with
  | [] => none
  | _ :: tail =>
    if tail = "audit".toList then some (String.ofList (rest.takeWhile (· ≠ '/'))) else none

/-- Routes that pass without credentials. -/
def isUnauthRoute (path : List Char) : Bool :=
  path = "/health".toList || path = "/healthz".toList || path = "/ready".toList || path = "/readyz".toList

def trim (text : List Char) : List Char := (text.dropWhile Char.isWhitespace).rdropWhile Char.isWhitespace

/-- Name and password of a `Basic` header. -/
def parseBasic (decodeB64 : List Char → Option (List Char)) (header : List Char) : Option (String × String) := do
  let token ← stripPrefix "Basic " header
  let decoded ← decodeB64 (trim token)
  match decoded.dropWhile (· ≠ ':') with
  | [] => none
  | _ :: password => some (String.ofList (decoded.takeWhile (· ≠ ':')), String.ofList password)

/-- Who the header speaks for. -/
def authenticate (decodeB64 : List Char → Option (List Char)) (auth : AuthState) (header : Option (List Char)) :
    Except Denial AuthedUser :=
  match header with
  | none => .error (deny401 "missing or malformed Authorization header")
  | some header =>
    match stripPrefix "Bearer " header with
    | some rest =>
      let token := String.ofList (trim rest)
      match auth.verifyToken.bind (· token) with
      | some (issued, _) =>
        match auth.getUser issued.name with
        | some current =>
          if current.passwordHash = issued.passwordHash ∧ current.createdAt = issued.createdAt ∧
              current.scope = issued.scope then .ok ⟨current, .bearer, some token⟩
          else .error (deny401 "bearer token user was deleted or credentials changed")
        | none => .error (deny401 "bearer token user was deleted or credentials changed")
      | none => .error (deny401 "invalid or expired bearer token")
    | none =>
      if startsWith "Basic " header then
        match parseBasic decodeB64 header with
        | some (user, password) =>
          match auth.verifyUser user password with
          | some user => .ok ⟨user, .basic, none⟩
          | none => .error (deny401 "invalid credentials")
        | none => .error (deny401 "malformed Basic credentials")
      else .error (deny401 "missing or malformed Authorization header")

def middleware (decodeB64 : List Char → Option (List Char)) (auth : AuthState) (req : Request) : Verdict :=
  if auth.disabled || isUnauthRoute req.path then .next none
  else
    match authenticate decodeB64 auth req.authorization with
    | .error denial => .deny denial
    | .ok authed =>
      let auditVisibility := (auditRouteDb req.path).bind auth.auditVisibility
      if !startsWith "/auth/" req.path && !isAuthorized authed.user.scope req.path auditVisibility then
        .deny <| deny403
          s!"user '{authed.user.name}' (scope {authed.user.scope.label}) is not authorised for {String.ofList req.path}"
      else .next (some authed)

/-- What the middleware has checked of a request it lets through. -/
theorem middleware_next {decodeB64 : List Char → Option (List Char)} {auth : AuthState} {req : Request}
    {identity : Option AuthedUser} (h : middleware decodeB64 auth req = .next identity) :
    (identity = none ∧ (auth.disabled = true ∨ isUnauthRoute req.path = true)) ∨
      ∃ authed, identity = some authed ∧ authenticate decodeB64 auth req.authorization = .ok authed ∧
        (startsWith "/auth/" req.path = true ∨
          isAuthorized authed.user.scope req.path ((auditRouteDb req.path).bind auth.auditVisibility) = true) := by
  unfold middleware at h
  split_ifs at h with hopen
  · injection h with h
    exact .inl ⟨h.symm, by simpa using hopen⟩
  · cases hauth : authenticate decodeB64 auth req.authorization with
    | error denial => simp [hauth] at h
    | ok authed =>
      simp only [hauth] at h
      split_ifs at h with hscope
      injection h with h
      exact .inr ⟨authed, h.symm, rfl, by simpa [or_iff_not_imp_left] using hscope⟩

/-! ### The three readings of a path -/

/-- A path that starts with a literal segment. -/
theorem path_of_static {text : String} {segments : List Segment} {path : List Char} {raws : List (List Char)}
    (h : captures (.static text :: segments) path = some raws) :
    ∃ tail, path = '/' :: (text.toList ++ tail) ∧ Ends tail ∧ captures segments tail = some raws := by
  obtain ⟨raw, tail, rfl, -, hends, ⟨text', htext, rfl, hrest⟩ | ⟨hcap, -⟩⟩ := captures_cons h
  · cases htext
    exact ⟨tail, rfl, hends, hrest⟩
  · cases hcap

/-- A path to a database, with the name as it stands there. -/
theorem path_of_db {segments : List Segment} {path : List Char} {raws : List (List Char)}
    (h : captures (.static "db" :: .capture :: segments) path = some raws) :
    ∃ raw tail raws', path = "/db/".toList ++ (raw ++ tail) ∧ '/' ∉ raw ∧ Ends tail ∧ raws = raw :: raws' ∧
      captures segments tail = some raws' := by
  obtain ⟨tail, rfl, -, hrest⟩ := path_of_static h
  obtain ⟨raw, tail, rfl, hraw, hends, ⟨_, htext, -⟩ | ⟨-, -, raws', hlast, rfl⟩⟩ := captures_cons hrest
  · cases htext
  · exact ⟨raw, tail, raws', rfl, hraw, hends, rfl, hlast⟩

theorem path_of_static_end {text : String} {path : List Char} {raws : List (List Char)}
    (h : captures [.static text] path = some raws) : path = '/' :: text.toList := by
  obtain ⟨tail, rfl, -, hrest⟩ := path_of_static h
  cases tail with
  | nil => simp
  | cons c tail => simp [captures] at hrest

/-- The log's visibility is looked up under the name the router captures. -/
theorem auditRouteDb_audit {raw : List Char} (hraw : '/' ∉ raw) :
    auditRouteDb ("/db/".toList ++ (raw ++ "/audit".toList)) = some (String.ofList raw) := by
  obtain ⟨htake, hdrop⟩ := takeWhile_segment hraw (.inr ⟨"audit".toList, rfl⟩)
  have hstrip : stripPrefix "/db/" ("/db/".toList ++ (raw ++ "/audit".toList)) = some (raw ++ "/audit".toList) :=
    stripPrefix_eq_some.mpr rfl
  have hslash : "/audit".toList = '/' :: "audit".toList := rfl
  rw [auditRouteDb, hstrip, Option.bind_eq_bind, Option.bind_some, hslash, htake, hdrop]
  exact if_pos rfl

/-- A captured name that equals a valid one decodes to it. -/
theorem percentDecode_name {name : String} (hname : validateDbName name = .ok ()) :
    percentDecode name.toList = some name := by
  have hplain := plain_of_validateDbName hname
  rw [percentDecode_plain (fun c hc => nameChar_lt (hplain c hc)) fun hc => absurd (hplain _ hc) (by decide),
    String.ofList_toList]

/-- The five places a route can have. -/
theorem placed_cases {route : Route Method RouteHandler} (hplaced : placed route = true) (args : List String) :
    (route.handler.isHealth = true) ∨
    (route.handler.isAuth = true ∧ ∃ segments, route.pattern = .static "auth" :: segments) ∨
    (route.handler ≠ .queryAudit ∧ route.pattern = [.static "db"]) ∨
    (route.handler ≠ .queryAudit ∧ route.handler.database args = some "default" ∧
      ∃ text ∈ ["collections", "algebra", "compose", "vec"], ∃ segments, route.pattern = .static text :: segments) ∨
    (route.handler.database args = args.head? ∧ ∃ segments, route.pattern = .static "db" :: .capture :: segments ∧
      (route.handler = .queryAudit → segments = [.static "audit"])) := by
  obtain ⟨method, pattern, handler⟩ := route
  unfold placed at hplaced
  cases handler with
  | health | ready => exact .inl rfl
  | mint | revoke =>
    refine .inr (.inl ⟨rfl, ?_⟩)
    obtain ⟨segments, hsegments⟩ := List.head?_eq_some_iff.mp (beq_iff_eq.mp hplaced)
    exact ⟨segments, hsegments⟩
  | listDatabases | createDatabase => exact .inr (.inr (.inl ⟨by simp, beq_iff_eq.mp hplaced⟩))
  | routes op =>
    refine .inr (.inr (.inr (.inl ⟨by simp, rfl, ?_⟩)))
    obtain ⟨text, htext, hhead⟩ := List.any_eq_true.mp hplaced
    obtain ⟨segments, hsegments⟩ := List.head?_eq_some_iff.mp (beq_iff_eq.mp hhead)
    exact ⟨text, htext, segments, hsegments⟩
  | queryAudit => exact .inr (.inr (.inr (.inr ⟨rfl, _, beq_iff_eq.mp hplaced, fun _ => rfl⟩)))
  | getDatabase | dropDatabase | dream | getDurability | setDurability | routesDb op =>
    refine .inr (.inr (.inr (.inr ⟨rfl, pattern.drop 2, ?_, by simp⟩)))
    calc pattern = pattern.take 2 ++ pattern.drop 2 := (List.take_append_drop 2 pattern).symm
      _ = .static "db" :: .capture :: pattern.drop 2 := by rw [beq_iff_eq.mp hplaced]; rfl

/-- A path without credentials is a health route's. -/
theorem isHealth_of_unauth {route : Route Method RouteHandler} {path : List Char} {raws : List (List Char)}
    (hplaced : placed route = true) (hraws : captures route.pattern path = some raws)
    (hopen : isUnauthRoute path = true) : route.handler.isHealth = true := by
  have hfirst : ∀ (c : Char) (cs : List Char), path = '/' :: c :: cs → c = 'h' ∨ c = 'r' := by
    rintro c cs rfl
    simp only [isUnauthRoute, Bool.or_eq_true, decide_eq_true_eq, String.reduceToList, List.cons.injEq] at hopen
    rcases hopen with ((⟨-, rfl, -⟩ | ⟨-, rfl, -⟩) | ⟨-, rfl, -⟩) | ⟨-, rfl, -⟩ <;> simp
  rcases placed_cases hplaced [] with h | ⟨-, _, hp⟩ | ⟨-, hp⟩ | ⟨-, -, text, htext, _, hp⟩ | ⟨-, _, hp, -⟩
  · exact h
  all_goals
    rw [hp] at hraws
    obtain ⟨tail, rfl, -, -⟩ := path_of_static hraws
  · rcases hfirst 'a' _ rfl with h | h <;> contradiction
  · rcases hfirst 'd' _ rfl with h | h <;> contradiction
  · have hletter : ∀ text ∈ ["collections", "algebra", "compose", "vec"],
        ∃ c cs, text.toList = c :: cs ∧ c ≠ 'h' ∧ c ≠ 'r' := by
      simp
    obtain ⟨c, cs, htext, hh, hr⟩ := hletter text htext
    rw [htext] at hfirst
    rcases hfirst c _ rfl with h | h <;> contradiction
  · rcases hfirst 'd' _ rfl with h | h <;> contradiction

/-- **Authorization agrees with the router**, any that goes by the patterns of
the table. Whatever the path, a request that the middleware lets through and the
router dispatches reaches, for a user of one database, that database's handlers,
an identity operation or a health route; and the log only where its visibility
lets the database's users in. Without an identity it reaches a health route,
unless authentication is off. -/
theorem authorization_agrees_with_router {router : Method → List Char → Option (RouteHandler × List String)}
    (hrouter : Dispatches routeTable router) {decodeB64 : List Char → Option (List Char)} {auth : AuthState}
    {req : Request} {identity : Option AuthedUser} {handler : RouteHandler} {args : List String}
    (hpass : middleware decodeB64 auth req = .next identity)
    (hroute : router req.method req.path = some (handler, args)) :
    (identity = none → auth.disabled = true ∨ handler.isHealth = true) ∧
    ∀ authed name, identity = some authed → authed.user.scope = .database name →
      validateDbName name = .ok () →
      (handler.isHealth = true ∨ handler.isAuth = true ∨ handler.database args = some name) ∧
        (handler = .queryAudit → auth.auditVisibility name = some .dbUsers) := by
  obtain ⟨route, hmem, rfl, raws, hraws, hargs⟩ := hrouter _ _ _ _ hroute
  have hplaced := routeTable_placed route hmem
  rcases middleware_next hpass with ⟨rfl, hopen⟩ | ⟨authed, rfl, -, hscope⟩
  · exact ⟨fun _ => hopen.imp id (isHealth_of_unauth hplaced hraws), fun _ _ h => by cases h⟩
  refine ⟨fun h => (Option.some_ne_none _ h).elim, fun authed' name hid hdb hname => ?_⟩
  obtain rfl := Option.some.inj hid
  rw [hdb] at hscope
  rcases placed_cases hplaced args with h | ⟨h, -⟩ | ⟨hne, hp⟩ | ⟨hne, hdefault, text, htext, _, hp⟩ |
    ⟨hhead, segments, hp, haudit⟩
  · exact ⟨.inl h, fun hq => by simp [hq, RouteHandler.isHealth] at h⟩
  · exact ⟨.inr (.inl h), fun hq => by simp [hq, RouteHandler.isAuth] at h⟩
  · rw [hp] at hraws
    rw [path_of_static_end hraws] at hscope
    simp [startsWith, isAuthorized, stripPrefix, List.isPrefixOf?] at hscope
  · rw [hp] at hraws
    obtain ⟨tail, hpath, -, -⟩ := path_of_static hraws
    have hapart : ∀ text ∈ ["collections", "algebra", "compose", "vec"], ∀ tail rest : List Char,
        '/' :: (text.toList ++ tail) ≠ "/auth/".toList ++ rest ∧
          '/' :: (text.toList ++ tail) ≠ "/db/".toList ++ rest := by
      simp
    rw [hpath] at hscope
    have hauth : startsWith "/auth/" ('/' :: (text.toList ++ tail)) = false := by
      rw [startsWith, Option.isSome_eq_false_iff, Option.isNone_iff_eq_none]
      cases hs : stripPrefix "/auth/" ('/' :: (text.toList ++ tail)) with
      | none => rfl
      | some rest => exact absurd (stripPrefix_eq_some.mp hs).symm (hapart text htext tail rest).1
    have hname := default_of_isAuthorized (fun rest => (hapart text htext tail rest).2)
      (hscope.resolve_left (Bool.eq_false_iff.mp hauth))
    exact ⟨.inr (.inr (hname ▸ hdefault)), fun hq => absurd hq hne⟩
  · rw [hp] at hraws
    obtain ⟨raw, tail, raws', hpath, hraw, hends, rfl, hrest⟩ := path_of_db hraws
    rw [hpath] at hscope
    have hauth : startsWith "/auth/" ("/db/".toList ++ (raw ++ tail)) = false := rfl
    obtain ⟨hsame, hgate⟩ := (isAuthorized_db_iff hraw hends).mp (hscope.resolve_left (Bool.eq_false_iff.mp hauth))
    refine ⟨.inr (.inr ?_), fun hq => ?_⟩
    · rw [hsame, List.mapM_cons, percentDecode_name hname] at hargs
      simp only [Option.bind_eq_bind, Option.bind_some, Option.bind_eq_some_iff] at hargs
      obtain ⟨_, -, hargs⟩ := hargs
      rw [hhead, ← Option.some.inj hargs]
      rfl
    · obtain rfl := haudit hq
      have htail : tail = "/audit".toList := path_of_static_end hrest
      subst htail
      have hvisible := hgate rfl
      rwa [auditRouteDb_audit hraw, hsame, String.ofList_toList, Option.bind_some] at hvisible

/-- A user of one database. -/
def gardener : User := ⟨"gardener", "hash", .database "garden", 0⟩

/-- A server whose database `garden` lets its users read its log. -/
def gardenAuth : AuthState where
  getUser := fun _ => some gardener
  verifyUser := fun _ _ => some gardener
  verifyToken := none
  disabled := false
  auditVisibility := fun name => if name = "garden" then some .dbUsers else none

/-- A request for the log. -/
def auditRequest : Request := ⟨.get, "/db/garden/audit".toList, some "Basic Z2FyZGVuZXI6cGFzc3dvcmQ=".toList⟩

/-- The theorem about a user who reads their own database's log. -/
theorem authorization_agrees_garden :
    (RouteHandler.queryAudit.isHealth = true ∨ RouteHandler.queryAudit.isAuth = true ∨
      RouteHandler.queryAudit.database ["garden"] = some "garden") ∧
    (RouteHandler.queryAudit = .queryAudit → gardenAuth.auditVisibility "garden" = some .dbUsers) := by
  have hpass : middleware (fun _ => some "gardener:password".toList) gardenAuth auditRequest =
      .next (some ⟨gardener, .basic, none⟩) := by rfl
  have hroute : dispatch Method.serves routeTable auditRequest.method auditRequest.path =
      some (.queryAudit, ["garden"]) := by rfl
  exact (authorization_agrees_with_router (dispatches_dispatch _ _) hpass hroute).2 _ "garden" rfl rfl rfl

end HeatherDb
