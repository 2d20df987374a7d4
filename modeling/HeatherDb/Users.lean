/-
# Users and what they may reach

`users.rs` of the server: who a user is, which database their scope names, and
whether that scope permits a request path. The check reads the raw path, on
its own and before the router does.

Key definitions: `Scope`, `User`, `isPolicyGatedDbRoute`, `isAuthorized`.
Key theorems: `isAuthorized_db_iff`, `default_of_isAuthorized`.
-/
import HeatherDb.Audit
import HeatherDb.Lib.Router

namespace HeatherDb

open Router

/-- Where a user may operate. -/
inductive Scope where
  | root
  | database (name : String)
deriving DecidableEq, Repr

structure User where
  name : String
  passwordHash : String
  scope : Scope
  /-- Unix seconds. -/
  createdAt : ℕ
deriving DecidableEq, Repr

/-- `Scope::label` -/
def Scope.label : Scope → String
  | .root => "root"
  | .database name => "db:" ++ name

/-! ### The check of a path -/

/-- `str::strip_prefix` -/
def stripPrefix (text : String) (path : List Char) : Option (List Char) := text.toList.isPrefixOf? path

def startsWith (text : String) (path : List Char) : Bool := (stripPrefix text path).isSome

/-- Routes under a database that the visibility of its log decides on. -/
def isPolicyGatedDbRoute (tail : List Char) : Bool :=
  let seg := (stripPrefix "/" tail).getD tail
  seg.takeWhile (· ≠ '/') == "audit".toList

/-- Whether the scope permits the path; the visibility is that of the log the
path asks for, if it asks for one. -/
def isAuthorized (scope : Scope) (path : List Char) (auditVisibility : Option AuditVisibility) : Bool :=
  match scope with
  | .root => true
  | .database name =>
    match stripPrefix "/db/" path with
    | some rest =>
      let routeDb := rest.takeWhile (· ≠ '/')
      if isPolicyGatedDbRoute (rest.dropWhile (· ≠ '/')) && auditVisibility != some .dbUsers then false
      else routeDb == name.toList
    | none =>
      if path = "/db".toList then false
      else if name = "default" then
        startsWith "/collections" path || startsWith "/algebra" path || startsWith "/compose" path
      else false

/-! ### What it says of a path that the router matches -/

theorem stripPrefix_eq_some {text : String} {path rest : List Char} :
    stripPrefix text path = some rest ↔ text.toList ++ rest = path := by
  rw [stripPrefix, List.isPrefixOf?_eq_some_iff_append_eq]

theorem takeWhile_segment {raw tail : List Char} (hraw : '/' ∉ raw) (htail : Ends tail) :
    (raw ++ tail).takeWhile (· ≠ '/') = raw ∧ (raw ++ tail).dropWhile (· ≠ '/') = tail := by
  have hall : ∀ c ∈ raw, decide (c ≠ '/') = true := fun c hc => decide_eq_true fun h => hraw (h ▸ hc)
  rw [List.takeWhile_append_of_pos hall, List.dropWhile_append_of_pos hall]
  rcases htail with rfl | ⟨rest, rfl⟩ <;> simp

/-- Of a path to a database, the name is compared as it stands there. -/
theorem isAuthorized_db_iff {name : String} {raw tail : List Char} {visibility : Option AuditVisibility}
    (hraw : '/' ∉ raw) (htail : Ends tail) :
    isAuthorized (.database name) ("/db/".toList ++ (raw ++ tail)) visibility = true ↔
      raw = name.toList ∧ (isPolicyGatedDbRoute tail = true → visibility = some .dbUsers) := by
  have hstrip : stripPrefix "/db/" ("/db/".toList ++ (raw ++ tail)) = some (raw ++ tail) :=
    stripPrefix_eq_some.mpr rfl
  obtain ⟨htake, hdrop⟩ := takeWhile_segment hraw htail
  simp only [isAuthorized, hstrip, htake, hdrop]
  cases isPolicyGatedDbRoute tail <;> simp
  tauto

/-- A path that names no database is the default database's. -/
theorem default_of_isAuthorized {name : String} {path : List Char} {visibility : Option AuditVisibility}
    (hdb : ∀ rest, path ≠ "/db/".toList ++ rest)
    (h : isAuthorized (.database name) path visibility = true) : name = "default" := by
  have hstrip : stripPrefix "/db/" path = none := by
    cases hs : stripPrefix "/db/" path with
    | none => rfl
    | some rest => exact absurd (stripPrefix_eq_some.mp hs).symm (hdb rest)
  simp only [isAuthorized, hstrip] at h
  split_ifs at h with _ hname
  exact hname

end HeatherDb
