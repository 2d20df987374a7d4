/-
# A database's configuration

`db_config.rs`: what `db.toml` holds and which names a database may have.

Key definitions: `DbConfig`, `DbConfig.new`, `validateDbName`.
Key theorem: `plain_of_validateDbName`.
-/
import HeatherDb.Audit
import HeatherDb.Config

namespace HeatherDb

/-- The database format this engine writes, and the newest it mounts. -/
def currentFormat : ℕ := 1

def defaultMapSizeMb : ℕ := 4096

structure DbConfig (F : Type) where
  name : String
  /-- Unix seconds. -/
  createdAt : ℕ
  eam : EAMConfig F
  mapSizeMb : ℕ
  /-- 0 from before the record envelope. -/
  formatVersion : ℕ
  audit : AuditConfig

/-- The defaults for a name and a dimension. -/
def DbConfig.new {F : Type} [Scalar F] (name : String) (dimension now : ℕ) : Except HeatherError (DbConfig F) := do
  let eam ← EAMConfig.new dimension
  pure ⟨name, now, eam, defaultMapSizeMb, currentFormat, .standard⟩

/-- The characters of a database name. -/
def nameChar (c : Char) : Bool := c.isLower || c.isDigit || c == '_' || c == '-'

def validateDbName (name : String) : Except HeatherError Unit :=
  if name.isEmpty || decide (63 < name.utf8ByteSize) then
    .error (.invalidInput s!"database name length must be 1..=63 (got {name.utf8ByteSize})")
  else
    match name.toList with
    | [] => .ok ()
    | first :: rest =>
      if !first.isLower then .error (.invalidInput "database name must start with a lowercase letter")
      else
        match rest.find? fun c => !nameChar c with
        | some c =>
          .error (.invalidInput s!"database name contains invalid char {c.quote} (allowed: a-z 0-9 _ -)")
        | none => .ok ()

/-- A valid name has none of the characters that mean something in a path. -/
theorem plain_of_validateDbName {name : String} (h : validateDbName name = .ok ()) :
    ∀ c ∈ name.toList, nameChar c = true := by
  unfold validateDbName at h
  split_ifs at h
  cases hname : name.toList with
  | nil => simp
  | cons first rest =>
    simp only [hname] at h
    split_ifs at h with hfirst
    cases hfind : rest.find? fun c => !nameChar c with
    | some c => simp [hfind] at h
    | none =>
      intro c hc
      rcases List.mem_cons.mp hc with rfl | hc
      · simp [nameChar, (by simpa using hfirst : c.isLower = true)]
      · simpa using List.find?_eq_none.mp hfind c hc

/-- A valid name is not one that a boot skips. -/
theorem not_hidden_of_validateDbName {name : String} (h : validateDbName name = .ok ()) :
    name.startsWith "_" = false := by
  unfold validateDbName at h
  split_ifs at h with hlength
  rw [Bool.eq_false_iff, ne_eq, String.startsWith_string_iff]
  rintro ⟨rest, hrest⟩
  have hname : name.toList = '_' :: rest := hrest.symm
  rw [hname] at h
  exact absurd h (by simp)

theorem nameChar_lt {c : Char} (h : nameChar c = true) : c.toNat < 128 := by
  have hle : ∀ {last : Char}, last.toNat < 128 → decide (c.val ≤ last.val) = true → c.toNat < 128 := fun hlast h =>
    (UInt32.le_iff_toNat_le.mp (of_decide_eq_true h)).trans_lt hlast
  simp only [nameChar, Bool.or_eq_true, beq_iff_eq] at h
  rcases h with ((h | h) | rfl) | rfl
  · exact hle (by decide : 'z'.toNat < 128) (Bool.and_eq_true_iff.mp h).2
  · exact hle (by decide : '9'.toNat < 128) (Bool.and_eq_true_iff.mp h).2
  · decide
  · decide

end HeatherDb
