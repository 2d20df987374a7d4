/-
# Absorptions

A list of absorptions `(removed, survivor)`, oldest first: each moves what
was filed under `removed` to the end of what is filed under `survivor`. A
survivor may be absorbed later itself; a key absorbed once never comes up
again (`Lawful`). Then every key has one place where its things end
(`final`), what is filed under a key that stays is what was there and what
ended there (`migrate_survivor`), and nothing is lost (`flatMap_migrate_perm`).

`resolve` follows a map of parents as a loop does, with fuel; on a lawful
list it is `final` (`resolve_eq_final`).

Key definitions: `Lawful`, `final`, `migrate`, `resolve`.
Key theorems: `migrate_survivor`, `flatMap_migrate_perm`, `resolve_eq_final`.
-/
import Mathlib.Data.List.Perm.Lattice
import Mathlib.Data.List.Nodup
import Mathlib.Logic.Function.Basic

namespace Absorb

variable {κ α : Type}

/-- An absorbed key is another than its survivor and does not come up again. -/
structure Lawful (m : List (κ × κ)) : Prop where
  irrefl : ∀ e ∈ m, e.1 ≠ e.2
  gone : m.Pairwise fun e e' => e.1 ≠ e'.1 ∧ e.1 ≠ e'.2

/-- Where the things filed under a key end. -/
def final [DecidableEq κ] (m : List (κ × κ)) (k : κ) : κ := m.foldl (fun k e => if k = e.1 then e.2 else k) k

/-- One absorption of what is filed under keys. -/
def move [DecidableEq κ] (p : κ → List α) (e : κ × κ) : κ → List α :=
  Function.update (Function.update p e.2 (p e.2 ++ p e.1)) e.1 []

/-- All the absorptions in order. -/
def migrate [DecidableEq κ] (m : List (κ × κ)) (p : κ → List α) : κ → List α := m.foldl move p

namespace Lawful

theorem nil : Lawful ([] : List (κ × κ)) := ⟨by simp, List.Pairwise.nil⟩

theorem tail {e : κ × κ} {m : List (κ × κ)} (h : Lawful (e :: m)) : Lawful m :=
  ⟨fun e' he' => h.irrefl e' (by simp [he']), (List.pairwise_cons.mp h.gone).2⟩

theorem snoc {e : κ × κ} {m : List (κ × κ)} (h : Lawful m) (hne : e.1 ≠ e.2)
    (h1 : e.1 ∉ m.map (·.1)) (h2 : e.2 ∉ m.map (·.1)) : Lawful (m ++ [e]) where
  irrefl e' he' := by
    rcases List.mem_append.mp he' with he' | he'
    · exact h.irrefl e' he'
    · obtain rfl := List.mem_singleton.mp he'
      exact hne
  gone := by
    refine List.pairwise_append.mpr ⟨h.gone, List.pairwise_singleton _ _, fun e' he' x hx => ?_⟩
    obtain rfl := List.mem_singleton.mp hx
    have hmem : e'.1 ∈ m.map (·.1) := List.mem_map_of_mem he'
    exact ⟨fun he => h1 (he ▸ hmem), fun he => h2 (he ▸ hmem)⟩

theorem removed_nodup {m : List (κ × κ)} (h : Lawful m) : (m.map (·.1)).Nodup :=
  List.pairwise_map.mpr (h.gone.imp fun he => he.1)

/-- The first key absorbed is no later absorption's survivor or victim. -/
theorem head_notMem {e : κ × κ} {m : List (κ × κ)} (h : Lawful (e :: m)) :
    e.1 ∉ m.map (·.1) ∧ ∀ e' ∈ m, e'.2 ≠ e.1 := by
  have hp := (List.pairwise_cons.mp h.gone).1
  refine ⟨fun hmem => ?_, fun e' he' hc => (hp e' he').2 hc.symm⟩
  obtain ⟨e', he', hc⟩ := List.mem_map.mp hmem
  exact (hp e' he').1 hc.symm

end Lawful

variable [DecidableEq κ]

theorem final_of_notMem : ∀ {m : List (κ × κ)} {k : κ}, k ∉ m.map (·.1) → final m k = k
  | [], _, _ => rfl
  | e :: m, k, h => by
    simp only [List.map_cons, List.mem_cons, not_or] at h
    simp only [final, List.foldl_cons, h.1, ↓reduceIte]
    exact final_of_notMem h.2

theorem final_cons (e : κ × κ) (m : List (κ × κ)) (k : κ) :
    final (e :: m) k = final m (if k = e.1 then e.2 else k) := rfl

/-- An absorption into a key that stays decides its key. -/
theorem final_of_mem : ∀ {m : List (κ × κ)}, Lawful m → ∀ {e : κ × κ}, e ∈ m → e.2 ∉ m.map (·.1) →
    final m e.1 = e.2
  | e' :: m, h, e, he, hs => by
    simp only [List.map_cons, List.mem_cons, not_or] at hs
    rw [final_cons]
    rcases List.mem_cons.mp he with rfl | he
    · rw [if_pos rfl, final_of_notMem hs.2]
    · have hne : e.1 ≠ e'.1 := fun hc => h.head_notMem.1 (hc ▸ List.mem_map_of_mem he)
      rw [if_neg hne, final_of_mem h.tail he hs.2]

/-- A key ends at a key that stays. -/
theorem final_notMem : ∀ {m : List (κ × κ)}, Lawful m → ∀ k, final m k ∉ m.map (·.1)
  | [], _, _ => by simp
  | e :: m, h, k => by
    rw [final_cons, List.map_cons, List.mem_cons, not_or]
    obtain ⟨hmem, hsurv⟩ := h.head_notMem
    refine ⟨?_, final_notMem h.tail _⟩
    -- no absorption of the rest ends at the first key absorbed
    have key : ∀ (m : List (κ × κ)) (k : κ), (∀ e' ∈ m, e'.2 ≠ e.1) → k ≠ e.1 → final m k ≠ e.1 := by
      intro m
      induction m with
      | nil => exact fun k _ hk => hk
      | cons e' m ih =>
        intro k hs hk
        rw [final_cons]
        refine ih _ (fun e'' he'' => hs e'' (by simp [he''])) ?_
        split_ifs
        · exact hs e' (by simp)
        · exact hk
    refine key m _ hsurv ?_
    split_ifs with hk
    · exact (h.irrefl e (by simp)).symm
    · exact hk

theorem final_eq_or : ∀ (m : List (κ × κ)) (k : κ), final m k = k ∨ ∃ e ∈ m, final m k = e.2
  | [], _ => Or.inl rfl
  | e :: m, k => by
    rw [final_cons]
    by_cases hk : k = e.1
    · rw [if_pos hk]
      rcases final_eq_or m e.2 with hend | ⟨e', he', hend⟩
      · exact Or.inr ⟨e, List.mem_cons_self, hend⟩
      · exact Or.inr ⟨e', List.mem_cons_of_mem _ he', hend⟩
    · rw [if_neg hk]
      exact (final_eq_or m k).imp_right fun ⟨e', he', hend⟩ => ⟨e', List.mem_cons_of_mem _ he', hend⟩

/-- An absorbed key ends at a survivor. -/
theorem final_survivor {m : List (κ × κ)} (h : Lawful m) {k : κ} (hk : k ∈ m.map (·.1)) :
    ∃ e ∈ m, final m k = e.2 := by
  rcases final_eq_or m k with hsame | hend
  · exact absurd (hsame.symm ▸ hk) (final_notMem h k)
  · exact hend

/-- **What is filed under a key that stays** is what was there and what
absorptions ended there. -/
theorem migrate_survivor : ∀ {m : List (κ × κ)}, Lawful m → ∀ (p : κ → List α) {k : κ},
    k ∉ m.map (·.1) →
      (migrate m p k).Perm (p k ++ ((m.map (·.1)).filter fun r => final m r = k).flatMap p)
  | [], _, p, k, _ => by simp [migrate]
  | e :: m, h, p, k, hk => by
    simp only [List.map_cons, List.mem_cons, not_or] at hk
    obtain ⟨hmem, hsurv⟩ := h.head_notMem
    have hne := h.irrefl e (by simp)
    have ih := migrate_survivor h.tail (move p e) hk.2
    -- the keys the rest absorbs end where they did, with what they had, but
    -- for the survivor of the first absorption
    have hfin : ∀ r ∈ m.map (·.1), final (e :: m) r = final m r := by
      intro r hr
      have hre : r ≠ e.1 := fun hc => hmem (hc ▸ hr)
      rw [final_cons, if_neg hre]
    have hfilter : (m.map (·.1)).filter (fun r => final (e :: m) r = k) =
        (m.map (·.1)).filter fun r => final m r = k :=
      List.filter_congr fun r hr => by rw [hfin r hr]
    have hflat : ∀ rs : List κ, rs.Nodup → e.1 ∉ rs →
        (rs.flatMap (move p e)).Perm (rs.flatMap p ++ if e.2 ∈ rs then p e.1 else []) := by
      intro rs
      induction rs with
      | nil => simp
      | cons r rs ihr =>
        intro hnd he1
        simp only [List.nodup_cons] at hnd
        simp only [List.mem_cons, not_or] at he1
        have ihr := ihr hnd.2 he1.2
        rw [List.flatMap_cons, List.flatMap_cons]
        by_cases hr : r = e.2
        · subst hr
          have hmv : move p e e.2 = p e.2 ++ p e.1 := by
            rw [move, Function.update_of_ne hne.symm, Function.update_self]
          rw [if_neg hnd.1, List.append_nil] at ihr
          rw [hmv, if_pos (by simp), List.append_assoc, List.append_assoc]
          exact ((List.perm_append_comm).trans (ihr.append_right _)).append_left _
        · have hmv : move p e r = p r := by
            rw [move, Function.update_of_ne (Ne.symm he1.1), Function.update_of_ne hr]
          rw [hmv, List.append_assoc]
          refine (ihr.append_left _).trans ?_
          by_cases h2 : e.2 ∈ rs
          · simp [h2]
          · simp [h2, Ne.symm hr]
    rw [migrate, List.foldl_cons, ← migrate]
    refine ih.trans ?_
    have hrs := hflat ((m.map (·.1)).filter fun r => final m r = k)
      (h.tail.removed_nodup.filter _) (fun hc => hmem (List.mem_filter.mp hc).1)
    refine (hrs.append_left _).trans ?_
    rw [List.map_cons, List.filter_cons, hfilter, final_cons, if_pos rfl]
    by_cases h2 : e.2 = k
    · -- the first key absorbed goes straight to `k`, which stays
      have hnot : e.2 ∉ (m.map (·.1)).filter fun r => final m r = k := by
        rw [h2]
        exact fun hc => hk.2 (List.mem_filter.mp hc).1
      have hfk : final m e.2 = k := by rw [h2]; exact final_of_notMem hk.2
      have hmv : move p e k = p k ++ p e.1 := by
        rw [move, Function.update_of_ne hk.1, ← h2, Function.update_self]
      rw [if_neg hnot, List.append_nil, if_pos (by simpa using hfk), hmv, List.flatMap_cons,
        List.append_assoc]
    · have hmv : move p e k = p k := by
        rw [move, Function.update_of_ne hk.1, Function.update_of_ne (Ne.symm h2)]
      rw [hmv]
      by_cases hf : final m e.2 = k
      · have hin : e.2 ∈ m.map (·.1) := by
          by_contra hc
          exact h2 ((final_of_notMem hc).symm.trans hf)
        rw [if_pos (List.mem_filter.mpr ⟨hin, by simpa using hf⟩), if_pos (by simpa using hf),
          List.flatMap_cons]
        exact List.perm_append_comm.append_left _
      · rw [if_neg fun hc => hf (by simpa using (List.mem_filter.mp hc).2), if_neg (by simpa using hf),
          List.append_nil]

/-- One absorption loses nothing. -/
theorem flatMap_move_perm {e : κ × κ} (hne : e.1 ≠ e.2) (p : κ → List α) {ks : List κ}
    (hnd : ks.Nodup) (h1 : e.1 ∈ ks) (h2 : e.2 ∈ ks) : (ks.flatMap (move p e)).Perm (ks.flatMap p) := by
  have rest : ∀ l : List κ, e.1 ∉ l → e.2 ∉ l → l.flatMap (move p e) = l.flatMap p := by
    intro l hl1 hl2
    refine List.flatMap_congr fun k hk => ?_
    have hk1 : k ≠ e.1 := fun hc => hl1 (hc ▸ hk)
    have hk2 : k ≠ e.2 := fun hc => hl2 (hc ▸ hk)
    rw [move, Function.update_of_ne hk1, Function.update_of_ne hk2]
  have hperm : ks.Perm (e.1 :: e.2 :: (ks.erase e.1).erase e.2) := by
    have h2' : e.2 ∈ ks.erase e.1 := (List.mem_erase_of_ne hne.symm).mpr h2
    exact (List.perm_cons_erase h1).trans ((List.perm_cons_erase h2').cons _)
  have hnd' := hperm.nodup_iff.mp hnd
  simp only [List.nodup_cons, List.mem_cons, not_or] at hnd'
  have hmv1 : move p e e.1 = [] := by rw [move, Function.update_self]
  have hmv2 : move p e e.2 = p e.2 ++ p e.1 := by
    rw [move, Function.update_of_ne hne.symm, Function.update_self]
  refine (hperm.flatMap_right _).trans (List.Perm.trans ?_ (hperm.flatMap_right _).symm)
  rw [List.flatMap_cons, List.flatMap_cons, List.flatMap_cons, List.flatMap_cons, hmv1, hmv2,
    rest _ hnd'.1.2 hnd'.2.1, List.nil_append, ← List.append_assoc]
  exact List.perm_append_comm.append_right _

/-- **Nothing is lost** over keys that cover every absorption. -/
theorem flatMap_migrate_perm : ∀ {m : List (κ × κ)}, Lawful m → ∀ (p : κ → List α) {ks : List κ},
    ks.Nodup → (∀ e ∈ m, e.1 ∈ ks ∧ e.2 ∈ ks) → (ks.flatMap (migrate m p)).Perm (ks.flatMap p)
  | [], _, _, _, _, _ => by simp [migrate]
  | e :: m, h, p, ks, hnd, hin => by
    have ih := flatMap_migrate_perm h.tail (move p e) hnd fun e' he' => hin e' (by simp [he'])
    rw [migrate, List.foldl_cons, ← migrate]
    exact ih.trans (flatMap_move_perm (h.irrefl e (by simp)) p hnd (hin e (by simp)).1 (hin e (by simp)).2)

omit [DecidableEq κ] in
/-- Keys without anything may be left out. -/
theorem flatMap_filter {p : κ → List α} {q : κ → Bool} (hp : ∀ k, q k = false → p k = []) :
    ∀ ks : List κ, (ks.filter q).flatMap p = ks.flatMap p
  | [] => rfl
  | k :: ks => by
    rw [List.flatMap_cons, List.filter_cons]
    by_cases hk : q k = true
    · rw [if_pos hk, List.flatMap_cons, flatMap_filter hp ks]
    · rw [if_neg hk, flatMap_filter hp ks, hp k (by simpa using hk), List.nil_append]

/-- Two lots with nothing in common. -/
theorem filter_append_filter_perm {p q : α → Prop} [DecidablePred p] [DecidablePred q] (hdisj : ∀ a, p a → ¬q a)
    (l : List α) : (l.filter (p ·) ++ l.filter (q ·)).Perm (l.filter fun a => p a ∨ q a) := by
  have hsplit := List.filter_append_perm (fun a => decide (p a)) (l.filter fun a => p a ∨ q a)
  rw [List.filter_filter, List.filter_filter] at hsplit
  have hleft : (l.filter fun a => decide (p a) && decide (p a ∨ q a)) = l.filter (p ·) :=
    List.filter_congr fun a _ => by simpa using Or.inl
  have hright : (l.filter fun a => !decide (p a) && decide (p a ∨ q a)) = l.filter (q ·) :=
    List.filter_congr fun a _ => by
      by_cases hq : q a
      · simpa [hq] using fun hp => hdisj a hp hq
      · simp [hq]
  rwa [hleft, hright] at hsplit

/-- **What is filed by keys** ends filed by where its keys end. -/
theorem migrate_filter {l : List α} : ∀ {m : List (κ × κ)}, Lawful m → ∀ {p : κ → List α} {f : α → κ},
    (∀ k, (p k).Perm (l.filter fun a => f a = k)) → ∀ k, (migrate m p k).Perm (l.filter fun a => final m (f a) = k)
  | [], _, _, _, h, k => h k
  | e :: m, hm, p, f, h, k => by
    have hne := hm.irrefl e List.mem_cons_self
    rw [migrate, List.foldl_cons, ← migrate]
    refine migrate_filter hm.tail (f := fun a => if f a = e.1 then e.2 else f a) (fun k => ?_) k
    unfold move
    by_cases h1 : k = e.1
    · have hnone : (l.filter fun a => (if f a = e.1 then e.2 else f a) = k) = [] :=
        List.filter_eq_nil_iff.mpr fun a _ => by
          split_ifs with hf
          · simpa [h1] using hne.symm
          · simpa [h1] using hf
      rw [hnone, h1, Function.update_self]
    · rw [Function.update_of_ne h1]
      by_cases h2 : k = e.2
      · have hboth : (l.filter fun a => (if f a = e.1 then e.2 else f a) = k) =
            l.filter fun a => f a = e.2 ∨ f a = e.1 := by
          refine List.filter_congr fun a _ => ?_
          by_cases hf : f a = e.1
          · simp [hf, h2]
          · simp [hf, h2]
        rw [hboth, h2, Function.update_self]
        exact ((h e.2).append (h e.1)).trans (filter_append_filter_perm (fun a h1 h2 => hne (h2.symm.trans h1)) l)
      · have hsame : (l.filter fun a => (if f a = e.1 then e.2 else f a) = k) = l.filter fun a => f a = k := by
          refine List.filter_congr fun a _ => ?_
          by_cases hf : f a = e.1
          · simp [hf, Ne.symm h1, Ne.symm h2]
          · simp [hf]
        rw [Function.update_of_ne h2, hsame]
        exact h k

/-! ### Following parents -/

/-- The parent a map of parents built by these inserts, in order, gives a key. -/
def parentOf (m : List (κ × κ)) (k : κ) : Option κ :=
  (m.reverse.find? fun e => e.1 = k).map (·.2)

/-- `while let Some(&s) = parent.get(&k) { k = s }`; without fuel it would
still be running. -/
def resolve (m : List (κ × κ)) : ℕ → κ → Option κ
  | 0, _ => none
  | fuel + 1, k =>
    match parentOf m k with
    | some s => resolve m fuel s
    | none => some k

theorem parentOf_eq_none {m : List (κ × κ)} {k : κ} : parentOf m k = none ↔ k ∉ m.map (·.1) := by
  simp only [parentOf, Option.map_eq_none_iff, List.find?_eq_none, List.mem_reverse, decide_eq_true_eq,
    List.mem_map, not_exists, not_and]

theorem parentOf_of_mem {m : List (κ × κ)} (h : Lawful m) {e : κ × κ} (he : e ∈ m) :
    parentOf m e.1 = some e.2 := by
  unfold parentOf
  cases hf : m.reverse.find? fun e' => e'.1 = e.1 with
  | none => simpa using List.find?_eq_none.mp hf e (by simpa using he)
  | some e' =>
    have h1 : e'.1 = e.1 := by simpa using List.find?_some hf
    have hmem : e' ∈ m := by simpa using List.mem_of_find?_eq_some hf
    have : e' = e := List.inj_on_of_nodup_map h.removed_nodup hmem he h1
    simp [this]

/-- **The loop ends where the absorptions do.** -/
theorem resolve_eq_final {m : List (κ × κ)} (h : Lawful m) {fuel : ℕ} (hf : m.length < fuel) (k : κ) :
    resolve m fuel k = some (final m k) := by
  -- the keys still ahead are those of a suffix of the list
  have key : ∀ (rest pre : List (κ × κ)) (fuel : ℕ) (k : κ), m = pre ++ rest →
      k ∉ pre.map (·.1) → rest.length < fuel → resolve m fuel k = some (final rest k) := by
    intro rest
    induction rest with
    | nil =>
      intro pre fuel k hm hk hf
      obtain ⟨fuel, rfl⟩ := Nat.exists_eq_add_one_of_ne_zero (Nat.ne_of_gt hf)
      rw [List.append_nil] at hm
      rw [resolve, parentOf_eq_none.mpr (hm ▸ hk)]
      rfl
    | cons e rest ih =>
      intro pre fuel k hm hk hf
      have hm' : m = (pre ++ [e]) ++ rest := by rw [hm, List.append_assoc]; rfl
      by_cases hke : k = e.1
      · obtain ⟨fuel, rfl⟩ := Nat.exists_eq_add_one_of_ne_zero (Nat.ne_of_gt (Nat.zero_lt_of_lt hf))
        have he : e ∈ m := by rw [hm]; simp
        have hsurv : e.2 ∉ (pre ++ [e]).map (·.1) := by
          have hp := hm' ▸ h.gone
          have hpre := (List.pairwise_append.mp (List.pairwise_append.mp hp).1).2.2
          simp only [List.map_append, List.map_cons, List.map_nil, List.mem_append, List.mem_singleton,
            not_or]
          refine ⟨fun hc => ?_, (h.irrefl e he).symm⟩
          obtain ⟨e', he', hc⟩ := List.mem_map.mp hc
          exact (hpre e' he' e (by simp)).2 hc
        rw [resolve, hke, parentOf_of_mem h he, final_cons, if_pos rfl]
        exact ih (pre ++ [e]) fuel e.2 hm' hsurv (by simpa using hf)
      · rw [final_cons, if_neg hke]
        refine ih (pre ++ [e]) fuel k hm' ?_ (by simp only [List.length_cons] at hf; omega)
        simp only [List.map_append, List.map_cons, List.map_nil, List.mem_append, List.mem_singleton,
          not_or]
        exact ⟨hk, hke⟩
  exact key m [] fuel k rfl (by simp) hf

/-- Where the loop ends, with as much fuel as it can need. -/
def endOf (m : List (κ × κ)) (k : κ) : Option κ := resolve m (m.length + 1) k

theorem endOf_eq {m : List (κ × κ)} (h : Lawful m) (k : κ) : endOf m k = some (final m k) :=
  resolve_eq_final h (Nat.lt_succ_self _) k

/-- The absorptions sent straight to their ends. -/
def direct (m : List (κ × κ)) : List (κ × κ) := m.map fun e => (e.1, final m e.1)

theorem direct_removed (m : List (κ × κ)) : (direct m).map (·.1) = m.map (·.1) := by
  simp [direct, Function.comp_def]

theorem direct_lawful {m : List (κ × κ)} (h : Lawful m) : Lawful (direct m) := by
  have hend : ∀ e ∈ m, ∀ k, e.1 ≠ final m k := fun e he k hc =>
    final_notMem h k (hc ▸ List.mem_map_of_mem he)
  constructor
  · intro e he
    obtain ⟨e', he', rfl⟩ := List.mem_map.mp he
    exact hend e' he' _
  · refine List.pairwise_map.mpr (h.gone.imp_of_mem fun {a b} ha hb hab => ⟨hab.1, hend a ha _⟩)

/-- What holds of every absorption's keys holds of the direct ones'. -/
theorem direct_forall {m : List (κ × κ)} (h : Lawful m) {P : κ → Prop} (hm : ∀ e ∈ m, P e.1 ∧ P e.2) :
    ∀ e ∈ direct m, P e.1 ∧ P e.2 := by
  intro e he
  obtain ⟨e', he', rfl⟩ := List.mem_map.mp he
  obtain ⟨e'', he'', hend⟩ := final_survivor h (List.mem_map_of_mem he')
  refine ⟨(hm e' he').1, ?_⟩
  rw [hend]
  exact (hm e'' he'').2

theorem final_direct {m : List (κ × κ)} (h : Lawful m) (k : κ) : final (direct m) k = final m k := by
  by_cases hk : k ∈ m.map (·.1)
  · obtain ⟨e, he, rfl⟩ := List.mem_map.mp hk
    have hmem : (e.1, final m e.1) ∈ direct m := List.mem_map.mpr ⟨e, he, rfl⟩
    refine final_of_mem (direct_lawful h) hmem ?_
    rw [direct_removed]
    exact final_notMem h e.1
  · have hk' : k ∉ (direct m).map (·.1) := by rwa [direct_removed]
    rw [final_of_notMem hk, final_of_notMem hk']

end Absorb
