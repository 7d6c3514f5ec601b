import Mathlib

set_option autoImplicit false

/-!
# Tables with uniqueness constraints

Two rows clash when a primary key or a unique index may not hold both. A table is a
list of rows no two of which clash; inserting a row that clashes fails, is ignored or
replaces, and the other statements delete or rewrite rows.
-/
namespace ZcashSdk.Tables

class Row (R : Type) where
  Clash : R → R → Prop
  clash_refl : ∀ a, Clash a a
  clash_symm : ∀ {a b}, Clash a b → Clash b a
  decClash : DecidableRel Clash

instance {R : Type} [Row R] : DecidableRel (Row.Clash : R → R → Prop) := Row.decClash

structure Table (R : Type) [Row R] where
  rows : List R
  apart : rows.Pairwise fun a b => ¬ Row.Clash a b

/-- The number sqlite gives to a new row: one more than the largest in use. -/
def nextId (ids : List ℕ) : ℕ := ids.foldr max 0 + 1

theorem lt_nextId {ids : List ℕ} {i : ℕ} (hi : i ∈ ids) : i < nextId ids := by
  induction ids with
  | nil => simp at hi
  | cons j ids ih =>
    unfold nextId at ih ⊢
    rw [List.foldr_cons]
    rcases List.mem_cons.1 hi with rfl | hi
    · omega
    · have := ih hi
      omega

theorem nextId_not_mem (ids : List ℕ) : nextId ids ∉ ids :=
  fun hi => Nat.lt_irrefl _ (lt_nextId hi)

theorem nextId_pos (ids : List ℕ) : 0 < nextId ids := Nat.succ_pos _

theorem nextId_eq {ids : List ℕ} {k : ℕ} (hle : ∀ i ∈ ids, i ≤ k) (hk : k = 0 ∨ k ∈ ids) :
    nextId ids = k + 1 := by
  have hmax (l : List ℕ) (h : ∀ i ∈ l, i ≤ k) : l.foldr max 0 ≤ k := by
    induction l with
    | nil => exact Nat.zero_le k
    | cons i l ih =>
      exact max_le (h i (List.mem_cons_self ..)) (ih fun j hj => h j (List.mem_cons_of_mem i hj))
  have hlt : k < nextId ids := hk.elim (fun h => h ▸ nextId_pos ids) lt_nextId
  have hge := hmax ids hle
  unfold nextId at hlt ⊢
  omega

namespace Table
variable {R : Type} [Row R]

theorem ext_rows {t u : Table R} (h : t.rows = u.rows) : t = u := by
  cases t
  cases u
  simp only at h
  subst h
  rfl

def empty : Table R := ⟨[], List.Pairwise.nil⟩

def singleton (r : R) : Table R := ⟨[r], List.pairwise_singleton _ _⟩

@[simp] theorem empty_rows : (empty : Table R).rows = [] := rfl

theorem eq_of_clash (t : Table R) {a b : R} (ha : a ∈ t.rows) (hb : b ∈ t.rows)
    (hc : Row.Clash a b) : a = b := by
  by_contra hne
  have hp : Std.Symm fun a b : R => ¬ Row.Clash a b := ⟨fun _ _ h hc => h (Row.clash_symm hc)⟩
  exact t.apart.forall ha hb hne hc

theorem find?_eq_some (t : Table R) {p : R → Bool} {r : R}
    (huniq : ∀ a ∈ t.rows, ∀ b ∈ t.rows, p a = true → p b = true → a = b) :
    t.rows.find? p = some r ↔ r ∈ t.rows ∧ p r = true := by
  constructor
  · exact fun h => ⟨List.mem_of_find?_eq_some h, List.find?_some h⟩
  · rintro ⟨hr, hp⟩
    cases hfind : t.rows.find? p with
    | none => exact absurd hp (List.find?_eq_none.1 hfind r hr)
    | some a =>
      rw [huniq a (List.mem_of_find?_eq_some hfind) r hr (List.find?_some hfind) hp]

theorem nodup (t : Table R) : t.rows.Nodup := by
  refine t.apart.imp ?_
  intro a b hn hab
  subst hab
  exact hn (Row.clash_refl a)

/-- A condition only one row meets selects that row, once. -/
theorem filter_eq_singleton (t : Table R) {p : R → Bool} {a : R} (ha : a ∈ t.rows)
    (hp : p a = true) (hu : ∀ b ∈ t.rows, p b = true → b = a) : t.rows.filter p = [a] := by
  have hn : (t.rows.filter p).Nodup := t.nodup.filter p
  refine List.perm_singleton.1 ((List.perm_ext_iff_of_nodup hn (List.nodup_singleton a)).2 ?_)
  intro b
  rw [List.mem_filter, List.mem_singleton]
  constructor
  · rintro ⟨hb, hpb⟩
    exact hu b hb hpb
  · rintro rfl
    exact ⟨ha, hp⟩

/-! ### Statements -/

def insert? (t : Table R) (r : R) : Option (Table R) :=
  if h : ∃ a ∈ t.rows, Row.Clash a r then none
  else some ⟨t.rows ++ [r], by
    refine List.pairwise_append.2 ⟨t.apart, List.pairwise_singleton _ _, ?_⟩
    intro a ha b hb hc
    rw [List.mem_singleton] at hb
    exact h ⟨a, ha, hb ▸ hc⟩⟩

/-- `INSERT … SELECT`: one clash and nothing is inserted. -/
def insertAll? (t : Table R) (rs : List R) : Option (Table R) := rs.foldlM insert? t

/-- Inserts a row under the next number of the primary key `id`. -/
def insertNew? (id : R → ℕ) (t : Table R) (mk : ℕ → R) : Option (Table R) :=
  t.insert? (mk (nextId (t.rows.map id)))

def insertAllNew? (id : R → ℕ) (t : Table R) (mks : List (ℕ → R)) : Option (Table R) :=
  mks.foldlM (insertNew? id) t

def insertNewOrIgnore (id : R → ℕ) (t : Table R) (mk : ℕ → R) : Table R :=
  (t.insertNew? id mk).getD t

/-- `INSERT OR IGNORE`, or `ON CONFLICT DO NOTHING`. -/
def insertOrIgnore (t : Table R) (r : R) : Table R := (t.insert? r).getD t

def deleteWhere (t : Table R) (p : R → Bool) : Table R :=
  ⟨t.rows.filter fun r => !p r, t.apart.filter _⟩

/-- `INSERT OR REPLACE`. -/
def insertOrReplace (t : Table R) (r : R) : Table R :=
  (t.deleteWhere fun a => decide (Row.Clash a r)).insertOrIgnore r

/-- `UPDATE` of columns that no constraint is about. -/
def update (t : Table R) (f : R → R) (hf : ∀ a b, Row.Clash (f a) (f b) → Row.Clash a b) :
    Table R :=
  ⟨t.rows.map f, List.pairwise_map.2 (t.apart.imp fun {a b} h hc => h (hf a b hc))⟩

theorem insert?_eq_some {t u : Table R} {r : R} :
    t.insert? r = some u ↔ (∀ a ∈ t.rows, ¬ Row.Clash a r) ∧ u.rows = t.rows ++ [r] := by
  unfold insert?
  split
  · rename_i h
    obtain ⟨a, ha, hc⟩ := h
    simp only [reduceCtorEq, false_iff, not_and]
    exact fun hn => absurd hc (hn a ha)
  · rename_i h
    constructor
    · intro hu
      rw [Option.some.injEq] at hu
      subst hu
      exact ⟨fun a ha hc => h ⟨a, ha, hc⟩, rfl⟩
    · rintro ⟨-, hu⟩
      exact congrArg some (ext_rows hu.symm)

theorem insert?_eq_none {t : Table R} {r : R} :
    t.insert? r = none ↔ ∃ a ∈ t.rows, Row.Clash a r := by
  unfold insert?
  split
  · rename_i h
    simpa using h
  · rename_i h
    simpa using h

theorem exists_insert? {t : Table R} {r : R} :
    (∃ u, t.insert? r = some u) ↔ ∀ a ∈ t.rows, ¬ Row.Clash a r :=
  ⟨fun ⟨_, h⟩ => (insert?_eq_some.1 h).1, fun h => by
    cases hi : t.insert? r with
    | none =>
      obtain ⟨a, ha, hc⟩ := insert?_eq_none.1 hi
      exact absurd hc (h a ha)
    | some u => exact ⟨u, rfl⟩⟩

theorem insertAll?_singleton (t : Table R) (r : R) : t.insertAll? [r] = t.insert? r := by
  cases h : t.insert? r <;> simp [insertAll?, h]

theorem insertAllNew?_singleton (id : R → ℕ) (t : Table R) (mk : ℕ → R) :
    t.insertAllNew? id [mk] = t.insertNew? id mk := by
  cases h : t.insertNew? id mk <;> simp [insertAllNew?, h]

theorem mem_insertOrIgnore {t : Table R} {r a : R} :
    a ∈ (t.insertOrIgnore r).rows ↔
      a ∈ t.rows ∨ a = r ∧ ∀ b ∈ t.rows, ¬ Row.Clash b r := by
  unfold insertOrIgnore
  cases h : t.insert? r with
  | none =>
    obtain ⟨b, hb, hc⟩ := insert?_eq_none.1 h
    constructor
    · exact Or.inl
    · rintro (ha | ⟨-, hn⟩)
      · exact ha
      · exact absurd hc (hn b hb)
  | some u =>
    obtain ⟨hn, hu⟩ := insert?_eq_some.1 h
    rw [Option.getD_some, hu, List.mem_append, List.mem_singleton]
    constructor
    · rintro (ha | rfl)
      · exact Or.inl ha
      · exact Or.inr ⟨rfl, hn⟩
    · rintro (ha | ⟨rfl, -⟩)
      · exact Or.inl ha
      · exact Or.inr rfl

theorem mem_insertOrIgnore_of_mem {t : Table R} {r a : R} (ha : a ∈ t.rows) :
    a ∈ (t.insertOrIgnore r).rows := mem_insertOrIgnore.2 (Or.inl ha)

theorem exists_clash_insertOrIgnore (t : Table R) (r : R) :
    ∃ a ∈ (t.insertOrIgnore r).rows, Row.Clash a r := by
  by_cases h : ∃ b ∈ t.rows, Row.Clash b r
  · obtain ⟨b, hb, hc⟩ := h
    exact ⟨b, mem_insertOrIgnore_of_mem hb, hc⟩
  · refine ⟨r, mem_insertOrIgnore.2 (Or.inr ⟨rfl, ?_⟩), Row.clash_refl r⟩
    exact fun b hb hc => h ⟨b, hb, hc⟩

@[simp] theorem mem_deleteWhere {t : Table R} {p : R → Bool} {a : R} :
    a ∈ (t.deleteWhere p).rows ↔ a ∈ t.rows ∧ p a = false := by
  simp [deleteWhere]

theorem deleteWhere_eq_self {t : Table R} {p : R → Bool} (h : ∀ a ∈ t.rows, p a = false) :
    t.deleteWhere p = t := by
  refine ext_rows (List.filter_eq_self.2 ?_)
  intro a ha
  simp [h a ha]

theorem mem_insertOrReplace {t : Table R} {r a : R} :
    a ∈ (t.insertOrReplace r).rows ↔ a = r ∨ a ∈ t.rows ∧ ¬ Row.Clash a r := by
  unfold insertOrReplace
  rw [mem_insertOrIgnore]
  simp only [mem_deleteWhere, decide_eq_false_iff_not]
  constructor
  · rintro (h | ⟨rfl, -⟩)
    · exact Or.inr h
    · exact Or.inl rfl
  · rintro (rfl | h)
    · exact Or.inr ⟨rfl, fun b hb => hb.2⟩
    · exact Or.inl h

@[simp] theorem mem_update {t : Table R} {f : R → R}
    {hf : ∀ a b, Row.Clash (f a) (f b) → Row.Clash a b} {a : R} :
    a ∈ (t.update f hf).rows ↔ ∃ b ∈ t.rows, f b = a := by
  simp [update]

theorem update_eq_self {t : Table R} {f : R → R}
    {hf : ∀ a b, Row.Clash (f a) (f b) → Row.Clash a b} (h : ∀ a ∈ t.rows, f a = a) :
    t.update f hf = t :=
  ext_rows ((List.map_congr_left h).trans (List.map_id t.rows))

/-- A row with the key is there afterwards, for the number of a new row is fresh. -/
theorem exists_insertNewOrIgnore {id : R → ℕ} (t : Table R) {mk : ℕ → R} {K : R → Prop}
    (hmk : ∀ i, K (mk i))
    (hK : ∀ a i, Row.Clash a (mk i) → id a = i ∨ K a) :
    ∃ a ∈ (t.insertNewOrIgnore id mk).rows, K a := by
  obtain ⟨a, ha, hc⟩ := t.exists_clash_insertOrIgnore (mk (nextId (t.rows.map id)))
  rcases mem_insertOrIgnore.1 ha with hold | ⟨rfl, -⟩
  · rcases hK a _ hc with heq | hk
    · exact absurd (heq ▸ List.mem_map_of_mem hold) (nextId_not_mem (t.rows.map id))
    · exact ⟨a, ha, hk⟩
  · exact ⟨_, ha, hmk _⟩

/-- Two tables whose rows are told apart by a number and by a key: the rows with one key in both
    give a renumbering. -/
theorem exists_renumbering {K : Type} (t u : Table R) (id : R → ℕ) (key : R → K)
    (hid : ∀ a b, id a = id b → Row.Clash a b) (hkey : ∀ a b, key a = key b → Row.Clash a b) :
    ∃ ρ : ℕ → ℕ, ∀ a ∈ t.rows, ∀ b ∈ u.rows, key a = key b → ρ (id a) = id b := by
  have hpick : ∀ i, ∃ j, ∀ a ∈ t.rows, id a = i → ∀ b ∈ u.rows, key a = key b → j = id b := by
    intro i
    by_cases h : ∃ a ∈ t.rows, id a = i ∧ ∃ b ∈ u.rows, key a = key b
    · obtain ⟨a, ha, hi, b, hb, hab⟩ := h
      refine ⟨id b, fun a' ha' hi' b' hb' hab' => ?_⟩
      obtain rfl := t.eq_of_clash ha' ha (hid a' a (hi'.trans hi.symm))
      rw [u.eq_of_clash hb hb' (hkey b b' (hab.symm.trans hab'))]
    · exact ⟨0, fun a ha hi b hb hab => absurd ⟨a, ha, hi, b, hb, hab⟩ h⟩
  obtain ⟨ρ, hρ⟩ := Classical.skolem.1 hpick
  exact ⟨ρ, fun a ha b hb hab => hρ (id a) a ha rfl b hb hab⟩

theorem insertOrIgnore_eq_self {t : Table R} {r a : R} (ha : a ∈ t.rows) (hc : Row.Clash a r) :
    t.insertOrIgnore r = t := by
  unfold insertOrIgnore
  rw [insert?_eq_none.2 ⟨a, ha, hc⟩]
  rfl

end Table

end ZcashSdk.Tables
