import Mathlib

set_option autoImplicit false

/-!
# Tables of a relational store

A table carries that its rows have values where the columns demand them, none off the
columns, and that no two rows agree on the primary key. Tables and stores are ordered by
extension: what is there stays, and what has no value may get one.
-/
namespace ZcashSdk.Sql

inductive Value where
  | null
  | int (n : ℤ)
  | text (s : String)
  | blob (b : List UInt8)
  | real (bits : UInt64)
  deriving DecidableEq

/-- The values of a row by column, null where the table has no column. -/
abbrev Row := String → Value

structure Column where
  name : String
  type : String
  notNull : Bool
  default : Value

def clash (key : List String) (a b : Row) : Bool := key.all fun k => a k = b k ∧ a k ≠ .null

theorem clash_iff {key : List String} {a b : Row} :
    clash key a b = true ↔ ∀ k ∈ key, a k = b k ∧ a k ≠ .null := by
  simp [clash]

theorem clash_comm (key : List String) (a b : Row) : clash key a b = clash key b a := by
  rw [Bool.eq_iff_iff, clash_iff, clash_iff]
  exact ⟨fun h k hk => ⟨(h k hk).1.symm, (h k hk).1 ▸ (h k hk).2⟩,
    fun h k hk => ⟨(h k hk).1.symm, (h k hk).1 ▸ (h k hk).2⟩⟩

theorem clash_update_of_not_mem {key : List String} {name : String} (h : name ∉ key)
    (a b : Row) (v w : Value) :
    clash key (Function.update a name v) (Function.update b name w) = clash key a b := by
  rw [Bool.eq_iff_iff, clash_iff, clash_iff]
  refine forall₂_congr fun k hk => ?_
  rw [Function.update_of_ne (ne_of_mem_of_not_mem hk h),
    Function.update_of_ne (ne_of_mem_of_not_mem hk h)]

@[ext] structure Table where
  columns : List Column
  primary : List String
  uniques : List (List String)
  rows : List Row
  keyed : primary ≠ []
  within : primary ⊆ columns.map Column.name
  filled : ∀ r ∈ rows, ∀ c ∈ columns, c.notNull → r c.name ≠ .null
  inside : ∀ r ∈ rows, ∀ k ∉ columns.map Column.name, r k = .null
  distinct : rows.Pairwise fun a b => clash primary a b = false

structure Store where
  tables : String → Option Table
  indexes : List String
  views : List String

namespace Table

variable {t u : Table}

def names (t : Table) : List String := t.columns.map Column.name

def keys (t : Table) : List (List String) := t.primary :: t.uniques

def keyOf (t : Table) (r : Row) : List Value := t.primary.map r

def keyRows (t : Table) : List (List Value) := t.rows.map t.keyOf

theorem mem_keyRows {k : List Value} : k ∈ t.keyRows ↔ ∃ r ∈ t.rows, t.primary.map r = k :=
  List.mem_map

def duplicates (t : Table) (key : List String) : Bool :=
  decide ¬ t.rows.Pairwise fun a b => clash key a b = false

def empty (columns : List Column) (primary : List String) (uniques : List (List String))
    (keyed : primary ≠ []) (within : primary ⊆ columns.map Column.name) : Table where
  columns := columns
  primary := primary
  uniques := uniques
  rows := []
  keyed := keyed
  within := within
  filled := by simp
  inside := by simp
  distinct := List.Pairwise.nil

/-! ### Columns -/

def addColumn (t : Table) (c : Column) (fill : Row → Value) : Option Table :=
  if h : c.name ∉ t.names ∧ (c.notNull → ∀ r ∈ t.rows, fill r ≠ .null) then
    some { t with
      columns := t.columns ++ [c]
      rows := t.rows.map fun r => Function.update r c.name (fill r)
      within := fun k hk => by
        rw [List.map_append]
        exact List.mem_append_left _ (t.within hk)
      filled := by
        intro q hq d hd hn
        obtain ⟨r, hr, rfl⟩ := List.mem_map.1 hq
        obtain hd | hd := List.mem_append.1 hd
        · have hne : d.name ≠ c.name := fun he => h.1 (he ▸ List.mem_map_of_mem hd)
          rw [Function.update_of_ne hne]
          exact t.filled r hr d hd hn
        · rw [List.mem_singleton.1 hd, Function.update_self]
          exact h.2 (List.mem_singleton.1 hd ▸ hn) r hr
      inside := by
        intro q hq k hk
        obtain ⟨r, hr, rfl⟩ := List.mem_map.1 hq
        rw [List.map_append, List.mem_append, not_or] at hk
        have hne : k ≠ c.name := fun he => hk.2 (by simp [he])
        rw [Function.update_of_ne hne]
        exact t.inside r hr k hk.1
      distinct := List.pairwise_map.2 (t.distinct.imp fun {a b} hab => by
        rwa [clash_update_of_not_mem fun hk => h.1 (t.within hk)]) }
  else none

def addUnique (t : Table) (columns : List String) (unique : Bool) : Table :=
  { t with uniques := if unique then t.uniques ++ [columns] else t.uniques }

theorem addColumn_eq_none {c : Column} {fill : Row → Value} (hc : c.name ∈ t.names) :
    t.addColumn c fill = none :=
  dif_neg fun h => h.1 hc

theorem name_mem_of_addColumn {c : Column} {fill : Row → Value}
    (h : t.addColumn c fill = some u) : c.name ∈ u.names := by
  unfold addColumn at h
  split_ifs at h
  cases h
  simp [names]

/-- A column is given a value in every row. It is no part of a key. -/
def setColumn (t : Table) (name : String) (f : Row → Value) : Option Table :=
  if h : (name ∈ t.names ∧ ∀ key ∈ t.keys, name ∉ key) ∧
      ∀ r ∈ t.rows, f r = .null → r name = .null then
    some { t with
      rows := t.rows.map fun r => Function.update r name (f r)
      filled := by
        intro q hq d hd hn
        obtain ⟨r, hr, rfl⟩ := List.mem_map.1 hq
        by_cases he : d.name = name
        · rw [he, Function.update_self]
          exact fun hf => t.filled r hr d hd hn (he ▸ h.2 r hr hf)
        · rw [Function.update_of_ne he]
          exact t.filled r hr d hd hn
      inside := by
        intro q hq k hk
        obtain ⟨r, hr, rfl⟩ := List.mem_map.1 hq
        have hne : k ≠ name := fun he => hk (he ▸ h.1.1)
        rw [Function.update_of_ne hne]
        exact t.inside r hr k hk
      distinct := List.pairwise_map.2 (t.distinct.imp fun {a b} hab => by
        rwa [clash_update_of_not_mem (h.1.2 _ List.mem_cons_self)]) }
  else none

theorem setColumn_eq_some {name : String} {f : Row → Value} (h : t.setColumn name f = some u) :
    (name ∈ t.names ∧ ∀ key ∈ t.keys, name ∉ key) ∧ u.columns = t.columns ∧ u.keys = t.keys ∧
      u.primary = t.primary ∧ u.rows = t.rows.map fun r => Function.update r name (f r) := by
  unfold setColumn at h
  split_ifs at h with hc
  cases h
  exact ⟨hc.1, rfl, rfl, rfl, rfl⟩

theorem setColumn_eq_self {name : String} {f : Row → Value}
    (hn : name ∈ t.names ∧ ∀ key ∈ t.keys, name ∉ key) (hf : ∀ r ∈ t.rows, f r = r name) :
    t.setColumn name f = some t := by
  have hrows : (t.rows.map fun r => Function.update r name (f r)) = t.rows := by
    conv_rhs => rw [← List.map_id t.rows]
    refine List.map_congr_left fun r hr => ?_
    rw [hf r hr, Function.update_eq_self, id]
  rw [setColumn, dif_pos ⟨hn, fun r hr h => (hf r hr).symm.trans h⟩, Option.some.injEq]
  exact Table.ext rfl rfl rfl hrows

/-! ### Rows -/

def rowOf (t : Table) (values : List (String × Value)) : Row := fun name =>
  if name ∈ t.names then
    match values.lookup name with
    | some v => v
    | none => (t.columns.find? fun c => c.name = name).elim .null Column.default
  else .null

theorem rowOf_of_not_mem {values : List (String × Value)} {k : String} (h : k ∉ t.names) :
    t.rowOf values k = .null :=
  if_neg h

def lacks (t : Table) (r : Row) : Bool := t.columns.any fun c => c.notNull && r c.name = .null

theorem lacks_eq_false {r : Row} :
    t.lacks r = false ↔ ∀ c ∈ t.columns, c.notNull → r c.name ≠ .null := by
  simp [lacks]

def refuses (t : Table) (r : Row) : Bool :=
  t.lacks r || t.keys.any fun key => t.rows.any fun q => clash key r q

/-- Some of the rows, and a row that leaves no column without its value at the end. -/
def push (t : Table) (p : Row → Bool) (values : List (String × Value))
    (h : t.lacks (t.rowOf values) = false)
    (hp : ∀ q ∈ t.rows, p q → clash t.primary (t.rowOf values) q = false) : Table :=
  { t with
    rows := t.rows.filter p ++ [t.rowOf values]
    filled := by
      intro r hr
      obtain hr | hr := List.mem_append.1 hr
      · exact t.filled r (List.mem_of_mem_filter hr)
      · rw [List.mem_singleton.1 hr]
        exact lacks_eq_false.1 h
    inside := by
      intro r hr k hk
      obtain hr | hr := List.mem_append.1 hr
      · exact t.inside r (List.mem_of_mem_filter hr) k hk
      · rw [List.mem_singleton.1 hr]
        exact if_neg hk
    distinct := by
      refine List.pairwise_append.2 ⟨t.distinct.filter p, List.pairwise_singleton _ _, ?_⟩
      intro q hq r hr
      obtain ⟨hq, hpq⟩ := List.mem_filter.1 hq
      rw [List.mem_singleton.1 hr, clash_comm]
      exact hp q hq hpq }

theorem refuses_eq_false {r : Row} :
    t.refuses r = false ↔
      t.lacks r = false ∧ ∀ key ∈ t.keys, ∀ q ∈ t.rows, clash key r q = false := by
  simp [refuses]

/-- `INSERT OR IGNORE`. -/
def insertOrIgnore (t : Table) (values : List (String × Value)) : Table :=
  if h : t.refuses (t.rowOf values) = false then
    t.push (fun _ => true) values (refuses_eq_false.1 h).1 fun q hq _ =>
      (refuses_eq_false.1 h).2 _ List.mem_cons_self q hq
  else t

/-- `INSERT OR REPLACE`. -/
def insertOrReplace (t : Table) (values : List (String × Value)) : Option Table :=
  if h : t.lacks (t.rowOf values) = false then
    some (t.push (fun q => !t.keys.any fun key => clash key (t.rowOf values) q) values h
      fun q _ hq => by
        simp only [Bool.not_eq_true', List.any_eq_false, Bool.not_eq_true] at hq
        exact hq _ List.mem_cons_self)
  else none

def deleteWhere (t : Table) (p : Row → Bool) : Table :=
  { t with
    rows := t.rows.filter fun r => !p r
    filled := fun r hr => t.filled r (List.mem_of_mem_filter hr)
    inside := fun r hr => t.inside r (List.mem_of_mem_filter hr)
    distinct := t.distinct.filter _ }

theorem insertOrIgnore_of_refuses {values : List (String × Value)}
    (h : t.refuses (t.rowOf values) = true) : t.insertOrIgnore values = t :=
  dif_neg (by simp [h])

theorem insertOrIgnore_rows {values : List (String × Value)}
    (h : t.refuses (t.rowOf values) = false) :
    (t.insertOrIgnore values).rows = t.rows ++ [t.rowOf values] := by
  rw [insertOrIgnore, dif_pos h]
  change t.rows.filter (fun _ => true) ++ _ = _
  rw [List.filter_true]

theorem rowOf_of_lookup {values : List (String × Value)} {k : String} {v : Value}
    (hk : k ∈ t.names) (hv : values.lookup k = some v) : t.rowOf values k = v := by
  rw [rowOf, if_pos hk, hv]

theorem insertOrReplace_eq_some {values : List (String × Value)}
    (h : t.insertOrReplace values = some u) :
    u.columns = t.columns ∧ u.primary = t.primary ∧ u.uniques = t.uniques ∧
      u.rows = (t.rows.filter fun q => !t.keys.any fun key => clash key (t.rowOf values) q) ++
        [t.rowOf values] := by
  unfold insertOrReplace at h
  split_ifs at h
  cases h
  exact ⟨rfl, rfl, rfl, rfl⟩

/-- A row without a null in its primary key replaces itself. -/
theorem insertOrReplace_idem {values : List (String × Value)}
    (hp : ∀ k ∈ t.primary, t.rowOf values k ≠ .null) (h : t.insertOrReplace values = some u) :
    u.insertOrReplace values = some u := by
  obtain ⟨hcols, hprim, huniq, hrows⟩ := insertOrReplace_eq_some h
  have hrow : u.rowOf values = t.rowOf values := by
    unfold rowOf names
    rw [hcols]
  have hkeys : u.keys = t.keys := by
    unfold keys
    rw [hprim, huniq]
  have hlacks : u.lacks (u.rowOf values) = false := by
    unfold insertOrReplace at h
    split_ifs at h with hl
    unfold lacks at hl ⊢
    rwa [hrow, hcols]
  have hself : (t.keys.any fun key => clash key (t.rowOf values) (t.rowOf values)) = true :=
    List.any_eq_true.2 ⟨t.primary, List.mem_cons_self, clash_iff.2 fun k hk => ⟨rfl, hp k hk⟩⟩
  rw [insertOrReplace, dif_pos hlacks, Option.some.injEq]
  refine Table.ext rfl rfl rfl ?_
  change (u.rows.filter fun q => !u.keys.any fun key => clash key (u.rowOf values) q) ++
    [u.rowOf values] = u.rows
  rw [hrow, hkeys, hrows, List.filter_append, List.filter_filter]
  simp [hself]

/-! ### Extensions -/

/-- A table grows at the ends of its lists, and its rows get values where they have none. -/
structure Extends (t u : Table) : Prop where
  columns : t.columns <+: u.columns
  primary : u.primary = t.primary
  uniques : t.uniques <+: u.uniques
  rows : ∃ (f : Row → Row) (new : List Row), u.rows = t.rows.map f ++ new ∧
    ∀ r ∈ t.rows, ∀ k, r k ≠ .null → f r k = r k

theorem Extends.refl (t : Table) : t.Extends t where
  columns := List.prefix_rfl
  primary := rfl
  uniques := List.prefix_rfl
  rows := ⟨id, [], by simp, fun _ _ _ _ => rfl⟩

theorem Extends.trans {v : Table} (htu : t.Extends u) (huv : u.Extends v) : t.Extends v where
  columns := htu.columns.trans huv.columns
  primary := huv.primary.trans htu.primary
  uniques := htu.uniques.trans huv.uniques
  rows := by
    obtain ⟨f, new, hu, hf⟩ := htu.rows
    obtain ⟨g, more, hv, hg⟩ := huv.rows
    refine ⟨g ∘ f, new.map g ++ more, ?_, ?_⟩
    · rw [hv, hu, List.map_append, List.map_map, List.append_assoc]
    · intro r hr k hk
      have hfr : f r ∈ u.rows := by
        rw [hu]
        exact List.mem_append_left _ (List.mem_map_of_mem hr)
      have hfk := hf r hr k hk
      rw [Function.comp_apply, hg _ hfr k (by rwa [hfk]), hfk]

theorem Extends.names (h : t.Extends u) : t.names ⊆ u.names :=
  List.map_subset _ h.columns.subset

theorem Extends.keys (h : t.Extends u) : t.keys ⊆ u.keys := by
  intro key hkey
  rw [Table.keys, h.primary]
  obtain rfl | hkey := List.mem_cons.1 hkey
  · exact List.mem_cons_self
  · exact List.mem_cons_of_mem _ (h.uniques.subset hkey)

theorem Extends.rowOf (h : t.Extends u) (values : List (String × Value)) {k : String}
    (hk : k ∈ t.names) : u.rowOf values k = t.rowOf values k := by
  unfold Table.rowOf
  rw [if_pos hk, if_pos (h.names hk)]
  cases values.lookup k with
  | some v => rfl
  | none =>
    obtain ⟨c, hc, hck⟩ := List.mem_map.1 hk
    obtain ⟨more, hu⟩ := h.columns
    cases hfind : t.columns.find? fun c => c.name = k with
    | none => exact absurd hck (by simpa using List.find?_eq_none.1 hfind c hc)
    | some d => simp only [← hu, List.find?_append, hfind, Option.some_or]

theorem Extends.refuses (h : t.Extends u) {values : List (String × Value)}
    (hr : t.refuses (t.rowOf values) = true) : u.refuses (u.rowOf values) = true := by
  simp only [Table.refuses, Bool.or_eq_true, List.any_eq_true] at hr ⊢
  obtain hlack | ⟨key, hkey, q, hq, hc⟩ := hr
  · left
    simp only [lacks, List.any_eq_true, Bool.and_eq_true, decide_eq_true_eq] at hlack ⊢
    obtain ⟨c, hc, hn, hnull⟩ := hlack
    exact ⟨c, h.columns.subset hc, hn,
      (h.rowOf values (List.mem_map_of_mem hc)).trans hnull⟩
  · right
    obtain ⟨f, new, hu, hf⟩ := h.rows
    refine ⟨key, h.keys hkey, f q, by simp [hu, List.mem_map_of_mem hq], clash_iff.2 ?_⟩
    intro k hk
    obtain ⟨heq, hne⟩ := clash_iff.1 hc k hk
    have hname : k ∈ t.names := by
      by_contra hout
      exact hne (rowOf_of_not_mem hout)
    rw [h.rowOf values hname, hf q hq k (heq ▸ hne)]
    exact ⟨heq, hne⟩

theorem Extends.duplicates (h : t.Extends u) {key : List String}
    (hd : t.duplicates key = true) : u.duplicates key = true := by
  simp only [Table.duplicates, decide_eq_true_eq] at hd ⊢
  refine fun hu => hd ?_
  obtain ⟨f, new, hrows, hf⟩ := h.rows
  rw [hrows, List.pairwise_append, List.pairwise_map] at hu
  refine hu.1.imp_of_mem fun {a b} ha hb hab => ?_
  rw [← Bool.not_eq_true, clash_iff] at hab ⊢
  refine fun hc => hab fun k hk => ?_
  obtain ⟨heq, hne⟩ := hc k hk
  rw [hf a ha k hne, hf b hb k (heq ▸ hne)]
  exact ⟨heq, hne⟩

theorem addColumn_extends {c : Column} {fill : Row → Value} (h : t.addColumn c fill = some u) :
    t.Extends u := by
  unfold addColumn at h
  split_ifs at h with hc
  cases h
  refine ⟨List.prefix_append _ _, rfl, List.prefix_rfl, _, [], (List.append_nil _).symm, ?_⟩
  intro r hr k hk
  have hne : k ≠ c.name := fun he => hk (t.inside r hr k (he ▸ hc.1))
  exact Function.update_of_ne hne _ _

theorem addUnique_extends (t : Table) (columns : List String) (unique : Bool) :
    t.Extends (t.addUnique columns unique) where
  columns := List.prefix_rfl
  primary := rfl
  uniques := by
    unfold addUnique
    cases unique
    · exact List.prefix_rfl
    · exact List.prefix_append _ _
  rows := (Extends.refl t).rows

theorem setColumn_extends {name : String} {f : Row → Value}
    (h : t.setColumn name f = some u) (hf : ∀ r, r name ≠ .null → f r = r name) :
    t.Extends u := by
  unfold setColumn at h
  split_ifs at h
  cases h
  refine ⟨List.prefix_rfl, rfl, List.prefix_rfl, _, [], (List.append_nil _).symm, ?_⟩
  intro r hr k hk
  obtain rfl | he := eq_or_ne k name
  · exact (Function.update_self _ _ _).trans (hf r hk)
  · exact Function.update_of_ne he _ _

theorem insertOrIgnore_extends (t : Table) (values : List (String × Value)) :
    t.Extends (t.insertOrIgnore values) := by
  cases h : t.refuses (t.rowOf values) with
  | true =>
    rw [insertOrIgnore_of_refuses h]
    exact Extends.refl t
  | false =>
    refine ⟨?_, ?_, ?_, id, [t.rowOf values], ?_, fun _ _ _ _ => rfl⟩
    · rw [insertOrIgnore, dif_pos h]
      exact List.prefix_rfl
    · rw [insertOrIgnore, dif_pos h]
      rfl
    · rw [insertOrIgnore, dif_pos h]
      exact List.prefix_rfl
    · rw [insertOrIgnore_rows h, List.map_id]

theorem foldl_insertOrIgnore_extends (vs : List (List (String × Value))) (t : Table) :
    t.Extends (vs.foldl insertOrIgnore t) := by
  induction vs generalizing t with
  | nil => exact Extends.refl t
  | cons v vs ih => exact (t.insertOrIgnore_extends v).trans (ih _)

theorem foldl_insertOrIgnore_of_refuses {vs : List (List (String × Value))}
    (h : ∀ v ∈ vs, t.refuses (t.rowOf v) = true) : vs.foldl insertOrIgnore t = t := by
  induction vs with
  | nil => rfl
  | cons v vs ih =>
    rw [List.foldl_cons, insertOrIgnore_of_refuses (h v List.mem_cons_self)]
    exact ih fun w hw => h w (List.mem_cons_of_mem _ hw)

theorem insertOrIgnore_refuses (t : Table) {values : List (String × Value)}
    (h : ∀ k ∈ t.primary, t.rowOf values k ≠ .null) :
    (t.insertOrIgnore values).refuses ((t.insertOrIgnore values).rowOf values) = true := by
  cases hr : t.refuses (t.rowOf values) with
  | true =>
    rw [insertOrIgnore_of_refuses hr]
    exact hr
  | false =>
    rw [insertOrIgnore, dif_pos hr, refuses, Bool.or_eq_true, List.any_eq_true]
    right
    refine ⟨t.primary, List.mem_cons_self, ?_⟩
    rw [List.any_eq_true]
    exact ⟨t.rowOf values, List.mem_append_right _ (List.mem_singleton_self _),
      clash_iff.2 fun k hk => ⟨rfl, h k hk⟩⟩

theorem foldl_insertOrIgnore_refuses {vs : List (List (String × Value))} {t : Table}
    (h : ∀ v ∈ vs, ∀ k ∈ t.primary, t.rowOf v k ≠ .null) :
    ∀ v ∈ vs, (vs.foldl insertOrIgnore t).refuses ((vs.foldl insertOrIgnore t).rowOf v) = true := by
  induction vs generalizing t with
  | nil => simp
  | cons w vs ih =>
    intro v hv
    have hext := t.insertOrIgnore_extends w
    rw [List.foldl_cons]
    obtain rfl | hv := List.mem_cons.1 hv
    · exact (foldl_insertOrIgnore_extends vs _).refuses
        (t.insertOrIgnore_refuses (h v List.mem_cons_self))
    · refine ih ?_ v hv
      intro x hx k hk
      rw [hext.primary] at hk
      rw [hext.rowOf x (t.within hk)]
      exact h x (List.mem_cons_of_mem _ hx) k hk

/-! ### Keys -/

theorem map_update_of_not_mem {key : List String} {name : String} (h : name ∉ key) (r : Row)
    (v : Value) : key.map (Function.update r name v) = key.map r :=
  List.map_congr_left fun _ hk => Function.update_of_ne (ne_of_mem_of_not_mem hk h) _ _

theorem addColumn_keyRows {c : Column} {fill : Row → Value} (h : t.addColumn c fill = some u) :
    u.keyRows = t.keyRows := by
  unfold addColumn at h
  split_ifs at h with hc
  cases h
  exact (List.map_map).trans (List.map_congr_left fun r _ =>
    map_update_of_not_mem (fun hk => hc.1 (t.within hk)) r _)

theorem setColumn_keyRows {name : String} {f : Row → Value} (h : t.setColumn name f = some u) :
    u.keyRows = t.keyRows := by
  obtain ⟨hn, -, -, hp, hrows⟩ := setColumn_eq_some h
  unfold keyRows keyOf
  rw [hp, hrows, List.map_map]
  exact List.map_congr_left fun r _ => map_update_of_not_mem (hn.2 _ List.mem_cons_self) r _

theorem mem_keyRows_foldl {vs : List (List (String × Value))} {k : List Value}
    (h : k ∈ (vs.foldl insertOrIgnore t).keyRows) :
    k ∈ t.keyRows ∨ ∃ v ∈ vs, k = t.primary.map (t.rowOf v) := by
  induction vs generalizing t with
  | nil => exact Or.inl h
  | cons v vs ih =>
    have hext := t.insertOrIgnore_extends v
    obtain h | ⟨w, hw, rfl⟩ := ih h
    · cases hr : t.refuses (t.rowOf v) with
      | true => exact Or.inl (insertOrIgnore_of_refuses hr ▸ h)
      | false =>
        obtain ⟨r, hmem, rfl⟩ := mem_keyRows.1 h
        rw [hext.primary]
        rw [insertOrIgnore_rows hr] at hmem
        obtain hmem | hmem := List.mem_append.1 hmem
        · exact Or.inl (mem_keyRows.2 ⟨r, hmem, rfl⟩)
        · exact Or.inr ⟨v, List.mem_cons_self, by rw [List.mem_singleton.1 hmem]⟩
    · refine Or.inr ⟨w, List.mem_cons_of_mem _ hw, ?_⟩
      rw [hext.primary]
      exact List.map_congr_left fun c hc => hext.rowOf w (t.within hc)

end Table

namespace Store

variable {s : Store}

def set (s : Store) (name : String) (t : Table) : Store :=
  { s with tables := Function.update s.tables name (some t) }

@[simp] theorem set_tables_self (name : String) (t : Table) :
    (s.set name t).tables name = some t := by
  simp [set]

theorem set_tables_of_ne {name n : String} (h : n ≠ name) (t : Table) :
    (s.set name t).tables n = s.tables n :=
  Function.update_of_ne h _ _

theorem set_eq_self {name : String} {t : Table} (h : s.tables name = some t) :
    s.set name t = s := by
  rw [set, ← h, Function.update_eq_self]

def rowsOf (s : Store) (name : String) : List Row := (s.tables name).elim [] Table.rows

def keysOf (s : Store) (name : String) : List (List Value) :=
  (s.tables name).elim [] Table.keyRows

def orError (e : String) : Option Table → Except String Table
  | none => .error e
  | some t => .ok t

theorem orError_eq_ok {e : String} {o : Option Table} {t : Table} :
    orError e o = .ok t ↔ o = some t := by
  cases o <;> simp [orError]

def onTable (s : Store) (name : String) (f : Table → Except String Table) :
    Except String Store :=
  match s.tables name with
  | none => .error s!"no such table: {name}"
  | some t => (f t).map (s.set name)

theorem onTable_eq_ok {name : String} {f : Table → Except String Table} {s' : Store} :
    s.onTable name f = .ok s' ↔
      ∃ t t', s.tables name = some t ∧ f t = .ok t' ∧ s' = s.set name t' := by
  unfold onTable
  cases s.tables name with
  | none => simp
  | some t =>
    cases hf : f t with
    | error e => simp [Except.map, hf]
    | ok t' => simp [Except.map, hf, eq_comm]

structure Extends (s u : Store) : Prop where
  tables : ∀ n t, s.tables n = some t → ∃ t', u.tables n = some t' ∧ t.Extends t'
  indexes : s.indexes ⊆ u.indexes
  views : s.views ⊆ u.views

theorem Extends.refl (s : Store) : s.Extends s where
  tables := fun _ t ht => ⟨t, ht, Table.Extends.refl t⟩
  indexes := List.Subset.refl _
  views := List.Subset.refl _

theorem extends_set {n : String} {t' : Table}
    (h : ∀ t, s.tables n = some t → t.Extends t') : s.Extends (s.set n t') where
  tables := fun k t ht => by
    obtain rfl | hne := eq_or_ne k n
    · exact ⟨t', set_tables_self _ _, h t ht⟩
    · exact ⟨t, (set_tables_of_ne hne t').trans ht, Table.Extends.refl t⟩
  indexes := List.Subset.refl _
  views := List.Subset.refl _

end Store

end ZcashSdk.Sql
