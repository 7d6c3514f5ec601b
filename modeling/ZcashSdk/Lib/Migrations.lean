import ZcashSdk.Lib.Sql

set_option autoImplicit false

/-!
# Schema migrations that may run again

A migration creates what is missing. Each has a promise that holds once it has run, that
later migrations keep, and under which it changes nothing; so a list of migrations that has
run without an error changes nothing when it runs again.
-/
namespace ZcashSdk.Sql

/-! ### Migrations -/

inductive Migration where
  /-- `CREATE TABLE IF NOT EXISTS`, and the rows a new table is filled with. -/
  | createTable (name : String) (table : Table)
  /-- `ALTER TABLE ADD COLUMN` whose error is dropped. -/
  | addColumn (table : String) (column : Column)
  /-- The same after a check that the column is missing; an error is kept. The value of the
  rows that are there is made from other columns. -/
  | ensureColumn (table : String) (column : Column) (reads : List String) (fill : Row → Value)
  /-- `CREATE INDEX IF NOT EXISTS` whose error is dropped. -/
  | createIndex (name table : String) (columns : List String) (unique : Bool)
  | createView (name : String)
  /-- `INSERT OR IGNORE INTO target SELECT … FROM source WHERE …`. -/
  | copyRows (source target : String) (reads : List String)
      (values : Row → Option (List (String × Value)))
  /-- `UPDATE target SET column = (SELECT … FROM source WHERE … = target.key) WHERE column IS
  NULL`. -/
  | fillColumn (source target column key : String) (reads : List String)
      (pick : Value → List Row → Value)

namespace Migration

def indexable (t : Table) (columns : List String) (unique : Bool) : Bool :=
  decide (columns ⊆ t.names) && !(unique && t.duplicates columns)

def exec : Migration → Store → Except String Store
  | createTable name t, s => .ok (if (s.tables name).isSome then s else s.set name t)
  | addColumn table c, s =>
    .ok (match (s.tables table).bind fun t => t.addColumn c fun _ => c.default with
      | none => s
      | some t => s.set table t)
  | ensureColumn table c reads fill, s => s.onTable table fun t =>
    if c.name ∈ t.names then .ok t
    else if reads ⊆ t.names then
      Store.orError s!"constraint failed: {table}" (t.addColumn c fill)
    else .error "no such column"
  | createIndex name table columns unique, s =>
    .ok (if name ∈ s.indexes then s
      else match s.tables table with
        | none => s
        | some t =>
          if indexable t columns unique then
            { s.set table (t.addUnique columns unique) with
              indexes := s.indexes ++ [name] }
          else s)
  | createView name, s =>
    .ok (if name ∈ s.views then s else { s with views := s.views ++ [name] })
  | copyRows source target reads values, s =>
    match s.tables source with
    | none => .error s!"no such table: {source}"
    | some src => s.onTable target fun t =>
      if reads ⊆ src.names then .ok ((src.rows.filterMap values).foldl Table.insertOrIgnore t)
      else .error "no such column"
  | fillColumn source target column key reads pick, s =>
    match s.tables source with
    | none => .error s!"no such table: {source}"
    | some src => s.onTable target fun t =>
      if reads ⊆ src.names ∧ key ∈ t.names then
        Store.orError s!"no such column: {column}" (t.setColumn column fun r =>
          if r column = .null then pick (r key) src.rows else r column)
      else .error "no such column"

variable {m : Migration} {s s' : Store}

theorem exec_copyRows {source target : String} {reads : List String}
    {values : Row → Option (List (String × Value))} :
    (copyRows source target reads values).exec s = .ok s' ↔
      ∃ src t, s.tables source = some src ∧ s.tables target = some t ∧ reads ⊆ src.names ∧
        s' = s.set target ((src.rows.filterMap values).foldl Table.insertOrIgnore t) := by
  simp only [exec]
  cases s.tables source with
  | none => simp
  | some src =>
    simp only [Store.onTable_eq_ok]
    constructor
    · rintro ⟨t, t', ht, hf, rfl⟩
      split_ifs at hf with hr
      cases hf
      exact ⟨src, t, rfl, ht, hr, rfl⟩
    · rintro ⟨_, t, ⟨⟩, ht, hr, rfl⟩
      exact ⟨t, _, ht, if_pos hr, rfl⟩

theorem exec_fillColumn {source target column key : String} {reads : List String}
    {pick : Value → List Row → Value} :
    (fillColumn source target column key reads pick).exec s = .ok s' ↔
      ∃ src t t', s.tables source = some src ∧ s.tables target = some t ∧
        (reads ⊆ src.names ∧ key ∈ t.names) ∧
        t.setColumn column (fun r =>
          if r column = .null then pick (r key) src.rows else r column) = some t' ∧
        s' = s.set target t' := by
  simp only [exec]
  cases s.tables source with
  | none => simp
  | some src =>
    simp only [Store.onTable_eq_ok]
    constructor
    · rintro ⟨t, t', ht, hf, rfl⟩
      split_ifs at hf with hr
      exact ⟨src, t, t', rfl, ht, hr, Store.orError_eq_ok.1 hf, rfl⟩
    · rintro ⟨_, t, t', ⟨⟩, ht, hr, hset, rfl⟩
      refine ⟨t, t', ht, ?_, rfl⟩
      rw [if_pos hr, hset]
      exact Store.orError_eq_ok.2 rfl

theorem exec_ensureColumn {table : String} {c : Column} {reads : List String}
    {fill : Row → Value} (h : (ensureColumn table c reads fill).exec s = .ok s') :
    ∃ t, s.tables table = some t ∧
      (c.name ∈ t.names ∧ s' = s ∨ ∃ t', t.addColumn c fill = some t' ∧ s' = s.set table t') := by
  obtain ⟨t, t', ht, hf, rfl⟩ := Store.onTable_eq_ok.1 h
  refine ⟨t, ht, ?_⟩
  split_ifs at hf with hc hr
  · cases hf
    exact Or.inl ⟨hc, Store.set_eq_self ht⟩
  · exact Or.inr ⟨t', Store.orError_eq_ok.1 hf, rfl⟩

theorem exec_createIndex {name table : String} {columns : List String} {unique : Bool}
    (h : (createIndex name table columns unique).exec s = .ok s') :
    s' = s ∨ ∃ t, s.tables table = some t ∧
      s' = { s.set table (t.addUnique columns unique) with indexes := s.indexes ++ [name] } := by
  simp only [exec, Except.ok.injEq] at h
  split_ifs at h
  · exact Or.inl h.symm
  · cases ht : s.tables table with
    | none =>
      rw [ht] at h
      exact Or.inl h.symm
    | some t =>
      rw [ht] at h
      simp only at h
      split_ifs at h
      · exact Or.inr ⟨t, rfl, h.symm⟩
      · exact Or.inl h.symm

def target : Migration → Option String
  | createTable name _ => some name
  | addColumn table _ => some table
  | ensureColumn table _ _ _ => some table
  | createIndex _ table _ _ => some table
  | createView _ => none
  | copyRows _ target _ _ => some target
  | fillColumn _ target _ _ _ _ => some target

structure Change (m : Migration) (s s' : Store) : Prop where
  grows : s.Extends s'
  frame : ∀ n, m.target ≠ some n → s'.tables n = s.tables n
  created : ∀ n t, s.tables n = none → s'.tables n = some t → m = createTable n t

theorem Change.refl (m : Migration) (s : Store) : m.Change s s where
  grows := Store.Extends.refl s
  frame := fun _ _ => rfl
  created := fun n t hn ht => by simp [hn] at ht

theorem Change.set {n : String} {t t' : Table} (hm : m.target = some n)
    (ht : s.tables n = some t) (he : t.Extends t') : m.Change s (s.set n t') where
  grows := Store.extends_set fun u hu => Option.some.inj (ht.symm.trans hu) ▸ he
  frame := fun k hk => Store.set_tables_of_ne (by rintro rfl; exact hk hm) t'
  created := fun k u hk hu => by
    obtain rfl | hne := eq_or_ne k n
    · simp [hk] at ht
    · rw [Store.set_tables_of_ne hne, hk] at hu
      cases hu

theorem exec_change (h : m.exec s = .ok s') : m.Change s s' := by
  cases m with
  | createTable name t =>
    simp only [exec, Except.ok.injEq] at h
    split_ifs at h with hsome
    · exact h ▸ Change.refl _ s
    · rw [Bool.not_eq_true, Option.isSome_eq_false_iff, Option.isNone_iff_eq_none] at hsome
      subst h
      refine ⟨Store.extends_set fun u hu => by simp [hsome] at hu,
        fun k hk => Store.set_tables_of_ne (by rintro rfl; exact hk rfl) t, fun k u hk hu => ?_⟩
      obtain rfl | hne := eq_or_ne k name
      · rw [Store.set_tables_self, Option.some.injEq] at hu
        rw [hu]
      · rw [Store.set_tables_of_ne hne, hk] at hu
        cases hu
  | addColumn table c =>
    simp only [exec, Except.ok.injEq] at h
    split at h
    · exact h ▸ Change.refl _ s
    · rename_i t' hadd
      obtain ⟨t, ht, ha⟩ := Option.bind_eq_some_iff.1 hadd
      exact h ▸ Change.set rfl ht (Table.addColumn_extends ha)
  | ensureColumn table c reads fill =>
    obtain ⟨t, ht, ⟨-, rfl⟩ | ⟨t', ha, rfl⟩⟩ := exec_ensureColumn h
    · exact Change.refl _ _
    · exact Change.set rfl ht (Table.addColumn_extends ha)
  | createIndex name table columns unique =>
    obtain rfl | ⟨t, ht, rfl⟩ := exec_createIndex h
    · exact Change.refl _ _
    · have hset := Change.set (m := createIndex name table columns unique) rfl ht
        (t.addUnique_extends columns unique)
      exact ⟨⟨hset.grows.tables, List.subset_append_left _ _, hset.grows.views⟩, hset.frame,
        hset.created⟩
  | createView name =>
    simp only [exec, Except.ok.injEq] at h
    split_ifs at h
    · exact h ▸ Change.refl _ s
    · subst h
      exact ⟨⟨(Store.Extends.refl s).tables, List.Subset.refl _, List.subset_append_left _ _⟩,
        fun _ _ => rfl, fun n t hn ht => by simp [hn] at ht⟩
  | copyRows source target reads values =>
    obtain ⟨src, t, -, ht, -, rfl⟩ := exec_copyRows.1 h
    exact Change.set rfl ht (Table.foldl_insertOrIgnore_extends _ t)
  | fillColumn source target column key reads pick =>
    obtain ⟨src, t, t', -, ht, -, hset, rfl⟩ := exec_fillColumn.1 h
    exact Change.set rfl ht (Table.setColumn_extends hset fun r hr => if_neg hr)

/-! ### Promises -/

def Promise : Migration → Store → Prop
  | createTable name _, s => (s.tables name).isSome
  | addColumn table c, s => ∀ t, s.tables table = some t → c.name ∈ t.names
  | ensureColumn table c _ _, s => ∃ t, s.tables table = some t ∧ c.name ∈ t.names
  | createIndex name table columns unique, s =>
    name ∈ s.indexes ∨ ∀ t, s.tables table = some t → unique ∧ t.duplicates columns
  | createView name, s => name ∈ s.views
  | copyRows source target reads values, s =>
    ∃ src t, s.tables source = some src ∧ s.tables target = some t ∧ reads ⊆ src.names ∧
      ∀ v ∈ src.rows.filterMap values, t.refuses (t.rowOf v)
  | fillColumn source target column key reads pick, s =>
    ∃ src t, s.tables source = some src ∧ s.tables target = some t ∧
      (reads ⊆ src.names ∧ key ∈ t.names) ∧
      (column ∈ t.names ∧ ∀ k ∈ t.keys, column ∉ k) ∧
      ∀ r ∈ t.rows, r column = .null → pick (r key) src.rows = .null

theorem exec_of_promise (h : m.Promise s) : m.exec s = .ok s := by
  cases m with
  | createTable name t => exact congrArg Except.ok (if_pos h)
  | addColumn table c =>
    have hnone : ((s.tables table).bind fun t => t.addColumn c fun _ => c.default) = none :=
      Option.bind_eq_none_iff.2 fun t ht => Table.addColumn_eq_none (h t ht)
    simp only [exec, hnone]
  | ensureColumn table c reads fill =>
    obtain ⟨t, ht, hc⟩ := h
    exact Store.onTable_eq_ok.2 ⟨t, t, ht, if_pos hc, (Store.set_eq_self ht).symm⟩
  | createIndex name table columns unique =>
    simp only [exec]
    obtain h | h := h
    · rw [if_pos h]
    · split_ifs
      · rfl
      · cases ht : s.tables table with
        | none => rfl
        | some t =>
          obtain ⟨hu, hd⟩ := h t ht
          have hno : indexable t columns unique = false := by simp [indexable, hu, hd]
          simp [hno]
  | createView name => exact congrArg Except.ok (if_pos h)
  | copyRows source target reads values =>
    obtain ⟨src, t, hsrc, ht, hr, hv⟩ := h
    refine exec_copyRows.2 ⟨src, t, hsrc, ht, hr, ?_⟩
    rw [Table.foldl_insertOrIgnore_of_refuses hv, Store.set_eq_self ht]
  | fillColumn source target column key reads pick =>
    obtain ⟨src, t, hsrc, ht, hr, hc, hnull⟩ := h
    refine exec_fillColumn.2 ⟨src, t, t, hsrc, ht, hr, ?_, (Store.set_eq_self ht).symm⟩
    refine Table.setColumn_eq_self hc fun r hr => ?_
    split_ifs with hn
    · rw [hnull r hr hn, hn]
    · rfl

def Suits : Migration → Store → Prop
  | addColumn _ c, _ => c.notNull → c.default ≠ .null
  | createIndex _ table columns _, s => ∀ t, s.tables table = some t → columns ⊆ t.names
  | copyRows source target _ values, s => source ≠ target ∧ ∀ src t,
      s.tables source = some src → s.tables target = some t →
      ∀ v ∈ src.rows.filterMap values, ∀ k ∈ t.primary, t.rowOf v k ≠ .null
  | fillColumn source target column key .., _ => source ≠ target ∧ key ≠ column
  | _, _ => True

theorem promise_of_exec (hm : m.Suits s) (h : m.exec s = .ok s') : m.Promise s' := by
  cases m with
  | createTable name t =>
    simp only [exec, Except.ok.injEq] at h
    split_ifs at h with hsome
    · exact h ▸ hsome
    · rw [← h, Promise, Store.set_tables_self]
      rfl
  | addColumn table c =>
    intro t' ht'
    simp only [exec, Except.ok.injEq] at h
    split at h
    · rename_i hnone
      subst h
      have hadd := Option.bind_eq_none_iff.1 hnone t' ht'
      unfold Table.addColumn at hadd
      split_ifs at hadd with hc
      by_contra hout
      exact hc ⟨hout, fun hn r _ => hm hn⟩
    · rename_i u hadd
      obtain ⟨t, ht, ha⟩ := Option.bind_eq_some_iff.1 hadd
      rw [← h, Store.set_tables_self, Option.some.injEq] at ht'
      exact ht' ▸ Table.name_mem_of_addColumn ha
  | ensureColumn table c reads fill =>
    obtain ⟨t, ht, ⟨hc, rfl⟩ | ⟨t', ha, rfl⟩⟩ := exec_ensureColumn h
    · exact ⟨t, ht, hc⟩
    · exact ⟨t', Store.set_tables_self _ _, Table.name_mem_of_addColumn ha⟩
  | createIndex name table columns unique =>
    simp only [exec, Except.ok.injEq] at h
    split_ifs at h with hin
    · exact Or.inl (h ▸ hin)
    · cases ht : s.tables table with
      | none =>
        rw [ht] at h
        exact Or.inr fun t hu => by simp [← h, ht] at hu
      | some t =>
        rw [ht] at h
        simp only at h
        split_ifs at h with hi
        · exact Or.inl (h ▸ List.mem_append_right _ (List.mem_singleton_self _))
        · right
          intro u hu
          subst h
          obtain rfl := Option.some.inj (ht.symm.trans hu)
          simpa [indexable, hm t ht] using hi
  | createView name =>
    simp only [exec, Except.ok.injEq] at h
    split_ifs at h with hin
    · exact h ▸ hin
    · exact h ▸ List.mem_append_right _ (List.mem_singleton_self _)
  | copyRows source target reads values =>
    obtain ⟨src, t, hsrc, ht, hr, rfl⟩ := exec_copyRows.1 h
    exact ⟨src, _, (Store.set_tables_of_ne hm.1 _).trans hsrc, Store.set_tables_self _ _, hr,
      Table.foldl_insertOrIgnore_refuses (hm.2 src t hsrc ht)⟩
  | fillColumn source target column key reads pick =>
    obtain ⟨src, t, t', hsrc, ht, hr, hset, rfl⟩ := exec_fillColumn.1 h
    obtain ⟨hc, hcols, hkeys, -, hrows⟩ := Table.setColumn_eq_some hset
    have hnames : t'.names = t.names := congrArg (List.map Column.name) hcols
    refine ⟨src, t', (Store.set_tables_of_ne hm.1 _).trans hsrc, Store.set_tables_self _ _,
      hnames.symm ▸ hr, hnames.symm ▸ hkeys.symm ▸ hc, fun q hq hnull => ?_⟩
    rw [hrows] at hq
    obtain ⟨r, -, rfl⟩ := List.mem_map.1 hq
    rw [Function.update_self] at hnull
    rw [Function.update_of_ne hm.2]
    split_ifs at hnull with hn
    · exact hnull
    · exact absurd hnull hn

def creates (n : String) : Migration → Option Table
  | createTable k t => if k = n then some t else none
  | _ => none

theorem exec_tables {n : String} {P : Table → Prop} (hext : ∀ t u, t.Extends u → P t → P u)
    (hnew : ∀ t, m.creates n = some t → P t) (hs : ∀ t, s.tables n = some t → P t)
    (h : m.exec s = .ok s') : ∀ t, s'.tables n = some t → P t := by
  intro t' ht'
  have hch := exec_change h
  cases ht : s.tables n with
  | none =>
    obtain rfl := hch.created n t' ht ht'
    exact hnew t' (if_pos rfl)
  | some t =>
    obtain ⟨u, hu, hext'⟩ := hch.grows.tables n t ht
    obtain rfl := Option.some.inj (hu.symm.trans ht')
    exact hext t u hext' (hs t ht)

theorem exec_created {n : String} {t₀ : Table}
    (hm : m.target = some n → m = createTable n t₀) (h : m.exec s = .ok s') :
    s'.tables n = s.tables n ∨ s.tables n = none ∧ s'.tables n = some t₀ := by
  by_cases hn : m.target = some n
  · obtain rfl := hm hn
    simp only [exec, Except.ok.injEq] at h
    split_ifs at h with hsome
    · exact Or.inl (h ▸ rfl)
    · rw [Bool.not_eq_true, Option.isSome_eq_false_iff, Option.isNone_iff_eq_none] at hsome
      exact Or.inr ⟨hsome, h ▸ Store.set_tables_self _ _⟩
  · exact Or.inl ((exec_change h).frame n hn)

def inspects : Migration → List String
  | createIndex _ table _ _ => [table]
  | copyRows source target _ _ => [source, target]
  | fillColumn source target _ _ _ _ => [source, target]
  | _ => []

theorem Promise.set_rows {n : String} {t t' : Table} (hm : m.Promise s)
    (ht : s.tables n = some t) (hcols : t'.columns = t.columns) (hn : n ∉ m.inspects) :
    m.Promise (s.set n t') := by
  have hnames : t'.names = t.names := congrArg (List.map Column.name) hcols
  have hsame : ∀ k, k ∈ m.inspects → (s.set n t').tables k = s.tables k := fun k hk =>
    Store.set_tables_of_ne (ne_of_mem_of_not_mem hk hn) t'
  cases m with
  | createTable name u =>
    obtain ⟨u, hu⟩ := Option.isSome_iff_exists.1 hm
    obtain rfl | hne := eq_or_ne name n
    · rw [Promise, Store.set_tables_self]
      rfl
    · rw [Promise, Store.set_tables_of_ne hne]
      exact hm
  | addColumn table c =>
    intro u hu
    obtain rfl | hne := eq_or_ne table n
    · rw [Store.set_tables_self, Option.some.injEq] at hu
      rw [← hu, hnames]
      exact hm t ht
    · rw [Store.set_tables_of_ne hne] at hu
      exact hm u hu
  | ensureColumn table c reads fill =>
    obtain ⟨u, hu, hc⟩ := hm
    obtain rfl | hne := eq_or_ne table n
    · obtain rfl := Option.some.inj (ht.symm.trans hu)
      exact ⟨t', Store.set_tables_self _ _, hnames.symm ▸ hc⟩
    · exact ⟨u, (Store.set_tables_of_ne hne _).trans hu, hc⟩
  | createIndex name table columns unique =>
    refine hm.imp id fun h u hu => h u ?_
    rwa [hsame table (List.mem_singleton_self _)] at hu
  | createView name => exact hm
  | copyRows source target reads values =>
    obtain ⟨src, u, hsrc, hu, h⟩ := hm
    exact ⟨src, u, (hsame source (by simp [inspects])).trans hsrc,
      (hsame target (by simp [inspects])).trans hu, h⟩
  | fillColumn source target column key reads pick =>
    obtain ⟨src, u, hsrc, hu, h⟩ := hm
    exact ⟨src, u, (hsame source (by simp [inspects])).trans hsrc,
      (hsame target (by simp [inspects])).trans hu, h⟩

/-- A migration that may run after another one leaves its promise alone. -/
def mayFollow : Migration → Migration → Bool
  | createTable name _, addColumn table _ => name ≠ table
  | createTable name _, createIndex _ table _ _ => name ≠ table
  | fillColumn _ target column .., fillColumn source' target' column' key' .. =>
    target ≠ source' && (target ≠ target' || (column ≠ column' && column ≠ key'))
  | m, copyRows source .. => m.target ≠ some source
  | m, fillColumn source target .. => m.target ≠ some source && m.target ≠ some target
  | _, _ => true

theorem Promise.after {m' : Migration} (hf : m'.mayFollow m = true) (hm : m.Promise s)
    (h : m'.exec s = .ok s') : m.Promise s' := by
  have hch := exec_change h
  cases m with
  | createTable name t =>
    obtain ⟨t, ht⟩ := Option.isSome_iff_exists.1 hm
    obtain ⟨t', ht', -⟩ := hch.grows.tables name t ht
    exact Option.isSome_iff_exists.2 ⟨t', ht'⟩
  | addColumn table c =>
    intro t' ht'
    cases ht : s.tables table with
    | none =>
      obtain rfl := hch.created table t' ht ht'
      simp [mayFollow] at hf
    | some t =>
      obtain ⟨u, hu, hext⟩ := hch.grows.tables table t ht
      obtain rfl := Option.some.inj (hu.symm.trans ht')
      exact hext.names (hm t ht)
  | ensureColumn table c reads fill =>
    obtain ⟨t, ht, hc⟩ := hm
    obtain ⟨u, hu, hext⟩ := hch.grows.tables table t ht
    exact ⟨u, hu, hext.names hc⟩
  | createIndex name table columns unique =>
    obtain hin | hd := hm
    · exact Or.inl (hch.grows.indexes hin)
    · refine Or.inr fun t' ht' => ?_
      cases ht : s.tables table with
      | none =>
        obtain rfl := hch.created table t' ht ht'
        simp [mayFollow] at hf
      | some t =>
        obtain ⟨u, hu, hext⟩ := hch.grows.tables table t ht
        obtain rfl := Option.some.inj (hu.symm.trans ht')
        exact ⟨(hd t ht).1, hext.duplicates (hd t ht).2⟩
  | createView name => exact hch.grows.views hm
  | copyRows source target reads values =>
    obtain ⟨src, t, hsrc, ht, hr, hv⟩ := hm
    have hne : m'.target ≠ some source := by
      cases m' <;> simpa [mayFollow] using hf
    obtain ⟨u, hu, hext⟩ := hch.grows.tables target t ht
    exact ⟨src, u, (hch.frame source hne).trans hsrc, hu, hr, fun v hv' => hext.refuses (hv v hv')⟩
  | fillColumn source target column key reads pick =>
    obtain ⟨src, t, hsrc, ht, hr, hc, hnull⟩ := hm
    have hne : m'.target ≠ some source := by
      cases m' <;> simp_all [mayFollow, Migration.target]
    by_cases hsame : m'.target = some target
    · cases m' with
      | fillColumn source' target' column' key' reads' pick' =>
        obtain rfl : target' = target := Option.some.inj hsame
        obtain ⟨src', u, u', hsrc', hu, hr', hset, rfl⟩ := exec_fillColumn.1 h
        obtain rfl := Option.some.inj (ht.symm.trans hu)
        obtain ⟨-, hcols, hkeys, -, hrows⟩ := Table.setColumn_eq_some hset
        have hnames : u'.names = t.names := congrArg (List.map Column.name) hcols
        -- the other statement fills another column, which this one does not read
        have hother : column' ≠ column ∧ column' ≠ key := by
          simpa [mayFollow] using (Bool.and_eq_true_iff.1 hf).2
        have hsrc' : target' ≠ source := fun he => hne (he ▸ rfl)
        refine ⟨src, u', (Store.set_tables_of_ne hsrc'.symm _).trans hsrc,
          Store.set_tables_self _ _, hnames.symm ▸ hr, hnames.symm ▸ hkeys.symm ▸ hc,
          fun q hq hqnull => ?_⟩
        rw [hrows] at hq
        obtain ⟨r, hr, rfl⟩ := List.mem_map.1 hq
        rw [Function.update_of_ne hother.1.symm] at hqnull
        rw [Function.update_of_ne hother.2.symm]
        exact hnull r hr hqnull
      | _ => simp_all [mayFollow]
    · exact ⟨src, t, (hch.frame source hne).trans hsrc, (hch.frame target hsame).trans ht, hr, hc,
        hnull⟩

theorem exec_keyRows {n : String} {t t' : Table} (h : m.exec s = .ok s')
    (ht : s.tables n = some t) (ht' : s'.tables n = some t') {k : List Value}
    (hk : k ∈ t'.keyRows) :
    k ∈ t.keyRows ∨ ∃ source reads values src, m = copyRows source n reads values ∧
      s.tables source = some src ∧
      ∃ v ∈ src.rows.filterMap values, k = t.primary.map (t.rowOf v) := by
  by_cases hn : m.target = some n
  swap
  · rw [(exec_change h).frame n hn, ht, Option.some.injEq] at ht'
    exact Or.inl (ht' ▸ hk)
  have hset : ∀ u, t.keyRows = u.keyRows → (s.set n u).tables n = some t' → k ∈ t.keyRows := by
    intro u hu hs
    rw [Store.set_tables_self, Option.some.injEq] at hs
    rwa [hu, hs]
  have hself : s' = s → k ∈ t.keyRows := by
    rintro rfl
    rw [ht, Option.some.injEq] at ht'
    exact ht' ▸ hk
  cases m with
  | createTable name u =>
    obtain rfl : name = n := Option.some.inj hn
    simp only [exec, ht, Option.isSome_some, if_true, Except.ok.injEq] at h
    exact Or.inl (hself h.symm)
  | addColumn table c =>
    obtain rfl : table = n := Option.some.inj hn
    simp only [exec, Except.ok.injEq] at h
    split at h
    · exact Or.inl (hself h.symm)
    · rename_i u hadd
      obtain ⟨w, hw, ha⟩ := Option.bind_eq_some_iff.1 hadd
      obtain rfl := Option.some.inj (ht.symm.trans hw)
      exact Or.inl (hset u (Table.addColumn_keyRows ha).symm (h ▸ ht'))
  | ensureColumn table c reads fill =>
    obtain rfl : table = n := Option.some.inj hn
    obtain ⟨w, hw, ⟨-, hs⟩ | ⟨u, ha, rfl⟩⟩ := exec_ensureColumn h
    · exact Or.inl (hself hs)
    · obtain rfl := Option.some.inj (ht.symm.trans hw)
      exact Or.inl (hset u (Table.addColumn_keyRows ha).symm ht')
  | createIndex name table columns unique =>
    obtain rfl : table = n := Option.some.inj hn
    obtain hs | ⟨w, hw, rfl⟩ := exec_createIndex h
    · exact Or.inl (hself hs)
    · obtain rfl := Option.some.inj (ht.symm.trans hw)
      exact Or.inl (hset (t.addUnique columns unique) rfl ht')
  | createView name => cases hn
  | copyRows source target reads values =>
    obtain rfl : target = n := Option.some.inj hn
    obtain ⟨src, w, hsrc, hw, -, rfl⟩ := exec_copyRows.1 h
    obtain rfl := Option.some.inj (ht.symm.trans hw)
    rw [Store.set_tables_self, Option.some.injEq] at ht'
    obtain hk | ⟨v, hv, rfl⟩ := Table.mem_keyRows_foldl (ht' ▸ hk)
    · exact Or.inl hk
    · exact Or.inr ⟨source, reads, values, src, rfl, hsrc, v, hv, rfl⟩
  | fillColumn source target column key reads pick =>
    obtain rfl : target = n := Option.some.inj hn
    obtain ⟨src, w, u, -, hw, -, hu, rfl⟩ := exec_fillColumn.1 h
    obtain rfl := Option.some.inj (ht.symm.trans hw)
    exact Or.inl (hset u (Table.setColumn_keyRows hu).symm ht')

end Migration

/-! ### Lists of migrations -/

/-- A migration that fails stops the list; what ran before it stays. -/
def migrate : List Migration → Store → Store × Option String
  | [], s => (s, none)
  | m :: ms, s =>
    match m.exec s with
    | .error e => (s, some e)
    | .ok t => migrate ms t

section Migrate

variable {ms : List Migration} {s s' : Store} {I : Store → Prop}

theorem migrate_cons_eq_none {m : Migration} :
    migrate (m :: ms) s = (s', none) ↔ ∃ t, m.exec s = .ok t ∧ migrate ms t = (s', none) := by
  simp only [migrate]
  cases m.exec s <;> simp

/-- What every migration of the list keeps, a run of the list keeps, also one that fails. -/
theorem migrate_inv (hstep : ∀ m ∈ ms, ∀ s s', I s → m.exec s = .ok s' → I s')
    (hs : I s) : I (migrate ms s).1 := by
  induction ms generalizing s with
  | nil => exact hs
  | cons m ms ih =>
    simp only [migrate]
    cases hm : m.exec s with
    | error e => exact hs
    | ok t =>
      exact ih (fun m' hm' => hstep m' (List.mem_cons_of_mem _ hm'))
        (hstep m List.mem_cons_self s t hs hm)

theorem migrate_of_promises (h : ∀ m ∈ ms, m.Promise s) : migrate ms s = (s, none) := by
  induction ms with
  | nil => rfl
  | cons m ms ih =>
    simp only [migrate, Migration.exec_of_promise (h m List.mem_cons_self)]
    exact ih fun m' hm' => h m' (List.mem_cons_of_mem _ hm')

/-- After a run without an error every promise of the list holds. -/
theorem promises_of_migrate (hstep : ∀ m ∈ ms, ∀ s s', I s → m.exec s = .ok s' → I s')
    (hsuits : ∀ m ∈ ms, ∀ s, I s → m.Suits s)
    (hord : ms.Pairwise fun m m' => m'.mayFollow m = true) (hs : I s)
    (h : migrate ms s = (s', none)) : ∀ m ∈ ms, m.Promise s' := by
  induction ms generalizing s with
  | nil => simp
  | cons m ms ih =>
    obtain ⟨t, hm, hrest⟩ := migrate_cons_eq_none.1 h
    obtain ⟨hfollow, hord⟩ := List.pairwise_cons.1 hord
    have ht := hstep m List.mem_cons_self s t hs hm
    intro m' hm'
    obtain rfl | hm' := List.mem_cons.1 hm'
    · have hp := Migration.promise_of_exec (hsuits m' List.mem_cons_self s hs) hm
      have hkept := migrate_inv (I := m'.Promise)
        (fun a ha _ _ hu hexec => hu.after (hfollow a ha) hexec) hp
      rwa [hrest] at hkept
    · exact ih (fun a ha => hstep a (List.mem_cons_of_mem _ ha))
        (fun a ha => hsuits a (List.mem_cons_of_mem _ ha)) hord ht hrest m' hm'

theorem migrate_created {n : String} {t₀ : Table}
    (h : ∀ m ∈ ms, m.target = some n → m = .createTable n t₀) :
    (migrate ms s).1.tables n = s.tables n ∨
      s.tables n = none ∧ (migrate ms s).1.tables n = some t₀ := by
  refine migrate_inv (I := fun u => u.tables n = s.tables n ∨
    s.tables n = none ∧ u.tables n = some t₀) (fun m hm u u' hu hexec => ?_) (Or.inl rfl)
  obtain hsame | ⟨hnone, hnew⟩ := Migration.exec_created (h m hm) hexec
  · rwa [hsame]
  · obtain hu | ⟨hs, hu⟩ := hu
    · exact Or.inr ⟨hu ▸ hnone, hnew⟩
    · exact Or.inr ⟨hs, hnew⟩

end Migrate

end ZcashSdk.Sql
