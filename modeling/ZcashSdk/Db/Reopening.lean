import ZcashSdk.Db.CreateSchema

set_option autoImplicit false

/-!
# Opening a database again

What the statements rely on in the tables that are there, what they promise, and what an
opening leaves alone: everything, when the stored version is too new; the rest of its work,
when it runs again; and the rows that an operation deleted.
-/
namespace ZcashSdk.Schema
open Sql

/-! ### Wallet databases -/

structure Demand where
  table : String
  primary : List String
  required : List String
  deriving DecidableEq

def Demand.Met (d : Demand) (t : Table) : Prop :=
  t.primary = d.primary ∧ ∀ k ∈ d.required, ∃ c ∈ t.columns, c.name = k ∧ c.notNull

instance (d : Demand) (t : Table) : Decidable (d.Met t) :=
  inferInstanceAs (Decidable (_ ∧ _))

theorem Demand.Met.extends {d : Demand} {t u : Table} (h : t.Extends u) (ht : d.Met t) :
    d.Met u := by
  refine ⟨h.primary.trans ht.1, fun k hk => ?_⟩
  obtain ⟨c, hc, hck⟩ := ht.2 k hk
  exact ⟨c, h.columns.subset hc, hck⟩

theorem Demand.Met.mem_names {d : Demand} {t : Table} (h : d.Met t) {k : String}
    (hk : k ∈ d.required) : k ∈ t.names := by
  obtain ⟨c, hc, rfl, -⟩ := h.2 k hk
  exact List.mem_map_of_mem hc

theorem Demand.Met.ne_null {d : Demand} {t : Table} (h : d.Met t) {k : String}
    (hk : k ∈ d.required) {r : Row} (hr : r ∈ t.rows) : r k ≠ .null := by
  obtain ⟨c, hc, rfl, hn⟩ := h.2 k hk
  exact t.filled r hr c hc hn

def props : Demand := ⟨"props", ["key"], ["value"]⟩

def packages : Demand :=
  ⟨"dkg_packages", ["id_dkg_package"], ["account", "public", "round", "from_id", "data"]⟩

def addresses : Demand := ⟨"dkg_addresses", ["account", "from_id"], ["address"]⟩

def states : Demand := ⟨"dkg_state", ["account"], []⟩

def peers : Demand := ⟨"dkg_peers", ["account", "round", "from_id"], ["data"]⟩

def assets : Demand := ⟨"assets", ["id_asset"], ["asset_base"]⟩

def contactAddresses : Demand := ⟨"contact_addresses", ["id_address"], ["receiver", "pool"]⟩

def demands : List Demand :=
  [props, packages, addresses, states, peers, assets, contactAddresses]

/-- A database whose tables, as far as they are there, have the keys and the columns they had
from the start. -/
def WalletDb (s : Store) : Prop := ∀ d ∈ demands, ∀ t, s.tables d.table = some t → d.Met t

theorem met_of_creates :
    ∀ d ∈ demands, ∀ t ∈ schema.filterMap (Migration.creates d.table), d.Met t := by
  decide

variable {s s' : Store}

theorem WalletDb.exec {m : Migration} (hs : WalletDb s) (hm : m ∈ schema)
    (h : m.exec s = .ok s') : WalletDb s' := fun d hd =>
  Migration.exec_tables (fun _ _ hext ht => ht.extends hext)
    (fun t ht => met_of_creates d hd t (List.mem_filterMap.2 ⟨m, hm, ht⟩)) (hs d hd) h

theorem WalletDb.set {n : String} {t t' : Table} (hs : WalletDb s) (ht : s.tables n = some t)
    (hcols : t'.columns = t.columns) (hprim : t'.primary = t.primary) :
    WalletDb (s.set n t') := by
  intro d hd u hu
  obtain he | hne := eq_or_ne d.table n
  · rw [he, Store.set_tables_self, Option.some.injEq] at hu
    rw [← hu]
    obtain ⟨hp, hr⟩ := hs d hd t (he ▸ ht)
    exact ⟨hprim.trans hp, hcols.symm ▸ hr⟩
  · rw [Store.set_tables_of_ne hne] at hu
    exact hs d hd u hu

/-! ### The statements that copy -/

def legacyKey (n : String) (r : Row) : Option (List Value) :=
  if n = "dkg_addresses" ∧ isAddress r then some [r "account", r "from_id"]
  else if n = "dkg_state" ∧ isSecret r then some [r "account"]
  else if n = "dkg_peers" ∧ isPeer r then some [r "account", r "round", r "from_id"]
  else none

def copyOf : Migration → Option (String × String × (Row → Option (List (String × Value))))
  | .copyRows source target _ values => some (source, target, values)
  | _ => none

theorem copies_schema : schema.filterMap copyOf =
    [("dkg_packages", "dkg_addresses", addressOf), ("dkg_packages", "dkg_state", stateOf),
      ("dkg_packages", "dkg_peers", peerOf)] := rfl

theorem copyRows_mem {source target : String} {reads : List String}
    {values : Row → Option (List (String × Value))}
    (h : .copyRows source target reads values ∈ schema) :
    source = "dkg_packages" ∧ ∃ d ∈ demands, d.table = target ∧ d.primary ⊆ packages.required ∧
      ∀ r v, values r = some v →
        (∀ k ∈ d.primary, v.lookup k = some (r k)) ∧
          legacyKey target r = some (d.primary.map r) := by
  have hmem : (source, target, values) ∈ schema.filterMap copyOf :=
    List.mem_filterMap.2 ⟨_, h, rfl⟩
  rw [copies_schema] at hmem
  simp only [List.mem_cons, Prod.mk.injEq, List.not_mem_nil, or_false] at hmem
  obtain ⟨rfl, rfl, rfl⟩ | ⟨rfl, rfl, rfl⟩ | ⟨rfl, rfl, rfl⟩ := hmem
  · refine ⟨rfl, addresses, by decide, rfl, by decide, fun r v hv => ?_⟩
    unfold addressOf at hv
    split_ifs at hv with hr
    cases hv
    exact ⟨by simp [addresses, List.lookup], by simp [legacyKey, hr, addresses]⟩
  · refine ⟨rfl, states, by decide, rfl, by decide, fun r v hv => ?_⟩
    unfold stateOf at hv
    split_ifs at hv with hr
    cases hv
    exact ⟨by simp [states, List.lookup], by simp [legacyKey, hr, states]⟩
  · refine ⟨rfl, peers, by decide, rfl, by decide, fun r v hv => ?_⟩
    unfold peerOf at hv
    split_ifs at hv with hr
    cases hv
    exact ⟨by simp [peers, List.lookup], by simp [legacyKey, hr, peers]⟩

def checked : Migration → Bool
  | .addColumn _ c => !c.notNull || c.default ≠ .null
  | .createIndex _ table columns _ =>
    demands.any fun d => d.table = table ∧ columns ⊆ d.required
  | .copyRows source target .. => source ≠ target
  | .fillColumn source target column key .. => source ≠ target ∧ key ≠ column
  | _ => true

theorem checked_schema : ∀ m ∈ schema, checked m = true := by decide

theorem WalletDb.suits (hs : WalletDb s) : ∀ m ∈ schema, m.Suits s := by
  intro m hm
  have hcheck := checked_schema m hm
  cases m with
  | addColumn table c =>
    intro hn hd
    simp [checked, hn, hd] at hcheck
  | createIndex name table columns unique =>
    simp only [checked, List.any_eq_true, decide_eq_true_eq] at hcheck
    obtain ⟨d, hd, rfl, hcols⟩ := hcheck
    exact fun t ht k hk => (hs d hd t ht).mem_names (hcols hk)
  | copyRows source target reads values =>
    obtain ⟨rfl, d, hd, rfl, hprim, hkey⟩ := copyRows_mem hm
    refine ⟨by simpa [checked] using hcheck, fun src t hsrc ht v hv k hk => ?_⟩
    obtain ⟨r, hr, hv⟩ := List.mem_filterMap.1 hv
    have hmet := hs d hd t ht
    have hk' : k ∈ d.primary := hmet.1 ▸ hk
    rw [Table.rowOf_of_lookup (t.within hk) ((hkey r v hv).1 k hk')]
    exact (hs packages (by decide) src hsrc).ne_null (hprim hk') hr
  | fillColumn source target column key reads pick =>
    simpa [checked, Migration.Suits] using hcheck
  | createTable => exact trivial
  | ensureColumn => exact trivial
  | createView => exact trivial

/-! ### What the statements promise -/

/-- Everything the schema asks for is there, and so is every row that would be copied. -/
def UpToDate (s : Store) : Prop := ∀ m ∈ schema, m.Promise s

theorem WalletDb.migrate (hs : WalletDb s) : WalletDb (migrate schema s).1 :=
  migrate_inv (fun _ hm _ _ hu hexec => hu.exec hm hexec) hs

theorem upToDate_of_migrate (hs : WalletDb s) (h : migrate schema s = (s', none)) :
    UpToDate s' :=
  promises_of_migrate (I := WalletDb) (fun _ hm _ _ hu hexec => hu.exec hm hexec)
    (fun m hm _ hu => hu.suits m hm) schema_ordered hs h

theorem inspects_schema :
    ∀ m ∈ schema, "props" ∉ m.inspects ∧ "accounts" ∉ m.inspects := by
  decide

theorem UpToDate.set {n : String} {t t' : Table} (hs : UpToDate s) (ht : s.tables n = some t)
    (hcols : t'.columns = t.columns) (hn : n = "props" ∨ n = "accounts") :
    UpToDate (s.set n t') := fun m hm => (hs m hm).set_rows ht hcols (by
  obtain rfl | rfl := hn
  · exact (inspects_schema m hm).1
  · exact (inspects_schema m hm).2)

/-! ### The parts of an opening -/

theorem createSchema_eq_ok (h : createSchema s = (s', none)) :
    ∃ u v, migrate schema s = (u, none) ∧ checkVersion u = .ok v ∧ useInternal v = .ok s' := by
  unfold createSchema at h
  cases hm : migrate schema s with
  | mk u e =>
    cases e with
    | some e => simp [hm] at h
    | none =>
      simp only [hm] at h
      cases hv : checkVersion u with
      | error e => simp [hv] at h
      | ok v =>
        simp only [hv] at h
        cases hi : useInternal v with
        | error e => simp [hi] at h
        | ok w =>
          simp only [hi, Prod.mk.injEq, and_true] at h
          exact ⟨u, v, rfl, hv, h ▸ hi⟩

theorem createSchema_eq_tooNew (h : createSchema s = (s', some .tooNew)) :
    migrate schema s = (s', none) ∧ checkVersion s' = .error .tooNew := by
  unfold createSchema at h
  cases hm : migrate schema s with
  | mk u e =>
    cases e with
    | some e => simp [hm] at h
    | none =>
      simp only [hm] at h
      cases hv : checkVersion u with
      | error e =>
        simp only [hv, Prod.mk.injEq, Option.some.injEq] at h
        obtain ⟨rfl, rfl⟩ := h
        exact ⟨rfl, hv⟩
      | ok v =>
        simp only [hv] at h
        cases hi : useInternal v <;> simp [hi] at h

def propValues (key value : String) : List (String × Value) :=
  [("key", .text key), ("value", .text value)]

theorem putProp_eq_ok {key value : String} (h : putProp key value s = .ok s') :
    ∃ t t', s.tables "props" = some t ∧ t.insertOrReplace (propValues key value) = some t' ∧
      s' = s.set "props" t' := by
  obtain ⟨t, t', ht, hf, rfl⟩ := Store.onTable_eq_ok.1 h
  exact ⟨t, t', ht, Store.orError_eq_ok.1 hf, rfl⟩

theorem mapError_eq_ok {α E F : Type} {x : Except E α} {f : E → F} {a : α} :
    x.mapError f = .ok a ↔ x = .ok a := by
  cases x <;> simp [Except.mapError]

theorem mapError_sql_ne_tooNew (x : Except String Store) :
    x.mapError SchemaError.sql ≠ .error .tooNew := by
  cases x <;> simp [Except.mapError]

theorem checkVersion_eq_ok (h : checkVersion s = .ok s') :
    putProp "version" (toString dbVersion) s = .ok s' := by
  unfold checkVersion at h
  split at h
  · cases h
  · exact mapError_eq_ok.1 h
  · split at h
    · cases h
    · split_ifs at h
      exact mapError_eq_ok.1 h

theorem useInternal_eq_ok (h : useInternal s = .ok s') :
    ∃ t t', s.tables "accounts" = some t ∧ s' = s.set "accounts" t' ∧
      t.setColumn "use_internal" (fun r =>
        if r "use_internal" = .null then .null else .int 1) = some t' := by
  obtain ⟨t, t', ht, hf, rfl⟩ := Store.onTable_eq_ok.1 h
  exact ⟨t, t', ht, rfl, Store.orError_eq_ok.1 hf⟩

/-! ### Opening twice -/

theorem propRow {t : Table} (ht : props.Met t) (key value : String) :
    t.rowOf (propValues key value) "key" = .text key ∧
      t.rowOf (propValues key value) "value" = .text value := by
  have hkey : "key" ∈ t.names := t.within (by rw [ht.1]; decide)
  have hvalue : "value" ∈ t.names := ht.mem_names (by decide)
  exact ⟨Table.rowOf_of_lookup hkey rfl, Table.rowOf_of_lookup hvalue rfl⟩

theorem propRow_ne_null {t : Table} (ht : props.Met t) (key value : String) :
    ∀ k ∈ t.primary, t.rowOf (propValues key value) k ≠ .null := by
  intro k hk
  rw [ht.1, props, List.mem_singleton] at hk
  rw [hk, (propRow ht key value).1]
  exact Value.noConfusion

theorem getProp_of_put {key value : String} {t t' : Table} (ht : props.Met t)
    (h : t.insertOrReplace (propValues key value) = some t') (hs : s.tables "props" = some t') :
    getProp s key = .ok (some value) := by
  obtain ⟨-, -, -, hrows⟩ := Table.insertOrReplace_eq_some h
  obtain ⟨hkey, hvalue⟩ := propRow ht key value
  have hfind : t'.rows.find? (fun r => r "key" = .text key) =
      some (t.rowOf (propValues key value)) := by
    rw [hrows, List.find?_append, List.find?_eq_none.2, Option.none_or]
    · simp [hkey]
    · intro q hq hqk
      have hq := (List.mem_filter.1 hq).2
      have hclash : clash t.primary (t.rowOf (propValues key value)) q = true := by
        rw [ht.1, clash_iff]
        intro k hk
        rw [props, List.mem_singleton] at hk
        rw [hk, hkey, of_decide_eq_true hqk]
        exact ⟨rfl, Value.noConfusion⟩
      have hany : (t.keys.any fun k => clash k (t.rowOf (propValues key value)) q) = true :=
        List.any_eq_true.2 ⟨t.primary, List.mem_cons_self, hclash⟩
      rw [hany] at hq
      cases hq
  simp [getProp, hs, hfind, hvalue]

theorem useInternal_setColumn {t t' : Table} (h : t.setColumn "use_internal" (fun r =>
      if r "use_internal" = .null then .null else .int 1) = some t') :
    t'.setColumn "use_internal" (fun r =>
      if r "use_internal" = .null then .null else .int 1) = some t' := by
  obtain ⟨hn, hcols, hkeys, -, hrows⟩ := Table.setColumn_eq_some h
  have hnames : t'.names = t.names := congrArg (List.map Column.name) hcols
  refine Table.setColumn_eq_self (hnames.symm ▸ hkeys.symm ▸ hn) fun r hr => ?_
  rw [hrows] at hr
  obtain ⟨q, -, rfl⟩ := List.mem_map.1 hr
  rw [Function.update_self]
  by_cases hq : q "use_internal" = .null <;> simp [hq]

/-- A second opening changes nothing. -/
theorem createSchema_again (hs : WalletDb s) (h : createSchema s = (s', none)) :
    createSchema s' = (s', none) := by
  obtain ⟨u, v, hm, hv, hi⟩ := createSchema_eq_ok h
  obtain ⟨p, p', hp, hput, rfl⟩ := putProp_eq_ok (checkVersion_eq_ok hv)
  obtain ⟨a, a', ha, rfl, hset⟩ := useInternal_eq_ok hi
  have hup := upToDate_of_migrate hs hm
  have hwallet : WalletDb u := by
    have := hs.migrate
    rwa [hm] at this
  have hmet : props.Met p := hwallet props (by decide) p hp
  obtain ⟨hcols, -⟩ := Table.insertOrReplace_eq_some hput
  obtain ⟨-, hacols, -, -, harows⟩ := Table.setColumn_eq_some hset
  have hup' : UpToDate ((u.set "props" p').set "accounts" a') :=
    (hup.set hp hcols (Or.inl rfl)).set ha hacols (Or.inr rfl)
  have hprops : ((u.set "props" p').set "accounts" a').tables "props" = some p' := by
    rw [Store.set_tables_of_ne (by decide), Store.set_tables_self]
  have hversion : checkVersion ((u.set "props" p').set "accounts" a') =
      .ok ((u.set "props" p').set "accounts" a') := by
    have hparse : parseUnsigned 16 (toString dbVersion) = some dbVersion := by rfl
    unfold checkVersion
    simp only [getProp_of_put hmet hput hprops, hparse, Nat.lt_irrefl, if_false]
    exact mapError_eq_ok.2 (Store.onTable_eq_ok.2 ⟨p', p', hprops, Store.orError_eq_ok.2
      (Table.insertOrReplace_idem (propRow_ne_null hmet _ _) hput),
      (Store.set_eq_self hprops).symm⟩)
  have hinternal : useInternal ((u.set "props" p').set "accounts" a') =
      .ok ((u.set "props" p').set "accounts" a') := by
    have haccounts := Store.set_tables_self (s := u.set "props" p') "accounts" a'
    have hself := useInternal_setColumn hset
    exact Store.onTable_eq_ok.2 ⟨a', a', haccounts, Store.orError_eq_ok.2 hself,
      (Store.set_eq_self haccounts).symm⟩
  unfold createSchema
  simp only [migrate_of_promises hup', hversion, hinternal]

/-! ### A version that is too new -/

/-- A database rejected as too new is untouched exactly when it lacked nothing. -/
theorem untouched_iff (hs : WalletDb s) (h : createSchema s = (s', some .tooNew)) :
    s' = s ↔ UpToDate s := by
  have hm := (createSchema_eq_tooNew h).1
  constructor
  · rintro rfl
    exact upToDate_of_migrate hs hm
  · intro hup
    rw [migrate_of_promises hup, Prod.mk.injEq] at hm
    exact hm.1.symm

/-! ### Rows that come back -/

/-- A package whose row has the key in the table it is copied to. -/
def Legacy (s : Store) (n : String) (k : List Value) : Prop :=
  ∃ r ∈ s.rowsOf "dkg_packages", legacyKey n r = some k

/-- What an opening adds to a table: the rows of packages, the version and the coin. -/
def Restored (s : Store) (n : String) (k : List Value) : Prop :=
  Legacy s n k ∨ n = "props" ∧ (k = [.text "version"] ∨ k = [.text "coin"])

/-- The statements at most create a table they are not meant to fill. -/
theorem target_schema {n : String} {t : Table}
    (h : schema.filter (fun m => m.target = some n) = [.createTable n t]) :
    ∀ m ∈ schema, m.target = some n → m = .createTable n t := by
  intro m hm ht
  have hmem : m ∈ schema.filter fun m => m.target = some n :=
    List.mem_filter.2 ⟨hm, decide_eq_true ht⟩
  rw [h] at hmem
  exact List.mem_singleton.1 hmem

theorem packages_target : ∀ m ∈ schema, m.target = some "dkg_packages" →
    m = .createTable "dkg_packages" dkgPackagesTable := target_schema rfl

theorem props_target : ∀ m ∈ schema, m.target = some "props" →
    m = .createTable "props" propsTable := target_schema rfl

theorem rowsOf_packages {m : Migration} (hm : m ∈ schema) (h : m.exec s = .ok s') :
    s'.rowsOf "dkg_packages" = s.rowsOf "dkg_packages" := by
  unfold Store.rowsOf
  obtain hsame | ⟨hnone, hnew⟩ := Migration.exec_created (packages_target m hm) h
  · rw [hsame]
  · rw [hnone, hnew]
    rfl

theorem keysOf_exec {m : Migration} (hs : WalletDb s) (hm : m ∈ schema) {n : String}
    (hn : (s.tables n).isSome) (h : m.exec s = .ok s') {k : List Value}
    (hk : k ∈ s'.keysOf n) : k ∈ s.keysOf n ∨ Legacy s n k := by
  obtain ⟨t, ht⟩ := Option.isSome_iff_exists.1 hn
  obtain ⟨t', ht', -⟩ := (Migration.exec_change h).grows.tables n t ht
  simp only [Store.keysOf, ht, ht', Option.elim_some] at hk ⊢
  obtain hk | ⟨source, reads, values, src, rfl, hsrc, v, hv, rfl⟩ :=
    Migration.exec_keyRows h ht ht' hk
  · exact Or.inl hk
  · obtain ⟨rfl, d, hd, rfl, -, hkey⟩ := copyRows_mem hm
    obtain ⟨r, hr, hv⟩ := List.mem_filterMap.1 hv
    have hrow : t.primary.map (t.rowOf v) = d.primary.map r := by
      rw [← (hs d hd t ht).1]
      exact List.map_congr_left fun c hc => Table.rowOf_of_lookup (t.within hc)
        ((hkey r v hv).1 c ((hs d hd t ht).1 ▸ hc))
    refine Or.inr ⟨r, ?_, hrow ▸ (hkey r v hv).2⟩
    rw [Store.rowsOf, hsrc]
    exact hr

theorem keysOf_migrate (hs : WalletDb s) {n : String} (hn : (s.tables n).isSome)
    {k : List Value} (hk : k ∈ (migrate schema s).1.keysOf n) :
    k ∈ s.keysOf n ∨ Legacy s n k := by
  have hinv := @migrate_inv schema s (fun u => WalletDb u ∧ (u.tables n).isSome ∧
      u.rowsOf "dkg_packages" = s.rowsOf "dkg_packages" ∧
      ∀ k ∈ u.keysOf n, k ∈ s.keysOf n ∨ Legacy s n k)
    (fun m hm u u' hu hexec => ?_) ⟨hs, hn, rfl, fun _ h => Or.inl h⟩
  · exact hinv.2.2.2 k hk
  · obtain ⟨hw, hsome, hrows, hkeys⟩ := hu
    refine ⟨hw.exec hm hexec, ?_, (rowsOf_packages hm hexec).trans hrows, fun k hk => ?_⟩
    · obtain ⟨t, ht⟩ := Option.isSome_iff_exists.1 hsome
      obtain ⟨t', ht', -⟩ := (Migration.exec_change hexec).grows.tables n t ht
      exact Option.isSome_iff_exists.2 ⟨t', ht'⟩
    · obtain hk | ⟨r, hr, hk⟩ := keysOf_exec hw hm hsome hexec hk
      · exact hkeys k hk
      · exact Or.inr ⟨r, hrows ▸ hr, hk⟩

theorem keysOf_put (hs : WalletDb s) {key value : String} (h : putProp key value s = .ok s')
    {n : String} {k : List Value} (hk : k ∈ s'.keysOf n) :
    k ∈ s.keysOf n ∨ n = "props" ∧ k = [.text key] := by
  obtain ⟨t, t', ht, hput, rfl⟩ := putProp_eq_ok h
  obtain rfl | hne := eq_or_ne n "props"
  · have hmet : props.Met t := hs props (by decide) t ht
    obtain ⟨-, hprim, -, hrows⟩ := Table.insertOrReplace_eq_some hput
    simp only [Store.keysOf, Store.set_tables_self, ht, Option.elim_some] at hk ⊢
    obtain ⟨r, hr, rfl⟩ := Table.mem_keyRows.1 hk
    rw [hrows] at hr
    obtain hr | hr := List.mem_append.1 hr
    · exact Or.inl (Table.mem_keyRows.2 ⟨r, List.mem_of_mem_filter hr, by rw [hprim]⟩)
    · refine Or.inr ⟨trivial, ?_⟩
      rw [List.mem_singleton.1 hr, hprim, hmet.1]
      change [t.rowOf (propValues key value) "key"] = _
      rw [(propRow hmet key value).1]
  · refine Or.inl ?_
    rwa [Store.keysOf, Store.set_tables_of_ne hne] at hk

theorem keysOf_useInternal (h : useInternal s = .ok s') (n : String) :
    s'.keysOf n = s.keysOf n := by
  obtain ⟨t, t', ht, rfl, hset⟩ := useInternal_eq_ok h
  obtain rfl | hne := eq_or_ne n "accounts"
  · simp only [Store.keysOf, Store.set_tables_self, ht, Option.elim_some]
    exact Table.setColumn_keyRows hset
  · rw [Store.keysOf, Store.set_tables_of_ne hne]
    rfl

/-- What the parts of an opening keep, an opening keeps, also one that fails. -/
theorem tryOpen_inv {I : Store → Prop} {coin : String} (hs : I (migrate schema s).1)
    (hput : ∀ key value u u', key = "version" ∨ key = "coin" → I u →
      putProp key value u = .ok u' → I u')
    (hint : ∀ u u', I u → useInternal u = .ok u' → I u') : I (tryOpen coin s).1 := by
  have hschema : I (createSchema s).1 := by
    unfold createSchema
    cases hm : migrate schema s with
    | mk u e =>
      rw [hm] at hs
      cases e with
      | some e => exact hs
      | none =>
        cases hv : checkVersion u with
        | error e => simpa only [hv] using hs
        | ok v =>
          have hinv := hput _ _ u v (Or.inl rfl) hs (checkVersion_eq_ok hv)
          cases hi : useInternal v with
          | error e => simpa only [hv, hi] using hinv
          | ok w => simpa only [hv, hi] using hint v w hinv hi
  unfold tryOpen
  cases hc : createSchema s with
  | mk u e =>
    rw [hc] at hschema
    cases e with
    | some e => exact hschema
    | none =>
      cases hp : putProp "coin" coin u with
      | error e => simpa only [hp] using hschema
      | ok v => simpa only [hp] using hput _ _ u v (Or.inr rfl) hschema hp

theorem WalletDb.put {key value : String} (hs : WalletDb s)
    (h : putProp key value s = .ok s') : WalletDb s' := by
  obtain ⟨t, t', ht, hput, rfl⟩ := putProp_eq_ok h
  obtain ⟨hcols, hprim, -⟩ := Table.insertOrReplace_eq_some hput
  exact hs.set ht hcols hprim

theorem WalletDb.useInternal (hs : WalletDb s) (h : useInternal s = .ok s') : WalletDb s' := by
  obtain ⟨t, t', ht, rfl, hset⟩ := useInternal_eq_ok h
  obtain ⟨-, hcols, -, hprim, -⟩ := Table.setColumn_eq_some hset
  exact hs.set ht hcols hprim

theorem WalletDb.tryOpen (hs : WalletDb s) (coin : String) : WalletDb (tryOpen coin s).1 :=
  tryOpen_inv hs.migrate (fun _ _ _ _ _ hu h => hu.put h) (fun _ _ hu h => hu.useInternal h)

theorem keysOf_tryOpen (hs : WalletDb s) {n : String} (hn : (s.tables n).isSome)
    {coin : String} {k : List Value} (hk : k ∈ (tryOpen coin s).1.keysOf n) :
    k ∈ s.keysOf n ∨ Restored s n k := by
  have hinv := @tryOpen_inv s
    (fun u => WalletDb u ∧ ∀ k ∈ u.keysOf n, k ∈ s.keysOf n ∨ Restored s n k) coin
    ⟨hs.migrate, fun k hk => (keysOf_migrate hs hn hk).imp id Or.inl⟩ ?_ ?_
  · exact hinv.2 k hk
  · rintro key value u u' hkey ⟨hu, hkeys⟩ hput
    refine ⟨hu.put hput, fun k hk => ?_⟩
    obtain hk | ⟨rfl, rfl⟩ := keysOf_put hu hput hk
    · exact hkeys k hk
    · refine Or.inr (Or.inr ⟨rfl, ?_⟩)
      obtain rfl | rfl := hkey
      · exact Or.inl rfl
      · exact Or.inr rfl
  · rintro u u' ⟨hu, hkeys⟩ hint
    refine ⟨hu.useInternal hint, fun k hk => hkeys k ?_⟩
    rwa [keysOf_useInternal hint] at hk

theorem isSome_set {n k : String} {t : Table} (h : (s.tables k).isSome) :
    ((s.set n t).tables k).isSome := by
  obtain rfl | hne := eq_or_ne k n
  · rw [Store.set_tables_self]
    rfl
  · rwa [Store.set_tables_of_ne hne]

theorem isSome_tryOpen {n : String} (hn : (s.tables n).isSome) (coin : String) :
    ((tryOpen coin s).1.tables n).isSome := by
  refine tryOpen_inv (I := fun u => (u.tables n).isSome) ?_ ?_ ?_
  · refine migrate_inv (I := fun u => (u.tables n).isSome) (fun m _ u u' hu hexec => ?_) hn
    obtain ⟨t, ht⟩ := Option.isSome_iff_exists.1 hu
    obtain ⟨t', ht', -⟩ := (Migration.exec_change hexec).grows.tables n t ht
    exact Option.isSome_iff_exists.2 ⟨t', ht'⟩
  · intro key value u u' _ hu hput
    obtain ⟨t, t', -, -, rfl⟩ := putProp_eq_ok hput
    exact isSome_set hu
  · intro u u' hu hint
    obtain ⟨t, t', -, rfl, -⟩ := useInternal_eq_ok hint
    exact isSome_set hu

/-! ### Histories -/

def shape (t : Table) : List Column × List String × List (List String) :=
  (t.columns, t.primary, t.uniques)

/-- An operation of the wallet changes rows and nothing else. -/
structure Operation (s s' : Store) : Prop where
  tables : ∀ n, (s'.tables n).map shape = (s.tables n).map shape
  indexes : s'.indexes = s.indexes
  views : s'.views = s.views

abbrev Deleted := String → List Value → Prop

def StoredTooNew (s : Store) : Prop :=
  ∃ version n, getProp s "version" = .ok (some version) ∧
    parseUnsigned 16 version = some n ∧ dbVersion < n

/-- A database that is too new lacks nothing, and nothing that was deleted can be restored. -/
structure OpensCleanly (s : Store) (deleted : Deleted) : Prop where
  complete : StoredTooNew s → UpToDate s
  forgotten : ∀ n k, deleted n k → k ∉ s.keysOf n → ¬Restored s n k

inductive History (s₀ : Store) : Store → Deleted → Prop
  | start : History s₀ s₀ fun _ _ => False
  | operation {s s' : Store} {deleted : Deleted} : History s₀ s deleted → Operation s s' →
      History s₀ s' fun n k => deleted n k ∨ k ∈ s.keysOf n ∧ k ∉ s'.keysOf n
  | reopening {s : Store} {deleted : Deleted} (coin : String) : History s₀ s deleted →
      OpensCleanly s deleted → History s₀ (tryOpen coin s).1 deleted

/-- An opening that refuses cleanly, may be repeated and brings no deleted row back. -/
structure OpensSafely (coin : String) (s : Store) (deleted : Deleted) : Prop where
  untouched : (createSchema s).2 = some .tooNew → (createSchema s).1 = s
  settled : (createSchema s).2 = none →
    createSchema (createSchema s).1 = ((createSchema s).1, none)
  gone : ∀ n k, deleted n k → k ∉ s.keysOf n → k ∉ (tryOpen coin s).1.keysOf n

theorem WalletDb.operation (hs : WalletDb s) (h : Operation s s') : WalletDb s' := by
  intro d hd t' ht'
  have hshape := h.tables d.table
  rw [ht', Option.map_some, eq_comm, Option.map_eq_some_iff] at hshape
  obtain ⟨t, ht, hshape⟩ := hshape
  simp only [shape, Prod.mk.injEq] at hshape
  obtain ⟨hp, hr⟩ := hs d hd t ht
  exact ⟨hshape.2.1.symm.trans hp, hshape.1 ▸ hr⟩

theorem isSome_operation (h : Operation s s') {n : String} (hn : (s.tables n).isSome) :
    (s'.tables n).isSome := by
  rw [← Option.isSome_map, h.tables n, Option.isSome_map]
  exact hn

theorem isSome_of_mem_keysOf {n : String} {k : List Value} (h : k ∈ s.keysOf n) :
    (s.tables n).isSome := by
  cases ht : s.tables n with
  | none => simp [Store.keysOf, ht] at h
  | some t => rfl

theorem History.wallet {s₀ : Store} {deleted : Deleted} (h₀ : WalletDb s₀)
    (h : History s₀ s deleted) :
    WalletDb s ∧ ∀ n k, deleted n k → (s.tables n).isSome := by
  induction h with
  | start => exact ⟨h₀, fun _ _ h => h.elim⟩
  | operation _ hop ih =>
    refine ⟨ih.1.operation hop, fun n k hd => isSome_operation hop ?_⟩
    obtain hd | ⟨hk, -⟩ := hd
    · exact ih.2 n k hd
    · exact isSome_of_mem_keysOf hk
  | reopening coin _ _ ih =>
    exact ⟨ih.1.tryOpen coin, fun n k hd => isSome_tryOpen (ih.2 n k hd) coin⟩

/-- The version is checked after the statements, none of which changes it. -/
theorem storedTooNew_of_createSchema (h : createSchema s = (s', some .tooNew)) :
    StoredTooNew s := by
  obtain ⟨hm, hv⟩ := createSchema_eq_tooNew h
  have hstored : StoredTooNew s' := by
    unfold checkVersion at hv
    split at hv
    · cases hv
    · exact absurd hv (mapError_sql_ne_tooNew _)
    · rename_i version hversion
      split at hv
      · cases hv
      · rename_i n hparse
        split_ifs at hv with hlt
        · exact ⟨version, n, hversion, hparse, hlt⟩
        · exact absurd hv (mapError_sql_ne_tooNew _)
  have hprops := migrate_created (s := s) props_target
  rw [hm] at hprops
  obtain hsame | ⟨-, hnew⟩ := hprops
  · unfold StoredTooNew getProp at hstored ⊢
    rwa [← hsame]
  · obtain ⟨version, n, hversion, -⟩ := hstored
    have hempty : getProp s' "version" = .ok none := by
      unfold getProp
      rw [show s'.tables "props" = some propsTable from hnew]
      rfl
    rw [hempty] at hversion
    cases hversion

/-- Openings of a history are safe as long as each of them is clean. -/
theorem reopening_safe {s₀ : Store} {deleted : Deleted} (h₀ : WalletDb s₀)
    (h : History s₀ s deleted) (hc : OpensCleanly s deleted) (coin : String) :
    OpensSafely coin s deleted := by
  obtain ⟨hs, hdel⟩ := h.wallet h₀
  refine ⟨fun hnew => ?_, fun hok => ?_, fun n k hd hk hback => ?_⟩
  · have hschema : createSchema s = ((createSchema s).1, some .tooNew) := Prod.ext rfl hnew
    exact (untouched_iff hs hschema).2 (hc.complete (storedTooNew_of_createSchema hschema))
  · exact createSchema_again hs (Prod.ext rfl hok)
  · obtain hback | hback := keysOf_tryOpen hs (hdel n k hd) hback
    · exact hk hback
    · exact hc.forgotten n k hd hk hback

/-! ### Operations that delete -/

theorem Operation.refl (s : Store) : Operation s s := ⟨fun _ => rfl, rfl, rfl⟩

theorem Operation.trans {u : Store} (h : Operation s s') (h' : Operation s' u) :
    Operation s u where
  tables := fun n => (h'.tables n).trans (h.tables n)
  indexes := h'.indexes.trans h.indexes
  views := h'.views.trans h.views

theorem Operation.set {n : String} {t t' : Table} (ht : s.tables n = some t)
    (hshape : shape t' = shape t) : Operation s (s.set n t') where
  tables := fun k => by
    obtain rfl | hne := eq_or_ne k n
    · rw [Store.set_tables_self, ht, Option.map_some, Option.map_some, hshape]
    · rw [Store.set_tables_of_ne hne]
  indexes := rfl
  views := rfl

theorem operation_deleteFrom {table : String} {p : Row → Bool}
    (h : deleteFrom table p s = .ok s') : Operation s s' := by
  obtain ⟨t, t', ht, hf, rfl⟩ := Store.onTable_eq_ok.1 h
  cases hf
  exact Operation.set ht rfl

theorem operation_put {key value : String} (h : putProp key value s = .ok s') :
    Operation s s' := by
  obtain ⟨t, t', ht, hput, rfl⟩ := putProp_eq_ok h
  obtain ⟨hcols, hprim, huniq, -⟩ := Table.insertOrReplace_eq_some hput
  exact Operation.set ht (by rw [shape, hcols, hprim, huniq, shape])

theorem bind_eq_ok {E α β : Type} {x : Except E α} {f : α → Except E β} {b : β} :
    (x >>= f) = .ok b ↔ ∃ a, x = .ok a ∧ f a = .ok b := by
  cases x <;> simp [bind, Except.bind]

theorem operation_foldlM {α : Type} {f : Store → α → Except String Store} {xs : List α}
    {s s' : Store} (hf : ∀ x u u', f u x = .ok u' → Operation u u') (h : xs.foldlM f s = .ok s') :
    Operation s s' := by
  induction xs generalizing s with
  | nil =>
    cases h
    exact Operation.refl _
  | cons x xs ih =>
    obtain ⟨u, hu, hrest⟩ := bind_eq_ok.1 ((List.foldlM_cons).symm.trans h)
    exact (hf x s u hu).trans (ih hrest)

theorem operation_deleteAccount {account : ℤ} (h : deleteAccount account s = .ok s') :
    Operation s s' := by
  obtain ⟨u, hu, h⟩ := bind_eq_ok.1 h
  obtain ⟨v, hv, h⟩ := bind_eq_ok.1 h
  obtain ⟨w, hw, h⟩ := bind_eq_ok.1 h
  obtain ⟨stored, -, h⟩ := bind_eq_ok.1 h
  have htables := operation_foldlM (fun _ _ _ hx => operation_deleteFrom hx) hu
  exact ((htables.trans (operation_deleteFrom hv)).trans (operation_deleteFrom hw)).trans
    (operation_put h)

theorem operation_cancelDkg {account : ℤ} (h : cancelDkg account s = .ok s') :
    Operation s s' := by
  obtain ⟨a, ha, h⟩ := bind_eq_ok.1 h
  obtain ⟨b, hb, h⟩ := bind_eq_ok.1 h
  obtain ⟨c, hc, h⟩ := bind_eq_ok.1 h
  obtain ⟨d, hd, h⟩ := bind_eq_ok.1 h
  obtain ⟨e, he, h⟩ := bind_eq_ok.1 h
  obtain ⟨v, hv, h⟩ := bind_eq_ok.1 h
  obtain ⟨w, hw, h⟩ := bind_eq_ok.1 h
  obtain ⟨x, hx, h⟩ := bind_eq_ok.1 h
  obtain ⟨y, hy, h⟩ := bind_eq_ok.1 h
  have hdkg := (((operation_deleteFrom ha).trans (operation_deleteFrom hb)).trans
    (operation_deleteFrom hc)).trans ((operation_deleteFrom hd).trans (operation_deleteFrom he))
  have hfrost := ((operation_deleteFrom hv).trans (operation_deleteFrom hw)).trans
    ((operation_deleteFrom hx).trans (operation_deleteFrom hy))
  exact (hdkg.trans hfrost).trans
    (operation_foldlM (fun _ _ _ hz => operation_deleteAccount hz) h)

/-! ### A cancelled key generation -/

instance (s : Store) : Decidable (WalletDb s) :=
  decidable_of_iff (∀ d ∈ demands, (s.tables d.table).all fun t => decide (d.Met t)) (by
    simp [WalletDb, Option.all_eq_true])

def emptyDb : Store := ⟨fun _ => none, [], []⟩

def versionTable (version : String) : Table :=
  (propsTable.insertOrReplace (propValues "version" version)).getD propsTable

def formerDb : Store :=
  (emptyDb.set "dkg_packages" <| (dkgPackagesTable.insertOrReplace
    [("id_dkg_package", .int 1), ("account", .int 1), ("public", .int 1), ("round", .int 1),
      ("from_id", .int 2), ("data", .blob [7])]).getD dkgPackagesTable).set "props" <|
    versionTable "8"

def opened : Store := (tryOpen "0" formerDb).1

def cancelled : Store := (cancelDkg 1 opened).toOption.getD opened

def emptied : Store := (deleteAccount 1 opened).toOption.getD opened

def laterDb : Store := cancelled.set "props" (versionTable "11")

theorem eq_ok_of_isSome {x : Except String Store} {u : Store}
    (h : x.toOption.isSome = true) : x = .ok (x.toOption.getD u) := by
  cases x with
  | error e => cases h
  | ok v => rfl

theorem operation_cancelled : Operation opened cancelled :=
  operation_cancelDkg (eq_ok_of_isSome (by decide +kernel))

theorem operation_emptied : Operation opened emptied :=
  operation_deleteAccount (eq_ok_of_isSome (by decide +kernel))

theorem not_storedTooNew {version : String} {n : ℕ}
    (hversion : getProp s "version" = .ok (some version)) (hn : parseUnsigned 16 version = some n)
    (hle : n ≤ dbVersion) : ¬StoredTooNew s := by
  rintro ⟨version', n', hversion', hn', hlt⟩
  rw [hversion] at hversion'
  cases hversion'
  rw [hn] at hn'
  cases hn'
  omega

theorem formerDb_opensCleanly : OpensCleanly formerDb fun _ _ => False where
  complete := fun h => absurd h (@not_storedTooNew _ "8" 8
    (by rfl) (by rfl) (by decide))
  forgotten := fun _ _ h => h.elim

theorem emptied_opensCleanly : OpensCleanly emptied fun n k =>
    False ∨ k ∈ opened.keysOf n ∧ k ∉ emptied.keysOf n where
  complete := fun h => absurd h (@not_storedTooNew _ "10" 10
    (by decide +kernel) (by decide +kernel) (by decide))
  forgotten := by
    rintro n k hd hk (⟨r, hr, -⟩ | ⟨rfl, hkey⟩)
    · have hrows : emptied.rowsOf "dkg_packages" = [] := by
        rw [← List.length_eq_zero_iff]
        decide +kernel
      rw [hrows] at hr
      cases hr
    · obtain rfl | rfl := hkey
      · exact hk (by decide +kernel)
      · exact hk (by decide +kernel)

/-- After the account is deleted with its packages an opening brings nothing back. -/
theorem emptied_stays_empty : OpensSafely "0" emptied fun n k =>
    False ∨ k ∈ opened.keysOf n ∧ k ∉ emptied.keysOf n :=
  reopening_safe (show WalletDb formerDb by decide)
    (.operation (.reopening "0" .start formerDb_opensCleanly) operation_emptied)
    emptied_opensCleanly "0"

/-- A rejected database is changed, and rows of a cancelled key generation come back. -/
theorem cancelled_comes_back :
    ((createSchema laterDb).2 = some .tooNew ∧
        laterDb.keysOf "dkg_peers" = [] ∧
        (createSchema laterDb).1.keysOf "dkg_peers" = [[.int 1, .int 1, .int 2]]) ∧
      WalletDb formerDb ∧ cancelDkg 1 opened = .ok cancelled ∧
      ∃ deleted, History formerDb cancelled deleted ∧
        deleted "dkg_peers" [.int 1, .int 1, .int 2] ∧ ¬OpensSafely "0" cancelled deleted := by
  refine ⟨by decide +kernel, by decide +kernel, eq_ok_of_isSome (by decide +kernel), _,
    .operation (.reopening "0" .start formerDb_opensCleanly) operation_cancelled,
    Or.inr (by decide +kernel), fun hsafe => ?_⟩
  exact hsafe.gone "dkg_peers" [.int 1, .int 1, .int 2] (Or.inr (by decide +kernel))
    (by decide +kernel) (by decide +kernel)

end ZcashSdk.Schema
