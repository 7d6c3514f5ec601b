import ZcashSdk.Lib.Migrations

set_option autoImplicit false

/-!
# The schema of a wallet database

Every opening creates what the schema lacks, copies the rows of the former key generation
table into its successors, and only then compares the stored version with its own.
-/
namespace ZcashSdk.Schema
open Sql

/-! ### The tables -/

def column (name type : String) : Column := ⟨name, type, false, .null⟩

/-- A row number is never null. -/
def rowNumber (name : String) : Column := ⟨name, "INTEGER PRIMARY KEY", true, .null⟩

def required (name type : String) : Column := ⟨name, type, true, .null⟩

def withDefault (name type : String) (value : Value) : Column := ⟨name, type, true, value⟩

/-- Column names are compared without case; the value of a property is declared `VALUE`. -/
def propsTable : Table :=
  .empty [column "key" "TEXT", required "value" "TEXT"] ["key"] [] (by decide) (by decide)

def accountsTable : Table :=
  .empty [rowNumber "id_account", required "name" "TEXT", column "seed" "TEXT",
    withDefault "passphrase" "TEXT" (.text ""), column "seed_fingerprint" "BLOB",
    required "aindex" "INTEGER", required "dindex" "INTEGER", required "def_dindex" "INTEGER",
    column "icon" "BLOB", required "birth" "INTEGER", required "position" "INTEGER",
    required "use_internal" "BOOL", required "hidden" "BOOL", required "saved" "BOOL",
    withDefault "enabled" "BOOL" (.int 1), withDefault "internal" "BOOL" (.int 0),
    withDefault "can_sign" "INTEGER" (.int 0)]
    ["id_account"] [] (by decide) (by decide)

def accountKeysTable (viewing : Column) : Table :=
  .empty [rowNumber "account", column "xsk" "BLOB", viewing] ["account"] []
    (by simp) (by simp [rowNumber])

def transparentAddressAccountsTable : Table :=
  .empty [rowNumber "id_taddress", required "account" "INTEGER",
    required "scope" "INTEGER", required "dindex" "INTEGER", column "sk" "BLOB",
    required "pk" "BLOB", required "address" "TEXT"]
    ["id_taddress"] [["account", "scope", "dindex"]] (by decide) (by decide)

def syncHeightsTable : Table :=
  .empty [column "account" "INTEGER", required "pool" "INTEGER", required "height" "INTEGER"]
    ["account", "pool"] [] (by decide) (by decide)

def headersTable : Table :=
  .empty [rowNumber "height", required "hash" "BLOB", required "time" "INTEGER"]
    ["height"] [] (by decide) (by decide)

def notesTable : Table :=
  .empty [rowNumber "id_note", required "height" "INTEGER", required "account" "INTEGER",
    required "pool" "INTEGER", column "scope" "INTEGER", required "nullifier" "BLOB",
    required "tx" "INTEGER", required "value" "INTEGER", column "cmx" "BLOB",
    column "taddress" "INTEGER", column "position" "INTEGER", column "diversifier" "BLOB",
    column "rcm" "BLOB", column "rho" "BLOB", withDefault "locked" "BOOL" (.int 0),
    column "id_asset" "INTEGER", column "diversifier_index" "INTEGER"]
    ["id_note"] [["account", "nullifier"]] (by decide) (by decide)

def spendsTable : Table :=
  .empty [rowNumber "id_note", required "height" "INTEGER", required "account" "INTEGER",
    required "pool" "INTEGER", required "tx" "INTEGER", required "value" "INTEGER"]
    ["id_note"] [] (by decide) (by decide)

def transactionsTable : Table :=
  .empty [rowNumber "id_tx", required "txid" "BLOB", required "height" "INTEGER",
    required "account" "INTEGER", column "time" "INTEGER",
    withDefault "details" "BOOL" (.int 0), column "tpe" "INTEGER",
    withDefault "value" "INTEGER" (.int 0), withDefault "fee" "INTEGER" (.int 0)]
    ["id_tx"] [["account", "txid"]] (by decide) (by decide)

def witnessesTable : Table :=
  .empty [rowNumber "id_witness", required "account" "INTEGER", required "note" "INTEGER",
    required "height" "INTEGER", required "witness" "BLOB"]
    ["id_witness"] [["note", "height"]] (by decide) (by decide)

def outputsTable : Table :=
  .empty [rowNumber "id_output", required "account" "INTEGER", required "height" "INTEGER",
    required "tx" "INTEGER", required "pool" "INTEGER", required "vout" "INTEGER",
    required "value" "INTEGER", required "address" "TEXT"]
    ["id_output"] [["tx", "pool", "vout"]] (by decide) (by decide)

def memosTable : Table :=
  .empty [rowNumber "id_memo", required "account" "INTEGER", required "height" "INTEGER",
    required "tx" "INTEGER", required "pool" "INTEGER", required "vout" "INTEGER",
    column "note" "INTEGER", column "output" "INTEGER", column "memo_text" "TEXT",
    required "memo_bytes" "BLOB"]
    ["id_memo"] [["tx", "pool", "vout"]] (by decide) (by decide)

/-- It has no primary key; its unique key identifies a row. -/
def userMemosTable : Table :=
  .empty [required "account" "INTEGER", required "id_tx" "INTEGER", required "user_memo" "TEXT"]
    ["account", "id_tx"] [] (by decide) (by decide)

def assetsTable : Table :=
  .empty [rowNumber "id_asset", required "asset_desc_hash" "BLOB", required "ik" "BLOB",
    required "asset_base" "BLOB", withDefault "finalized" "BOOL" (.int 0),
    required "first_seen_height" "INTEGER"]
    ["id_asset"] [["asset_desc_hash", "ik"], ["asset_base"]] (by decide) (by decide)

def dkgParamsTable : Table :=
  .empty [rowNumber "account", required "id" "INTEGER", required "n" "INTEGER",
    required "t" "INTEGER", required "seed" "TEXT", required "birth_height" "INTEGER",
    withDefault "name" "TEXT" (.text "")]
    ["account"] [] (by decide) (by decide)

/-- The table of the key generation before its rows were split over three. -/
def dkgPackagesTable : Table :=
  .empty [rowNumber "id_dkg_package", required "account" "INTEGER",
    required "public" "BOOL", required "round" "INTEGER", required "from_id" "INTEGER",
    required "data" "BLOB"]
    ["id_dkg_package"] [["account", "public", "round", "from_id"]] (by decide) (by decide)

def dkgAddressesTable : Table :=
  .empty [required "account" "INTEGER", required "from_id" "INTEGER", required "address" "TEXT"]
    ["account", "from_id"] [] (by decide) (by decide)

def dkgStateTable : Table :=
  .empty [rowNumber "account", column "spkg1" "BLOB", column "spkg2" "BLOB",
    column "key_pkg" "BLOB"] ["account"] [] (by decide) (by decide)

def dkgPeersTable : Table :=
  .empty [required "account" "INTEGER", required "round" "INTEGER", required "from_id" "INTEGER",
    required "data" "BLOB"] ["account", "round", "from_id"] [] (by decide) (by decide)

def frostSignaturesTable : Table :=
  .empty [rowNumber "id_signature", required "account" "INTEGER",
    required "sighash" "BLOB", required "idx" "INTEGER", required "nonce" "BLOB",
    column "sigpackage" "BLOB", column "randomizer" "BLOB", column "sigshare" "BLOB",
    column "signature" "BLOB"]
    ["id_signature"] [["account", "sighash", "idx"]] (by decide) (by decide)

def frostCommitmentsTable : Table :=
  .empty [rowNumber "id_nonce", required "account" "INTEGER", required "sighash" "BLOB",
    required "idx" "INTEGER", required "from_id" "INTEGER", required "commitment" "BLOB",
    column "sigshare" "BLOB"]
    ["id_nonce"] [["account", "sighash", "idx", "from_id"]] (by decide) (by decide)

def foldersTable : Table :=
  .empty [rowNumber "id_folder", required "name" "TEXT"] ["id_folder"] [] (by decide)
    (by decide)

def defaultCategories : List (String × Bool) :=
  [("Salary", true), ("Investment Income/Mining", true), ("Rental/Property Income", true),
    ("Other Income", true), ("Housing & Utilities", false), ("Food & Groceries", false),
    ("Restaurants & Coffee", false), ("Transportation & Hotels", false),
    ("Health & Insurance", false), ("Debt & Financial Obligations", false),
    ("Education & Training", false), ("Entertainment & Lifestyle", false),
    ("Personal & Family Care", false), ("Savings & Investments", false),
    ("Other Expenses", false)]

def flag (b : Bool) : Value := .int (if b then 1 else 0)

/-- A new table is filled once; the names differ, so no row replaces another. -/
def categoriesTable : Table :=
  defaultCategories.foldl (fun t c => (t.insertOrReplace
      [("id_category", .int (t.rows.length + 1)), ("name", .text c.1), ("income", flag c.2)]).getD t)
    (.empty [rowNumber "id_category", required "name" "TEXT", required "income" "BOOL"]
      ["id_category"] [["name"]] (by decide) (by decide))

def pendingTxsTable : Table :=
  .empty [rowNumber "id_pending_tx", required "account" "INTEGER", required "txid" "BLOB",
    required "height" "INTEGER", column "price" "REAL", column "category" "INTEGER",
    column "expiry_height" "INTEGER"]
    ["id_pending_tx"] [["account", "txid"]] (by decide) (by decide)

def pendingSpendInputsTable : Table :=
  .empty [required "account" "INTEGER", required "nullifier" "BLOB",
    required "owner_txid" "BLOB", required "expiry_height" "INTEGER"]
    ["account", "nullifier"] [] (by decide) (by decide)

def contactsTable : Table :=
  .empty [rowNumber "id_contact", required "name" "TEXT",
    withDefault "notes" "TEXT" (.text "")]
    ["id_contact"] [["name"]] (by decide) (by decide)

def contactAddressesTable : Table :=
  .empty [rowNumber "id_address",
    required "contact_id" "INTEGER REFERENCES contacts(id_contact) ON DELETE CASCADE",
    required "address" "TEXT", required "receiver" "TEXT", required "pool" "INTEGER",
    withDefault "ordinal" "INTEGER" (.int 0)]
    ["id_address"] [] (by decide) (by decide)

def pluginsTable : Table :=
  .empty [column "id" "TEXT", required "name" "TEXT", required "version" "TEXT",
    column "author" "TEXT", column "description" "TEXT", required "min_app_version" "TEXT",
    required "types" "TEXT", withDefault "enabled" "INTEGER" (.int 1),
    required "install_dir" "TEXT", required "script" "TEXT", required "manifest_json" "TEXT"]
    ["id"] [] (by decide) (by decide)

/-! ### The former key generation table -/

/-- A cast to text reads bytes as UTF-8. -/
def castText : Value → Value
  | .blob b => (String.fromUTF8? ⟨b.toArray⟩).elim (.blob b) .text
  | .int n => .text (toString n)
  | v => v

def isRound (r : Row) : Bool := r "round" = .int 1 || r "round" = .int 2 || r "round" = .int 3

def isAddress (r : Row) : Bool := r "round" = .int 0 && r "public" = .int 1

def isSecret (r : Row) : Bool := r "public" = .int 0 && isRound r

def isPeer (r : Row) : Bool := r "public" = .int 1 && isRound r

def addressOf (r : Row) : Option (List (String × Value)) :=
  if isAddress r then
    some [("account", r "account"), ("from_id", r "from_id"), ("address", castText (r "data"))]
  else none

/-- The duplicates that `DISTINCT` leaves out are ignored when they are inserted. -/
def stateOf (r : Row) : Option (List (String × Value)) :=
  if isSecret r then some [("account", r "account")] else none

def peerOf (r : Row) : Option (List (String × Value)) :=
  if isPeer r then
    some [("account", r "account"), ("round", r "round"), ("from_id", r "from_id"),
      ("data", r "data")]
  else none

def secretOf (round : ℤ) (account : Value) (packages : List Row) : Value :=
  (packages.find? fun r =>
    r "account" = account && account ≠ .null && r "round" = .int round &&
      r "public" = .int 0).elim .null fun r => r "data"

def packageColumns : List String := ["account", "round", "public", "from_id", "data"]

def migrateDkgPackages : List Migration :=
  [.copyRows "dkg_packages" "dkg_addresses" packageColumns addressOf,
    .copyRows "dkg_packages" "dkg_state" packageColumns stateOf,
    .fillColumn "dkg_packages" "dkg_state" "spkg1" "account" packageColumns (secretOf 1),
    .fillColumn "dkg_packages" "dkg_state" "spkg2" "account" packageColumns (secretOf 2),
    .fillColumn "dkg_packages" "dkg_state" "key_pkg" "account" packageColumns (secretOf 3),
    .copyRows "dkg_packages" "dkg_peers" packageColumns peerOf]

/-! ### The statements before the version check -/

/-- An account with a seed can sign. -/
def canSign (r : Row) : Value := flag (r "seed_fingerprint" ≠ .null)

def transparentAddressColumns : List Column :=
  [column "backfilled_height" "INTEGER", withDefault "seen_used" "BOOL" (.int 0),
    column "catch_up_owed_through" "INTEGER"]

def migrateAddressColumns : List Migration :=
  transparentAddressColumns.map fun c =>
    .ensureColumn "transparent_address_accounts" c [] fun _ => c.default

def accountStatements : List Migration :=
  [.createTable "props" propsTable,
    .createTable "accounts" accountsTable,
    .ensureColumn "accounts" (withDefault "can_sign" "INTEGER" (.int 0)) ["seed_fingerprint"]
      canSign,
    .createTable "transparent_accounts" (accountKeysTable (column "xvk" "BLOB")),
    .createTable "transparent_address_accounts" transparentAddressAccountsTable,
    .addColumn "transparent_address_accounts" (withDefault "uncompressed" "BOOL" (.int 0))] ++
  migrateAddressColumns ++
  [.createTable "sapling_accounts" (accountKeysTable (required "xvk" "BLOB")),
    .addColumn "sapling_accounts" (withDefault "address" "BLOB" (.text "")),
    .createTable "orchard_accounts" (accountKeysTable (required "xvk" "BLOB"))]

def noteStatements : List Migration :=
  [.createTable "sync_heights" syncHeightsTable,
    .createTable "headers" headersTable,
    .createTable "notes" notesTable,
    .createTable "spends" spendsTable,
    .createTable "transactions" transactionsTable,
    .createTable "witnesses" witnessesTable,
    .createTable "outputs" outputsTable,
    .createTable "memos" memosTable,
    .createTable "user_memos" userMemosTable,
    .createTable "assets" assetsTable,
    .addColumn "notes" (column "id_asset" "INTEGER REFERENCES assets(id_asset)"),
    .addColumn "notes" (column "diversifier_index" "INTEGER"),
    .addColumn "assets" (column "asset_name" "TEXT")]

def dkgStatements : List Migration :=
  [.createTable "dkg_params" dkgParamsTable,
    .createTable "dkg_packages" dkgPackagesTable,
    .createTable "dkg_addresses" dkgAddressesTable,
    .createTable "dkg_state" dkgStateTable,
    .createTable "dkg_peers" dkgPeersTable,
    .createTable "frost_signatures" frostSignaturesTable,
    .createTable "frost_commitments" frostCommitmentsTable]

def laterStatements : List Migration :=
  [.addColumn "accounts" (column "folder" "INTEGER"),
    .createTable "folders" foldersTable,
    .addColumn "transactions" (column "category" "INTEGER"),
    .addColumn "transactions" (column "price" "REAL"),
    .addColumn "transactions" (withDefault "zsa_value" "INTEGER" (.int 0)),
    .addColumn "transactions" (column "asset_id" "INTEGER REFERENCES assets(id_asset)"),
    .createTable "categories" categoriesTable,
    .createTable "pending_txs" pendingTxsTable,
    .addColumn "pending_txs" (column "expiry_height" "INTEGER"),
    .createTable "pending_spend_inputs" pendingSpendInputsTable,
    .createView "active_pending_spend_inputs",
    .createTable "contacts" contactsTable,
    .createTable "contact_addresses" contactAddressesTable]

def lastColumns : List Migration :=
  [.createTable "plugins" pluginsTable,
    .addColumn "accounts" (withDefault "hw" "INTEGER" (.int 0)),
    .addColumn "dkg_params" (withDefault "name" "TEXT" (.text "")),
    .addColumn "dkg_state" (column "signing_keypair" "BLOB")]

/-- What runs before the version check, in its order. -/
def schema : List Migration :=
  accountStatements ++ noteStatements ++
  [.createIndex "idx_assets_asset_base" "assets" ["asset_base"] true] ++
  dkgStatements ++ laterStatements ++
  [.createIndex "idx_contact_receiver" "contact_addresses" ["receiver", "pool"] false] ++
  lastColumns ++ migrateDkgPackages

/-- A statement may run after those before it without breaking what they promise. -/
theorem schema_ordered : schema.Pairwise fun m m' => m'.mayFollow m = true := by decide

/-! ### Properties -/

def getProp (s : Store) (key : String) : Except String (Option String) :=
  match s.tables "props" with
  | none => .error "no such table: props"
  | some t =>
    match t.rows.find? fun r => r "key" = .text key with
    | none => .ok none
    | some r =>
      match r "value" with
      | .text value => .ok (some value)
      | _ => .error "mismatched types"

def putProp (key value : String) (s : Store) : Except String Store :=
  s.onTable "props" fun t => Store.orError "constraint failed: props"
    (t.insertOrReplace [("key", .text key), ("value", .text value)])

/-! ### Opening -/

def dbVersion : ℕ := 10

inductive SchemaError where
  | sql (message : String)
  | invalidVersion (stored : String)
  | tooNew
  deriving DecidableEq

def SchemaError.message : SchemaError → String
  | .sql message => message
  | .invalidVersion stored => s!"invalid digit or number too large: {stored}"
  | .tooNew => s!"This app version only supports up to db version {dbVersion}"

/-- An unsigned number of some bits: digits after an optional plus sign. -/
def parseUnsigned (bits : ℕ) (s : String) : Option ℕ :=
  let digits : List Char := match s.toList with
    | '+' :: ds => ds
    | ds => ds
  let n : ℕ := digits.foldl (fun n d => 10 * n + (d.toNat - 48)) 0
  if digits ≠ [] ∧ digits.all Char.isDigit ∧ n < 2 ^ bits then some n else none

def checkVersion (s : Store) : Except SchemaError Store :=
  match getProp s "version" with
  | .error e => .error (.sql e)
  | .ok none => (putProp "version" (toString dbVersion) s).mapError .sql
  | .ok (some version) =>
    match parseUnsigned 16 version with
    | none => .error (.invalidVersion version)
    | some n =>
      if dbVersion < n then .error .tooNew
      else (putProp "version" (toString dbVersion) s).mapError .sql

/-- A null is not unequal to one. -/
def useInternal (s : Store) : Except String Store := s.onTable "accounts" fun t =>
  Store.orError "no such column: use_internal" (t.setColumn "use_internal" fun r =>
    if r "use_internal" = .null then .null else .int 1)

/-- No transaction is around the statements: what ran before an error stays. -/
def createSchema (s : Store) : Store × Option SchemaError :=
  match migrate schema s with
  | (s, some e) => (s, some (.sql e))
  | (s, none) =>
    match checkVersion s with
    | .error e => (s, some e)
    | .ok s =>
      match useInternal s with
      | .error e => (s, some (.sql e))
      | .ok s => (s, none)

def tryOpen (coin : String) (s : Store) : Store × Option SchemaError :=
  match createSchema s with
  | (s, some e) => (s, some e)
  | (s, none) =>
    match putProp "coin" coin s with
    | .error e => (s, some (.sql e))
    | .ok s => (s, none)

/-! ### Cancelling a key generation -/

def deleteFrom (table : String) (p : Row → Bool) (s : Store) : Except String Store :=
  s.onTable table fun t => .ok (t.deleteWhere p)

def ofAccount (account : ℤ) (r : Row) : Bool := r "account" = .int account

/-- `LIKE` of a pattern that ends with `%`, which is left out. -/
def like : List Char → List Char → Bool
  | [], _ => true
  | _ :: _, [] => false
  | p :: ps, c :: cs => (p = '_' || p.toLower = c.toLower) && like ps cs

def isLike (pattern : String) : Value → Bool
  | .text s => like pattern.toList s.toList
  | _ => false

/-- The counter of an account's incarnations outlives it. -/
def retireTransparentWalks (account : ℤ) (s : Store) : Except String Store := do
  let stored ← getProp s s!"tcov_life:{account}"
  let incarnation := (stored.bind (parseUnsigned 32)).getD 0
  putProp s!"tcov_life:{account}" (toString ((incarnation + 1) % 2 ^ 32)) s

def clearTransparentCoverage (account : ℤ) (s : Store) : Except String Store := do
  let s ← deleteFrom "props" (fun r => r "key" = .text s!"tcov_trim:{account}" ||
    r "key" = .text s!"tcov_certified:{account}") s
  retireTransparentWalks account s

/-- The tables of an account's rows, in the order they are emptied in. -/
def accountTables : List String :=
  ["pending_spend_inputs", "pending_txs", "dkg_params", "dkg_packages", "dkg_addresses",
    "dkg_state", "dkg_peers", "frost_signatures", "frost_commitments", "outputs", "memos",
    "witnesses", "notes", "spends", "transactions", "sync_heights", "transparent_accounts",
    "transparent_address_accounts", "sapling_accounts", "orchard_accounts"]

def deleteAccount (account : ℤ) (s : Store) : Except String Store := do
  let s ← accountTables.foldlM (fun s table => deleteFrom table (ofAccount account) s) s
  let s ← deleteFrom "accounts" (fun r => r "id_account" = .int account) s
  clearTransparentCoverage account s

def frostAccounts (s : Store) : List ℤ := (s.rowsOf "accounts").filterMap fun r =>
  match r "id_account" with
  | .int account => if isLike "frost-" (r "name") ∧ r "internal" = .int 1 then some account else none
  | _ => none

def deleteFrostState (s : Store) : Except String Store := do
  let s ← deleteFrom "frost_signatures" (fun _ => true) s
  let s ← deleteFrom "frost_commitments" (fun _ => true) s
  let s ← deleteFrom "props" (fun r => isLike "frost_" (r "key")) s
  let s ← deleteFrom "props" (fun r => isLike "dkg_" (r "key")) s
  (frostAccounts s).foldlM (fun s account => deleteAccount account s) s

/-- The packages of the account stay. -/
def cancelDkg (account : ℤ) (s : Store) : Except String Store := do
  let s ← deleteFrom "dkg_state" (ofAccount account) s
  let s ← deleteFrom "dkg_peers" (ofAccount account) s
  let s ← deleteFrom "dkg_addresses" (ofAccount account) s
  let s ← deleteFrom "dkg_params" (ofAccount account) s
  let s ← deleteFrom "props" (fun r => isLike "dkg_" (r "key")) s
  deleteFrostState s

end ZcashSdk.Schema
