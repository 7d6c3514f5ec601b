import ZcashSdk.Keys.Formats
import ZcashSdk.Lib.Table

set_option autoImplicit false

/-!
# Restoring an account from a key

An account is made in one transaction, from a text of any of the formats. What it can sign
is decided from the text before, and checked against the stored viewing keys when it signs.
-/
namespace ZcashSdk.Keys
open Tables Shielded Loops
open Api (Network)

/-! ### Accounts -/

structure AddressRow where
  scope : ℕ
  dindex : ℕ
  pk : Bytes
  address : String
  uncompressed : Bool
  deriving DecidableEq

/-- An account with its rows in the tables of the pools, which come and go with it. A transparent
    account may lack a viewing key. -/
structure AccountRow where
  idAccount : ℕ
  name : String
  icon : Option Bytes
  seedFingerprint : Option Bytes
  aindex : ℕ
  dindex : ℕ
  birth : ℕ
  position : ℕ
  useInternal : Bool
  internal : Bool
  canSign : Bool
  transparent : Option (Option Bytes)
  addresses : List AddressRow
  sapling : Option (Bytes × String)
  orchard : Option Bytes
  deriving DecidableEq

instance : Row AccountRow where
  Clash a b := a.idAccount = b.idAccount
  clash_refl _ := rfl
  clash_symm h := h.symm
  decClash _ _ := inferInstanceAs (Decidable (_ = _))

structure Database where
  accounts : Table AccountRow

/-- What is asked of `new_account`, but for accounts of a hardware wallet. -/
structure NewAccount where
  name : String
  icon : Option Bytes
  key : String
  passphrase : Option String
  fingerprint : Option Bytes
  aindex : ℕ
  birth : Option ℕ
  pools : Option ℕ
  useInternal : Bool
  internal : Bool

def allPools : ℕ := 15

/-- The account is restored from the key, or made from a new one where there is none. -/
def buildNewAccount (name key : String) (passphrase : Option String) (birthHeight : ℤ)
    (pools : UInt8) (aindex : ℕ) : NewAccount :=
  ⟨name, none, key, passphrase, none, aindex,
    if 0 < birthHeight then some birthHeight.toNat else none, some pools.toNat, true, false⟩

/-! ### Statements -/

def uniqueFailed : Fault := .error "UNIQUE constraint failed"

def initAccountTransparent (a : AccountRow) : Except Fault AccountRow :=
  if a.transparent.isSome then .error uniqueFailed else .ok { a with transparent := some none }

def storeAccountTransparentVk (xvk : Bytes) (a : AccountRow) : AccountRow :=
  { a with transparent := a.transparent.map fun _ => some xvk }

/-- `ON CONFLICT DO NOTHING`. -/
def storeAccountTransparentAddr (row : AddressRow) (a : AccountRow) : AccountRow :=
  if a.addresses.any fun r => r.scope = row.scope && r.dindex = row.dindex then a
  else { a with addresses := a.addresses ++ [row] }

def initAccountSapling (a : AccountRow) : Except Fault AccountRow :=
  if a.sapling.isSome then .error uniqueFailed else .ok { a with sapling := some ([], "") }

def storeAccountSaplingVk (xvk : Bytes) (address : String) (a : AccountRow) : AccountRow :=
  { a with sapling := a.sapling.map fun _ => (xvk, address) }

def initAccountOrchard (a : AccountRow) : Except Fault AccountRow :=
  if a.orchard.isSome then .error uniqueFailed else .ok { a with orchard := some [] }

def storeAccountOrchardVk (xvk : Bytes) (a : AccountRow) : AccountRow :=
  { a with orchard := a.orchard.map fun _ => xvk }

/-! ### The formats -/

section Restore
variable (lib : KeyLib) (network : Network) (pools : ℕ)

def unwrap {α : Type} : Option α → Except Fault α
  | some a => .ok a
  | none => .error (.panic "called `Option::unwrap()` on a `None` value")

/-- Viewing keys and addresses are numbered by a `u32`. -/
def toU32 (di : ℕ) : Except Fault ℕ :=
  if di < 2 ^ 32 then .ok di else .error (.error "out of range integral type conversion attempted")

def storeDerived (xvk : Bytes) (dindex : ℕ) (a : AccountRow) : Except Fault AccountRow := do
  let pk ← unwrap (lib.deriveAddressPubkey xvk 0 dindex)
  .ok (storeAccountTransparentAddr ⟨0, dindex, pk, lib.p2pkhAddress network pk, false⟩ a)

def storeTransparent (xvk : Bytes) (dindexes : List ℕ) (a : AccountRow) :
    Except Fault AccountRow := do
  let a ← initAccountTransparent a
  dindexes.foldlM (fun a dindex => storeDerived lib network xvk dindex a)
    (storeAccountTransparentVk xvk a)

def storeSapling (xvk : Bytes) (address : Option String) (a : AccountRow) :
    Except Fault AccountRow := do
  let a ← initAccountSapling a
  let address ← unwrap address
  .ok (storeAccountSaplingVk xvk address a)

def storeOrchard (xvk : Bytes) (a : AccountRow) : Except Fault AccountRow := do
  let a ← initAccountOrchard a
  .ok (storeAccountOrchardVk xvk a)

def whenAsked (pool : ℕ) (f : AccountRow → Except Fault AccountRow) (a : AccountRow) :
    Except Fault AccountRow :=
  if pools.testBit pool then f a else .ok a

def restorePhrase (phrase passphrase : String) (aindex : ℕ) (a : AccountRow) :
    Except Fault AccountRow := do
  let aindex ← unwrap (accountId aindex)
  let (usk, fingerprint) ← uskFromPhrase lib network phrase passphrase aindex
  let a := { a with seedFingerprint := some fingerprint, aindex := aindex }
  match lib.defaultAddress network (lib.toUfvk usk) with
  | .error e => .error (.error e)
  | .ok (_, di) => do
    let dindex ← toU32 di
    let xvk := lib.accountPubKey (lib.uskTransparent usk)
    -- not two addresses if the index is zero
    let a ← whenAsked pools 0
      (storeTransparent lib network xvk (if dindex = 0 then [0] else [0, dindex])) a
    let sxvk := lib.dfvk (lib.uskSapling usk)
    let a ← whenAsked pools 1 (storeSapling sxvk (lib.saplingAddress network sxvk dindex)) a
    let a ← whenAsked pools 2 (storeOrchard (lib.uskOrchardFvk usk)) a
    .ok { a with dindex := dindex }

/-- A single public key has an address and no viewing key. -/
def storeSingle (pk : Bytes) (uncompressed : Bool) (a : AccountRow) : AccountRow :=
  storeAccountTransparentAddr ⟨0, 0, pk, lib.p2pkhAddress network pk, uncompressed⟩ a

def restoreTransparent (key : String) (a : AccountRow) : Except Fault AccountRow :=
  match lib.signing.xprvFromStr key with
  | some xsk =>
    storeTransparent lib network (lib.accountPubKey (lib.signing.fromExtendedPrivkey xsk)) [0] a
  | none =>
    match lib.xpubFromStr key with
    | some xpub => do
      let xvk := xpub.chainCode ++ xpub.publicKey
      if lib.isAccountPubKey xvk then storeTransparent lib network xvk [0] a
      else .error (.panic "called `Result::unwrap()` on an `Err` value")
    | none => do
      let a ← initAccountTransparent a
      match importTsk lib key with
      | .ok (sk, uncompressed) =>
        .ok (storeSingle lib network (lib.publicKeyOf sk uncompressed) uncompressed a)
      | .error (.panic message) => .error (.panic message)
      | .error (.error _) =>
        match lib.bech32Decode key with
        -- stored twice, the second time in vain
        | some (_, tpk) =>
          .ok (storeSingle lib network tpk false (storeSingle lib network tpk false a))
        | none => .ok a

def saplingXvk (key : String) : Except Fault Bytes :=
  match decodeEsk lib network key with
  | some xsk => .ok (lib.dfvk xsk)
  | none =>
    match decodeEfvk lib network key with
    | some xvk => .ok xvk
    | none => .error (.error "Invalid Sapling Key")

def restoreSapling (key : String) (a : AccountRow) : Except Fault AccountRow := do
  let xvk ← saplingXvk lib network key
  let (di, address) := lib.saplingDefaultAddress network xvk
  let a ← storeSapling xvk (some address) a
  let dindex ← toU32 di
  .ok { a with dindex := dindex }

def whenPresent (pool : ℕ) (component : Option Bytes)
    (f : Bytes → AccountRow → Except Fault AccountRow) (a : AccountRow) :
    Except Fault AccountRow :=
  match component with
  | some xvk => whenAsked pools pool (f xvk) a
  | none => .ok a

def restoreUfvk (key : String) (a : AccountRow) : Except Fault AccountRow :=
  match lib.ufvkDecode network key with
  | none => .error (.error "Invalid Key")
  | some uvk =>
    match lib.defaultAddress network uvk with
    | .error e => .error (.error e)
    | .ok (ua, di) => do
      let dindex ← toU32 di
      let a ← whenPresent pools 0 uvk.transparent
        (fun tvk => storeTransparent lib network tvk [dindex]) a
      let a ← whenPresent pools 1 uvk.sapling (fun sxvk => storeSapling sxvk ua) a
      let a ← whenPresent pools 2 uvk.orchard storeOrchard a
      .ok { a with dindex := dindex }

/-! ### The account -/

/-- A phrase, also one that is still to be made, and a key of a spending format. -/
def canSignWith (key : String) : Bool :=
  key.isEmpty || isValidPhrase lib key || isAccountXprv lib network key ||
    isSaplingEsk lib network key

/-- An empty key stands for a phrase that is drawn at random. -/
def generateSeed (entropy : Bytes) (key : String) : Except Fault String :=
  if key.isEmpty then
    match lib.fromEntropy entropy with
    | some phrase => .ok phrase
    | none => .error (.error "invalid entropy")
  else .ok key

def restoreKey (na : NewAccount) (key : String) (a : AccountRow) : Except Fault AccountRow :=
  let pools := na.pools.getD allPools
  if isValidPhrase lib key then
    restorePhrase lib network pools key (na.passphrase.getD "") na.aindex a
  else do
    let transparent ← isValidTransparentKey lib network key
    if transparent then restoreTransparent lib network key a
    else if isValidSaplingKey lib network key then restoreSapling lib network key a
    else if isValidUfvk lib network key then restoreUfvk lib network pools key a
    else .error (.error "Unsupported key")

/-- The row that `store_account_metadata` inserts, after the last account. -/
def accountMetadata (saplingActivation : ℕ) (db : Database) (na : NewAccount) : AccountRow where
  idAccount := nextId (db.accounts.rows.map AccountRow.idAccount)
  name := na.name
  icon := na.icon
  seedFingerprint := na.fingerprint
  aindex := 0
  dindex := 0
  birth := na.birth.getD saplingActivation
  position := (db.accounts.rows.map AccountRow.position).foldr max 0 + 1
  useInternal := na.useInternal
  internal := na.internal
  canSign := canSignWith lib network na.key
  transparent := none
  addresses := []
  sapling := none
  orchard := none

/-- The rows of the new account; the others are not touched. -/
def newAccountRow (saplingActivation : ℕ) (entropy : Bytes) (db : Database) (na : NewAccount) :
    Except Fault AccountRow := do
  let key ← generateSeed lib entropy na.key
  restoreKey lib network na key (accountMetadata lib network saplingActivation db na)

/-- What fails, and what panics, drops the transaction. -/
def newAccount (saplingActivation : ℕ) (entropy : Bytes) (db : Database) (na : NewAccount) :
    Except Fault ℕ × Database :=
  match newAccountRow lib network saplingActivation entropy db na with
  | .error e => (.error e, db)
  | .ok a =>
    match db.accounts.insert? a with
    | some accounts => (.ok a.idAccount, { db with accounts := accounts })
    | none => (.error uniqueFailed, db)

end Restore

/-! ### Signing -/

section Signing
variable {lib : KeyLib}

abbrev SigningKey (lib : KeyLib) :=
  SigningKeys.SigningKey lib.AccountPrivKey lib.SaplingKey lib.Usk

def signingKeyTransparentPubkey : SigningKey lib → Option Bytes
  | .unified usk => some (lib.accountPubKey (lib.uskTransparent usk))
  | .transparent tsk => some (lib.accountPubKey tsk)
  | .sapling _ => none

def signingKeySaplingDfvk : SigningKey lib → Option Bytes
  | .unified usk => some (lib.dfvk (lib.uskSapling usk))
  | .transparent _ => none
  | .sapling esk => some (lib.dfvk esk)

def signingKeyOrchardFvk : SigningKey lib → Option Bytes
  | .unified usk => some (lib.uskOrchardFvk usk)
  | .transparent _ => none
  | .sapling _ => none

/-- The column `xvk` in the three tables, each with what the key gives for it. -/
def comparisons (a : Option AccountRow) (key : SigningKey lib) :
    List (Option (Option Bytes) × Option Bytes) :=
  [(a.bind AccountRow.transparent, signingKeyTransparentPubkey key),
    (a.bind fun a => a.sapling.map fun s => some s.1, signingKeySaplingDfvk key),
    (a.bind fun a => a.orchard.map some, signingKeyOrchardFvk key)]

def compare (account compared : ℕ) (c : Option (Option Bytes) × Option Bytes) :
    Except String ℕ :=
  match c.1 with
  -- the pool is not provisioned for this account
  | none => .ok compared
  | some (some xvk) =>
    if c.2 = some xvk then .ok (compared + 1)
    else .error s!"spending key does not match account {account}"
  | some none => .error s!"spending key does not match account {account}"

def verifySpendingKey (db : Database) (account : ℕ) (key : SigningKey lib) : Except String Unit := do
  let a := db.accounts.rows.find? fun a => a.idAccount = account
  let compared ← (comparisons a key).foldlM (compare account) 0
  if compared = 0 then .error s!"account {account} has no viewing key to verify against"
  else .ok ()

/-- What the host signs with: the key of a phrase, or the imported one. -/
def keyForSigning (lib : KeyLib) (network : Network) (na : NewAccount) : Option Bytes :=
  if isValidPhrase lib na.key then
    (deriveSpendingKey lib network na.key na.passphrase na.aindex).toOption
  else (importSpendingKey lib network na.key).toOption

end Signing

end ZcashSdk.Keys
