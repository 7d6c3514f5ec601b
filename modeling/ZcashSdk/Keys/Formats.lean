import ZcashSdk.Api.OpenDatabase
import ZcashSdk.Pay.SigningKey

set_option autoImplicit false

/-!
# The formats of keys

A key comes as a text: a phrase, an extended key, a Sapling key, a unified viewing key or a
single transparent key. What a text is depends on the network it is read for.
-/
namespace ZcashSdk.Keys
open Shielded Loops
open Api (Network)

/-! ### The crates -/

/-- `bip32::Prefix`, as far as it is used. -/
inductive Prefix where
  | xprv | xpub | tprv | tpub
  deriving DecidableEq

def Prefix.version : Prefix → ℕ
  | .xprv => 0x0488ADE4
  | .xpub => 0x0488B21E
  | .tprv => 0x04358394
  | .tpub => 0x043587CF

structure ExtendedPublicKey where
  publicKey : Bytes
  depth : ℕ
  parentFingerprint : Bytes
  childNumber : ℕ
  chainCode : Bytes
  deriving DecidableEq

inductive Fvk where
  | p2pkh (data : Bytes)
  | sapling (data : Bytes)
  | orchard (data : Bytes)
  deriving DecidableEq

structure Ufvk where
  transparent : Option Bytes
  sapling : Option Bytes
  orchard : Option Bytes
  deriving DecidableEq

/-- What is called. Viewing keys and addresses are given as they are stored; `defaultAddress`
    also returns the Sapling receiver. -/
structure KeyLib where
  AccountPrivKey : Type
  SaplingKey : Type
  Usk : Type
  Xprv : Type
  Mnemonic : Type
  Language : Type
  signing : SigningKeys.Libraries AccountPrivKey SaplingKey Usk Xprv
  english : Language
  languages : List Language
  parseIn : Language → String → Option Mnemonic
  fromEntropy : Bytes → Option String
  toSeed : Mnemonic → String → Bytes
  seedFingerprint : Bytes → Option Bytes
  uskFromSeed : Network → Bytes → ℕ → Except String Usk
  uskToBytes : Usk → Bytes
  uskTransparent : Usk → AccountPrivKey
  uskSapling : Usk → SaplingKey
  uskOrchardFvk : Usk → Bytes
  toUfvk : Usk → Ufvk
  accountPubKey : AccountPrivKey → Bytes
  dfvk : SaplingKey → Bytes
  extendedKeyVersion : String → Option ℕ
  xpubFromStr : String → Option ExtendedPublicKey
  xpubToString : Prefix → ExtendedPublicKey → String
  isPublicKey : Bytes → Bool
  isSecretKey : Bytes → Bool
  publicKeyOf : (secretKey : Bytes) → (uncompressed : Bool) → Bytes
  deriveAddressPubkey : (xvk : Bytes) → (scope dindex : ℕ) → Option Bytes
  bs58CheckDecode : (version : ℕ) → String → Option Bytes
  bech32Decode : String → Option (String × Bytes)
  p2pkhAddress : Network → Bytes → String
  hrpExtendedSpendingKey : Network → String
  hrpExtendedFullViewingKey : Network → String
  decodeExtendedFullViewingKey : (hrp : String) → String → Option Bytes
  isDfvk : Bytes → Bool
  isOrchardFvk : Bytes → Bool
  saplingDefaultAddress : Network → Bytes → ℕ × String
  saplingAddress : Network → Bytes → ℕ → Option String
  isSaplingAddress : Network → String → Bool
  ufvkTryFromItems : List Fvk → Except String Ufvk
  ufvkEncode : Network → Ufvk → String
  ufvkDecode : Network → String → Option Ufvk
  defaultAddress : Network → Ufvk → Except String (Option String × ℕ)

/-- `AccountPubKey::deserialize`: a chain code and a public key. -/
def KeyLib.isAccountPubKey (lib : KeyLib) (xvk : Bytes) : Bool :=
  xvk.length = 65 ∧ lib.isPublicKey (xvk.drop 32)

/-! ### What a text is -/

section Predicates
variable (lib : KeyLib) (network : Network)

/-- English first: its words are in other lists too. -/
def parseMnemonic (phrase : String) : Option lib.Mnemonic :=
  match lib.parseIn lib.english phrase with
  | some mnemonic => some mnemonic
  | none => lib.languages.findSome? fun language => lib.parseIn language phrase

def isValidPhrase (phrase : String) : Bool := (parseMnemonic lib phrase).isSome

def transparentPrefixes : Network → Prefix × Prefix
  | .main => (.xprv, .xpub)
  | _ => (.tprv, .tpub)

def hasPrefix (key : String) (expected : Prefix) : Bool :=
  lib.extendedKeyVersion key = some expected.version

def isAccountXprv (key : String) : Bool :=
  hasPrefix lib key (transparentPrefixes network).1 && (lib.signing.xprvFromStr key).isSome

def isAccountXpub (key : String) : Bool :=
  hasPrefix lib key (transparentPrefixes network).2 && (lib.xpubFromStr key).isSome

def decodeEsk (key : String) : Option lib.SaplingKey :=
  lib.signing.decodeExtendedSpendingKey (lib.hrpExtendedSpendingKey network) key

def decodeEfvk (key : String) : Option Bytes :=
  lib.decodeExtendedFullViewingKey (lib.hrpExtendedFullViewingKey network) key

def isSaplingEsk (key : String) : Bool := (decodeEsk lib network key).isSome

def isSaplingEfvk (key : String) : Bool := (decodeEfvk lib network key).isSome

def importTsk (tsk : String) : Except Fault (Bytes × Bool) :=
  match lib.bs58CheckDecode 0x80 tsk with
  | none => .error (.error "base58")
  | some v =>
    if v.length ≠ 33 ∧ v.length ≠ 34 then .error (.error s!"Invalid TSK length {v.length}")
    else if lib.isSecretKey ((v.drop 1).take 32) then
      .ok ((v.drop 1).take 32, !(v.length = 34 && v[33]? = some 1))
    else .error (.panic "called `Result::unwrap()` on an `Err` value")

def isZpk (key : String) : Bool :=
  match lib.bech32Decode key with
  | some (hrp, pk) => hrp = "zpk" && lib.isPublicKey pk
  | none => false

def isValidTransparentKey (key : String) : Except Fault Bool :=
  match importTsk lib key with
  | .ok _ => .ok true
  | .error (.panic message) => .error (.panic message)
  | .error (.error _) => .ok (isAccountXprv lib network key || isAccountXpub lib network key ||
      isZpk lib key)

def isValidSaplingKey (key : String) : Bool :=
  isSaplingEsk lib network key || isSaplingEfvk lib network key

def isValidUfvk (key : String) : Bool := (lib.ufvkDecode network key).isSome

/-! ### Classification -/

inductive KeyKind where
  | phrase
  | transparentSpending
  | transparentViewing
  | saplingSpending
  | saplingViewing
  | ufvk (pools : ℕ)
  | foreignNetwork
  | unrecognized
  deriving DecidableEq

def isKeyOfAnotherNetwork (key : String) : Bool :=
  [Network.main, Network.test].any fun n =>
    isAccountXprv lib n key || isAccountXpub lib n key || isSaplingEsk lib n key ||
      isSaplingEfvk lib n key || isValidUfvk lib n key

def Ufvk.pools (u : Ufvk) : ℕ :=
  (if u.transparent.isSome then 1 else 0) ||| (if u.sapling.isSome then 2 else 0) |||
    (if u.orchard.isSome then 4 else 0)

def classifyKey (key : String) : KeyKind :=
  if isValidPhrase lib key then .phrase
  else if isAccountXprv lib network key then .transparentSpending
  else if isAccountXpub lib network key then .transparentViewing
  else if isSaplingEsk lib network key then .saplingSpending
  else if isSaplingEfvk lib network key then .saplingViewing
  else
    match lib.ufvkDecode network key with
    | some u => .ufvk u.pools
    | none => if isKeyOfAnotherNetwork lib key then .foreignNetwork else .unrecognized

/-- Bit 0 is transparent, bit 1 Sapling and bit 2 Orchard. -/
def getKeyPools (key : String) : ℕ :=
  match classifyKey lib network key with
  | .phrase => 7
  | .transparentSpending => 1
  | .transparentViewing => 1
  | .saplingSpending => 2
  | .saplingViewing => 2
  | .ufvk pools => pools
  | .foreignNetwork => 0
  | .unrecognized => 0

def importSpendingKey (key : String) : Except String Bytes :=
  match classifyKey lib network key with
  | .transparentSpending =>
    (SigningKeys.encodeTransparent lib.signing key).mapError fun _ => "invalid spending key"
  | .saplingSpending =>
    (SigningKeys.encodeSapling lib.signing key (lib.hrpExtendedSpendingKey network)).mapError
      fun _ => "invalid spending key"
  | .phrase =>
    .error "this is a seed phrase: it spends, but the account is restored with restoreAccount"
  | .transparentViewing | .saplingViewing | .ufvk _ =>
    .error "this is a viewing key: it can watch the account but not spend from it"
  | .foreignNetwork => .error "this key belongs to another network than the wallet"
  | .unrecognized => .error "not a recognized Zcash key for this network"

/-! ### Derivation -/

/-- The spending key of an account, and the fingerprint of the seed. -/
def uskFromPhrase (phrase passphrase : String) (aindex : ℕ) :
    Except Fault (lib.Usk × Bytes) := do
  match parseMnemonic lib phrase with
  | none => .error (.error "invalid mnemonic")
  | some mnemonic =>
    let seed := lib.toSeed mnemonic passphrase
    match lib.uskFromSeed network seed aindex with
    | .error e => .error (.error e)
    | .ok usk =>
      match lib.seedFingerprint seed with
      | none => .error (.error "invalid seed length")
      | some fingerprint => .ok (usk, fingerprint)

/-- `AccountId::try_from`. -/
def accountId (aindex : ℕ) : Option ℕ := if aindex < 2 ^ 31 then some aindex else none

def deriveSpendingKey (phrase : String) (passphrase : Option String) (aindex : ℕ) :
    Except Fault Bytes :=
  match accountId aindex with
  | none => .error (.error "account index out of range")
  | some aindex => do
    let (usk, _) ← uskFromPhrase lib network phrase (passphrase.getD "") aindex
    .ok (lib.uskToBytes usk)

end Predicates

/-! ### What the formats promise -/

inductive Format where
  | phrase | wif | xprv | xpub | zpk | esk | efvk | ufvk | other
  deriving DecidableEq

/-- No text is of two formats, where a Sapling key has the prefix of a network and a single key
    is a public key. -/
structure KeyLib.Tells (lib : KeyLib) (format : String → Format) : Prop where
  phrase : ∀ language s, (lib.parseIn language s).isSome = true → format s = .phrase
  wif : ∀ s, (lib.bs58CheckDecode 0x80 s).isSome = true → format s = .wif
  xprv : ∀ s, (lib.signing.xprvFromStr s).isSome = true → format s = .xprv
  xpub : ∀ s, (lib.xpubFromStr s).isSome = true → format s = .xpub
  zpk : ∀ s, isZpk lib s = true → format s = .zpk
  esk : ∀ network s, (decodeEsk lib network s).isSome = true → format s = .esk
  efvk : ∀ network s, (decodeEfvk lib network s).isSome = true → format s = .efvk
  ufvk : ∀ network s, (lib.ufvkDecode network s).isSome = true → format s = .ufvk
  empty : format "" = .other

/-- What signing relies on: spending keys come back from the bytes and the texts they are
    written as. -/
structure KeyLib.Lawful (lib : KeyLib) : Prop where
  signing : lib.signing.Lawful
  usk : ∀ u, ∃ records, SigningKeys.Written lib.signing (lib.uskToBytes u) records ∧
    records.length = 3 ∧ (∀ r ∈ records, SigningKeys.IsKey lib.signing r) ∧
    lib.signing.unifiedSpendingKey (lib.uskToBytes u) = some u

end ZcashSdk.Keys
