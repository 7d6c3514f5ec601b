import ZcashSdk.Lib.Table
import ZcashSdk.Shielded.Types

set_option autoImplicit false

/-!
# The wallet database

The tables that synchronization reads and writes, with the columns it uses and the
constraints of the schema. Serialized witnesses are kept as witnesses. Properties
stored under a key made of a name and an account are functions of the account.
-/
namespace ZcashSdk.Db
open Tables Shielded

/-- Notes of both kinds share the column: a shielded nullifier has 32 bytes, the outpoint
    of a transparent output 36. -/
inductive NullifierKey (H : Type) where
  | shielded (nf : H)
  | outpoint (bytes : Bytes)
  deriving DecidableEq

structure NoteRow (H : Type) where
  idNote : ℕ
  height : ℕ
  account : ℕ
  pool : ℕ
  scope : Option ℕ
  nullifier : NullifierKey H
  tx : ℕ
  value : ℤ
  cmx : Option H
  taddress : Option ℕ
  position : Option ℕ
  diversifier : Option Bytes
  rcm : Option Bytes
  rho : Option Bytes
  idAsset : Option ℕ
  diversifierIndex : Option ℕ
  /-- Locked by the user. -/
  locked : Bool := false
  deriving DecidableEq

structure SpendRow where
  idNote : ℕ
  height : ℕ
  account : ℕ
  pool : ℕ
  tx : ℕ
  value : ℤ
  deriving DecidableEq

structure TxSummary where
  tpe : Option ℕ := none
  value : ℤ := 0
  fee : ℤ := 0
  zsaValue : ℤ := 0
  assetId : Option ℕ := none
  category : Option ℕ := none
  deriving DecidableEq

structure TransactionRow where
  idTx : ℕ
  txid : Bytes
  height : ℕ
  account : ℕ
  time : ℕ
  summary : TxSummary := {}
  deriving DecidableEq

structure WitnessRow (H : Type) where
  idWitness : ℕ
  account : ℕ
  note : ℕ
  height : ℕ
  witness : Witness H
  deriving DecidableEq

/-- Where an output or a memo is; synchronization looks at nothing else. -/
structure DetailRow where
  account : ℕ
  height : ℕ
  tx : ℕ
  pool : ℕ
  vout : ℕ
  deriving DecidableEq

structure OutputRow extends DetailRow where
  value : ℤ
  address : String
  deriving DecidableEq

structure MemoRow extends DetailRow where
  memoText : Option String
  deriving DecidableEq

/-- A memo the user wrote for a transaction, under the number of its row. -/
structure UserMemoRow where
  account : ℕ
  idTx : ℕ
  userMemo : String
  deriving DecidableEq

/-- An input that a transaction on its way holds; height zero never expires. -/
structure PendingInputRow (H : Type) where
  account : ℕ
  nullifier : NullifierKey H
  ownerTxid : Bytes
  expiryHeight : ℕ
  deriving DecidableEq

structure PendingTxRow where
  account : ℕ
  txid : Bytes
  height : ℕ
  expiryHeight : Option ℕ
  deriving DecidableEq

/-- The tables of a shared key: parameters, packages, addresses, state and peers of its
    generation, signatures and commitments of its use. -/
inductive FrostTable where
  | dkgParams | dkgPackages | dkgAddresses | dkgState | dkgPeers | signatures | commitments
  deriving DecidableEq

structure FrostRow where
  table : FrostTable
  account : ℕ
  data : Bytes
  deriving DecidableEq

structure AssetRow where
  idAsset : ℕ
  assetDescHash : Bytes
  ik : Bytes
  assetBase : Bytes
  finalized : Bool
  firstSeenHeight : ℕ
  deriving DecidableEq

structure SyncHeightRow where
  account : ℕ
  pool : ℕ
  height : ℕ
  deriving DecidableEq

/-- An account with the keys that identify it; `xvk` is that of `transparent_accounts`, and
    `transparent` says whether it has a row there. -/
structure AccountRow where
  idAccount : ℕ
  seedFingerprint : Option Bytes
  aindex : ℕ
  dindex : ℕ
  birth : ℕ
  transparent : Bool
  xvk : Option Bytes
  sapling : Bool
  orchard : Bool
  deriving DecidableEq

structure AddressRow where
  idTaddress : ℕ
  account : ℕ
  scope : ℕ
  dindex : ℕ
  address : Bytes
  backfilledHeight : Option ℕ
  seenUsed : Bool
  catchUpOwedThrough : Option ℕ
  deriving DecidableEq

section Constraints
variable {H : Type} [DecidableEq H]

instance : Row (NoteRow H) where
  Clash a b := a.idNote = b.idNote ∨ a.account = b.account ∧ a.nullifier = b.nullifier
  clash_refl _ := Or.inl rfl
  clash_symm h := h.imp Eq.symm fun h => ⟨h.1.symm, h.2.symm⟩
  decClash _ _ := inferInstanceAs (Decidable (_ ∨ _))

instance : Row (WitnessRow H) where
  Clash a b := a.idWitness = b.idWitness ∨ a.note = b.note ∧ a.height = b.height
  clash_refl _ := Or.inl rfl
  clash_symm h := h.imp Eq.symm fun h => ⟨h.1.symm, h.2.symm⟩
  decClash _ _ := inferInstanceAs (Decidable (_ ∨ _))

instance : Row (PendingInputRow H) where
  Clash a b := a.account = b.account ∧ a.nullifier = b.nullifier
  clash_refl _ := ⟨rfl, rfl⟩
  clash_symm h := ⟨h.1.symm, h.2.symm⟩
  decClash _ _ := inferInstanceAs (Decidable (_ ∧ _))

end Constraints

instance : Row PendingTxRow where
  Clash a b := a.account = b.account ∧ a.txid = b.txid
  clash_refl _ := ⟨rfl, rfl⟩
  clash_symm h := ⟨h.1.symm, h.2.symm⟩
  decClash _ _ := inferInstanceAs (Decidable (_ ∧ _))

instance : Row UserMemoRow where
  Clash a b := a.account = b.account ∧ a.idTx = b.idTx
  clash_refl _ := ⟨rfl, rfl⟩
  clash_symm h := ⟨h.1.symm, h.2.symm⟩
  decClash _ _ := inferInstanceAs (Decidable (_ ∧ _))

instance : Row SpendRow where
  Clash a b := a.idNote = b.idNote
  clash_refl _ := rfl
  clash_symm h := h.symm
  decClash _ _ := inferInstanceAs (Decidable (_ = _))

instance : Row TransactionRow where
  Clash a b := a.idTx = b.idTx ∨ a.account = b.account ∧ a.txid = b.txid
  clash_refl _ := Or.inl rfl
  clash_symm h := h.imp Eq.symm fun h => ⟨h.1.symm, h.2.symm⟩
  decClash _ _ := inferInstanceAs (Decidable (_ ∨ _))

instance : Row BlockHeader where
  Clash a b := a.height = b.height
  clash_refl _ := rfl
  clash_symm h := h.symm
  decClash _ _ := inferInstanceAs (Decidable (_ = _))

instance : Row AssetRow where
  Clash a b := a.idAsset = b.idAsset ∨ a.assetDescHash = b.assetDescHash ∧ a.ik = b.ik ∨
    a.assetBase = b.assetBase
  clash_refl _ := Or.inl rfl
  clash_symm h := h.imp Eq.symm fun h => h.imp (fun h => ⟨h.1.symm, h.2.symm⟩) Eq.symm
  decClash _ _ := inferInstanceAs (Decidable (_ ∨ _))

instance : Row SyncHeightRow where
  Clash a b := a.account = b.account ∧ a.pool = b.pool
  clash_refl _ := ⟨rfl, rfl⟩
  clash_symm h := ⟨h.1.symm, h.2.symm⟩
  decClash _ _ := inferInstanceAs (Decidable (_ ∧ _))

instance : Row AccountRow where
  Clash a b := a.idAccount = b.idAccount
  clash_refl _ := rfl
  clash_symm h := h.symm
  decClash _ _ := inferInstanceAs (Decidable (_ = _))

instance : Row AddressRow where
  Clash a b := a.idTaddress = b.idTaddress ∨
    a.account = b.account ∧ a.scope = b.scope ∧ a.dindex = b.dindex
  clash_refl _ := Or.inl rfl
  clash_symm h := h.imp Eq.symm fun h => ⟨h.1.symm, h.2.1.symm, h.2.2.symm⟩
  decClash _ _ := inferInstanceAs (Decidable (_ ∨ _))

structure Database (H : Type) [DecidableEq H] where
  notes : Table (NoteRow H)
  spends : Table SpendRow
  transactions : Table TransactionRow
  witnesses : Table (WitnessRow H)
  outputs : List OutputRow
  memos : List MemoRow
  userMemos : Table UserMemoRow
  pendingInputs : Table (PendingInputRow H)
  pendingTxs : Table PendingTxRow
  frost : List FrostRow
  headers : Table BlockHeader
  assets : Table AssetRow
  syncHeights : Table SyncHeightRow
  accounts : Table AccountRow
  addresses : Table AddressRow
  /-- `tcov_trim`: how many trims changed something; no key reads as zero. -/
  trimCounter : ℕ → ℕ
  /-- `tcov_certified`: the trim counter and the gap of the last completed walk. -/
  certified : ℕ → Option (ℕ × ℕ)
  /-- `tcov_life`, a `u32`. -/
  incarnation : ℕ → ℕ

/-- Activation heights; every network has the first two. -/
structure Network where
  sapling : ℕ
  nu5 : ℕ
  nu6_3 : Option ℕ

namespace Database
variable {H : Type} [DecidableEq H]

def empty : Database H where
  notes := .empty
  spends := .empty
  transactions := .empty
  witnesses := .empty
  outputs := []
  memos := []
  userMemos := .empty
  pendingInputs := .empty
  pendingTxs := .empty
  frost := []
  headers := .empty
  assets := .empty
  syncHeights := .empty
  accounts := .empty
  addresses := .empty
  trimCounter := fun _ => 0
  certified := fun _ => none
  incarnation := fun _ => 0

/-! ### Reads -/

def heights (db : Database H) (account : ℕ) : List ℕ :=
  (db.syncHeights.rows.filter fun r => r.account = account).map SyncHeightRow.height

/-- `MIN(height)` of the account's pools: the seam between what is kept and scratch. -/
def accountSeam (db : Database H) (account : ℕ) : Option ℕ := (db.heights account).min?

def accountRow (db : Database H) (account : ℕ) : Option AccountRow :=
  db.accounts.rows.find? fun r => r.idAccount = account

def getBirthHeight (db : Database H) (account : ℕ) : Option ℕ :=
  (db.accountRow account).map AccountRow.birth

def isPool (pool : ℕ) : Bool := pool < 4

def hasPool (db : Database H) (account pool : ℕ) : Bool :=
  match db.accountRow account, pool with
  | some a, 0 => a.transparent
  | some a, 1 => a.sapling
  | some a, 2 => a.orchard
  | some a, 3 => a.orchard
  | _, _ => false

/-- `MAX(height)` of the account's witnesses below a height. -/
def checkpointBefore (db : Database H) (account height : ℕ) : Option ℕ :=
  ((db.witnesses.rows.filter fun w => w.height < height ∧ w.account = account).map
    WitnessRow.height).max?

end Database

end ZcashSdk.Db
