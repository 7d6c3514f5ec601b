import ZcashSdk.Contacts.Edits
import ZcashSdk.Db.UserMemos
import ZcashSdk.Lib.Joins

set_option autoImplicit false

/-!
# The history of an account

The list of the transactions and the details of one, as the joins that the queries are.
-/
namespace ZcashSdk.History
open Tables Shielded Joins

/-! ### Tables -/

/-- The price is a floating point number, kept as its bits. -/
structure TransactionRow extends Db.TransactionRow where
  price : Option UInt64
  deriving DecidableEq

structure OutputRow extends Db.OutputRow where
  idOutput : ℕ
  deriving DecidableEq

structure MemoRow extends Db.MemoRow where
  idMemo : ℕ
  note : Option ℕ
  output : Option ℕ
  memoBytes : Bytes
  deriving DecidableEq

structure AssetRow extends Db.AssetRow where
  assetName : Option String
  deriving DecidableEq

structure CategoryRow where
  idCategory : ℕ
  name : String
  income : Bool
  deriving DecidableEq

instance : Row TransactionRow where
  Clash a b := Row.Clash a.toTransactionRow b.toTransactionRow
  clash_refl a := Row.clash_refl a.toTransactionRow
  clash_symm h := Row.clash_symm h
  decClash a b := Row.decClash a.toTransactionRow b.toTransactionRow

instance : Row OutputRow where
  Clash a b := a.idOutput = b.idOutput ∨ a.tx = b.tx ∧ a.pool = b.pool ∧ a.vout = b.vout
  clash_refl _ := Or.inl rfl
  clash_symm h := h.imp Eq.symm fun h => ⟨h.1.symm, h.2.1.symm, h.2.2.symm⟩
  decClash _ _ := inferInstanceAs (Decidable (_ ∨ _))

instance : Row MemoRow where
  Clash a b := a.idMemo = b.idMemo ∨ a.tx = b.tx ∧ a.pool = b.pool ∧ a.vout = b.vout
  clash_refl _ := Or.inl rfl
  clash_symm h := h.imp Eq.symm fun h => ⟨h.1.symm, h.2.1.symm, h.2.2.symm⟩
  decClash _ _ := inferInstanceAs (Decidable (_ ∨ _))

instance : Row AssetRow where
  Clash a b := Row.Clash a.toAssetRow b.toAssetRow
  clash_refl a := Row.clash_refl a.toAssetRow
  clash_symm h := Row.clash_symm h
  decClash a b := Row.decClash a.toAssetRow b.toAssetRow

instance : Row CategoryRow where
  Clash a b := a.idCategory = b.idCategory ∨ a.name = b.name
  clash_refl _ := Or.inl rfl
  clash_symm h := h.imp Eq.symm Eq.symm
  decClash _ _ := inferInstanceAs (Decidable (_ ∨ _))

structure Database (H : Type) [DecidableEq H] where
  transactions : Table TransactionRow
  notes : Table (Db.NoteRow H)
  spends : Table Db.SpendRow
  outputs : Table OutputRow
  memos : Table MemoRow
  userMemos : Table Db.UserMemoRow
  assets : Table AssetRow
  categories : Table CategoryRow
  contacts : Contacts.Database

/-! ### What is returned -/

structure Tx extends Db.Tx where
  categoryName : Option String
  assetDisplay : String
  price : Option UInt64
  deriving DecidableEq

structure TxNote where
  id : ℕ
  pool : ℕ
  height : ℕ
  tx : ℕ
  scope : ℕ
  diversifier : Option Bytes
  value : ℕ
  locked : Bool
  memo : Option String
  idAsset : Option ℕ
  assetDisplay : String
  deriving DecidableEq

structure TxOutput where
  id : ℕ
  pool : ℕ
  height : ℕ
  value : ℕ
  address : String
  contactName : Option String
  deriving DecidableEq

structure TxSpend where
  id : ℕ
  pool : ℕ
  height : ℕ
  value : ℕ
  idAsset : Option ℕ
  assetDisplay : String
  deriving DecidableEq

structure TxMemo where
  note : Option ℕ
  output : Option ℕ
  pool : ℕ
  memo : Option String
  memoBytes : Bytes
  deriving DecidableEq

structure TxAccount where
  id : ℕ
  account : ℕ
  txid : Bytes
  height : ℕ
  time : ℕ
  price : Option UInt64
  category : Option ℕ
  notes : List TxNote
  spends : List TxSpend
  outputs : List TxOutput
  memos : List TxMemo
  userMemo : Option String
  deriving DecidableEq

def hexDigit (n : ℕ) : Char := "0123456789abcdef".toList.getD n '0'

def hexEncode (bytes : Bytes) : String :=
  String.ofList (bytes.flatMap fun b => [hexDigit (b.toNat / 16), hexDigit (b.toNat % 16)])

def assetDisplay (idAsset : Option ℕ) (assetName : Option String) (assetDescHash : Option Bytes) :
    String :=
  match idAsset with
  | some _ =>
    (assetName.filter fun n => !n.isEmpty).getD
      ((assetDescHash.map fun h => hexEncode (h.take 8)).getD "ZSA")
  | none => "ZEC"

def displayOf (idAsset : Option ℕ) (asset : Option AssetRow) : String :=
  assetDisplay idAsset (asset.bind AssetRow.assetName) (asset.map fun a => a.assetDescHash)

/-! ### Queries -/

namespace Database
variable {H : Type} [DecidableEq H] (db : Database H) (account : ℕ)

def base : Db.Database H :=
  { Db.Database.empty with
    notes := db.notes
    userMemos := db.userMemos
    outputs := db.outputs.rows.map OutputRow.toOutputRow
    memos := db.memos.rows.map MemoRow.toMemoRow }

def paysTo (o : OutputRow) (a : Contacts.ContactAddressRow) : Bool :=
  o.address = a.receiver ∧ o.pool = a.pool

def isOwner (a : Option Contacts.ContactAddressRow) (c : Contacts.ContactRow) : Bool :=
  (a.map fun a => a.contactId) = some c.idContact

/-- `SELECT DISTINCT o.tx, ct.name`. -/
def contactedTxs : List (ℕ × String) :=
  ((innerJoin (fun r => isOwner (some r.2))
      (innerJoin paysTo db.outputs.rows db.contacts.addresses.rows) db.contacts.contacts.rows).map fun r => (r.1.1.tx, r.2.name)).dedup

def transactionsOf : List TransactionRow :=
  db.transactions.rows.filter fun t => t.account = account

/-- A transaction with its category, its asset and its memo of the user. -/
abbrev MemoRecord :=
  ((TransactionRow × Option CategoryRow) × Option AssetRow) × Option Db.UserMemoRow

def MemoRecord.tx (r : MemoRecord) : TransactionRow := r.1.1.1

abbrev TxRecord := MemoRecord × Option (ℕ × String)

def TxRecord.tx (r : TxRecord) : TransactionRow := MemoRecord.tx r.1

def hasCategory (t : TransactionRow) (c : CategoryRow) : Bool :=
  t.summary.category = some c.idCategory

def hasAsset (idAsset : Option ℕ) (a : AssetRow) : Bool := idAsset = some a.idAsset

def hasUserMemo (t : TransactionRow) (um : Db.UserMemoRow) : Bool :=
  um.idTx = t.idTx ∧ um.account = t.account

def isContacted (t : TransactionRow) (oc : ℕ × String) : Bool := oc.1 = t.idTx

def withMemo : List MemoRecord :=
  leftJoin (fun r => hasUserMemo r.1.1)
    (leftJoin (fun r => hasAsset r.1.summary.assetId)
      (leftJoin hasCategory (db.transactionsOf account) db.categories.rows) db.assets.rows)
    db.userMemos.rows

def txRecords : List TxRecord :=
  leftJoin (fun r => isContacted (MemoRecord.tx r)) (db.withMemo account) db.contactedTxs

def userMemoText (um : Option Db.UserMemoRow) : Option String :=
  (um.map Db.UserMemoRow.userMemo).filter fun memo => memo ≠ ""

def txOf (r : TxRecord) : Tx :=
  let t := r.tx
  let received := db.base.receivedBy t.toTransactionRow
  { id := t.idTx, txid := t.txid, height := t.height, time := t.time, summary := t.summary,
    memo := (userMemoText r.1.2).or (db.base.chainMemo t.toTransactionRow),
    isUserMemo := (userMemoText r.1.2).isSome, contactName := r.2.map Prod.snd,
    totalReceived := (received.map Db.NoteRow.value).sum,
    isChange := !received.isEmpty && received.all fun n => n.scope = some 1,
    recipient := db.base.recipientOf t.toTransactionRow,
    categoryName := r.1.1.1.2.map CategoryRow.name,
    assetDisplay := displayOf t.summary.assetId r.1.1.2,
    price := t.price }

def fetchTxs : List Tx :=
  ((db.txRecords account).insertionSort fun a b => b.tx.height ≤ a.tx.height).map db.txOf

/-! ### The details of a transaction -/

section Details
variable (idTx : ℕ)

def notesOf : List (Db.NoteRow H) := db.notes.rows.filter fun n => n.account = account ∧ n.tx = idTx

def outputsOf : List OutputRow := db.outputs.rows.filter fun o => o.account = account ∧ o.tx = idTx

def spendsOf : List Db.SpendRow := db.spends.rows.filter fun s => s.account = account ∧ s.tx = idTx

def hasMemo (n : Db.NoteRow H) (m : MemoRow) : Bool := m.note = some n.idNote

def spendsNote (s : Db.SpendRow) (n : Db.NoteRow H) : Bool := s.idNote = n.idNote

/-- A number that is not there reads as zero, and no amount is negative. -/
def txNotes : List TxNote :=
  (leftJoin (fun r => hasAsset r.1.idAsset)
    (leftJoin hasMemo (db.notesOf account idTx) db.memos.rows) db.assets.rows).map fun r =>
      let n := r.1.1
      ⟨n.idNote, n.pool, n.height, n.tx, n.scope.getD 0, n.diversifier, n.value.toNat, n.locked,
        r.1.2.bind fun m => m.memoText, n.idAsset, displayOf n.idAsset r.2⟩

def txOutputs : List TxOutput :=
  (leftJoin (fun r => isOwner r.2)
    (leftJoin paysTo (db.outputsOf account idTx) db.contacts.addresses.rows)
    db.contacts.contacts.rows).map fun r =>
      let o := r.1.1
      ⟨o.idOutput, o.pool, o.height, o.value.toNat, o.address, r.2.map fun c => c.name⟩

/-- Spent amounts are stored negative. -/
def txSpends : List TxSpend :=
  (leftJoin (fun r => hasAsset r.2.idAsset)
    (innerJoin spendsNote (db.spendsOf account idTx) db.notes.rows) db.assets.rows).map fun r =>
      let s := r.1.1
      ⟨s.idNote, s.pool, s.height, (-s.value).toNat, r.1.2.idAsset, displayOf r.1.2.idAsset r.2⟩

def txMemos : List TxMemo :=
  (db.memos.rows.filter fun m => m.account = account ∧ m.tx = idTx).map fun m =>
    ⟨m.note, m.output, m.pool, m.memoText, m.memoBytes⟩

def getTxDetails : Except String TxAccount :=
  match db.transactions.rows.find? fun t => t.account = account ∧ t.idTx = idTx with
  | none => .error "no rows returned by a query that expected to return at least one row"
  | some t =>
    .ok {
      id := idTx
      account := account
      txid := t.txid
      height := t.height
      time := t.time
      price := t.price
      category := t.summary.category
      notes := db.txNotes account idTx
      spends := db.txSpends account idTx
      outputs := db.txOutputs account idTx
      memos := db.txMemos account idTx
      userMemo := (db.userMemos.rows.find? fun um => um.account = account ∧ um.idTx = idTx).map
        Db.UserMemoRow.userMemo }

end Details

end Database

end ZcashSdk.History
