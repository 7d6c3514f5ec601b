import ZcashSdk.Lib.Runs
import ZcashSdk.Db.Balance
import ZcashSdk.Db.MessageEffects

set_option autoImplicit false

/-!
# Reserving the inputs of a transaction

Before a transaction is sent, each input that is a note of the account is claimed for it.
A claim takes a free input, one whose reservation is no longer active, or one the same
transaction holds; it fails as a whole when another transaction holds one of them.
-/
namespace ZcashSdk.Pay
open Tables Shielded Db Runs Loops

variable {H : Type} [DecidableEq H]

structure ParsedTransaction (H : Type) where
  txid : Bytes
  expiryHeight : ℕ
  inputs : List (NullifierKey H)

/-- Whether the transaction must spend notes of the account. -/
inductive OwnInputs where
  | required | optional
  deriving DecidableEq

def ensure (cond : Bool) (message : String) : Except String Unit :=
  if cond then .ok () else .error message

section Validate
variable (db : Database H) (account : ℕ) (parsed : ParsedTransaction H)

/-- The transaction of the account that spends the note, when it is stored. -/
def spendTxid (n : NoteRow H) : Option Bytes :=
  (db.spends.rows.find? fun s => s.idNote = n.idNote).bind fun s =>
    (db.transactions.rows.find? fun t => t.idTx = s.tx ∧ t.account = s.account).map
      TransactionRow.txid

/-- A note that an input names must be the account's, unlocked, and not spent by another
    transaction. -/
def checkOwned (owned : List (NullifierKey H)) (n : NoteRow H) :
    Except String (List (NullifierKey H)) := do
  ensure (n.account = account) "Transaction spends an input from another account"
  ensure (!n.locked) "Transaction input is manually locked"
  ensure (!db.isSpent n.idNote || spendTxid db n = some parsed.txid)
    "Transaction input is already spent by another transaction"
  .ok (if n.nullifier ∈ owned then owned else owned ++ [n.nullifier])

def validateOwnedInputs : Except String (List (NullifierKey H)) :=
  parsed.inputs.foldlM (fun owned input =>
    (db.notes.rows.filter fun n => n.nullifier = input).foldlM (checkOwned db account parsed) owned) []

def reservedByAnotherTransaction : Bool :=
  parsed.inputs.any fun input => db.activePendingSpendInputs.any fun p =>
    p.account = account ∧ p.nullifier = input ∧ p.ownerTxid ≠ parsed.txid

end Validate

def reservedMessage : String := "Transaction input is reserved by another pending transaction"

def claimedRow (account : ℕ) (parsed : ParsedTransaction H) (input : NullifierKey H)
    (p : PendingInputRow H) : PendingInputRow H :=
  if p.account = account ∧ p.nullifier = input then
    { p with ownerTxid := parsed.txid, expiryHeight := parsed.expiryHeight }
  else p

theorem claimedRow_clash (account : ℕ) (parsed : ParsedTransaction H) (input : NullifierKey H)
    (a b : PendingInputRow H) :
    Row.Clash (claimedRow account parsed input a) (claimedRow account parsed input b) →
      Row.Clash a b := by
  simp only [Row.Clash, claimedRow]
  split <;> split <;> exact id

/-- `INSERT … ON CONFLICT DO UPDATE … WHERE`, of which one row must be affected. -/
def claimInput (db : Database H) (account : ℕ) (parsed : ParsedTransaction H)
    (input : NullifierKey H) : Except String (Database H) :=
  match db.pendingInputs.rows.find? fun p => p.account = account ∧ p.nullifier = input with
  | some p =>
    if p.ownerTxid = parsed.txid ∨ db.isActive p = false then
      .ok { db with
        pendingInputs := db.pendingInputs.update (claimedRow account parsed input)
          (claimedRow_clash account parsed input) }
    else .error reservedMessage
  | none =>
    .ok { db with
      pendingInputs := db.pendingInputs.insertOrIgnore
        ⟨account, input, parsed.txid, parsed.expiryHeight⟩ }

def claimInputs (db : Database H) (account : ℕ) (parsed : ParsedTransaction H)
    (owned : List (NullifierKey H)) : Except String (Database H) :=
  owned.foldlM (fun db input => claimInput db account parsed input) db

def recordedRow (row p : PendingTxRow) : PendingTxRow :=
  if p.account = row.account ∧ p.txid = row.txid then
    { p with height := row.height, expiryHeight := row.expiryHeight }
  else p

theorem recordedRow_clash (row a b : PendingTxRow) :
    Row.Clash (recordedRow row a) (recordedRow row b) → Row.Clash a b := by
  simp only [Row.Clash, recordedRow]
  split <;> split <;> exact id

/-- `INSERT … ON CONFLICT DO UPDATE`: after the update a row that was there ignores the insert. -/
def recordPendingTx (db : Database H) (account : ℕ) (parsed : ParsedTransaction H)
    (scannedHeight : Option ℕ) : Database H :=
  let row : PendingTxRow :=
    ⟨account, parsed.txid, scannedHeight.getD 0, some parsed.expiryHeight⟩
  { db with
    pendingTxs := (db.pendingTxs.update (recordedRow row) (recordedRow_clash row)).insertOrIgnore
      row }

/-- One database transaction: on an error nothing of it remains. -/
def reserveParsedTransaction (db : Database H) (account : ℕ) (parsed : ParsedTransaction H)
    (own : OwnInputs) : Except String (Database H) := do
  let scanned := db.accountSeam account
  ensure (scanned.all fun h => parsed.expiryHeight = 0 ∨ h < parsed.expiryHeight)
    s!"Transaction expired at height {parsed.expiryHeight}"
  let owned ← validateOwnedInputs db account parsed
  if owned = [] then
    ensure (own = .optional) s!"Transaction does not spend an input owned by account {account}"
    ensure (!reservedByAnotherTransaction db account parsed) reservedMessage
    .ok db
  else
    let claimed ← claimInputs db account parsed owned
    .ok (recordPendingTx claimed account parsed scanned)

/-- `parse` reads a serialized transaction. -/
def reserveTransaction (parse : Bytes → Except String (ParsedTransaction H)) (db : Database H)
    (account : ℕ) (raw : Bytes) (own : OwnInputs) : Except String (Database H) := do
  let parsed ← parse raw
  reserveParsedTransaction db account parsed own

end ZcashSdk.Pay
