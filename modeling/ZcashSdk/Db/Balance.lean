import ZcashSdk.Db.Addresses
import ZcashSdk.Db.Messages

set_option autoImplicit false

/-!
# Reservations, balances and unspent notes

A transaction on its way reserves the inputs it spends. Whether a reservation is active
is worked out from its expiry and the height the account is scanned to, and the queries
that show or offer notes leave the reserved ones out. Sums are those of the statements;
the program reads them as unsigned.
-/
namespace ZcashSdk.Db
open Tables Shielded

variable {H : Type} [DecidableEq H]

/-- The value of an account's notes in one pool, by what can be done with it. -/
structure Balance where
  available : ℤ
  locked : ℤ
  changePending : ℤ
  valuePending : ℤ
  deriving DecidableEq

def Balance.total (b : Balance) : ℤ := b.available + b.locked + b.changePending + b.valuePending

structure InputNote where
  id : ℕ
  height : ℕ
  amount : ℕ
  pool : ℕ
  idAsset : Option ℕ
  assetBase : Bytes
  taddress : Option ℕ
  deriving DecidableEq

def numPools : ℕ := 4

def zecKey : Bytes := List.replicate 32 0

namespace Database

/-! ### Reservations -/

/-- The height the account is scanned to, zero when it never was. -/
def scannedHeight (db : Database H) (account : ℕ) : ℕ := (db.accountSeam account).getD 0

def isActive (db : Database H) (p : PendingInputRow H) : Bool :=
  p.expiryHeight = 0 ∨ db.scannedHeight p.account < p.expiryHeight

theorem isActive_iff {db : Database H} {p : PendingInputRow H} :
    db.isActive p = true ↔ p.expiryHeight = 0 ∨ db.scannedHeight p.account < p.expiryHeight :=
  decide_eq_true_iff

def activePendingSpendInputs (db : Database H) : List (PendingInputRow H) :=
  db.pendingInputs.rows.filter db.isActive

def isReserved (db : Database H) (n : NoteRow H) : Bool :=
  db.activePendingSpendInputs.any fun p => p.account = n.account ∧ p.nullifier = n.nullifier

/-! ### Balances -/

def confirmedHeight (db : Database H) (account confirmations : ℕ) : ℕ :=
  db.scannedHeight account - confirmations

def ownedUnspentZecNotes (db : Database H) (account : ℕ) : List (NoteRow H) :=
  db.notes.rows.filter fun n => n.account = account ∧ n.idAsset = none ∧ db.isSpent n.idNote = false

/-- Confirmed, unlocked and unreserved. -/
def availableNote (db : Database H) (cutoff : ℕ) (n : NoteRow H) : Bool :=
  n.height ≤ cutoff ∧ n.locked = false ∧ db.isReserved n = false

/-- The notes and spends of an account up to a height; a spend has a negative value. -/
def calculateBalance (db : Database H) (account height pool : ℕ) : ℤ :=
  ((db.notes.rows.filter fun n => n.account = account ∧ n.idAsset = none ∧
      n.height ≤ height ∧ n.pool = pool).map NoteRow.value).sum +
    ((db.spends.rows.filter fun s => s.account = account ∧ s.height ≤ height ∧ s.pool = pool ∧
      db.notes.rows.any fun n => n.idNote = s.idNote ∧ n.idAsset = none).map SpendRow.value).sum

/-- `SUM(CASE WHEN … THEN value ELSE 0 END)`. -/
def sumWhere (ns : List (NoteRow H)) (p : NoteRow H → Bool) : ℤ :=
  (ns.map fun n => if p n then n.value else 0).sum

def calculateBalanceBreakdown (db : Database H) (account confirmations pool : ℕ) : Balance :=
  let cutoff := db.confirmedHeight account confirmations
  let ns := (db.ownedUnspentZecNotes account).filter fun n => n.pool = pool
  { available := sumWhere ns (db.availableNote cutoff)
    locked := sumWhere ns fun n => n.height ≤ cutoff ∧ (n.locked = true ∨ db.isReserved n = true)
    changePending := sumWhere ns fun n => cutoff < n.height ∧ n.scope = some 1
    valuePending := sumWhere ns fun n => cutoff < n.height ∧ n.scope ≠ some 1 }

/-! ### Unspent notes -/

def assetBaseOfRow (db : Database H) (n : NoteRow H) : Bytes :=
  ((db.assets.rows.find? fun a => n.idAsset = some a.idAsset).map AssetRow.assetBase).getD zecKey

def inputNote (db : Database H) (n : NoteRow H) : InputNote :=
  ⟨n.idNote, n.height, asU64 n.value, n.pool, n.idAsset, db.assetBaseOfRow n, n.taddress⟩

/-- The rows the planner may spend: unspent, unlocked and unreserved. -/
def spendableRows (db : Database H) (account : ℕ) : List (NoteRow H) :=
  db.notes.rows.filter fun n => n.account = account ∧ db.isSpent n.idNote = false ∧
    n.locked = false ∧ db.isReserved n = false

def fetchUnspentNotes (db : Database H) (account : ℕ) : List InputNote :=
  (db.spendableRows account).map db.inputNote

/-- Pool by pool; a note of an unknown pool is an error. -/
def fetchUnspentNotesByPool (db : Database H) (account : ℕ) : Except String (List (List InputNote)) :=
  match (db.fetchUnspentNotes account).find? fun n => numPools ≤ n.pool with
  | some n => .error s!"unexpected pool {n.pool}"
  | none => .ok ((List.range numPools).map fun p =>
      (db.fetchUnspentNotes account).filter fun n => n.pool = p)

end Database

end ZcashSdk.Db
