import ZcashSdk.Lib.Loops
import ZcashSdk.Db.Rewind

set_option autoImplicit false

/-!
# The database writer

`handleMessage` applies one message of a scan inside a database transaction. The
writer buffers messages and applies a batch at each commit message and, when the
channel closes, what is left over. A fault rolls the batch back and stops it.
-/
namespace ZcashSdk.Db
open Tables Shielded Loops

/-- What the writer knows besides the database: the network, the keys from which the index of
    a note's diversifier is found, and how the error of a stopped scan reads. -/
structure WriterEnv where
  network : Network
  resolveDiversifierIndex : (account pool scope : ℕ) → Bytes → Option ℕ
  display : SyncError → String

def constraintFailed : Fault := .error "UNIQUE constraint failed"

def assertionFailed : Fault := .panic "assertion `left == right` failed"

/-- A statement that may violate a constraint. -/
def execute {α : Type} : Option α → Except Fault α
  | some a => .ok a
  | none => .error constraintFailed

/-- `assert_eq!(r.rows_affected(), 1)`. -/
def assertOne (rowsAffected : ℕ) : Except Fault Unit :=
  if rowsAffected = 1 then .ok () else .error assertionFailed

/-- `value as i64`. -/
def asI64 (value : ℕ) : ℤ := if value < 2 ^ 63 then value else value - 2 ^ 64

/-- `value as u64`. -/
def asU64 (value : ℤ) : ℕ := (value % 2 ^ 64).toNat

variable {H : Type} [DecidableEq H]

namespace Database

def insertAsset (db : Database H) (desc ik base : Bytes) (finalized : Bool) (height : ℕ) :
    Database H :=
  { db with
    assets := db.assets.insertNewOrIgnore AssetRow.idAsset
      fun i => ⟨i, desc, ik, base, finalized, height⟩ }

def handleIssuance (db : Database H) (iss : Issuance) : Database H :=
  let db := db.insertAsset iss.assetDescHash iss.ik iss.assetBase iss.finalized iss.height
  if iss.finalized then
    { db with
      assets := db.assets.update
        (fun a => if a.assetDescHash = iss.assetDescHash ∧ a.ik = iss.ik then
          { a with finalized := true } else a)
        (by intro a b; simp only [Row.Clash]; split <;> split <;> exact id) }
  else db

/-- Duplicates are ignored: another kind of scan may have found the transaction. -/
def handleTransaction (db : Database H) (tx : Transaction) : Database H :=
  { db with
    transactions := db.transactions.insertNewOrIgnore TransactionRow.idTx
      fun i => ⟨i, tx.txid, tx.height, tx.account, tx.time, {}⟩ }

/-- Transfers of an asset whose issuance was not seen register it under placeholders made of
    its base. -/
def registerAsset (db : Database H) (n : Note H) : Database H :=
  if n.assetBase.length = 32 ∧ n.assetBase ≠ List.replicate 32 0 then
    db.insertAsset n.assetBase (0 :: n.assetBase) n.assetBase false n.height
  else db

/-- `LEFT JOIN assets`: the matching assets, or one row without. -/
def assetsOf (db : Database H) (base : Bytes) : List (Option ℕ) :=
  match db.assets.rows.filter fun a => a.assetBase = base with
  | [] => [none]
  | as => as.map fun a => some a.idAsset

def transactionsOf (db : Database H) (account : ℕ) (txid : Bytes) : List TransactionRow :=
  db.transactions.rows.filter fun t => t.account = account ∧ t.txid = txid

def notesOf (db : Database H) (account : ℕ) (cmx : H) : List (NoteRow H) :=
  db.notes.rows.filter fun n => n.account = account ∧ n.cmx = some cmx

def noteRow (env : WriterEnv) (n : Note H) (t : TransactionRow) (idAsset : Option ℕ) (i : ℕ) :
    NoteRow H :=
  { idNote := i, height := n.height, account := t.account, pool := n.pool, scope := some n.scope,
    nullifier := .shielded n.nf, tx := t.idTx, value := asI64 n.value, cmx := some n.cmx,
    taddress := none, position := some n.position, diversifier := some n.diversifier,
    rcm := some n.rcm, rho := some n.rho, idAsset := idAsset,
    diversifierIndex := env.resolveDiversifierIndex n.account n.pool n.scope n.diversifier }

def handleNote (env : WriterEnv) (db : Database H) (n : Note H) : Except Fault (Database H) := do
  let db := db.registerAsset n
  let rows := (db.transactionsOf n.account n.txid).flatMap fun t =>
    (db.assetsOf n.assetBase).map fun a => noteRow env n t a
  let notes ← execute (db.notes.insertAllNew? NoteRow.idNote rows)
  assertOne rows.length
  .ok { db with notes := notes }

def handleWitness (db : Database H) (account height : ℕ) (cmx : H) (w : Witness H) :
    Except Fault (Database H) := do
  let rows := (db.notesOf account cmx).map fun n i =>
    (⟨i, account, n.idNote, height, w⟩ : WitnessRow H)
  let witnesses ← execute (db.witnesses.insertAllNew? WitnessRow.idWitness rows)
  assertOne rows.length
  .ok { db with witnesses := witnesses }

/-- The note does not belong to the transaction, which spends it, so the two are not joined. -/
def handleSpend (db : Database H) (u : UTXO H) : Except Fault (Database H) := do
  let rows := (db.notesOf u.account u.cmx).flatMap fun n =>
    (db.transactionsOf u.account u.txid).map fun t =>
      (⟨n.idNote, t.height, u.account, u.pool, t.idTx, -asI64 u.value⟩ : SpendRow)
  let spends ← execute (db.spends.insertAll? rows)
  assertOne rows.length
  .ok { db with spends := spends }

/-- Only accounts that have the pool get a height for it; `has_pool` knows pools 0 to 3. -/
def checkpointAccount (pool height : ℕ) (db : Database H) (account : ℕ) :
    Except Fault (Database H) :=
  if isPool pool then
    if db.hasPool account pool then
      .ok { db with syncHeights := db.syncHeights.insertOrReplace ⟨account, pool, height⟩ }
    else .ok db
  else .error (.panic "internal error: entered unreachable code")

/-- Raw transactions have no time; it comes from the header of their block. -/
def setTime (bh : BlockHeader) (t : TransactionRow) : TransactionRow :=
  if t.height = bh.height then { t with time := bh.time } else t

def handleBlockHeader (db : Database H) (bh : BlockHeader) : Database H :=
  { db with
    headers := db.headers.insertOrIgnore bh
    transactions := db.transactions.update (setTime bh)
      (by intro a b; simp only [Row.Clash, setTime]; split <;> split <;> exact id) }

end Database

open Database in
def handleMessage (env : WriterEnv) (db : Database H) :
    WarpSyncMessage H → Except Fault (Database H)
  | .issuance iss => .ok (db.handleIssuance iss)
  | .transaction tx => .ok (db.handleTransaction tx)
  | .note n => db.handleNote env n
  | .witness account height cmx w => db.handleWitness account height cmx w
  | .spend u => db.handleSpend u
  | .checkpoint accounts pool height => accounts.foldlM (checkpointAccount pool height) db
  | .blockHeader bh => .ok (db.handleBlockHeader bh)
  | .commit => .ok db
  | .rewind accounts height =>
    accounts.foldlM (fun db account => db.rewindSync env.network account height) db
  | .error e => .error (.error (env.display e))

/-- One database transaction. -/
def commitWarpMessages (env : WriterEnv) (db : Database H) (messages : List (WarpSyncMessage H)) :
    Except Fault (Database H) :=
  messages.foldlM (handleMessage env) db

end ZcashSdk.Db
