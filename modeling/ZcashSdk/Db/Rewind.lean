import ZcashSdk.Db.Schema

set_option autoImplicit false

/-!
# Going back

`trimSyncData` forgets what an account learnt above a height. Recovery trims to the
seam, a rewind to the last checkpoint below a height, a reset to nothing; pruning
drops checkpoints that are too old to rewind to, and deleting an account drops it all.
-/
namespace ZcashSdk.Db
open Tables Shielded

variable {H : Type} [DecidableEq H]

namespace Database

/-! ### Walks and coverage -/

/-- Retires the walks in flight; the counter is a `u32` and wraps. -/
def retireTransparentWalks (db : Database H) (account : ℕ) : Database H :=
  { db with incarnation :=
      Function.update db.incarnation account (u32 (db.incarnation account + 1)) }

def clearTransparentCoverage (db : Database H) (account : ℕ) : Database H :=
  { db with
    trimCounter := Function.update db.trimCounter account 0
    certified := Function.update db.certified account none }.retireTransparentWalks account

def clearCatchUpDebts (db : Database H) (account : ℕ) : Database H :=
  { db with
    addresses := db.addresses.update
      (fun r => if r.account = account then { r with catchUpOwedThrough := none } else r)
      (by intro a b; simp only [Row.Clash]; split <;> split <;> exact id) }

/-! ### Trimming -/

/-- What a statement `WHERE height > ? AND account = ?` selects. -/
def above (account height : ℕ) (rowAccount rowHeight : ℕ) : Bool :=
  height < rowHeight ∧ rowAccount = account

theorem above_eq_false {account height rowAccount rowHeight : ℕ} :
    above account height rowAccount rowHeight = false ↔
      (rowAccount = account → rowHeight ≤ height) := by
  simp only [above, decide_eq_false_iff_not, not_and]
  constructor
  · intro h hacc
    by_contra hlt
    exact h (by omega) hacc
  · intro h hlt hacc
    have := h hacc
    omega

/-- The heights of the transparent notes of an address above a height. -/
def notesAbove (db : Database H) (idTaddress height : ℕ) : List ℕ :=
  (db.notes.rows.filter fun n => n.taddress = some idTaddress ∧ height < n.height ∧ n.pool = 0).map
    NoteRow.height

def losesNote (db : Database H) (account height idTaddress : ℕ) : Bool :=
  db.notes.rows.any fun n => height < n.height ∧ n.account = account ∧ n.pool = 0 ∧
    n.taddress = some idTaddress

/-- The notes a trim deletes are what paid their addresses' catch-up, so it is owed again. -/
def reOwe (db : Database H) (account height : ℕ) (r : AddressRow) : AddressRow :=
  if db.losesNote account height r.idTaddress then
    { r with catchUpOwedThrough := some (max (r.catchUpOwedThrough.getD 0)
        ((db.notesAbove r.idTaddress height).foldr max 0)) }
  else r

/-- A marker above the trim height would cover history the trim deletes. -/
def clampMarker (account height : ℕ) (r : AddressRow) : AddressRow :=
  if r.account = account ∧ (r.backfilledHeight.any fun m => height < m) then
    { r with backfilledHeight := some height }
  else r

theorem reOwe_clash (db : Database H) (account height : ℕ) (a b : AddressRow) :
    Row.Clash (db.reOwe account height a) (db.reOwe account height b) → Row.Clash a b := by
  simp only [Row.Clash, reOwe]
  split <;> split <;> exact id

theorem clampMarker_clash (account height : ℕ) (a b : AddressRow) :
    Row.Clash (clampMarker account height a) (clampMarker account height b) → Row.Clash a b := by
  simp only [Row.Clash, clampMarker]
  split <;> split <;> exact id

/-- Whether a trim changes anything that a walk may have relied on. -/
def trims (db : Database H) (account height : ℕ) : Bool :=
  (db.notes.rows.any fun r => above account height r.account r.height) ||
  (db.spends.rows.any fun r => above account height r.account r.height) ||
  (db.transactions.rows.any fun r => above account height r.account r.height) ||
  (db.witnesses.rows.any fun r => above account height r.account r.height) ||
  (db.outputs.any fun r => above account height r.account r.height) ||
  (db.memos.any fun r => above account height r.account r.height) ||
  (db.addresses.rows.any fun r =>
    r.account = account ∧ (r.backfilledHeight.any fun m => height < m))

def setHeights (db : Database H) (account height : ℕ) : Table SyncHeightRow :=
  db.syncHeights.update
    (fun r => if r.account = account then { r with height := height } else r)
    (by intro a b; simp only [Row.Clash]; split <;> split <;> exact id)

/-- Removes what the account learnt above the height and keeps the data at it; headers stay,
    for they are used by several accounts. -/
def trimSyncData (db : Database H) (account height : ℕ) : Database H :=
  { db with
    addresses := (db.addresses.update (db.reOwe account height) (db.reOwe_clash account height)).update
      (clampMarker account height) (clampMarker_clash account height)
    notes := db.notes.deleteWhere fun r => above account height r.account r.height
    spends := db.spends.deleteWhere fun r => above account height r.account r.height
    transactions := db.transactions.deleteWhere fun r => above account height r.account r.height
    witnesses := db.witnesses.deleteWhere fun r => above account height r.account r.height
    outputs := db.outputs.filter fun r => !above account height r.account r.height
    memos := db.memos.filter fun r => !above account height r.account r.height
    trimCounter :=
      if db.trims account height then
        Function.update db.trimCounter account (db.trimCounter account + 1)
      else db.trimCounter
    syncHeights := db.setHeights account height }

/-- Trims every account to its seam. An account without a height has none to read, which is
    not caught; what was trimmed before it stays trimmed. -/
def recoverFromPartialSync : Database H → List ℕ → Database H × Option Fault
  | db, [] => (db, none)
  | db, account :: accounts =>
    match db.accountSeam account with
    | none => (db, some (.panic "unexpected null"))
    | some height => (db.trimSyncData account height).recoverFromPartialSync accounts

/-! ### Resets, rewinds and pruning -/

def activationHeight (network : Network) : ℕ → ℕ
  | 0 => 0
  | 1 => network.sapling
  | 2 => network.nu5
  | _ => network.nu6_3.getD 0

def maxPool (network : Network) : ℕ := if network.nu6_3.isSome then 4 else 3

def initSyncHeights (network : Network) (db : Database H) (account birth : ℕ) : Database H :=
  { db with
    syncHeights := db.syncHeights.update
      (fun r => if r.account = account ∧ r.pool < maxPool network then
        { r with height := max birth (activationHeight network r.pool) } else r)
      (by intro a b; simp only [Row.Clash]; split <;> split <;> exact id) }

/-- Forgets everything. A full rescan from birth re-derives every catch-up from what the new
    walk drops, so nothing is owed against markers at zero. -/
def resetSync (network : Network) (db : Database H) (account : ℕ) : Except Fault (Database H) :=
  match db.getBirthHeight account with
  | none => .error (.error "no rows returned by a query that expected to return at least one row")
  | some birth =>
    let trimmed := (db.trimSyncData account 0).clearCatchUpDebts account
    .ok ((trimmed.retireTransparentWalks account).initSyncHeights network account birth)

/-- Goes back to the latest checkpoint before the height, or to nothing. Walks in flight were
    started against the chain that is discarded. -/
def goBack (network : Network) (db : Database H) (account height : ℕ) :
    Except Fault (Database H) :=
  match db.checkpointBefore account height with
  | some prev => .ok ((db.trimSyncData account prev).retireTransparentWalks account)
  | none => db.resetSync network account

/-- Then the headers go too, for no account uses them. -/
def rewindSync (network : Network) (db : Database H) (account height : ℕ) :
    Except Fault (Database H) := do
  let back ← db.goBack network account height
  .ok { back with headers := back.headers.deleteWhere fun h => decide (height < h.height) }

/-- Deletes the witnesses before the latest checkpoint below the height. -/
def pruneOldCheckpoints (db : Database H) (account height : ℕ) : Database H :=
  match db.checkpointBefore account height with
  | none => db
  | some checkpoint =>
    { db with witnesses := db.witnesses.deleteWhere fun w =>
        decide (w.account = account ∧ w.height < checkpoint) }

/-- Deletes the account table by table, and retires the walks begun for it. -/
def deleteAccount (db : Database H) (account : ℕ) : Database H :=
  { db with
    pendingInputs := db.pendingInputs.deleteWhere fun r => decide (r.account = account)
    pendingTxs := db.pendingTxs.deleteWhere fun r => decide (r.account = account)
    frost := db.frost.filter fun r => decide (r.account ≠ account)
    notes := db.notes.deleteWhere fun r => decide (r.account = account)
    spends := db.spends.deleteWhere fun r => decide (r.account = account)
    transactions := db.transactions.deleteWhere fun r => decide (r.account = account)
    witnesses := db.witnesses.deleteWhere fun r => decide (r.account = account)
    outputs := db.outputs.filter fun r => decide (r.account ≠ account)
    memos := db.memos.filter fun r => decide (r.account ≠ account)
    syncHeights := db.syncHeights.deleteWhere fun r => decide (r.account = account)
    addresses := db.addresses.deleteWhere fun r => decide (r.account = account)
    accounts := db.accounts.deleteWhere fun r => decide (r.idAccount = account)
  }.clearTransparentCoverage account

end Database

end ZcashSdk.Db
