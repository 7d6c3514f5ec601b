import ZcashSdk.Discovery.Convergence

set_option autoImplicit false

/-!
# The transparent pass of a synchronization

Every address that is visited is asked for from where its marker ends up to the tip, window by
window. Above the seam a window is kept as it completes. Below it, where nothing cleans up, all
windows of the address are one database transaction, and the chain must still be the one the
pass began on. Only when every address is done do the accounts move to the new height.
-/
namespace ZcashSdk.Discovery
open Tables Shielded Db Database

variable {H : Type} [DecidableEq H]

/-! ### The backend of one pass -/

/-- When the hash of the last block is read: before the walk, after the part of an address that
    lies below the seam, after the walk. -/
inductive AnchorRead where
  | before
  | below (idTaddress : ℕ)
  | after
  deriving DecidableEq

/-- A window of an address is asked for at most once in a pass, so a reply that depends on the
    window may be any; a call that is cancelled stops the pass. -/
structure Backend where
  env : (idTaddress lo hi : ℕ) → Env
  cancelled : (idTaddress lo hi : ℕ) → Bool
  anchor : AnchorRead → Except String Bytes

inductive SyncFault where
  | cancelled
  | window (e : BackfillError)
  | bail (message : String)
  deriving DecidableEq

def reorganisedMessage : String := "chain reorganised during the transparent walk"

def noRowMessage : String :=
  "no rows returned by a query that expected to return at least one row"

/-! ### One address -/

/-- One window: the answer is taken off the stream first and written afterwards. -/
def syncAddressWindow (env : Env) (cancelled : Bool) (db : Database H) (account idTaddress : ℕ)
    (taddr : Bytes) (lo hi : ℕ) : Database H × Except SyncFault Unit :=
  match env.taddressTxs taddr lo hi with
  | .refused message => (db, .error (.window (.fetch message)))
  | .stalled => (db, .error (.window (.timeout lo hi)))
  | .stream items ending =>
    if cancelled then (db, .error .cancelled)
    else
      match drainTransparentWindow taddr ⟨0, none, items, ending⟩ lo hi with
      | .error e => (db, .error (.window e))
      | .ok rows =>
        let db := writeTransparentWindow db account idTaddress rows (!rows.transactions.isEmpty)
        let heights := env.setOrder (heightsOfTransactionsWithoutTime db account lo hi)
        match fillMissingBlockTimes env lo hi heights db with
        | (db, .error e) => (db, .error (.window e))
        | (db, .ok ()) => (db, .ok ())

def taddressScopeDindex (db : Database H) (idTaddress : ℕ) : Option (ℕ × ℕ) :=
  (db.addresses.rows.find? fun r => r.idTaddress = idTaddress).map fun r => (r.scope, r.dindex)

def advanceAddressMarker (db : Database H) (account birth idTaddress coveredFrom through : ℕ) :
    Except SyncFault (Database H) :=
  match taddressScopeDindex db idTaddress with
  | none => .error (.bail noRowMessage)
  | some (scope, dindex) =>
    .ok (db.advanceBackfilledHeight account birth scope dindex coveredFrom through)

structure Visit where
  account : ℕ
  idTaddress : ℕ
  taddr : Bytes

def SyncFault.narrows : SyncFault → Bool
  | .window e => e.narrows
  | _ => false

section Range
variable (b : Backend) (v : Visit) (birth stop : ℕ)

def passWindows (lo markerLo window : ℕ) (db : Database H) : Database H × Except SyncFault Unit :=
  if lo ≤ stop then
    let hi := min (lo + (window - 1)) stop
    match syncAddressWindow (b.env v.idTaddress lo hi) (b.cancelled v.idTaddress lo hi) db v.account
        v.idTaddress v.taddr lo hi with
    | (db, .ok ()) =>
      match advanceAddressMarker db v.account birth v.idTaddress markerLo hi with
      | .error f => (db, .error f)
      | .ok db => if hi = stop then (db, .ok ()) else passWindows (hi + 1) (hi + 1) window db
    | (db, .error f) =>
      if f.narrows ∧ minBackfillWindow < window then
        passWindows lo markerLo (max (window / 2) minBackfillWindow) db
      else (db, .error f)
  else (db, .ok ())
termination_by (stop + 1 - lo, window)
decreasing_by
  · exact Prod.Lex.left _ _ (by omega)
  · rename_i hw
    have hmin : minBackfillWindow = 1000 := rfl
    exact Prod.Lex.right _ (by omega)

/-- `walk_windows`, from its first window, which spans the whole range. -/
def syncRange (lo : ℕ) (db : Database H) : Database H × Except SyncFault Unit :=
  passWindows b v birth stop lo lo (stop - lo + 1) db

end Range

/-- The part below the seam; a fault rolls it back. -/
def syncBelow (b : Backend) (v : Visit) (birth lo seam : ℕ) (anchor : Bytes) (db : Database H) :
    Except SyncFault (Database H) :=
  if lo ≤ seam then
    match syncRange b v birth seam lo db with
    | (_, .error f) => .error f
    | (d, .ok ()) =>
      match b.anchor (.below v.idTaddress) with
      | .error message => .error (.bail message)
      | .ok hash => if hash ≠ anchor then .error (.bail reorganisedMessage) else .ok d
  else .ok db

/-- Where an address starts: behind its marker, when that is behind the pool, but not before the
    account. -/
def syncStart (marker : Option ℕ) (start birth : ℕ) : ℕ :=
  max ((marker.map fun m => min start (m + 1)).getD start) birth

def syncAddressRange (b : Backend) (v : Visit) (start stop : ℕ) (anchor : Bytes)
    (db : Database H) : Database H × Except SyncFault Unit :=
  match db.getBirthHeight v.account with
  | none => (db, .error (.bail noRowMessage))
  | some birth =>
    let lo := syncStart (db.transparentBackfilledHeight v.idTaddress) start birth
    match db.accountSeam v.account with
    | none => (db, .error (.bail noSeamMessage))
    | some seam =>
      match syncBelow b v birth lo seam anchor db with
      | .error f => (db, .error f)
      | .ok db => syncRange b v birth stop (max lo (seam + 1)) db

/-! ### The pass -/

def visits (db : Database H) (limit account : ℕ) : List Visit :=
  (db.transparentAddressesToScan account limit).map fun row => ⟨account, row.1, row.2⟩

def syncAddresses (b : Backend) (start stop : ℕ) (anchor : Bytes) :
    List Visit → Database H → Database H × Except SyncFault Unit
  | [], db => (db, .ok ())
  | v :: vs, db =>
    match syncAddressRange b v start stop anchor db with
    | (db, .error f) => (db, .error f)
    | (db, .ok ()) => syncAddresses b start stop anchor vs db

/-- A debt is paid by the row's own marker alone. -/
def payDebt (account : ℕ) (r : AddressRow) : AddressRow :=
  if r.account = account ∧ r.catchUpOwedThrough.any (fun through =>
      r.backfilledHeight.any fun m => through ≤ m) then { r with catchUpOwedThrough := none }
  else r

/-- The pool of a scanned account moves to the end of the range, and its debts are settled. -/
def finishAccount (stop : ℕ) (db : Database H) (account : ℕ) : Database H :=
  { db with
    syncHeights := db.syncHeights.update
      (fun r => if r.account = account ∧ r.pool = 0 then { r with height := stop } else r)
      (by intro a b; simp only [Row.Clash]; split <;> split <;> exact id)
    addresses := db.addresses.update (payDebt account)
      (by intro a b; simp only [Row.Clash, payDebt]; split <;> split <;> exact id) }

/-- Two reads of the chain bracket the walk. -/
def transparentSync (b : Backend) (accounts : List ℕ) (start stop limit : ℕ) (db : Database H) :
    Database H × Except SyncFault Unit :=
  let addresses := accounts.flatMap (visits db limit)
  if addresses.isEmpty then (db, .ok ())
  else
    match b.anchor .before with
    | .error message => (db, .error (.bail message))
    | .ok anchor =>
      match syncAddresses b start stop anchor addresses db with
      | (db, .error f) => (db, .error f)
      | (d, .ok ()) =>
        match b.anchor .after with
        | .error message => (d, .error (.bail message))
        | .ok hash =>
          if hash ≠ anchor then (d, .error (.bail reorganisedMessage))
          else
            let scanned := accounts.filter fun account => !(visits db limit account).isEmpty
            (scanned.foldl (finishAccount stop) d, .ok ())

end ZcashSdk.Discovery
