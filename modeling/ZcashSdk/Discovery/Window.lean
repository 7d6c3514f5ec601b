import ZcashSdk.Db.Addresses
import ZcashSdk.Db.Messages

set_option autoImplicit false

/-!
# The windows of one address

A candidate address is asked for window by window: what the server streams is drained,
written and certified, and a window that fails is asked for again at half the width. The
server answers a request the same way each time it is made.
-/
namespace ZcashSdk.Discovery
open Tables Shielded Db Database

variable {H : Type} [DecidableEq H]

/-! ### The server -/

structure TransparentOut where
  recipient : Option Bytes
  value : ℕ

/-- The transparent part of a transaction; without a bundle both lists are empty. -/
structure TransparentTx where
  txid : Bytes
  prevouts : List Bytes
  outs : List TransparentOut

/-- How a stream ends: closed, with nothing more to come in time, or with an error. -/
inductive Ending where
  | closed
  | stalled
  | failed (message : String)

inductive Reply where
  | refused (message : String)
  | stalled
  | stream (items : List (ℕ × TransparentTx)) (ending : Ending)

inductive BlockReply where
  | refused (message : String)
  | stalled
  | block (hash : Bytes) (time : ℕ)

/-- What a walk depends on: the key the addresses are derived from, the server, and the order in
    which a set of heights is gone through. -/
structure Env where
  derive : (scope dindex : ℕ) → Option Bytes
  taddressTxs : (taddr : Bytes) → (lo hi : ℕ) → Reply
  block : ℕ → BlockReply
  setOrder : List ℕ → List ℕ

inductive BackfillError where
  | fetch (message : String)
  | db (message : String)
  | timeout (lo hi : ℕ)
  | windowFull (message : String)
  deriving DecidableEq

/-- Errors that a narrower window may not meet. -/
def BackfillError.narrows : BackfillError → Bool
  | .fetch _ => true
  | .timeout _ _ => true
  | .windowFull _ => true
  | .db _ => false

def minBackfillWindow : ℕ := 1000
def maxDiscoveryConcurrency : ℕ := 32
def maxBufferedTxs : ℕ := 50000
def maxBufferedVins : ℕ := 200000
def maxBufferedNotes : ℕ := 200000

/-- A reply whose first item is there, with the seam it was asked for under. -/
structure Fetched where
  seam : ℕ
  first : Option (ℕ × TransparentTx)
  rest : List (ℕ × TransparentTx)
  ending : Ending

/-- An item that is an error proves nothing about the address. -/
def fetchWindow (env : Env) (taddr : Bytes) (lo hi seam : ℕ) : Except BackfillError Fetched :=
  match env.taddressTxs taddr lo hi with
  | .refused message => .error (.fetch message)
  | .stalled => .error (.timeout lo hi)
  | .stream (item :: items) ending => .ok ⟨seam, some item, items, ending⟩
  | .stream [] .closed => .ok ⟨seam, none, [], .closed⟩
  | .stream [] .stalled => .error (.timeout lo hi)
  | .stream [] (.failed message) => .error (.fetch message)

/-! ### Draining -/

structure NoteItem where
  txid : Bytes
  height : ℕ
  nullifier : Bytes
  value : ℤ

structure VinItem where
  txid : Bytes
  height : ℕ
  outpoint : Bytes

structure WindowRows where
  transactions : List (Bytes × ℕ) := []
  notes : List NoteItem := []
  vins : List VinItem := []

def WindowRows.atOrBelow (rows : WindowRows) (height : ℕ) : WindowRows where
  transactions := rows.transactions.filter fun t => t.2 ≤ height
  notes := rows.notes.filter fun n => n.height ≤ height
  vins := rows.vins.filter fun v => v.height ≤ height

/-- `to_le_bytes` of a `u32`. -/
def le32 (n : ℕ) : Bytes := (List.range 4).map fun k => UInt8.ofNat (n / 256 ^ k)

theorem le32_injective {i j : ℕ} (hi : i < 2 ^ 32) (hj : j < 2 ^ 32) (h : le32 i = le32 j) :
    i = j := by
  simp only [le32, List.range_succ, List.range_zero, List.nil_append, List.cons_append,
    List.map_cons, List.map_nil, List.cons.injEq, and_true, ← UInt8.toNat_inj,
    UInt8.toNat_ofNat'] at h
  omega

def drainVin (txid : Bytes) (height : ℕ) (rows : WindowRows) (outpoint : Bytes) :
    Except BackfillError WindowRows :=
  let rows := { rows with vins := rows.vins ++ [⟨txid, height, outpoint⟩] }
  if maxBufferedVins < rows.vins.length then
    .error (.windowFull "the server streamed more transparent inputs than one window can buffer")
  else .ok rows

def drainOut (address txid : Bytes) (height : ℕ) (rows : WindowRows) (out : TransparentOut × ℕ) :
    Except BackfillError WindowRows :=
  if out.1.recipient = some address then
    let rows := { rows with
      notes := rows.notes ++ [⟨txid, height, txid ++ le32 out.2, asI64 out.1.value⟩] }
    if maxBufferedNotes < rows.notes.length then
      .error (.windowFull "the server streamed more transparent outputs than one window can buffer")
    else .ok rows
  else .ok rows

/-- The height is the server's word, and is checked. -/
def drainItem (address : Bytes) (lo hi : ℕ) (rows : WindowRows) (item : ℕ × TransparentTx) :
    Except BackfillError WindowRows := do
  let (height, tx) := item
  if height < lo ∨ hi < height then
    .error (.fetch s!"transaction height {height} outside the requested window [{lo}, {hi}]")
  else
    let rows := { rows with transactions := rows.transactions ++ [(tx.txid, height)] }
    if maxBufferedTxs < rows.transactions.length then
      .error (.windowFull "the server streamed more transactions than one window can buffer")
    else
      let rows ← tx.prevouts.foldlM (drainVin tx.txid height) rows
      tx.outs.zipIdx.foldlM (drainOut address tx.txid height) rows

def drainTransparentWindow (address : Bytes) (f : Fetched) (lo hi : ℕ) :
    Except BackfillError WindowRows := do
  let rows ← (f.first.toList ++ f.rest).foldlM (drainItem address lo hi) {}
  match f.ending with
  | .closed => .ok rows
  | .stalled => .error (.timeout lo hi)
  | .failed message => .error (.fetch message)

/-! ### Writing -/

def markSeenUsed (db : Database H) (idTaddress : ℕ) : Database H :=
  { db with
    addresses := db.addresses.update
      (fun r => if r.idTaddress = idTaddress then { r with seenUsed := true } else r)
      (by intro a b; simp only [Row.Clash]; split <;> split <;> exact id) }

/-- `ON CONFLICT DO NOTHING`, without a time. -/
def writeTransaction (account : ℕ) (db : Database H) (t : Bytes × ℕ) : Database H :=
  { db with
    transactions := db.transactions.insertNewOrIgnore TransactionRow.idTx
      fun i => ⟨i, t.1, t.2, account, 0, {}⟩ }

def writeNote (account idTaddress : ℕ) (db : Database H) (n : NoteItem) : Database H :=
  { db with
    notes := (db.transactionsOf account n.txid).foldl
      (fun notes t => notes.insertNewOrIgnore NoteRow.idNote fun i =>
        { idNote := i, height := n.height, account := account, pool := 0, scope := none,
          nullifier := .outpoint n.nullifier, tx := t.idTx, value := n.value, cmx := none,
          taddress := some idTaddress, position := none, diversifier := none, rcm := none,
          rho := none, idAsset := none, diversifierIndex := none })
      db.notes }

/-- The note an input spends may be of any address of the account. -/
def writeSpend (account : ℕ) (db : Database H) (v : VinItem) : Database H :=
  match db.notes.rows.find? fun n => n.account = account ∧ n.nullifier = .outpoint v.outpoint with
  | some n =>
    { db with
      spends := (db.transactionsOf account v.txid).foldl
        (fun spends t =>
          spends.insertOrIgnore ⟨n.idNote, v.height, account, 0, t.idTx, -n.value⟩)
        db.spends }
  | none => db

/-- Spends are resolved last, so that one streamed before its note is not dropped. -/
def writeTransparentWindow (db : Database H) (account idTaddress : ℕ) (rows : WindowRows)
    (used : Bool) : Database H :=
  let db := if used then markSeenUsed db idTaddress else db
  let db := rows.transactions.foldl (writeTransaction account) db
  let db := rows.notes.foldl (writeNote account idTaddress) db
  rows.vins.foldl (writeSpend account) db

def heightsOfTransactionsWithoutTime (db : Database H) (account start stop : ℕ) : List ℕ :=
  ((db.transactions.rows.filter fun t => t.time = 0 ∧ start ≤ t.height ∧ t.height ≤ stop ∧
    t.account = account).map TransactionRow.height).dedup

def setBlockTime (height time : ℕ) (t : TransactionRow) : TransactionRow :=
  if t.height = height ∧ t.time = 0 then { t with time := time } else t

/-- One database transaction for each height: what was filled in before a failure stays. -/
def fillMissingBlockTimes (env : Env) (lo hi : ℕ) :
    List ℕ → Database H → Database H × Except BackfillError Unit
  | [], db => (db, .ok ())
  | h :: hs, db =>
    match env.block h with
    | .refused message => (db, .error (.fetch message))
    | .stalled => (db, .error (.timeout lo hi))
    | .block hash time =>
      fillMissingBlockTimes env lo hi hs { db with
        transactions := db.transactions.update (setBlockTime h time)
          (by intro a b; simp only [Row.Clash, setBlockTime]; split <;> split <;> exact id)
        headers := db.headers.insertOrIgnore ⟨h, hash, time⟩ }

structure WalkArgs where
  account : ℕ
  birth : ℕ
  scope : ℕ
  dindex : ℕ
  taddr : Bytes

def raiseOwed (db : Database H) (idTaddress : ℕ) : Option ℕ → Database H
  | some through => db.raiseCatchUpDebt idTaddress through
  | none => db

/-- What the stream carried above the seam is evidence only: it raises the debt of the row. -/
def ingestBackfillWindow (env : Env) (a : WalkArgs) (db : Database H) (idTaddress markerLo lo hi seam : ℕ)
    (f : Fetched) (intact : Bool) : Database H × Except BackfillError Bool :=
  match drainTransparentWindow a.taddr f lo hi with
  | .error e => (db, .error e)
  | .ok all =>
    let used := !all.transactions.isEmpty
    let owed := ((all.transactions.map Prod.snd).filter fun h => seam < h).max?
    let db := writeTransparentWindow db a.account idTaddress (all.atOrBelow seam) used
    let db := raiseOwed db idTaddress owed
    let through := min hi seam
    let heights := env.setOrder (heightsOfTransactionsWithoutTime db a.account lo through)
    match fillMissingBlockTimes env lo hi heights db with
    | (db, .error e) => (db, .error e)
    | (db, .ok ()) =>
      if intact ∧ markerLo ≤ through then
        (db.advanceBackfilledHeight a.account a.birth a.scope a.dindex markerLo through, .ok intact)
      else (db, .ok intact)

/-! ### Walking a candidate -/

/-- Tells an account from its replacement at the same number. -/
structure AccountIdentity where
  seedFingerprint : Option Bytes
  aindex : ℕ
  birth : ℕ
  xvk : Option Bytes
  incarnation : ℕ
  deriving DecidableEq

def accountIdentity (db : Database H) (account : ℕ) : Option AccountIdentity :=
  (db.accountRow account).map fun r =>
    ⟨r.seedFingerprint, r.aindex, r.birth, r.xvk, db.incarnation account⟩

def replacedMessage (account : ℕ) : String :=
  s!"account {account} was replaced while discovery was running"

def noSeamMessage : String := "account has no sync_heights row"

structure Progress where
  row : Option (ℕ × Bytes)
  used : Bool
  trim : Option ℕ

/-- What one window comes to: `none` when nothing was found for an address that is not stored. -/
structure WindowOutcome (H : Type) [DecidableEq H] where
  db : Database H
  progress : Progress
  result : Except BackfillError (Option Bool)

def takeOrFetch (env : Env) (a : WalkArgs) (lo hi seam : ℕ) (first : Option Fetched) :
    Except BackfillError Fetched :=
  match first with
  | some f => if f.seam = seam then .ok f else fetchWindow env a.taddr lo hi seam
  | none => fetchWindow env a.taddr lo hi seam

/-- One window inside one critical section. -/
def walkWindow (env : Env) (a : WalkArgs) (identity : AccountIdentity) (db : Database H)
    (p : Progress) (markerLo lo hi : ℕ) (first : Option Fetched) : WindowOutcome H :=
  if accountIdentity db a.account ≠ some identity then
    ⟨db, p, .error (.db (replacedMessage a.account))⟩
  else
    let seen := db.trimCounter a.account
    let trim := p.trim.getD seen
    let intact := trim = seen
    match db.accountSeam a.account with
    | none => ⟨db, { p with trim := some trim }, .error (.db noSeamMessage)⟩
    | some seam =>
      let row := db.transparentAddressRow a.account a.scope a.dindex
      match takeOrFetch env a lo hi seam first with
      | .error e => ⟨db, ⟨row, p.used, some trim⟩, .error e⟩
      | .ok f =>
        let found := f.first.isSome
        let used := p.used || found
        if row.isNone && !found then ⟨db, ⟨row, used, some trim⟩, .ok none⟩
        else
          let db := if row.isNone then
            db.storeAccountTransparentAddr a.account a.scope a.dindex a.taddr else db
          match db.transparentAddressRow a.account a.scope a.dindex with
          | none => ⟨db, ⟨none, used, some trim⟩, .error (.db "just-stored address row missing")⟩
          | some row =>
            let ingested := ingestBackfillWindow env a db row.1 markerLo lo hi seam f intact
            ⟨ingested.1, ⟨some row, used, some trim⟩, ingested.2.map some⟩

/-- Window after window up to the end; one that fails is asked for again, narrower. -/
def walkWindows (env : Env) (a : WalkArgs) (identity : AccountIdentity) (backfillEnd : ℕ)
    (p : Progress) (markerLo lo window : ℕ) (first : Option Fetched) (db : Database H) :
    Database H × Except BackfillError (Option (ℕ × Bytes) × Bool) :=
  if lo ≤ backfillEnd then
    let hi := min (lo + (window - 1)) backfillEnd
    let o := walkWindow env a identity db p markerLo lo hi first
    match o.result with
    | .ok none => walkWindows env a identity backfillEnd o.progress markerLo (hi + 1) window none o.db
    | .ok (some certified) =>
      walkWindows env a identity backfillEnd o.progress (if certified then hi + 1 else markerLo)
        (hi + 1) window none o.db
    | .error e =>
      if e.narrows ∧ minBackfillWindow < window then
        walkWindows env a identity backfillEnd o.progress markerLo lo
          (max (window / 2) minBackfillWindow) none o.db
      else (o.db, .error e)
  else (db, .ok (p.row, p.used))
termination_by (backfillEnd + 1 - lo, window)
decreasing_by
  · exact Prod.Lex.left _ _ (by omega)
  · exact Prod.Lex.left _ _ (by omega)
  · rename_i hw
    have hmin : minBackfillWindow = 1000 := rfl
    exact Prod.Lex.right _ (by omega)

/-- `first` is a reply to the whole range, asked for ahead. -/
def walkCandidate (env : Env) (a : WalkArgs) (identity : AccountIdentity)
    (row : Option (ℕ × Bytes)) (lo backfillEnd : ℕ) (first : Option Fetched) (db : Database H) :
    Database H × Except BackfillError (Option (ℕ × Bytes) × Bool) :=
  walkWindows env a identity backfillEnd ⟨row, false, none⟩ lo lo (backfillEnd - lo + 1) first db

end ZcashSdk.Discovery
