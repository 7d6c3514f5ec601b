import ZcashSdk.Db.Addresses
import ZcashSdk.Db.Messages
import ZcashSdk.Shielded.ChainOrder

set_option autoImplicit false

/-!
# A shielded scan over the database

A sync cycle recovers, runs the transparent pass of a range and then scans its blocks:
the synchronizers of the pools are loaded from the database as it was at the last
height, and each chunk of blocks becomes one database transaction. Whatever stops the
scan, only whole chunks are on disk. All of it runs under one lock.
-/
namespace ZcashSdk.Wallet
open Tables Shielded Db Loops

variable {H : Type} [DecidableEq H] [Inhabited H]

/-! ### Loading a synchronizer -/

/-- A note with its witness; a shielded note has all of these columns. -/
def loadUtxo (pool : ℕ) (n : NoteRow H) (w : WitnessRow H) : Except Fault (UTXO H) :=
  match n.nullifier, n.position, n.cmx with
  | .shielded nf, some position, some cmx =>
    .ok { id := n.idNote, pool := pool, account := n.account, nullifier := nf,
          position := position, value := asU64 n.value, cmx := cmx, witness := w.witness,
          txid := [] }
  | _, _, _ => .error (.panic "error occurred while decoding column")

/-- The unspent notes of an account with their witnesses at a height. -/
def unspentAt (db : Database H) (pool account height : ℕ) : List (NoteRow H × WitnessRow H) :=
  (db.notes.rows.filter fun n => n.pool = pool ∧ n.account = account ∧
    db.isSpent n.idNote = false).flatMap fun n =>
      (db.witnesses.rows.filter fun w => w.note = n.idNote ∧ w.height = height).map fun w => (n, w)

def loadAccount (db : Database H) (pool height account : ℕ) : Except Fault (List (UTXO H)) :=
  (unspentAt db pool account height).mapM fun r => loadUtxo pool r.1 r.2

/-- The keys of a pool's accounts: the external one, and the internal one on request. -/
def loadKeys {P : ShieldedProtocol H} (extractIvk : (account scope : ℕ) → Option (P.IVK × P.NK))
    (accounts : List (ℕ × Bool)) : List (Key P) :=
  accounts.flatMap fun a =>
    ((extractIvk a.1 0).toList.map fun k => ⟨a.1, 0, k.1, k.2⟩) ++
    if a.2 then (extractIvk a.1 1).toList.map fun k => ⟨a.1, 1, k.1, k.2⟩ else []

/-- The tree state a server reports for a pool: the number of leaves and the edge. -/
structure Frontier (H : Type) where
  size : ℕ
  edge : Edge H

def Synchronizer.new {P : ShieldedProtocol H} (db : Database H) (pool height : ℕ)
    (keys : List (Key P)) (frontier : Frontier H) (debug : Bool) :
    Except Fault (Synchronizer P) := do
  let utxos ← flatMapM (fun k => loadAccount db pool (height - 1) k.account) keys
  .ok { pool := pool, keys := keys, position := u32 frontier.size,
        utxos := utxos.foldl insertUtxo [], treeState := frontier.edge, debug := debug }

/-! ### Scanning -/

/-- What a scan is given besides the database. The viewing keys are those stored for the
    account's pools. -/
structure Env (c : ZcashCrypto H) where
  writer : WriterEnv
  assetBaseOf : AssetBaseOf
  saplingKey : (account scope : ℕ) → c.SaplingIvk × c.SaplingNk
  orchardKey : (account scope : ℕ) → c.OrchardIvk × c.OrchardFvk
  debug : Bool

structure Scan (c : ZcashCrypto H) where
  accounts : List ℕ
  /-- The last height scanned. -/
  height : ℕ
  /-- The last height of the range. -/
  finish : ℕ
  sapling : Synchronizer (saplingProtocol c)
  orchard : Synchronizer (orchardProtocol c)
  ironwood : Option (Synchronizer (ironwoodProtocol c))

structure Frontiers (H : Type) where
  sapling : Frontier H
  orchard : Frontier H
  ironwood : Frontier H

variable {c : ZcashCrypto H}

/-- There is a synchronizer for Ironwood only on a network that has it. -/
def loadIronwood (env : Env c) (db : Database H) (accounts : List (ℕ × Bool)) (start : ℕ)
    (frontier : Frontier H) : Except Fault (Option (Synchronizer (ironwoodProtocol c))) :=
  if env.writer.network.nu6_3.isSome then
    (Synchronizer.new db 3 start (loadKeys (P := ironwoodProtocol c)
      (fun a s => if db.hasPool a 3 then some (env.orchardKey a s) else none) accounts)
      frontier env.debug).map some
  else .ok none

/-- Loads the synchronizers for a scan from `start` on. -/
def Scan.load (env : Env c) (db : Database H) (accounts : List (ℕ × Bool)) (start finish : ℕ)
    (fs : Frontiers H) : Except Fault (Scan c) := do
  let saplingKeys := loadKeys (P := saplingProtocol c)
    (fun a s => if db.hasPool a 1 then some (env.saplingKey a s) else none) accounts
  let orchardKeys := loadKeys (P := orchardProtocol c)
    (fun a s => if db.hasPool a 2 then some (env.orchardKey a s) else none) accounts
  let sapling ← Synchronizer.new db 1 start saplingKeys fs.sapling env.debug
  let orchard ← Synchronizer.new db 2 start orchardKeys fs.orchard env.debug
  let ironwood ← loadIronwood env db accounts start fs.ironwood
  .ok ⟨accounts.map Prod.fst, start - 1, finish, sapling, orchard, ironwood⟩

/-- The issuances of a chunk, sent before its notes; a malformed one is not caught. -/
def issuanceMessage (assetBaseOf : AssetBaseOf) (height : ℕ) (iss : CompactIssuance) :
    Except Fault (WarpSyncMessage H) :=
  if iss.assetDescHash.length ≠ 32 then .error unwrapNone
  else match assetBaseOf iss.ik iss.assetDescHash with
    | .ok base => .ok (.issuance ⟨iss.assetDescHash, iss.ik, base, iss.finalize, height⟩)
    | .error _ => .error (.panic "invalid issuer key in issuance")

def issuanceMessages (assetBaseOf : AssetBaseOf) (blocks : List (CompactBlock H)) :
    Except Fault (List (WarpSyncMessage H)) :=
  flatMapM (fun t : TxAt H =>
    t.tx.issuances.mapM (issuanceMessage assetBaseOf t.block.height)) (chunkTxs blocks)

/-- `add` of a synchronizer that may be absent. -/
def addIronwood (assetBaseOf : AssetBaseOf) (blocks : List (CompactBlock H)) :
    Option (Synchronizer (ironwoodProtocol c)) →
      Except Fault (Option (Synchronizer (ironwoodProtocol c)) × List (WarpSyncMessage H))
  | none => .ok (none, [])
  | some s => do
    let a ← s.add assetBaseOf blocks
    .ok (some a.1, a.2)

/-- One chunk: the scan after it and the messages sent before the commit. -/
def Scan.process (env : Env c) (scan : Scan c) (blocks : List (CompactBlock H)) :
    Except Fault (Scan c × List (WarpSyncMessage H)) :=
  match blocks.getLast? with
  | none => .error unwrapNone
  | some last => do
    let iss ← issuanceMessages env.assetBaseOf blocks
    let s ← scan.sapling.add env.assetBaseOf blocks
    let o ← scan.orchard.add env.assetBaseOf blocks
    let i ← addIronwood env.assetBaseOf blocks scan.ironwood
    .ok (⟨scan.accounts, last.height, scan.finish, s.1, o.1, i.1⟩,
      iss ++ s.2 ++ o.2 ++ i.2 ++ [.blockHeader ⟨last.height, last.hash, last.time⟩])

/-! ### The wallet -/

structure State (c : ZcashCrypto H) where
  db : Database H
  scan : Option (Scan c)

/-- What the wallet does, one database transaction or load at a time. -/
inductive Event (H : Type) where
  /-- Old checkpoints are pruned at the head of a sync. -/
  | prune (account height : ℕ)
  | recover (accounts : List ℕ)
  /-- A range of heights: the transparent pass has ended and the shielded scan starts. -/
  | range (accounts : List (ℕ × Bool)) (limit start finish : ℕ) (fs : Frontiers H)
  /-- A chunk, with the headers that were saved since the last one. -/
  | chunk (headers : List BlockHeader) (blocks : List (CompactBlock H))
  /-- The scan reports a reorganization: its rewind is committed, then it ends. -/
  | reorg (height : ℕ)
  /-- The scan has read its range and the channel closes. -/
  | done (headers : List BlockHeader)
  /-- The scan is cancelled, fails, or the process dies. -/
  | stop
  | rewind (account height : ℕ)
  | reset (account : ℕ)

/-- The transparent pass moves the transparent height of the accounts it scanned. -/
def endTransparentPass (db : Database H) (accounts : List ℕ) (limit finish : ℕ) : Database H :=
  { db with
    syncHeights := db.syncHeights.update
      (fun r => if r.account ∈ accounts ∧ r.pool = 0 ∧
          db.transparentAddressesToScan r.account limit ≠ [] then { r with height := finish } else r)
      (by intro a b; simp only [Row.Clash]; split <;> split <;> exact id) }

instance (blocks : List (CompactBlock H)) : Decidable (Ascending blocks) :=
  inferInstanceAs (Decidable (blocks.Pairwise fun a b => a.height < b.height))

/-- The accounts of a range are those at its start, with all their pools since recovery;
    nothing is scanned before Sapling. -/
def rangeReady (network : Network) (db : Database H) (accounts : List ℕ) (start : ℕ) : Bool :=
  accounts.all fun a => (db.accountSeam a).any fun seam =>
    max (seam + 1) network.sapling = start ∧ ∀ h ∈ db.heights a, h = seam

/-- Chunks arrive in chain order. -/
def chunkReady (scan : Scan c) (blocks : List (CompactBlock H)) : Bool :=
  !blocks.isEmpty && decide (Ascending blocks) &&
    blocks.all fun b => decide (scan.height < b.height)

/-- A chunk is one database transaction; a fault of the scan or of the writer rolls it back
    and ends the scan. -/
def commitChunk (env : Env c) (db : Database H) (scan : Scan c) (headers : List BlockHeader)
    (blocks : List (CompactBlock H)) : State c :=
  match scan.process env blocks with
  | .error _ => ⟨db, none⟩
  | .ok (scan', msgs) =>
    match commitWarpMessages env.writer db (headers.map .blockHeader ++ msgs) with
    | .error _ => ⟨db, none⟩
    | .ok db' => ⟨db', some scan'⟩

/-- A database transaction that fails leaves the database as it was. -/
def orKeep (db : Database H) : Except Fault (Database H) → Database H
  | .ok db' => db'
  | .error _ => db

def commitOrKeep (env : Env c) (db : Database H) (msgs : List (WarpSyncMessage H)) : Database H :=
  orKeep db (commitWarpMessages env.writer db msgs)

/-- One step under the lock. Everything but the scan's own steps waits for it to end. -/
def step (env : Env c) (w : State c) (e : Event H) : Option (State c) :=
  match e, w.scan with
  | .prune account height, none => some ⟨w.db.pruneOldCheckpoints account height, none⟩
  | .recover accounts, none => some ⟨(w.db.recoverFromPartialSync accounts).1, none⟩
  | .range accounts limit start finish fs, none =>
    let ids := accounts.map Prod.fst
    if rangeReady env.writer.network w.db ids start ∧ start ≤ finish then
      let db := endTransparentPass w.db ids limit finish
      match Scan.load env db accounts start finish fs with
      | .ok scan => some ⟨db, some scan⟩
      | .error _ => some ⟨db, none⟩
    else none
  | .chunk headers blocks, some scan =>
    if chunkReady scan blocks then some (commitChunk env w.db scan headers blocks) else none
  | .reorg height, some scan =>
    some ⟨commitOrKeep env w.db [.rewind scan.accounts height], none⟩
  | .done headers, some _ => some ⟨commitOrKeep env w.db (headers.map .blockHeader), none⟩
  | .stop, some _ => some ⟨w.db, none⟩
  | .rewind account height, none =>
    some ⟨orKeep w.db (w.db.rewindSync env.writer.network account height), none⟩
  | .reset account, none => some ⟨orKeep w.db (w.db.resetSync env.writer.network account), none⟩
  | _, _ => none

end ZcashSdk.Wallet
