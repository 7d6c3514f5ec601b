import ZcashSdk.Lib.Loops
import ZcashSdk.Shielded.Protocol

set_option autoImplicit false

/-!
# The synchronizer of one shielded pool

`add` is one chunk of blocks: it finds the wallet's notes and places them in chain
order, advances the note commitment tree level by level together with the witnesses,
reports every witness, and then removes what the chunk spends. The messages it sends
are returned in order. Nested loops over blocks and their transactions run over
`chunkTxs`; the hash map of tracked notes is a list without repeated keys.
-/
namespace ZcashSdk.Shielded
open Loops

variable {H : Type}

structure Key (P : ShieldedProtocol H) where
  account : ℕ
  scope : ℕ
  ivk : P.IVK
  nk : P.NK

structure Synchronizer (P : ShieldedProtocol H) where
  pool : ℕ
  keys : List (Key P)
  position : ℕ
  utxos : List (UTXO H)
  treeState : Edge H
  /-- Whether the `warp` target logs at debug level, which also refreshes the anchors. -/
  debug : Bool

/-- Derives the asset base of an issuer key and a description hash; an undecodable key is
    an error. -/
abbrev AssetBaseOf := Bytes → Bytes → Except String Bytes

structure TxAt (H : Type) where
  block : CompactBlock H
  ivtx : ℕ
  tx : CompactTx H

def blockTxs (b : CompactBlock H) : List (TxAt H) :=
  b.vtx.zipIdx.map fun t => ⟨b, t.2, t.1⟩

def chunkTxs (blocks : List (CompactBlock H)) : List (TxAt H) := blocks.flatMap blockTxs

/-! ### Finding notes -/

section Scan
variable {P : ShieldedProtocol H}

abbrev Found (P : ShieldedProtocol H) := P.PNote × Note H × P.NK

/-- A decryption error is logged and the output skipped; a panic is not caught. -/
def orWarn {α : Type} : Except Fault (Option α) → Except Fault (Option α)
  | .error (.error _) => .ok none
  | r => r

def tryKeys (keys : List (Key P)) (decrypt : Key P → Except Fault (Option (P.PNote × Note H))) :
    Except Fault (List (Found P)) :=
  flatMapM (fun k => do
    let r ← orWarn (decrypt k)
    .ok (r.toList.map fun n => (n.1, n.2, k.nk))) keys

def decryptTx (keys : List (Key P)) (t : TxAt H) : Except Fault (List (Found P)) :=
  flatMapM (fun o => tryKeys keys fun k =>
    P.tryDecrypt k.account k.scope k.ivk t.block.height t.ivtx o.2 o.1)
    (P.extractOutputs t.tx).zipIdx

/-- The issuance notes of one transaction: their commitments in order and those among
    them that are the wallet's. -/
structure IssuanceScan (P : ShieldedProtocol H) where
  cmxs : List H
  found : List (Found P)
  noteVout : ℕ

def issuanceNote (keys : List (Key P)) (t : TxAt H) (base : Bytes) (acc : IssuanceScan P)
    (note : CompactIssueNote) : Except Fault (IssuanceScan P) := do
  let cmx ← P.computeIssuanceCmx note base
  let found ← tryKeys keys fun k =>
    P.tryDecryptIssuance k.account k.scope k.ivk t.block.height t.ivtx acc.noteVout note base
  .ok ⟨acc.cmxs ++ cmx.toList, acc.found ++ found, acc.noteVout + 1⟩

def issuanceAssetBase (assetBaseOf : AssetBaseOf) (iss : CompactIssuance) : Except Fault Bytes :=
  if iss.assetDescHash.length ≠ 32 then .error (.error "Invalid asset_desc_hash length")
  else match assetBaseOf iss.ik iss.assetDescHash with
    | .ok base => .ok base
    | .error e => .error (.error ("Invalid issuer key: " ++ e))

def issuance (assetBaseOf : AssetBaseOf) (keys : List (Key P)) (t : TxAt H)
    (acc : IssuanceScan P) (iss : CompactIssuance) : Except Fault (IssuanceScan P) := do
  let base ← issuanceAssetBase assetBaseOf iss
  iss.notes.foldlM (issuanceNote keys t base) acc

def issuanceTx (assetBaseOf : AssetBaseOf) (keys : List (Key P)) (t : TxAt H) :
    Except Fault (IssuanceScan P) :=
  t.tx.issuances.foldlM (issuance assetBaseOf keys t)
    ⟨[], [], (P.extractOutputs t.tx).length⟩

def issuanceTxs (assetBaseOf : AssetBaseOf) (keys : List (Key P)) (ts : List (TxAt H)) :
    Except Fault (List (TxAt H × IssuanceScan P)) :=
  flatMapM (fun t => do
    let i ← issuanceTx assetBaseOf keys t
    .ok [(t, i)]) ts

/-- Commitments of issuance notes by height and transaction index; a transaction without
    any has no entry. -/
def issuanceCmxs (is : List (TxAt H × IssuanceScan P)) : List ((ℕ × ℕ) × List H) :=
  is.filterMap fun i =>
    if i.2.cmxs = [] then none else some ((i.1.block.height, i.1.ivtx), i.2.cmxs)

/-- The order of `(height, ivtx, vout)`. -/
def noteLe (a b : Found P) : Prop :=
  a.2.1.height < b.2.1.height ∨ (a.2.1.height = b.2.1.height ∧
    (a.2.1.ivtx < b.2.1.ivtx ∨ (a.2.1.ivtx = b.2.1.ivtx ∧ a.2.1.vout ≤ b.2.1.vout)))

instance : DecidableRel (noteLe (P := P)) := fun a b => by
  unfold noteLe
  infer_instance

end Scan

/-! ### Placing notes -/

section Place
variable {P : ShieldedProtocol H}

structure Placed (P : ShieldedProtocol H) where
  notes : List (Note H)
  messages : List (WarpSyncMessage H)
  rest : List (Found P)

def txOf (t : TxAt H) (account : ℕ) : Transaction :=
  { account := account, height := t.block.height, time := t.block.time, txid := t.tx.hash }

/-- Consumes the notes of one transaction, whose first output has index `position`. -/
def placeNotes (t : TxAt H) (position : ℕ) : List (Found P) → Except Fault (Placed P)
  | [] => .ok ⟨[], [], []⟩
  | (n, dbn, nk) :: rest =>
    if dbn.height = t.block.height ∧ dbn.ivtx = t.ivtx then do
      let at_ := u32 (position + dbn.vout)
      let nf ← P.deriveNf nk at_ n
      let dbn := { dbn with position := at_, nf := nf, txid := t.tx.hash }
      let p ← placeNotes t position rest
      .ok ⟨dbn :: p.notes,
        .transaction (txOf t dbn.account) :: .note dbn :: p.messages, p.rest⟩
    else .ok ⟨[], [], (n, dbn, nk) :: rest⟩

def placeTxs (issuanceCount : ℕ × ℕ → Option ℕ) :
    List (TxAt H) → ℕ → List (Found P) → Except Fault (Placed P)
  | [], _, notes => .ok ⟨[], [], notes⟩
  | t :: ts, position, notes => do
    let p ← placeNotes t position notes
    let extra := (issuanceCount (t.block.height, t.ivtx)).getD 0
    let q ← placeTxs issuanceCount ts (u32 (position + ((P.extractOutputs t.tx).length + extra)))
      p.rest
    .ok ⟨p.notes ++ q.notes, p.messages ++ q.messages, q.rest⟩

variable [Inhabited H]

def toUtxo (pool : ℕ) (n : Note H) : UTXO H :=
  { id := 0, pool := pool, account := n.account, nullifier := n.nf, position := n.position,
    value := n.value, cmx := n.cmx, witness := Witness.default, txid := [] }

/-- What the first half of `add` learns from a chunk. -/
structure NoteScan (P : ShieldedProtocol H) where
  placed : Placed P
  issuanceCmxs : List ((ℕ × ℕ) × List H)

def scanNotes (assetBaseOf : AssetBaseOf) (s : Synchronizer P) (blocks : List (CompactBlock H)) :
    Except Fault (NoteScan P) := do
  let ts := chunkTxs blocks
  let actions ← flatMapM (decryptTx s.keys) ts
  let is ← issuanceTxs assetBaseOf s.keys ts
  let cmxs := issuanceCmxs is
  let notes := (actions ++ is.flatMap fun i => i.2.found).insertionSort noteLe
  let count := hashMap (cmxs.map fun e => (e.1, e.2.length))
  let placed ← placeTxs count ts s.position notes
  .ok ⟨placed, cmxs⟩

def NoteScan.newUtxos (scan : NoteScan P) (pool : ℕ) : List (UTXO H) :=
  (scan.placed.notes ++ scan.placed.rest.map fun n => n.2.1).map (toUtxo pool)

end Place

/-! ### Advancing the tree -/

section Tree
variable {P : ShieldedProtocol H}

/-- The commitments of a chunk in chain order, issuance notes after the actions of their
    transaction, and how many there are. -/
def collectCmxs (P : ShieldedProtocol H) (issuanceMap : ℕ × ℕ → Option (List H)) :
    List (TxAt H) → List H × ℕ
  | [] => ([], 0)
  | t :: ts =>
    let outputs := (P.extractOutputs t.tx).map P.extractCmx
    let iss := (issuanceMap (t.block.height, t.ivtx)).getD []
    let r := collectCmxs P issuanceMap ts
    (outputs ++ iss ++ r.1, iss.length + outputs.length + r.2)

structure TreeUpdate (H : Type) where
  cmxs : List (Option H)
  newUtxos : List (UTXO H)
  utxos : List (UTXO H)
  treeState : Edge H

def unwrapNone : Fault := .panic "called `Option::unwrap()` on a `None` value"

def indexOut : Fault := .panic "index out of bounds"

/-- `cmxs[i]`, then `unwrap` or an assertion that it is there. -/
def unwrapAt (cmxs : List (Option H)) (i : ℕ) : Except Fault H :=
  match cmxs[i]? with
  | some (some c) => .ok c
  | some none => .error unwrapNone
  | none => .error indexOut

def setOmmer (depth : Fin merkleDepth) (o : Option H) (n : UTXO H) : UTXO H :=
  { n with witness := { n.witness with ommers := Function.update n.witness.ommers depth o } }

/-- On the lowest level a note received in this chunk takes its leaf. -/
def setLeaf (depth : Fin merkleDepth) (npos nidx : ℕ) (cmxs : List (Option H)) (n : UTXO H) :
    Except Fault (UTXO H) :=
  if depth.val = 0 then do
    let value ← unwrapAt cmxs nidx
    .ok { n with witness := { n.witness with position := npos, value := value } }
  else .ok n

def setSibling (depth : Fin merkleDepth) (nidx : ℕ) (cmxs : List (Option H)) (n : UTXO H) :
    Except Fault (UTXO H) :=
  if nidx % 2 = 0 then
    if nidx + 1 < cmxs.length then do
      let c ← unwrapAt cmxs (nidx + 1)
      .ok (setOmmer depth (some c) n)
    else .ok (setOmmer depth none n)
  else do
    let c ← unwrapAt cmxs (nidx - 1)
    .ok (setOmmer depth (some c) n)

def updateNew (depth : Fin merkleDepth) (position : ℕ) (cmxs : List (Option H)) (n : UTXO H) :
    Except Fault (UTXO H) := do
  let npos := n.position >>> depth.val
  let nidx := subU32 npos position
  let n ← setLeaf depth npos nidx cmxs n
  setSibling depth nidx cmxs n

/-- A note of an earlier chunk takes the second node of this level if it misses one. -/
def updateOld (depth : Fin merkleDepth) (cmxs : List (Option H)) (n : UTXO H) :
    Except Fault (UTXO H) :=
  if 2 ≤ cmxs.length ∧ n.witness.ommers depth = none then do
    let c ← unwrapAt cmxs 1
    .ok (setOmmer depth (some c) n)
  else .ok n

/-- The carry from the edge, when the start position is odd at this level, and the
    position of the first node. -/
def takeCarry (start : ℕ) (depth : Fin merkleDepth) (t : TreeUpdate H) :
    Except Fault (List (Option H) × ℕ) :=
  let position := start >>> depth.val
  if position % 2 = 1 then
    match t.treeState depth with
    | some c => .ok (some c :: t.cmxs, position - 1)
    | none => .error unwrapNone
  else .ok (t.cmxs, position)

def levelStep (hasher : Hasher H) (start : ℕ) (leaves : List H) (t : TreeUpdate H)
    (depth : Fin merkleDepth) : Except Fault (TreeUpdate H) := do
  let carried ← takeCarry start depth t
  let cmxs := if depth.val = 0 then carried.1 ++ leaves.map some else carried.1
  let newUtxos ← t.newUtxos.mapM (updateNew depth carried.2 cmxs)
  let utxos ← t.utxos.mapM (updateOld depth cmxs)
  let last := if cmxs.length % 2 = 1 then cmxs.getLast?.join else none
  .ok { cmxs := hasher.parallelCombineOpt depth.val cmxs (cmxs.length / 2)
        newUtxos := newUtxos
        utxos := utxos
        treeState := Function.update t.treeState depth last }

def advanceTree (s : Synchronizer P) (leaves : List H) (newUtxos : List (UTXO H)) :
    Except Fault (TreeUpdate H) :=
  (List.finRange merkleDepth).foldlM (levelStep P.hasher s.position leaves)
    ⟨[], newUtxos, s.utxos, s.treeState⟩

end Tree

/-! ### Tracked notes -/

section Tracked
variable [DecidableEq H]

def UTXO.key (u : UTXO H) : ℕ × H := (u.account, u.nullifier)

def insertUtxo (m : List (UTXO H)) (u : UTXO H) : List (UTXO H) :=
  m.filter (fun v => v.key ≠ u.key) ++ [u]

def removeUtxo (m : List (UTXO H)) (k : ℕ × H) : Option (UTXO H) × List (UTXO H) :=
  (m.find? fun v => v.key = k, m.filter fun v => v.key ≠ k)

def spendKey (t : TxAt H) (st : List (UTXO H) × List (WarpSyncMessage H)) (k : ℕ × H) :
    List (UTXO H) × List (WarpSyncMessage H) :=
  match removeUtxo st.1 k with
  | (some utxo, rest) =>
    (rest, st.2 ++ [.transaction (txOf t utxo.account), .spend { utxo with txid := t.tx.hash }])
  | (none, _) => st

/-- The keys a transaction may spend: each nullifier for each account of the wallet. -/
def spendKeys (P : ShieldedProtocol H) (accounts : List ℕ) (t : TxAt H) : List (ℕ × H) :=
  (P.extractInputs t.tx).flatMap fun sp => accounts.map fun a => (a, P.extractNf sp)

def spendTxs (P : ShieldedProtocol H) (accounts : List ℕ) (ts : List (TxAt H))
    (utxos : List (UTXO H)) : List (UTXO H) × List (WarpSyncMessage H) :=
  ts.foldl (fun st t => (spendKeys P accounts t).foldl (spendKey t) st) (utxos, [])

variable {P : ShieldedProtocol H}

/-- With debug logging the anchor of every witness is recomputed. -/
def refreshAnchor (s : Synchronizer P) (treeState : Edge H) (u : UTXO H) : UTXO H :=
  if s.debug then
    { u with witness := { u.witness with
        anchor := P.hasher.witnessRoot u.witness.position u.witness.value u.witness.ommers
          (P.hasher.toAuthPath treeState) } }
  else u

def witnessMessage (height : ℕ) (u : UTXO H) : WarpSyncMessage H :=
  .witness u.account height u.cmx u.witness

def Synchronizer.accounts (s : Synchronizer P) : List ℕ := s.keys.map Key.account

variable [Inhabited H]

def Synchronizer.add (assetBaseOf : AssetBaseOf) (s : Synchronizer P)
    (blocks : List (CompactBlock H)) :
    Except Fault (Synchronizer P × List (WarpSyncMessage H)) :=
  match blocks.getLast? with
  | none => .ok (s, [])
  | some lastBlock => do
    let ts := chunkTxs blocks
    let scan ← scanNotes assetBaseOf s blocks
    let collected := collectCmxs P (hashMap scan.issuanceCmxs) ts
    let tree ← advanceTree s collected.1 (scan.newUtxos s.pool)
    let tracked := (tree.newUtxos.foldl insertUtxo tree.utxos).map (refreshAnchor s tree.treeState)
    let spent := spendTxs P s.accounts ts tracked
    .ok ({ s with
        position := u32 (s.position + u32 collected.2)
        utxos := spent.1
        treeState := tree.treeState },
      scan.placed.messages ++ tracked.map (witnessMessage lastBlock.height) ++ spent.2 ++
        [.checkpoint s.accounts s.pool lastBlock.height])

/-- Chunk after chunk, as the scan calls `add`. -/
def Synchronizer.addAll (assetBaseOf : AssetBaseOf) (s : Synchronizer P) :
    List (List (CompactBlock H)) → Except Fault (Synchronizer P × List (WarpSyncMessage H))
  | [] => .ok (s, [])
  | blocks :: chunks => do
    let a ← s.add assetBaseOf blocks
    let b ← a.1.addAll assetBaseOf chunks
    .ok (b.1, a.2 ++ b.2)

end Tracked

end ZcashSdk.Shielded
