import ZcashSdk.Lib.MerkleTree

set_option autoImplicit false

/-!
# Compact blocks, notes and the messages of a shielded scan

`H` is the type of 32-byte hashes: note commitments, nullifiers and tree nodes.
Other byte strings (transaction ids, block hashes, note plaintext fields) are
`Bytes`. Heights, indices and counts are natural numbers; positions are kept
modulo `2 ^ 32` where the source computes them in `u32`.
-/
namespace ZcashSdk.Shielded
open MerkleTree

abbrev Bytes := List UInt8

abbrev merkleDepth : ℕ := 32

instance : NeZero merkleDepth := ⟨by decide⟩

def u32 (n : ℕ) : ℕ := n % 2 ^ 32

/-- Wrapping `u32` subtraction of values below `2 ^ 32`. -/
def subU32 (a b : ℕ) : ℕ := u32 (a + 2 ^ 32 - b)

structure CompactSaplingSpend (H : Type) where
  nf : H

structure CompactSaplingOutput (H : Type) where
  cmu : H
  epk : Bytes
  ciphertext : Bytes

structure CompactOrchardAction (H : Type) where
  nullifier : H
  cmx : H
  ephemeralKey : Bytes
  ciphertext : Bytes

structure CompactIssueNote where
  recipient : Bytes
  value : ℕ
  rho : Bytes
  rseed : Bytes

structure CompactIssuance where
  assetDescHash : Bytes
  ik : Bytes
  notes : List CompactIssueNote
  finalize : Bool

structure CompactTx (H : Type) where
  hash : Bytes
  spends : List (CompactSaplingSpend H)
  outputs : List (CompactSaplingOutput H)
  actions : List (CompactOrchardAction H)
  ironwoodActions : List (CompactOrchardAction H)
  issuances : List CompactIssuance

structure CompactBlock (H : Type) where
  height : ℕ
  hash : Bytes
  prevHash : Bytes
  time : ℕ
  vtx : List (CompactTx H)

/-- The note record the database keeps; `H` fields are 32-byte strings. -/
structure Note (H : Type) where
  pool : ℕ
  account : ℕ
  scope : ℕ
  height : ℕ
  ivtx : ℕ
  vout : ℕ
  value : ℕ
  cmx : H
  rcm : Bytes
  rho : Bytes
  diversifier : Bytes
  assetBase : Bytes
  position : ℕ
  nf : H
  txid : Bytes
  deriving DecidableEq

structure Transaction where
  account : ℕ
  height : ℕ
  time : ℕ
  txid : Bytes
  deriving DecidableEq

/-- One optional hash for each level of the note commitment tree. -/
abbrev Edge (H : Type) := Fin merkleDepth → Option H

structure Witness (H : Type) where
  value : H
  position : ℕ
  ommers : Edge H
  anchor : H
  deriving DecidableEq

structure UTXO (H : Type) where
  id : ℕ
  pool : ℕ
  account : ℕ
  nullifier : H
  position : ℕ
  value : ℕ
  cmx : H
  witness : Witness H
  txid : Bytes
  deriving DecidableEq

structure BlockHeader where
  height : ℕ
  hash : Bytes
  time : ℕ
  deriving DecidableEq

structure Issuance where
  assetDescHash : Bytes
  ik : Bytes
  assetBase : Bytes
  finalized : Bool
  height : ℕ
  deriving DecidableEq

inductive SyncError where
  | cancelled
  | reorg (height : ℕ)
  | other (message : String)
  deriving DecidableEq

inductive WarpSyncMessage (H : Type) where
  | issuance (iss : Issuance)
  | transaction (tx : Transaction)
  | note (n : Note H)
  | witness (account height : ℕ) (cmx : H) (w : Witness H)
  | spend (utxo : UTXO H)
  | checkpoint (accounts : List ℕ) (pool height : ℕ)
  | blockHeader (bh : BlockHeader)
  | commit
  | rewind (accounts : List ℕ) (height : ℕ)
  | error (e : SyncError)
  deriving DecidableEq

/-- A fault of the program: an error it returns, or a panic. -/
inductive Fault where
  | error (message : String)
  | panic (message : String)
  deriving DecidableEq

section Defaults
variable {H : Type} [Inhabited H]

/-- The all-zero note of `..Note::default()`. -/
def Note.default : Note H :=
  { pool := 0, account := 0, scope := 0, height := 0, ivtx := 0, vout := 0, value := 0,
    cmx := Inhabited.default, rcm := [], rho := [], diversifier := [], assetBase := [],
    position := 0, nf := Inhabited.default, txid := [] }

def Witness.default : Witness H :=
  { value := Inhabited.default, position := 0, ommers := fun _ => none,
    anchor := Inhabited.default }

end Defaults

variable {H : Type}

/-- The slots of an edge as a function of the level, nothing above the tree. -/
def Edge.slot (e : Edge H) (d : ℕ) : Option H :=
  if hd : d < merkleDepth then e ⟨d, hd⟩ else none

/-- The part of the tree crate the synchronizer calls. `parallelCombineOpt` hashes
    neighbours, the level's empty root standing for a missing right one; `toAuthPath`
    and `witnessRoot` only feed the anchor kept for debugging. -/
structure Hasher (H : Type) where
  nodeHash : NodeHash H
  parallelCombineOpt : ℕ → List (Option H) → ℕ → List (Option H)
  parallelCombineOpt_length : ∀ d cs n, (parallelCombineOpt d cs n).length = n
  parallelCombineOpt_pair : ∀ d cs n i l r, i < n → cs[2 * i]? = some (some l) →
    cs[2 * i + 1]? = some r →
    (parallelCombineOpt d cs n)[i]? =
      some (some (nodeHash.combine d l (r.getD (emptyRoot nodeHash d))))
  toAuthPath : Edge H → List H
  witnessRoot : ℕ → H → Edge H → List H → H

end ZcashSdk.Shielded
