import ZcashSdk.Shielded.Synchronizer

set_option autoImplicit false

/-!
# A small instance of the external crates

Hashes are natural numbers, a node weighs its right child double, and a Sapling output
belongs to the viewing key named by its ephemeral key. The nullifier of a note depends
on its nullifier key and its position, as in Sapling. `pairwiseHasher` is the combine
step of the tree crate for any node hash.
-/
namespace ZcashSdk.Shielded
open MerkleTree

section Pairwise
variable {H : Type} (h : NodeHash H)

/-- Neighbours are hashed in pairs; an absent left one leaves the pair absent. -/
def combinePair (d : ℕ) (cs : List (Option H)) (i : ℕ) : Option H :=
  match cs[2 * i]?, cs[2 * i + 1]? with
  | some (some l), some r => some (h.combine d l (r.getD (emptyRoot h d)))
  | _, _ => none

def pairwiseHasher : Hasher H where
  nodeHash := h
  parallelCombineOpt d cs n := (List.range n).map (combinePair h d cs)
  parallelCombineOpt_length := by simp
  parallelCombineOpt_pair := by
    intro d cs n i l r hi hl hr
    simp [hi, combinePair, hl, hr]
  toAuthPath e := (List.range merkleDepth).map (fillingRoot h (Edge.slot e))
  witnessRoot p x o path :=
    climb h p x (fun d => ((Edge.slot o d).getD
      (if ∃ k < d, Edge.slot o k = none then emptyRoot h d
        else path.getD d (emptyRoot h d)))) merkleDepth

end Pairwise

def weighted : NodeHash ℕ := ⟨fun _ l r => l + 2 * r, 0⟩

def sampleNote (n cmx : ℕ) : ParsedNote ℕ ℕ :=
  { note := n, cmx := cmx, value := 1, rcm := [], rho := [], diversifier := [], assetBase := [] }

def sampleCrypto : ZcashCrypto ℕ where
  SaplingIvk := UInt8
  SaplingNk := ℕ
  SaplingNote := ℕ
  OrchardIvk := UInt8
  OrchardFvk := ℕ
  OrchardNote := ℕ
  saplingHasher := pairwiseHasher weighted
  orchardHasher := pairwiseHasher weighted
  parseSapling _ ivk co :=
    .ok (if co.epk.headD 0 = ivk then some (sampleNote co.cmu co.cmu) else none)
  saplingNf nk position _ := 1000 * nk + position
  orchardPlaintext ivk ca := .ok [if ca.ephemeralKey.headD 0 = ivk then 2 else 0]
  plaintextVersionIsValid _ _ := true
  parseZsa _ ca _ := .ok (some (sampleNote ca.cmx ca.cmx))
  parseIronwood _ ca _ := .ok (some (sampleNote ca.cmx ca.cmx))
  parseOrchard _ ca _ := .ok (some (sampleNote ca.cmx ca.cmx))
  orchardNf nk n := 1000 * nk + n
  isAddress _ := true
  ownsAddress ivk raw := raw.headD 0 = ivk
  constructIssuanceNote note _ := .ok (sampleNote note.value note.value)

abbrev sampleProtocol : ShieldedProtocol ℕ := saplingProtocol sampleCrypto

def sampleKey : Key sampleProtocol := ⟨1, 0, (7 : UInt8), (1 : ℕ)⟩

def sampleAssetBase : AssetBaseOf := fun ik desc => .ok (ik ++ desc)

/-- An output with commitment `cmx` for the viewing key `ivk`. -/
def sampleOutput (ivk : UInt8) (cmx : ℕ) : CompactSaplingOutput ℕ :=
  ⟨cmx, [ivk], List.replicate compactNoteSize 0⟩

def sampleTx (hash : UInt8) (spends : List ℕ) (outputs : List (CompactSaplingOutput ℕ)) :
    CompactTx ℕ :=
  { hash := [hash], spends := spends.map fun nf => ⟨nf⟩, outputs := outputs, actions := [],
    ironwoodActions := [], issuances := [] }

def sampleBlock (height : ℕ) (vtx : List (CompactTx ℕ)) : CompactBlock ℕ :=
  { height := height, hash := [UInt8.ofNat height], prevHash := [UInt8.ofNat (height - 1)],
    time := height, vtx := vtx }

def sampleSynchronizer : Synchronizer sampleProtocol :=
  { pool := 1, keys := [sampleKey], position := 0, utxos := [], treeState := fun _ => none,
    debug := false }

end ZcashSdk.Shielded
