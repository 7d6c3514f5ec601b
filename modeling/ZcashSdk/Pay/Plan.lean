import ZcashSdk.Db.Balance
import ZcashSdk.Pay.Solve

set_option autoImplicit false

/-!
# Planning a transaction

From the unspent notes and the recipients to what is handed to the transaction builder, which
has the last word on it: candidates are gathered by pool, stamped with an asset index and
selected from, and fee and change are worked out. What an address can receive is known
outside.
-/
namespace ZcashSdk.Pay
open Db Shielded Loops

/-! ### Candidates -/

def hasPool (mask pool : ℕ) : Bool := mask.testBit pool

/-- Ironwood, Orchard, Sapling, transparent. -/
def toBestPool (mask : ℕ) : Option ℕ := [3, 2, 1, 0].find? (hasPool mask)

/-- Only the pools in the mask, and in them only confirmed notes. -/
def restrictToSourcePools (inputPools : List (List InputNote)) (srcPools maxHeight : ℕ) :
    List (List InputNote) :=
  inputPools.zipIdx.map fun p =>
    if hasPool srcPools p.2 then p.1.filter fun n => n.height ≤ maxHeight else []

def isZecBase (base : Bytes) : Bool := base.isEmpty || base.all (· = 0)

/-- Drops ZEC notes that cannot pay for one action. -/
def dropZecDust (inputPools : List (List InputNote)) : List (List InputNote) :=
  inputPools.map fun pool =>
    pool.filter fun n => !isZecBase n.assetBase || Solve.costPerAction ≤ n.amount

/-! ### Assets -/

/-- `try_into().unwrap_or(zec_key)`. -/
def asAsset (base : Bytes) : Bytes := if base.length = 32 then base else zecKey

/-- Index 0 is ZEC; an index is a `u8`. -/
def zsaIndex (zsaAssets : List Bytes) (asset : Bytes) : Option ℕ :=
  if asset ∈ zsaAssets then some ((zsaAssets.idxOf asset + 1) % 256) else none

def resolveAssetIndex (zsaAssets : List Bytes) (base : Bytes) : ℕ :=
  if asAsset base = zecKey then 0 else (zsaIndex zsaAssets (asAsset base)).getD 0

/-- A note of an asset that no recipient gets is left out. -/
def noteAssetIndex (zsaAssets : List Bytes) (base : Bytes) : Option ℕ :=
  if asAsset base = zecKey then some 0 else zsaIndex zsaAssets (asAsset base)

def poolNotes (zsaAssets : List Bytes) (notes : List InputNote) (pool : ℕ) : List Solve.Note :=
  notes.zipIdx.filterMap fun n =>
    (noteAssetIndex zsaAssets n.1.assetBase).map fun a => ⟨pool, n.1.amount, n.2, a⟩

def selectNotesInput (zsaAssets : List Bytes) (inputPools : List (List InputNote)) :
    List Solve.Note :=
  inputPools.zipIdx.flatMap fun p => poolNotes zsaAssets p.1 p.2

/-! ### Recipients -/

structure Recipient where
  address : String
  amount : ℕ
  pools : Option ℕ
  assetBase : Bytes
  deriving DecidableEq

structure DecomposedRecipient where
  address : String
  receiverPool : ℕ
  amount : ℕ
  assetBase : Bytes
  deriving DecidableEq

/-- An output of the plan; the address of change is filled in later. -/
structure RecipientState where
  address : String
  amount : ℕ
  pool : ℕ
  assetBase : Bytes
  deriving DecidableEq

inductive PlanError where
  | bail (message : String)
  | panic (fault : Solve.Fault)
  deriving DecidableEq

def orPanic {α : Type} : Except Solve.Fault α → Except PlanError α
  | .ok a => .ok a
  | .error f => .error (.panic f)

def recipientBase (base : Bytes) : Bytes := if base.isEmpty then zecKey else base

/-- `receiver` finds the pool of an address. -/
def decompose (receiver : String → Except String ℕ) (r : Recipient) :
    Except PlanError DecomposedRecipient :=
  match receiver r.address with
  | .error message => .error (.bail message)
  | .ok pool => .ok ⟨r.address, pool, r.amount, recipientBase r.assetBase⟩

def poolPref (r : Recipient) (d : DecomposedRecipient) : ℕ :=
  (r.pools.bind toBestPool).getD d.receiverPool

def zsaAssetsOf (decomposed : List DecomposedRecipient) : List Bytes :=
  ((((decomposed.filter fun d => d.assetBase ≠ zecKey).map
    DecomposedRecipient.assetBase).dedup).insertionSort fun a b => a ≤ b).filter
      fun b => b.length = 32

def selectOutputs (zsaAssets : List Bytes) (prefs : List (ℕ × DecomposedRecipient)) :
    List Solve.Output :=
  prefs.map fun p => ⟨p.1, p.2.amount, resolveAssetIndex zsaAssets p.2.assetBase⟩

/-! ### Change and fee -/

def sumU64 (xs : List ℕ) : Except Solve.Fault ℕ := xs.foldlM (fun sum x => Solve.u64 (sum + x)) 0

/-- The selected notes of an asset; other assets than ZEC live in Orchard. -/
def zsaSelected (inputPools : List (List InputNote)) (indices : List ℕ) (asset : Bytes) :
    Except Solve.Fault ℕ := do
  let notes ← indices.mapM fun i =>
    match (inputPools[2]?).bind fun notes => notes[i]? with
    | some n => .ok n
    | none => .error .index
  sumU64 ((notes.filter fun n => asAsset n.assetBase = asset).map InputNote.amount)

def zsaNeeded (decomposed : List DecomposedRecipient) (asset : Bytes) : Except Solve.Fault ℕ :=
  sumU64 ((decomposed.filter fun d => d.assetBase = asset).map DecomposedRecipient.amount)

def zsaChanges (inputPools : List (List InputNote)) (indices : List ℕ)
    (decomposed : List DecomposedRecipient) (zsaAssets : List Bytes) :
    Except Solve.Fault (List RecipientState) :=
  flatMapM (fun asset => do
    let selected ← zsaSelected inputPools indices asset
    let needed ← zsaNeeded decomposed asset
    .ok (if needed < selected then [⟨"", selected - needed, 2, asset⟩] else [])) zsaAssets

/-- The fee is taken from the first recipient. -/
def deductFee (recipientPaysFee : Bool) (fee : ℕ) : List RecipientState → List RecipientState
  | [] => []
  | first :: rest =>
    if recipientPaysFee then { first with amount := first.amount - fee } :: rest else first :: rest

/-- Whether an asset is issued, and for the first time. -/
structure IssuanceInfo where
  firstIssuance : Bool

def issuanceFee : Option IssuanceInfo → ℕ
  | some info => (if info.firstIssuance then 2 else 1) * Solve.costPerAction
  | none => 0

structure Plan where
  inputPools : List (List InputNote)
  selection : Solve.Selection
  changePool : ℕ
  states : List RecipientState
  fee : ℕ
  change : ℕ

structure PlanArgs where
  recipients : List Recipient
  recipientPaysFee : Bool
  migration : Bool
  ironwoodActive : Bool
  issuance : Option IssuanceInfo

/-- Everything but ZEC is incompatible with Ironwood. -/
def hasZsa (args : PlanArgs) (decomposed : List DecomposedRecipient) : Bool :=
  (decomposed.any fun d => d.assetBase ≠ zecKey) || args.issuance.isSome

/-- From the selection to the outputs, the fee and the change. -/
def settlePlan (args : PlanArgs) (inputPools : List (List InputNote))
    (decomposed : List DecomposedRecipient) (zsaAssets : List Bytes)
    (selection : Solve.Selection) : Except Solve.Fault Plan := do
  let changePool := if hasZsa args decomposed then 2 else selection.changePool
  let changes ← zsaChanges inputPools (selection.perPoolIndices 2) decomposed zsaAssets
  let fee ← Solve.u64 (selection.fee + issuanceFee args.issuance)
  let states := deductFee args.recipientPaysFee fee
    (((args.recipients.zip decomposed).map fun p =>
      ⟨p.2.address, p.2.amount, poolPref p.1 p.2, p.2.assetBase⟩) ++ changes)
  let totalOutput ← sumU64 (states.map RecipientState.amount)
  let totalInput ← sumU64 (selection.inputs.map Solve.Note.amount)
  let spent ← Solve.u64 (totalOutput + fee)
  .ok ⟨inputPools, selection, changePool, states, fee, totalInput - spent⟩

/-- What is handed to the builder, for the notes left after the pools, the confirmations and the
    caller's own selection were looked at. -/
def draftTransaction (receiver : String → Except String ℕ) (budget : Solve.Budget) (args : PlanArgs)
    (inputPools : List (List InputNote)) : Except PlanError Plan := do
  let decomposed ← args.recipients.mapM (decompose receiver)
  if hasZsa args decomposed && args.ironwoodActive then
    .error (.bail "ZSA and Ironwood are incompatible")
  else do
    let zsaAssets := zsaAssetsOf decomposed
    let inputPools := dropZecDust inputPools
    let outputs := selectOutputs zsaAssets
      ((args.recipients.zip decomposed).map fun p => (poolPref p.1 p.2, p.2))
    let selected ← orPanic (Solve.selectNotes (selectNotesInput zsaAssets inputPools) outputs
      Solve.costPerAction args.migration args.recipientPaysFee
      ((args.recipients.head?.map Recipient.amount).getD 0) budget)
    match selected with
    | none => .error (.bail "No feasible note selection found")
    | some selection => orPanic (settlePlan args inputPools decomposed zsaAssets selection)

/-! ### From the database -/

section Account
variable {H : Type} [DecidableEq H]

/-- The caller may name the notes to spend. -/
def preselect (preselected : Option (List ℕ)) (inputPools : List (List InputNote)) :
    List (List InputNote) :=
  match preselected with
  | none => inputPools
  | some ids => inputPools.map fun pool => pool.filter fun n => n.id ∈ ids

/-- The transparent notes of one address, `pick` being drawn at random. -/
def pickAddress (pick : ℕ) (notes : List InputNote) : List InputNote :=
  let addresses := (notes.map InputNote.taddress).dedup.insertionSort fun a b =>
    (a.map (· + 1)).getD 0 ≤ (b.map (· + 1)).getD 0
  match addresses[pick % addresses.length]? with
  | none => []
  | some address => notes.filter fun n => n.taddress = address

/-- Shields all that one address holds; the recipient pays. -/
def smartTransparent (pick : ℕ) (inputPools : List (List InputNote)) (args : PlanArgs) :
    Except Solve.Fault (List (List InputNote) × PlanArgs) := do
  let notes := pickAddress pick ((inputPools[0]?).getD [])
  let max ← sumU64 (notes.map InputNote.amount)
  let recipient := match args.recipients.head? with
    | some first => { first with amount := max }
    | none => ⟨"", max, none, []⟩
  .ok ([notes, [], [], []], { args with recipients := [recipient], recipientPaysFee := true })

structure Source where
  account : ℕ
  srcPools : ℕ
  confirmations : ℕ
  preselected : Option (List ℕ)
  smartTransparent : Option ℕ

/-- The candidates of an account, and what is to be planned with them. -/
def gather (db : Database H) (source : Source) (args : PlanArgs) :
    Except PlanError (List (List InputNote) × PlanArgs) :=
  match db.fetchUnspentNotesByPool source.account with
  | .error message => .error (.bail message)
  | .ok inputPools =>
    let inputPools := preselect source.preselected (restrictToSourcePools inputPools source.srcPools
      (db.confirmedHeight source.account source.confirmations))
    match source.smartTransparent with
    | none => .ok (inputPools, args)
    | some pick => orPanic (smartTransparent pick inputPools args)

def draftAccount (receiver : String → Except String ℕ) (budget : Solve.Budget) (db : Database H)
    (source : Source) (args : PlanArgs) : Except PlanError Plan := do
  let (inputPools, args) ← gather db source args
  draftTransaction receiver budget args inputPools

end Account

end ZcashSdk.Pay
