import ZcashSdk.Lib.Loops
import ZcashSdk.Db.Messages

set_option autoImplicit false

/-!
# Note selection

Notes are selected by a greedy baseline and a best-first search that improves on it until
its budget runs out. The cost of a selection is the value that crosses pools, and then the
fee. Sums are checked, so that a run that would overflow ends in a fault.
-/
namespace ZcashSdk.Pay.Solve
open Db Loops

/-- A panic: of checked arithmetic, or of an index into a slice. -/
inductive Fault where
  | overflow
  | index
  deriving DecidableEq

/-! ### Machine integers -/

def u64 (n : ℕ) : Except Fault ℕ := if n < 2 ^ 64 then .ok n else .error .overflow

def i64 (n : ℤ) : Except Fault ℤ :=
  if -2 ^ 63 ≤ n ∧ n < 2 ^ 63 then .ok n else .error .overflow

/-- `usize` as an index into a slice of so many elements. -/
def index (i length : ℕ) : Except Fault Unit := if i < length then .ok () else .error .index

def maxU64 : ℕ := 2 ^ 64 - 1
def maxU32 : ℕ := 2 ^ 32 - 1

/-- `u64::saturating_add`. -/
def satU64 (m n : ℕ) : ℕ := min (m + n) maxU64

/-- `u32::saturating_add(1)`. -/
def bump (n : ℕ) : ℕ := min (n + 1) maxU32

/-! ### Notes, outputs and states -/

def numPools : ℕ := 4
def costPerAction : ℕ := 5000

structure Note where
  pool : ℕ
  amount : ℕ
  poolIndex : ℕ
  assetIndex : ℕ
  deriving DecidableEq, Inhabited

structure Output where
  pool : ℕ
  amount : ℕ
  assetIndex : ℕ
  deriving DecidableEq

structure Selection where
  inputs : List Note
  perPoolIndices : ℕ → List ℕ
  changePool : ℕ
  fee : ℕ

/-- Sums and counts of the notes selected so far; `Vec`s and arrays are functions of the index. -/
structure State where
  assetSums : ℕ → ℕ
  balance : ℕ → ℤ
  nInputs : ℕ → ℕ
  orchardAssetInputs : ℕ → ℕ
  tin : ℕ
  tout : ℕ
  selected : List ℕ

structure Context where
  notes : List Note
  nAssets : ℕ
  assetOutputAmounts : ℕ → ℕ
  outputAmounts : ℕ → ℕ
  nOutputs : ℕ → ℕ
  orchardAssetOutputs : ℕ → ℕ
  fUnit : ℕ
  migration : Bool
  recipientPaysFee : Bool
  firstRecipientAmount : ℕ

/-! ### Fees -/

def graceActions : ℕ := 2

/-- A shielded bundle with anything in it has at least two actions. -/
def bundleActions (ins outs : ℕ) : ℕ := if 0 < ins ∨ 0 < outs then max (max ins outs) 2 else 0

/-- Orchard actions, unless they were paired per asset. A migration pairs none. -/
def poolOrchardActions (ins outs : ℕ) (migration : Bool) : Option ℕ → Except Fault ℕ
  | some actions => .ok actions
  | none =>
    if 0 < ins ∨ 0 < outs then
      if migration then (u64 (ins + outs)).map fun n => max n 2
      else .ok (max (max ins outs) 2)
    else .ok 0

def computeFee (nInputs nOutputs : ℕ → ℕ) (changePool fUnit : ℕ) (migration : Bool)
    (orchardActions : Option ℕ) : Except Fault ℕ := do
  let nOuts := Function.update nOutputs changePool (bump (nOutputs changePool))
  let t := max (nInputs 0) (nOuts 0)
  let s := bundleActions (nInputs 1) (nOuts 1)
  let o ← poolOrchardActions (nInputs 2) (nOuts 2) migration orchardActions
  let iw := bundleActions (nInputs 3) (nOuts 3)
  let ts ← u64 (t + s)
  let tso ← u64 (ts + o)
  let all ← u64 (tso + iw)
  u64 (max all graceActions * fUnit)

section Evaluate
variable (ctx : Context)

/-- Spends and outputs are paired inside an asset. -/
def orchardOutputs (state : State) (changePool asset : ℕ) : ℕ :=
  if asset = 0 ∧ changePool = 2 then bump (ctx.orchardAssetOutputs asset)
  else if 0 < asset ∧ ctx.assetOutputAmounts asset < state.assetSums asset then
    bump (ctx.orchardAssetOutputs asset)
  else ctx.orchardAssetOutputs asset

def zsaOrchardActions (state : State) (changePool : ℕ) : Except Fault (Option ℕ) :=
  if ctx.nAssets ≤ 1 then .ok none
  else do
    let actions ← (List.range ctx.nAssets).foldlM (fun sum asset =>
      u64 (sum + max (state.orchardAssetInputs asset) (orchardOutputs ctx state changePool asset))) 0
    .ok (some (if 0 < actions then max actions 2 else 0))

def feeForChangePool (state : State) (changePool : ℕ) : Except Fault ℕ := do
  let actions ← zsaOrchardActions ctx state changePool
  computeFee state.nInputs ctx.nOutputs changePool ctx.fUnit ctx.migration actions

def zecNeeded (fee : ℕ) : ℕ :=
  if ctx.recipientPaysFee then ctx.assetOutputAmounts 0
  else satU64 (ctx.assetOutputAmounts 0) fee

def isFeasible (state : State) (fee : ℕ) : Bool :=
  zecNeeded ctx fee ≤ state.assetSums 0 ∧
    ∀ i ∈ List.range ctx.nAssets, 1 ≤ i → ctx.assetOutputAmounts i ≤ state.assetSums i

/-- The value that crosses pools: all that is transparent, and what each shielded pool gains or
    loses, with the change in its pool. -/
def turnstile (state : State) (changePool change : ℕ) : Except Fault ℕ := do
  let transparent ← u64 (state.tin + state.tout)
  let shielded ← [1, 2, 3].foldlM (fun sum p => do
    let bal := state.balance p
    let adjusted ← (if p = changePool then i64 (bal - asI64 change) else .ok bal)
    u64 (sum + adjusted.natAbs)) 0
  u64 (transparent + shielded)

/-- A change pool, with its cost and fee; the sentinel costs `u64::MAX`. -/
structure Best where
  cost : ℕ
  fee : ℕ
  pool : ℕ

/-- Lexicographic order on cost and fee. -/
def isBetterSolution (cost fee bestCost bestFee : ℕ) : Bool :=
  cost < bestCost ∨ cost = bestCost ∧ fee < bestFee

def tryChangePool (state : State) (best : Best) (cp : ℕ) : Except Fault Best := do
  let fee ← feeForChangePool ctx state cp
  if ctx.recipientPaysFee ∧ ctx.firstRecipientAmount < fee then .ok best
  else if !isFeasible ctx state fee then .ok best
  else do
    let cost ← turnstile state cp (state.assetSums 0 - zecNeeded ctx fee)
    .ok (if isBetterSolution cost fee best.cost best.fee then ⟨cost, fee, cp⟩ else best)

/-- The cheapest change pool; the cost is `u64::MAX` when no pool will do. -/
def evaluate (state : State) : Except Fault (ℕ × ℕ) := do
  let best ← (List.range numPools).foldlM (tryChangePool ctx state) ⟨maxU64, maxU64, 0⟩
  .ok (best.cost, best.pool)

/-! ### Bounds -/

def remainingNotes (state : State) : List (ℕ × Note) :=
  (ctx.notes.zipIdx.filter fun n => n.2 ∉ state.selected).map fun n => (n.2, n.1)

def remainingByPool (state : State) : Except Fault (ℕ → ℕ) :=
  (remainingNotes ctx state).foldlM (fun sums n => do
    index n.2.pool numPools
    let sum ← u64 (sums n.2.pool + n.2.amount)
    .ok (Function.update sums n.2.pool sum)) fun _ => 0

/-- What is transparent only grows, and a pool is balanced at best by all its notes that are
    left. -/
def lowerBound (state : State) : Except Fault ℕ := do
  let bound ← u64 (state.tin + state.tout)
  let remaining ← remainingByPool ctx state
  [1, 2, 3].foldlM (fun bound p => u64 (bound + ((state.balance p).natAbs - remaining p))) bound

/-! ### Transitions -/

def initialBalance : Except Fault (ℕ → ℤ) :=
  (List.range numPools).foldlM (fun balance p => do
    let b ← i64 (-asI64 (ctx.outputAmounts p))
    .ok (Function.update balance p b)) fun _ => 0

def initialState : Except Fault State := do
  let balance ← initialBalance ctx
  .ok { assetSums := fun _ => 0, balance, nInputs := fun _ => 0, orchardAssetInputs := fun _ => 0,
        tin := 0, tout := ctx.outputAmounts 0, selected := [] }

def apply (state : State) (noteIdx : ℕ) (note : Note) : Except Fault State := do
  index note.assetIndex ctx.nAssets
  let sum ← u64 (state.assetSums note.assetIndex + note.amount)
  index note.pool numPools
  let orchard := if note.pool = 2 then
    Function.update state.orchardAssetInputs note.assetIndex
      (bump (state.orchardAssetInputs note.assetIndex)) else state.orchardAssetInputs
  let tin ← (if note.pool = 0 then u64 (state.tin + note.amount) else .ok state.tin)
  let bal ← (if note.pool = 0 then .ok (state.balance 0)
    else i64 (state.balance note.pool + asI64 note.amount))
  .ok { state with
    selected := state.selected ++ [noteIdx]
    assetSums := Function.update state.assetSums note.assetIndex sum
    nInputs := Function.update state.nInputs note.pool (bump (state.nInputs note.pool))
    orchardAssetInputs := orchard
    tin := tin
    balance := Function.update state.balance note.pool bal }

def noteAt (i : ℕ) : Except Fault Note :=
  match ctx.notes[i]? with
  | some n => .ok n
  | none => .error .index

def applyAll (state : State) (idxs : List ℕ) : Except Fault State :=
  idxs.foldlM (fun s i => do
    let note ← noteAt ctx i
    apply ctx s i note) state

/-! ### Expansion order -/

/-- Prefers notes that balance their pool, and small ones among these. -/
def localScore (note : Note) (state : State) : Except Fault ℤ := do
  index note.pool numPools
  let bal := state.balance note.pool
  let moved ← i64 (bal + asI64 note.amount)
  let reduction ← i64 (asI64 bal.natAbs - asI64 moved.natAbs)
  i64 (reduction - (asI64 note.amount).tdiv 1000)

def topKByLocalHeuristic (remaining : List (ℕ × Note)) (state : State) (k : ℕ) :
    Except Fault (List (ℕ × Note)) :=
  if remaining.length ≤ k then .ok remaining
  else do
    let scored ← remaining.mapM fun n => (localScore n.2 state).map fun score => (score, n)
    .ok (((scored.insertionSort fun a b => b.1 ≤ a.1).take k).map Prod.snd)

/-- Balances rounded towards zero. -/
def quantise (b : ℤ) : ℤ := b.tdiv 1000 * 1000

abbrev StateKey := List ℤ × List ℤ × ℕ × List ℕ × List ℕ

def stateKey (state : State) : StateKey :=
  ((List.range ctx.nAssets).map fun a => quantise (asI64 (state.assetSums a)),
    (List.range numPools).map fun p => quantise (state.balance p),
    state.tout,
    (List.range numPools).map state.nInputs,
    (List.range ctx.nAssets).map state.orchardAssetInputs)

/-! ### The greedy baseline -/

/-- Takes notes in the given order until they will do. -/
def greedyFrom : List ℕ → State → Except Fault (Option (State × ℕ × ℕ))
  | [], state => do
    let (cost, pool) ← evaluate ctx state
    .ok (if cost = maxU64 then none else some (state, cost, pool))
  | i :: order, state => do
    let (cost, pool) ← evaluate ctx state
    if cost = maxU64 then do
      let note ← noteAt ctx i
      let state ← apply ctx state i note
      greedyFrom order state
    else .ok (some (state, cost, pool))

/-- Largest notes first. -/
def greedyOrder : List ℕ :=
  (List.range ctx.notes.length).insertionSort fun a b =>
    ((ctx.notes[b]?).map Note.amount).getD 0 ≤ ((ctx.notes[a]?).map Note.amount).getD 0

def greedySolution : Except Fault (Option (State × ℕ × ℕ)) := do
  let state ← initialState ctx
  greedyFrom ctx (greedyOrder ctx) state

/-- The baseline, or all notes when it fails. -/
def baseline : Except Fault (Option (State × ℕ × ℕ)) := do
  match ← greedySolution ctx with
  | some found => .ok (some found)
  | none =>
    let start ← initialState ctx
    let state ← applyAll ctx start (List.range ctx.notes.length)
    let (cost, pool) ← evaluate ctx state
    .ok (if cost = maxU64 then none else some (state, cost, pool))

/-! ### Best-first search -/

/-- `expired n`: the time was up when the `n`-th node was taken. -/
structure Budget where
  maxNodes : ℕ
  beamWidth : ℕ
  expired : ℕ → Bool

structure QueueItem where
  bound : ℕ
  seq : ℕ
  state : State

def QueueItem.le (a b : QueueItem) : Bool := a.bound < b.bound ∨ a.bound = b.bound ∧ a.seq ≤ b.seq

/-- Takes the least item from the heap. -/
def popMin : List QueueItem → Option (QueueItem × List QueueItem)
  | [] => none
  | q :: qs =>
    match popMin qs with
    | none => some (q, [])
    | some (least, rest) => if q.le least then some (q, qs) else some (least, q :: rest)

structure Incumbent where
  state : State
  cost : ℕ
  fee : ℕ
  pool : ℕ

structure Frontier where
  heap : List QueueItem
  seen : StateKey → Option ℕ
  seq : ℕ

/-- A child is queued unless it cannot win or a state like it was queued with no larger bound. -/
def pushChild (state : State) (bestCost : ℕ) (f : Frontier) (n : ℕ × Note) :
    Except Fault Frontier := do
  let child ← apply ctx state n.1 n.2
  let childBound ← lowerBound ctx child
  if bestCost < childBound then .ok f
  else
    let key := stateKey ctx child
    if (f.seen key).any fun bound => bound ≤ childBound then .ok f
    else
      let seq := satU64 f.seq 1
      .ok ⟨f.heap ++ [⟨childBound, seq, child⟩], Function.update f.seen key (some childBound), seq⟩

def challenge (state : State) (best : Incumbent) : Except Fault Incumbent := do
  let (cost, pool) ← evaluate ctx state
  let fee ← feeForChangePool ctx state pool
  .ok (if cost ≠ maxU64 ∧ isBetterSolution cost fee best.cost best.fee then ⟨state, cost, fee, pool⟩
    else best)

/-- Queues the children of a state, unless it has more than enough already. -/
def expand (beamWidth : ℕ) (state : State) (bestCost : ℕ) (f : Frontier) :
    Except Fault Frontier :=
  let remaining := remainingNotes ctx state
  if remaining.isEmpty then .ok f
  else
    let maxRemaining := ((remaining.map fun n => n.2.amount).max?).getD 0
    if satU64 (ctx.assetOutputAmounts 0) maxRemaining < state.assetSums 0 then .ok f
    else do
      let candidates ← topKByLocalHeuristic remaining state beamWidth
      candidates.foldlM (pushChild ctx state bestCost) f

/-- The loop, with the number of nodes taken so far; it is left at the latest after one node more
    than the budget has. -/
def search (budget : Budget) : (fuel nodes : ℕ) → Frontier → Incumbent → Except Fault Incumbent
  | 0, _, _, best => .ok best
  | fuel + 1, nodes, f, best =>
    match popMin f.heap with
    | none => .ok best
    | some (item, heap) => do
      let nodes ← u64 (nodes + 1)
      if budget.maxNodes < nodes ∨ budget.expired nodes then .ok best
      else if best.cost < item.bound then search budget fuel nodes { f with heap } best
      else do
        let best ← challenge ctx item.state best
        let f ← expand ctx budget.beamWidth item.state best.cost { f with heap }
        search budget fuel nodes f best

/-- The search from the empty selection, when that may win at all. -/
def improve (budget : Budget) (best : Incumbent) : Except Fault Incumbent := do
  let start ← initialState ctx
  let bound ← lowerBound ctx start
  let heap := if best.cost < bound then [] else [⟨bound, 0, start⟩]
  search ctx budget (budget.maxNodes + 1) 0 ⟨heap, fun _ => none, 0⟩ best

def pushIndex (indices : ℕ → List ℕ) (n : Note) : Except Fault (ℕ → List ℕ) := do
  index n.pool numPools
  .ok (Function.update indices n.pool (indices n.pool ++ [n.poolIndex]))

def buildSelection (state : State) (fee pool : ℕ) : Except Fault Selection := do
  let inputs ← state.selected.mapM (noteAt ctx)
  let indices ← inputs.foldlM pushIndex fun _ => []
  .ok ⟨inputs, indices, pool, fee⟩

end Evaluate

/-! ### Selection -/

/-- ZEC notes that cannot pay for their own action are left out; other assets pay no fee. -/
def isCandidate (fUnit : ℕ) (n : Note) : Bool := n.assetIndex ≠ 0 ∨ fUnit ≤ n.amount

structure Aggregates where
  outputAmounts : ℕ → ℕ := fun _ => 0
  nOutputs : ℕ → ℕ := fun _ => 0
  assetOutputAmounts : ℕ → ℕ := fun _ => 0
  orchardAssetOutputs : ℕ → ℕ := fun _ => 0

def addOutput (nAssets : ℕ) (agg : Aggregates) (o : Output) : Except Fault Aggregates := do
  index o.assetIndex nAssets
  let sum ← u64 (agg.assetOutputAmounts o.assetIndex + o.amount)
  let agg := { agg with
    assetOutputAmounts := Function.update agg.assetOutputAmounts o.assetIndex sum }
  if o.pool < numPools then
    .ok { agg with
      outputAmounts := Function.update agg.outputAmounts o.pool
        (satU64 (agg.outputAmounts o.pool) o.amount)
      nOutputs := Function.update agg.nOutputs o.pool (bump (agg.nOutputs o.pool))
      orchardAssetOutputs := if o.pool = 2 then
        Function.update agg.orchardAssetOutputs o.assetIndex
          (bump (agg.orchardAssetOutputs o.assetIndex)) else agg.orchardAssetOutputs }
  else .ok agg

/-- One more than the largest asset index, as a `u8`. -/
def countAssets (outputs : List Output) : Except Fault ℕ :=
  let n := ((outputs.map Output.assetIndex).max?).getD 0 + 1
  if n < 2 ^ 8 then .ok n else .error .overflow

/-- Shielded notes first, and larger ones first among these. -/
def noteLe (a b : Note) : Prop :=
  (if a.pool = 0 then 1 else 0) < (if b.pool = 0 then 1 else 0) ∨
    ((if a.pool = 0 then 1 else 0) = (if b.pool = 0 then 1 else 0) ∧ b.amount ≤ a.amount)

instance : DecidableRel noteLe := fun _ _ => inferInstanceAs (Decidable (_ ∨ _))

def sumAmounts (notes : List Note) : Except Fault ℕ :=
  notes.foldlM (fun sum n => u64 (sum + n.amount)) 0

section Select
variable (notes : List Note) (outputs : List Output) (fUnit : ℕ)
  (migration recipientPaysFee : Bool) (firstRecipientAmount : ℕ)

/-- What the search is run on; `none` when no candidate is left. -/
def buildContext : Except Fault (Option Context) := do
  let _ ← sumAmounts notes
  let filtered := notes.filter (isCandidate fUnit)
  if filtered.isEmpty then .ok none
  else do
    let nAssets ← countAssets outputs
    let agg ← outputs.foldlM (addOutput nAssets) {}
    .ok (some {
      notes := filtered.insertionSort noteLe
      nAssets
      assetOutputAmounts := agg.assetOutputAmounts
      outputAmounts := agg.outputAmounts
      nOutputs := agg.nOutputs
      orchardAssetOutputs := agg.orchardAssetOutputs
      fUnit, migration, recipientPaysFee, firstRecipientAmount })

def greedySelection : Except Fault (Option Selection) := do
  match ← buildContext notes outputs fUnit migration recipientPaysFee firstRecipientAmount with
  | none => .ok none
  | some ctx =>
    match ← greedySolution ctx with
    | none => .ok none
    | some (state, _, pool) =>
      let fee ← feeForChangePool ctx state pool
      (buildSelection ctx state fee pool).map some

/-- `none` when the notes cannot pay for the outputs and the fee. -/
def selectNotes (budget : Budget) : Except Fault (Option Selection) := do
  match ← buildContext notes outputs fUnit migration recipientPaysFee firstRecipientAmount with
  | none => .ok none
  | some ctx =>
    match ← baseline ctx with
    | none => .ok none
    | some (state, cost, pool) =>
      let fee ← feeForChangePool ctx state pool
      let best ← improve ctx budget ⟨state, cost, fee, pool⟩
      (buildSelection ctx best.state best.fee best.pool).map some

end Select

end ZcashSdk.Pay.Solve
