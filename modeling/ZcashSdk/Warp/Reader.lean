import ZcashSdk.Lib.Runs
import ZcashSdk.Shielded.Types

set_option autoImplicit false

/-!
# The block reader

`readBlockStream` is a machine driven by what its `select!` loop can observe: the cancel
signal, the stall timer, the replies of the compact block stream, the outcome of a send
on the chunk channel and of a reopening of the stream. The order in which these arrive is
arbitrary. A turn of the loop fixes the messages it sends and where it continues; local
variables it sets after a send are set when the send is queued, since nothing reads them
in between.
-/
namespace ZcashSdk.Warp
open Shielded

variable {H : Type}

inductive BlockMessage (H : Type) where
  | chunk (blocks : List (CompactBlock H))
  | saveHeader (header : BlockHeader)
  | reorg (accounts : List ℕ) (height : ℕ)

def BlockMessage.blocks : BlockMessage H → List (CompactBlock H)
  | .chunk bs => bs
  | _ => []

def BlockMessage.context : BlockMessage H → String
  | .chunk _ => "sending compact block chunk"
  | .saveHeader _ => "sending block header"
  | .reorg _ _ => "sending reorg"

def maxBlocksPerChunk : ℕ := 1000

/-- Waits in milliseconds before each reopening of a broken stream. -/
def streamResumeDelays : List ℕ := [500, 1000, 2000]

structure ReaderArgs where
  startHeight : ℕ
  endHeight : ℕ
  prevHash : Option Bytes
  accountIds : List ℕ
  heightsWithoutTime : List ℕ
  actionsPerSync : ℕ

inductive After where
  | select
  | resume (error : String)
  | done (result : Except SyncError Unit)

inductive Control (H : Type) where
  | select
  | sending (message : BlockMessage H) (rest : List (BlockMessage H)) (after : After)
  | reopening
  | done (result : Except SyncError Unit)

structure Reader (H : Type) where
  control : Control H
  chunk : List (CompactBlock H)
  /-- What was sent on the channel so far. -/
  sent : List (BlockMessage H)
  currentHeight : ℕ
  previousHeight : ℕ
  expectedHeight : ℕ
  actions : ℕ
  prevHash : Option Bytes
  heightsWithoutTime : List ℕ
  failures : ℕ

inductive ReaderEvent (H : Type) where
  | cancel
  | tick
  | block (b : CompactBlock H)
  | streamError (error : String)
  | streamEnd
  | sent
  | closed
  | reopened
  | refused (error : String)

def ReaderArgs.init (a : ReaderArgs) : Reader H :=
  { control := .select, chunk := [], sent := [], currentHeight := a.startHeight,
    previousHeight := 0, expectedHeight := a.startHeight, actions := 0, prevHash := a.prevHash,
    heightsWithoutTime := a.heightsWithoutTime, failures := 0 }

/-- One break of the stream: the next delay, or the end once they have run out. -/
def Reader.resume (r : Reader H) (error : String) : Reader H :=
  let failures := r.failures + 1
  match streamResumeDelays[failures - 1]? with
  | none => { r with
      failures := failures
      control := .done (.error (.other ("network: compact block stream broke " ++
        toString failures ++ " times: " ++ error))) }
  | some _ => { r with failures := failures, control := .reopening }

def Reader.goto (r : Reader H) : After → Reader H
  | .select => { r with control := .select }
  | .resume error => r.resume error
  | .done result => { r with control := .done result }

def Reader.send (r : Reader H) (messages : List (BlockMessage H)) (after : After) : Reader H :=
  match messages with
  | [] => r.goto after
  | m :: ms => { r with control := .sending m ms after }

/-- The message of a flush: none for an empty chunk. -/
def flushChunk (chunk : List (CompactBlock H)) : List (BlockMessage H) :=
  match chunk with
  | [] => []
  | _ => [.chunk chunk]

/-- After an error of the stream: flush, then resume unless everything was read. -/
def Reader.fail (a : ReaderArgs) (r : Reader H) (error : String) : Reader H :=
  { r with chunk := [] }.send (flushChunk r.chunk)
    (if a.endHeight < r.expectedHeight then .done (.error (.other error)) else .resume error)

def blockActions (b : CompactBlock H) : ℕ :=
  (b.vtx.map fun tx => tx.outputs.length + tx.actions.length).sum

def headerOf (b : CompactBlock H) : BlockHeader :=
  { height := u32 b.height, hash := b.hash, time := b.time }

/-- The header of a block whose time the wallet still misses. -/
def Reader.missingHeader (r : Reader H) (b : CompactBlock H) : List (BlockMessage H) :=
  if u32 b.height ∈ r.heightsWithoutTime then [.saveHeader (headerOf b)] else []

def Reader.accept (a : ReaderArgs) (r : Reader H) (b : CompactBlock H) : Reader H :=
  let current := u32 b.height
  let header := r.missingHeader b
  let actions := r.actions + blockActions b
  let chunk := r.chunk ++ [b]
  let full := a.actionsPerSync ≤ actions ∨ maxBlocksPerChunk ≤ chunk.length
  let r := { r with
    currentHeight := current
    prevHash := some b.hash
    expectedHeight := r.expectedHeight + 1
    failures := 0
    heightsWithoutTime := r.heightsWithoutTime.filter (· ≠ current) }
  if full then { r with chunk := [], actions := 0 }.send (header ++ flushChunk chunk) .select
  else { r with chunk := chunk, actions := actions }.send header .select

def Reader.links (r : Reader H) (b : CompactBlock H) : Bool :=
  match r.prevHash with
  | some h => h = b.prevHash
  | none => true

def Reader.onBlock (a : ReaderArgs) (r : Reader H) (b : CompactBlock H) : Reader H :=
  if b.height ≠ r.expectedHeight then
    { r with chunk := [] }.send (flushChunk r.chunk) (.done (.error (.other
      ("expected compact block " ++ toString r.expectedHeight ++ ", received " ++
        toString b.height))))
  else if r.links b then r.accept a b
  else
    let current := u32 b.height
    { r with chunk := [], currentHeight := current }.send
      (flushChunk r.chunk ++ [BlockMessage.reorg a.accountIds (subU32 current 1)])
      (.done (.error (.reorg (subU32 current 1))))

def Reader.onTick (a : ReaderArgs) (r : Reader H) : Reader H :=
  if r.previousHeight ≠ r.currentHeight then { r with previousHeight := r.currentHeight }
  else r.fail a ("compact block stream stalled at height " ++ toString r.currentHeight)

def Reader.onEnd (a : ReaderArgs) (r : Reader H) : Reader H :=
  if a.endHeight < r.expectedHeight then
    { r with chunk := [] }.send (flushChunk r.chunk) (.done (.ok ()))
  else r.fail a ("compact block stream ended before height " ++ toString r.expectedHeight)

def Reader.step (a : ReaderArgs) (r : Reader H) (e : ReaderEvent H) : Option (Reader H) :=
  match r.control, e with
  | .select, .cancel => some { r with control := .done (.error .cancelled) }
  | .select, .tick => some (r.onTick a)
  | .select, .block b => some (r.onBlock a b)
  | .select, .streamError error => some (r.fail a error)
  | .select, .streamEnd => some (r.onEnd a)
  | .sending m ms after, .sent => some ({ r with sent := r.sent ++ [m] }.send ms after)
  | .sending m _ _, .closed => some { r with control := .done (.error (.other m.context)) }
  | .reopening, .cancel => some { r with control := .done (.error .cancelled) }
  | .reopening, .reopened => some { r with control := .select }
  | .reopening, .refused error => some (r.resume error)
  | _, _ => none

end ZcashSdk.Warp
