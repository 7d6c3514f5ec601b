import ZcashSdk.Lib.Runs

set_option autoImplicit false

/-!
# The mempool subscription

One slot of the process holds the run of the native reader. Collectors start a run, poll
it and stop it when they leave; a wallet that stops its subscription or closes stops
whatever run there is. Each operation holds the lock of the slot while it looks at it, so
the operations of all parties are steps of one machine. Which collector started a run, and
what was delivered and stopped, is kept beside the state of the program.
-/
namespace ZcashSdk.Mempool
open Runs

/-! ### The native side -/

inductive MempoolEvent where
  | epoch (height : ℕ)
  | unconfirmed (txid : String) (size : ℕ)
  | ended (error : Option String)
  deriving DecidableEq

/-- A run: what its reader queued, how much of that was received, and whether the reader was
    cancelled and has stopped. -/
structure Run where
  owner : ℕ
  queued : List MempoolEvent
  taken : ℕ
  cancelled : Bool
  finished : Bool
  deriving DecidableEq

/-- The slot holds one of the runs there have been. -/
structure Native where
  slot : Option ℕ
  runs : List Run

/-- What a poll finds: an event, no run, a queue that is closed, or nothing in time. -/
inductive Polled where
  | event (run index : ℕ) (e : MempoolEvent)
  | noRun
  | closed
  | timeout
  deriving DecidableEq

namespace Native

/-- Fails when a run is already active. -/
def start (n : Native) (c : ℕ) : Option Native :=
  match n.slot with
  | some _ => none
  | none => some ⟨some n.runs.length, n.runs ++ [⟨c, [], 0, false, false⟩]⟩

def next (n : Native) : Native × Polled :=
  match n.slot with
  | none => (n, .noRun)
  | some r =>
    match n.runs[r]? with
    | none => (n, .noRun)
    | some run =>
      match run.queued[run.taken]? with
      | some e => (⟨n.slot, n.runs.set r { run with taken := run.taken + 1 }⟩,
          .event r run.taken e)
      | none => (n, if run.finished then .closed else .timeout)

/-- The first half of a stop takes the run out of the slot and cancels it. -/
def take (n : Native) : Native × Option ℕ :=
  match n.slot with
  | none => (n, none)
  | some r => (⟨none, n.runs.modify r fun run => { run with cancelled := true }⟩, some r)

/-- Its second half waits for the reader of the run it took. -/
def joined (n : Native) : Option ℕ → Bool
  | none => true
  | some r => (n.runs[r]?).any Run.finished

/-- The reader of a run queues an event, wherever the run is now. -/
def send (n : Native) (r : ℕ) (e : MempoolEvent) : Option Native :=
  match n.runs[r]? with
  | none => none
  | some run =>
    if run.finished then none
    else some ⟨n.slot, n.runs.set r { run with queued := run.queued ++ [e] }⟩

/-- The reader reports how the run finished, exactly once, and stops. -/
def finish (n : Native) (r : ℕ) (error : Option String) : Option Native :=
  (n.send r (.ended error)).map fun n =>
    ⟨n.slot, n.runs.modify r fun run => { run with finished := true }⟩

end Native

/-! ### Collectors and wallets -/

/-- Where a collection of `mempool()` is. -/
inductive CollectorPhase where
  | idle
  /-- The wallet was not closed, and the run is about to be started. -/
  | starting
  /-- At the head of the loop. -/
  | looping
  /-- The wallet was not closed, and the next event is about to be asked for. -/
  | polling
  /-- In the `finally` block. -/
  | leaving
  | waiting (run : Option ℕ)
  | done
  deriving DecidableEq

/-- Where a call of `stopMempool`, or of `close` for a wallet, is. -/
inductive StopperPhase where
  | idle
  | stopping (closing : Option ℕ)
  | waiting (run : Option ℕ) (closing : Option ℕ)
  | done
  deriving DecidableEq

structure Delivery where
  collector : ℕ
  run : ℕ
  index : ℕ
  event : MempoolEvent
  deriving DecidableEq

structure State where
  native : Native
  closed : ℕ → Bool
  collectors : ℕ → CollectorPhase
  stoppers : ℕ → StopperPhase
  delivered : List Delivery
  /-- The collectors that stopped a run when they left, with the run. -/
  stops : List (ℕ × ℕ)

def State.init : State := ⟨⟨none, []⟩, fun _ => false, fun _ => .idle, fun _ => .idle, [], []⟩

inductive Action where
  | enter (c : ℕ)
  | start (c : ℕ)
  /-- The collection is cancelled during the native call, whose result is dropped. -/
  | startDropped (c : ℕ)
  /-- The native call fails before it comes to the slot. -/
  | startFails (c : ℕ)
  | check (c : ℕ)
  | poll (c : ℕ)
  | pollDropped (c : ℕ)
  /-- The collection is cancelled, or whoever collects throws. -/
  | leave (c : ℕ)
  | take (c : ℕ)
  | join (c : ℕ)
  | stopMempool (k : ℕ)
  | close (k wallet : ℕ)
  | takeFor (k : ℕ)
  | joinFor (k : ℕ)
  | readerSends (r : ℕ) (e : MempoolEvent)
  | readerEnds (r : ℕ) (error : Option String)

def State.setCollector (s : State) (c : ℕ) (phase : CollectorPhase) : State :=
  { s with collectors := Function.update s.collectors c phase }

def State.setStopper (s : State) (k : ℕ) (phase : StopperPhase) : State :=
  { s with stoppers := Function.update s.stoppers k phase }

/-- An end, clean or not, leaves the loop; so does a poll that found no run. -/
def afterPoll : Polled → CollectorPhase
  | .event _ _ (.ended _) => .leaving
  | .event _ _ _ => .looping
  | .noRun => .leaving
  | .closed => .leaving
  | .timeout => .looping

def deliveryOf (c : ℕ) : Polled → List Delivery
  | .event r i e => [⟨c, r, i, e⟩]
  | _ => []

/-- `walletOf` is the wallet a collection belongs to. -/
def step (walletOf : ℕ → ℕ) (s : State) : Action → Option State
  | .enter c =>
    match s.collectors c with
    | .idle => some (s.setCollector c (if s.closed (walletOf c) then .done else .starting))
    | _ => none
  | .start c =>
    match s.collectors c with
    | .starting =>
      match s.native.start c with
      | some n => some ({ s with native := n }.setCollector c .looping)
      | none => some (s.setCollector c .done)
    | _ => none
  | .startDropped c =>
    match s.collectors c with
    | .starting =>
      match s.native.start c with
      | some n => some ({ s with native := n }.setCollector c .done)
      | none => some (s.setCollector c .done)
    | _ => none
  | .startFails c =>
    match s.collectors c with
    | .starting => some (s.setCollector c .done)
    | _ => none
  | .check c =>
    match s.collectors c with
    | .looping => some (s.setCollector c (if s.closed (walletOf c) then .leaving else .polling))
    | _ => none
  | .poll c =>
    match s.collectors c with
    | .polling =>
      let (n, polled) := s.native.next
      some ({ s with native := n, delivered := s.delivered ++ deliveryOf c polled }.setCollector c
        (afterPoll polled))
    | _ => none
  | .pollDropped c =>
    match s.collectors c with
    | .polling => some ({ s with native := s.native.next.1 }.setCollector c .leaving)
    | _ => none
  | .leave c =>
    match s.collectors c with
    | .looping => some (s.setCollector c .leaving)
    | _ => none
  | .take c =>
    match s.collectors c with
    | .leaving =>
      let (n, run) := s.native.take
      some ({ s with native := n, stops := s.stops ++ run.toList.map fun r => (c, r) }.setCollector c
        (.waiting run))
    | _ => none
  | .join c =>
    match s.collectors c with
    | .waiting run => if s.native.joined run then some (s.setCollector c .done) else none
    | _ => none
  | .stopMempool k =>
    match s.stoppers k with
    | .idle => some (s.setStopper k (.stopping none))
    | _ => none
  | .close k wallet =>
    match s.stoppers k with
    | .idle =>
      some (s.setStopper k (if s.closed wallet then .done else .stopping (some wallet)))
    | _ => none
  | .takeFor k =>
    match s.stoppers k with
    | .stopping closing =>
      let (n, run) := s.native.take
      some ({ s with native := n }.setStopper k (.waiting run closing))
    | _ => none
  | .joinFor k =>
    match s.stoppers k with
    | .waiting run closing =>
      if s.native.joined run then
        some ({ s with closed := fun w => s.closed w || decide (closing = some w) }.setStopper k
          .done)
      else none
    | _ => none
  | .readerSends r e => (s.native.send r e).map fun n => { s with native := n }
  | .readerEnds r error => (s.native.finish r error).map fun n => { s with native := n }

/-! ### Isolation -/

/-- Each event is received at most once, in the order of its queue, by the collector whose start
    created the run; and no collector that leaves stops the run of another. -/
structure Isolated (s : State) : Prop where
  once : ∀ r, ((s.delivered.filter fun d => d.run = r).map Delivery.index).Pairwise (· < ·)
  queued : ∀ d ∈ s.delivered, ∃ run, s.native.runs[d.run]? = some run ∧
    run.queued[d.index]? = some d.event
  owner : ∀ d ∈ s.delivered, ∃ run, s.native.runs[d.run]? = some run ∧ run.owner = d.collector
  stops : ∀ p ∈ s.stops, ∃ run, s.native.runs[p.2]? = some run ∧ run.owner = p.1

/-- A collector that may still poll, or has its final stop before it. -/
def Active (s : State) (c : ℕ) : Prop :=
  s.collectors c = .looping ∨ s.collectors c = .polling ∨ s.collectors c = .leaving

/-- A run is started only when every collector that had one has made its final stop. -/
def Settled (s : State) : Action → Prop
  | .start _ => s.native.slot = none → ∀ c, ¬ Active s c
  | .startDropped _ => s.native.slot = none → ∀ c, ¬ Active s c
  | _ => True

end ZcashSdk.Mempool
