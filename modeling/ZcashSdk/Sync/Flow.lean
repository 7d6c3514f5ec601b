import ZcashSdk.Lib.Runs

set_option autoImplicit false

/-!
# The sync flow

A collection asks for the target, waits for the lock of the process, starts the native sync
and samples its progress until it is over, and reads the heights of the accounts last. The
answers of the backend, the moment the native task ends and the calls of others are events.
What was called and answered is kept beside the state of the program.
-/
namespace ZcashSdk.Sync
open Runs

/-! ### States and errors -/

inductive SyncStage where
  | target
  | scan
  | accountHeight
  deriving DecidableEq

structure ZcashException where
  message : String
  stage : Option SyncStage
  deriving DecidableEq

inductive Throwable where
  | zcash (e : ZcashException)
  | cancellation (message : String)
  | other (message : String)
  deriving DecidableEq

inductive SyncState where
  | stopped
  | connecting
  | syncing (current target : ℤ)
  | synced
  | failed (error : ZcashException)
  deriving DecidableEq

def SyncState.isTerminal : SyncState → Bool
  | .stopped | .synced | .failed _ => true
  | .connecting | .syncing _ _ => false

def Throwable.message : Throwable → String
  | .zcash e => e.message
  | .cancellation m => m
  | .other m => m

/-- The first stage an error was seen in stays with it. -/
def Throwable.withStage (error : Throwable) (stage : SyncStage) : ZcashException :=
  match error with
  | .zcash ⟨message, some stage⟩ => ⟨message, some stage⟩
  | error => ⟨error.message, some stage⟩

/-- An absent error is the only sign of success. -/
def terminalSyncState (error : Option ZcashException) (cancelRequested : Bool) : SyncState :=
  match error with
  | none => .synced
  | some e => if cancelRequested then .stopped else .failed e

def completedSyncState (height : Option ℤ) (target : ℤ) : SyncState :=
  match height with
  | none => .failed ⟨"Sync completed without the requested accounts", some .scan⟩
  | some h =>
    if target ≤ h then .synced
    else .failed ⟨s!"Sync ended at block {h} before target {target}", some .scan⟩

def boundedSyncHeight (height target : ℤ) : ℤ := min height target

abbrev StoredAccount := ℤ × ℤ

/-- The height that those of the accounts that are stored have reached. -/
def syncedHeight (accounts : List StoredAccount) (accountIds : List ℤ) : Option ℤ :=
  ((accounts.filter fun a => a.1 ∈ accountIds).map Prod.snd).min?

/-! ### A collection -/

/-- The native task: the coroutine that calls it, the sync that can be cancelled, its end. -/
inductive Native where
  | launched
  | working
  | ended (result : Except Throwable Unit)

inductive Phase where
  | target
  | lock (target : ℤ)
  /-- The loop over the samples; `asking` while it waits for the progress. -/
  | run (target : ℤ) (native : Native) (asking : Bool)
  | finished (target : ℤ) (error : Option ZcashException)
  | height (target : ℤ)
  | done (target : ℤ) (terminal : SyncState)
  | threw (error : Throwable)

structure Collection where
  phase : Phase
  emitted : List SyncState
  /-- A field of the wallet. -/
  cancelRequested : Bool
  /-- How often `onStart` and `onFinish` ran. -/
  starts : ℕ
  finishes : ℕ
  /-- This wallet's `cancelSync` was called. -/
  cancelled : Bool
  /-- The native sync has begun to work, and a call came before it. -/
  working : Bool
  early : Bool
  outcome : Option (Except Throwable Unit)
  stored : Option (List StoredAccount)

inductive SyncEvent where
  | latestHeight (result : Except Throwable ℤ)
  | lock
  | nativeStart
  | nativeEnd (result : Except Throwable Unit)
  | sample
  | progress (result : Except Throwable (Option ℤ))
  | decide
  | accounts (result : Except Throwable (List StoredAccount))
  /-- The collector is cancelled or fails. -/
  | abort (error : Throwable)
  | cancelSync
  /-- Another collection of the same wallet gets the lock. -/
  | otherStart

/-- A collection that has just begun, in a wallet that may have been cancelled before. -/
def begun (cancelRequested : Bool) : Collection where
  phase := .target
  emitted := [.connecting]
  cancelRequested := cancelRequested
  starts := 0
  finishes := 0
  cancelled := false
  working := false
  early := false
  outcome := none
  stored := none

namespace Collection

def emit (s : Collection) (state : SyncState) : Collection :=
  { s with emitted := s.emitted ++ [state] }

def enter (s : Collection) (phase : Phase) : Collection := { s with phase := phase }

def onStart (s : Collection) : Collection :=
  { s with cancelRequested := false, starts := s.starts + 1 }

def onFinish (s : Collection) : Collection := { s with finishes := s.finishes + 1 }

def finish (s : Collection) (target : ℤ) (state : SyncState) : Collection :=
  (s.emit state).enter (.done target state)

def targetKnown (s : Collection) : Except Throwable ℤ → Collection
  | .ok target => s.enter (.lock target)
  | .error (.cancellation m) => s.enter (.threw (.cancellation m))
  | .error e => s.enter (.threw (.zcash (e.withStage .target)))

/-- The task is over: its own errors are an answer, others leave the flow. -/
def settle (s : Collection) (target : ℤ) : Except Throwable Unit → Collection
  | .ok () => s.onFinish.enter (.finished target none)
  | .error (.zcash e) => s.onFinish.enter (.finished target (some ((Throwable.zcash e).withStage .scan)))
  | .error e => s.onFinish.enter (.threw e)

def progressed (s : Collection) (target : ℤ) (native : Native) :
    Except Throwable (Option ℤ) → Collection
  | .ok none => s.enter (.run target native false)
  | .ok (some height) =>
    (s.emit (.syncing (boundedSyncHeight height target) target)).enter (.run target native false)
  | .error e => s.onFinish.enter (.threw e)

def emitTerminalState (s : Collection) (accountIds : List ℤ) (target : ℤ)
    (error : Option ZcashException) : Collection :=
  let state := terminalSyncState error s.cancelRequested
  if state ≠ .synced then s.finish target state
  else if accountIds.isEmpty then s.finish target .synced
  else s.enter (.height target)

def heightRead (s : Collection) (accountIds : List ℤ) (target : ℤ) :
    Except Throwable (List StoredAccount) → Collection
  | .error (.zcash e) => s.finish target (.failed ((Throwable.zcash e).withStage .accountHeight))
  | .error e => s.enter (.threw e)
  | .ok accounts =>
    let height := syncedHeight accounts accountIds
    let shown := match height with
      | none => s
      | some h => s.emit (.syncing (boundedSyncHeight h target) target)
    { shown.finish target (completedSyncState height target) with stored := some accounts }

/-- The flag is set before the native side is told. -/
def cancelSync (s : Collection) : Collection :=
  { s with cancelRequested := true, cancelled := true, early := s.early || !s.working }

/-- The other collection clears the flag of the wallet. -/
def overrun (s : Collection) : Collection := { s with cancelRequested := false }

def nativeStart (s : Collection) (target : ℤ) (asking : Bool) : Collection :=
  { s.enter (.run target .working asking) with working := true }

def nativeEnd (s : Collection) (target : ℤ) (asking : Bool) (result : Except Throwable Unit) :
    Collection :=
  { s.enter (.run target (.ended result) asking) with outcome := some result }

def step (accountIds : List ℤ) (s : Collection) (e : SyncEvent) : Option Collection :=
  match s.phase, e with
  | .done _ _, _ | .threw _, _ => none
  | _, .cancelSync => some s.cancelSync
  | .target, .otherStart | .lock _, .otherStart => some s.overrun
  | .target, .latestHeight r => some (s.targetKnown r)
  | .lock target, .lock => some (s.onStart.enter (.run target .launched false))
  | .run target .launched asking, .nativeStart => some (s.nativeStart target asking)
  | .run target .launched asking, .nativeEnd r | .run target .working asking, .nativeEnd r =>
    some (s.nativeEnd target asking r)
  | .run target (.ended r) false, .sample => some (s.settle target r)
  | .run target native false, .sample => some (s.enter (.run target native true))
  | .run target native true, .progress r => some (s.progressed target native r)
  | .finished target error, .decide => some (s.emitTerminalState accountIds target error)
  | .height target, .accounts r => some (s.heightRead accountIds target r)
  | .run _ _ _, .abort e => some (s.onFinish.enter (.threw e))
  | _, .abort e => some (s.enter (.threw e))
  | _, _ => none

/-- `distinctUntilChanged`. -/
def observed (s : Collection) : List SyncState := s.emitted.destutter (· ≠ ·)

/-! ### The steps -/

def Active (s : Collection) : Prop :=
  (∀ target terminal, s.phase ≠ .done target terminal) ∧ ∀ e, s.phase ≠ .threw e

inductive Taken (accountIds : List ℤ) (s : Collection) : SyncEvent → Collection → Prop
  | cancelSync : s.Active → Taken accountIds s .cancelSync s.cancelSync
  | otherStart : (s.phase = .target ∨ ∃ target, s.phase = .lock target) →
      Taken accountIds s .otherStart s.overrun
  | latestHeight {r : Except Throwable ℤ} : s.phase = .target →
      Taken accountIds s (.latestHeight r) (s.targetKnown r)
  | lock {target : ℤ} : s.phase = .lock target →
      Taken accountIds s .lock (s.onStart.enter (.run target .launched false))
  | nativeStart {target : ℤ} {asking : Bool} : s.phase = .run target .launched asking →
      Taken accountIds s .nativeStart (s.nativeStart target asking)
  | nativeEnd {target : ℤ} {native : Native} {asking : Bool} {r : Except Throwable Unit} :
      s.phase = .run target native asking →
      Taken accountIds s (.nativeEnd r) (s.nativeEnd target asking r)
  | settle {target : ℤ} {r : Except Throwable Unit} : s.phase = .run target (.ended r) false →
      Taken accountIds s .sample (s.settle target r)
  | sample {target : ℤ} {native : Native} : s.phase = .run target native false →
      Taken accountIds s .sample (s.enter (.run target native true))
  | progress {target : ℤ} {native : Native} {r : Except Throwable (Option ℤ)} :
      s.phase = .run target native true →
      Taken accountIds s (.progress r) (s.progressed target native r)
  | decide {target : ℤ} {error : Option ZcashException} : s.phase = .finished target error →
      Taken accountIds s .decide (s.emitTerminalState accountIds target error)
  | accounts {target : ℤ} {r : Except Throwable (List StoredAccount)} : s.phase = .height target →
      Taken accountIds s (.accounts r) (s.heightRead accountIds target r)
  | abortRun {target : ℤ} {native : Native} {asking : Bool} {e : Throwable} :
      s.phase = .run target native asking →
      Taken accountIds s (.abort e) (s.onFinish.enter (.threw e))
  | abort {e : Throwable} : s.Active → (∀ target native asking, s.phase ≠ .run target native asking) →
      Taken accountIds s (.abort e) (s.enter (.threw e))

theorem step_taken {accountIds : List ℤ} {s t : Collection} {e : SyncEvent}
    (h : step accountIds s e = some t) : Taken accountIds s e t := by
  unfold step at h
  split at h <;> cases h
  · exact .cancelSync ⟨‹_›, ‹_›⟩
  · exact .otherStart (.inl ‹_›)
  · exact .otherStart (.inr ⟨_, ‹_›⟩)
  · exact .latestHeight ‹_›
  · exact .lock ‹_›
  · exact .nativeStart ‹_›
  · exact .nativeEnd ‹_›
  · exact .nativeEnd ‹_›
  · exact .settle ‹_›
  · exact .sample ‹_›
  · exact .progress ‹_›
  · exact .decide ‹_›
  · exact .accounts ‹_›
  · exact .abortRun ‹_›
  · exact .abort ⟨‹_›, ‹_›⟩ ‹_›

/-! ### What is emitted -/

def Syncings (target : ℤ) (states : List SyncState) : Prop :=
  ∀ x ∈ states, ∃ current ≤ target, x = .syncing current target

theorem Syncings.append {target current : ℤ} {states : List SyncState} (h : Syncings target states)
    (hle : current ≤ target) : Syncings target (states ++ [.syncing current target]) := by
  intro x hx
  obtain hx | hx := List.mem_append.1 hx
  · exact h x hx
  · exact ⟨current, hle, List.mem_singleton.1 hx⟩

def Shaped (s : Collection) : Prop :=
  match s.phase with
  | .target | .lock _ => s.emitted = [.connecting]
  | .run target _ _ | .finished target _ | .height target =>
    ∃ states, Syncings target states ∧ s.emitted = .connecting :: states
  | .done target terminal => ∃ states, Syncings target states ∧
      s.emitted = .connecting :: (states ++ [terminal]) ∧ terminal.isTerminal = true
  | .threw _ => True

theorem Shaped.finish {s : Collection} {target : ℤ} {states : List SyncState} {x : SyncState}
    (hs : Syncings target states) (hemit : s.emitted = .connecting :: states)
    (hx : x.isTerminal = true) : Shaped (s.finish target x) := by
  refine ⟨states, hs, ?_, hx⟩
  change s.emitted ++ [x] = _
  rw [hemit, List.cons_append]

theorem isTerminal_terminalSyncState (error : Option ZcashException) (flag : Bool) :
    (terminalSyncState error flag).isTerminal = true := by
  cases error with
  | none => rfl
  | some e => cases flag <;> rfl

theorem isTerminal_completedSyncState (height : Option ℤ) (target : ℤ) :
    (completedSyncState height target).isTerminal = true := by
  cases height with
  | none => rfl
  | some h =>
    unfold completedSyncState
    simp only
    split_ifs <;> rfl

theorem Shaped.step {accountIds : List ℤ} {s t : Collection} {e : SyncEvent} (h : Shaped s)
    (hstep : step accountIds s e = some t) : Shaped t := by
  cases step_taken hstep with
  | cancelSync | otherStart => exact h
  | latestHeight hp =>
    unfold Shaped at h
    rw [hp] at h
    rename_i r
    rcases r with (_ | _ | _) | _
    · trivial
    · trivial
    · trivial
    · exact h
  | lock hp =>
    unfold Shaped at h
    rw [hp] at h
    exact ⟨[], fun x hx => absurd hx List.not_mem_nil, h⟩
  | nativeStart hp | nativeEnd hp | sample hp =>
    unfold Shaped at h
    rw [hp] at h
    exact h
  | settle hp =>
    unfold Shaped at h
    rw [hp] at h
    rename_i target r
    rcases r with (_ | _ | _) | _
    · exact h
    · trivial
    · trivial
    · exact h
  | progress hp =>
    unfold Shaped at h
    rw [hp] at h
    obtain ⟨states, hs, hemit⟩ := h
    rename_i target native r
    rcases r with _ | _ | height
    · trivial
    · exact ⟨states, hs, hemit⟩
    · refine ⟨_, hs.append (min_le_right height target), ?_⟩
      change s.emitted ++ _ = _
      rw [hemit]
      rfl
  | decide hp =>
    unfold Shaped at h
    rw [hp] at h
    obtain ⟨states, hs, hemit⟩ := h
    unfold emitTerminalState
    simp only
    split_ifs
    · exact .finish hs hemit (isTerminal_terminalSyncState _ _)
    · exact .finish hs hemit rfl
    · exact ⟨states, hs, hemit⟩
  | accounts hp =>
    unfold Shaped at h
    rw [hp] at h
    obtain ⟨states, hs, hemit⟩ := h
    rename_i target r
    rcases r with (e | _ | _) | accounts
    · exact .finish hs hemit rfl
    · trivial
    · trivial
    · unfold heightRead
      simp only
      cases hheight : syncedHeight accounts accountIds with
      | none => exact Shaped.finish (s := s) hs hemit (isTerminal_completedSyncState _ _)
      | some height =>
        refine Shaped.finish (s := s.emit _) (hs.append (min_le_right height target)) ?_
          (isTerminal_completedSyncState _ _)
        change s.emitted ++ _ = _
        rw [hemit]
        rfl
  | abortRun | abort => trivial

/-! ### What runs once, and what sets the flag -/

theorem emitTerminalState_cases (s : Collection) (accountIds : List ℤ) (target : ℤ)
    (error : Option ZcashException) :
    (error = none ∧ accountIds = [] ∧
      s.emitTerminalState accountIds target error = s.finish target .synced) ∨
    (error = none ∧ accountIds ≠ [] ∧
      s.emitTerminalState accountIds target error = s.enter (.height target)) ∨
    (error ≠ none ∧ s.cancelRequested = true ∧
      s.emitTerminalState accountIds target error = s.finish target .stopped) ∨
    ∃ e, error = some e ∧ s.cancelRequested = false ∧
      s.emitTerminalState accountIds target error = s.finish target (.failed e) := by
  unfold emitTerminalState
  cases error with
  | none =>
    cases accountIds with
    | nil => exact .inl ⟨rfl, rfl, rfl⟩
    | cons a as => exact .inr (.inl ⟨rfl, List.cons_ne_nil _ _, rfl⟩)
  | some e =>
    cases hflag : s.cancelRequested with
    | true => exact .inr (.inr (.inl ⟨by simp, rfl, rfl⟩))
    | false => exact .inr (.inr (.inr ⟨e, rfl, rfl, rfl⟩))

/-- `onFinish` follows `onStart` before the collection ends. -/
def Counted (s : Collection) : Prop :=
  match s.phase with
  | .target | .lock _ => s.starts = 0 ∧ s.finishes = 0
  | .run _ _ _ => s.starts = 1 ∧ s.finishes = 0
  | .finished _ _ | .height _ | .done _ _ => s.starts = 1 ∧ s.finishes = 1
  | .threw _ => s.starts = s.finishes ∧ s.starts ≤ 1

theorem Counted.step {accountIds : List ℤ} {s t : Collection} {e : SyncEvent} (h : Counted s)
    (hstep : step accountIds s e = some t) : Counted t := by
  cases step_taken hstep with
  | cancelSync | otherStart => exact h
  | latestHeight hp =>
    unfold Counted at h
    rw [hp] at h
    rename_i r
    rcases r with (_ | _ | _) | _
    · exact ⟨h.1.trans h.2.symm, h.1.le.trans (Nat.zero_le _)⟩
    · exact ⟨h.1.trans h.2.symm, h.1.le.trans (Nat.zero_le _)⟩
    · exact ⟨h.1.trans h.2.symm, h.1.le.trans (Nat.zero_le _)⟩
    · exact h
  | lock hp =>
    unfold Counted at h
    rw [hp] at h
    exact ⟨congrArg (· + 1) h.1, h.2⟩
  | nativeStart hp | nativeEnd hp | sample hp =>
    unfold Counted at h
    rw [hp] at h
    exact h
  | settle hp =>
    unfold Counted at h
    rw [hp] at h
    obtain ⟨hs, hf⟩ := h
    have hdone : s.finishes + 1 = 1 := congrArg (· + 1) hf
    rename_i target r
    rcases r with (_ | _ | _) | _
    · exact ⟨hs, hdone⟩
    · exact ⟨hs.trans hdone.symm, hs.le⟩
    · exact ⟨hs.trans hdone.symm, hs.le⟩
    · exact ⟨hs, hdone⟩
  | progress hp =>
    unfold Counted at h
    rw [hp] at h
    rename_i target native r
    rcases r with _ | _ | height
    · exact ⟨h.1.trans (congrArg (· + 1) h.2).symm, h.1.le⟩
    · exact h
    · exact h
  | decide hp =>
    unfold Counted at h
    rw [hp] at h
    unfold emitTerminalState
    simp only
    split_ifs <;> exact h
  | accounts hp =>
    unfold Counted at h
    rw [hp] at h
    rename_i target r
    rcases r with (e | _ | _) | accounts
    · exact h
    · exact ⟨h.1.trans h.2.symm, h.1.le⟩
    · exact ⟨h.1.trans h.2.symm, h.1.le⟩
    · unfold heightRead
      simp only
      cases syncedHeight accounts accountIds <;> exact h
  | abortRun hp =>
    unfold Counted at h
    rw [hp] at h
    exact ⟨h.1.trans (congrArg (· + 1) h.2).symm, h.1.le⟩
  | abort hactive hrun =>
    unfold Counted at h
    cases hp : s.phase with
    | target | lock =>
      rw [hp] at h
      exact ⟨h.1.trans h.2.symm, h.1.le.trans (Nat.zero_le _)⟩
    | run => exact absurd hp (hrun _ _ _)
    | finished | height =>
      rw [hp] at h
      exact ⟨h.1.trans h.2.symm, h.1.le⟩
    | done => exact absurd hp (hactive.1 _ _)
    | threw => exact absurd hp (hactive.2 _)

/-- From its start on, only a call during the collection sets the flag. -/
def Flagged (s : Collection) : Prop :=
  match s.phase with
  | .run _ _ _ | .finished _ _ => s.cancelRequested = true → s.cancelled = true
  | .done _ .stopped => s.cancelled = true
  | _ => True

/-- The account heights are the last thing that can fail or be short. -/
theorem terminal_of_accounts (s : Collection) (accountIds : List ℤ) (target : ℤ)
    (r : Except Throwable (List StoredAccount)) :
    (∃ x, x ≠ .stopped ∧ (s.heightRead accountIds target r).phase = .done target x) ∨
      ∃ e, (s.heightRead accountIds target r).phase = .threw e := by
  rcases r with (e | m | m) | accounts
  · exact .inl ⟨_, by simp, rfl⟩
  · exact .inr ⟨_, rfl⟩
  · exact .inr ⟨_, rfl⟩
  · refine .inl ⟨completedSyncState (syncedHeight accounts accountIds) target, ?_, rfl⟩
    unfold completedSyncState
    split
    · simp
    · split_ifs <;> simp

theorem Flagged.step {accountIds : List ℤ} {s t : Collection} {e : SyncEvent} (h : Flagged s)
    (hstep : step accountIds s e = some t) : Flagged t := by
  cases step_taken hstep with
  | cancelSync hactive =>
    unfold Flagged
    have hphase : s.cancelSync.phase = s.phase := rfl
    rw [hphase]
    split
    · exact fun _ => rfl
    · exact fun _ => rfl
    · rfl
    · trivial
  | otherStart hp =>
    unfold Flagged
    have hphase : s.overrun.phase = s.phase := rfl
    rw [hphase]
    obtain hp | ⟨target, hp⟩ := hp <;>
    · rw [hp]
      trivial
  | latestHeight hp =>
    rename_i r
    rcases r with (_ | _ | _) | _ <;> trivial
  | lock hp => exact fun h => absurd h Bool.false_ne_true
  | nativeStart hp | nativeEnd hp | sample hp =>
    unfold Flagged at h
    rw [hp] at h
    exact h
  | settle hp =>
    unfold Flagged at h
    rw [hp] at h
    rename_i target r
    rcases r with (_ | _ | _) | _
    · exact h
    · trivial
    · trivial
    · exact h
  | progress hp =>
    unfold Flagged at h
    rw [hp] at h
    rename_i target native r
    rcases r with _ | _ | height
    · trivial
    · exact h
    · exact h
  | decide hp =>
    unfold Flagged at h
    rw [hp] at h
    rename_i target error
    obtain ⟨-, -, heq⟩ | ⟨-, -, heq⟩ | ⟨-, hflag, heq⟩ | ⟨e, -, -, heq⟩ :=
      emitTerminalState_cases s accountIds target error
    · rw [heq]; trivial
    · rw [heq]; trivial
    · rw [heq]; exact h hflag
    · rw [heq]; trivial
  | accounts hp =>
    rename_i target r
    unfold Flagged
    obtain ⟨x, hx, hdone⟩ | ⟨e, hthrew⟩ := terminal_of_accounts s accountIds target r
    · rw [hdone]
      cases x <;> first | exact absurd rfl hx | trivial
    · rw [hthrew]
      trivial
  | abortRun | abort => trivial

/-! ### Runs without an early call -/

/-- Every requested account is stored, or none is, or one that is has not reached the target. -/
def Accounted (accountIds : List ℤ) (target : ℤ) (accounts : List StoredAccount) : Prop :=
  (∀ id ∈ accountIds, ∃ a ∈ accounts, a.1 = id) ∨ (∀ a ∈ accounts, a.1 ∉ accountIds) ∨
    ∃ a ∈ accounts, a.1 ∈ accountIds ∧ a.2 < target

/-- No call comes before the native sync works, and the accounts read are accounted for. -/
def Honest (accountIds : List ℤ) (s : Collection) : SyncEvent → Prop
  | .cancelSync => s.working = true
  | .accounts (.ok accounts) => ∀ target, s.phase = .height target →
      Accounted accountIds target accounts
  | _ => True

def Heard (s : Collection) : Prop :=
  s.early = false ∧ match s.phase with
  | .target | .lock _ => s.cancelled = false ∧ s.working = false
  | .run _ native _ => (s.cancelled = true → s.cancelRequested = true) ∧
      ∀ r, native = .ended r → s.outcome = some r
  | .finished _ error => (s.cancelled = true → s.cancelRequested = true) ∧
      (error = none → s.outcome = some (.ok ()))
  | .height _ => s.outcome = some (.ok ())
  | .done _ terminal => s.cancelled = true → terminal = .stopped ∨ s.outcome = some (.ok ())
  | .threw _ => True

theorem Heard.step {accountIds : List ℤ} {s t : Collection} {e : SyncEvent} (h : Heard s)
    (hhonest : Honest accountIds s e) (hstep : step accountIds s e = some t) : Heard t := by
  obtain ⟨hearly, h⟩ := h
  cases step_taken hstep with
  | cancelSync hactive =>
    have hworking : s.working = true := hhonest
    refine ⟨?_, ?_⟩
    · change (s.early || !s.working) = false
      rw [hearly, hworking]
      rfl
    · have hphase : s.cancelSync.phase = s.phase := rfl
      rw [hphase]
      cases hp : s.phase with
      | target | lock =>
        rw [hp] at h
        exact absurd (hworking.symm.trans h.2) (by simp)
      | run | finished =>
        rw [hp] at h
        exact ⟨fun _ => rfl, h.2⟩
      | height =>
        rw [hp] at h
        exact h
      | done => exact absurd hp (hactive.1 _ _)
      | threw => trivial
  | otherStart hp =>
    refine ⟨hearly, ?_⟩
    have hphase : s.overrun.phase = s.phase := rfl
    rw [hphase]
    obtain hp | ⟨target, hp⟩ := hp <;>
    · rw [hp] at h ⊢
      exact h
  | latestHeight hp =>
    rw [hp] at h
    rename_i r
    rcases r with (_ | _ | _) | _
    · exact ⟨hearly, trivial⟩
    · exact ⟨hearly, trivial⟩
    · exact ⟨hearly, trivial⟩
    · exact ⟨hearly, h⟩
  | lock hp =>
    rw [hp] at h
    refine ⟨hearly, fun hc => absurd (h.1.symm.trans hc) Bool.false_ne_true, fun r hr => ?_⟩
    cases hr
  | nativeStart hp =>
    rw [hp] at h
    exact ⟨hearly, h.1, fun r hr => by cases hr⟩
  | nativeEnd hp =>
    rw [hp] at h
    exact ⟨hearly, h.1, fun r hr => by cases hr; rfl⟩
  | sample hp =>
    rw [hp] at h
    exact ⟨hearly, h⟩
  | settle hp =>
    rw [hp] at h
    obtain ⟨hflag, hout⟩ := h
    rename_i target r
    rcases r with (_ | _ | _) | _
    · exact ⟨hearly, hflag, fun hnone => by cases hnone⟩
    · exact ⟨hearly, trivial⟩
    · exact ⟨hearly, trivial⟩
    · exact ⟨hearly, hflag, fun _ => hout _ rfl⟩
  | progress hp =>
    rw [hp] at h
    rename_i target native r
    rcases r with _ | _ | height
    · exact ⟨hearly, trivial⟩
    · exact ⟨hearly, h⟩
    · exact ⟨hearly, h⟩
  | decide hp =>
    rw [hp] at h
    obtain ⟨hflag, hout⟩ := h
    rename_i target error
    obtain ⟨hnone, -, heq⟩ | ⟨hnone, -, heq⟩ | ⟨-, -, heq⟩ | ⟨e, -, hunset, heq⟩ :=
      emitTerminalState_cases s accountIds target error
    · rw [heq]
      exact ⟨hearly, fun _ => .inr (hout hnone)⟩
    · rw [heq]
      exact ⟨hearly, hout hnone⟩
    · rw [heq]
      exact ⟨hearly, fun _ => .inl rfl⟩
    · rw [heq]
      exact ⟨hearly, fun hc => absurd (hunset.symm.trans (hflag hc)) Bool.false_ne_true⟩
  | accounts hp =>
    rw [hp] at h
    rename_i target r
    rcases r with (e | _ | _) | accounts
    · exact ⟨hearly, fun _ => .inr h⟩
    · exact ⟨hearly, trivial⟩
    · exact ⟨hearly, trivial⟩
    · unfold heightRead
      simp only
      cases syncedHeight accounts accountIds with
      | none => exact ⟨hearly, fun _ => .inr h⟩
      | some height => exact ⟨hearly, fun _ => .inr h⟩
  | abortRun | abort => exact ⟨hearly, trivial⟩

def Reached (accountIds : List ℤ) (target : ℤ) (s : Collection) : Prop :=
  accountIds = [] ∨ ∃ accounts, s.stored = some accounts ∧ ∀ id ∈ accountIds,
    (∃ a ∈ accounts, a.1 = id) ∧ ∀ a ∈ accounts, a.1 = id → target ≤ a.2

def Truthful (accountIds : List ℤ) (s : Collection) : Prop :=
  ∀ target, s.phase = .done target .synced → Reached accountIds target s

theorem le_of_syncedHeight {accountIds : List ℤ} {accounts : List StoredAccount} {h : ℤ}
    (hheight : syncedHeight accounts accountIds = some h) {a : StoredAccount} (ha : a ∈ accounts)
    (hid : a.1 ∈ accountIds) : h ≤ a.2 :=
  (List.min?_eq_some_iff.1 hheight).2 _
    (List.mem_map_of_mem (List.mem_filter.2 ⟨ha, decide_eq_true hid⟩))

theorem exists_of_syncedHeight {accountIds : List ℤ} {accounts : List StoredAccount} {h : ℤ}
    (hheight : syncedHeight accounts accountIds = some h) :
    ∃ a ∈ accounts, a.1 ∈ accountIds := by
  obtain ⟨a, ha, -⟩ := List.mem_map.1 (List.min?_eq_some_iff.1 hheight).1
  obtain ⟨hstored, hid⟩ := List.mem_filter.1 ha
  exact ⟨a, hstored, of_decide_eq_true hid⟩

theorem completedSyncState_synced {height : Option ℤ} {target : ℤ}
    (h : completedSyncState height target = .synced) : ∃ h, height = some h ∧ target ≤ h := by
  cases height with
  | none => cases h
  | some height =>
    unfold completedSyncState at h
    simp only at h
    split_ifs at h with hle
    exact ⟨height, rfl, hle⟩

theorem Truthful.step {accountIds : List ℤ} {s t : Collection} {e : SyncEvent}
    (h : Truthful accountIds s) (hhonest : Honest accountIds s e)
    (hstep : step accountIds s e = some t) : Truthful accountIds t := by
  cases step_taken hstep with
  | cancelSync | otherStart => exact h
  | latestHeight hp =>
    rename_i r
    rcases r with (_ | _ | _) | _ <;> exact fun target hdone => by cases hdone
  | lock | nativeStart | nativeEnd | sample | abortRun | abort =>
    exact fun target hdone => by cases hdone
  | settle hp =>
    rename_i target r
    rcases r with (_ | _ | _) | _ <;> exact fun target hdone => by cases hdone
  | progress hp =>
    rename_i target native r
    rcases r with _ | _ | _ <;> exact fun target hdone => by cases hdone
  | decide hp =>
    rename_i target error
    obtain ⟨-, hids, heq⟩ | ⟨-, -, heq⟩ | ⟨-, -, heq⟩ | ⟨e, -, -, heq⟩ :=
      emitTerminalState_cases s accountIds target error
    · exact fun _ _ => .inl hids
    all_goals
      rw [heq]
      exact fun target hdone => by cases hdone
  | accounts hp =>
    rename_i target r
    rcases r with (e | _ | _) | accounts
    · exact fun target hdone => by cases hdone
    · exact fun target hdone => by cases hdone
    · exact fun target hdone => by cases hdone
    · intro target' hdone
      have hphase : Phase.done target (completedSyncState (syncedHeight accounts accountIds) target) =
          .done target' .synced := hdone
      obtain ⟨rfl, hsynced⟩ := Phase.done.inj hphase
      obtain ⟨height, hheight, hle⟩ := completedSyncState_synced hsynced
      refine .inr ⟨accounts, rfl, fun id hid => ?_⟩
      obtain hall | hnone | ⟨b, hb, hbid, hlag⟩ := hhonest target hp
      · refine ⟨hall id hid, fun a ha haid => hle.trans ?_⟩
        exact le_of_syncedHeight hheight ha (haid ▸ hid)
      · obtain ⟨a, ha, haid⟩ := exists_of_syncedHeight hheight
        exact absurd haid (hnone a ha)
      · exact absurd hle (not_le.2 ((le_of_syncedHeight hheight hb hbid).trans_lt hlag))

/-! ### A whole collection -/

theorem destutter'_append {terminal : SyncState} : ∀ {states : List SyncState} {first : SyncState},
    first ≠ terminal → (∀ x ∈ states, x ≠ terminal) → ∃ shown, (∀ x ∈ shown, x ∈ states) ∧
      (states ++ [terminal]).destutter' (· ≠ ·) first = first :: (shown ++ [terminal])
  | [], first, hfirst, _ => ⟨[], fun _ h => h, List.destutter'_cons_pos _ hfirst⟩
  | x :: states, first, hfirst, hstates => by
    have hrest : ∀ y ∈ states, y ≠ terminal := fun y hy => hstates y (List.mem_cons_of_mem _ hy)
    rw [List.cons_append, List.destutter'_cons]
    split_ifs with hne
    · obtain ⟨shown, hshown, heq⟩ := destutter'_append (hstates x List.mem_cons_self) hrest
      refine ⟨x :: shown, ?_, by rw [heq, List.cons_append]⟩
      intro y hy
      obtain rfl | hy := List.mem_cons.1 hy
      · exact List.mem_cons_self
      · exact List.mem_cons_of_mem _ (hshown y hy)
    · obtain ⟨shown, hshown, heq⟩ := destutter'_append hfirst hrest
      exact ⟨shown, fun y hy => List.mem_cons_of_mem _ (hshown y hy), heq⟩

/-- What a collection that has ended tells, and what it ran. -/
structure TellsTruth (accountIds : List ℤ) (s : Collection) : Prop where
  finished : (∀ target terminal, s.phase = .done target terminal → s.finishes = s.starts) ∧
    (∀ e, s.phase = .threw e → s.finishes = s.starts) ∧ s.starts ≤ 1
  shape : ∀ target terminal, s.phase = .done target terminal → terminal.isTerminal = true ∧
    ∃ states, Syncings target states ∧ s.observed = .connecting :: (states ++ [terminal])
  synced : ∀ target, s.phase = .done target .synced → Reached accountIds target s
  stopped : ∀ target, s.phase = .done target .stopped → s.cancelled = true
  heard : ∀ target terminal, s.phase = .done target terminal → s.cancelled = true →
    terminal = .stopped ∨ s.outcome = some (.ok ()) ∧ s.early = false

theorem Shaped.observed {s : Collection} (h : Shaped s) {target : ℤ} {terminal : SyncState}
    (hdone : s.phase = .done target terminal) : terminal.isTerminal = true ∧
      ∃ states, Syncings target states ∧ s.observed = .connecting :: (states ++ [terminal]) := by
  unfold Shaped at h
  rw [hdone] at h
  obtain ⟨states, hs, hemit, hterminal⟩ := h
  refine ⟨hterminal, ?_⟩
  have hconnecting : SyncState.connecting ≠ terminal := by
    rintro rfl
    cases hterminal
  have hsyncing : ∀ x ∈ states, x ≠ terminal := by
    rintro x hx rfl
    obtain ⟨current, -, rfl⟩ := hs x hx
    cases hterminal
  obtain ⟨shown, hshown, heq⟩ := destutter'_append hconnecting hsyncing
  refine ⟨shown, fun x hx => hs x (hshown x hx), ?_⟩
  unfold Collection.observed
  rw [hemit]
  exact heq

theorem Counted.finished {s : Collection} (h : Counted s) :
    (∀ target terminal, s.phase = .done target terminal → s.finishes = s.starts) ∧
      (∀ e, s.phase = .threw e → s.finishes = s.starts) ∧ s.starts ≤ 1 := by
  unfold Counted at h
  refine ⟨fun target terminal hp => ?_, fun e hp => ?_, ?_⟩
  · rw [hp] at h
    exact h.2.trans h.1.symm
  · rw [hp] at h
    exact h.1.symm
  · split at h <;> omega

/-- A collection tells the truth when no call comes before the native sync works and the
    accounts it reads last are accounted for. -/
theorem sync_tells_truth (accountIds : List ℤ) (flag : Bool) {events : List SyncEvent}
    {s : Collection} (hhonest : AllSteps (step accountIds) (Honest accountIds) (begun flag) events)
    (hrun : run (step accountIds) (begun flag) events = some s) : TellsTruth accountIds s := by
  have hshaped₀ : Shaped (begun flag) := rfl
  have hcounted₀ : Counted (begun flag) := ⟨rfl, rfl⟩
  have hflagged₀ : Flagged (begun flag) := trivial
  have hheard₀ : Heard (begun flag) := ⟨rfl, rfl, rfl⟩
  have htrue₀ : Truthful accountIds (begun flag) := fun _ h => by cases h
  have hshaped : Shaped s := run_inv _ _ (fun _ _ _ h hstep => h.step hstep) hshaped₀ hrun
  have hcounted : Counted s := run_inv _ _ (fun _ _ _ h hstep => h.step hstep) hcounted₀ hrun
  have hflagged : Flagged s := run_inv _ _ (fun _ _ _ h hstep => h.step hstep) hflagged₀ hrun
  have hheard : Heard s :=
    run_inv_of_allSteps _ (fun _ _ _ h hok hstep => h.step hok hstep) hheard₀ hhonest hrun
  have htrue : Truthful accountIds s :=
    run_inv_of_allSteps _ (fun _ _ _ h hok hstep => h.step hok hstep) htrue₀ hhonest hrun
  refine ⟨hcounted.finished, fun target terminal hp => hshaped.observed hp, htrue, ?_, ?_⟩
  · intro target hp
    unfold Flagged at hflagged
    rw [hp] at hflagged
    exact hflagged
  · intro target terminal hp hcancelled
    obtain ⟨hearly, hheard⟩ := hheard
    rw [hp] at hheard
    exact (hheard hcancelled).imp_right fun h => ⟨h, hearly⟩

/-- One account is brought to the target; a call that comes too late is not obeyed. -/
def lateCall : List SyncEvent :=
  [.latestHeight (.ok 100), .lock, .nativeStart, .sample, .progress (.ok (some 40)), .cancelSync,
    .nativeEnd (.ok ()), .sample, .decide, .accounts (.ok [(1, 100)])]

theorem lateCall_tells_truth : ∃ s, run (step [1]) (begun false) lateCall = some s ∧
    s.observed = [.connecting, .syncing 40 100, .syncing 100 100, .synced] ∧
    TellsTruth [1] s := by
  have hhonest : AllSteps (step [1]) (Honest [1]) (begun false) lateCall := by
    refine .cons rfl trivial (.cons rfl trivial (.cons rfl trivial (.cons rfl trivial
      (.cons rfl trivial (.cons rfl rfl (.cons rfl trivial (.cons rfl trivial (.cons rfl trivial
        (.cons rfl ?_ trivial)))))))))
    exact fun target _ => .inl (by decide)
  exact ⟨_, rfl, rfl, sync_tells_truth [1] false hhonest rfl⟩

/-- The account 2 is not stored, yet the accounts 1 and 2 are reported as synced; and a call
    made while the collection waits for the lock is forgotten. -/
theorem missing_account_synced :
    (∃ s, run (step [1, 2]) (begun false) [.latestHeight (.ok 100), .lock, .nativeStart,
        .nativeEnd (.ok ()), .sample, .decide, .accounts (.ok [(1, 100)])] = some s ∧
      s.phase = .done 100 .synced ∧ ¬ Reached [1, 2] 100 s) ∧
    ∃ s, run (step [1]) (begun false) [.latestHeight (.ok 100), .cancelSync, .lock, .nativeStart,
        .nativeEnd (.ok ()), .sample, .decide, .accounts (.ok [(1, 100)])] = some s ∧
      s.phase = .done 100 .synced ∧ s.cancelled = true ∧ s.early = true := by
  refine ⟨⟨_, rfl, rfl, ?_⟩, _, rfl, rfl, rfl, rfl⟩
  rintro (hnone | ⟨accounts, hstored, hall⟩)
  · cases hnone
  · obtain rfl := Option.some.inj hstored
    obtain ⟨⟨a, ha, hid⟩, -⟩ := hall 2 (by decide)
    obtain rfl := List.mem_singleton.1 ha
    exact absurd hid (by decide)

end Collection

end ZcashSdk.Sync
