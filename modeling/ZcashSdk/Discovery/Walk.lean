import ZcashSdk.Discovery.Window

set_option autoImplicit false

/-!
# The discovery walk

Each scope is walked index by index until enough consecutive addresses were never used
and every stored index was visited. Indexes that are sure to be reached are planned in
batches whose first windows are asked for at once; they are ingested in index order.
-/
namespace ZcashSdk.Discovery
open Tables Shielded Db Database

variable {H : Type} [DecidableEq H]

inductive Failure where
  /-- No key, or none for the index. -/
  | derivation
  | bail (message : String)
  | walk (e : BackfillError)
  deriving DecidableEq

structure DiscoveryArgs where
  account : ℕ
  endHeight : ℕ
  gapLimit : ℕ
  identity : AccountIdentity
  birth : ℕ

/-- Where a candidate's walk starts, and its stored address; `none` when nothing has to be asked. -/
def candidateStart (a : DiscoveryArgs) (db : Database H) (scope dindex : ℕ) (taddr : Bytes) :
    Except Failure (Option (Option (ℕ × Bytes) × ℕ)) :=
  if accountIdentity db a.account ≠ some a.identity then .error (.bail (replacedMessage a.account))
  else
    match db.accountSeam a.account with
    | none => .error (.bail noSeamMessage)
    | some seam =>
      match db.transparentAddressRow a.account scope dindex with
      | some row =>
        let backfilled := db.transparentBackfilledHeight row.1
        if (backfilled.any fun h => seam ≤ h) ∧ db.transparentAddressIsUsed a.account taddr then
          .ok none
        else .ok (some (some row, max ((backfilled.map (· + 1)).getD 0) a.birth))
      | none => .ok (some (none, a.birth))

/-- What a candidate needs; its address is derived once. -/
structure Candidate where
  existing : Option (ℕ × Bytes)
  lo : ℕ
  taddr : Bytes

structure BatchEntry where
  dindex : ℕ
  candidate : Option Candidate

/-- A walk inside a scope: what it stored, added and covered, where it is and how many addresses
    in a row were unused. -/
structure WalkState (H : Type) [DecidableEq H] where
  db : Database H
  nAdded : ℕ
  covered : List (ℕ × ℕ)
  dindex : ℕ
  gap : ℕ

/-- What a walk comes to: a failure, or its end; what was stored stays in either case. -/
abbrev Outcome (α : Type) (H : Type) [DecidableEq H] := Except Failure α × Database H

section Scope
variable (env : Env) (a : DiscoveryArgs) (scope : ℕ) (storedThrough : Option ℕ)

/-- `while gap <= gap_limit || stored_through.is_some_and(|last| dindex <= last)`. -/
def continues (gap dindex : ℕ) : Bool :=
  gap ≤ a.gapLimit ∨ storedThrough.any fun last => dindex ≤ last

/-- `u32::saturating_add`. -/
def satAdd (x y : ℕ) : ℕ := min (x + y) (2 ^ 32 - 1)

def certain (gap dindex : ℕ) : ℕ :=
  max (satAdd a.gapLimit 1 - gap)
    ((storedThrough.map fun last => satAdd last 1 - dindex).getD 0)

def Candidate.asks (c : Candidate) (backfillEnd : ℕ) : Bool := c.lo ≤ backfillEnd

def planEntry (db : Database H) (dindex : ℕ) : Except Failure BatchEntry :=
  match env.derive scope dindex with
  | none => .error .derivation
  | some taddr =>
    (candidateStart a db scope dindex taddr).map fun start =>
      ⟨dindex, start.map fun s => ⟨s.1, s.2, taddr⟩⟩

/-- Plans at most `limit` indexes, until as many requests as the width allows. -/
def planBatch (db : Database H) : (limit slots dindex : ℕ) → Except Failure (List BatchEntry)
  | 0, _, _ => .ok []
  | _, 0, _ => .ok []
  | limit + 1, slots + 1, dindex =>
    match planEntry env a scope db dindex with
    | .error f => .error f
    | .ok entry =>
      let left := if entry.candidate.any fun c => c.asks a.endHeight then slots else slots + 1
      (planBatch db limit left (dindex + 1)).map (entry :: ·)

def walkArgs (dindex : ℕ) (taddr : Bytes) : WalkArgs := ⟨a.account, a.birth, scope, dindex, taddr⟩

/-- Ingests what came of a candidate. The row is the one read under the guard. -/
def settleCandidate (s : WalkState H) (dindex : ℕ) (existing row : Option (ℕ × Bytes)) (used : Bool)
    (db : Database H) : WalkState H where
  db := db
  nAdded := if row.isSome ∧ existing.isNone then s.nAdded + 1 else s.nAdded
  covered := if row.isSome then s.covered ++ [(scope, dindex)] else s.covered
  dindex := dindex + 1
  gap := if row.isSome ∨ used then 0 else s.gap + 1

/-- A candidate's walk, with or without a reply that was asked for ahead. -/
def ingestEntry (s : WalkState H) (entry : BatchEntry) (first : Option Fetched) :
    Outcome (WalkState H) H :=
  match entry.candidate with
  | none =>
    let s' := { s with
      gap := 0, covered := s.covered ++ [(scope, entry.dindex)], dindex := entry.dindex + 1 }
    (.ok s', s'.db)
  | some c =>
    match walkCandidate env (walkArgs a scope entry.dindex c.taddr) a.identity c.existing c.lo
      a.endHeight first s.db with
    | (db, .error e) => (.error (.walk e), db)
    | (db, .ok (row, used)) => (.ok (settleCandidate scope s entry.dindex c.existing row used db), db)

abbrev Prefetched := ℕ → Option (Except BackfillError Fetched)

/-- `join_all`: every target's slot is filled when its request completes. -/
def joinAll (targets : List (ℕ × Candidate)) (seam : ℕ) : Prefetched :=
  targets.foldl (fun results t => Function.update results t.1
    (some (fetchWindow env t.2.taddr t.2.lo a.endHeight seam))) fun _ => none

def targetsOf (batch : List BatchEntry) : List (ℕ × Candidate) :=
  batch.zipIdx.filterMap fun e => e.1.candidate.bind fun c =>
    if c.asks a.endHeight then some (e.2, c) else none

def probeFailed (entry : BatchEntry) : Option (Except BackfillError Fetched) → Bool
  | some (.error _) => entry.candidate.isSome
  | _ => false

def replyOf : Option (Except BackfillError Fetched) → Option Fetched
  | some (.ok f) => some f
  | _ => none

/-- Ingests in index order. The first failed probe halves the width and drops what the siblings
    were sent, so that each is asked for alone. -/
def ingestBatch : List BatchEntry → (slot width : ℕ) → Prefetched → WalkState H →
    Outcome (WalkState H × ℕ) H
  | [], _, width, _, s => (.ok (s, width), s.db)
  | entry :: batch, slot, width, prefetched, s =>
    let failed := probeFailed entry (prefetched slot)
    let width := if failed then max (width / 2) 1 else width
    match ingestEntry env a scope s entry (replyOf (prefetched slot)) with
    | (.error f, db) => (.error f, db)
    | (.ok s, _) =>
      ingestBatch batch (slot + 1) width (if failed then fun _ => none else prefetched) s

/-- One round of the loop; `order` is that in which the requests complete. -/
def walkBatch (order : List (ℕ × Candidate) → List (ℕ × Candidate)) (width : ℕ) (s : WalkState H) :
    Outcome (WalkState H × ℕ) H :=
  match planBatch env a scope s.db (certain a storedThrough s.gap s.dindex) width s.dindex with
  | .error f => (.error f, s.db)
  | .ok batch =>
    let targets := targetsOf a batch
    if 2 ≤ targets.length then
      match s.db.accountSeam a.account with
      | none => (.error (.bail noSeamMessage), s.db)
      | some seam => ingestBatch env a scope batch 0 width (joinAll env a (order targets) seam) s
    else ingestBatch env a scope batch 0 width (fun _ => none) s

/-- The order in which the requests of each round complete; every request does. -/
structure Completion where
  order : ℕ → List (ℕ × Candidate) → List (ℕ × Candidate)
  perm : ∀ k targets, (order k targets).Perm targets

/-- The loop over a scope, from a round on; it has no outcome when it never stops. -/
inductive ScopeWalk (c : Completion) : (round width : ℕ) → WalkState H →
    Outcome (WalkState H × ℕ × ℕ) H → Prop
  | stop (k w : ℕ) (s : WalkState H) (h : continues a storedThrough s.gap s.dindex = false) :
    ScopeWalk c k w s (.ok (s, w, k), s.db)
  | fail (k w : ℕ) (s : WalkState H) (f : Failure) (db : Database H)
      (h : continues a storedThrough s.gap s.dindex = true)
      (round : walkBatch env a scope storedThrough (c.order k) w s = (.error f, db)) :
    ScopeWalk c k w s (.error f, db)
  | next (k w w' : ℕ) (s t : WalkState H) (db : Database H) (o : Outcome (WalkState H × ℕ × ℕ) H)
      (h : continues a storedThrough s.gap s.dindex = true)
      (round : walkBatch env a scope storedThrough (c.order k) w s = (.ok (t, w'), db))
      (rest : ScopeWalk c (k + 1) w' t o) : ScopeWalk c k w s o

end Scope

/-! ### The whole walk -/

/-- What a walk returns: how many addresses it added, and how far it went in each scope. -/
structure Discovered where
  nAdded : ℕ
  lastIndex : List ℕ
  deriving DecidableEq

def incomplete (db : Database H) (account seam : ℕ) (covered : List (ℕ × ℕ)) :
    Except Failure ℕ :=
  covered.foldlM (fun n c =>
    match db.transparentAddressRow account c.1 c.2 with
    | none => .error (.bail "covered address row missing")
    | some row =>
      .ok (if (db.transparentBackfilledHeight row.1).any fun h => seam ≤ h then n else n + 1)) 0

def certify (a : DiscoveryArgs) (trimAtStart : ℕ) (db : Database H) (covered : List (ℕ × ℕ)) :
    Except Failure (Database H) :=
  if accountIdentity db a.account ≠ some a.identity then .error (.bail (replacedMessage a.account))
  else
    match db.accountSeam a.account with
    | none => .error (.bail noSeamMessage)
    | some seam =>
      match incomplete db a.account seam covered with
      | .error f => .error f
      | .ok 0 =>
        if db.trimCounter a.account ≠ trimAtStart then
          .error (.bail "coverage invalidated by a trim during the walk")
        else .ok (db.writeTransparentCoverage a.account a.gapLimit)
      | .ok n => .error (.bail
          s!"transparent coverage incomplete for {n} of {covered.length} covered addresses")

/-- What is read under the first guard; the birth height of an account that is there is too. -/
def readArgs (db : Database H) (account endHeight gapLimit : ℕ) : Except Failure DiscoveryArgs :=
  match accountIdentity db account with
  | none => .error (.bail "account not found")
  | some identity => .ok ⟨account, endHeight, gapLimit, identity, identity.birth⟩

/-- Both scopes in turn, each up to where its addresses were stored when the walk began. -/
inductive Discovers (env : Env) (c : Completion) (concurrency : ℕ) (db : Database H)
    (account endHeight gapLimit : ℕ) : Outcome Discovered H → Prop
  | unknown (f : Failure) (h : readArgs db account endHeight gapLimit = .error f) :
    Discovers env c concurrency db account endHeight gapLimit (.error f, db)
  | first (a : DiscoveryArgs) (f : Failure) (d : Database H)
      (h : readArgs db account endHeight gapLimit = .ok a)
      (walk : ScopeWalk env a 0 (db.highestStoredDindex account 0) c 0
        (min (max concurrency 1) maxDiscoveryConcurrency) ⟨db, 0, [], 0, 0⟩ (.error f, d)) :
    Discovers env c concurrency db account endHeight gapLimit (.error f, d)
  | second (a : DiscoveryArgs) (f : Failure) (d d' : Database H) (s : WalkState H) (w k : ℕ)
      (h : readArgs db account endHeight gapLimit = .ok a)
      (walk : ScopeWalk env a 0 (db.highestStoredDindex account 0) c 0
        (min (max concurrency 1) maxDiscoveryConcurrency) ⟨db, 0, [], 0, 0⟩ (.ok (s, w, k), d))
      (walk' : ScopeWalk env a 1 (db.highestStoredDindex account 1) c k w
        { s with dindex := 0, gap := 0 } (.error f, d')) :
    Discovers env c concurrency db account endHeight gapLimit (.error f, d')
  | both (a : DiscoveryArgs) (d d' : Database H) (s t : WalkState H) (w w' k k' : ℕ)
      (h : readArgs db account endHeight gapLimit = .ok a)
      (walk : ScopeWalk env a 0 (db.highestStoredDindex account 0) c 0
        (min (max concurrency 1) maxDiscoveryConcurrency) ⟨db, 0, [], 0, 0⟩ (.ok (s, w, k), d))
      (walk' : ScopeWalk env a 1 (db.highestStoredDindex account 1) c k w
        { s with dindex := 0, gap := 0 } (.ok (t, w', k'), d')) :
    Discovers env c concurrency db account endHeight gapLimit
      (match certify a (db.trimCounter account) t.db t.covered with
        | .error f => (.error f, t.db)
        | .ok stored => (.ok ⟨t.nAdded, [s.dindex, t.dindex]⟩, stored))

end ZcashSdk.Discovery
