import ZcashSdk.Db.Balance
import ZcashSdk.Migrate.Acceptance

set_option autoImplicit false

/-!
# The phase of a migration

Two queries look at the Orchard notes of an account. The status takes all that are unspent,
unlocked and unreserved; a step takes of these only the confirmed ones. Each works out its
phase in the same way: a split when one can be planned, else sending while there is a note of
standard denomination, else the migration is complete.
-/
namespace ZcashSdk.Migrate
open Pay Pay.Solve Db Tables Loops Iterate
open Shielded (Bytes)

/-! ### The loop of a split always ends -/

/-- More turns than a byte counts outputs. -/
def splitFuel : ℕ := 2 ^ 8

/-- `plan_split`; its loop ends within that many turns. -/
def splitPlan (values : List ℕ) : Except Fault (Option SplitPlan) :=
  (planSplit splitFuel values).getD (.ok none)

section Ends
variable {t : Trim} {values : List ℕ}

def Counts (t : Trim) : Prop := outputs t.digits = t.numOutputs ∧ ∀ p ∈ t.digits, 0 < p.2

theorem lower_ok {n m : ℕ} : lower n = .ok m ↔ n = m + 1 := by
  unfold lower
  split
  · rw [Except.ok.injEq]
    omega
  · constructor
    · intro h
      cases h
    · intro h
      omega

theorem trimStep_counts {t' : Trim} (h : Counts t) (hstep : trimStep t = .ok (some t')) :
    Counts t' ∧ t'.numOutputs + 1 = t.numOutputs := by
  obtain ⟨hcounted, hpos⟩ := h
  unfold trimStep at hstep
  split at hstep
  · cases hstep
  · rename_i hgo
    rw [not_or] at hgo
    rcases List.eq_nil_or_concat t.digits with hnil | ⟨rest, ⟨denom, count⟩, hdigits⟩
    · rw [hnil] at hcounted
      exact absurd hcounted.symm hgo.2
    · rw [List.concat_eq_append] at hdigits
      rw [hdigits, outputs_append, outputs_singleton] at hcounted
      rw [hdigits] at hpos
      rw [hdigits, List.getLast?_concat, List.dropLast_concat] at hstep
      obtain ⟨c, hc, hstep⟩ := bind_eq_ok.1 hstep
      obtain ⟨remainder, -, hstep⟩ := bind_eq_ok.1 hstep
      obtain ⟨n, hn, hstep⟩ := bind_eq_ok.1 hstep
      obtain ⟨fm, -, hstep⟩ := bind_eq_ok.1 hstep
      cases hstep
      rw [lower_ok] at hc hn
      have hrest : ∀ p ∈ rest, 0 < p.2 := fun p hp => hpos p (List.mem_append_left _ hp)
      refine ⟨⟨?_, ?_⟩, hn.symm⟩
      · dsimp only
        split
        · omega
        · rw [outputs_append, outputs_singleton]
          omega
      · dsimp only
        split
        · exact hrest
        · rename_i hne
          intro p hp
          rcases List.mem_append.1 hp with hp | hp
          · exact hrest p hp
          · rw [List.mem_singleton.1 hp]
            exact Nat.pos_of_ne_zero hne

theorem trim_returns (h : Counts t) {fuel : ℕ} (hfuel : t.numOutputs < fuel) :
    ∃ r, iterate trimTurn fuel t = some r := by
  induction fuel generalizing t with
  | zero => exact absurd hfuel (Nat.not_lt_zero _)
  | succ fuel ih =>
    rw [iterate]
    cases hstep : trimStep t with
    | error e => exact ⟨.error e, by rw [trimTurn, hstep]⟩
    | ok next =>
      cases next with
      | none => exact ⟨.ok t, by rw [trimTurn, hstep]⟩
      | some t' =>
        obtain ⟨hcounts, hless⟩ := trimStep_counts h hstep
        obtain ⟨r, hr⟩ := ih hcounts (by omega)
        exact ⟨r, by rw [trimTurn, hstep]; exact hr⟩

theorem decomposeLoop_pos (ks : List ℕ) (result : List (ℕ × ℕ)) (remainder : ℕ)
    (h : ∀ p ∈ result, 0 < p.2) : ∀ p ∈ (decomposeLoop ks result remainder).1, 0 < p.2 := by
  induction ks generalizing result remainder with
  | nil => exact h
  | cons k ks ih =>
    rw [decomposeLoop]
    split
    · exact h
    · refine ih _ _ ?_
      split
      · rename_i hpos
        intro p hp
        rcases List.mem_append.1 hp with hp | hp
        · exact h p hp
        · rw [List.mem_singleton.1 hp]
          exact hpos
      · exact h

theorem carve_pos {total remainder : ℕ} {digits : List (ℕ × ℕ)}
    (h : carve total = .ok (digits, remainder)) : ∀ p ∈ digits, 0 < p.2 := by
  unfold carve at h
  dsimp only at h
  split at h
  · obtain ⟨r, -, h⟩ := bind_eq_ok.1 h
    rw [Except.ok.injEq, Prod.mk.injEq] at h
    rw [← h.1]
    exact decomposeLoop_pos _ _ _ (by simp)
  · rw [Except.ok.injEq] at h
    have hdigits : (decomposeToSd total).1 = digits := congrArg Prod.fst h
    rw [← hdigits]
    exact decomposeLoop_pos _ _ _ (by simp)

theorem splitStart_counts {total : ℕ} (h : splitStart values = .ok (some (total, t))) :
    Counts t ∧ t.numOutputs < splitFuel := by
  unfold splitStart at h
  obtain ⟨sum, -, h⟩ := bind_eq_ok.1 h
  split at h
  · cases h
  · obtain ⟨⟨digits, remainder⟩, hcarve, h⟩ := bind_eq_ok.1 h
    obtain ⟨numOutputs, hnum, h⟩ := bind_eq_ok.1 h
    obtain ⟨fm, hfeed, h⟩ := bind_eq_ok.1 h
    cases h
    have hcount := ((feed_counted hfeed).2 2).2
    rw [splitCalls_outputs, if_pos rfl] at hcount
    have hfuel : splitFuel = 256 := rfl
    have hsum : numOutputs = (digits.map Prod.snd).sum := Pay.sumU64_eq hnum
    exact ⟨⟨hsum.symm, carve_pos hcarve⟩, by dsimp only; omega⟩

theorem planSplit_eq (values : List ℕ) {fuel : ℕ} (hfuel : splitFuel ≤ fuel) :
    planSplit fuel values = some (splitPlan values) := by
  have hreturns : ∃ r, planSplit splitFuel values = some r := by
    unfold planSplit
    cases hstart : splitStart values with
    | error e => exact ⟨_, rfl⟩
    | ok start =>
      cases start with
      | none => exact ⟨_, rfl⟩
      | some start =>
        obtain ⟨hcounts, hless⟩ := splitStart_counts hstart
        obtain ⟨r, hr⟩ := trim_returns hcounts hless
        exact ⟨_, by dsimp only; rw [hr]; rfl⟩
  obtain ⟨r, hr⟩ := hreturns
  obtain ⟨n, rfl⟩ := Nat.exists_eq_add_of_le hfuel
  rw [planSplit_mono hr n, splitPlan, hr, Option.getD_some]

end Ends

/-! ### Phases -/

inductive Phase where
  | splitting | migrating | complete
  deriving DecidableEq

/-- Whether the notes that are no standard denominations can be split. -/
def hasSplitTransaction (values : List ℕ) : Except Fault Bool :=
  (splitPlan values).map Option.isSome

def phaseFor (hasSplit : Bool) (sdCount : ℕ) : Phase :=
  if hasSplit then .splitting else if 0 < sdCount then .migrating else .complete

def phaseOf (values : List ℕ) : Except Fault Phase :=
  (hasSplitTransaction (values.filter fun v => !isSd v)).map fun hasSplit =>
    phaseFor hasSplit (values.filter isSd).length

/-! ### The status -/

/-- The progress, a quotient of two of the counts, is left out: nothing reads it. -/
structure MigrationStatus where
  phase : Phase
  splitFees : ℕ
  migrateFees : ℕ
  totalFees : ℕ
  sdNotesCount : ℕ
  nonSdNotesCount : ℕ
  ironwoodSdCount : ℕ
  workSummary : String

section Queries
variable {H : Type} [DecidableEq H] (db : Database H) (account : ℕ)

def fetchUnspentNotesGroupedByPool : List InputNote :=
  (db.fetchUnspentNotes account).mergeSort fun a b => decide (a.pool ≤ b.pool)

def currentMigrationStatus (accSplit accMigrate : ℕ) : Except Fault MigrationStatus := do
  let allNotes := fetchUnspentNotesGroupedByPool db account
  let orchardZec := allNotes.filter fun n => n.pool = 2 ∧ n.assetBase = zecKey
  let sdCount := (orchardZec.filter fun n => isSd n.amount).length
  let nonSdVals := (orchardZec.filter fun n => !isSd n.amount).map InputNote.amount
  let hasSplit ← hasSplitTransaction nonSdVals
  let effectiveNonSd := if hasSplit then nonSdVals.length else 0
  let ironwoodSd := (allNotes.filter fun n =>
    n.pool = 3 ∧ n.assetBase = zecKey ∧ isIwSd n.amount = true).length
  let totalFees ← u64 (accSplit + accMigrate)
  .ok ⟨phaseFor hasSplit sdCount, accSplit, accMigrate, totalFees, sdCount, effectiveNonSd,
    ironwoodSd, s!"SD: {sdCount}, non-SD: {effectiveNonSd}"⟩

/-! ### A step -/

structure OrchardZecNote (H : Type) where
  id : ℕ
  height : ℕ
  value : ℕ
  cmx : Option H
  hasCheckpoint : Bool

/-- The height the account is scanned to, which must have a header. -/
def getDbHeight : Except String ℕ :=
  match (db.accountSeam account).bind fun h => db.headers.rows.find? fun b => b.height = h with
  | some b => .ok b.height
  | none => .error "no rows returned by a query that expected to return at least one row"

def orchardZecNote (checkpointHeight : ℕ) (n : NoteRow H) : OrchardZecNote H :=
  ⟨n.idNote, n.height, asU64 n.value, n.cmx, db.witnesses.rows.any fun w =>
    w.account = n.account ∧ w.note = n.idNote ∧ w.height = checkpointHeight⟩

def fetchUnspentOrchardNotesWithCmx (checkpointHeight confirmedHeight : ℕ) :
    List (OrchardZecNote H) :=
  (db.notes.rows.filter fun n => n.account = account ∧ db.isSpent n.idNote = false ∧
    n.height ≤ confirmedHeight ∧ n.pool = 2 ∧ n.idAsset = none ∧ n.locked = false ∧
      db.isReserved n = false).map (orchardZecNote db checkpointHeight)

end Queries

inductive MigrationEvent where
  | splitComplete (fee : ℕ) (txid : String)
  | migrateComplete (fee : ℕ) (txid : String)
  | complete
  | nothingToDo
  deriving DecidableEq

/-- What a step asks the planner for; the source is Orchard and the plan one of a migration. -/
structure Sending where
  recipients : List Recipient
  preselected : List ℕ
  anchorHeight : Option ℕ

/-- What a step needs from outside: the tip, the account's own address, the bytes of a commitment,
    and planning, signing and sending, with the fee and the id of what was sent. -/
structure StepEnv (H : Type) [DecidableEq H] where
  latestHeight : Except String ℕ
  ownAddress : Database H → ℕ → Except String String
  cmxBytes : H → Bytes
  send : Database H → Sending → Except PlanError (Database H × ℕ × String)

def defaultConfirmations : ℕ := 10

section Step
variable {H : Type} [DecidableEq H]

def sdNotes (notes : List (OrchardZecNote H)) : List (OrchardZecNote H) :=
  notes.filter fun n => isSd n.value

def cappedNonSd (notes : List (OrchardZecNote H)) : List (OrchardZecNote H) :=
  ((notes.filter fun n => !isSd n.value).mergeSort fun a b => decide (b.value ≤ a.value)).take
    maxSplitInputs

def recipient (address : String) (amount pool : ℕ) : Recipient := ⟨address, amount, some (2 ^ pool), []⟩

/-- One recipient for each of the counts, all of them the account itself. -/
def splitRecipients (address : String) (digits : List (ℕ × ℕ)) : List Recipient :=
  digits.flatMap fun p => List.replicate p.2 (recipient address p.1 2)

def commitmentOf (cmxBytes : H → Bytes) (n : OrchardZecNote H) : Bytes :=
  (n.cmx.map cmxBytes).getD []

/-- The note with the largest commitment, of those that have a witness at the checkpoint. -/
def noteToSend (cmxBytes : H → Bytes) (checkpointHeight : ℕ) (notes : List (OrchardZecNote H)) :
    Option (OrchardZecNote H) :=
  (((sdNotes notes).filter fun n => n.height ≤ checkpointHeight ∧ n.hasCheckpoint = true).mergeSort
    fun a b => decide (commitmentOf cmxBytes a ≤ commitmentOf cmxBytes b)).getLast?

inductive Action (H : Type) where
  | complete
  | split (plan : SplitPlan) (inputs : List (OrchardZecNote H))
  | misaligned
  | wait
  | migrate (note : OrchardZecNote H)

def chooseAction (cmxBytes : H → Bytes) (checkpointHeight anchorBucketSize : ℕ)
    (notes : List (OrchardZecNote H)) : Except Fault (Action H) :=
  if notes = [] then .ok .complete
  else do
    match ← splitPlan ((cappedNonSd notes).map OrchardZecNote.value) with
    | some plan => .ok (.split plan (cappedNonSd notes))
    | none =>
      if sdNotes notes = [] then .ok .complete
      else if checkpointHeight % anchorBucketSize ≠ 0 then .ok .misaligned
      else match noteToSend cmxBytes checkpointHeight notes with
        | none => .ok .wait
        | some note => .ok (.migrate note)

def misalignedMessage (checkpointHeight anchorBucketSize : ℕ) : String :=
  s!"Migration checkpoint {checkpointHeight} is not on a {anchorBucketSize}-block anchor boundary"

variable (env : StepEnv H) (db : Database H) (account : ℕ)

def perform (ownAddress : String) (checkpointHeight anchorBucketSize : ℕ) :
    Action H → Except PlanError (MigrationEvent × Database H)
  | .complete => .ok (.complete, db)
  | .split plan inputs => do
    let (db, fee, txid) ← env.send db ⟨splitRecipients ownAddress plan.digits,
      inputs.map OrchardZecNote.id, none⟩
    .ok (.splitComplete fee txid, db)
  | .misaligned => .error (.bail (misalignedMessage checkpointHeight anchorBucketSize))
  | .wait => .ok (.nothingToDo, db)
  | .migrate note => do
    let (db, fee, txid) ← env.send db ⟨[recipient ownAddress (note.value - sdFeePad) 3], [note.id],
      some checkpointHeight⟩
    .ok (.migrateComplete fee txid, db)

def step (anchorBucketSize : ℕ) : Except PlanError (MigrationEvent × Database H) := do
  let _ ← (env.latestHeight).mapError .bail
  let checkpointHeight ← (getDbHeight db account).mapError .bail
  let ownAddress ← (env.ownAddress db account).mapError .bail
  let notes := fetchUnspentOrchardNotesWithCmx db account checkpointHeight
    (db.confirmedHeight account defaultConfirmations)
  let action ← orPanic (chooseAction env.cmxBytes checkpointHeight anchorBucketSize notes)
  perform env db ownAddress checkpointHeight anchorBucketSize action

def stepError : PlanError → PlanError
  | .bail message => .bail s!"step: {message}"
  | .panic fault => .panic fault

/-- The step, unless the status already tells what there is to do. -/
def stepAfter (before : MigrationStatus) (allowMigrate : Bool) (anchorBucketSize : ℕ) :
    Except PlanError (MigrationEvent × Database H) :=
  if before.phase = .complete then .ok (.complete, db)
  else if before.phase = .migrating ∧ allowMigrate = false then .ok (.nothingToDo, db)
  else (step env db account anchorBucketSize).mapError stepError

/-- A step between two looks at the status, in a database that was synchronized. -/
def doStep (accSplit accMigrate : ℕ) (allowMigrate : Bool) (anchorBucketSize : ℕ) :
    Except PlanError (MigrationEvent × MigrationStatus × Database H) := do
  let before ← orPanic (currentMigrationStatus db account accSplit accMigrate)
  let (event, db) ← stepAfter env db account before allowMigrate anchorBucketSize
  let status ← orPanic (currentMigrationStatus db account accSplit accMigrate)
  .ok (event, status, db)

end Step

/-! ### Both look at the same values -/

section Phases
variable {values values' : List ℕ}

theorem sorted_largest (values : List ℕ) :
    (values.mergeSort fun a b => decide (b ≤ a)).Pairwise fun a b => b ≤ a := by
  have htrans : ∀ a b c : ℕ, decide (b ≤ a) = true → decide (c ≤ b) = true →
      decide (c ≤ a) = true := by
    intro a b c hab hbc
    rw [decide_eq_true_eq] at hab hbc ⊢
    omega
  have htotal : ∀ a b : ℕ, (decide (b ≤ a) || decide (a ≤ b)) = true := by
    intro a b
    rw [Bool.or_eq_true, decide_eq_true_eq, decide_eq_true_eq]
    omega
  exact (List.pairwise_mergeSort htrans htotal values).imp of_decide_eq_true

/-- The order of the notes does not matter to a split. -/
theorem largest_perm (h : values.Perm values') : largest values = largest values' := by
  unfold largest
  congr 1
  refine List.Perm.eq_of_pairwise (fun a b _ _ hab hba => Nat.le_antisymm hba hab)
    (sorted_largest values) (sorted_largest values') ?_
  exact (List.mergeSort_perm _ _).trans (h.trans (List.mergeSort_perm _ _).symm)

theorem largest_idem (values : List ℕ) : largest (largest values) = largest values := by
  have hsorted := (sorted_largest values).sublist (List.take_sublist maxSplitInputs _)
  have hsame : (largest values).mergeSort (fun a b => decide (b ≤ a)) = largest values :=
    List.mergeSort_of_pairwise (hsorted.imp fun h => decide_eq_true h)
  rw [largest, hsame]
  unfold largest
  rw [List.take_take, Nat.min_self]

theorem splitPlan_congr (h : largest values = largest values') :
    splitPlan values = splitPlan values' := by
  unfold splitPlan planSplit splitStart
  rw [h]

theorem phaseOf_perm (h : values.Perm values') : phaseOf values = phaseOf values' := by
  unfold phaseOf hasSplitTransaction
  rw [splitPlan_congr (largest_perm (h.filter _)), (h.filter isSd).length_eq]

theorem phaseOf_complete : phaseOf values = .ok .complete ↔
    (∀ v ∈ values, isSd v = false) ∧ splitPlan values = .ok none := by
  unfold phaseOf hasSplitTransaction phaseFor
  constructor
  · intro h
    obtain ⟨hasSplit, hsplit, hphase⟩ : ∃ hasSplit,
        (splitPlan (values.filter fun v => !isSd v)).map Option.isSome = .ok hasSplit ∧
          (if hasSplit = true then Phase.splitting
            else if 0 < (values.filter isSd).length then .migrating else .complete) = .complete := by
      cases hplan : (splitPlan (values.filter fun v => !isSd v)).map Option.isSome with
      | error e =>
        rw [hplan] at h
        cases h
      | ok b =>
        rw [hplan] at h
        exact ⟨b, rfl, Except.ok.inj h⟩
    split_ifs at hphase with hb hsd
    have hnone : ∀ v ∈ values, isSd v = false := by
      intro v hv
      by_contra hne
      rw [Bool.not_eq_false] at hne
      exact hsd (List.length_pos_of_mem (List.mem_filter.2 ⟨hv, hne⟩))
    have hall : (values.filter fun v => !isSd v) = values :=
      List.filter_eq_self.2 fun v hv => by rw [hnone v hv]; rfl
    rw [hall] at hsplit
    refine ⟨hnone, ?_⟩
    cases hplan : splitPlan values with
    | error e =>
      rw [hplan] at hsplit
      cases hsplit
    | ok plan =>
      rw [hplan] at hsplit
      cases plan with
      | none => rfl
      | some plan => exact absurd (Except.ok.inj hsplit).symm hb
  · rintro ⟨hnone, hplan⟩
    have hall : (values.filter fun v => !isSd v) = values :=
      List.filter_eq_self.2 fun v hv => by rw [hnone v hv]; rfl
    have hempty : values.filter isSd = [] :=
      List.filter_eq_nil_iff.2 fun v hv => by rw [hnone v hv]; decide
    rw [hall, hplan, hempty]
    rfl

theorem phaseOf_nil : phaseOf [] = .ok .complete := by
  have hlargest : largest [] = [] := by simp [largest]
  refine phaseOf_complete.2 ⟨by simp, ?_⟩
  unfold splitPlan planSplit splitStart
  rw [hlargest]
  rfl

end Phases

def Action.phase {H : Type} : Action H → Phase
  | .complete => .complete
  | .split .. => .splitting
  | .misaligned | .wait | .migrate _ => .migrating

def MigrationEvent.phase : MigrationEvent → Phase
  | .complete => .complete
  | .splitComplete .. => .splitting
  | .migrateComplete .. | .nothingToDo => .migrating

section Steps
variable {H : Type} {notes : List (OrchardZecNote H)}

theorem cappedNonSd_values (notes : List (OrchardZecNote H)) :
    (cappedNonSd notes).map OrchardZecNote.value =
      largest ((notes.map OrchardZecNote.value).filter fun v => !isSd v) := by
  unfold cappedNonSd largest
  rw [List.map_take, List.map_mergeSort (s := fun a b => decide (b ≤ a)) fun _ _ _ _ => rfl,
    List.filter_map]
  rfl

/-- What a step does is what the phase of its notes says. -/
theorem chooseAction_phase (cmxBytes : H → Bytes) (checkpointHeight anchorBucketSize : ℕ)
    (notes : List (OrchardZecNote H)) :
    (chooseAction cmxBytes checkpointHeight anchorBucketSize notes).map Action.phase =
      phaseOf (notes.map OrchardZecNote.value) := by
  unfold chooseAction
  split
  · rename_i hnil
    rw [hnil, List.map_nil, phaseOf_nil]
    rfl
  · have hplan : splitPlan ((cappedNonSd notes).map OrchardZecNote.value) =
        splitPlan ((notes.map OrchardZecNote.value).filter fun v => !isSd v) := by
      rw [cappedNonSd_values]
      exact splitPlan_congr (largest_idem _)
    have hsd : ((notes.map OrchardZecNote.value).filter isSd).length = (sdNotes notes).length := by
      unfold sdNotes
      rw [List.filter_map, List.length_map]
      rfl
    unfold phaseOf hasSplitTransaction
    rw [hplan, hsd]
    cases splitPlan ((notes.map OrchardZecNote.value).filter fun v => !isSd v) with
    | error e => rfl
    | ok plan =>
      cases plan with
      | some plan => rfl
      | none =>
        simp only [ok_bind]
        by_cases hnone : sdNotes notes = []
        · rw [if_pos hnone, hnone]
          rfl
        · have hpos := List.length_pos_of_ne_nil hnone
          rw [if_neg hnone]
          have hphase : phaseFor false (sdNotes notes).length = .migrating := by
            unfold phaseFor
            rw [if_neg (by decide), if_pos hpos]
          have hmap : (Except.ok none : Except Fault (Option SplitPlan)).map Option.isSome =
              .ok false := rfl
          rw [hmap]
          change _ = Except.ok (phaseFor false (sdNotes notes).length)
          rw [hphase]
          split
          · rfl
          · split <;> rfl

end Steps

/-! ### What both answer -/

section Answers
variable {H : Type} [DecidableEq H] {db d : Database H} {account : ℕ} {status : MigrationStatus}
  {event : MigrationEvent} {env : StepEnv H} {accSplit accMigrate anchorBucketSize : ℕ}
  {allowMigrate : Bool}

/-- The Orchard ZEC of an account that a migration has to move: unspent and not locked. -/
def owedNotes (db : Database H) (account : ℕ) : List (NoteRow H) :=
  db.notes.rows.filter fun n => n.account = account ∧ db.isSpent n.idNote = false ∧ n.pool = 2 ∧
    n.idAsset = none ∧ n.locked = false

def owedValues (db : Database H) (account : ℕ) : List ℕ :=
  (owedNotes db account).map fun n => asU64 n.value

def freeValues (db : Database H) (account : ℕ) : List ℕ :=
  ((owedNotes db account).filter fun n => !db.isReserved n).map fun n => asU64 n.value

def confirmedValues (db : Database H) (account : ℕ) : List ℕ :=
  ((owedNotes db account).filter fun n => !db.isReserved n && decide (n.height ≤
    db.confirmedHeight account defaultConfirmations)).map fun n => asU64 n.value

def AssetBases (db : Database H) (account : ℕ) : Prop :=
  ∀ n ∈ db.notes.rows, n.account = account → n.pool = 2 →
    (db.assetBaseOfRow n = zecKey ↔ n.idAsset = none)

/-- Nothing of what is owed is reserved, or has too few confirmations. -/
def AtRest (db : Database H) (account : ℕ) : Prop :=
  ∀ n ∈ owedNotes db account, db.isReserved n = false ∧
    n.height ≤ db.confirmedHeight account defaultConfirmations

instance (account : ℕ) : Decidable (AtRest db account) :=
  inferInstanceAs (Decidable (∀ _ ∈ _, _))

theorem values_of_atRest (h : AtRest db account) :
    freeValues db account = owedValues db account ∧
      confirmedValues db account = owedValues db account := by
  unfold freeValues confirmedValues owedValues
  constructor
  · rw [List.filter_eq_self.2]
    intro n hn
    rw [(h n hn).1]
    rfl
  · rw [List.filter_eq_self.2]
    intro n hn
    rw [(h n hn).1, decide_eq_true (h n hn).2]
    rfl

theorem fetched_values (hassets : AssetBases db account) :
    (((fetchUnspentNotesGroupedByPool db account).filter fun n =>
      n.pool = 2 ∧ n.assetBase = zecKey).map InputNote.amount).Perm (freeValues db account) := by
  have hsorted : (fetchUnspentNotesGroupedByPool db account).Perm (db.fetchUnspentNotes account) :=
    List.mergeSort_perm _ _
  refine ((hsorted.filter _).map _).trans (List.Perm.of_eq ?_)
  unfold Database.fetchUnspentNotes freeValues owedNotes Database.spendableRows
  rw [List.filter_map, List.map_map, List.filter_filter, List.filter_filter]
  have hrows : (db.notes.rows.filter fun n =>
      ((fun x : InputNote => decide (x.pool = 2 ∧ x.assetBase = zecKey)) ∘ db.inputNote) n &&
        decide (n.account = account ∧ db.isSpent n.idNote = false ∧ n.locked = false ∧
          db.isReserved n = false)) =
      db.notes.rows.filter fun n => (!db.isReserved n) && decide (n.account = account ∧
        db.isSpent n.idNote = false ∧ n.pool = 2 ∧ n.idAsset = none ∧ n.locked = false) := by
    refine List.filter_congr fun n hn => ?_
    have hasset := hassets n hn
    have hbase : (db.inputNote n).assetBase = db.assetBaseOfRow n := rfl
    have hpool : (db.inputNote n).pool = n.pool := rfl
    rw [Bool.eq_iff_iff]
    simp only [Function.comp_apply, hbase, hpool, Bool.and_eq_true, decide_eq_true_eq,
      Bool.not_eq_true']
    constructor
    · rintro ⟨⟨hp, hb⟩, ha, hs, hl, hr⟩
      exact ⟨hr, ha, hs, hp, (hasset ha hp).1 hb, hl⟩
    · rintro ⟨hr, ha, hs, hp, hb, hl⟩
      exact ⟨⟨hp, (hasset ha hp).2 hb⟩, ha, hs, hl, hr⟩
  rw [hrows]
  rfl

theorem stepped_values (db : Database H) (account checkpointHeight : ℕ) :
    (fetchUnspentOrchardNotesWithCmx db account checkpointHeight
      (db.confirmedHeight account defaultConfirmations)).map OrchardZecNote.value =
        confirmedValues db account := by
  unfold fetchUnspentOrchardNotesWithCmx confirmedValues owedNotes
  rw [List.map_map, List.filter_filter]
  have hrows : (db.notes.rows.filter fun n => decide (n.account = account ∧
        db.isSpent n.idNote = false ∧ n.height ≤ db.confirmedHeight account defaultConfirmations ∧
          n.pool = 2 ∧ n.idAsset = none ∧ n.locked = false ∧ db.isReserved n = false)) =
      db.notes.rows.filter fun n => (!db.isReserved n && decide (n.height ≤
        db.confirmedHeight account defaultConfirmations)) && decide (n.account = account ∧
          db.isSpent n.idNote = false ∧ n.pool = 2 ∧ n.idAsset = none ∧ n.locked = false) := by
    refine List.filter_congr fun n _ => ?_
    rw [Bool.eq_iff_iff]
    simp only [Bool.and_eq_true, decide_eq_true_eq, Bool.not_eq_true']
    tauto
  rw [hrows]
  rfl

theorem status_phase (hassets : AssetBases db account)
    (h : currentMigrationStatus db account accSplit accMigrate = .ok status) :
    phaseOf (freeValues db account) = .ok status.phase := by
  rw [← phaseOf_perm (fetched_values hassets)]
  unfold currentMigrationStatus at h
  dsimp only at h
  obtain ⟨hasSplit, hsplit, h⟩ := bind_eq_ok.1 h
  obtain ⟨totalFees, -, h⟩ := bind_eq_ok.1 h
  cases h
  unfold phaseOf
  have hother : (((fetchUnspentNotesGroupedByPool db account).filter fun n =>
        n.pool = 2 ∧ n.assetBase = zecKey).map InputNote.amount).filter (fun v => !isSd v) =
      (((fetchUnspentNotesGroupedByPool db account).filter fun n =>
        n.pool = 2 ∧ n.assetBase = zecKey).filter fun n => !isSd n.amount).map InputNote.amount := by
    rw [List.filter_map]
    rfl
  have hsd : ((((fetchUnspentNotesGroupedByPool db account).filter fun n =>
        n.pool = 2 ∧ n.assetBase = zecKey).map InputNote.amount).filter isSd).length =
      (((fetchUnspentNotesGroupedByPool db account).filter fun n =>
        n.pool = 2 ∧ n.assetBase = zecKey).filter fun n => isSd n.amount).length := by
    rw [List.filter_map, List.length_map]
    rfl
  rw [hother, hsplit, hsd]
  rfl

theorem mapError_ok {ε ε' α : Type} {f : ε → ε'} {x : Except ε α} {a : α} :
    x.mapError f = .ok a ↔ x = .ok a := by
  cases x with
  | error e => exact ⟨fun h => (by cases h), fun h => by cases h⟩
  | ok b => exact ⟨fun h => (by cases h; rfl), fun h => by cases h; rfl⟩

theorem step_phase (h : step env db account anchorBucketSize = .ok (event, d)) :
    phaseOf (confirmedValues db account) = .ok event.phase ∧ (event = .complete → d = db) := by
  unfold step at h
  obtain ⟨tip, -, h⟩ := bind_eq_ok.1 h
  obtain ⟨checkpointHeight, -, h⟩ := bind_eq_ok.1 h
  obtain ⟨ownAddress, -, h⟩ := bind_eq_ok.1 h
  obtain ⟨action, haction, h⟩ := bind_eq_ok.1 h
  have hphase := chooseAction_phase env.cmxBytes checkpointHeight anchorBucketSize
    (fetchUnspentOrchardNotesWithCmx db account checkpointHeight
      (db.confirmedHeight account defaultConfirmations))
  rw [orPanic_ok.1 haction, stepped_values] at hphase
  have hdone : event.phase = action.phase ∧ (event = .complete → d = db) := by
    cases action with
    | complete =>
      cases h
      exact ⟨rfl, fun _ => rfl⟩
    | split plan inputs =>
      obtain ⟨⟨d', fee, txid⟩, -, h⟩ := bind_eq_ok.1 h
      cases h
      exact ⟨rfl, nofun⟩
    | misaligned => cases h
    | wait =>
      cases h
      exact ⟨rfl, nofun⟩
    | migrate note =>
      obtain ⟨⟨d', fee, txid⟩, -, h⟩ := bind_eq_ok.1 h
      cases h
      exact ⟨rfl, nofun⟩
  rw [hdone.1]
  exact ⟨hphase.symm, hdone.2⟩

theorem event_complete : event.phase = .complete ↔ event = .complete := by
  cases event <;> simp [MigrationEvent.phase]

/-- The status ends the step or holds it back; else the step looks at the confirmed notes. -/
theorem stepAfter_event {before : MigrationStatus}
    (h : stepAfter env db account before allowMigrate anchorBucketSize = .ok (event, d)) :
    (event = .complete → d = db) ∧
      ((before.phase = .complete ∧ event = .complete) ∨
        (before.phase = .migrating ∧ allowMigrate = false ∧ event = .nothingToDo) ∨
        (before.phase ≠ .complete ∧ ¬ (before.phase = .migrating ∧ allowMigrate = false) ∧
          phaseOf (confirmedValues db account) = .ok event.phase)) := by
  unfold stepAfter at h
  split_ifs at h with hdone hgate
  · cases h
    exact ⟨fun _ => rfl, .inl ⟨hdone, rfl⟩⟩
  · cases h
    exact ⟨nofun, .inr (.inl ⟨hgate.1, hgate.2, rfl⟩)⟩
  · obtain ⟨hphase, hsame⟩ := step_phase (mapError_ok.1 h)
    exact ⟨hsame, .inr (.inr ⟨hdone, hgate, hphase⟩)⟩

theorem doStep_ok : doStep env db account accSplit accMigrate allowMigrate anchorBucketSize =
      .ok (event, status, d) ↔
    ∃ before, currentMigrationStatus db account accSplit accMigrate = .ok before ∧
      stepAfter env db account before allowMigrate anchorBucketSize = .ok (event, d) ∧
      currentMigrationStatus d account accSplit accMigrate = .ok status := by
  unfold doStep
  constructor
  · intro h
    obtain ⟨before, hbefore, h⟩ := bind_eq_ok.1 h
    obtain ⟨⟨event', d'⟩, hevent, h⟩ := bind_eq_ok.1 h
    obtain ⟨after, hafter, h⟩ := bind_eq_ok.1 h
    cases h
    exact ⟨before, orPanic_ok.1 hbefore, hevent, orPanic_ok.1 hafter⟩
  · rintro ⟨before, hbefore, hevent, hafter⟩
    exact bind_eq_ok.2 ⟨before, orPanic_ok.2 hbefore,
      bind_eq_ok.2 ⟨_, hevent, bind_eq_ok.2 ⟨status, orPanic_ok.2 hafter, rfl⟩⟩⟩

structure Answered (db : Database H) (account : ℕ) (allowMigrate : Bool) (before : MigrationStatus)
    (event : MigrationEvent) (d : Database H) : Prop where
  free : phaseOf (freeValues db account) = .ok before.phase
  complete : event = .complete ↔ before.phase = .complete ∨
    ¬ (before.phase = .migrating ∧ allowMigrate = false) ∧
      phaseOf (confirmedValues db account) = .ok .complete
  unchanged : event = .complete → d = db
  atRest : AtRest db account → event.phase = before.phase ∧
    phaseOf (owedValues db account) = .ok before.phase
  moved : AtRest db account → (event = .complete ↔
    (∀ v ∈ owedValues db account, isSd v = false) ∧ splitPlan (owedValues db account) = .ok none)

/-- A step says that a migration is complete when its status said so, or when nothing is to be
    done with the confirmed notes. So while nothing is on its way both speak of all that the
    account has, and it is complete when nothing can be split or sent. -/
theorem migration_answers (hassets : AssetBases db account)
    (h : doStep env db account accSplit accMigrate allowMigrate anchorBucketSize =
      .ok (event, status, d)) :
    ∃ before, currentMigrationStatus db account accSplit accMigrate = .ok before ∧
      Answered db account allowMigrate before event d := by
  obtain ⟨before, hstatus, hevent, -⟩ := doStep_ok.1 h
  obtain ⟨hsame, hcases⟩ := stepAfter_event hevent
  have hfree := status_phase hassets hstatus
  have hcomplete : (event = .complete ↔ before.phase = .complete ∨
      ¬ (before.phase = .migrating ∧ allowMigrate = false) ∧
        phaseOf (confirmedValues db account) = .ok .complete) ∧
      (phaseOf (confirmedValues db account) = .ok before.phase → event.phase = before.phase) := by
    rcases hcases with ⟨hdone, rfl⟩ | ⟨hmigrating, hgate, rfl⟩ | ⟨hdone, hgate, hphase⟩
    · exact ⟨by simp [hdone], fun _ => hdone.symm⟩
    · exact ⟨by simp [hmigrating, hgate], fun _ => hmigrating.symm⟩
    · refine ⟨?_, fun hsteps => ?_⟩
      · rw [hphase, Except.ok.injEq, event_complete]
        tauto
      · rw [hphase, Except.ok.injEq] at hsteps
        exact hsteps
  obtain ⟨hiff, hagree⟩ := hcomplete
  have hrest (hr : AtRest db account) : event.phase = before.phase ∧
      phaseOf (owedValues db account) = .ok before.phase := by
    obtain ⟨howed, hconfirmed⟩ := values_of_atRest hr
    rw [howed] at hfree
    rw [hconfirmed] at hagree
    exact ⟨hagree hfree, hfree⟩
  refine ⟨before, hstatus, hfree, hiff, hsame, hrest, fun hr => ?_⟩
  obtain ⟨hphase, howed⟩ := hrest hr
  rw [← event_complete, hphase, ← phaseOf_complete, howed, Except.ok.injEq]

end Answers

/-! ### A wallet that is through, and one that only seems to be -/

/-- An account with a note of standard denomination, and all that is needed to send it. -/
def migratingWallet : Database ℕ :=
  { (Database.empty : Database ℕ) with
    notes := .singleton ⟨1, 90, 1, 2, some 0, .shielded 5, 1, 120000, some 7, none, none, none, none,
      none, none, none, false⟩
    headers := .singleton ⟨100, [], 0⟩
    syncHeights := .singleton ⟨1, 2, 100⟩ }

def migratingEnv : StepEnv ℕ where
  latestHeight := .ok 100
  ownAddress _ _ := .ok "u1"
  cmxBytes n := [UInt8.ofNat n]
  send db _ := .ok (db, 20000, "txid")

theorem isSd_smallest : isSd 120000 = true := (isSd_iff _).2 ⟨5, by decide, by decide⟩

theorem migratingWallet_assets : AssetBases migratingWallet 1 := by
  intro n hn _ _
  rw [List.mem_singleton.1 hn]
  decide

/-- The note has no witness at the checkpoint yet. -/
theorem migratingWallet_doStep : ∃ status,
    doStep migratingEnv migratingWallet 1 0 0 true 1 = .ok (.nothingToDo, status, migratingWallet) ∧
      currentMigrationStatus migratingWallet 1 0 0 = .ok status ∧ status.phase = .migrating := by
  have hplan : splitPlan [] = .ok none := (phaseOf_complete.1 phaseOf_nil).2
  have hsplit : hasSplitTransaction [] = .ok false := by
    rw [hasSplitTransaction, hplan]
    rfl
  have hfetched : fetchUnspentNotesGroupedByPool migratingWallet 1 =
      [⟨1, 90, 120000, 2, none, zecKey, none⟩] := List.mergeSort_singleton _
  have hstatus : currentMigrationStatus migratingWallet 1 0 0 =
      .ok ⟨.migrating, 0, 0, 0, 1, 0, 0, "SD: 1, non-SD: 0"⟩ := by
    unfold currentMigrationStatus
    rw [hfetched]
    simp [isSd_smallest, hsplit, ok_bind, u64, phaseFor]
    decide
  have hchosen : chooseAction migratingEnv.cmxBytes 100 1
      [⟨1, 90, 120000, some 7, false⟩] = .ok .wait := by
    simp [chooseAction, cappedNonSd, sdNotes, noteToSend, isSd_smallest, hplan, ok_bind]
  have hnotes : fetchUnspentOrchardNotesWithCmx migratingWallet 1 100
      (migratingWallet.confirmedHeight 1 defaultConfirmations) =
        [⟨1, 90, 120000, some 7, false⟩] := rfl
  have hdone : step migratingEnv migratingWallet 1 1 = .ok (.nothingToDo, migratingWallet) := by
    unfold step
    change (orPanic (chooseAction _ 100 1 (fetchUnspentOrchardNotesWithCmx _ _ _ _)) >>= _) = _
    rw [hnotes, hchosen]
    rfl
  refine ⟨_, doStep_ok.2 ⟨_, hstatus, ?_, hstatus⟩, hstatus, rfl⟩
  change (step migratingEnv migratingWallet 1 1).mapError stepError = _
  rw [hdone]
  rfl

theorem migratingWallet_answers :
    ∃ before, currentMigrationStatus migratingWallet 1 0 0 = .ok before ∧
      Answered migratingWallet 1 true before .nothingToDo migratingWallet := by
  obtain ⟨status, hstep, -, -⟩ := migratingWallet_doStep
  exact migration_answers migratingWallet_assets hstep

end ZcashSdk.Migrate
