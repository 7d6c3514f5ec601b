import ZcashSdk.Migrate.Status
import ZcashSdk.Pay.Reserve

set_option autoImplicit false

/-!
# When a migration is called complete

A caller repeats the step until the phase is reported as complete. The status does not count
what a transaction on its way holds, and a step does not count what has too few confirmations
either, so either may say so while there is value left to move.
-/
namespace ZcashSdk.Migrate
open Pay Pay.Solve Db Tables Loops

/-! ### What is left to do -/

section Work
variable {values : List ℕ}

/-- No note of these values can be sent, and they cannot be split. -/
def NothingLeft (values : List ℕ) : Prop :=
  (∀ v ∈ values, isSd v = false) ∧ splitPlan values = .ok none

def Splittable (values : List ℕ) : Prop :=
  hasSplitTransaction (values.filter fun v => !isSd v) = .ok true

theorem phaseOf_splitting : phaseOf values = .ok .splitting ↔ Splittable values := by
  unfold phaseOf Splittable
  cases hasSplitTransaction (values.filter fun v => !isSd v) with
  | error e => exact ⟨nofun, nofun⟩
  | ok hasSplit =>
    cases hasSplit with
    | true => exact ⟨fun _ => rfl, fun _ => rfl⟩
    | false =>
      change Except.ok (phaseFor false (values.filter isSd).length) = _ ↔ _
      unfold phaseFor
      rw [if_neg Bool.false_ne_true]
      constructor
      · intro h
        split at h <;> cases h
      · nofun

theorem phase_eq_iff {p q : Phase} :
    p = q ↔ (p = .complete ↔ q = .complete) ∧ (p = .splitting ↔ q = .splitting) := by
  cases p <;> cases q <;> simp

end Work

/-! ### The condition -/

section Reports
variable {H : Type} [DecidableEq H] {db : Database H} {account : ℕ}

/-- Neither the status nor the step calls the migration complete while something of what the
    account owes can be sent or split, and both tell the same phase. -/
structure Truthful (db : Database H) (account : ℕ) (before : MigrationStatus)
    (event : MigrationEvent) : Prop where
  status : before.phase = .complete → NothingLeft (owedValues db account)
  step : event = .complete → NothingLeft (owedValues db account)
  agree : event.phase = before.phase

/-- The last of the work is not among the notes that a transaction holds. -/
def FreeShows (db : Database H) (account : ℕ) : Prop :=
  NothingLeft (freeValues db account) → NothingLeft (owedValues db account)

/-- Where the status lets a step go on, the confirmed notes leave as much to do as the others. -/
def ConfirmedShows (db : Database H) (account : ℕ) (allowMigrate : Bool) : Prop :=
  ¬ NothingLeft (freeValues db account) →
    ¬ (allowMigrate = false ∧ ¬ Splittable (freeValues db account)) →
      ¬ NothingLeft (confirmedValues db account) ∧
        (Splittable (confirmedValues db account) ↔ Splittable (freeValues db account))

theorem freeShows_of_atRest (h : AtRest db account) : FreeShows db account := by
  unfold FreeShows
  rw [(values_of_atRest h).1]
  exact id

theorem confirmedShows_of_atRest (h : AtRest db account) (allowMigrate : Bool) :
    ConfirmedShows db account allowMigrate := by
  obtain ⟨hfree, hconfirmed⟩ := values_of_atRest h
  unfold ConfirmedShows
  rw [hfree, hconfirmed]
  exact fun hleft _ => ⟨hleft, Iff.rfl⟩

variable {status before : MigrationStatus} {event : MigrationEvent} {env : StepEnv H}
  {accSplit accMigrate anchorBucketSize : ℕ} {allowMigrate : Bool} {d : Database H}

theorem status_complete_iff (hassets : AssetBases db account)
    (h : currentMigrationStatus db account accSplit accMigrate = .ok status) :
    status.phase = .complete ↔ NothingLeft (freeValues db account) := by
  have hphase := status_phase hassets h
  constructor
  · intro hdone
    rw [hdone] at hphase
    exact phaseOf_complete.1 hphase
  · intro hnone
    rw [phaseOf_complete.2 hnone] at hphase
    exact (Except.ok.inj hphase).symm

theorem status_splitting_iff (hassets : AssetBases db account)
    (h : currentMigrationStatus db account accSplit accMigrate = .ok status) :
    status.phase = .splitting ↔ Splittable (freeValues db account) := by
  have hphase := status_phase hassets h
  rw [← phaseOf_splitting, hphase, Except.ok.injEq]

theorem exists_status {p : Phase} (hassets : AssetBases db account)
    (hphase : phaseOf (freeValues db account) = .ok p) :
    ∃ status, currentMigrationStatus db account 0 0 = .ok status ∧ status.phase = p := by
  have hreturns : ∃ status, currentMigrationStatus db account 0 0 = .ok status := by
    rw [← phaseOf_perm (fetched_values hassets)] at hphase
    unfold phaseOf at hphase
    obtain ⟨hasSplit, hsplit, -⟩ := map_eq_ok.1 hphase
    rw [List.filter_map] at hsplit
    change hasSplitTransaction ((((fetchUnspentNotesGroupedByPool db account).filter fun n =>
      n.pool = 2 ∧ n.assetBase = zecKey).filter fun n => !isSd n.amount).map InputNote.amount) =
        .ok hasSplit at hsplit
    unfold currentMigrationStatus
    dsimp only
    rw [hsplit, ok_bind]
    exact ⟨_, rfl⟩
  obtain ⟨status, hstatus⟩ := hreturns
  have hsame := status_phase hassets hstatus
  rw [hphase, Except.ok.injEq] at hsame
  exact ⟨status, hstatus, hsame.symm⟩

theorem agree_iff (hassets : AssetBases db account)
    (hbefore : currentMigrationStatus db account accSplit accMigrate = .ok before)
    (hstep : stepAfter env db account before allowMigrate anchorBucketSize = .ok (event, d)) :
    event.phase = before.phase ↔ ConfirmedShows db account allowMigrate := by
  have hcomplete := status_complete_iff hassets hbefore
  have hsplitting := status_splitting_iff hassets hbefore
  unfold ConfirmedShows
  rw [← hcomplete, ← hsplitting]
  rcases (stepAfter_event hstep).2 with ⟨hdone, rfl⟩ | ⟨hmigrating, hgate, rfl⟩ |
    ⟨hleft, hopen, hphase⟩
  · rw [hdone]
    exact ⟨fun _ h => absurd rfl h, fun _ => rfl⟩
  · rw [hmigrating]
    exact ⟨fun _ _ h => absurd ⟨hgate, nofun⟩ h, fun _ => rfl⟩
  · have hconfirmed : NothingLeft (confirmedValues db account) ↔ event.phase = .complete := by
      change _ ∧ _ ↔ _
      rw [← phaseOf_complete, hphase, Except.ok.injEq]
    have hsplit : Splittable (confirmedValues db account) ↔ event.phase = .splitting := by
      rw [← phaseOf_splitting, hphase, Except.ok.injEq]
    have hgo : ¬ (allowMigrate = false ∧ ¬ before.phase = .splitting) := by
      rintro ⟨hgate, hother⟩
      cases hp : before.phase with
      | complete => exact hleft hp
      | splitting => exact hother hp
      | migrating => exact hopen ⟨hp, hgate⟩
    rw [hconfirmed, hsplit, phase_eq_iff]
    constructor
    · rintro ⟨hdone, hparts⟩ - -
      exact ⟨fun h => hleft (hdone.1 h), hparts⟩
    · intro h
      obtain ⟨hdone, hparts⟩ := h hleft hgo
      exact ⟨⟨fun h => absurd h hdone, fun h => absurd h hleft⟩, hparts⟩

/-- Whatever state the wallet is in: the status does not call a migration complete too early
    exactly when no reservation hides the last of the work, and with a step both tell the truth
    exactly when the confirmed notes leave as much to do as those that are not reserved. -/
theorem completion_told_iff (db : Database H) (account accSplit accMigrate : ℕ)
    (hassets : AssetBases db account) :
    (∀ status, currentMigrationStatus db account accSplit accMigrate = .ok status →
      ((status.phase = .complete → NothingLeft (owedValues db account)) ↔
        FreeShows db account)) ∧
    ∀ env allowMigrate anchorBucketSize event after d,
      doStep env db account accSplit accMigrate allowMigrate anchorBucketSize =
        .ok (event, after, d) →
      ∃ before, currentMigrationStatus db account accSplit accMigrate = .ok before ∧
        (Truthful db account before event ↔
          FreeShows db account ∧ ConfirmedShows db account allowMigrate) := by
  have htold (status : MigrationStatus)
      (h : currentMigrationStatus db account accSplit accMigrate = .ok status) :
      (status.phase = .complete → NothingLeft (owedValues db account)) ↔
        FreeShows db account := by
    rw [status_complete_iff hassets h, FreeShows]
  refine ⟨htold, fun env allowMigrate anchorBucketSize event after d h => ?_⟩
  obtain ⟨before, hbefore, hstep, -⟩ := doStep_ok.1 h
  have hagree := agree_iff hassets hbefore hstep
  refine ⟨before, hbefore, fun ht => ⟨(htold _ hbefore).1 ht.status, hagree.1 ht.agree⟩, ?_⟩
  rintro ⟨hfree, hconfirmed⟩
  have hstatus := (htold _ hbefore).2 hfree
  have hsame := hagree.2 hconfirmed
  refine ⟨hstatus, fun hdone => hstatus ?_, hsame⟩
  rw [← hsame, event_complete]
  exact hdone

end Reports

/-! ### Wallets on the way -/

/-- Nothing is on its way: both tell the truth. -/
theorem migratingWallet_told :
    ∃ event after d before, doStep migratingEnv migratingWallet 1 0 0 true 1 =
        .ok (event, after, d) ∧
      currentMigrationStatus migratingWallet 1 0 0 = .ok before ∧ before.phase = .migrating ∧
      Truthful migratingWallet 1 before event := by
  obtain ⟨status, hstep, hstatus, hphase⟩ := migratingWallet_doStep
  have hrest : AtRest migratingWallet 1 := by decide
  obtain ⟨before, hbefore, htold⟩ :=
    (completion_told_iff migratingWallet 1 0 0 migratingWallet_assets).2 _ _ _ _ _ _ hstep
  have hsame : status = before := Except.ok.inj (hstatus.symm.trans hbefore)
  exact ⟨_, _, _, before, hstep, hbefore, hsame ▸ hphase,
    htold.2 ⟨freeShows_of_atRest hrest, confirmedShows_of_atRest hrest true⟩⟩

/-- A step that is sent holds the notes it spends. -/
def reservingEnv : StepEnv ℕ :=
  { migratingEnv with
    send := fun db _ => do
      let d ← (reserveTransaction (fun _ => .ok ⟨[7], 140, [.shielded 5]⟩) db 1 [] .required).mapError
        PlanError.bail
      .ok (d, 25000, "txid") }

/-- An account with one note that can be split. -/
def splittingWallet : Database ℕ :=
  { migratingWallet with
    notes := .singleton ⟨1, 90, 1, 2, some 0, .shielded 5, 1, 1000000, some 7, none, none, none, none,
      none, none, none, false⟩ }

/-- The note has too few confirmations. -/
def recentWallet : Database ℕ :=
  { migratingWallet with
    notes := .singleton ⟨1, 95, 1, 2, some 0, .shielded 5, 1, 120000, some 7, none, none, none, none,
      none, none, none, false⟩ }

theorem splittingWallet_assets : AssetBases splittingWallet 1 := by
  intro n hn _ _
  rw [List.mem_singleton.1 hn]
  decide

theorem recentWallet_assets : AssetBases recentWallet 1 := by
  intro n hn _ _
  rw [List.mem_singleton.1 hn]
  decide

theorem phaseOf_smallest : phaseOf [120000] = .ok .migrating := by
  have hplan : splitPlan [] = .ok none := (phaseOf_complete.1 phaseOf_nil).2
  have hsd : [120000].filter isSd = [120000] := by
    rw [List.filter_cons_of_pos isSd_smallest, List.filter_nil]
  have hrest : [120000].filter (fun v => !isSd v) = [] := by simp [isSd_smallest]
  unfold phaseOf hasSplitTransaction
  rw [hrest, hplan, hsd]
  rfl

theorem isSd_million : isSd 1000000 = false := by decide +kernel

theorem splitPlan_million :
    splitPlan [1000000] = .ok (some ⟨[(120000, 4)], 520000, 1000000⟩) := by
  have hlargest : largest [1000000] = [1000000] := by
    rw [largest, List.mergeSort_singleton]
    rfl
  unfold splitPlan planSplit splitStart
  rw [hlargest]
  decide +kernel

theorem splittingWallet_step : ∃ d,
    step reservingEnv splittingWallet 1 1 = .ok (.splitComplete 25000 "txid", d) ∧
      AssetBases d 1 ∧ freeValues d 1 = [] ∧ owedValues d 1 = [1000000] := by
  obtain ⟨d, hd, hassets, hfree, howed⟩ : ∃ d, reserveTransaction
      (fun _ => .ok ⟨[7], 140, [.shielded 5]⟩) splittingWallet 1 [] .required = .ok d ∧
        AssetBases d 1 ∧ freeValues d 1 = [] ∧ owedValues d 1 = [1000000] := by
    refine ⟨_, rfl, fun n hn _ _ => ?_, by decide, by decide⟩
    rw [List.mem_singleton.1 hn]
    decide
  have hchosen (notes : List (OrchardZecNote ℕ)) (hvalues : notes.map OrchardZecNote.value =
      [1000000]) : chooseAction reservingEnv.cmxBytes 100 1 notes =
        .ok (.split ⟨[(120000, 4)], 520000, 1000000⟩ (cappedNonSd notes)) := by
    have hnotes : notes ≠ [] := by
      rintro rfl
      cases hvalues
    have hcapped : splitPlan ((cappedNonSd notes).map OrchardZecNote.value) =
        .ok (some ⟨[(120000, 4)], 520000, 1000000⟩) := by
      rw [cappedNonSd_values, splitPlan_congr (largest_idem _), hvalues,
        List.filter_cons_of_pos (by rw [isSd_million]; rfl), List.filter_nil, splitPlan_million]
    unfold chooseAction
    rw [if_neg hnotes, hcapped]
    rfl
  have hsend (sending : Sending) :
      reservingEnv.send splittingWallet sending = .ok (d, 25000, "txid") := by
    unfold reservingEnv
    dsimp only
    rw [hd]
    rfl
  refine ⟨d, ?_, hassets, hfree, howed⟩
  unfold step
  change (orPanic (chooseAction reservingEnv.cmxBytes 100 1
    (fetchUnspentOrchardNotesWithCmx splittingWallet 1 100
      (splittingWallet.confirmedHeight 1 defaultConfirmations))) >>= _) = _
  rw [hchosen _ (by decide), orPanic, ok_bind, perform, hsend]
  rfl

/-- A step that splits the only note is followed by the status that all is done, and so is any
    further step: the note is held by the transaction, which is not mined. With a note that is too
    recent the step says so while the status does not. -/
theorem split_told_complete :
    (∃ after d, doStep reservingEnv splittingWallet 1 0 0 true 1 =
        .ok (.splitComplete 25000 "txid", after, d) ∧ after.phase = .complete ∧
      doStep reservingEnv d 1 0 0 true 1 = .ok (.complete, after, d) ∧
      owedValues d 1 = [1000000] ∧ ¬ NothingLeft (owedValues d 1)) ∧
    ∃ status, currentMigrationStatus recentWallet 1 0 0 = .ok status ∧
      status.phase = .migrating ∧
      doStep reservingEnv recentWallet 1 0 0 true 1 = .ok (.complete, status, recentWallet) ∧
      ¬ NothingLeft (owedValues recentWallet 1) := by
  have hsplit : Splittable [1000000] := by
    unfold Splittable hasSplitTransaction
    rw [List.filter_cons_of_pos (by rw [isSd_million]; rfl), List.filter_nil, splitPlan_million]
    rfl
  have hleft : ¬ NothingLeft [1000000] := by
    rintro ⟨-, hnone⟩
    rw [splitPlan_million] at hnone
    cases hnone
  constructor
  · obtain ⟨d, hstep, hassets, hfree, howed⟩ := splittingWallet_step
    obtain ⟨before, hbefore, hphase⟩ := exists_status splittingWallet_assets
      (phaseOf_splitting.2 hsplit)
    obtain ⟨after, hafter, hdone⟩ := exists_status hassets (by rw [hfree, phaseOf_nil])
    refine ⟨after, d, doStep_ok.2 ⟨before, hbefore, ?_, hafter⟩, hdone,
      doStep_ok.2 ⟨after, hafter, if_pos hdone, hafter⟩, howed, howed ▸ hleft⟩
    unfold stepAfter
    rw [hphase, if_neg (by decide), if_neg (by decide), hstep]
    rfl
  · obtain ⟨status, hstatus, hphase⟩ := exists_status recentWallet_assets
      (show phaseOf [120000] = .ok .migrating from phaseOf_smallest)
    have hstep : step reservingEnv recentWallet 1 1 = .ok (.complete, recentWallet) := rfl
    refine ⟨status, hstatus, hphase, doStep_ok.2 ⟨status, hstatus, ?_, hstatus⟩, ?_⟩
    · unfold stepAfter
      rw [hphase, if_neg (by decide), if_neg (by decide), hstep]
      rfl
    · rintro ⟨hnone, -⟩
      have hsd := hnone 120000 (by decide)
      rw [isSd_smallest] at hsd
      cases hsd

end ZcashSdk.Migrate
