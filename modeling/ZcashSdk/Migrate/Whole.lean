import ZcashSdk.Lib.Runs
import ZcashSdk.Migrate.Status

set_option autoImplicit false

/-!
# A whole migration

Every step of a migration sends one transaction of the account to itself, and takes at least
its fee out of Orchard. When each is mined and the wallet synchronized before the next step,
no step fails on its own account, so the migration ends, with nothing left to split or send.
-/
namespace ZcashSdk.Migrate
open Pay Db Tables Loops Iterate Runs
open Shielded (Bytes)

/-! ### What a step plans -/

def migrationArgs (ironwoodActive : Bool) (s : Sending) : PlanArgs :=
  ⟨s.recipients, false, true, ironwoodActive, none⟩

/-- Orchard only, and of it the notes the step names. -/
def migrationSource (account : ℕ) (s : Sending) : Source :=
  ⟨account, 2 ^ 2, defaultConfirmations, some s.preselected, none⟩

def sendingOutputs (recipients : List Recipient) : List Solve.Output :=
  recipients.map fun r => ⟨(r.pools.bind toBestPool).getD 0, r.amount, 0⟩

section Planning
variable {recipients : List Recipient} {taken : List InputNote} {expired : ℕ → Bool}
  {ownPool : ℕ} {ironwoodActive : Bool} {sel : Solve.Selection} {anchor : Option ℕ}
  {ids : List ℕ}

def Plain (recipients : List Recipient) : Prop :=
  ∀ r ∈ recipients, r.assetBase = [] ∧ (r.pools.bind toBestPool).isSome = true

def decomposedZec (ownPool : ℕ) (recipients : List Recipient) : List DecomposedRecipient :=
  recipients.map fun r => ⟨r.address, ownPool, r.amount, zecKey⟩

theorem decompose_plain (h : Plain recipients) :
    recipients.mapM (decompose fun _ => .ok ownPool) = .ok (decomposedZec ownPool recipients) := by
  refine mapM_ok_of_forall _ _ recipients fun r hr => ?_
  unfold decompose recipientBase
  rw [(h r hr).1]
  rfl

theorem zsaAssetsOf_zec : zsaAssetsOf (decomposedZec ownPool recipients) = [] := by
  refine List.eq_nil_iff_forall_not_mem.2 fun b hb => ?_
  obtain ⟨⟨d, hd, rfl⟩, hne, -⟩ := mem_zsaAssetsOf.1 hb
  obtain ⟨r, -, rfl⟩ := List.mem_map.1 hd
  exact hne rfl

theorem zip_decomposedZec : recipients.zip (decomposedZec ownPool recipients) =
    recipients.map fun r => (r, ⟨r.address, ownPool, r.amount, zecKey⟩) := by
  have hzip := List.zip_map' (f := id) (g := fun r : Recipient =>
    (⟨r.address, ownPool, r.amount, zecKey⟩ : DecomposedRecipient)) (l := recipients)
  rwa [List.map_id] at hzip

theorem request_plain (h : Plain recipients) :
    planRequest (migrationArgs ironwoodActive ⟨recipients, ids, anchor⟩)
      (decomposedZec ownPool recipients) = migrationRequest (sendingOutputs recipients) := by
  have houts : selectOutputs [] ((recipients.zip (decomposedZec ownPool recipients)).map fun p =>
      (poolPref p.1 p.2, p.2)) = sendingOutputs recipients := by
    unfold selectOutputs sendingOutputs
    rw [zip_decomposedZec, List.map_map, List.map_map]
    refine List.map_congr_left fun r hr => ?_
    obtain ⟨pool, hpool⟩ := Option.isSome_iff_exists.1 (h r hr).2
    simp only [Function.comp_apply, poolPref, hpool, Option.getD_some]
    rfl
  unfold planRequest migrationRequest
  rw [zsaAssetsOf_zec]
  dsimp only [migrationArgs]
  rw [houts]
  unfold sendingOutputs
  rw [List.head?_map, Option.map_map]
  rfl

theorem sendingOutputs_zec : ∀ o ∈ sendingOutputs recipients, o.assetIndex = 0 := by
  intro o ho
  obtain ⟨r, -, rfl⟩ := List.mem_map.1 ho
  rfl

abbrev orchardPools (taken : List InputNote) : List (List InputNote) := [[], [], taken, []]

structure Sent (recipients : List Recipient) (taken : List InputNote) (plan : Plan) : Prop where
  states : (plan.states.map fun s => (s.pool, s.amount)) =
    (sendingOutputs recipients).map fun o => (o.pool, o.amount)
  zec : ∀ s ∈ plan.states, s.assetBase = zecKey
  spends : plan.spends.Sublist taken
  value : (plan.spends.map InputNote.amount).sum =
    (plan.states.map RecipientState.amount).sum + (plan.change + plan.fee)
  fee : 10000 ≤ plan.fee
  selected : plan.fee = plan.selection.fee
  changePool : plan.changePool < numPools

theorem orchardPools_total (taken : List InputNote) :
    poolsTotal (orchardPools taken) = (taken.map InputNote.amount).sum := by
  simp [poolsTotal]

theorem orchardPools_only (taken : List InputNote) : OrchardOnly (orchardPools taken) := by
  intro p notes hnotes n hn hne
  rcases p with _ | _ | _ | _ | p
  · cases hnotes
    cases hn
  · cases hnotes
    cases hn
  · rfl
  · cases hnotes
    cases hn
  · cases hnotes

theorem marked_sublist (plan : Plan) (p : ℕ) : (plan.marked p).Sublist (plan.pool p) := by
  have hfst : (plan.pool p).zipIdx.map Prod.fst = plan.pool p := List.zipIdx_map_fst 0 _
  refine List.Sublist.trans (List.filter_sublist.map Prod.fst) ?_
  rw [hfst]

theorem spends_sublist {plan : Plan} (h : plan.inputPools = dropZecDust (orchardPools taken)) :
    plan.spends.Sublist taken := by
  have hother : ∀ p, p ≠ 2 → plan.pool p = [] := by
    intro p hp
    unfold Plan.pool
    rw [h]
    rcases p with _ | _ | _ | _ | p
    · rfl
    · rfl
    · exact absurd rfl hp
    · rfl
    · rfl
  have hnone : ∀ p, p ≠ 2 → plan.spendsFrom p = [] := by
    intro p hp
    have hsub := marked_sublist plan p
    rw [hother p hp, List.sublist_nil] at hsub
    unfold Plan.spendsFrom
    rw [hsub, List.filter_nil]
  have hspends : plan.spends = plan.spendsFrom 2 := by
    have hrange : List.range numPools = [0, 1, 2, 3] := rfl
    unfold Plan.spends
    rw [hrange]
    simp only [List.flatMap_cons, List.flatMap_nil, hnone 0 (by decide), hnone 1 (by decide),
      hnone 3 (by decide), List.nil_append, List.append_nil]
  rw [hspends]
  refine (List.filter_sublist.trans (marked_sublist plan 2)).trans ?_
  unfold Plan.pool
  rw [h]
  exact List.filter_sublist

theorem sumOf_all {α : Type} {key : α → Bytes} {value : α → ℕ} {l : List α}
    (h : ∀ x ∈ l, key x = zecKey) : Sums.sumOf key value l zecKey = (l.map value).sum := by
  unfold Sums.sumOf
  rw [List.filter_eq_self.2 fun x hx => decide_eq_true (h x hx)]

theorem sent_of_ok (hplain : Plain recipients) (hzec : AllZec taken)
    (hin : (taken.map InputNote.amount).sum ≤ maxMoney) {plan : Plan}
    (h : draftTransaction (fun _ => .ok ownPool) (defaultBudget expired)
      (migrationArgs ironwoodActive ⟨recipients, ids, anchor⟩) (orchardPools taken) = .ok plan) :
    Sent recipients taken plan := by
  have hmoney : maxMoney < 2 ^ 62 := by decide
  obtain ⟨decomposed, sel, hdec, -, hsettle⟩ := draftTransaction_ok h
  obtain ⟨hpools, -, changes, hset⟩ := settlePlan_ok hsettle
  obtain ⟨decomposed', hdec', -, hplanned⟩ := planned_of_ok h (orchardPools_only taken)
    (by rw [orchardPools_total]; omega) (show 100000 < 2 ^ 62 by decide)
  have hd : decomposed = decomposedZec ownPool recipients :=
    Except.ok.inj (hdec.symm.trans (decompose_plain hplain))
  rw [hdec', Except.ok.injEq] at hdec
  subst hdec hd
  have hnone : changes = [] := by
    have hreturned := hset.returned
    rw [zsaAssetsOf_zec] at hreturned
    exact (Except.ok.inj hreturned).symm
  have hstates : plan.states = recipients.map fun r =>
      ⟨r.address, r.amount, (r.pools.bind toBestPool).getD ownPool, zecKey⟩ := by
    rw [hset.states]
    unfold fullStates
    rw [hnone, List.append_nil]
    change deductFee false _ ((recipients.zip _).map _) = _
    rw [deductFee_false, zip_decomposedZec, List.map_map]
    rfl
  have hall : plan.valueOut zecKey = (plan.states.map RecipientState.amount).sum := by
    refine sumOf_all fun s hs => ?_
    rw [hstates] at hs
    obtain ⟨r, -, rfl⟩ := List.mem_map.1 hs
    rfl
  have hspends : plan.spends.Sublist taken := spends_sublist hpools
  have hspent : plan.valueIn zecKey = (plan.spends.map InputNote.amount).sum :=
    sumOf_all fun n hn => hzec n (hspends.subset hn)
  have hvalue := (hplanned.conserves_iff rfl).2 (fun hbad => Bool.false_ne_true hbad.1) zecKey
  rw [if_pos rfl, hspent, hall] at hvalue
  have hchangePool : plan.changePool < numPools := by
    rw [settlePlan_changePool hsettle]
    split
    · decide
    · exact hplanned.selected.changePool
  refine ⟨?_, ?_, hspends, hvalue, ?_, hset.fee, hchangePool⟩
  · rw [hstates]
    unfold sendingOutputs
    rw [List.map_map, List.map_map]
    refine List.map_congr_left fun r hr => ?_
    obtain ⟨pool, hpool⟩ := Option.isSome_iff_exists.1 (hplain r hr).2
    simp only [Function.comp_apply, hpool, Option.getD_some]
  · intro s hs
    rw [hstates] at hs
    obtain ⟨r, -, rfl⟩ := List.mem_map.1 hs
    rfl
  · have hfee := hset.fee
    have hpos := hplanned.fee_pos
    omega

theorem hasZsa_plain : hasZsa (migrationArgs ironwoodActive ⟨recipients, ids, anchor⟩)
    (decomposedZec ownPool recipients) = false := by
  unfold hasZsa decomposedZec
  rw [List.any_map, Bool.or_eq_false_iff]
  exact ⟨List.any_eq_false.2 fun r _ => by simp, rfl⟩

theorem poolSum_ok {xs : List ℕ} (h : xs.sum < 2 ^ 64) : Pay.sumU64 xs = .ok xs.sum := sumU64_ok h

theorem draftTransaction_of {receiver : String → Except String ℕ} {budget : Solve.Budget}
    {args : PlanArgs} {inputPools : List (List InputNote)} {decomposed : List DecomposedRecipient}
    {plan : Plan} (hdec : args.recipients.mapM (decompose receiver) = .ok decomposed)
    (hzsa : hasZsa args decomposed = false)
    (hsel : selectFor budget args inputPools decomposed = .ok (some sel))
    (hsettle : settlePlan args (dropZecDust inputPools) decomposed (zsaAssetsOf decomposed) sel =
      .ok plan) : draftTransaction receiver budget args inputPools = .ok plan := by
  unfold selectFor at hsel
  unfold draftTransaction
  rw [hdec, ok_bind, hzsa]
  change (orPanic (Solve.selectNotes _ (planRequest args decomposed).outputs _ _ _
    (planRequest args decomposed).firstRecipientAmount _) >>= _) = _
  rw [hsel]
  change orPanic (settlePlan _ _ _ _ _) = _
  rw [hsettle]
  rfl

theorem planned_of_selected (hplain : Plain recipients)
    (hin : (taken.map InputNote.amount).sum ≤ maxMoney)
    (hout : ((sendingOutputs recipients).map Solve.Output.amount).sum < 2 ^ 62)
    (hsel : selectMigration expired taken (sendingOutputs recipients) = .ok (some sel)) :
    ∃ plan, draftTransaction (fun _ => .ok ownPool) (defaultBudget expired)
      (migrationArgs ironwoodActive ⟨recipients, ids, anchor⟩) (orchardPools taken) = .ok plan ∧
        plan.selection = sel := by
  have hmoney : maxMoney < 2 ^ 62 := by decide
  have hselected : Solve.Selected (migrationRequest (sendingOutputs recipients))
      (selectNotesInput [] (dropZecDust (orchardPools taken))) sel := by
    obtain ⟨found, hfound, hans⟩ := @selectMigration_answers taken expired
      (sendingOutputs recipients) hin hout sendingOutputs_zec
    rw [hsel, Except.ok.injEq] at hfound
    subst hfound
    exact hans.1
  have hinput : (sel.inputs.map Solve.Note.amount).sum ≤ maxMoney := by
    obtain ⟨l, hperm, hsub⟩ := hselected.once
    have hle := (((hsub.trans List.filter_sublist).map Solve.Note.amount).sum_le_sum
      fun _ _ => Nat.zero_le _)
    rw [← (hperm.map Solve.Note.amount).sum_eq]
    exact hle.trans ((poolNotes_sum_le taken).trans hin)
  have hfee : sel.fee ≤ maxMoney := by
    have hneeded := hselected.pays.zec
    have hvalue : Solve.Request.valueIn sel.inputs 0 ≤ (sel.inputs.map Solve.Note.amount).sum :=
      (List.filter_sublist.map Solve.Note.amount).sum_le_sum fun _ _ => Nat.zero_le _
    rw [needed_migration, ← hselected.fee] at hneeded
    omega
  have hstates : ((recipients.zip (decomposedZec ownPool recipients)).map fun p =>
      (⟨p.2.address, p.2.amount, poolPref p.1 p.2, p.2.assetBase⟩ : RecipientState)).map
        RecipientState.amount = (sendingOutputs recipients).map Solve.Output.amount := by
    unfold sendingOutputs
    rw [zip_decomposedZec, List.map_map, List.map_map, List.map_map]
    rfl
  have hselect : selectFor (defaultBudget expired)
      (migrationArgs ironwoodActive ⟨recipients, ids, anchor⟩) (orchardPools taken)
        (decomposedZec ownPool recipients) = .ok (some sel) := by
    unfold selectFor
    rw [request_plain hplain, zsaAssetsOf_zec]
    exact hsel
  have hsettle : ∃ plan, settlePlan (migrationArgs ironwoodActive ⟨recipients, ids, anchor⟩)
      (dropZecDust (orchardPools taken)) (decomposedZec ownPool recipients)
        (zsaAssetsOf (decomposedZec ownPool recipients)) sel = .ok plan ∧ plan.selection = sel := by
    unfold settlePlan
    rw [zsaAssetsOf_zec]
    dsimp only [migrationArgs, issuanceFee]
    have hchanges : zsaChanges (dropZecDust (orchardPools taken)) (sel.perPoolIndices 2)
        (decomposedZec ownPool recipients) [] = .ok [] := rfl
    rw [hchanges, ok_bind, Solve.u64_ok (by omega), ok_bind, deductFee_false, List.append_nil, hstates,
      poolSum_ok (by omega), ok_bind, poolSum_ok (by omega), ok_bind, Solve.u64_ok (by omega), ok_bind]
    exact ⟨_, rfl, rfl⟩
  obtain ⟨plan, hplan, hselection⟩ := hsettle
  exact ⟨plan, draftTransaction_of (decompose_plain hplain) hasZsa_plain hselect hplan, hselection⟩

end Planning

/-! ### The notes a step takes -/

section Gathered
variable {H : Type} [DecidableEq H] {db : Database H} {account anchorBucketSize : ℕ} {s : Sending}

/-- The ZEC of an account, in whatever pool: unspent and not locked. -/
def heldNotes (db : Database H) (account : ℕ) : List (NoteRow H) :=
  db.notes.rows.filter fun n => n.account = account ∧ db.isSpent n.idNote = false ∧
    n.idAsset = none ∧ n.locked = false

/-- Synchronized at an anchor boundary since its last transaction was mined, with a witness there
    for every note that is to be moved. -/
structure Synced (db : Database H) (account anchorBucketSize : ℕ) : Prop where
  atRest : AtRest db account
  assets : AssetBases db account
  pools : ∀ n ∈ db.notes.rows, n.account = account → n.pool < numPools
  checkpoint : ∃ h, getDbHeight db account = .ok h ∧ h % anchorBucketSize = 0 ∧
    ∀ n ∈ owedNotes db account, (orchardZecNote db h n).hasCheckpoint = true

structure Ready (db : Database H) (account anchorBucketSize : ℕ) : Prop
    extends Synced db account anchorBucketSize where
  money : ((heldNotes db account).map fun n => asU64 n.value).sum ≤ maxMoney

theorem getDbHeight_ok {h : ℕ} (hheight : getDbHeight db account = .ok h) :
    h = db.scannedHeight account := by
  unfold getDbHeight at hheight
  split at hheight
  · rename_i b hb
    cases hheight
    obtain ⟨seam, hseam, hfind⟩ := Option.bind_eq_some_iff.1 hb
    have heq := List.find?_some hfind
    rw [decide_eq_true_eq] at heq
    unfold Database.scannedHeight
    rw [hseam, Option.getD_some]
    exact heq
  · cases hheight

theorem owedNotes_eq (db : Database H) (account : ℕ) :
    owedNotes db account = (heldNotes db account).filter fun n => n.pool = 2 := by
  unfold owedNotes heldNotes
  rw [List.filter_filter]
  refine List.filter_congr fun n _ => ?_
  rw [Bool.eq_iff_iff]
  simp only [Bool.and_eq_true, decide_eq_true_eq]
  tauto

theorem owed_le_held (db : Database H) (account : ℕ) :
    (owedValues db account).sum ≤ ((heldNotes db account).map fun n => asU64 n.value).sum := by
  unfold owedValues
  rw [owedNotes_eq]
  exact (List.filter_sublist.map _).sum_le_sum fun _ _ => Nat.zero_le _

def takenNotes (db : Database H) (account : ℕ) (ids : List ℕ) : List InputNote :=
  ((owedNotes db account).filter fun n => n.idNote ∈ ids).map db.inputNote

/-- Of all the notes of the account the planner gets those that the step named. -/
theorem gathered (hready : Ready db account anchorBucketSize)
    (hids : ∀ i ∈ s.preselected, ∃ n ∈ owedNotes db account, n.idNote = i) (args : PlanArgs) :
    gather db (migrationSource account s) args =
      .ok (orchardPools (takenNotes db account s.preselected), args) := by
  have hfetch : db.fetchUnspentNotesByPool account = .ok ((List.range numPools).map fun p =>
      (db.fetchUnspentNotes account).filter fun n => n.pool = p) := by
    unfold Database.fetchUnspentNotesByPool
    have hnone : ((db.fetchUnspentNotes account).find? fun n => numPools ≤ n.pool) = none := by
      rw [List.find?_eq_none]
      intro x hx
      obtain ⟨n, hn, rfl⟩ := List.mem_map.1 hx
      obtain ⟨hmem, hprops⟩ := List.mem_filter.1 hn
      rw [decide_eq_true_eq] at hprops ⊢
      exact not_le_of_gt (hready.pools n hmem hprops.1)
    rw [hnone]
  have htaken : (((db.fetchUnspentNotes account).filter fun n => n.pool = 2).filter fun n =>
      n.height ≤ db.confirmedHeight account defaultConfirmations).filter
        (fun n => n.id ∈ s.preselected) = takenNotes db account s.preselected := by
    unfold Database.fetchUnspentNotes Database.spendableRows takenNotes owedNotes
    rw [List.filter_filter, List.filter_filter, List.filter_map, List.filter_filter,
      List.filter_filter]
    congr 1
    refine List.filter_congr fun n hn => ?_
    rw [Bool.eq_iff_iff]
    simp only [Function.comp_apply, Bool.and_eq_true, decide_eq_true_eq]
    change ((n.idNote ∈ s.preselected ∧ n.height ≤ _) ∧ n.pool = 2) ∧ _ ↔ _
    constructor
    · rintro ⟨⟨⟨hmem, -⟩, -⟩, -⟩
      obtain ⟨m, hm, hid⟩ := hids _ hmem
      obtain ⟨hrow, hprops⟩ := List.mem_filter.1 hm
      have heq : m = n := db.notes.eq_of_clash hrow hn (Or.inl hid)
      rw [decide_eq_true_eq, heq] at hprops
      exact ⟨hmem, hprops⟩
    · rintro ⟨hmem, hprops⟩
      have howed : n ∈ owedNotes db account := List.mem_filter.2 ⟨hn, decide_eq_true hprops⟩
      obtain ⟨hreserved, hheight⟩ := hready.atRest n howed
      exact ⟨⟨⟨hmem, hheight⟩, hprops.2.2.1⟩, hprops.1, hprops.2.1, hprops.2.2.2.2, hreserved⟩
  unfold gather
  dsimp only [migrationSource]
  rw [hfetch]
  dsimp only
  congr 2
  rw [← htaken]
  have hrange : List.range numPools = [0, 1, 2, 3] := rfl
  have hmask : hasPool (2 ^ 2) 0 = false ∧ hasPool (2 ^ 2) 1 = false ∧
    hasPool (2 ^ 2) 2 = true ∧ hasPool (2 ^ 2) 3 = false := by decide
  obtain ⟨hzero, hone, htwo, hthree⟩ := hmask
  unfold preselect restrictToSourcePools
  simp only [hrange, List.map_cons, List.map_nil, List.zipIdx_cons, List.zipIdx_nil, Nat.zero_add,
    Nat.reduceAdd, hzero, hone, htwo, hthree, if_true, Bool.false_eq_true, if_false,
    List.filter_nil]

theorem fetched_ready (hready : Ready db account anchorBucketSize) (h : ℕ) :
    fetchUnspentOrchardNotesWithCmx db account h
      (db.confirmedHeight account defaultConfirmations) =
        (owedNotes db account).map (orchardZecNote db h) := by
  unfold fetchUnspentOrchardNotesWithCmx owedNotes
  congr 1
  refine List.filter_congr fun n hn => ?_
  rw [Bool.eq_iff_iff]
  simp only [decide_eq_true_eq]
  constructor
  · rintro ⟨ha, hs, -, hp, hz, hl, -⟩
    exact ⟨ha, hs, hp, hz, hl⟩
  · rintro ⟨ha, hs, hp, hz, hl⟩
    have howed : n ∈ owedNotes db account :=
      List.mem_filter.2 ⟨hn, decide_eq_true ⟨ha, hs, hp, hz, hl⟩⟩
    obtain ⟨hreserved, hheight⟩ := hready.atRest n howed
    exact ⟨ha, hs, hheight, hp, hz, hl, hreserved⟩

theorem filter_ids_perm {α : Type} (id : α → ℕ) {l xs : List α} (hnodup : (l.map id).Nodup)
    (h : xs.Subperm l) : (l.filter fun a => id a ∈ xs.map id).Perm xs := by
  have hl : l.Nodup := List.Nodup.of_map id hnodup
  have hxs : xs.Nodup := by
    obtain ⟨ys, hperm, hsub⟩ := h
    exact hperm.nodup_iff.1 (hl.sublist hsub)
  refine (List.perm_ext_iff_of_nodup (hl.filter _) hxs).2 fun a => ?_
  rw [List.mem_filter, decide_eq_true_eq, List.mem_map]
  constructor
  · rintro ⟨ha, b, hb, hid⟩
    rwa [← List.inj_on_of_nodup_map hnodup (h.subset hb) ha hid]
  · intro ha
    exact ⟨h.subset ha, a, ha, rfl⟩

theorem rows_ids_nodup (db : Database H) : (db.notes.rows.map NoteRow.idNote).Nodup := by
  rw [List.Nodup, List.pairwise_map]
  exact db.notes.apart.imp fun hapart heq => hapart (Or.inl heq)

theorem takenNotes_perm {h : ℕ} {inputs : List (OrchardZecNote H)}
    (hinputs : inputs.Subperm ((owedNotes db account).map (orchardZecNote db h))) :
    ((takenNotes db account (inputs.map OrchardZecNote.id)).map InputNote.amount).Perm
      (inputs.map OrchardZecNote.value) := by
  have hids : (((owedNotes db account).map (orchardZecNote db h)).map OrchardZecNote.id).Nodup := by
    rw [List.map_map]
    exact (rows_ids_nodup db).sublist (List.filter_sublist.map _)
  refine List.Perm.trans (List.Perm.of_eq ?_)
    ((filter_ids_perm OrchardZecNote.id hids hinputs).map OrchardZecNote.value)
  unfold takenNotes
  rw [List.filter_map, List.map_map, List.map_map]
  rfl

theorem takenNotes_zec (hready : Ready db account anchorBucketSize) (ids : List ℕ) :
    AllZec (takenNotes db account ids) := by
  intro x hx
  obtain ⟨n, hn, rfl⟩ := List.mem_map.1 hx
  obtain ⟨hrow, hprops⟩ := List.mem_filter.1 (List.mem_of_mem_filter hn)
  rw [decide_eq_true_eq] at hprops
  have hbase : db.assetBaseOfRow n = zecKey :=
    (hready.assets n hrow hprops.1 hprops.2.2.1).2 hprops.2.2.2.1
  change asAsset (db.assetBaseOfRow n) = zecKey
  rw [hbase]
  rfl

theorem takenNotes_le (hready : Ready db account anchorBucketSize) (ids : List ℕ) :
    ((takenNotes db account ids).map InputNote.amount).sum ≤ maxMoney := by
  refine le_trans ?_ ((owed_le_held db account).trans hready.money)
  unfold takenNotes owedValues
  rw [List.map_map]
  exact (List.filter_sublist.map _).sum_le_sum fun _ _ => Nat.zero_le _

end Gathered

/-! ### A step of a wallet that is ready -/

/-- What a migration runs with: the tip, the account's own address and the pool that receives there,
    the bytes of a commitment and the clock of the solver. Landing builds what is planned, works out
    its fee, signs and sends it, and waits until it is mined and the wallet synchronized. -/
structure Setting (H : Type) [DecidableEq H] where
  tip : ℕ
  ownAddress : String
  ownPool : ℕ
  cmxBytes : H → Bytes
  ironwoodActive : Bool
  expired : Database H → ℕ → Bool
  land : Database H → Plan → Except PlanError (Database H × ℕ × String)

section Ready
variable {H : Type} [DecidableEq H] {db : Database H} {account anchorBucketSize : ℕ}
  (setting : Setting H)

def Setting.plan (db : Database H) (account : ℕ) (s : Sending) : Except PlanError Plan :=
  draftAccount (fun _ => .ok setting.ownPool) (defaultBudget (setting.expired db)) db
    (migrationSource account s) (migrationArgs setting.ironwoodActive s)

def Setting.env (account : ℕ) : StepEnv H where
  latestHeight := .ok setting.tip
  ownAddress _ _ := .ok setting.ownAddress
  cmxBytes := setting.cmxBytes
  send db s := do
    let plan ← setting.plan db account s
    setting.land db plan

structure Sends (db : Database H) (account : ℕ) (s : Sending) (plan : Plan) : Prop where
  planned : setting.plan db account s = .ok plan
  sent : Sent s.recipients (takenNotes db account s.preselected) plan

theorem sends_of_selected (hready : Ready db account anchorBucketSize) {s : Sending}
    (hids : ∀ i ∈ s.preselected, ∃ n ∈ owedNotes db account, n.idNote = i)
    (hplain : Plain s.recipients)
    (hout : ((sendingOutputs s.recipients).map Solve.Output.amount).sum < 2 ^ 62)
    {sel : Solve.Selection} (hsel : selectMigration (setting.expired db)
      (takenNotes db account s.preselected) (sendingOutputs s.recipients) = .ok (some sel)) :
    ∃ plan, Sends setting db account s plan ∧ plan.fee = sel.fee := by
  have hle := takenNotes_le hready s.preselected
  obtain ⟨plan, hplan, hselection⟩ := @planned_of_selected s.recipients _ (setting.expired db)
    setting.ownPool setting.ironwoodActive sel s.anchorHeight s.preselected hplain hle hout hsel
  have hsent := sent_of_ok hplain (takenNotes_zec hready s.preselected) hle hplan
  refine ⟨plan, ⟨?_, hsent⟩, by rw [hsent.selected, hselection]⟩
  unfold Setting.plan draftAccount
  rw [gathered hready hids, ok_bind]
  exact hplan

theorem splitPlan_ok {values : List ℕ} (h : values.sum ≤ maxMoney) :
    ∃ plan, splitPlan values = .ok plan ∧ ∀ p, plan = some p → p.Sound (largest values) := by
  obtain ⟨plan, bound, hrun, hsound⟩ := planSplit_ends h
  have hfar := hrun (bound + splitFuel) (Nat.le_add_right bound splitFuel)
  rw [planSplit_eq values (Nat.le_add_left splitFuel bound), Option.some.injEq] at hfar
  exact ⟨plan, hfar, hsound⟩

theorem splitRecipients_plain (address : String) (digits : List (ℕ × ℕ)) :
    Plain (splitRecipients address digits) := by
  intro r hr
  obtain ⟨p, -, hp⟩ := List.mem_flatMap.1 hr
  rw [List.eq_of_mem_replicate hp]
  exact ⟨rfl, show (toBestPool (2 ^ 2)).isSome = true by decide⟩

theorem splitRecipients_outputs (address : String) (digits : List (ℕ × ℕ)) :
    sendingOutputs (splitRecipients address digits) = splitOutputs digits := by
  unfold sendingOutputs splitRecipients splitOutputs
  rw [List.map_flatMap]
  refine congrArg digits.flatMap (funext fun p => ?_)
  rw [List.map_replicate]
  rfl

theorem split_sends (hready : Ready db account anchorBucketSize) {h : ℕ}
    {inputs : List (OrchardZecNote H)}
    (hinputs : inputs.Subperm ((owedNotes db account).map (orchardZecNote db h)))
    {digits : SplitPlan} (hdigits : splitPlan (inputs.map OrchardZecNote.value) = .ok (some digits)) :
    ∃ plan, Sends setting db account ⟨splitRecipients setting.ownAddress digits.digits,
      inputs.map OrchardZecNote.id, none⟩ plan := by
  have hle := takenNotes_le hready (inputs.map OrchardZecNote.id)
  have hperm := takenNotes_perm hinputs
  rw [← splitPlan_congr (largest_perm hperm)] at hdigits
  obtain ⟨plan, hplan, hsound⟩ := splitPlan_ok hle
  rw [hdigits, Except.ok.injEq] at hplan
  have hworth := (hsound digits hplan.symm).value
  have htotal := (hsound digits hplan.symm).total
  have htaken := (largest_takes
    ((takenNotes db account (inputs.map OrchardZecNote.id)).map InputNote.amount)).sum_le
  have hmoney : maxMoney < 2 ^ 62 := by decide
  have hsplit := planSplit_eq
    ((takenNotes db account (inputs.map OrchardZecNote.id)).map InputNote.amount) (le_refl splitFuel)
  rw [hdigits] at hsplit
  obtain ⟨sel, hsel⟩ := @split_accepted _ (setting.expired db)
    (takenNotes_zec hready _) hle splitFuel digits hsplit
  rw [← splitRecipients_outputs setting.ownAddress] at hsel
  have hids : ∀ i ∈ inputs.map OrchardZecNote.id, ∃ n ∈ owedNotes db account, n.idNote = i := by
    intro i hi
    obtain ⟨x, hx, rfl⟩ := List.mem_map.1 hi
    obtain ⟨n, hn, rfl⟩ := List.mem_map.1 (hinputs.subset hx)
    exact ⟨n, hn, rfl⟩
  obtain ⟨p, hp, -⟩ := sends_of_selected setting
    (s := ⟨splitRecipients setting.ownAddress digits.digits, inputs.map OrchardZecNote.id, none⟩)
    hready hids (splitRecipients_plain _ _)
    (by rw [splitRecipients_outputs, splitOutputs_value]; omega) hsel
  exact ⟨p, hp⟩

theorem note_sends (hready : Ready db account anchorBucketSize) {h : ℕ} {note : OrchardZecNote H}
    (hnote : note ∈ (owedNotes db account).map (orchardZecNote db h)) (hsd : isSd note.value = true)
    (anchor : Option ℕ) :
    ∃ plan, Sends setting db account
      ⟨[recipient setting.ownAddress (note.value - sdFeePad) 3], [note.id], anchor⟩ plan ∧
        plan.fee = sdFeePad := by
  have hle := takenNotes_le hready [note.id]
  have hsub : [note].Subperm ((owedNotes db account).map (orchardZecNote db h)) :=
    List.singleton_subperm_iff.2 hnote
  have hperm := takenNotes_perm hsub
  rw [List.map_singleton, List.map_singleton, List.perm_singleton] at hperm
  obtain ⟨n, hn, hamount⟩ := List.map_eq_singleton_iff.1 hperm
  have hzec := takenNotes_zec hready [note.id]
  rw [hn] at hzec hle
  rw [List.map_singleton, List.sum_singleton] at hle
  rw [← hamount] at hsd
  obtain ⟨sel, hsel, -, hfee, -⟩ := @send_accepted (setting.expired db) n
    (hzec n (List.mem_singleton_self n)) hle hsd
  have houts : sendingOutputs [recipient setting.ownAddress (note.value - sdFeePad) 3] =
      [sendOutput n] := by
    unfold sendOutput
    rw [hamount]
    rfl
  have hmoney : maxMoney < 2 ^ 62 := by decide
  have hids : ∀ i ∈ [note.id], ∃ n ∈ owedNotes db account, n.idNote = i := by
    intro i hi
    obtain ⟨m, hm, rfl⟩ := List.mem_map.1 hnote
    exact ⟨m, hm, (List.mem_singleton.1 hi).symm⟩
  have hplain : Plain [recipient setting.ownAddress (note.value - sdFeePad) 3] := by
    intro r hr
    rw [List.mem_singleton.1 hr]
    exact ⟨rfl, show (toBestPool (2 ^ 3)).isSome = true by decide⟩
  have hout : ((sendingOutputs [recipient setting.ownAddress (note.value - sdFeePad) 3]).map
      Solve.Output.amount).sum < 2 ^ 62 := by
    rw [houts, List.map_singleton, List.sum_singleton]
    unfold sendOutput
    dsimp only
    omega
  obtain ⟨p, hp, hpaid⟩ := sends_of_selected setting
    (s := ⟨[recipient setting.ownAddress (note.value - sdFeePad) 3], [note.id], anchor⟩)
    hready hids hplain hout (by rw [hn, houts]; exact hsel)
  exact ⟨p, hp, hpaid.trans hfee⟩

omit [DecidableEq H] in
theorem cappedNonSd_subperm (notes : List (OrchardZecNote H)) : (cappedNonSd notes).Subperm notes := by
  unfold cappedNonSd
  exact ((List.take_sublist _ _).subperm.trans (List.mergeSort_perm _ _).subperm).trans
    List.filter_sublist.subperm

omit [DecidableEq H] in
theorem noteToSend_some (cmxBytes : H → Bytes) {checkpointHeight : ℕ}
    {notes : List (OrchardZecNote H)} (hsd : sdNotes notes ≠ [])
    (hwitness : ∀ n ∈ notes, n.height ≤ checkpointHeight ∧ n.hasCheckpoint = true) :
    ∃ note, noteToSend cmxBytes checkpointHeight notes = some note ∧ note ∈ notes ∧
      isSd note.value = true := by
  have hall : ((sdNotes notes).filter fun n => n.height ≤ checkpointHeight ∧ n.hasCheckpoint = true) =
      sdNotes notes := List.filter_eq_self.2 fun n hn =>
    decide_eq_true (hwitness n (List.mem_of_mem_filter hn))
  unfold noteToSend
  rw [hall]
  cases hlast : ((sdNotes notes).mergeSort fun a b =>
      decide (commitmentOf cmxBytes a ≤ commitmentOf cmxBytes b)).getLast? with
  | none =>
    rw [List.getLast?_eq_none_iff] at hlast
    exact absurd (List.perm_nil.1 (hlast ▸ (List.mergeSort_perm _ _).symm)) hsd
  | some note =>
    have hmem : note ∈ sdNotes notes :=
      (List.mergeSort_perm _ _).subset (List.mem_of_getLast? hlast)
    exact ⟨note, rfl, (List.mem_filter.1 hmem).1, (List.mem_filter.1 hmem).2⟩

omit [DecidableEq H] in
/-- With a witness for every note at a boundary, a step splits, sends or is complete. -/
theorem chooseAction_cases (cmxBytes : H → Bytes) {checkpointHeight : ℕ}
    {notes : List (OrchardZecNote H)} (hsum : (notes.map OrchardZecNote.value).sum ≤ maxMoney)
    (hbucket : checkpointHeight % anchorBucketSize = 0)
    (hwitness : ∀ n ∈ notes, n.height ≤ checkpointHeight ∧ n.hasCheckpoint = true) :
    chooseAction cmxBytes checkpointHeight anchorBucketSize notes = .ok .complete ∨
    (∃ plan, chooseAction cmxBytes checkpointHeight anchorBucketSize notes =
        .ok (.split plan (cappedNonSd notes)) ∧
      splitPlan ((cappedNonSd notes).map OrchardZecNote.value) = .ok (some plan)) ∨
    ∃ note ∈ notes, isSd note.value = true ∧
      chooseAction cmxBytes checkpointHeight anchorBucketSize notes = .ok (.migrate note) := by
  unfold chooseAction
  by_cases hnil : notes = []
  · rw [if_pos hnil]
    exact .inl rfl
  · rw [if_neg hnil]
    have hle : ((cappedNonSd notes).map OrchardZecNote.value).sum ≤ maxMoney := by
      obtain ⟨l, hperm, hsub⟩ := cappedNonSd_subperm notes
      rw [← (hperm.map OrchardZecNote.value).sum_eq]
      exact ((hsub.map _).sum_le_sum fun _ _ => Nat.zero_le _).trans hsum
    obtain ⟨plan, hplan, -⟩ := splitPlan_ok hle
    rw [hplan, ok_bind]
    cases plan with
    | some plan => exact .inr (.inl ⟨plan, rfl, rfl⟩)
    | none =>
      dsimp only
      by_cases hsd : sdNotes notes = []
      · rw [if_pos hsd]
        exact .inl rfl
      · obtain ⟨note, hnote, hmem, hvalue⟩ := noteToSend_some cmxBytes hsd hwitness
        rw [if_neg hsd, if_neg (not_not_intro hbucket), hnote]
        exact .inr (.inr ⟨note, hmem, hvalue, rfl⟩)

def Reports (plan : Plan) (event : ℕ → String → MigrationEvent) : Prop :=
  event = .splitComplete ∨ event = .migrateComplete ∧ plan.fee = sdFeePad

def Done (db : Database H) (account : ℕ) : Prop :=
  (∀ v ∈ owedValues db account, isSd v = false) ∧ splitPlan (owedValues db account) = .ok none

/-- A step is complete, or sends what is planned for it, and only landing that can fail. -/
def Proceeds (setting : Setting H) (db : Database H) (account anchorBucketSize : ℕ) : Prop :=
  step (setting.env account) db account anchorBucketSize = .ok (.complete, db) ∧ Done db account ∨
  ∃ s plan event, Sends setting db account s plan ∧ Reports plan event ∧
    step (setting.env account) db account anchorBucketSize =
      (setting.land db plan).map fun landed => (event landed.2.1 landed.2.2, landed.1)

theorem step_ready (hready : Ready db account anchorBucketSize) :
    Proceeds setting db account anchorBucketSize := by
  obtain ⟨h, hheight, hbucket, hwitness⟩ := hready.checkpoint
  have hfetched := fetched_ready hready h
  have hsum : (((owedNotes db account).map (orchardZecNote db h)).map OrchardZecNote.value).sum ≤
      maxMoney := by
    rw [List.map_map]
    exact (owed_le_held db account).trans hready.money
  have hnotes : ∀ n ∈ (owedNotes db account).map (orchardZecNote db h),
      n.height ≤ h ∧ n.hasCheckpoint = true := by
    intro n hn
    obtain ⟨m, hm, rfl⟩ := List.mem_map.1 hn
    refine ⟨?_, hwitness m hm⟩
    rw [getDbHeight_ok hheight]
    exact (hready.atRest m hm).2.trans (Nat.sub_le _ _)
  have hstep (action : Action H) (haction : chooseAction setting.cmxBytes h anchorBucketSize
      ((owedNotes db account).map (orchardZecNote db h)) = .ok action) :
      step (setting.env account) db account anchorBucketSize =
        perform (setting.env account) db setting.ownAddress h anchorBucketSize action := by
    unfold step
    rw [hheight]
    change (orPanic (chooseAction setting.cmxBytes h anchorBucketSize
      (fetchUnspentOrchardNotesWithCmx db account h _)) >>= _) = _
    rw [hfetched, haction]
    rfl
  have hvalues : ((owedNotes db account).map (orchardZecNote db h)).map OrchardZecNote.value =
      owedValues db account := by
    rw [List.map_map]
    rfl
  rcases chooseAction_cases setting.cmxBytes hsum hbucket hnotes with
    hcomplete | ⟨digits, hsplit, hdigits⟩ | ⟨note, hmem, hsd, hmigrate⟩
  · have hphase := chooseAction_phase setting.cmxBytes h anchorBucketSize
      ((owedNotes db account).map (orchardZecNote db h))
    rw [hcomplete, hvalues] at hphase
    exact .inl ⟨hstep _ hcomplete, phaseOf_complete.1 hphase.symm⟩
  · obtain ⟨plan, hsends⟩ := split_sends setting hready
      (cappedNonSd_subperm _) hdigits
    refine .inr ⟨_, plan, _, hsends, .inl rfl, ?_⟩
    rw [hstep _ hsplit]
    change ((setting.plan db account _ >>= _) >>= _) = _
    rw [hsends.planned, ok_bind]
    cases setting.land db plan <;> rfl
  · obtain ⟨plan, hsends, hfee⟩ := note_sends setting hready hmem hsd (some h)
    refine .inr ⟨_, plan, _, hsends, .inr ⟨rfl, hfee⟩, ?_⟩
    rw [hstep _ hmigrate]
    change ((setting.plan db account _ >>= _) >>= _) = _
    rw [hsends.planned, ok_bind]
    cases setting.land db plan <;> rfl

end Ready

/-! ### A step that landed -/

section Landing
variable {H : Type} [DecidableEq H] {db d : Database H} {account anchorBucketSize : ℕ} {plan : Plan}
  {setting : Setting H} {s : Sending}

def heldValues (db : Database H) (account : ℕ) : List (ℕ × ℕ) :=
  (heldNotes db account).map fun n => (n.pool, asU64 n.value)

def totalOf (values : List (ℕ × ℕ)) : ℕ := (values.map Prod.snd).sum

def orchardOf (values : List (ℕ × ℕ)) : ℕ := totalOf (values.filter fun v => v.1 = 2)

def keptValues (db : Database H) (account : ℕ) (plan : Plan) : List (ℕ × ℕ) :=
  ((heldNotes db account).filter fun n => n.idNote ∉ plan.spends.map InputNote.id).map fun n =>
    (n.pool, asU64 n.value)

def createdValues (plan : Plan) : List (ℕ × ℕ) :=
  (plan.states.map fun s => (s.pool, s.amount)) ++
    if 0 < plan.change then [(plan.changePool, plan.change)] else []

/-- The transaction is mined and the wallet knows it. -/
structure Landed (db d : Database H) (account anchorBucketSize : ℕ) (plan : Plan) : Prop where
  held : (heldValues d account).Perm (keptValues db account plan ++ createdValues plan)
  synced : Synced d account anchorBucketSize

/-- Landing does what it says, unless it fails, and finds the fee that was planned. -/
structure Setting.Lands (setting : Setting H) (account anchorBucketSize : ℕ) : Prop where
  landed : ∀ db s plan d fee txid, Ready db account anchorBucketSize →
    Sends setting db account s plan → setting.land db plan = .ok (d, fee, txid) →
    Landed db d account anchorBucketSize plan
  fee : ∀ db s plan d fee txid, Ready db account anchorBucketSize →
    Sends setting db account s plan → setting.land db plan = .ok (d, fee, txid) → fee = plan.fee

theorem totalOf_append (xs ys : List (ℕ × ℕ)) : totalOf (xs ++ ys) = totalOf xs + totalOf ys := by
  unfold totalOf
  rw [List.map_append, List.sum_append]

theorem totalOf_perm {xs ys : List (ℕ × ℕ)} (h : xs.Perm ys) : totalOf xs = totalOf ys :=
  (h.map Prod.snd).sum_eq

theorem orchardOf_append (xs ys : List (ℕ × ℕ)) :
    orchardOf (xs ++ ys) = orchardOf xs + orchardOf ys := by
  unfold orchardOf
  rw [List.filter_append, totalOf_append]

theorem orchardOf_perm {xs ys : List (ℕ × ℕ)} (h : xs.Perm ys) : orchardOf xs = orchardOf ys :=
  totalOf_perm (h.filter _)

theorem orchardOf_le (xs : List (ℕ × ℕ)) : orchardOf xs ≤ totalOf xs :=
  (List.filter_sublist.map Prod.snd).sum_le_sum fun _ _ => Nat.zero_le _

theorem orchardOf_held (db : Database H) (account : ℕ) :
    orchardOf (heldValues db account) = (owedValues db account).sum := by
  unfold orchardOf totalOf heldValues owedValues
  rw [owedNotes_eq, List.filter_map, List.map_map]
  rfl

theorem held_total (db : Database H) (account : ℕ) :
    ((heldNotes db account).map fun n => asU64 n.value).sum = totalOf (heldValues db account) := by
  unfold totalOf heldValues
  rw [List.map_map]
  rfl

theorem spent_total (plan : Plan) : totalOf (plan.spends.map fun n => (n.pool, n.amount)) =
    (plan.spends.map InputNote.amount).sum := by
  unfold totalOf
  rw [List.map_map]
  rfl

theorem created_total (plan : Plan) :
    totalOf (createdValues plan) = (plan.states.map RecipientState.amount).sum + plan.change := by
  unfold createdValues
  rw [totalOf_append]
  have hstates : totalOf (plan.states.map fun s => (s.pool, s.amount)) =
      (plan.states.map RecipientState.amount).sum := by
    unfold totalOf
    rw [List.map_map]
    rfl
  rw [hstates]
  congr 1
  split
  · exact Nat.add_zero _
  · rename_i hzero
    exact (Nat.eq_zero_of_not_pos hzero).symm

/-- What is held is what a plan leaves alone and what it spends, and it spends from Orchard. -/
theorem held_split (hsends : Sends setting db account s plan) :
    (heldValues db account).Perm (keptValues db account plan ++
      plan.spends.map fun n => (n.pool, n.amount)) ∧
    orchardOf (plan.spends.map fun n => (n.pool, n.amount)) =
      (plan.spends.map InputNote.amount).sum := by
  have hspends := hsends.sent.spends
  have hsub : plan.spends.Sublist ((heldNotes db account).map db.inputNote) := by
    refine hspends.trans (List.Sublist.map _ ?_)
    rw [owedNotes_eq]
    exact List.filter_sublist.trans List.filter_sublist
  have hids : (((heldNotes db account).map db.inputNote).map InputNote.id).Nodup := by
    rw [List.map_map]
    exact (rows_ids_nodup db).sublist (List.filter_sublist.map _)
  have hspent := (filter_ids_perm InputNote.id hids hsub.subperm).map fun n => (n.pool, n.amount)
  rw [List.filter_map, List.map_map] at hspent
  constructor
  · have hsplit := (List.filter_append_perm (fun n : NoteRow H =>
      decide (n.idNote ∉ plan.spends.map InputNote.id)) (heldNotes db account)).symm.map
        fun n => (n.pool, asU64 n.value)
    rw [List.map_append] at hsplit
    refine hsplit.trans (List.Perm.append_left _ (List.Perm.trans (List.Perm.of_eq ?_) hspent))
    congr 1
    refine List.filter_congr fun n _ => ?_
    simp only [decide_not, Bool.not_not]
    rfl
  · have horchard : ∀ n ∈ plan.spends, n.pool = 2 := by
      intro n hn
      obtain ⟨m, hm, rfl⟩ := List.mem_map.1 (hspends.subset hn)
      have hprops := (List.mem_filter.1 (List.mem_of_mem_filter hm)).2
      rw [decide_eq_true_eq] at hprops
      exact hprops.2.2.1
    have hall : (plan.spends.map fun n => (n.pool, n.amount)).filter (fun v => v.1 = 2) =
        plan.spends.map fun n => (n.pool, n.amount) := by
      refine List.filter_eq_self.2 fun v hv => ?_
      obtain ⟨n, hn, rfl⟩ := List.mem_map.1 hv
      exact decide_eq_true (horchard n hn)
    unfold orchardOf
    rw [hall, spent_total]

/-- The fee is all that leaves the account, and at least the fee leaves Orchard. -/
theorem landed_values (hsends : Sends setting db account s plan)
    (hlanded : Landed db d account anchorBucketSize plan) :
    totalOf (heldValues db account) = totalOf (heldValues d account) + plan.fee ∧
      orchardOf (heldValues d account) + plan.fee ≤ orchardOf (heldValues db account) := by
  obtain ⟨hheld, horchard⟩ := held_split hsends
  have hvalue := hsends.sent.value
  have hcreated := created_total plan
  have hleft := orchardOf_le (createdValues plan)
  rw [totalOf_perm hheld, totalOf_perm hlanded.held, orchardOf_perm hheld,
    orchardOf_perm hlanded.held, totalOf_append, totalOf_append, orchardOf_append,
    orchardOf_append, spent_total]
  omega

theorem landed_ready (hready : Ready db account anchorBucketSize)
    (hsends : Sends setting db account s plan)
    (hlanded : Landed db d account anchorBucketSize plan) : Ready d account anchorBucketSize := by
  refine ⟨hlanded.synced, ?_⟩
  have hmoney := hready.money
  have hvalues := (landed_values hsends hlanded).1
  rw [held_total] at hmoney ⊢
  omega

end Landing

/-! ### A wallet that lands what it sends -/

section Sample
variable {account anchorBucketSize : ℕ} {values : List (ℕ × ℕ)}

def landedNote (account : ℕ) (v : (ℕ × ℕ) × ℕ) : NoteRow ℕ :=
  ⟨v.2, 0, account, v.1.1, none, .shielded v.2, 0, v.1.2, none, none, none, none, none, none, none,
    none, false⟩

def landedWitness (account : ℕ) (v : (ℕ × ℕ) × ℕ) : WitnessRow ℕ :=
  ⟨v.2, account, v.2, 0, ⟨0, 0, fun _ => none, 0⟩⟩

theorem zipIdx_apart (values : List (ℕ × ℕ)) : values.zipIdx.Pairwise fun a b => a.2 ≠ b.2 :=
  List.pairwise_map.1 (Places.nodup_zipIdx_snd values)

theorem landedNotes_apart (account : ℕ) (values : List (ℕ × ℕ)) :
    (values.zipIdx.map (landedNote account)).Pairwise fun a b => ¬ Row.Clash a b := by
  refine List.pairwise_map.2 ((zipIdx_apart values).imp fun hne hclash => ?_)
  rcases hclash with hid | ⟨-, hnullifier⟩
  · exact hne hid
  · exact hne (NullifierKey.shielded.inj hnullifier)

theorem landedWitnesses_apart (account : ℕ) (values : List (ℕ × ℕ)) :
    (values.zipIdx.map (landedWitness account)).Pairwise fun a b => ¬ Row.Clash a b := by
  refine List.pairwise_map.2 ((zipIdx_apart values).imp fun hne hclash => ?_)
  rcases hclash with hid | ⟨hnote, -⟩
  · exact hne hid
  · exact hne hnote

def landedWallet (account : ℕ) (values : List (ℕ × ℕ)) : Database ℕ :=
  { (Database.empty : Database ℕ) with
    notes := ⟨_, landedNotes_apart account values⟩
    witnesses := ⟨_, landedWitnesses_apart account values⟩
    headers := .singleton ⟨0, [], 0⟩
    syncHeights := .singleton ⟨account, 2, 0⟩ }

theorem heldNotes_landed (account : ℕ) (values : List (ℕ × ℕ)) :
    heldNotes (landedWallet account values) account = values.zipIdx.map (landedNote account) := by
  refine List.filter_eq_self.2 fun n hn => ?_
  obtain ⟨v, -, rfl⟩ := List.mem_map.1 hn
  exact decide_eq_true ⟨rfl, rfl, rfl, rfl⟩

theorem heldValues_landed (hvalues : ∀ v ∈ values, v.2 ≤ maxMoney) :
    heldValues (landedWallet account values) account = values := by
  have hmoney : maxMoney < 2 ^ 62 := by decide
  have hfst : values.zipIdx.map Prod.fst = values := List.zipIdx_map_fst 0 _
  unfold heldValues
  rw [heldNotes_landed, List.map_map]
  refine Eq.trans (List.map_congr_left fun v hv => ?_) hfst
  have hmem : v.1 ∈ values := by
    rw [← hfst]
    exact List.mem_map_of_mem hv
  have hle := hvalues v.1 hmem
  change (v.1.1, asU64 (v.1.2 : ℤ)) = v.1
  unfold asU64
  refine Prod.ext rfl ?_
  dsimp only
  omega

theorem landed_synced (hpools : ∀ v ∈ values, v.1 < numPools) :
    Synced (landedWallet account values) account anchorBucketSize := by
  have hrows {n : NoteRow ℕ} (hn : n ∈ (landedWallet account values).notes.rows) :
      ∃ v ∈ values.zipIdx, landedNote account v = n := List.mem_map.1 hn
  have howed {n : NoteRow ℕ} (hn : n ∈ owedNotes (landedWallet account values) account) :
      ∃ v ∈ values.zipIdx, landedNote account v = n := hrows (List.mem_of_mem_filter hn)
  refine ⟨?_, ?_, ?_, 0, ?_, Nat.zero_mod _, ?_⟩
  · intro n hn
    obtain ⟨v, -, rfl⟩ := howed hn
    exact ⟨rfl, Nat.zero_le _⟩
  · intro n hn _ _
    obtain ⟨v, -, rfl⟩ := hrows hn
    exact iff_of_true rfl rfl
  · intro n hn _
    obtain ⟨v, hv, rfl⟩ := hrows hn
    exact hpools v.1 (List.fst_mem_of_mem_zipIdx hv)
  · unfold getDbHeight Database.accountSeam Database.heights landedWallet Table.singleton
    simp
  · intro n hn
    obtain ⟨v, hv, rfl⟩ := howed hn
    refine List.any_eq_true.2 ⟨landedWitness account v, List.mem_map_of_mem hv, ?_⟩
    exact decide_eq_true ⟨rfl, rfl, rfl⟩

theorem le_totalOf {v : ℕ × ℕ} (hv : v ∈ values) : v.2 ≤ totalOf values :=
  List.single_le_sum (fun _ _ => Nat.zero_le _) _ (List.mem_map_of_mem hv)

theorem landed_ready_of (hpools : ∀ v ∈ values, v.1 < numPools) (hmoney : totalOf values ≤ maxMoney) :
    Ready (landedWallet account values) account anchorBucketSize := by
  refine ⟨landed_synced hpools, ?_⟩
  rw [held_total, heldValues_landed fun v hv => (le_totalOf hv).trans hmoney]
  exact hmoney

theorem toBestPool_lt {mask pool : ℕ} (h : toBestPool mask = some pool) : pool < numPools := by
  have hmem := List.mem_of_find?_eq_some h
  simp only [List.mem_cons, List.not_mem_nil, or_false] at hmem
  have hpools : numPools = 4 := rfl
  omega

theorem created_pools {recipients : List Recipient} {taken : List InputNote} {plan : Plan}
    (h : Sent recipients taken plan) : ∀ v ∈ createdValues plan, v.1 < numPools := by
  intro v hv
  rcases List.mem_append.1 hv with hv | hv
  · rw [h.states] at hv
    obtain ⟨o, ho, rfl⟩ := List.mem_map.1 hv
    obtain ⟨r, -, rfl⟩ := List.mem_map.1 ho
    cases hpool : r.pools.bind toBestPool with
    | none => exact Nat.zero_lt_succ 3
    | some pool =>
      obtain ⟨mask, -, hbest⟩ := Option.bind_eq_some_iff.1 hpool
      exact toBestPool_lt hbest
  · split at hv
    · rw [List.mem_singleton.1 hv]
      exact h.changePool
    · cases hv

def landingSetting : Setting ℕ where
  tip := 0
  ownAddress := "u1"
  ownPool := 3
  cmxBytes n := [UInt8.ofNat n]
  ironwoodActive := true
  expired _ _ := false
  land db plan :=
    .ok (landedWallet 1 (keptValues db 1 plan ++ createdValues plan), plan.fee, "txid")

theorem landing_landed {db d : Database ℕ} {s : Sending} {plan : Plan} {fee : ℕ} {txid : String}
    (hready : Ready db 1 anchorBucketSize) (hsends : Sends landingSetting db 1 s plan)
    (hland : landingSetting.land db plan = .ok (d, fee, txid)) :
    Landed db d 1 anchorBucketSize plan := by
  cases hland
  have hpools : ∀ v ∈ keptValues db 1 plan ++ createdValues plan, v.1 < numPools := by
    intro v hv
    rcases List.mem_append.1 hv with hv | hv
    · obtain ⟨n, hn, rfl⟩ := List.mem_map.1 hv
      obtain ⟨hrow, hprops⟩ := List.mem_filter.1 (List.mem_of_mem_filter hn)
      rw [decide_eq_true_eq] at hprops
      exact hready.pools n hrow hprops.1
    · exact created_pools hsends.sent v hv
  have hmoney : totalOf (keptValues db 1 plan ++ createdValues plan) ≤ maxMoney := by
    have hheld := totalOf_perm (held_split hsends).1
    have hvalue := hsends.sent.value
    have hcreated := created_total plan
    have hready' := hready.money
    rw [held_total] at hready'
    rw [totalOf_append, spent_total] at hheld
    rw [totalOf_append]
    omega
  refine ⟨List.Perm.of_eq (heldValues_landed fun v hv => (le_totalOf hv).trans hmoney), ?_⟩
  exact landed_synced hpools

theorem landing_lands : landingSetting.Lands 1 anchorBucketSize where
  landed _ _ _ _ _ _ hready hsends hland := landing_landed hready hsends hland
  fee := by
    rintro _ _ _ _ _ _ - - ⟨⟩
    rfl

end Sample

/-! ### Whole migrations -/

def MigrationEvent.fee : MigrationEvent → ℕ
  | .splitComplete fee _ | .migrateComplete fee _ => fee
  | .complete | .nothingToDo => 0

def Paid (event : MigrationEvent) : Prop :=
  (∃ fee txid, event = .splitComplete fee txid) ∨ ∃ txid, event = .migrateComplete sdFeePad txid

section Whole
variable {H : Type} [DecidableEq H] {db d : Database H} {account anchorBucketSize : ℕ}
  {setting : Setting H} {events : List MigrationEvent} {event : MigrationEvent}

/-- The steps that send something. -/
def Setting.next (setting : Setting H) (account anchorBucketSize : ℕ) (db : Database H)
    (event : MigrationEvent) : Option (Database H) :=
  match step (setting.env account) db account anchorBucketSize with
  | .ok (e, d) => if e = event ∧ e ≠ .complete then some d else none
  | .error _ => none

theorem next_of_landed {plan : Plan} {report : ℕ → String → MigrationEvent}
    {landed : Database H × ℕ × String} (hreports : Reports plan report)
    (hland : setting.land db plan = .ok landed)
    (hstep : step (setting.env account) db account anchorBucketSize =
      (setting.land db plan).map fun landed => (report landed.2.1 landed.2.2, landed.1)) :
    setting.next account anchorBucketSize db (report landed.2.1 landed.2.2) = some landed.1 := by
  unfold Setting.next
  rw [hstep, hland]
  refine if_pos ⟨rfl, ?_⟩
  rcases hreports with rfl | ⟨rfl, -⟩ <;> nofun

/-- What one step does to the wallet. -/
structure Moves (db d : Database H) (account anchorBucketSize : ℕ) (event : MigrationEvent) :
    Prop where
  ready : Ready d account anchorBucketSize
  paid : Paid event
  value : totalOf (heldValues db account) = totalOf (heldValues d account) + event.fee
  orchard : orchardOf (heldValues d account) + 10000 ≤ orchardOf (heldValues db account)

theorem next_moves (hlands : setting.Lands account anchorBucketSize)
    (hready : Ready db account anchorBucketSize)
    (hnext : setting.next account anchorBucketSize db event = some d) :
    Moves db d account anchorBucketSize event := by
  unfold Setting.next at hnext
  rcases step_ready setting hready with ⟨hcomplete, -⟩ |
    ⟨s, plan, report, hsends, hreports, hstep⟩
  · rw [hcomplete] at hnext
    simp at hnext
  · rw [hstep] at hnext
    cases hland : setting.land db plan with
    | error e =>
      rw [hland] at hnext
      cases hnext
    | ok landed =>
      rw [hland] at hnext
      simp only [Except.map] at hnext
      split at hnext
      · rename_i hevent
        cases hnext
        have hlanded := hlands.landed db s plan _ _ _ hready hsends hland
        have hbuilt := hlands.fee db s plan _ _ _ hready hsends hland
        obtain ⟨hvalue, horchard⟩ := landed_values hsends hlanded
        have hfee := hsends.sent.fee
        have hreport : Paid event ∧ event.fee = plan.fee := by
          rw [← hevent.1]
          rcases hreports with rfl | ⟨rfl, hpad⟩
          · exact ⟨.inl ⟨_, _, rfl⟩, hbuilt⟩
          · exact ⟨.inr ⟨_, by rw [hbuilt, hpad]⟩, hbuilt⟩
        exact ⟨landed_ready hready hsends hlanded, hreport.1, by rw [hreport.2]; exact hvalue,
          by omega⟩
      · cases hnext

/-- What a run of steps did, and how it can go on. -/
structure Migrated (setting : Setting H) (db d : Database H) (account anchorBucketSize : ℕ)
    (events : List MigrationEvent) : Prop where
  ready : Ready d account anchorBucketSize
  paid : ∀ e ∈ events, Paid e
  value : totalOf (heldValues db account) =
    totalOf (heldValues d account) + (events.map MigrationEvent.fee).sum
  orchard : orchardOf (heldValues d account) + 10000 * events.length ≤
    orchardOf (heldValues db account)
  proceeds : Proceeds setting d account anchorBucketSize

/-- Nothing but the fees that are reported leaves the account in a migration, every note of standard
    denomination is sent for exactly what it carries, and the Orchard balance bounds the number of
    steps. Wherever the migration stands it is complete, or has a transaction to land. -/
theorem migration_runs (hlands : setting.Lands account anchorBucketSize)
    (hready : Ready db account anchorBucketSize)
    (hrun : run (setting.next account anchorBucketSize) db events = some d) :
    Migrated setting db d account anchorBucketSize events := by
  induction events generalizing db with
  | nil =>
    rw [run_nil, Option.some.injEq] at hrun
    subst hrun
    exact ⟨hready, by simp, by simp, by simp, step_ready setting hready⟩
  | cons event events ih =>
    obtain ⟨u, hnext, hrest⟩ := (run_cons_some _).1 hrun
    have hmoves := next_moves hlands hready hnext
    have hdone := ih hmoves.ready hrest
    refine ⟨hdone.ready, ?_, ?_, ?_, hdone.proceeds⟩
    · exact List.forall_mem_cons.2 ⟨hmoves.paid, hdone.paid⟩
    · rw [List.map_cons, List.sum_cons, hmoves.value, hdone.value]
      omega
    · rw [List.length_cons, Nat.mul_succ, ← Nat.add_assoc]
      exact (Nat.add_le_add_right hdone.orchard _).trans hmoves.orchard

def startingWallet : Database ℕ := landedWallet 1 [(2, 120000), (2, 1000000)]

theorem startingWallet_ready (anchorBucketSize : ℕ) : Ready startingWallet 1 anchorBucketSize :=
  landed_ready_of (by decide) (by decide)

theorem startingWallet_runs : ∃ event d,
    run (landingSetting.next 1 1) startingWallet [event] = some d ∧
      Migrated landingSetting startingWallet d 1 1 [event] := by
  have hvalue : 120000 ∈ owedValues startingWallet 1 :=
    List.mem_map.2 ⟨landedNote 1 ((2, 120000), 0), by decide, rfl⟩
  have hsd : isSd 120000 = true := (isSd_iff _).2 ⟨5, by decide, by decide⟩
  rcases step_ready landingSetting (startingWallet_ready 1) with
    ⟨-, hnone, -⟩ | ⟨s, plan, report, -, hreports, hstep⟩
  · rw [hnone _ hvalue] at hsd
    cases hsd
  · have hrun := (run_cons_some _).2 ⟨_, next_of_landed hreports rfl hstep, run_nil _ _⟩
    exact ⟨_, _, hrun, migration_runs landing_lands (startingWallet_ready 1) hrun⟩

/-- When nothing fails to land a migration ends, after no more steps than the Orchard balance pays
    for, with no note of standard denomination and nothing left to split. -/
theorem migration_ends (hlands : setting.Lands account anchorBucketSize)
    (hland : ∀ db s plan, Ready db account anchorBucketSize → Sends setting db account s plan →
      ∃ landed, setting.land db plan = .ok landed)
    (hready : Ready db account anchorBucketSize) :
    ∃ events d, run (setting.next account anchorBucketSize) db events = some d ∧
      step (setting.env account) d account anchorBucketSize = .ok (.complete, d) ∧
      Done d account ∧ 10000 * events.length ≤ orchardOf (heldValues db account) := by
  induction hn : orchardOf (heldValues db account) using Nat.strong_induction_on generalizing db with
  | h n ih =>
    subst hn
    rcases step_ready setting hready with ⟨hcomplete, hdone⟩ |
      ⟨s, plan, report, hsends, hreports, hstep⟩
    · exact ⟨[], db, rfl, hcomplete, hdone, Nat.zero_le _⟩
    · obtain ⟨⟨u, fee, txid⟩, hu⟩ := hland db s plan hready hsends
      have hnext := next_of_landed hreports hu hstep
      have hmoves := next_moves hlands hready hnext
      have horchard := hmoves.orchard
      obtain ⟨events, d, hrun, hcomplete, hdone, hlength⟩ :=
        ih _ (by omega) hmoves.ready rfl
      refine ⟨report fee txid :: events, d, (run_cons_some _).2 ⟨u, hnext, hrun⟩, hcomplete, hdone, ?_⟩
      rw [List.length_cons]
      omega

theorem startingWallet_ends : ∃ events d,
    run (landingSetting.next 1 1) startingWallet events = some d ∧
      step (landingSetting.env 1) d 1 1 = .ok (.complete, d) ∧ Done d 1 ∧
        10000 * events.length ≤ orchardOf (heldValues startingWallet 1) :=
  migration_ends landing_lands (fun _ _ _ _ _ => ⟨_, rfl⟩) (startingWallet_ready 1)

end Whole

end ZcashSdk.Migrate
