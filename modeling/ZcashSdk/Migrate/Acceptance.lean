import ZcashSdk.Migrate.Split
import ZcashSdk.Pay.SmartTransparent

set_option autoImplicit false

/-!
# The solver and the plans of a migration

A split plan counts the fee of all the notes it takes. A note that is left out as dust is
worth less than the action it saves, and a note that is added brings at least its own action,
so the candidates always pay. A note of standard denomination carries exactly the fee of its
own transaction, which leaves Orchard and Ironwood as the only pools for the change.
-/
namespace ZcashSdk.Migrate
open Pay Db Shielded Loops Outcomes Iterate

/-- The outputs of a split, one for each of the counts, in Orchard. -/
def splitOutputs (digits : List (ℕ × ℕ)) : List Solve.Output :=
  digits.flatMap fun p => List.replicate p.2 ⟨2, p.1, 0⟩

def migrationRequest (outputs : List Solve.Output) : Solve.Request :=
  ⟨outputs, true, false, (outputs.head?.map Solve.Output.amount).getD 0⟩

/-- `select_notes` for a migration, from the Orchard notes without their dust. -/
def selectMigration (expired : ℕ → Bool) (notes : List InputNote) (outputs : List Solve.Output) :
    Except Solve.Fault (Option Solve.Selection) :=
  Solve.selectNotes (selectNotesInput [] (dropZecDust [[], [], notes, []])) outputs
    Solve.costPerAction true false ((outputs.head?.map Solve.Output.amount).getD 0)
    (defaultBudget expired)

def AllZec (notes : List InputNote) : Prop := ∀ n ∈ notes, asAsset n.assetBase = zecKey

section Candidates
variable {notes : List InputNote}

theorem candidates_eq (notes : List InputNote) :
    (selectNotesInput [] (dropZecDust [[], [], notes, []])).filter
      (Solve.isCandidate Solve.costPerAction) = zecCandidates notes 2 := by
  unfold zecCandidates dropZecDust selectNotesInput
  simp [poolNotes]

theorem poolNotes_sum_le (notes : List InputNote) :
    ((selectNotesInput [] (dropZecDust [[], [], notes, []])).map Solve.Note.amount).sum ≤
      (notes.map InputNote.amount).sum := by
  refine (sum_selectNotesInput_le _ _).trans ?_
  have hone : poolsTotal (dropZecDust [[], [], notes, []]) = ((notes.filter fun n =>
      !isZecBase n.assetBase || Solve.costPerAction ≤ n.amount).map InputNote.amount).sum := by
    simp [poolsTotal, dropZecDust]
  rw [hone]
  exact sum_amounts_le List.filter_sublist

/-- Dust is worth no more than the actions it saves. -/
theorem sum_filter_add (c : ℕ) (xs : List ℕ) :
    xs.sum + c * (xs.filter (c ≤ ·)).length ≤ (xs.filter (c ≤ ·)).sum + c * xs.length := by
  induction xs with
  | nil => simp
  | cons x xs ih =>
    have hmul : c * (xs.length + 1) = c * xs.length + c := Nat.mul_succ _ _
    have hmul' : c * ((xs.filter (c ≤ ·)).length + 1) = c * (xs.filter (c ≤ ·)).length + c :=
      Nat.mul_succ _ _
    by_cases hx : c ≤ x
    · rw [List.filter_cons_of_pos (by simpa using hx)]
      simp only [List.sum_cons, List.length_cons]
      omega
    · rw [List.filter_cons_of_neg (by simpa using hx)]
      simp only [List.sum_cons, List.length_cons]
      omega

theorem length_mul_le_sum (c : ℕ) (xs : List ℕ) :
    c * (xs.filter (c ≤ ·)).length ≤ (xs.filter (c ≤ ·)).sum := by
  induction xs with
  | nil => simp
  | cons x xs ih =>
    by_cases hx : c ≤ x
    · rw [List.filter_cons_of_pos (by simpa using hx)]
      have hmul : c * ((xs.filter (c ≤ ·)).length + 1) = c * (xs.filter (c ≤ ·)).length + c :=
        Nat.mul_succ _ _
      simp only [List.sum_cons, List.length_cons]
      omega
    · rw [List.filter_cons_of_neg (by simpa using hx)]
      exact ih

/-- All but the dust pays whatever the notes taken pay, each note with its action. -/
theorem Takes.covers {values taken : List ℕ} (h : Takes values taken) (c : ℕ) :
    taken.sum + c * (values.filter (c ≤ ·)).length ≤
      (values.filter (c ≤ ·)).sum + c * taken.length := by
  obtain ⟨-, left, hperm, -⟩ := h
  have hfilter := hperm.filter (c ≤ ·)
  have hlength := hfilter.length_eq
  have hsum := hfilter.sum_eq
  rw [List.filter_append, List.length_append] at hlength
  rw [List.filter_append, List.sum_append] at hsum
  have htaken := sum_filter_add c taken
  have hleft := length_mul_le_sum c left
  rw [← hlength, ← hsum, Nat.mul_add]
  omega

end Candidates

/-! ### Splits -/

section Splits
variable {outs : List Solve.Output} {ys : List Solve.Note}

theorem numAssets_zec (hzec : ∀ o ∈ outs, o.assetIndex = 0) : (migrationRequest outs).numAssets = 1 := by
  unfold Solve.Request.numAssets migrationRequest
  dsimp only
  cases hmax : (outs.map Solve.Output.assetIndex).max? with
  | none => rfl
  | some m =>
    obtain ⟨o, ho, hm⟩ := List.mem_map.1 (List.max?_mem hmax)
    rw [← hm, hzec o ho]
    rfl

theorem needed_migration (outs : List Solve.Output) (ys : List Solve.Note) (cp : ℕ) :
    (migrationRequest outs).needed ys cp =
      (migrationRequest outs).valueOut 0 + (migrationRequest outs).fee ys cp := rfl

theorem valueIn_zec (hzec : ∀ y ∈ ys, y.assetIndex = 0) :
    Solve.Request.valueIn ys 0 = (ys.map Solve.Note.amount).sum := by
  unfold Solve.Request.valueIn Solve.valueOf
  rw [List.filter_eq_self.2 fun y hy => decide_eq_true (hzec y hy)]

theorem valueOut_zec (hzec : ∀ o ∈ outs, o.assetIndex = 0) :
    (migrationRequest outs).valueOut 0 = (outs.map Solve.Output.amount).sum := by
  unfold Solve.Request.valueOut Solve.outputValue migrationRequest
  rw [List.filter_eq_self.2 fun o ho => decide_eq_true (hzec o ho)]

theorem valueOut_other (hzec : ∀ o ∈ outs, o.assetIndex = 0) {a : ℕ} (ha : a ≠ 0) :
    (migrationRequest outs).valueOut a = 0 := by
  unfold Solve.Request.valueOut Solve.outputValue migrationRequest
  rw [List.filter_eq_nil_iff.2 fun o ho => by
    rw [decide_eq_true_eq, hzec o ho]
    exact Ne.symm ha]
  rfl

theorem split_fee_le (hzec : ∀ o ∈ outs, o.assetIndex = 0) (houts : ∀ o ∈ outs, o.pool = 2)
    (hys : ∀ y ∈ ys, y.pool = 2) (hsome : 2 ≤ ys.length + outs.length + 1) :
    (migrationRequest outs).fee ys 2 ≤ (ys.length + outs.length + 1) * Solve.costPerAction := by
  have hin : ∀ p, p ≠ 2 → Solve.Request.inputCount ys p = 0 := by
    intro p hp
    refine Nat.le_zero.1 ((inputCount_le ys p).trans (le_of_eq (List.countP_eq_zero.2 ?_)))
    intro y hy
    rw [decide_eq_true_eq, hys y hy]
    exact Ne.symm hp
  have hout : ∀ p, p ≠ 2 → (migrationRequest outs).outputCount 2 p = 0 := by
    intro p hp
    have hnone : outs.countP (fun o => decide (o.pool = p)) = 0 := by
      refine List.countP_eq_zero.2 fun o ho => ?_
      rw [decide_eq_true_eq, houts o ho]
      exact Ne.symm hp
    unfold Solve.Request.outputCount migrationRequest
    rw [hnone, if_neg hp]
    exact Solve.clamp_zero
  have hin2 : Solve.Request.inputCount ys 2 ≤ ys.length :=
    (inputCount_le ys 2).trans List.countP_le_length
  have hout2 : (migrationRequest outs).outputCount 2 2 ≤ outs.length + 1 := by
    unfold Solve.Request.outputCount migrationRequest
    rw [if_pos rfl]
    exact (Nat.min_le_left _ _).trans (Nat.succ_le_succ List.countP_le_length)
  have horchard : (migrationRequest outs).orchardActions ys 2 ≤ max (ys.length + outs.length + 1) 2 := by
    unfold Solve.Request.orchardActions
    rw [if_pos (numAssets_zec hzec).le]
    split
    · omega
    · unfold Solve.bundleActions
      split <;> omega
  have hbundle : ∀ p, p ≠ 2 → Solve.bundleActions (Solve.Request.inputCount ys p)
      ((migrationRequest outs).outputCount 2 p) = 0 := by
    intro p hp
    rw [hin p hp, hout p hp]
    rfl
  unfold Solve.Request.fee Solve.Request.logicalActions
  rw [hin 0 (by decide), hout 0 (by decide), hbundle 1 (by decide), hbundle 3 (by decide)]
  exact Nat.mul_le_mul_right _ (by omega)

theorem split_pays (hzec : ∀ o ∈ outs, o.assetIndex = 0) (houts : ∀ o ∈ outs, o.pool = 2)
    (hys : ∀ y ∈ ys, y.pool = 2 ∧ y.assetIndex = 0) (hsome : 2 ≤ ys.length + outs.length + 1)
    (hvalue : (outs.map Solve.Output.amount).sum + (ys.length + outs.length + 1) * Solve.costPerAction ≤
      (ys.map Solve.Note.amount).sum) :
    (migrationRequest outs).Pays ys 2 := by
  have hfee := split_fee_le hzec houts (fun y hy => (hys y hy).1) hsome
  refine ⟨?_, fun h => (by cases h), fun a ha => ?_⟩
  · rw [needed_migration, valueOut_zec hzec, valueIn_zec fun y hy => (hys y hy).2]
    exact (Nat.add_le_add_left hfee _).trans hvalue
  · rw [valueOut_other hzec ha]
    exact Nat.zero_le _

end Splits

section Outputs
variable {digits : List (ℕ × ℕ)}

theorem mem_splitOutputs {o : Solve.Output} (h : o ∈ splitOutputs digits) :
    o.pool = 2 ∧ o.assetIndex = 0 := by
  obtain ⟨p, -, hp⟩ := List.mem_flatMap.1 h
  rw [List.eq_of_mem_replicate hp]
  exact ⟨rfl, rfl⟩

theorem splitOutputs_length (digits : List (ℕ × ℕ)) :
    (splitOutputs digits).length = outputs digits := by
  unfold splitOutputs outputs
  rw [List.length_flatMap]
  simp only [List.length_replicate]

theorem splitOutputs_value (digits : List (ℕ × ℕ)) :
    ((splitOutputs digits).map Solve.Output.amount).sum = worth digits := by
  unfold splitOutputs worth
  induction digits with
  | nil => rfl
  | cons p digits ih =>
    rw [List.flatMap_cons, List.map_append, List.sum_append, ih, List.map_replicate,
      List.sum_replicate, List.map_cons, List.sum_cons, smul_eq_mul, Nat.mul_comm]

end Outputs

/-! ### What a plan found leaves to pay with -/

theorem planSplit_plan {values : List ℕ} {plan : SplitPlan} {fuel : ℕ} (hle : values.sum ≤ maxMoney)
    (h : planSplit fuel values = some (.ok (some plan))) : plan.Sound (largest values) := by
  obtain ⟨found, bound, hrun, hsound⟩ := planSplit_ends hle
  have hfar := planSplit_mono h bound
  rw [hrun _ (Nat.le_add_left bound fuel)] at hfar
  cases hfar
  exact hsound plan rfl

theorem SplitPlan.Sound.actions {taken : List ℕ} {plan : SplitPlan} (h : plan.Sound taken) :
    (taken.length + (outputs plan.digits + 1)) * Solve.costPerAction ≤ plan.remainder := by
  obtain ⟨fm, hfeed, hfee⟩ := h.fee
  have hsends := h.sends
  have hcount := (feed_counted hfeed).2 2
  rw [splitCalls_inputs, splitCalls_outputs, if_pos rfl, if_pos rfl] at hcount
  rw [feed_splitCalls hcount.1 (by omega)] at hfeed
  cases hfeed
  rwa [manager_fee (by omega)] at hfee

section Accepted
variable {notes : List InputNote} {expired : ℕ → Bool} {outs : List Solve.Output}

theorem zecCandidates_values (hzec : AllZec notes) :
    (zecCandidates notes 2).map Solve.Note.amount =
      (notes.map InputNote.amount).filter (Solve.costPerAction ≤ ·) := by
  rw [zecCandidates_amounts hzec, nonDust, List.filter_map]
  rfl

/-- The solver returns, with a selection unless all the candidates together do not pay. -/
theorem selectMigration_answers (hin : (notes.map InputNote.amount).sum ≤ maxMoney)
    (hout : (outs.map Solve.Output.amount).sum < 2 ^ 62) (houts : ∀ o ∈ outs, o.assetIndex = 0) :
    ∃ found, selectMigration expired notes outs = .ok found ∧ Solve.Answers (migrationRequest outs)
      (selectNotesInput [] (dropZecDust [[], [], notes, []])) found := by
  have hmoney : maxMoney < 2 ^ 62 := by decide
  have hone := numAssets_zec houts
  have hidx : ∀ x ∈ selectNotesInput [] (dropZecDust [[], [], notes, []]),
      x.pool < Solve.numPools ∧ x.assetIndex < (migrationRequest outs).numAssets := by
    intro x hx
    rw [hone]
    have hmem : x ∈ poolNotes [] (notes.filter fun n =>
        !isZecBase n.assetBase || Solve.costPerAction ≤ n.amount) 2 := by
      unfold selectNotesInput dropZecDust at hx
      simpa [poolNotes] using hx
    obtain ⟨hpool, hzero⟩ := poolNotes_asset hmem
    rw [hpool, hzero]
    decide
  have hspec := @Solve.selectNotes_spec (fun _ => False) _ (defaultBudget expired)
    (migrationRequest outs) ((poolNotes_sum_le notes).trans_lt (by omega)) hout (show 100000 < 2 ^ 62 by decide)
    (Or.inr (by rw [hone]; decide)) fun x hx => Or.inr (hidx x hx)
  exact hspec.returns

theorem split_accepted (hzec : AllZec notes) (hin : (notes.map InputNote.amount).sum ≤ maxMoney)
    {fuel : ℕ} {plan : SplitPlan}
    (hplan : planSplit fuel (notes.map InputNote.amount) = some (.ok (some plan))) :
    ∃ sel, selectMigration expired notes (splitOutputs plan.digits) = .ok (some sel) := by
  have hsound := planSplit_plan hin hplan
  have htakes := largest_takes (notes.map InputNote.amount)
  have hactions := hsound.actions
  have hsends := hsound.sends
  have hvalue := hsound.value
  have htotal := hsound.total
  have htaken := htakes.sum_le
  have hcovers := htakes.covers Solve.costPerAction
  have hmoney : maxMoney < 2 ^ 62 := by decide
  have hcost : Solve.costPerAction = 5000 := rfl
  have hvalues := zecCandidates_values hzec
  have hlength : (zecCandidates notes 2).length =
      ((notes.map InputNote.amount).filter (Solve.costPerAction ≤ ·)).length := by
    rw [← hvalues, List.length_map]
  have hsum := congrArg List.sum hvalues
  generalize (notes.map InputNote.amount).filter (Solve.costPerAction ≤ ·) = large
    at hcovers hlength hsum
  rw [hcost] at hactions hcovers
  obtain ⟨found, hfound, hans⟩ := @selectMigration_answers _ expired
    (splitOutputs plan.digits) hin (by rw [splitOutputs_value]; omega)
    fun o ho => (mem_splitOutputs ho).2
  cases found with
  | some sel => exact ⟨sel, hfound⟩
  | none =>
    have hpays : (migrationRequest (splitOutputs plan.digits)).Pays (zecCandidates notes 2) 2 := by
      refine split_pays (fun o ho => (mem_splitOutputs ho).2) (fun o ho => (mem_splitOutputs ho).1)
        (fun y hy => ⟨(mem_zecCandidates hy).1, (mem_zecCandidates hy).2.1⟩) ?_ ?_
      · rw [splitOutputs_length]
        omega
      · rw [splitOutputs_value, splitOutputs_length, hsum, hlength, hcost]
        omega
    have hne : zecCandidates notes 2 ≠ [] := by
      intro hnil
      rw [hnil] at hsum hlength
      simp only [List.map_nil, List.sum_nil, List.length_nil] at hsum hlength
      omega
    refine absurd hpays (hans _ ?_ hne 2 (by decide))
    rw [candidates_eq]

/-! ### Sending one note -/

/-- What a note of standard denomination is sent as, to Ironwood. -/
def sendOutput (n : InputNote) : Solve.Output := ⟨3, n.amount - sdFeePad, 0⟩

/-- Orchard and Ironwood have two actions each, unless the change is in a third pool. -/
theorem send_fee {o : Solve.Output} {x : Solve.Note} (hpool : o.pool = 3) (hasset : o.assetIndex = 0)
    (hx : x.pool = 2) (cp : ℕ) :
    (migrationRequest [o]).fee [x] cp =
      if cp = 0 then 25000 else if cp = 1 then 30000 else 20000 := by
  have hin : ∀ p, Solve.Request.inputCount [x] p = if p = 2 then 1 else 0 := by
    intro p
    unfold Solve.Request.inputCount
    rw [List.countP_singleton, hx]
    simp only [decide_eq_true_eq, eq_comm (a := 2)]
    split <;> rfl
  have hout : ∀ p, (migrationRequest [o]).outputCount cp p =
      (if p = 3 then 1 else 0) + if p = cp then 1 else 0 := by
    intro p
    unfold Solve.Request.outputCount migrationRequest
    rw [List.countP_singleton, hpool]
    simp only [decide_eq_true_eq, eq_comm (a := 3)]
    split_ifs <;> rfl
  have hone : (migrationRequest [o]).numAssets ≤ 1 := (numAssets_zec (by simpa using hasset)).le
  unfold Solve.Request.fee Solve.Request.logicalActions Solve.Request.orchardActions
    Solve.bundleActions
  rw [if_pos hone]
  simp only [hin, hout, show (migrationRequest [o]).migration = true from rfl]
  rcases cp with _ | _ | _ | _ | cp
  all_goals simp [Solve.costPerAction]

theorem send_accepted {n : InputNote} (hzec : asAsset n.assetBase = zecKey)
    (hin : n.amount ≤ maxMoney) (hsd : isSd n.amount = true) :
    ∃ sel, selectMigration expired [n] [sendOutput n] = .ok (some sel) ∧
      sel.inputs.map Solve.Note.amount = [n.amount] ∧ sel.fee = sdFeePad ∧
      n.amount = (sendOutput n).amount + sel.fee := by
  obtain ⟨k, -, hk⟩ := (isSd_iff _).1 hsd
  have hpad : sdFeePad = 20000 := rfl
  have hpow : 0 < 10 ^ k := Nat.pow_pos (by decide)
  have hmoney : maxMoney < 2 ^ 62 := by decide
  have hcost : Solve.costPerAction = 5000 := rfl
  have hamount : (sendOutput n).amount = n.amount - sdFeePad := rfl
  have hout : ∀ o ∈ [sendOutput n], o.assetIndex = 0 := by simp [sendOutput]
  have hvalues : (zecCandidates [n] 2).map Solve.Note.amount = [n.amount] := by
    rw [zecCandidates_values (by simpa [AllZec] using hzec)]
    simp only [List.map_cons, List.map_nil]
    rw [List.filter_cons_of_pos (by simp only [decide_eq_true_eq]; omega), List.filter_nil]
  obtain ⟨x, hx, hxa⟩ := List.map_eq_singleton_iff.1 hvalues
  have hxs := mem_zecCandidates (show x ∈ zecCandidates [n] 2 by rw [hx]; exact List.mem_singleton_self x)
  have hfee := send_fee (o := sendOutput n) rfl rfl hxs.1
  have hvalue : Solve.Request.valueIn [x] 0 = n.amount := by
    rw [valueIn_zec (by simpa using hxs.2.1), List.map_singleton, List.sum_singleton, hxa]
  have hasked : (migrationRequest [sendOutput n]).valueOut 0 = n.amount - sdFeePad := by
    rw [valueOut_zec hout, List.map_singleton, List.sum_singleton, hamount]
  obtain ⟨found, hfound, hans⟩ := @selectMigration_answers [n] expired
    [sendOutput n] (by simpa using hin)
    (by rw [List.map_singleton, List.sum_singleton]; omega) hout
  cases found with
  | none =>
    have hpays : (migrationRequest [sendOutput n]).Pays [x] 2 := by
      refine ⟨?_, fun h => (by cases h), fun a ha => ?_⟩
      · rw [needed_migration, hasked, hvalue, hfee, if_neg (by decide), if_neg (by decide)]
        omega
      · rw [valueOut_other hout ha]
        exact Nat.zero_le _
    refine absurd hpays (hans _ ?_ (List.cons_ne_nil _ _) 2 (by decide))
    rw [candidates_eq, hx]
  | some sel =>
    obtain ⟨hsel, -⟩ := hans
    have honce := hsel.once
    rw [candidates_eq, hx] at honce
    have hneeded := hsel.pays.zec
    rw [needed_migration, hasked] at hneeded
    -- the note is the only one there is, and nothing pays for nothing
    have hne : sel.inputs ≠ [] := by
      intro hnil
      rw [hnil] at hneeded
      have hzero : Solve.Request.valueIn [] 0 = 0 := rfl
      omega
    have hinputs : sel.inputs = [x] :=
      List.perm_singleton.1 (honce.perm_of_length_le (List.length_pos_of_ne_nil hne))
    rw [hinputs, hvalue, hfee] at hneeded
    have hpaid : sel.fee = 20000 := by
      rw [hsel.fee, hinputs, hfee]
      split_ifs at hneeded ⊢ <;> omega
    refine ⟨sel, hfound, by rw [hinputs, List.map_singleton, hxa], hpaid.trans hpad.symm, ?_⟩
    rw [hpaid, hamount]
    omega

end Accepted

/-- The solver selects for every split that is planned, and sends every note of standard
    denomination for the fee it carries, without change. -/
theorem migration_accepted (expired : ℕ → Bool) :
    (∀ notes, AllZec notes → (notes.map InputNote.amount).sum ≤ maxMoney → ∀ fuel plan,
      planSplit fuel (notes.map InputNote.amount) = some (.ok (some plan)) →
      ∃ sel, selectMigration expired notes (splitOutputs plan.digits) = .ok (some sel)) ∧
    ∀ n : InputNote, asAsset n.assetBase = zecKey → n.amount ≤ maxMoney → isSd n.amount = true →
      ∃ sel, selectMigration expired [n] [sendOutput n] = .ok (some sel) ∧
        sel.inputs.map Solve.Note.amount = [n.amount] ∧ sel.fee = sdFeePad ∧
        n.amount = (sendOutput n).amount + sel.fee :=
  ⟨fun _ hzec hin _ _ hplan => split_accepted hzec hin hplan,
    fun _ hzec hin hsd => send_accepted hzec hin hsd⟩

def orchardNote (amount : ℕ) : InputNote := ⟨1, 90, amount, 2, none, zecKey, none⟩

/-- A note that is split into four, and one of these when it is sent. -/
theorem oneNote_accepted :
    (∃ sel, selectMigration (fun _ => false) [orchardNote 1000000]
      (splitOutputs [(120000, 4)]) = .ok (some sel)) ∧
    ∃ sel, selectMigration (fun _ => false) [orchardNote 120000] [sendOutput (orchardNote 120000)] =
        .ok (some sel) ∧ sel.inputs.map Solve.Note.amount = [120000] ∧ sel.fee = sdFeePad ∧
      (orchardNote 120000).amount = (sendOutput (orchardNote 120000)).amount + sel.fee := by
  have hplan : planSplit 300 ([orchardNote 1000000].map InputNote.amount) =
      some (.ok (some ⟨[(120000, 4)], 520000, 1000000⟩)) := by
    have hlargest : largest [1000000] = [1000000] := by simp [largest, maxSplitInputs]
    simp only [List.map_cons, List.map_nil, orchardNote]
    unfold planSplit splitStart
    rw [hlargest]
    decide
  constructor
  · refine (migration_accepted fun _ => false).1 [orchardNote 1000000] ?_ ?_ 300
      ⟨[(120000, 4)], 520000, 1000000⟩ hplan
    · simp [AllZec, orchardNote, asAsset, zecKey]
    · simp [orchardNote, maxMoney]
  · refine (migration_accepted fun _ => false).2 (orchardNote 120000) rfl (by decide) ?_
    exact (isSd_iff _).2 ⟨5, by decide, by decide⟩

end ZcashSdk.Migrate
