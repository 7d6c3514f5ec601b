import ZcashSdk.Pay.Conservation

set_option autoImplicit false

/-!
# Shielding all that an address holds

The amount to shield is summed over all notes of an address, and dust is left out only
afterwards. So with any dust there is too little left to pay the amount.
-/
namespace ZcashSdk.Pay
open Tables Db Shielded Loops Outcomes Sums

def nonDust (notes : List InputNote) : List InputNote :=
  notes.filter fun n => Solve.costPerAction ≤ n.amount

/-- ZIP-317, for transparent inputs and one output. -/
def spendAllFee (inputs pool : ℕ) : ℕ :=
  max (if pool = 0 then max inputs 1 else inputs + 2) 2 * Solve.costPerAction

def pickedGroup (pools : List (List InputNote)) : List InputNote := (pools[0]?).getD []

def NoDust (notes : List InputNote) : Prop :=
  ∀ n ∈ notes, n.amount = 0 ∨ Solve.costPerAction ≤ n.amount

/-! ### What is gathered -/

section Smart
variable {H : Type} [DecidableEq H] {db : Database H} {source : Source} {args args' : PlanArgs}
  {pools : List (List InputNote)}

theorem gather_smart (hsmart : source.smartTransparent.isSome = true)
    (h : gather db source args = .ok (pools, args')) :
    ∃ notes r, pools = [notes, [], [], []] ∧ args'.recipients = [r] ∧
      r.amount = (notes.map InputNote.amount).sum ∧ args'.recipientPaysFee = true := by
  obtain ⟨pick, hpick⟩ := Option.isSome_iff_exists.1 hsmart
  unfold gather at h
  split at h
  · cases h
  · rw [hpick] at h
    have hok := orPanic_ok.1 h
    unfold smartTransparent at hok
    dsimp only at hok
    obtain ⟨max, hmax, hok⟩ := bind_eq_ok.1 hok
    cases hok
    refine ⟨_, _, rfl, rfl, ?_, rfl⟩
    rw [← sumU64_eq hmax]
    split <;> rfl

end Smart

/-! ### The candidates -/

section Candidates
variable {notes : List InputNote} {d : DecomposedRecipient}

theorem zsaAssetsOf_zec (h : asAsset d.assetBase = zecKey) : zsaAssetsOf [d] = [] := by
  refine List.eq_nil_iff_forall_not_mem.2 fun asset hasset => ?_
  obtain ⟨⟨e, he, rfl⟩, hne, hlen⟩ := mem_zsaAssetsOf.1 hasset
  obtain rfl := List.mem_singleton.1 he
  rw [asAsset, if_pos hlen] at h
  exact hne h

def smartCandidates (notes : List InputNote) : List Solve.Note :=
  (selectNotesInput [] (dropZecDust [notes, [], [], []])).filter
    (Solve.isCandidate Solve.costPerAction)

theorem selectNotesInput_alone (zsa : List Bytes) (notes : List InputNote) :
    selectNotesInput zsa [notes, [], [], []] = poolNotes zsa notes 0 := by
  simp [selectNotesInput, poolNotes]

theorem dropZecDust_alone (notes : List InputNote) : dropZecDust [notes, [], [], []] =
    [notes.filter fun n => !isZecBase n.assetBase || Solve.costPerAction ≤ n.amount, [], [], []] := rfl

def zecCandidates (notes : List InputNote) (pool : ℕ) : List Solve.Note :=
  (poolNotes [] (notes.filter fun n => !isZecBase n.assetBase || Solve.costPerAction ≤ n.amount)
    pool).filter (Solve.isCandidate Solve.costPerAction)

theorem smartCandidates_eq (notes : List InputNote) :
    smartCandidates notes = zecCandidates notes 0 := by
  unfold smartCandidates
  rw [dropZecDust_alone, selectNotesInput_alone]
  rfl

theorem poolNotes_asset {x : Solve.Note} {pool : ℕ} (hx : x ∈ poolNotes [] notes pool) :
    x.pool = pool ∧ x.assetIndex = 0 := by
  obtain ⟨hpool, n, -, -, hasset⟩ := mem_poolNotes hx
  have hbase := mem_of_noteAssetIndex hasset
  rw [List.mem_singleton] at hbase
  rw [noteAssetIndex_zec hbase, Option.some_inj] at hasset
  exact ⟨hpool, hasset.symm⟩

theorem mem_zecCandidates {x : Solve.Note} {pool : ℕ} (hx : x ∈ zecCandidates notes pool) :
    x.pool = pool ∧ x.assetIndex = 0 ∧ Solve.costPerAction ≤ x.amount := by
  obtain ⟨hmem, hcand⟩ := List.mem_filter.1 hx
  obtain ⟨hpool, hzero⟩ := poolNotes_asset hmem
  have hlarge := of_decide_eq_true hcand
  exact ⟨hpool, hzero, hlarge.resolve_left fun h => h hzero⟩

theorem zecCandidates_amounts (hzec : ∀ n ∈ notes, asAsset n.assetBase = zecKey) (pool : ℕ) :
    (zecCandidates notes pool).map Solve.Note.amount = (nonDust notes).map InputNote.amount := by
  have hfilter : zecCandidates notes pool = (poolNotes [] (notes.filter fun n =>
      !isZecBase n.assetBase || Solve.costPerAction ≤ n.amount) pool).filter
        fun x => Solve.costPerAction ≤ x.amount := by
    refine List.filter_congr fun x hx => ?_
    unfold Solve.isCandidate
    rw [(poolNotes_asset hx).2]
    simp
  have hall : ∀ n ∈ notes.filter fun n =>
      !isZecBase n.assetBase || Solve.costPerAction ≤ n.amount,
      (noteAssetIndex [] n.assetBase).isSome = true := by
    intro n hn
    rw [noteAssetIndex_zec (hzec n (List.mem_of_mem_filter hn))]
    rfl
  rw [hfilter, ← Function.comp_def (fun v => decide (Solve.costPerAction ≤ v)) Solve.Note.amount,
    ← List.filter_map, poolNotes_amounts, List.filter_eq_self.2 hall]
  unfold nonDust
  rw [List.filter_map, List.filter_filter]
  refine congrArg _ (List.filter_congr fun n _ => ?_)
  cases hlarge : decide (Solve.costPerAction ≤ n.amount) <;> simp_all

theorem mem_smartCandidates {x : Solve.Note} (hx : x ∈ smartCandidates notes) :
    x.pool = 0 ∧ x.assetIndex = 0 ∧ Solve.costPerAction ≤ x.amount :=
  mem_zecCandidates (smartCandidates_eq notes ▸ hx)

theorem smartCandidates_amounts (hzec : ∀ n ∈ notes, asAsset n.assetBase = zecKey) :
    (smartCandidates notes).map Solve.Note.amount = (nonDust notes).map InputNote.amount := by
  rw [smartCandidates_eq, zecCandidates_amounts hzec]

end Candidates

/-! ### The request -/

section Request
variable {args : PlanArgs} {r : Recipient} {d : DecomposedRecipient} {ys : List Solve.Note}

theorem smart_outputs (hrec : args.recipients = [r]) (hzec : asAsset d.assetBase = zecKey) :
    (planRequest args [d]).outputs = [⟨poolPref r d, d.amount, 0⟩] := by
  have hresolve : resolveAssetIndex (zsaAssetsOf [d]) d.assetBase = 0 :=
    resolveAssetIndex_eq (noteAssetIndex_zec hzec)
  unfold planRequest selectOutputs
  rw [hrec]
  simp only [List.zip_cons_cons, List.zip_nil_right, List.map_cons, List.map_nil, hresolve]

theorem smart_valueOut (hrec : args.recipients = [r]) (hzec : asAsset d.assetBase = zecKey) (a : ℕ) :
    (planRequest args [d]).valueOut a = if a = 0 then d.amount else 0 := by
  unfold Solve.Request.valueOut
  rw [smart_outputs hrec hzec]
  by_cases ha : a = 0
  · subst ha
    simp [Solve.outputValue]
  · simp [Solve.outputValue, ha, Ne.symm ha]

theorem smart_numAssets (hrec : args.recipients = [r]) (hzec : asAsset d.assetBase = zecKey) :
    (planRequest args [d]).numAssets = 1 := by
  unfold Solve.Request.numAssets
  rw [smart_outputs hrec hzec]
  rfl

/-- With transparent change, the fee is that of spending the inputs to the recipient. -/
theorem smart_fee_le (hrec : args.recipients = [r]) (hzec : asAsset d.assetBase = zecKey)
    (hpools : ∀ y ∈ ys, y.pool = 0) (hne : ys ≠ []) (hpool : poolPref r d < numPools) :
    (planRequest args [d]).fee ys 0 ≤ spendAllFee ys.length (poolPref r d) := by
  have hlen := List.length_pos_of_ne_nil hne
  have hin : ∀ p, Solve.Request.inputCount ys p ≤ if p = 0 then ys.length else 0 := by
    intro p
    refine (inputCount_le ys p).trans ?_
    split
    · exact List.countP_le_length
    · rename_i hp
      rw [Nat.le_zero, List.countP_eq_zero]
      intro y hy
      rw [decide_eq_true_eq, hpools y hy]
      exact Ne.symm hp
  have hout : ∀ p, (planRequest args [d]).outputCount 0 p ≤
      (if p = poolPref r d then 1 else 0) + if p = 0 then 1 else 0 := by
    intro p
    unfold Solve.Request.outputCount
    rw [smart_outputs hrec hzec, List.countP_singleton]
    refine (Nat.min_le_left _ _).trans (le_of_eq ?_)
    simp only [decide_eq_true_eq, eq_comm (a := p)]
  have hbundle : ∀ p, p ≠ 0 → Solve.bundleActions (Solve.Request.inputCount ys p)
      ((planRequest args [d]).outputCount 0 p) ≤ if p = poolPref r d then 2 else 0 := by
    intro p hp
    have h1 := hin p
    have h2 := hout p
    rw [if_neg hp] at h1 h2
    unfold Solve.bundleActions
    split_ifs at h2 ⊢ <;> omega
  have horchard : (planRequest args [d]).orchardActions ys 0 ≤
      if 2 = poolPref r d then 2 else 0 := by
    have h1 := hin 2
    have h2 := hout 2
    rw [if_neg (show (2 : ℕ) ≠ 0 by decide)] at h1 h2
    unfold Solve.Request.orchardActions
    rw [if_pos (smart_numAssets hrec hzec).le]
    split
    · rename_i hsome
      have hpos := hsome.2
      split_ifs at h2 ⊢ <;> omega
    · exact hbundle 2 (by decide)
  have h1 := hbundle 1 (by decide)
  have h3 := hbundle 3 (by decide)
  have hin0 := hin 0
  have hout0 := hout 0
  rw [if_pos rfl] at hin0 hout0
  have hpools4 : numPools = 4 := rfl
  unfold Solve.Request.fee Solve.Request.logicalActions spendAllFee
  refine Nat.mul_le_mul_right _ ?_
  obtain hp | hp | hp | hp : poolPref r d = 0 ∨ poolPref r d = 1 ∨ poolPref r d = 2 ∨
      poolPref r d = 3 := by omega
  all_goals
    rw [hp] at h1 h3 hout0 horchard ⊢
    simp only [if_true, OfNat.ofNat_ne_zero, OfNat.zero_ne_ofNat, one_ne_zero, zero_ne_one, if_false,
      OfNat.ofNat_ne_one, OfNat.one_ne_ofNat, Nat.reduceEqDiff] at h1 h3 hout0 horchard ⊢
    omega

end Request

/-! ### Planning -/

theorem noDust_iff (notes : List InputNote) :
    NoDust notes ↔ (notes.map InputNote.amount).sum ≤ ((nonDust notes).map InputNote.amount).sum := by
  unfold NoDust nonDust
  induction notes with
  | nil => simp
  | cons n notes ih =>
    have hle := sum_amounts_le (List.filter_sublist (l := notes)
      (p := fun n => decide (Solve.costPerAction ≤ n.amount)))
    rw [List.forall_mem_cons, ih, List.filter_cons, List.map_cons, List.sum_cons]
    by_cases hlarge : Solve.costPerAction ≤ n.amount
    · rw [if_pos (decide_eq_true hlarge), List.map_cons, List.sum_cons]
      omega
    · rw [if_neg (by simpa using hlarge)]
      omega

theorem sum_nonDust_le (notes : List InputNote) :
    ((nonDust notes).map InputNote.amount).sum ≤ (notes.map InputNote.amount).sum :=
  sum_amounts_le List.filter_sublist

/-- What is selected is worth no more than the notes that are not dust. -/
theorem needed_le_nonDust {q : Solve.Request} {notes : List InputNote} {sel : Solve.Selection}
    (hzec : ∀ n ∈ notes, asAsset n.assetBase = zecKey)
    (h : Solve.Selected q (selectNotesInput [] (dropZecDust [notes, [], [], []])) sel) :
    q.needed sel.inputs sel.changePool ≤ ((nonDust notes).map InputNote.amount).sum := by
  calc q.needed sel.inputs sel.changePool
      ≤ Solve.Request.valueIn sel.inputs 0 := h.pays.zec
    _ ≤ (sel.inputs.map Solve.Note.amount).sum := Solve.valueOf_le _ _
    _ ≤ ((smartCandidates notes).map Solve.Note.amount).sum := Solve.sum_le_of_subperm h.once
    _ = ((nonDust notes).map InputNote.amount).sum := by rw [smartCandidates_amounts hzec]

theorem smart_pays {args : PlanArgs} {r : Recipient} {d : DecomposedRecipient}
    {notes : List InputNote} (hrec : args.recipients = [r]) (hbase : asAsset d.assetBase = zecKey)
    (hamount : d.amount = r.amount) (hpays : args.recipientPaysFee = true)
    (hpool : poolPref r d < numPools) (hzec : ∀ n ∈ notes, asAsset n.assetBase = zecKey)
    (hle : r.amount = ((nonDust notes).map InputNote.amount).sum)
    (hfee : spendAllFee (nonDust notes).length (poolPref r d) <
      ((nonDust notes).map InputNote.amount).sum) :
    smartCandidates notes ≠ [] ∧ (planRequest args [d]).Pays (smartCandidates notes) 0 := by
  have hamounts := smartCandidates_amounts hzec
  have hlen : (smartCandidates notes).length = (nonDust notes).length := by
    simpa only [List.length_map] using congrArg List.length hamounts
  have hne : smartCandidates notes ≠ [] := by
    intro hnil
    rw [hnil, List.map_nil] at hamounts
    rw [← hamounts, List.sum_nil] at hfee
    exact Nat.not_lt_zero _ hfee
  have hvalue : Solve.Request.valueIn (smartCandidates notes) 0 = r.amount := by
    unfold Solve.Request.valueIn Solve.valueOf
    rw [List.filter_eq_self.2 fun x hx => decide_eq_true (mem_smartCandidates hx).2.1, hamounts, hle]
  have hbound := smart_fee_le hrec hbase (fun y hy => (mem_smartCandidates hy).1) hne
    hpool
  refine ⟨hne, ?_, fun _ => ?_, fun a ha => ?_⟩
  · unfold Solve.Request.needed
    rw [smart_valueOut hrec hbase, if_pos rfl, hvalue, hamount]
    exact (if_pos hpays).le
  · change _ ≤ (args.recipients.head?.map Recipient.amount).getD 0
    rw [hlen] at hbound
    rw [hrec]
    change _ ≤ r.amount
    rw [hle]
    exact hbound.trans hfee.le
  · rw [smart_valueOut hrec hbase, if_neg ha]
    exact Nat.zero_le _

section Main
variable {H : Type} [DecidableEq H]

theorem poolPref_lt {receiver : String → Except String ℕ}
    (hreceiver : ∀ address pool, receiver address = .ok pool → pool < numPools) {r : Recipient}
    {d : DecomposedRecipient} (hdec : decompose receiver r = .ok d) :
    poolPref r d < numPools := by
  have hd : d.receiverPool < numPools := by
    unfold decompose at hdec
    split at hdec
    · cases hdec
    · rename_i pool hpool
      cases hdec
      exact hreceiver _ _ hpool
  unfold poolPref
  cases hbest : r.pools.bind toBestPool with
  | none => exact hd
  | some p =>
    obtain ⟨mask, -, hmask⟩ := Option.bind_eq_some_iff.1 hbest
    have hmem := List.mem_of_find?_eq_some hmask
    simp only [List.mem_cons, List.not_mem_nil, or_false] at hmem
    change p < 4
    omega

/-- Where the notes that are not dust pay for being spent, a selection is found exactly when there
    is no dust. -/
theorem smart_selects_iff (receiver : String → Except String ℕ) (expired : ℕ → Bool)
    (db : Database H) (source : Source) (args args' : PlanArgs) (pools : List (List InputNote))
    (r : Recipient) (d : DecomposedRecipient)
    (hreceiver : ∀ address pool, receiver address = .ok pool → pool < numPools)
    (hsmart : source.smartTransparent.isSome = true)
    (hgather : gather db source args = .ok (pools, args')) (hrec : args'.recipients = [r])
    (hdec : decompose receiver r = .ok d) (hzec : payerAsset args = zecKey)
    (horchard : AssetsInOrchard db source.account) (hin : unspentTotal db source.account < 2 ^ 62)
    (hfee : spendAllFee (nonDust (pickedGroup pools)).length (poolPref r d) <
      ((nonDust (pickedGroup pools)).map InputNote.amount).sum) :
    (∃ sel, selectFor (defaultBudget expired) args' pools [d] = .ok (some sel)) ↔
      NoDust (pickedGroup pools) := by
  have hgathered := gather_ok hgather horchard
  obtain ⟨notes, r', rfl, hrec', hamount, hpays⟩ := gather_smart hsmart hgather
  rw [hrec] at hrec'
  cases hrec'
  change spendAllFee (nonDust notes).length _ < ((nonDust notes).map InputNote.amount).sum at hfee
  change _ ↔ NoDust notes
  have hpair := Prod.mk.inj (decompose_ok hdec)
  have hbase : asAsset d.assetBase = zecKey := by
    have hpayer := hgathered.payer
    unfold payerAsset at hpayer hzec
    rw [hrec, hzec] at hpayer
    rw [hpair.2]
    exact hpayer
  have hall : ∀ n ∈ notes, asAsset n.assetBase = zecKey := by
    intro n hn
    by_contra hne
    exact absurd (hgathered.orchard 0 notes rfl n hn hne) (by decide)
  have htotal : ((selectNotesInput [] (dropZecDust [notes, [], [], []])).map
      Solve.Note.amount).sum < 2 ^ 62 := by
    refine (sum_selectNotesInput_le _ _).trans_lt (lt_of_le_of_lt ?_ hin)
    refine le_trans ?_ hgathered.total
    rw [dropZecDust_alone]
    exact poolsTotal_alone List.filter_sublist
  have hmoney : (notes.map InputNote.amount).sum < 2 ^ 62 := by
    have hone : poolsTotal [notes, [], [], []] = (notes.map InputNote.amount).sum := by
      simp [poolsTotal]
    rw [← hone]
    exact hgathered.total.trans_lt hin
  have hout : ((planRequest args' [d]).outputs.map Solve.Output.amount).sum < 2 ^ 62 := by
    rw [smart_outputs hrec hbase]
    simp only [List.map_cons, List.map_nil, List.sum_singleton]
    rw [hpair.1, hamount]
    exact hmoney
  have hone := smart_numAssets (d := d) hrec hbase
  have hselect : selectFor (defaultBudget expired) args' [notes, [], [], []] [d] =
      Solve.selectNotes (selectNotesInput [] (dropZecDust [notes, [], [], []]))
        (planRequest args' [d]).outputs Solve.costPerAction (planRequest args' [d]).migration
        (planRequest args' [d]).recipientPaysFee (planRequest args' [d]).firstRecipientAmount
        (defaultBudget expired) := by
    unfold selectFor
    rw [zsaAssetsOf_zec hbase]
    rfl
  have hidx : ∀ x ∈ selectNotesInput [] (dropZecDust [notes, [], [], []]),
      x.pool < numPools ∧ x.assetIndex < (planRequest args' [d]).numAssets := by
    intro x hx
    rw [dropZecDust_alone, selectNotesInput_alone] at hx
    obtain ⟨hpool, hzero⟩ := poolNotes_asset hx
    rw [hpool, hzero, hone]
    decide
  have hspec := @Solve.selectNotes_spec (fun _ => False) _ (defaultBudget expired)
    (planRequest args' [d]) htotal hout (show 100000 < 2 ^ 62 by decide)
    (Or.inr (by rw [hone]; decide)) fun x hx => Or.inr (hidx x hx)
  rw [← hselect] at hspec
  rw [noDust_iff, ← hamount]
  constructor
  · rintro ⟨sel, hsel⟩
    have hle := needed_le_nonDust hall (hspec.result hsel).1
    unfold Solve.Request.needed at hle
    rw [smart_valueOut hrec hbase, if_pos rfl, hpair.1] at hle
    change (if args'.recipientPaysFee = true then _ else _) ≤ _ at hle
    rwa [if_pos hpays] at hle
  · intro hle
    have hsum := hle.antisymm (hamount ▸ sum_nonDust_le notes)
    obtain ⟨hne, hpaid⟩ := smart_pays hrec hbase hpair.1 hpays (poolPref_lt hreceiver hdec) hall hsum
      hfee
    obtain ⟨found, hfound, hans⟩ := hspec.returns
    cases found with
    | none => exact absurd hpaid (hans _ (List.Perm.refl _) hne 0 (by decide))
    | some sel => exact ⟨sel, hfound⟩

end Main

def addressNote (id : ℕ) (value : ℤ) : NoteRow ℕ :=
  { idNote := id, height := 10, account := 1, pool := 0, scope := some 0,
    nullifier := .shielded (6 + id), tx := 1, value, cmx := none, taddress := some 1,
    position := none, diversifier := none, rcm := none, rho := none, idAsset := none,
    diversifierIndex := none }

def addressHeights : Table SyncHeightRow := .singleton ⟨1, 0, 90⟩

def largeNotes : Database ℕ :=
  { Database.empty with
    notes := ⟨[addressNote 1 100000, addressNote 2 30000], by decide⟩
    syncHeights := addressHeights }

def dustNote : Database ℕ :=
  { Database.empty with
    notes := ⟨[addressNote 1 100000, addressNote 2 400], by decide⟩
    syncHeights := addressHeights }

def shieldArgs : PlanArgs := ⟨[⟨"a", 0, none, []⟩], false, false, false, none⟩

theorem noDust_selects :
    ∃ pools args sel, gather largeNotes ⟨1, 1, 3, none, some 0⟩ shieldArgs =
        .ok (pools, args) ∧
      selectFor (defaultBudget fun _ => false) args pools [⟨"a", 2, 130000, zecKey⟩] =
        .ok (some sel) := by
  obtain ⟨sel, hok⟩ := (smart_selects_iff (fun _ => .ok 2) (fun _ => false) largeNotes
    ⟨1, 1, 3, none, some 0⟩ shieldArgs _ _ ⟨"a", 130000, none, []⟩ ⟨"a", 2, 130000, zecKey⟩
    (fun _ _ h => by cases h; decide) rfl rfl rfl rfl rfl
    (by unfold AssetsInOrchard; decide) (by decide) (by decide)).2 (by unfold NoDust; decide)
  exact ⟨_, _, sel, rfl, hok⟩

/-- A note of 400 is summed but not selected from. -/
theorem dust_selects_nothing :
    ∃ pools args, gather dustNote ⟨1, 1, 3, none, some 0⟩ shieldArgs =
        .ok (pools, args) ∧
      spendAllFee (nonDust (pickedGroup pools)).length 2 = 15000 ∧
      ((nonDust (pickedGroup pools)).map InputNote.amount).sum = 100000 ∧
      args.recipients = [⟨"a", 100400, none, []⟩] ∧
      selectFor (defaultBudget fun _ => false) args pools [⟨"a", 2, 100400, zecKey⟩] = .ok none :=
  ⟨_, _, rfl, by rfl, by rfl, by rfl, by rfl⟩

end ZcashSdk.Pay
