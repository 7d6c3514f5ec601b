import ZcashSdk.Pay.Build

set_option autoImplicit false

/-!
# Plans that issue an asset

Notes are selected for the outputs and their own fee, and the fee of the issuance comes on
top afterwards. What is left over goes back when it covers both fees. Where it does not, there
is no change, and the builder has to ask for exactly what is left.
-/
namespace ZcashSdk.Pay
open Tables Db Shielded Loops Outcomes Sums Labels

/-- How the ZEC of a plan is settled when the builder asks for `built` as its fee. -/
structure IssuanceSettled (plan : Plan) (issuance : Option IssuanceInfo) (built : ℕ) : Prop where
  fee : plan.fee = plan.selection.fee + issuanceFee issuance
  selected : plan.valueOut zecKey + plan.selection.fee ≤ plan.valueIn zecKey
  spent : plan.valueIn zecKey = plan.valueOut zecKey + plan.change + built
  covered : plan.valueOut zecKey + plan.fee ≤ plan.valueIn zecKey →
    plan.change = plan.valueIn zecKey - (plan.valueOut zecKey + plan.fee) ∧ built = plan.fee
  short : plan.valueIn zecKey < plan.valueOut zecKey + plan.fee →
    plan.change = 0 ∧ plan.selection.fee ≤ built ∧ built < plan.fee

section Settle
variable {args : PlanArgs} {decomposed : List DecomposedRecipient} {plan : Plan} {built : ℕ}

theorem Planned.change_sub (h : Planned args decomposed plan)
    (hpayer : ¬ (args.recipientPaysFee = true ∧ payerAsset args ≠ zecKey)) :
    plan.change = plan.valueIn zecKey - (plan.valueOut zecKey + plan.fee) ∧
      plan.valueOut zecKey + plan.selection.fee ≤ plan.valueIn zecKey := by
  obtain ⟨changes, hset⟩ := h.settled
  have hfee := hset.fee
  have hchange := h.change_eq
  have hneeded := h.needed
  have hout := h.valueOut_add zecKey
  rw [if_neg (zecKey_notMem decomposed)] at hout
  cases hpays : args.recipientPaysFee with
  | false =>
    have hnone : deducted args plan.fee = 0 := by
      unfold deducted
      rw [hpays, if_neg Bool.false_ne_true]
    rw [hnone] at hout hchange
    rw [ite_self] at hout
    rw [hpays, if_neg Bool.false_ne_true] at hneeded
    omega
  | true =>
    -- The first recipient gets ZEC, and at least the fee of the selection.
    have hzec : payerAsset args = zecKey := by
      by_contra hne
      exact hpayer ⟨hpays, hne⟩
    have hfirst := (h.payer hpays).1
    have hded : plan.selection.fee ≤ deducted args plan.fee := by
      unfold deducted
      rw [if_pos hpays]
      omega
    rw [if_pos hzec] at hout
    rw [hpays, if_pos rfl] at hneeded
    omega

theorem Planned.settled_zec (h : Planned args decomposed plan)
    (hpayer : ¬ (args.recipientPaysFee = true ∧ payerAsset args ≠ zecKey))
    (hspent : plan.valueIn zecKey = plan.valueOut zecKey + plan.change + built) :
    IssuanceSettled plan args.issuance built := by
  obtain ⟨hchange, hselected⟩ := h.change_sub hpayer
  obtain ⟨changes, hset⟩ := h.settled
  refine ⟨hset.fee, hselected, hspent, fun hcovered => ⟨hchange, by omega⟩, fun hshort => ?_⟩
  omega

end Settle

/-- Whatever is issued: the ZEC of a plan that is returned is paid, returned, or the fee that the
    builder asks for. -/
theorem issuance_settled {A B P H : Type} [DecidableEq H] (enc : Encodings A)
    (builder : TxBuilder B P) (hlib : builder.Balances) (receiver : String → Except String ℕ)
    (expired : ℕ → Bool) (db : Database H) (source : Source) (args : PlanArgs)
    (memos : List (Option String × Option Bytes)) (plan : Plan) (pczt : P)
    (hplan : planTransaction enc builder receiver (defaultBudget expired) db source args memos =
      .ok (plan, pczt))
    (horchard : AssetsInOrchard db source.account) (hin : unspentTotal db source.account < 2 ^ 62) :
    IssuanceSettled plan args.issuance (builder.fee pczt) := by
  obtain ⟨pools, args', decomposed, hgathered, hplanned, hpayer, hspent⟩ :=
    planned_of_planTransaction hlib hplan horchard hin (show 100000 < 2 ^ 62 by decide)
  rw [← hgathered.issuance]
  exact hplanned.settled_zec hpayer hspent

def issuanceNotes (value : ℕ) : Database ℕ :=
  { Database.empty with
    notes := .singleton
      { idNote := 1, height := 10, account := 1, pool := 2, scope := some 0,
        nullifier := .shielded 7, tx := 1, value := value, cmx := none, taddress := none,
        position := none, diversifier := none, rcm := none, rho := none, idAsset := none,
        diversifierIndex := none }
    syncHeights := .singleton ⟨1, 2, 90⟩ }

def issuanceArgs : PlanArgs :=
  ⟨[⟨payeeAddress, 10000, none, []⟩, ⟨payeeAddress, 10000, none, []⟩], false, false, false,
    some ⟨false⟩⟩

set_option maxRecDepth 8192 in
/-- A note that covers both fees. -/
theorem largeNote_settled :
    ∃ plan pczt, planTransaction orchardEncodings actionBuilder orchardReceiver
        (defaultBudget fun _ => false) (issuanceNotes 100000) ⟨1, 15, 3, none, none⟩ issuanceArgs [] =
          .ok (plan, pczt) ∧
      plan.change = 60000 ∧ plan.fee = 20000 ∧ actionBuilder.fee pczt = 20000 := by
  obtain ⟨plan, pczt, hplan, hin, hout, hfee⟩ : ∃ plan pczt, planTransaction orchardEncodings
      actionBuilder orchardReceiver (defaultBudget fun _ => false) (issuanceNotes 100000)
        ⟨1, 15, 3, none, none⟩ issuanceArgs [] = .ok (plan, pczt) ∧
      plan.valueIn zecKey = 100000 ∧ plan.valueOut zecKey = 20000 ∧ plan.fee = 20000 :=
    ⟨_, _, rfl, by rfl, by rfl, by rfl⟩
  have hsettled := issuance_settled orchardEncodings actionBuilder actionBuilder_balances
    orchardReceiver (fun _ => false) (issuanceNotes 100000) ⟨1, 15, 3, none, none⟩ issuanceArgs []
    plan pczt hplan (by unfold AssetsInOrchard; decide) (by decide)
  obtain ⟨hchange, hbuilt⟩ := hsettled.covered (by omega)
  exact ⟨plan, pczt, hplan, by omega, hfee, by omega⟩

set_option maxRecDepth 8192 in
/-- No change output is made, and the builder asks for less than both fees: exactly what is left. -/
theorem exactNote_short :
    ∃ plan pczt, planTransaction orchardEncodings actionBuilder orchardReceiver
        (defaultBudget fun _ => false) (issuanceNotes 35000) ⟨1, 15, 3, none, none⟩ issuanceArgs [] =
          .ok (plan, pczt) ∧
      actionBuilder.Balances ∧ plan.selection.fee = 15000 ∧ issuanceFee issuanceArgs.issuance = 5000 ∧
      plan.valueOut zecKey = 20000 ∧ plan.valueIn zecKey = 35000 ∧
      ¬ plan.valueOut zecKey + plan.selection.fee + issuanceFee issuanceArgs.issuance ≤
        plan.valueIn zecKey :=
  ⟨_, _, rfl, actionBuilder_balances, by rfl, by rfl, by rfl, by rfl, by decide⟩

end ZcashSdk.Pay
