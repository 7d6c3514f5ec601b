import ZcashSdk.Pay.Conservation
import ZcashSdk.Pay.Labels

set_option autoImplicit false

/-!
# Building what is planned

The builder is given the notes that are spent, then the outputs, the change and the issuance.
It works the fee out itself, and a transaction that does not balance is not finished: what
is planned is returned only when the builder agrees.
-/
namespace ZcashSdk.Pay
open Tables Db Shielded Loops Outcomes Sums Labels

/-! ### The builder -/

structure Spend where
  idNote : ℕ
  pool : ℕ
  value : ℕ
  assetBase : Bytes
  deriving DecidableEq

/-- The builder of the crates, on the notes, the keys and the state of the chain that it starts
    from. `finalizeIo` goes from the built parts to the PCZT. What was added is kept by asset. -/
structure TxBuilder (B P : Type) extends Builder B where
  start : Plan → Except OutputError (B × Context)
  addSpend : B → Spend → Except String B
  finalizeIo : B → List PcztOutput → Except OutputError P
  inputs : B → List (Bytes × ℕ)
  outputs : B → List (Bytes × ℕ)
  fee : P → ℕ

def paid : Output → Bytes × ℕ
  | .transparent _ value => (zecKey, value)
  | .sapling _ _ value _ => (zecKey, value)
  | .orchard _ _ value assetBase _ => (assetBase, value)
  | .orchardChange _ _ value assetBase _ => (assetBase, value)
  | .ironwood _ _ value _ => (zecKey, value)

def amountOf (added : List (Bytes × ℕ)) (asset : Bytes) : ℕ := sumOf Prod.fst Prod.snd added asset

/-- A transaction is finished only when as much of every asset comes in as goes out, and of ZEC the
    fee besides. -/
structure TxBuilder.Balances {B P : Type} (builder : TxBuilder B P) : Prop where
  start : ∀ plan b ctx, builder.start plan = .ok (b, ctx) →
    builder.inputs b = [] ∧ builder.outputs b = []
  addSpend : ∀ b spend b', builder.addSpend b spend = .ok b' →
    builder.inputs b' = builder.inputs b ++ [(spend.assetBase, spend.value)] ∧
      builder.outputs b' = builder.outputs b
  add : ∀ b output b', builder.add b output = .ok b' →
    builder.inputs b' = builder.inputs b ∧
      builder.outputs b' = builder.outputs b ++ [paid output]
  setZsaBuilder : ∀ b info b', builder.setZsaBuilder b info = .ok b' →
    builder.inputs b' = builder.inputs b ∧ builder.outputs b' = builder.outputs b
  finalizeIo : ∀ b outs labelled p, builder.buildForPczt b = .ok outs →
    builder.finalizeIo b labelled = .ok p → ∀ asset, amountOf (builder.inputs b) asset =
      amountOf (builder.outputs b) asset + if asset = zecKey then builder.fee p else 0

/-! ### From what is handed over to the PCZT -/

section Building
variable {A B P : Type} (enc : Encodings A) (builder : TxBuilder B P)

/-- Shielded notes of the last two pools are read with their asset. -/
def spentAsset (n : InputNote) : Except OutputError Bytes :=
  match n.pool with
  | 0 | 1 => .ok zecKey
  | 2 | 3 =>
    if n.assetBase = zecKey then .ok zecKey
    else if n.assetBase.length = 32 ∧ enc.assetBaseFromBytes n.assetBase then .ok n.assetBase
    else .error (.panic "unwrap")
  | _ => .error (.panic "unreachable")

def addInput (b : B) (n : InputNote) : Except OutputError B := do
  let assetBase ← spentAsset enc n
  if n.pool = 0 ∧ maxMoney < n.amount then .error (.panic "unwrap")
  else orBail (builder.addSpend b ⟨n.id, n.pool, n.amount, assetBase⟩)

/-- The recipients have memos, the change of the assets has none. -/
def requestsOf (memos : List (Option String × Option Bytes)) (states : List RecipientState) :
    List Labels.Request :=
  states.zipIdx.map fun s =>
    let memo := (memos[s.2]?).getD (none, none)
    ⟨s.1, memo.1, memo.2⟩

def bestPool (pool : ℕ) : Except OutputError ℕ := unwrap (toBestPool (2 ^ pool))

def buildTransaction (args : PlanArgs) (memos : List (Option String × Option Bytes))
    (plan : Plan) : Except OutputError P := do
  let _ ← plan.states.mapM fun s => bestPool s.pool
  let (b, ctx) ← builder.start plan
  let ctx := { ctx with ironwoodActive := args.ironwoodActive, issuance := args.issuance }
  let b ← plan.spends.foldlM (addInput enc builder) b
  let (b, addresses, label) ← addOutputs enc builder.toBuilder ctx b
    (requestsOf memos plan.states) plan.changePool plan.change
  let outs ← orBail (builder.buildForPczt b)
  let labelled ← labelTransparentOutputs (outs.map TxOut.unlabelled) addresses label
  builder.finalizeIo b labelled

/-- The plan that is built, and its PCZT. -/
def planTransaction {H : Type} [DecidableEq H] (receiver : String → Except String ℕ)
    (budget : Solve.Budget) (db : Database H) (source : Source) (args : PlanArgs)
    (memos : List (Option String × Option Bytes)) :
    Except (PlanError ⊕ OutputError) (Plan × P) := do
  let plan ← (draftAccount receiver budget db source args).mapError Sum.inl
  let pczt ← (buildTransaction enc builder args memos plan).mapError Sum.inr
  .ok (plan, pczt)

end Building

/-! ### What the builder was given -/

section Given
variable {A B P : Type} {enc : Encodings A} {builder : TxBuilder B P} {ctx : Context}
  {b b' : B} {s t : Added B}

/-- The asset that is built for an output: only Orchard has others than ZEC. -/
def builtAsset (s : RecipientState) : Bytes := if s.pool = 2 then asAsset s.assetBase else zecKey

theorem spentAsset_ok {n : InputNote} {asset : Bytes} (h : spentAsset enc n = .ok asset)
    (hzec : n.pool ≠ 2 → asAsset n.assetBase = zecKey) : asset = asAsset n.assetBase := by
  have hbase (hok : (if n.assetBase = zecKey then Except.ok zecKey
      else if n.assetBase.length = 32 ∧ enc.assetBaseFromBytes n.assetBase then .ok n.assetBase
      else .error (.panic "unwrap")) = (.ok asset : Except OutputError Bytes)) :
      asset = asAsset n.assetBase := by
    split at hok
    · rename_i hbase
      cases hok
      rw [hbase]
      rfl
    · split at hok
      · rename_i hlen
        cases hok
        exact (if_pos hlen.1).symm
      · cases hok
  unfold spentAsset at h
  split at h
  · rename_i hpool
    cases h
    exact (hzec (by omega)).symm
  · rename_i hpool
    cases h
    exact (hzec (by omega)).symm
  · exact hbase h
  · exact hbase h
  · cases h

theorem addInputs_ok (hlib : builder.Balances) {notes : List InputNote}
    (hzec : ∀ n ∈ notes, n.pool ≠ 2 → asAsset n.assetBase = zecKey)
    (h : notes.foldlM (addInput enc builder) b = .ok b') :
    builder.inputs b' =
        builder.inputs b ++ notes.map (fun n => (asAsset n.assetBase, n.amount)) ∧
      builder.outputs b' = builder.outputs b := by
  induction notes generalizing b with
  | nil =>
    cases h
    exact ⟨(List.append_nil _).symm, rfl⟩
  | cons n notes ih =>
    rw [List.foldlM_cons] at h
    obtain ⟨c, hc, h⟩ := bind_eq_ok.1 h
    obtain ⟨asset, hasset, hc⟩ := bind_eq_ok.1 hc
    obtain rfl := spentAsset_ok hasset (hzec n List.mem_cons_self)
    split at hc
    · cases hc
    · obtain ⟨hin, hout⟩ := hlib.addSpend _ _ _ (orBail_eq_ok.1 hc)
      obtain ⟨hins, houts⟩ := ih (fun m hm => hzec m (List.mem_cons_of_mem _ hm)) h
      refine ⟨?_, houts.trans hout⟩
      rw [hins, hin, List.append_assoc, List.map_cons, List.singleton_append]

structure Grown (builder : TxBuilder B P) (b b' : B) (amount : Bytes → ℕ) : Prop where
  inputs : builder.inputs b' = builder.inputs b
  outputs : ∀ a, amountOf (builder.outputs b') a = amountOf (builder.outputs b) a + amount a

theorem Grown.refl : Grown builder b b fun _ => 0 := ⟨rfl, fun _ => rfl⟩

theorem Grown.trans {c : B} {amount amount' : Bytes → ℕ} (h : Grown builder b b' amount)
    (h' : Grown builder b' c amount') : Grown builder b c fun a => amount a + amount' a where
  inputs := h'.inputs.trans h.inputs
  outputs a := by rw [h'.outputs, h.outputs, Nat.add_assoc]

theorem Grown.congr {amount amount' : Bytes → ℕ} (h : Grown builder b b' amount)
    (heq : ∀ a, amount a = amount' a) : Grown builder b b' amount' :=
  ⟨h.inputs, fun a => by rw [h.outputs, heq]⟩

def ofAsset (asset : Bytes) (amount : ℕ) (a : Bytes) : ℕ := if asset = a then amount else 0

theorem grown_of_add (hlib : builder.Balances) {output : Output}
    (h : orBail (builder.add b output) = .ok b') :
    Grown builder b b' (ofAsset (paid output).1 (paid output).2) := by
  obtain ⟨hin, hout⟩ := hlib.add _ _ _ (orBail_eq_ok.1 h)
  refine ⟨hin, fun a => ?_⟩
  rw [hout, amountOf, sumOf_append, sumOf_cons, sumOf_nil, Nat.add_zero]
  rfl

theorem grown_of_send (hlib : builder.Balances) {output : Output}
    (h : s.send builder.toBuilder output = .ok t) :
    Grown builder s.builder t.builder (ofAsset (paid output).1 (paid output).2) := by
  obtain ⟨b, hb, ht⟩ := bind_eq_ok.1 h
  cases ht
  exact grown_of_add hlib hb

theorem paid_orchardOutput {recipient assetBase memo : Bytes} {value : ℕ} {missing : String}
    {output : Output} (h : orchardOutput ctx recipient value assetBase memo missing = .ok output) :
    paid output = (assetBase, value) := by
  unfold orchardOutput at h
  split at h
  · split at h <;> cases h
    rfl
  · cases h
    rfl

theorem assetBaseOf_ok {base asset : Bytes} (h : assetBaseOf enc base = .ok asset) :
    asset = asAsset base := by
  unfold assetBaseOf at h
  split at h
  · rename_i hbase
    cases h
    rw [hbase]
    rfl
  · split at h
    · cases h
    · rename_i hlen
      split at h <;> cases h
      exact (if_pos (not_not.1 hlen)).symm

theorem not_lt_numPools {pool : ℕ} (h0 : pool ≠ 0) (h1 : pool ≠ 1) (h2 : pool ≠ 2)
    (h3 : pool ≠ 3) : ¬ pool < numPools := by
  unfold numPools
  omega

theorem addOutput_grown (hlib : builder.Balances) {r : Labels.Request} (hpool : r.pool < numPools)
    (h : addOutput enc builder.toBuilder ctx s r = .ok t) :
    Grown builder s.builder t.builder (ofAsset (builtAsset r.toRecipientState) r.amount) := by
  obtain ⟨value, hvalue, h⟩ := bind_eq_ok.1 h
  obtain ⟨memo, -, h⟩ := bind_eq_ok.1 h
  obtain rfl := zatoshis_eq_ok hvalue
  have hzec (hne : r.pool ≠ 2) : builtAsset r.toRecipientState = zecKey := if_neg hne
  split at h
  · rename_i hpool
    rw [hzec (by omega)]
    by_cases hzero : r.amount = 0
    · rw [if_neg (not_not.2 hzero)] at h
      cases h
      refine Grown.refl.congr fun a => ?_
      rw [ofAsset, hzero, ite_self]
    · rw [if_pos hzero] at h
      obtain ⟨recipient, -, h⟩ := bind_eq_ok.1 h
      obtain ⟨b, hb, h⟩ := bind_eq_ok.1 h
      cases h
      exact grown_of_add hlib hb
  · obtain ⟨recipient, -, h⟩ := bind_eq_ok.1 h
    rw [hzec (by omega)]
    exact grown_of_send hlib h
  · rename_i hpool
    obtain ⟨recipient, -, h⟩ := bind_eq_ok.1 h
    obtain ⟨assetBase, hasset, h⟩ := bind_eq_ok.1 h
    obtain ⟨output, houtput, h⟩ := bind_eq_ok.1 h
    have hgrown := grown_of_send hlib h
    rw [paid_orchardOutput houtput, assetBaseOf_ok hasset] at hgrown
    rwa [builtAsset, if_pos hpool]
  · obtain ⟨recipient, -, h⟩ := bind_eq_ok.1 h
    rw [hzec (by omega)]
    exact grown_of_send hlib h
  · rename_i h0 h1 h2 h3
    exact absurd hpool (not_lt_numPools h0 h1 h2 h3)

theorem foldlM_addOutput_grown (hlib : builder.Balances) {requests : List Labels.Request}
    (hpool : ∀ r ∈ requests, r.pool < numPools)
    (h : requests.foldlM (addOutput enc builder.toBuilder ctx) s = .ok t) :
    Grown builder s.builder t.builder
      (sumOf (fun r => builtAsset r.toRecipientState) (fun r => r.amount) requests) := by
  induction requests generalizing s with
  | nil =>
    cases h
    exact Grown.refl
  | cons r requests ih =>
    rw [List.foldlM_cons] at h
    obtain ⟨u, hu, h⟩ := bind_eq_ok.1 h
    have hfirst := addOutput_grown hlib (hpool r List.mem_cons_self) hu
    have hrest := ih (fun q hq => hpool q (List.mem_cons_of_mem _ hq)) h
    refine (hfirst.trans hrest).congr fun a => ?_
    rw [sumOf_cons]
    rfl

theorem planChange_grown (hlib : builder.Balances) {changePool change : ℕ}
    {label : Option TransparentChangeLabel} (hpool : changePool < numPools)
    (h : planChange enc builder.toBuilder ctx s changePool change = .ok (t, label)) :
    Grown builder s.builder t.builder (ofAsset zecKey change) := by
  unfold planChange at h
  split at h
  · obtain ⟨changeAddress, -, h⟩ := bind_eq_ok.1 h
    unfold addChange at h
    split at h
    · obtain ⟨recipient, -, h⟩ := bind_eq_ok.1 h
      obtain ⟨value, hvalue, h⟩ := bind_eq_ok.1 h
      obtain ⟨u, hu, h⟩ := bind_eq_ok.1 h
      obtain ⟨l, -, h⟩ := bind_eq_ok.1 h
      cases h
      obtain rfl := constZatoshis_eq_ok hvalue
      exact grown_of_send hlib hu
    · obtain ⟨recipient, -, h⟩ := bind_eq_ok.1 h
      obtain ⟨value, hvalue, h⟩ := bind_eq_ok.1 h
      obtain ⟨u, hu, h⟩ := bind_eq_ok.1 h
      cases h
      obtain rfl := constZatoshis_eq_ok hvalue
      exact grown_of_send hlib hu
    · obtain ⟨recipient, -, h⟩ := bind_eq_ok.1 h
      obtain ⟨value, hvalue, h⟩ := bind_eq_ok.1 h
      obtain ⟨output, houtput, h⟩ := bind_eq_ok.1 h
      obtain ⟨u, hu, h⟩ := bind_eq_ok.1 h
      cases h
      obtain rfl := constZatoshis_eq_ok hvalue
      have hgrown := grown_of_send hlib hu
      rwa [paid_orchardOutput houtput] at hgrown
    · obtain ⟨recipient, -, h⟩ := bind_eq_ok.1 h
      split at h
      · cases h
      · obtain ⟨value, hvalue, h⟩ := bind_eq_ok.1 h
        obtain ⟨u, hu, h⟩ := bind_eq_ok.1 h
        cases h
        obtain rfl := constZatoshis_eq_ok hvalue
        exact grown_of_send hlib hu
    · rename_i h0 h1 h2 h3
      exact absurd hpool (not_lt_numPools h0 h1 h2 h3)
  · rename_i hzero
    cases h
    refine Grown.refl.congr fun a => ?_
    rw [ofAsset, Nat.eq_zero_of_not_pos hzero, ite_self]

theorem addIssuance_grown (hlib : builder.Balances)
    (h : addIssuance builder.toBuilder ctx b = .ok b') :
    builder.inputs b' = builder.inputs b ∧ builder.outputs b' = builder.outputs b := by
  unfold addIssuance at h
  split at h
  · cases h
    exact ⟨rfl, rfl⟩
  · split at h
    · cases h
    · exact hlib.setZsaBuilder _ _ _ (orBail_eq_ok.1 h)

/-- The outputs are those of the states, whatever address is filled in. -/
theorem sumOf_requests (memos : List (Option String × Option Bytes)) (states : List RecipientState)
    (changeAddress : String) (a : Bytes) :
    sumOf (fun r : Labels.Request => builtAsset r.toRecipientState) (fun r => r.amount)
        ((requestsOf memos states).map (fillAddress changeAddress)) a =
      sumOf builtAsset RecipientState.amount states a := by
  have hfill (r : Labels.Request) : (fillAddress changeAddress r).amount = r.amount ∧
      builtAsset (fillAddress changeAddress r).toRecipientState =
        builtAsset r.toRecipientState := by
    unfold fillAddress
    split <;> exact ⟨rfl, rfl⟩
  have hstates := @sumOf_map _ _ _ _ builtAsset RecipientState.amount a Prod.fst states.zipIdx
  rw [List.zipIdx_map_fst] at hstates
  rw [sumOf_map, requestsOf, sumOf_map, hstates]
  simp only [hfill]

theorem addOutputs_grown (hlib : builder.Balances)
    {memos : List (Option String × Option Bytes)} {states : List RecipientState}
    {changePool change : ℕ} {addresses : List String} {label : Option TransparentChangeLabel}
    (hpools : ∀ r ∈ states, r.pool < numPools) (hchange : changePool < numPools)
    (h : addOutputs enc builder.toBuilder ctx b (requestsOf memos states) changePool change =
      .ok (b', addresses, label)) :
    Grown builder b b' fun a =>
      sumOf builtAsset RecipientState.amount states a + ofAsset zecKey change a := by
  obtain ⟨changeAddress, -, h⟩ := bind_eq_ok.1 h
  obtain ⟨s, hs, h⟩ := bind_eq_ok.1 h
  obtain ⟨⟨t, l⟩, ht, h⟩ := bind_eq_ok.1 h
  obtain ⟨c, hc, h⟩ := bind_eq_ok.1 h
  cases h
  have hrequests : ∀ r ∈ (requestsOf memos states).map (fillAddress changeAddress),
      r.pool < numPools := by
    intro r hr
    obtain ⟨q, hq, rfl⟩ := List.mem_map.1 hr
    obtain ⟨p, hp, rfl⟩ := List.mem_map.1 hq
    have hpool := hpools p.1 (List.fst_mem_of_mem_zipIdx hp)
    unfold fillAddress
    split <;> exact hpool
  have hgrown := (foldlM_addOutput_grown hlib hrequests hs).trans (planChange_grown hlib hchange ht)
  obtain ⟨hin, hout⟩ := addIssuance_grown hlib hc
  refine ⟨hin.trans hgrown.inputs, fun a => ?_⟩
  rw [hout, hgrown.outputs, sumOf_requests]

theorem bestPool_ok {pool p : ℕ} (h : bestPool pool = .ok p) : pool < numPools := by
  by_contra hge
  have hnone : toBestPool (2 ^ pool) = none := by
    refine List.find?_eq_none.2 fun q hq hset => ?_
    rw [hasPool, Nat.testBit_two_pow, decide_eq_true_eq] at hset
    subst hset
    exact hge (by revert hq; unfold numPools; simp; omega)
  rw [bestPool, hnone] at h
  cases h

def Plan.built (plan : Plan) (asset : Bytes) : ℕ :=
  sumOf builtAsset RecipientState.amount plan.states asset

/-- What is spent of an asset is built as an output, and of ZEC as change, or is the fee. -/
theorem buildTransaction_balance (hlib : builder.Balances) {args : PlanArgs}
    {memos : List (Option String × Option Bytes)} {plan : Plan} {pczt : P}
    (hzec : ∀ n ∈ plan.spends, n.pool ≠ 2 → asAsset n.assetBase = zecKey)
    (hchange : plan.changePool < numPools)
    (h : buildTransaction enc builder args memos plan = .ok pczt) (asset : Bytes) :
    plan.valueIn asset =
      plan.built asset + if asset = zecKey then plan.change + builder.fee pczt else 0 := by
  obtain ⟨pools, hpools, h⟩ := bind_eq_ok.1 h
  obtain ⟨⟨b, ctx⟩, hstart, h⟩ := bind_eq_ok.1 h
  obtain ⟨c, hinputs, h⟩ := bind_eq_ok.1 h
  obtain ⟨⟨d, addresses, label⟩, houtputs, h⟩ := bind_eq_ok.1 h
  obtain ⟨outs, houts, h⟩ := bind_eq_ok.1 h
  obtain ⟨labelled, -, h⟩ := bind_eq_ok.1 h
  have hknown : ∀ s ∈ plan.states, s.pool < numPools := by
    intro s hs
    obtain ⟨p, -, hp⟩ := mem_of_mapM_ok hpools hs
    exact bestPool_ok hp
  obtain ⟨hin, hout⟩ := hlib.start _ _ _ hstart
  obtain ⟨hin', hout'⟩ := addInputs_ok hlib hzec hinputs
  have hgrown := addOutputs_grown hlib hknown hchange houtputs
  have hbalance := hlib.finalizeIo _ _ _ _ (orBail_eq_ok.1 houts) h asset
  rw [hgrown.inputs, hgrown.outputs, hin', hout', hin, hout, List.nil_append, amountOf,
    sumOf_map] at hbalance
  have hnone : amountOf [] asset = 0 := rfl
  change plan.valueIn asset = _ at hbalance
  rw [hbalance, hnone, Nat.zero_add, ofAsset, Plan.built]
  by_cases hasset : asset = zecKey
  · rw [if_pos hasset, if_pos hasset, if_pos hasset.symm, Nat.add_assoc]
  · rw [if_neg hasset, if_neg hasset, if_neg (Ne.symm hasset)]

end Given

/-! ### A plan that is built -/

section Built
variable {args : PlanArgs} {decomposed : List DecomposedRecipient} {plan : Plan} {fee : ℕ}

theorem Plan.built_le (plan : Plan) {asset : Bytes} (hne : asset ≠ zecKey) :
    plan.built asset ≤ plan.valueOut asset := by
  refine sumOf_le fun s _ hs => ?_
  unfold builtAsset at hs
  split at hs
  · exact hs
  · exact absurd hs.symm hne

theorem Planned.built (h : Planned args decomposed plan)
    (hbalance : ∀ asset, plan.valueIn asset =
      plan.built asset + if asset = zecKey then plan.change + fee else 0) :
    ¬ (args.recipientPaysFee = true ∧ payerAsset args ≠ zecKey) ∧
      plan.valueIn zecKey = plan.valueOut zecKey + plan.change + fee := by
  have hother (asset : Bytes) (hne : asset ≠ zecKey) : plan.built asset = plan.valueOut asset ∧
      (if payerAsset args = asset then deducted args plan.fee else 0) = 0 := by
    have hin := hbalance asset
    rw [if_neg hne, h.valueIn_of_ne hne] at hin
    have hle := plan.built_le hne
    omega
  have hzec : plan.built zecKey = plan.valueOut zecKey :=
    sumOf_eq_of_others fun asset hne => (hother asset hne).1
  refine ⟨fun hbad => ?_, ?_⟩
  · -- The first recipient would be short of at least the solver's fee in its own asset.
    have hnone := (hother _ hbad.2).2
    obtain ⟨changes, hset⟩ := h.settled
    have hfirst := (h.payer hbad.1).1
    have hpos := h.fee_pos
    have hfee := hset.fee
    rw [if_pos rfl, deducted, if_pos hbad.1] at hnone
    omega
  · have hin := hbalance zecKey
    rw [if_pos rfl, hzec] at hin
    omega

end Built

section Transaction
variable {A B P H : Type} [DecidableEq H] {enc : Encodings A} {builder : TxBuilder B P}
  {receiver : String → Except String ℕ} {budget : Solve.Budget} {db : Database H} {source : Source}
  {args : PlanArgs} {memos : List (Option String × Option Bytes)} {plan : Plan} {pczt : P}

theorem planTransaction_ok
    (h : planTransaction enc builder receiver budget db source args memos = .ok (plan, pczt)) :
    draftAccount receiver budget db source args = .ok plan ∧
      buildTransaction enc builder args memos plan = .ok pczt := by
  obtain ⟨drafted, hdraft, h⟩ := bind_eq_ok.1 h
  obtain ⟨built, hbuilt, h⟩ := bind_eq_ok.1 h
  cases h
  have hok {ε ε' α : Type} {x : Except ε α} {f : ε → ε'} {a : α} (hx : x.mapError f = .ok a) :
      x = .ok a := by
    cases x with
    | error e => cases hx
    | ok b =>
      cases hx
      rfl
  exact ⟨hok hdraft, hok hbuilt⟩

/-- A plan that is returned was drafted, and the builder agreed to it. -/
theorem planned_of_planTransaction (hlib : builder.Balances)
    (h : planTransaction enc builder receiver budget db source args memos = .ok (plan, pczt))
    (horchard : AssetsInOrchard db source.account) (hin : unspentTotal db source.account < 2 ^ 62)
    (hnodes : budget.maxNodes < 2 ^ 62) :
    ∃ pools args' decomposed, Gathered db source args pools args' ∧
      Planned args' decomposed plan ∧
      ¬ (args'.recipientPaysFee = true ∧ payerAsset args' ≠ zecKey) ∧
      plan.valueIn zecKey = plan.valueOut zecKey + plan.change + builder.fee pczt := by
  obtain ⟨hdraft, hbuild⟩ := planTransaction_ok h
  obtain ⟨pools, args', decomposed, hgathered, hplanned, hstored, hchange⟩ :=
    drafted_of_ok hdraft horchard hin hnodes
  have hzec : ∀ n ∈ plan.spends, n.pool ≠ 2 → asAsset n.assetBase = zecKey := by
    intro n hn hpool
    by_contra hne
    obtain ⟨notes, hnotes, hmem⟩ := mem_of_spends hn
    exact hpool (hstored notes hnotes n hmem hne)
  exact ⟨pools, args', decomposed, hgathered, hplanned,
    hplanned.built (buildTransaction_balance hlib hzec hchange hbuild)⟩

end Transaction

/-- Every plan that is returned without issuance conserves the value of each asset: the fee comes
    from ZEC alone, and is the one that the builder works out. -/
theorem plan_conserves {A B P H : Type} [DecidableEq H] (enc : Encodings A)
    (builder : TxBuilder B P) (hlib : builder.Balances) (receiver : String → Except String ℕ)
    (expired : ℕ → Bool) (db : Database H) (source : Source) (args : PlanArgs)
    (memos : List (Option String × Option Bytes)) (plan : Plan) (pczt : P)
    (hplan : planTransaction enc builder receiver (defaultBudget expired) db source args memos =
      .ok (plan, pczt))
    (hissue : args.issuance = none) (horchard : AssetsInOrchard db source.account)
    (hin : unspentTotal db source.account < 2 ^ 62) :
    plan.Conserves ∧ builder.fee pczt = plan.fee := by
  obtain ⟨pools, args', decomposed, hgathered, hplanned, hgood, hbalance⟩ :=
    planned_of_planTransaction hlib hplan horchard hin (show 100000 < 2 ^ 62 by decide)
  have hconserves := (hplanned.conserves_iff (hgathered.issuance.trans hissue)).2 hgood
  have hzec := hconserves zecKey
  rw [if_pos rfl] at hzec
  exact ⟨hconserves, by omega⟩

/-! ### A builder -/

structure BuiltTx where
  spends : List Spend
  sent : List Output
  issueNotes : ℕ

def poolOf : Output → ℕ
  | .transparent .. => 0
  | .sapling .. => 1
  | .orchard .. => 2
  | .orchardChange .. => 2
  | .ironwood .. => 3

namespace BuiltTx
variable (tx : BuiltTx)

def inputs : List (Bytes × ℕ) := tx.spends.map fun spend => (spend.assetBase, spend.value)
def outputs : List (Bytes × ℕ) := tx.sent.map paid

/-- Spends and outputs are paired inside an asset. -/
def actions (pool : ℕ) : ℕ :=
  let spent := (tx.spends.filter fun spend => spend.pool = pool).map Spend.assetBase
  let sent := (tx.sent.filter fun output => poolOf output = pool).map fun output => (paid output).1
  ((spent ++ sent).dedup.map fun asset => max (spent.count asset) (sent.count asset)).sum

/-- ZIP-317. -/
def fee : ℕ :=
  max (tx.actions 0 + Solve.bundleActions (tx.actions 1) 0 + Solve.bundleActions (tx.actions 2) 0 +
    Solve.bundleActions (tx.actions 3) 0 + tx.issueNotes) Solve.graceActions * Solve.costPerAction

def Balanced (asset : Bytes) : Prop :=
  amountOf tx.inputs asset = amountOf tx.outputs asset + if asset = zecKey then tx.fee else 0

instance (asset : Bytes) : Decidable (tx.Balanced asset) := inferInstanceAs (Decidable (_ = _))

end BuiltTx

def payeeAddress : String :=
  "u1pg2aaph7jp8rpf6yhsza25722sg5fcn3vaca6ze27hqjw7jvvhhuxkpcg0ge9xh6drsgdkda8qjq5chpehkcpxf87rnj" ++
    "ryjqwymdheptpvnljqqrjqzjwkc2ma6hcq666kgwfytxwac8eyex6ndgr6ezte66706e3vaqrd25dzvzkc69kw0jgywtd0" ++
    "cmq52q5lkw6uh7hyvzjse8ksx"

def payeeReceivers : Option Bytes × Option Bytes :=
  (some [159, 110, 11, 249, 10, 24, 252, 11, 155, 131, 174, 159, 35, 173, 67, 88, 100, 134, 56, 72,
    43, 93, 239, 137, 117, 99, 91, 102, 253, 138, 112, 131, 53, 249, 35, 90, 49, 134, 236, 15, 3,
    63, 132],
  some [206, 203, 229, 230, 137, 164, 83, 163, 254, 16, 204, 247, 97, 126, 108, 31, 179, 130, 129,
    157, 127, 201, 32, 10, 31, 66, 9, 42, 200, 74, 48, 55, 143, 140, 31, 185, 13, 255, 113, 166,
    213, 4, 45])

def ownAddress : String :=
  "u1aukz0laarsupp5ndl7z66892vp68hqyv8dwrvkq8wy4u4dy46kzda3tl6gz4pkeh8kykdp3q68tkrtq6c05qhuuxvxjdc5" ++
    "07t5nc35xl"

def ownReceivers : Option Bytes × Option Bytes :=
  (none, some [1, 2, 3, 4, 5, 6, 7, 8, 9, 10, 11, 247, 97, 126, 108, 31, 179, 130, 129, 157, 127,
    201, 32, 10, 31, 66, 9, 42, 200, 74, 48, 55, 143, 140, 31, 185, 13, 255, 113, 166, 213, 4, 45])

def sampleAsset : Bytes := List.replicate 32 5

def orchardEncodings : Encodings Bytes where
  tryFromEncoded address :=
    if address = payeeAddress then .ok (payeeReceivers.2.getD [])
    else if address = ownAddress then .ok (ownReceivers.2.getD [])
    else .error "Invalid address"
  canReceiveAs _ pool := pool = 2
  convertIfNetwork _ := none
  paymentAddress _ := none
  unifiedAddress address :=
    if address = payeeAddress then some payeeReceivers
    else if address = ownAddress then some ownReceivers
    else none
  memoFromStr _ := .ok []
  memoFromBytes bytes := .ok bytes
  assetBaseFromBytes base := base = sampleAsset

def orchardReceiver (address : String) : Except String ℕ :=
  if address = payeeAddress ∨ address = ownAddress then .ok 2 else .error "Invalid address"

def orchardContext : Context where
  account := 1
  ironwoodActive := false
  svk := none
  ovk := some [4]
  xvk := none
  fullAddress := ownAddress
  nextChangeAddress _ := .ok ownAddress
  addresses := []
  publicKey _ := none
  issuance := none

def actionBuilder : TxBuilder BuiltTx BuiltTx where
  start _ := .ok (⟨[], [], 0⟩, orchardContext)
  addSpend tx spend := .ok { tx with spends := tx.spends ++ [spend] }
  add tx output := .ok { tx with sent := tx.sent ++ [output] }
  setZsaBuilder tx info := .ok { tx with issueNotes := if info.firstIssuance then 2 else 1 }
  buildForPczt tx :=
    if tx.Balanced zecKey then .ok (tx.sent.filterMap Output.txOut) else .error "Unbalanced"
  transparentOutputs tx := tx.sent.filterMap Output.txOut
  finalizeIo tx _ :=
    if ∀ x ∈ tx.inputs ++ tx.outputs, tx.Balanced x.1 then .ok tx
    else .error (.panic "ValueCommitMismatch")
  inputs := BuiltTx.inputs
  outputs := BuiltTx.outputs
  fee := BuiltTx.fee

theorem amountOf_eq_zero {added : List (Bytes × ℕ)} {asset : Bytes}
    (h : ∀ x ∈ added, x.1 ≠ asset) : amountOf added asset = 0 := sumOf_eq_zero h

theorem actionBuilder_balances : actionBuilder.Balances where
  start := by
    rintro plan _ _ ⟨⟩
    exact ⟨rfl, rfl⟩
  addSpend := by
    rintro tx spend _ ⟨⟩
    exact ⟨List.map_append, rfl⟩
  add := by
    rintro tx output _ ⟨⟩
    exact ⟨rfl, List.map_append⟩
  setZsaBuilder := by
    rintro tx info _ ⟨⟩
    exact ⟨rfl, rfl⟩
  finalizeIo := by
    intro tx outs labelled p houts hp asset
    change (if _ then _ else _) = _ at houts
    change (if _ then _ else _) = _ at hp
    split at houts
    swap
    · cases houts
    split at hp
    swap
    · cases hp
    rename_i hzec hall
    cases hp
    change tx.Balanced asset
    by_cases hadded : ∃ x ∈ tx.inputs ++ tx.outputs, x.1 = asset
    · obtain ⟨x, hx, rfl⟩ := hadded
      exact hall x hx
    · by_cases hasset : asset = zecKey
      · rw [hasset]
        exact hzec
      · have hnone : ∀ x ∈ tx.inputs ++ tx.outputs, x.1 ≠ asset :=
          fun x hx heq => hadded ⟨x, hx, heq⟩
        unfold BuiltTx.Balanced
        rw [if_neg hasset, amountOf_eq_zero fun x hx => hnone x (List.mem_append_left _ hx),
          amountOf_eq_zero fun x hx => hnone x (List.mem_append_right _ hx)]

def mixedNotes : Database ℕ :=
  { Database.empty with
    notes := ⟨[
      { idNote := 1, height := 10, account := 1, pool := 2, scope := some 0,
        nullifier := .shielded 7, tx := 1, value := 100000, cmx := none, taddress := none,
        position := none, diversifier := none, rcm := none, rho := none, idAsset := none,
        diversifierIndex := none },
      { idNote := 2, height := 10, account := 1, pool := 2, scope := some 0,
        nullifier := .shielded 8, tx := 1, value := 60000, cmx := none, taddress := none,
        position := none, diversifier := none, rcm := none, rho := none, idAsset := some 1,
        diversifierIndex := none }], by decide⟩
    assets := .singleton ⟨1, [], [], sampleAsset, false, 10⟩
    syncHeights := .singleton ⟨1, 2, 90⟩ }

/-- A payment of the other asset, and then one of ZEC, paid for by the sender. -/
def mixedArgs : PlanArgs :=
  ⟨[⟨payeeAddress, 50000, none, sampleAsset⟩, ⟨payeeAddress, 20000, none, []⟩], false, false, false,
    none⟩

set_option maxRecDepth 8192 in
theorem mixed_conserves :
    ∃ plan pczt, planTransaction orchardEncodings actionBuilder orchardReceiver
        (defaultBudget fun _ => false) mixedNotes ⟨1, 15, 3, none, none⟩ mixedArgs [] =
          .ok (plan, pczt) ∧
      plan.Conserves ∧ actionBuilder.fee pczt = plan.fee ∧ plan.fee = 20000 ∧
      plan.valueIn sampleAsset = 60000 ∧ plan.valueOut sampleAsset = 60000 ∧
      plan.valueIn zecKey = 100000 ∧ plan.valueOut zecKey = 20000 ∧ plan.change = 60000 := by
  obtain ⟨plan, pczt, hplan, hvalues⟩ : ∃ plan pczt, planTransaction orchardEncodings actionBuilder
      orchardReceiver (defaultBudget fun _ => false) mixedNotes ⟨1, 15, 3, none, none⟩ mixedArgs
        [] = .ok (plan, pczt) ∧ plan.fee = 20000 ∧
      plan.valueIn sampleAsset = 60000 ∧ plan.valueOut sampleAsset = 60000 ∧
      plan.valueIn zecKey = 100000 ∧ plan.valueOut zecKey = 20000 ∧ plan.change = 60000 :=
    ⟨_, _, rfl, by rfl, by rfl, by rfl, by rfl, by rfl, by rfl⟩
  obtain ⟨hconserves, hfee⟩ := plan_conserves orchardEncodings actionBuilder actionBuilder_balances
    orchardReceiver (fun _ => false) mixedNotes ⟨1, 15, 3, none, none⟩ mixedArgs [] plan pczt hplan
    rfl (by unfold AssetsInOrchard; decide) (by decide)
  exact ⟨plan, pczt, hplan, hconserves, hfee, hvalues⟩

end ZcashSdk.Pay
