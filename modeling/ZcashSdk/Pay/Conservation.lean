import ZcashSdk.Pay.MaxSpendable
import ZcashSdk.Pay.Funding
import ZcashSdk.Lib.Sums

set_option autoImplicit false

/-!
# Value is conserved, asset by asset

What a plan takes in of an asset goes out again: to the recipients, back as change and, of
ZEC, as the fee. When the recipient is to pay the fee and the first one gets another asset,
the fee is taken from that asset instead.
-/
namespace ZcashSdk.Pay
open Tables Db Shielded Loops Outcomes Sums Places

/-! ### Assets and their indices -/

section Assets
variable {zsa : List Bytes} {decomposed : List DecomposedRecipient}

theorem mem_zsaAssetsOf {asset : Bytes} :
    asset ∈ zsaAssetsOf decomposed ↔
      (∃ d ∈ decomposed, d.assetBase = asset) ∧ asset ≠ zecKey ∧ asset.length = 32 := by
  unfold zsaAssetsOf
  rw [List.mem_filter, (List.perm_insertionSort _ _).mem_iff, List.mem_dedup, List.mem_map]
  simp only [List.mem_filter, decide_eq_true_eq]
  constructor
  · rintro ⟨⟨d, ⟨hd, hne⟩, rfl⟩, hlen⟩
    exact ⟨⟨d, hd, rfl⟩, hne, hlen⟩
  · rintro ⟨⟨d, hd, rfl⟩, hne, hlen⟩
    exact ⟨⟨d, ⟨hd, hne⟩, rfl⟩, hlen⟩

theorem zsaAssetsOf_nodup (decomposed : List DecomposedRecipient) :
    (zsaAssetsOf decomposed).Nodup := by
  unfold zsaAssetsOf
  refine List.Nodup.filter _ ?_
  rw [(List.perm_insertionSort _ _).nodup_iff]
  exact List.nodup_dedup _

def planAssets (decomposed : List DecomposedRecipient) : List Bytes :=
  zecKey :: zsaAssetsOf decomposed

theorem planAssets_nodup (decomposed : List DecomposedRecipient) :
    (planAssets decomposed).Nodup :=
  List.nodup_cons.2 ⟨fun h => (mem_zsaAssetsOf.1 h).2.1 rfl, zsaAssetsOf_nodup decomposed⟩

theorem asAsset_mem_planAssets {d : DecomposedRecipient} (hd : d ∈ decomposed) :
    asAsset d.assetBase ∈ planAssets decomposed := by
  unfold asAsset
  split
  · rename_i hlen
    by_cases hzec : d.assetBase = zecKey
    · rw [hzec]
      exact List.mem_cons_self ..
    · exact List.mem_cons_of_mem _ (mem_zsaAssetsOf.2 ⟨⟨d, hd, rfl⟩, hzec, hlen⟩)
  · exact List.mem_cons_self ..

theorem asAsset_of_mem {asset : Bytes} (h : asset ∈ planAssets decomposed) :
    asAsset asset = asset := by
  rcases List.mem_cons.1 h with rfl | h
  · rfl
  · exact if_pos (mem_zsaAssetsOf.1 h).2.2

theorem mem_of_noteAssetIndex {base : Bytes} {a : ℕ} (h : noteAssetIndex zsa base = some a) :
    asAsset base ∈ zecKey :: zsa := by
  unfold noteAssetIndex zsaIndex at h
  split at h
  · rename_i hzec
    rw [hzec]
    exact List.mem_cons_self ..
  · split at h
    · rename_i hmem
      exact List.mem_cons_of_mem _ hmem
    · cases h

theorem exists_noteAssetIndex {base : Bytes} (h : asAsset base ∈ zecKey :: zsa) :
    ∃ a, noteAssetIndex zsa base = some a := by
  unfold noteAssetIndex zsaIndex
  split
  · exact ⟨0, rfl⟩
  · rename_i hzec
    rw [if_pos ((List.mem_cons.1 h).resolve_left hzec)]
    exact ⟨_, rfl⟩

theorem noteAssetIndex_zec {base : Bytes} (h : asAsset base = zecKey) :
    noteAssetIndex zsa base = some 0 := if_pos h

theorem noteAssetIndex_pos (hlen : zsa.length < 255) {base : Bytes} {a : ℕ}
    (h : noteAssetIndex zsa base = some a) (hzec : asAsset base ≠ zecKey) :
    a = zsa.idxOf (asAsset base) + 1 ∧ asAsset base ∈ zsa := by
  have hmem := (List.mem_cons.1 (mem_of_noteAssetIndex h)).resolve_left hzec
  have hlt := List.idxOf_lt_length_iff.2 hmem
  unfold noteAssetIndex zsaIndex at h
  rw [if_neg hzec, if_pos hmem, Option.some_inj, Nat.mod_eq_of_lt (by omega)] at h
  exact ⟨h.symm, hmem⟩

theorem noteAssetIndex_inj (hlen : zsa.length < 255) {x y : Bytes} {a : ℕ}
    (hx : noteAssetIndex zsa x = some a) (hy : noteAssetIndex zsa y = some a) :
    asAsset x = asAsset y := by
  by_cases hzx : asAsset x = zecKey
  · rw [noteAssetIndex_zec hzx, Option.some_inj] at hx
    subst hx
    by_contra hne
    have hzy : asAsset y ≠ zecKey := fun h => hne (hzx.trans h.symm)
    have := (noteAssetIndex_pos hlen hy hzy).1
    omega
  · obtain ⟨hax, hmx⟩ := noteAssetIndex_pos hlen hx hzx
    by_cases hzy : asAsset y = zecKey
    · rw [noteAssetIndex_zec hzy, Option.some_inj] at hy
      omega
    · obtain ⟨hay, hmy⟩ := noteAssetIndex_pos hlen hy hzy
      exact (List.idxOf_inj hmx).1 (by omega)

theorem noteAssetIndex_congr {x y : Bytes} (h : asAsset x = asAsset y) :
    noteAssetIndex zsa x = noteAssetIndex zsa y := by
  unfold noteAssetIndex
  rw [h]

theorem resolveAssetIndex_eq {base : Bytes} {a : ℕ} (h : noteAssetIndex zsa base = some a) :
    resolveAssetIndex zsa base = a := by
  unfold noteAssetIndex at h
  unfold resolveAssetIndex
  split at h
  · rename_i hzec
    rw [if_pos hzec]
    exact Option.some_inj.1 h
  · rename_i hzec
    rw [if_neg hzec, h]
    rfl

end Assets

/-! ### Recipients -/

section Recipients
variable {receiver : String → Except String ℕ} {recipients : List Recipient}
  {decomposed : List DecomposedRecipient}

theorem decompose_ok {r : Recipient} {d : DecomposedRecipient} (h : decompose receiver r = .ok d) :
    (d.amount, d.assetBase) = (r.amount, recipientBase r.assetBase) := by
  unfold decompose at h
  split at h
  · cases h
  · cases h
    rfl

theorem decompose_map (h : recipients.mapM (decompose receiver) = .ok decomposed) :
    (decomposed.map fun d => (d.amount, d.assetBase)) =
      recipients.map fun r => (r.amount, recipientBase r.assetBase) :=
  mapM_ok_map (fun r : Recipient => (r.amount, recipientBase r.assetBase))
    (fun d : DecomposedRecipient => (d.amount, d.assetBase)) (fun _ _ hd => decompose_ok hd) h

def asked (decomposed : List DecomposedRecipient) (asset : Bytes) : ℕ :=
  sumOf (fun d : DecomposedRecipient => asAsset d.assetBase) DecomposedRecipient.amount decomposed asset

theorem sumU64_from {xs : List ℕ} {b n : ℕ}
    (h : xs.foldlM (fun sum x => Solve.u64 (sum + x)) b = .ok n) : n = b + xs.sum := by
  induction xs generalizing b with
  | nil =>
    cases h
    rfl
  | cons x xs ih =>
    rw [List.foldlM_cons] at h
    obtain ⟨c, hc, h⟩ := bind_eq_ok.1 h
    unfold Solve.u64 at hc
    split at hc
    · cases hc
      rw [ih h, List.sum_cons, Nat.add_assoc]
    · cases hc

theorem sumU64_eq {xs : List ℕ} {n : ℕ} (h : sumU64 xs = .ok n) : n = xs.sum := by
  rw [sumU64_from h, Nat.zero_add]

theorem asAsset_eq_iff {base asset : Bytes} (hne : asset ≠ zecKey) (hlen : asset.length = 32) :
    base = asset ↔ asAsset base = asset := by
  unfold asAsset
  split
  · rfl
  · rename_i hbase
    exact ⟨fun h => absurd (h ▸ hlen) hbase, fun h => absurd h.symm hne⟩

theorem zsaNeeded_eq {asset : Bytes} {n : ℕ} (hmem : asset ∈ zsaAssetsOf decomposed)
    (h : zsaNeeded decomposed asset = .ok n) : n = asked decomposed asset := by
  obtain ⟨-, hne, hlen⟩ := mem_zsaAssetsOf.1 hmem
  rw [sumU64_eq h]
  exact sumOf_congr fun d _ => asAsset_eq_iff hne hlen

end Recipients

/-! ### What a plan spends of an asset -/

def Plan.allMarked (plan : Plan) : List InputNote := (List.range numPools).flatMap plan.marked

def Plan.valueIn (plan : Plan) (asset : Bytes) : ℕ :=
  sumOf (fun n : InputNote => asAsset n.assetBase) InputNote.amount plan.spends asset

section Spent
variable {zsa : List Bytes} {plan : Plan} {r : Solve.Request} {asset : Bytes}

/-- Assets other than ZEC live in Orchard. -/
def OrchardOnly (inputPools : List (List InputNote)) : Prop :=
  ∀ p notes, inputPools[p]? = some notes → ∀ n ∈ notes, asAsset n.assetBase ≠ zecKey → p = 2

theorem spends_eq_filter (plan : Plan) : plan.spends = plan.allMarked.filter fun n => n.amount ≠ 0 := by
  unfold Plan.spends Plan.allMarked
  rw [List.filter_flatMap]
  rfl

theorem valueIn_eq_marked (plan : Plan) (asset : Bytes) : plan.valueIn asset =
    sumOf (fun n : InputNote => asAsset n.assetBase) InputNote.amount plan.allMarked asset := by
  unfold Plan.valueIn
  rw [spends_eq_filter]
  exact sumOf_filter fun n _ hn => by simpa using hn

theorem allMarked_perm
    (h : Solve.Selected r (selectNotesInput zsa plan.inputPools) plan.selection) :
    (plan.allMarked.map fun n => (n.amount, noteAssetIndex zsa n.assetBase)).Perm
      (plan.selection.inputs.map fun x => (x.amount, some x.assetIndex)) := by
  have hparts : ((List.range numPools).flatMap fun p =>
      plan.selection.inputs.filter fun x => x.pool = p).Perm plan.selection.inputs :=
    flatMap_filter_perm List.nodup_range fun x hx => List.mem_range.2 (h.pools x hx)
  unfold Plan.allMarked
  rw [List.map_flatMap]
  refine (List.Perm.flatMap_left _ fun p _ => marked_selected h p).trans ?_
  rw [← List.map_flatMap]
  exact hparts.map _

theorem asAsset_mem_of_marked
    (h : Solve.Selected r (selectNotesInput zsa plan.inputPools) plan.selection) {n : InputNote}
    (hn : n ∈ plan.allMarked) :
    ∃ a, noteAssetIndex zsa n.assetBase = some a ∧ asAsset n.assetBase ∈ zecKey :: zsa := by
  have hmem : (n.amount, noteAssetIndex zsa n.assetBase) ∈ plan.selection.inputs.map fun x =>
      (x.amount, some x.assetIndex) :=
    (allMarked_perm h).subset (List.mem_map_of_mem (f := fun n : InputNote =>
      (n.amount, noteAssetIndex zsa n.assetBase)) hn)
  obtain ⟨x, -, hx⟩ := List.mem_map.1 hmem
  have hidx := (Prod.mk.inj hx).2.symm
  exact ⟨x.assetIndex, hidx, mem_of_noteAssetIndex hidx⟩

theorem valueIn_eq_index (hlen : zsa.length < 255)
    (h : Solve.Selected r (selectNotesInput zsa plan.inputPools) plan.selection) {a : ℕ}
    (ha : noteAssetIndex zsa asset = some a) (hasset : asAsset asset = asset) :
    plan.valueIn asset = Solve.Request.valueIn plan.selection.inputs a := by
  have hindex : ∀ n ∈ plan.allMarked, asAsset n.assetBase = asset ↔
      noteAssetIndex zsa n.assetBase = some a := by
    intro n _
    constructor
    · intro hn
      rw [noteAssetIndex_congr (hn.trans hasset.symm), ha]
    · exact fun hn => (noteAssetIndex_inj hlen hn ha).trans hasset
  have hpairs := @sumOf_map _ _ _ _ Prod.snd Prod.fst (some a)
    (fun n : InputNote => (n.amount, noteAssetIndex zsa n.assetBase)) plan.allMarked
  have hinputs := @sumOf_map _ _ _ _ Prod.snd Prod.fst (some a)
    (fun x : Solve.Note => (x.amount, some x.assetIndex)) plan.selection.inputs
  rw [valueIn_eq_marked, sumOf_congr hindex, ← hpairs, sumOf_perm (allMarked_perm h), hinputs]
  exact sumOf_congr fun x _ => Option.some_inj

theorem valueIn_eq_zero (h : Solve.Selected r (selectNotesInput zsa plan.inputPools) plan.selection)
    (hasset : asset ∉ zecKey :: zsa) : plan.valueIn asset = 0 := by
  rw [valueIn_eq_marked]
  refine sumOf_eq_zero fun n hn heq => hasset ?_
  obtain ⟨a, -, hmem⟩ := asAsset_mem_of_marked h hn
  rwa [heq] at hmem

theorem sum_valueIn (h : Solve.Selected r (selectNotesInput zsa plan.inputPools) plan.selection)
    (hnodup : (zecKey :: zsa).Nodup) :
    ((zecKey :: zsa).map plan.valueIn).sum = (plan.selection.inputs.map Solve.Note.amount).sum := by
  have hamounts := ((allMarked_perm h).map Prod.fst).sum_eq
  rw [List.map_map, List.map_map] at hamounts
  have hkeys := @sum_sumOf _ _ _ _ InputNote.amount _ _ hnodup fun n hn =>
    (asAsset_mem_of_marked h hn).choose_spec.2
  rw [funext (valueIn_eq_marked plan), hkeys]
  exact hamounts

theorem valueIn_eq_orchard (horchard : OrchardOnly plan.inputPools) (hne : asset ≠ zecKey) :
    plan.valueIn asset = sumOf (fun n : InputNote => asAsset n.assetBase) InputNote.amount
      (plan.marked 2) asset := by
  have hother : ∀ p, p ≠ 2 → sumOf (fun n : InputNote => asAsset n.assetBase) InputNote.amount
      (plan.marked p) asset = 0 := by
    intro p hp
    refine sumOf_eq_zero fun n hn heq => hp ?_
    obtain ⟨⟨m, i⟩, hm, rfl⟩ := List.mem_map.1 hn
    have hget := List.mem_zipIdx_iff_getElem?.1 (List.mem_of_mem_filter hm)
    unfold Plan.pool at hget
    cases hnotes : plan.inputPools[p]? with
    | none =>
      rw [hnotes] at hget
      cases hget
    | some notes =>
      rw [hnotes, Option.getD_some] at hget
      exact horchard p notes hnotes m (List.mem_of_getElem? hget) (by rw [heq]; exact hne)
  have hrange : List.range numPools = [0, 1, 2, 3] := rfl
  rw [valueIn_eq_marked, Plan.allMarked, sumOf_flatMap, hrange]
  simp only [List.map_cons, List.map_nil, List.sum_cons, List.sum_nil, hother 0 (by decide),
    hother 1 (by decide), hother 3 (by decide), Nat.zero_add, Nat.add_zero]

theorem zsaSelected_eq
    (h : Solve.Selected r (selectNotesInput zsa plan.inputPools) plan.selection) {n : ℕ}
    (hsel : zsaSelected plan.inputPools (plan.selection.perPoolIndices 2) asset = .ok n) :
    n = sumOf (fun n : InputNote => asAsset n.assetBase) InputNote.amount (plan.marked 2) asset := by
  unfold zsaSelected at hsel
  obtain ⟨notes, hnotes, hsum⟩ := bind_eq_ok.1 hsel
  have hplaces : notes.map some = (plan.selection.perPoolIndices 2).map fun i =>
      (plan.pool 2)[i]? := by
    refine mapM_ok_map (fun i => (plan.pool 2)[i]?) some (fun i m hm => ?_) hnotes
    unfold Plan.pool
    cases hpool : plan.inputPools[2]? with
    | none =>
      rw [hpool] at hm
      cases hm
    | some pool =>
      rw [hpool] at hm
      dsimp only [Option.bind_some] at hm
      rw [Option.getD_some]
      split at hm
      · rename_i m' hget
        cases hm
        exact hget.symm
      · cases hm
  have hlt : ∀ i ∈ plan.selection.perPoolIndices 2, i < (plan.pool 2).length := by
    intro i hi
    have hmem : (plan.pool 2)[i]? ∈ notes.map some := hplaces ▸ List.mem_map_of_mem hi
    obtain ⟨x, -, hx⟩ := List.mem_map.1 hmem
    exact (List.getElem?_eq_some_iff.1 hx.symm).1
  have hperm := marked_perm (plan.pool 2) (perPoolIndices_nodup h 2) hlt
  rw [filterMap_of_map hplaces.symm] at hperm
  rw [sumU64_eq hsum]
  exact (@sumOf_perm _ _ _ (fun n : InputNote => asAsset n.assetBase) _ _ _ _ hperm).symm

end Spent

/-! ### What a plan pays of an asset -/

/-- What is paid of an asset, with what is returned of other assets than ZEC. -/
def Plan.valueOut (plan : Plan) (asset : Bytes) : ℕ :=
  sumOf (fun s : RecipientState => asAsset s.assetBase) RecipientState.amount plan.states asset

def fullStates (args : PlanArgs) (decomposed : List DecomposedRecipient)
    (changes : List RecipientState) : List RecipientState :=
  ((args.recipients.zip decomposed).map fun p =>
    ⟨p.2.address, p.2.amount, poolPref p.1 p.2, p.2.assetBase⟩) ++ changes

section Settled
variable {receiver : String → Except String ℕ} {args : PlanArgs} {inputPools : List (List InputNote)} {plan : Plan}
  {decomposed : List DecomposedRecipient} {selection : Solve.Selection} {zsa : List Bytes}
  {changes : List RecipientState}

/-- What a settled plan is made of. -/
structure Settled (args : PlanArgs) (decomposed : List DecomposedRecipient) (zsa : List Bytes)
    (changes : List RecipientState) (plan : Plan) : Prop where
  returned : zsaChanges plan.inputPools (plan.selection.perPoolIndices 2) decomposed zsa = .ok changes
  fee : plan.fee = plan.selection.fee + issuanceFee args.issuance
  states : plan.states = deductFee args.recipientPaysFee plan.fee (fullStates args decomposed changes)
  change : plan.change = (plan.selection.inputs.map Solve.Note.amount).sum -
    ((plan.states.map RecipientState.amount).sum + plan.fee)

theorem settlePlan_ok (h : settlePlan args inputPools decomposed zsa selection = .ok plan) :
    plan.inputPools = inputPools ∧ plan.selection = selection ∧
      ∃ changes, Settled args decomposed zsa changes plan := by
  unfold settlePlan at h
  dsimp only at h
  obtain ⟨changes, hchanges, h⟩ := bind_eq_ok.1 h
  obtain ⟨fee, hfee, h⟩ := bind_eq_ok.1 h
  obtain ⟨totalOutput, hout, h⟩ := bind_eq_ok.1 h
  obtain ⟨totalInput, hin, h⟩ := bind_eq_ok.1 h
  obtain ⟨spent, hspent, h⟩ := bind_eq_ok.1 h
  cases h
  refine ⟨rfl, rfl, changes, hchanges, Solve.u64_eq hfee, rfl, ?_⟩
  dsimp only
  rw [sumU64_eq hin, Solve.u64_eq hspent, sumU64_eq hout]

theorem settlePlan_changePool (h : settlePlan args inputPools decomposed zsa selection = .ok plan) :
    plan.changePool = if hasZsa args decomposed then 2 else plan.selection.changePool := by
  unfold settlePlan at h
  dsimp only at h
  obtain ⟨changes, -, h⟩ := bind_eq_ok.1 h
  obtain ⟨fee, -, h⟩ := bind_eq_ok.1 h
  obtain ⟨totalOutput, -, h⟩ := bind_eq_ok.1 h
  obtain ⟨totalInput, -, h⟩ := bind_eq_ok.1 h
  obtain ⟨spent, -, h⟩ := bind_eq_ok.1 h
  cases h
  rfl

/-! ### Change of other assets -/

variable {r : Solve.Request}

def returnedOf (plan : Plan) (decomposed : List DecomposedRecipient) (asset : Bytes) :
    List RecipientState :=
  if asked decomposed asset < plan.valueIn asset then
    [⟨"", plan.valueIn asset - asked decomposed asset, 2, asset⟩] else []

theorem changes_eq
    (h : Solve.Selected r (selectNotesInput (zsaAssetsOf decomposed) plan.inputPools) plan.selection)
    (horchard : OrchardOnly plan.inputPools)
    (hok : zsaChanges plan.inputPools (plan.selection.perPoolIndices 2) decomposed
      (zsaAssetsOf decomposed) = .ok changes) :
    changes = (zsaAssetsOf decomposed).flatMap (returnedOf plan decomposed) := by
  refine flatMapM_ok_flatMap (fun asset hasset xs hxs => ?_) hok
  obtain ⟨selected, hselected, hxs⟩ := bind_eq_ok.1 hxs
  obtain ⟨needed, hneeded, hxs⟩ := bind_eq_ok.1 hxs
  cases hxs
  have hne := (mem_zsaAssetsOf.1 hasset).2.1
  rw [zsaSelected_eq h hselected, ← valueIn_eq_orchard horchard hne, zsaNeeded_eq hasset hneeded]
  rfl

theorem sumOf_returned (plan : Plan) {asset : Bytes} (hasset : asset ∈ zsaAssetsOf decomposed)
    (b : Bytes) :
    sumOf (fun s : RecipientState => asAsset s.assetBase) RecipientState.amount
      (returnedOf plan decomposed asset) b =
        if asset = b then plan.valueIn asset - asked decomposed asset else 0 := by
  have hbase : asAsset asset = asset := asAsset_of_mem (List.mem_cons_of_mem _ hasset)
  unfold returnedOf
  split
  · rw [sumOf_cons, sumOf_nil, Nat.add_zero]
    dsimp only
    rw [hbase]
  · rw [sumOf_nil]
    split <;> omega

/-- Exactly what is left of an asset is returned, and nothing of ZEC. -/
theorem sumOf_changes (plan : Plan) (b : Bytes) :
    sumOf (fun s : RecipientState => asAsset s.assetBase) RecipientState.amount
      ((zsaAssetsOf decomposed).flatMap (returnedOf plan decomposed)) b =
        if b ∈ zsaAssetsOf decomposed then plan.valueIn b - asked decomposed b else 0 := by
  rw [sumOf_flatMap, List.map_congr_left fun asset hasset => sumOf_returned plan hasset b]
  have hsum := sum_map_single (zsaAssetsOf_nodup decomposed) b fun asset =>
    plan.valueIn asset - asked decomposed asset
  by_cases hb : b ∈ zsaAssetsOf decomposed
  · rw [if_pos hb]
    exact hsum.trans (if_pos hb)
  · rw [if_neg hb]
    exact hsum.trans (if_neg hb)

/-! ### Outputs -/

theorem sumOf_outputs (hdec : decomposed.length = args.recipients.length) (b : Bytes) :
    sumOf (fun s : RecipientState => asAsset s.assetBase) RecipientState.amount
      (fullStates args decomposed changes) b = asked decomposed b +
        sumOf (fun s : RecipientState => asAsset s.assetBase) RecipientState.amount changes b := by
  have hzip : (args.recipients.zip decomposed).map Prod.snd = decomposed :=
    List.map_snd_zip hdec.le
  unfold fullStates asked
  rw [sumOf_append, sumOf_map]
  conv_rhs => rw [← hzip, sumOf_map]

theorem total_outputs (hdec : decomposed.length = args.recipients.length) :
    ((fullStates args decomposed changes).map RecipientState.amount).sum =
      (decomposed.map DecomposedRecipient.amount).sum + (changes.map RecipientState.amount).sum := by
  have hzip : (args.recipients.zip decomposed).map Prod.snd = decomposed :=
    List.map_snd_zip hdec.le
  unfold fullStates
  rw [List.map_append, List.sum_append]
  conv_rhs => rw [← hzip]
  rw [List.map_map, List.map_map]
  rfl

theorem sum_asked (decomposed : List DecomposedRecipient) :
    ((planAssets decomposed).map (asked decomposed)).sum =
      (decomposed.map DecomposedRecipient.amount).sum :=
  sum_sumOf (planAssets_nodup decomposed) fun _ hd => asAsset_mem_planAssets hd

def planRequest (args : PlanArgs) (decomposed : List DecomposedRecipient) : Solve.Request where
  outputs := selectOutputs (zsaAssetsOf decomposed)
    ((args.recipients.zip decomposed).map fun p => (poolPref p.1 p.2, p.2))
  migration := args.migration
  recipientPaysFee := args.recipientPaysFee
  firstRecipientAmount := (args.recipients.head?.map Recipient.amount).getD 0

theorem valueOut_eq_asked (hdec : decomposed.length = args.recipients.length)
    (hlen : (zsaAssetsOf decomposed).length < 255) {b : Bytes} {a : ℕ}
    (ha : noteAssetIndex (zsaAssetsOf decomposed) b = some a) (hb : asAsset b = b) :
    (planRequest args decomposed).valueOut a = asked decomposed b := by
  have hzip : (args.recipients.zip decomposed).map Prod.snd = decomposed :=
    List.map_snd_zip hdec.le
  have hindex : ∀ d ∈ decomposed,
      resolveAssetIndex (zsaAssetsOf decomposed) d.assetBase = a ↔ asAsset d.assetBase = b := by
    intro d hd
    obtain ⟨c, hc⟩ := exists_noteAssetIndex (asAsset_mem_planAssets hd)
    rw [resolveAssetIndex_eq hc]
    constructor
    · rintro rfl
      exact (noteAssetIndex_inj hlen hc ha).trans hb
    · intro hbase
      rw [noteAssetIndex_congr (hbase.trans hb.symm), ha] at hc
      exact (Option.some_inj.1 hc).symm
  have hparts := @sumOf_map _ _ _ _
    (fun d => resolveAssetIndex (zsaAssetsOf decomposed) d.assetBase) DecomposedRecipient.amount a
    Prod.snd
    (args.recipients.zip decomposed)
  rw [hzip, sumOf_congr hindex] at hparts
  change sumOf Solve.Output.assetIndex Solve.Output.amount (selectOutputs _ _) a = _
  unfold selectOutputs asked
  rw [sumOf_map, sumOf_map, hparts]

/-! ### The fee of the recipient -/

def payerAsset (args : PlanArgs) : Bytes :=
  asAsset (recipientBase ((args.recipients.head?.map Recipient.assetBase).getD []))

def deducted (args : PlanArgs) (fee : ℕ) : ℕ :=
  if args.recipientPaysFee then min ((args.recipients.head?.map Recipient.amount).getD 0) fee else 0

theorem deductFee_cons (pays : Bool) (fee : ℕ) (first : RecipientState)
    (rest : List RecipientState) : deductFee pays fee (first :: rest) =
      { first with amount := first.amount - if pays then fee else 0 } :: rest := by
  unfold deductFee
  cases pays <;> rfl

theorem deductFee_false (fee : ℕ) (states : List RecipientState) :
    deductFee false fee states = states := by
  cases states <;> rfl

theorem fullStates_cons (hdec : args.recipients.mapM (decompose receiver) = .ok decomposed)
    (hne : args.recipients ≠ []) (changes : List RecipientState) :
    ∃ first rest, fullStates args decomposed changes = first :: rest ∧
      asAsset first.assetBase = payerAsset args ∧
      first.amount = (args.recipients.head?.map Recipient.amount).getD 0 := by
  unfold fullStates payerAsset
  cases hrec : args.recipients with
  | nil => exact absurd hrec hne
  | cons r rs =>
    rw [hrec] at hdec
    obtain ⟨d, ds, hd, -, rfl⟩ := (mapM_cons_ok _ r rs decomposed).1 hdec
    have hpair := Prod.mk.inj (decompose_ok hd)
    rw [List.zip_cons_cons, List.map_cons, List.cons_append]
    exact ⟨_, _, rfl, congrArg asAsset hpair.2, hpair.1⟩

/-- What the first recipient is left with, and what is taken from it. -/
theorem amount_deducted (args : PlanArgs) (fee amount : ℕ)
    (hfirst : amount = (args.recipients.head?.map Recipient.amount).getD 0) :
    amount - (if args.recipientPaysFee then fee else 0) + deducted args fee = amount := by
  unfold deducted
  rw [← hfirst]
  split <;> omega

theorem sumOf_deductFee (hdec : args.recipients.mapM (decompose receiver) = .ok decomposed)
    (hpayer : args.recipientPaysFee = true → args.recipients ≠ []) (fee : ℕ) (b : Bytes) :
    sumOf (fun s : RecipientState => asAsset s.assetBase) RecipientState.amount
        (deductFee args.recipientPaysFee fee (fullStates args decomposed changes)) b +
      (if payerAsset args = b then deducted args fee else 0) =
    sumOf (fun s : RecipientState => asAsset s.assetBase) RecipientState.amount
      (fullStates args decomposed changes) b := by
  cases hpays : args.recipientPaysFee with
  | false =>
    unfold deducted
    rw [deductFee_false, hpays, if_neg Bool.false_ne_true, ite_self, Nat.add_zero]
  | true =>
    obtain ⟨first, rest, hfull, hasset, hamount⟩ := fullStates_cons hdec (hpayer hpays) changes
    have hleft := amount_deducted args fee first.amount hamount
    rw [hpays] at hleft
    rw [hfull, deductFee_cons, sumOf_cons, sumOf_cons]
    dsimp only
    rw [hasset]
    split <;> omega

theorem total_deductFee (hdec : args.recipients.mapM (decompose receiver) = .ok decomposed)
    (hpayer : args.recipientPaysFee = true → args.recipients ≠ []) (fee : ℕ) :
    ((deductFee args.recipientPaysFee fee (fullStates args decomposed changes)).map
        RecipientState.amount).sum + deducted args fee =
      ((fullStates args decomposed changes).map RecipientState.amount).sum := by
  cases hpays : args.recipientPaysFee with
  | false =>
    unfold deducted
    rw [deductFee_false, hpays, if_neg Bool.false_ne_true, Nat.add_zero]
  | true =>
    obtain ⟨first, rest, hfull, -, hamount⟩ := fullStates_cons hdec (hpayer hpays) changes
    have hleft := amount_deducted args fee first.amount hamount
    rw [hpays] at hleft
    rw [hfull, deductFee_cons, List.map_cons, List.map_cons, List.sum_cons, List.sum_cons]
    dsimp only
    omega

end Settled

/-! ### The balance of a plan -/

/-- How a plan came about. -/
structure Planned (args : PlanArgs) (decomposed : List DecomposedRecipient) (plan : Plan) : Prop where
  recipients : ∃ receiver, args.recipients.mapM (decompose receiver) = .ok decomposed
  selected : Solve.Selected (planRequest args decomposed)
    (selectNotesInput (zsaAssetsOf decomposed) plan.inputPools) plan.selection
  settled : ∃ changes, Settled args decomposed (zsaAssetsOf decomposed) changes plan
  orchard : OrchardOnly plan.inputPools
  few : (zsaAssetsOf decomposed).length < 255

section Balance
variable {args : PlanArgs} {decomposed : List DecomposedRecipient} {plan : Plan}

theorem Planned.length (h : Planned args decomposed plan) :
    decomposed.length = args.recipients.length := by
  obtain ⟨receiver, hdec⟩ := h.recipients
  have hlen := congrArg List.length (decompose_map hdec)
  rwa [List.length_map, List.length_map] at hlen

theorem Planned.index (h : Planned args decomposed plan) {b : Bytes} (hb : b ∈ planAssets decomposed) :
    ∃ a, noteAssetIndex (zsaAssetsOf decomposed) b = some a ∧
      plan.valueIn b = Solve.Request.valueIn plan.selection.inputs a ∧
      (planRequest args decomposed).valueOut a = asked decomposed b := by
  have hasset := asAsset_of_mem hb
  obtain ⟨a, ha⟩ := @exists_noteAssetIndex (zsaAssetsOf decomposed) b
    (by rw [hasset]; exact hb)
  exact ⟨a, ha, valueIn_eq_index h.few h.selected ha hasset,
    valueOut_eq_asked h.length h.few ha hasset⟩

theorem Planned.zec (h : Planned args decomposed plan) :
    plan.valueIn zecKey = Solve.Request.valueIn plan.selection.inputs 0 ∧
      (planRequest args decomposed).valueOut 0 = asked decomposed zecKey := by
  obtain ⟨a, ha, hin, hout⟩ := h.index (List.mem_cons_self ..)
  have hzero : noteAssetIndex (zsaAssetsOf decomposed) zecKey = some 0 := noteAssetIndex_zec rfl
  rw [hzero, Option.some_inj] at ha
  rw [ha]
  exact ⟨hin, hout⟩

theorem Planned.covered (h : Planned args decomposed plan) {b : Bytes}
    (hb : b ∈ zsaAssetsOf decomposed) : asked decomposed b ≤ plan.valueIn b := by
  have hmem : b ∈ planAssets decomposed := List.mem_cons_of_mem _ hb
  obtain ⟨a, ha, hin, hout⟩ := h.index hmem
  have hne : asAsset b ≠ zecKey := by
    rw [asAsset_of_mem hmem]
    exact (mem_zsaAssetsOf.1 hb).2.1
  have hpos := (noteAssetIndex_pos h.few ha hne).1
  rw [hin, ← hout]
  exact h.selected.pays.assets a (by omega)

theorem fee_ge (r : Solve.Request) (xs : List Solve.Note) (cp : ℕ) :
    10000 ≤ r.fee xs cp := by
  unfold Solve.Request.fee Solve.Request.logicalActions Solve.costPerAction
  omega

theorem Planned.fee_pos (h : Planned args decomposed plan) : 10000 ≤ plan.selection.fee := by
  rw [h.selected.fee]
  exact fee_ge _ _ _

theorem Planned.payer (h : Planned args decomposed plan) (hpays : args.recipientPaysFee = true) :
    plan.selection.fee ≤ (args.recipients.head?.map Recipient.amount).getD 0 ∧
      args.recipients ≠ [] := by
  have hle := h.selected.pays.recipient hpays
  rw [← h.selected.fee] at hle
  refine ⟨hle, fun hnil => ?_⟩
  have hpos := h.fee_pos
  change plan.selection.fee ≤ (args.recipients.head?.map Recipient.amount).getD 0 at hle
  rw [hnil, List.head?_nil, Option.map_none, Option.getD_none] at hle
  omega

theorem Planned.valueOut_add (h : Planned args decomposed plan) (b : Bytes) :
    plan.valueOut b + (if payerAsset args = b then deducted args plan.fee else 0) =
      if b ∈ zsaAssetsOf decomposed then plan.valueIn b else asked decomposed b := by
  obtain ⟨receiver, hdec⟩ := h.recipients
  obtain ⟨changes, hset⟩ := h.settled
  have hchanges := changes_eq h.selected h.orchard hset.returned
  unfold Plan.valueOut
  rw [hset.states, sumOf_deductFee hdec fun hpays => (h.payer hpays).2, sumOf_outputs h.length,
    hchanges, sumOf_changes]
  by_cases hb : b ∈ zsaAssetsOf decomposed
  · have hle := h.covered hb
    rw [if_pos hb, if_pos hb]
    omega
  · rw [if_neg hb, if_neg hb, Nat.add_zero]

theorem Planned.total_changes (h : Planned args decomposed plan) :
    (((zsaAssetsOf decomposed).flatMap (returnedOf plan decomposed)).map
        RecipientState.amount).sum + ((zsaAssetsOf decomposed).map (asked decomposed)).sum =
      ((zsaAssetsOf decomposed).map plan.valueIn).sum := by
  have hone : ∀ b ∈ zsaAssetsOf decomposed, ((returnedOf plan decomposed b).map
      RecipientState.amount).sum + asked decomposed b = plan.valueIn b := by
    intro b hb
    have hle := h.covered hb
    unfold returnedOf
    split
    · rw [List.map_singleton, List.sum_singleton]
      dsimp only
      omega
    · rw [List.map_nil, List.sum_nil]
      omega
  rw [sum_flatMap, ← List.sum_map_add, List.map_congr_left hone]

/-- The change is what is left when the recipients, without what is taken from the first, and the
    fee are paid. -/
theorem Planned.change_eq (h : Planned args decomposed plan) :
    plan.change = plan.valueIn zecKey + deducted args plan.fee -
      (asked decomposed zecKey + plan.fee) := by
  obtain ⟨receiver, hdec⟩ := h.recipients
  obtain ⟨changes, hset⟩ := h.settled
  have hin := sum_valueIn h.selected (planAssets_nodup decomposed)
  have hasked := sum_asked decomposed
  have hstates := @total_deductFee _ _ _ changes hdec (fun hpays => (h.payer hpays).2) plan.fee
  rw [← hset.states, total_outputs h.length, changes_eq h.selected h.orchard hset.returned] at hstates
  have hchanges := h.total_changes
  unfold planAssets at hasked
  rw [List.map_cons, List.sum_cons] at hin hasked
  rw [hset.change]
  omega

/-- What is spent of every asset is paid, and of ZEC also returned or the fee. -/
def Plan.Conserves (plan : Plan) : Prop :=
  ∀ asset, plan.valueIn asset =
    plan.valueOut asset + if asset = zecKey then plan.change + plan.fee else 0

theorem Planned.needed (h : Planned args decomposed plan) :
    asked decomposed zecKey + (if args.recipientPaysFee then 0 else plan.selection.fee) ≤
      plan.valueIn zecKey := by
  have hneeded := h.selected.pays.zec
  unfold Solve.Request.needed at hneeded
  rw [h.zec.2, ← h.zec.1, ← h.selected.fee] at hneeded
  change (if args.recipientPaysFee = true then _ else _) ≤ _ at hneeded
  split at hneeded
  · rename_i hpays
    rw [if_pos hpays]
    exact hneeded
  · rename_i hpays
    rw [if_neg hpays]
    exact hneeded

theorem zecKey_notMem (decomposed : List DecomposedRecipient) :
    zecKey ∉ zsaAssetsOf decomposed := fun hmem => (mem_zsaAssetsOf.1 hmem).2.1 rfl

theorem Planned.valueIn_of_ne (h : Planned args decomposed plan) {b : Bytes} (hb : b ≠ zecKey) :
    plan.valueIn b =
      plan.valueOut b + if payerAsset args = b then deducted args plan.fee else 0 := by
  rw [h.valueOut_add]
  by_cases hmem : b ∈ zsaAssetsOf decomposed
  · rw [if_pos hmem]
  · have hnone : b ∉ zecKey :: zsaAssetsOf decomposed := by
      rw [List.mem_cons, not_or]
      exact ⟨hb, hmem⟩
    rw [if_neg hmem, valueIn_eq_zero h.selected hnone]
    refine (sumOf_eq_zero fun d hd heq => hnone ?_).symm
    rw [← heq]
    exact asAsset_mem_planAssets hd

/-- The fee comes from ZEC unless the recipient is to pay it in another asset. -/
theorem Planned.conserves_iff (h : Planned args decomposed plan) (hissue : args.issuance = none) :
    plan.Conserves ↔ ¬ (args.recipientPaysFee = true ∧ payerAsset args ≠ zecKey) := by
  obtain ⟨changes, hset⟩ := h.settled
  have hfee : plan.fee = plan.selection.fee := by
    rw [hset.fee, hissue]
    rfl
  have hpos := h.fee_pos
  have hneeded := h.needed
  have hchange := h.change_eq
  have hout := h.valueOut_add zecKey
  rw [if_neg (zecKey_notMem decomposed)] at hout
  cases hpays : args.recipientPaysFee with
  | false =>
    have hnone : deducted args plan.fee = 0 := by
      unfold deducted
      rw [hpays, if_neg Bool.false_ne_true]
    rw [hnone, ite_self] at hout
    rw [hpays, if_neg Bool.false_ne_true] at hneeded
    refine iff_of_true (fun b => ?_) fun hbad => Bool.false_ne_true hbad.1
    by_cases hb : b = zecKey
    · subst hb
      rw [if_pos rfl]
      omega
    · rw [if_neg hb, h.valueIn_of_ne hb, hnone, ite_self]
  | true =>
    have hfirst := (h.payer hpays).1
    have hded : deducted args plan.fee = plan.fee := by
      unfold deducted
      rw [if_pos hpays, hfee]
      exact min_eq_right hfirst
    rw [hded] at hout hchange
    rw [hpays, if_pos rfl, Nat.add_zero] at hneeded
    by_cases hzec : payerAsset args = zecKey
    · rw [if_pos hzec] at hout
      refine iff_of_true (fun b => ?_) fun hbad => hbad.2 hzec
      by_cases hb : b = zecKey
      · subst hb
        rw [if_pos rfl]
        omega
      · rw [if_neg hb, h.valueIn_of_ne hb, if_neg fun heq => hb (heq.symm.trans hzec)]
    · rw [if_neg hzec] at hout
      refine iff_of_false (fun hcons => ?_) fun hno => hno ⟨rfl, hzec⟩
      have hbal := hcons zecKey
      rw [if_pos rfl] at hbal
      omega

end Balance

/-! ### From the candidates to a plan -/

def poolsTotal (inputPools : List (List InputNote)) : ℕ :=
  (inputPools.map fun notes => (notes.map InputNote.amount).sum).sum

section Candidates
variable {inputPools : List (List InputNote)} {f : List InputNote × ℕ → List InputNote}

theorem sum_amounts_le {l l' : List InputNote} (h : l.Sublist l') :
    (l.map InputNote.amount).sum ≤ (l'.map InputNote.amount).sum :=
  (h.map _).sum_le_sum fun _ _ => Nat.zero_le _

theorem poolsTotal_map_le (hf : ∀ p, (f p).Sublist p.1) :
    poolsTotal (inputPools.zipIdx.map f) ≤ poolsTotal inputPools := by
  unfold poolsTotal
  rw [List.map_map]
  conv_rhs => rw [← List.zipIdx_map_fst 0 inputPools, List.map_map]
  exact List.sum_le_sum fun p _ => sum_amounts_le (hf p)

theorem OrchardOnly.map (h : OrchardOnly inputPools) (hf : ∀ p, (f p).Sublist p.1) :
    OrchardOnly (inputPools.zipIdx.map f) := by
  intro p notes hnotes n hn hne
  rw [List.getElem?_map, Option.map_eq_some_iff] at hnotes
  obtain ⟨⟨pool, i⟩, hget, rfl⟩ := hnotes
  rw [List.getElem?_zipIdx, Option.map_eq_some_iff] at hget
  obtain ⟨pool', hpool, heq⟩ := hget
  cases heq
  exact h p pool hpool n ((hf _).subset hn) hne

def StoredInOrchard (inputPools : List (List InputNote)) : Prop :=
  ∀ notes ∈ inputPools, ∀ n ∈ notes, asAsset n.assetBase ≠ zecKey → n.pool = 2

theorem StoredInOrchard.map (h : StoredInOrchard inputPools) (hf : ∀ p, (f p).Sublist p.1) :
    StoredInOrchard (inputPools.zipIdx.map f) := by
  intro notes hnotes n hn hne
  obtain ⟨p, hp, rfl⟩ := List.mem_map.1 hnotes
  exact h p.1 (List.fst_mem_of_mem_zipIdx hp) n ((hf p).subset hn) hne

theorem map_eq_zipIdx_map (g : List InputNote → List InputNote) :
    inputPools.map g = inputPools.zipIdx.map fun p => g p.1 := by
  conv_lhs => rw [← List.zipIdx_map_fst 0 inputPools, List.map_map]
  rfl

theorem sum_selectNotesInput_le (zsa : List Bytes) (inputPools : List (List InputNote)) :
    ((selectNotesInput zsa inputPools).map Solve.Note.amount).sum ≤ poolsTotal inputPools := by
  have hpool : ∀ p : List InputNote × ℕ, ((poolNotes zsa p.1 p.2).map Solve.Note.amount).sum ≤
      (p.1.map InputNote.amount).sum := by
    intro p
    rw [poolNotes_amounts]
    exact sum_amounts_le List.filter_sublist
  unfold selectNotesInput poolsTotal
  rw [sum_flatMap]
  conv_rhs => rw [← List.zipIdx_map_fst 0 inputPools, List.map_map]
  exact List.sum_le_sum fun p _ => hpool p

end Candidates

section Plans
variable {receiver : String → Except String ℕ} {budget : Solve.Budget} {args : PlanArgs}
  {inputPools : List (List InputNote)} {plan : Plan}

theorem few_assets {decomposed : List DecomposedRecipient}
    (hdec : decomposed.length = args.recipients.length)
    (h : (((planRequest args decomposed).outputs.map Solve.Output.assetIndex).max?).getD 0 + 1 <
      2 ^ 8) : (zsaAssetsOf decomposed).length < 255 := by
  by_contra hmany
  rw [Nat.not_lt] at hmany
  have hget := List.getElem_mem (l := zsaAssetsOf decomposed) (n := 254) (by omega)
  obtain ⟨⟨d, hd, hbase⟩, hne, hlen⟩ := mem_zsaAssetsOf.1 hget
  have hzip : (args.recipients.zip decomposed).map Prod.snd = decomposed :=
    List.map_snd_zip hdec.le
  have hindex : resolveAssetIndex (zsaAssetsOf decomposed) d.assetBase = 255 := by
    have hasset : asAsset d.assetBase = d.assetBase := if_pos (by rw [hbase]; exact hlen)
    unfold resolveAssetIndex zsaIndex
    rw [hasset, hbase, if_neg hne, if_pos hget,
      (zsaAssetsOf_nodup decomposed).idxOf_getElem 254 (by omega)]
    rfl
  rw [← hzip] at hd
  obtain ⟨p, hp, rfl⟩ := List.mem_map.1 hd
  have hmem : 255 ∈ (planRequest args decomposed).outputs.map Solve.Output.assetIndex := by
    unfold planRequest selectOutputs
    rw [List.map_map, List.map_map]
    exact List.mem_map.2 ⟨p, hp, hindex⟩
  have hle := List.le_max?_getD_of_mem (k := 0) hmem
  omega

theorem orPanic_ok {α : Type} {x : Except Solve.Fault α} {a : α} :
    orPanic x = .ok a ↔ x = .ok a := by
  cases x with
  | error e => exact ⟨fun h => (by cases h), fun h => by cases h⟩
  | ok b => exact ⟨fun h => (by cases h; rfl), fun h => (by cases h; rfl)⟩

def selectFor (budget : Solve.Budget) (args : PlanArgs) (inputPools : List (List InputNote))
    (decomposed : List DecomposedRecipient) : Except Solve.Fault (Option Solve.Selection) :=
  Solve.selectNotes (selectNotesInput (zsaAssetsOf decomposed) (dropZecDust inputPools))
    (planRequest args decomposed).outputs Solve.costPerAction args.migration args.recipientPaysFee
    (planRequest args decomposed).firstRecipientAmount budget

theorem draftTransaction_ok (h : draftTransaction receiver budget args inputPools = .ok plan) :
    ∃ decomposed sel, args.recipients.mapM (decompose receiver) = .ok decomposed ∧
      selectFor budget args inputPools decomposed = .ok (some sel) ∧
      settlePlan args (dropZecDust inputPools) decomposed (zsaAssetsOf decomposed) sel = .ok plan := by
  unfold draftTransaction at h
  obtain ⟨decomposed, hdec, h⟩ := bind_eq_ok.1 h
  split at h
  · cases h
  · obtain ⟨found, hfound, h⟩ := bind_eq_ok.1 h
    cases found with
    | none => cases h
    | some sel =>
      exact ⟨decomposed, sel, hdec, orPanic_ok.1 hfound, orPanic_ok.1 h⟩

/-- A plan that is returned was planned from what is left of the candidates. -/
theorem planned_of_ok (h : draftTransaction receiver budget args inputPools = .ok plan)
    (horchard : OrchardOnly inputPools) (hin : poolsTotal inputPools < 2 ^ 62)
    (hnodes : budget.maxNodes < 2 ^ 62) :
    ∃ decomposed, args.recipients.mapM (decompose receiver) = .ok decomposed ∧
      selectFor budget args inputPools decomposed = .ok (some plan.selection) ∧
      Planned args decomposed plan := by
  obtain ⟨decomposed, sel, hdec, hsel, hsettle⟩ := draftTransaction_ok h
  obtain ⟨hpools, hselection, hsettled⟩ := settlePlan_ok hsettle
  have hdust : dropZecDust inputPools = inputPools.zipIdx.map fun p =>
      p.1.filter fun n => !isZecBase n.assetBase || Solve.costPerAction ≤ n.amount :=
    map_eq_zipIdx_map _
  have htotal : ((selectNotesInput (zsaAssetsOf decomposed) (dropZecDust inputPools)).map
      Solve.Note.amount).sum < 2 ^ 62 := by
    refine (sum_selectNotesInput_le _ _).trans_lt (lt_of_le_of_lt ?_ hin)
    rw [hdust]
    exact poolsTotal_map_le fun p => List.filter_sublist
  obtain ⟨hout, hfew⟩ := Solve.selected_for htotal hsel
  have hlen : decomposed.length = args.recipients.length := by
    have hmap := congrArg List.length (decompose_map hdec)
    rwa [List.length_map, List.length_map] at hmap
  have hsound := (@Solve.selectNotes_spec (fun _ => True) _ _ (planRequest args decomposed) htotal
    (hout.trans_lt htotal) hnodes (Or.inl trivial)
    fun n _ => Or.inl trivial).result hsel
  refine ⟨decomposed, hdec, by rw [hselection]; exact hsel, ⟨receiver, hdec⟩, ?_, hsettled, ?_,
    few_assets hlen hfew⟩
  · rw [hpools, hselection]
    exact hsound.1
  · rw [hpools, hdust]
    exact horchard.map fun p => List.filter_sublist

end Plans

/-! ### From the database -/

section Account
variable {H : Type} [DecidableEq H] {db : Database H} {source : Source} {args args' : PlanArgs}
  {inputPools pools : List (List InputNote)}

/-- Notes of other assets than ZEC are Orchard notes. -/
def AssetsInOrchard (db : Database H) (account : ℕ) : Prop :=
  ∀ n ∈ db.fetchUnspentNotes account, asAsset n.assetBase ≠ zecKey → n.pool = 2

def unspentTotal (db : Database H) (account : ℕ) : ℕ :=
  ((db.fetchUnspentNotes account).map InputNote.amount).sum

theorem fetched_pools {account : ℕ} (h : db.fetchUnspentNotesByPool account = .ok inputPools)
    (horchard : AssetsInOrchard db account) :
    OrchardOnly inputPools ∧ StoredInOrchard inputPools ∧
      poolsTotal inputPools = unspentTotal db account := by
  unfold Database.fetchUnspentNotesByPool at h
  split at h
  · cases h
  · rename_i hnone
    cases h
    rw [List.find?_eq_none] at hnone
    constructor
    · intro p notes hnotes n hn hne
      rw [List.getElem?_map, Option.map_eq_some_iff] at hnotes
      obtain ⟨q, hq, rfl⟩ := hnotes
      obtain ⟨hmem, hpool⟩ := List.mem_filter.1 hn
      have hqp : q = p := by
        obtain ⟨hlt, hget⟩ := List.getElem?_eq_some_iff.1 hq
        rw [List.getElem_range] at hget
        exact hget.symm
      rw [← hqp, ← of_decide_eq_true hpool]
      exact horchard n hmem hne
    constructor
    · intro notes hnotes n hn hne
      obtain ⟨q, -, rfl⟩ := List.mem_map.1 hnotes
      exact horchard n (List.mem_of_mem_filter hn) hne
    · unfold poolsTotal unspentTotal
      rw [List.map_map]
      refine @sum_sumOf _ _ _ InputNote.pool _ _ _ List.nodup_range fun n hn => ?_
      have hlt := hnone n hn
      rw [decide_eq_true_eq, Nat.not_le] at hlt
      exact List.mem_range.2 hlt

theorem pickAddress_sublist (pick : ℕ) (notes : List InputNote) :
    (pickAddress pick notes).Sublist notes := by
  unfold pickAddress
  dsimp only
  split
  · exact List.nil_sublist _
  · exact List.filter_sublist

theorem OrchardOnly.alone {notes : List InputNote} (h : OrchardOnly pools)
    (hsub : notes.Sublist ((pools[0]?).getD [])) : OrchardOnly [notes, [], [], []] := by
  intro p l hl n hn hne
  rcases p with _ | _ | _ | _ | p
  · cases hl
    have hmem := hsub.subset hn
    cases hzero : pools[0]? with
    | none =>
      rw [hzero] at hmem
      cases hmem
    | some pool =>
      rw [hzero, Option.getD_some] at hmem
      exact h 0 pool hzero n hmem hne
  · cases hl
    cases hn
  · cases hl
    cases hn
  · cases hl
    cases hn
  · cases hl

theorem StoredInOrchard.alone {notes : List InputNote} (h : StoredInOrchard pools)
    (hsub : notes.Sublist ((pools[0]?).getD [])) : StoredInOrchard [notes, [], [], []] := by
  intro l hl n hn hne
  have hnotes : n ∈ notes := by
    simp only [List.mem_cons, List.not_mem_nil, or_false] at hl
    rcases hl with rfl | rfl | rfl | rfl
    · exact hn
    all_goals cases hn
  have hmem := hsub.subset hnotes
  cases hzero : pools[0]? with
  | none =>
    rw [hzero] at hmem
    cases hmem
  | some pool =>
    rw [hzero, Option.getD_some] at hmem
    exact h pool (List.mem_of_getElem? hzero) n hmem hne

theorem poolsTotal_alone {notes : List InputNote} (hsub : notes.Sublist ((pools[0]?).getD [])) :
    poolsTotal [notes, [], [], []] ≤ poolsTotal pools := by
  have hone : poolsTotal [notes, [], [], []] = (notes.map InputNote.amount).sum := by
    simp [poolsTotal]
  rw [hone]
  refine (sum_amounts_le hsub).trans ?_
  cases pools with
  | nil => exact Nat.zero_le _
  | cons pool pools => exact Nat.le_add_right _ _

structure Gathered (db : Database H) (source : Source) (args : PlanArgs)
    (pools : List (List InputNote)) (args' : PlanArgs) : Prop where
  orchard : OrchardOnly pools
  stored : StoredInOrchard pools
  total : poolsTotal pools ≤ unspentTotal db source.account
  issuance : args'.issuance = args.issuance
  payer : payerAsset args' = payerAsset args
  pays : args'.recipientPaysFee = true ↔
    args.recipientPaysFee = true ∨ source.smartTransparent.isSome = true

theorem gather_ok (h : gather db source args = .ok (pools, args'))
    (horchard : AssetsInOrchard db source.account) : Gathered db source args pools args' := by
  unfold gather at h
  split at h
  · cases h
  · rename_i fetched hfetch
    obtain ⟨honly, hstored, htotal⟩ := fetched_pools hfetch horchard
    have hrestrict : OrchardOnly (restrictToSourcePools fetched source.srcPools
          (db.confirmedHeight source.account source.confirmations)) ∧
        StoredInOrchard (restrictToSourcePools fetched source.srcPools
          (db.confirmedHeight source.account source.confirmations)) ∧
        poolsTotal (restrictToSourcePools fetched source.srcPools
          (db.confirmedHeight source.account source.confirmations)) ≤
          unspentTotal db source.account := by
      have hsub : ∀ p : List InputNote × ℕ, (if hasPool source.srcPools p.2 then p.1.filter
          fun n => n.height ≤ db.confirmedHeight source.account source.confirmations
          else []).Sublist p.1 := by
        intro p
        split
        · exact List.filter_sublist
        · exact List.nil_sublist _
      exact ⟨honly.map hsub, hstored.map hsub, (poolsTotal_map_le hsub).trans_eq htotal⟩
    have hpre : OrchardOnly (preselect source.preselected (restrictToSourcePools fetched
          source.srcPools (db.confirmedHeight source.account source.confirmations))) ∧
        StoredInOrchard (preselect source.preselected (restrictToSourcePools fetched
          source.srcPools (db.confirmedHeight source.account source.confirmations))) ∧
        poolsTotal (preselect source.preselected (restrictToSourcePools fetched source.srcPools
          (db.confirmedHeight source.account source.confirmations))) ≤
          unspentTotal db source.account := by
      unfold preselect
      split
      · exact hrestrict
      · rw [map_eq_zipIdx_map]
        exact ⟨hrestrict.1.map fun p => List.filter_sublist,
          hrestrict.2.1.map fun p => List.filter_sublist,
          (poolsTotal_map_le fun p => List.filter_sublist).trans hrestrict.2.2⟩
    dsimp only at h
    revert h hpre
    generalize preselect source.preselected (restrictToSourcePools fetched source.srcPools
      (db.confirmedHeight source.account source.confirmations)) = chosen
    intro h hpre
    split at h
    · rename_i hsmart
      cases h
      refine ⟨hpre.1, hpre.2.1, hpre.2.2, rfl, rfl, ?_⟩
      rw [hsmart]
      simp
    · rename_i pick hsmart
      have hsmartOk := orPanic_ok.1 h
      unfold smartTransparent at hsmartOk
      dsimp only at hsmartOk
      obtain ⟨max, -, hok⟩ := bind_eq_ok.1 hsmartOk
      cases hok
      have hsub := pickAddress_sublist pick ((chosen[0]?).getD [])
      refine ⟨hpre.1.alone hsub, hpre.2.1.alone hsub, (poolsTotal_alone hsub).trans hpre.2.2, rfl,
        ?_, ?_⟩
      · unfold payerAsset
        cases args.recipients.head? <;> rfl
      · rw [hsmart]
        simp

theorem drafted_of_ok {receiver : String → Except String ℕ} {budget : Solve.Budget} {plan : Plan}
    (h : draftAccount receiver budget db source args = .ok plan)
    (horchard : AssetsInOrchard db source.account) (hin : unspentTotal db source.account < 2 ^ 62)
    (hnodes : budget.maxNodes < 2 ^ 62) :
    ∃ pools args' decomposed, Gathered db source args pools args' ∧
      Planned args' decomposed plan ∧ StoredInOrchard plan.inputPools ∧
      plan.changePool < numPools := by
  obtain ⟨⟨pools, args'⟩, hgather, hdraft⟩ := bind_eq_ok.1 h
  have hgathered := gather_ok hgather horchard
  obtain ⟨decomposed, -, -, hplanned⟩ := planned_of_ok hdraft hgathered.orchard
    (hgathered.total.trans_lt hin) hnodes
  obtain ⟨decomposed', sel, -, -, hsettle⟩ := draftTransaction_ok hdraft
  refine ⟨pools, args', decomposed, hgathered, hplanned, ?_, ?_⟩
  · rw [(settlePlan_ok hsettle).1, dropZecDust, map_eq_zipIdx_map]
    exact hgathered.stored.map fun p => List.filter_sublist
  · rw [settlePlan_changePool hsettle]
    split
    · decide
    · exact hplanned.selected.changePool

end Account

end ZcashSdk.Pay
