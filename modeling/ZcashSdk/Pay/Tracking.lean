import ZcashSdk.Pay.Selection
import ZcashSdk.Lib.Places

set_option autoImplicit false

/-!
# The states of the search

In every state the solver's sums and counts are those of the notes selected so far, none
of which is selected twice. So what the solver computes of a state is the fee, the cost
and the sufficiency of its notes, and nothing overflows on the way.
-/
namespace ZcashSdk.Pay.Solve
open Db Loops Outcomes Places

/-! ### Machine integers that fit -/

theorem u64_ok {n : ℕ} (h : n < 2 ^ 64) : u64 n = .ok n := if_pos h

theorem i64_ok {n : ℤ} (hlo : -2 ^ 63 ≤ n) (hhi : n < 2 ^ 63) : i64 n = .ok n := if_pos ⟨hlo, hhi⟩

theorem asI64_of_lt {n : ℕ} (h : n < 2 ^ 63) : asI64 n = n := if_pos h

theorem foldlM_u64 {α : Type} (g : α → ℕ) (l : List α) (b : ℕ) (h : b + (l.map g).sum < 2 ^ 64) :
    l.foldlM (fun sum a => u64 (sum + g a)) b = .ok (b + (l.map g).sum) := by
  induction l generalizing b with
  | nil => rfl
  | cons a l ih =>
    rw [List.map_cons, List.sum_cons] at h ⊢
    rw [List.foldlM_cons, u64_ok (by omega), ok_bind, ih _ (by omega), Nat.add_assoc]

/-! ### Contexts and states -/

structure Serves (r : Request) (ctx : Context) : Prop where
  fUnit : ctx.fUnit = costPerAction
  migration : ctx.migration = r.migration
  recipientPaysFee : ctx.recipientPaysFee = r.recipientPaysFee
  firstRecipientAmount : ctx.firstRecipientAmount = r.firstRecipientAmount
  nAssets : ctx.nAssets = r.numAssets
  few : r.numAssets < 2 ^ 8
  amounts : ∀ p < numPools, ctx.outputAmounts p = outputValue (·.pool = p) r.outputs
  counts : ∀ p < numPools, ctx.nOutputs p = clamp (r.outputs.countP (·.pool = p))
  assetAmounts : ∀ a, ctx.assetOutputAmounts a = r.valueOut a
  orchard : ∀ a, ctx.orchardAssetOutputs a =
    clamp (r.outputs.countP fun o => o.pool = 2 ∧ o.assetIndex = a)
  outTotal : (r.outputs.map Output.amount).sum < 2 ^ 62
  inTotal : (ctx.notes.map Note.amount).sum < 2 ^ 62

structure Tracks (r : Request) (ctx : Context) (s : State) (xs : List Note) : Prop where
  selected : s.selected.map (fun i => ctx.notes[i]?) = xs.map some
  nodup : s.selected.Nodup
  pools : ∀ n ∈ xs, n.pool < numPools
  sums : ∀ a, s.assetSums a = Request.valueIn xs a
  transparent : s.balance 0 = -(outputValue (·.pool = 0) r.outputs : ℤ)
  balance : ∀ p, 1 ≤ p → p < numPools →
    s.balance p = (valueOf (·.pool = p) xs : ℤ) - outputValue (·.pool = p) r.outputs
  counts : ∀ p, s.nInputs p = Request.inputCount xs p
  orchard : ∀ a, s.orchardAssetInputs a =
    clamp (xs.countP fun n => n.pool = 2 ∧ n.assetIndex = a)
  tin : s.tin = valueOf (·.pool = 0) xs
  tout : s.tout = outputValue (·.pool = 0) r.outputs

section Facts
variable {r : Request} {ctx : Context} {s : State} {xs : List Note}

theorem Tracks.subperm (h : Tracks r ctx s xs) : List.Subperm xs ctx.notes :=
  subperm_of_nodup h.nodup h.selected

theorem sum_le_of_subperm {xs ys : List Note} (h : List.Subperm xs ys) :
    (xs.map Note.amount).sum ≤ (ys.map Note.amount).sum := by
  obtain ⟨zs, hperm, hsub⟩ := h
  rw [← (hperm.map Note.amount).sum_eq]
  exact (hsub.map _).sum_le_sum fun _ _ => Nat.zero_le _

theorem Tracks.total (hc : Serves r ctx) (h : Tracks r ctx s xs) : (xs.map Note.amount).sum < 2 ^ 62 :=
  lt_of_le_of_lt (sum_le_of_subperm h.subperm) hc.inTotal

/-! ### Fees -/

theorem orchardOutputs_eq (hc : Serves r ctx) (h : Tracks r ctx s xs) (cp a : ℕ) :
    max (s.orchardAssetInputs a) (orchardOutputs ctx s cp a) = r.assetActions xs cp a := by
  unfold orchardOutputs Request.assetActions
  rw [h.orchard, hc.orchard, hc.assetAmounts, h.sums, bump_clamp]
  by_cases hzec : a = 0 ∧ cp = 2
  · rw [if_pos hzec, if_pos (Or.inl hzec)]
  · rw [if_neg hzec]
    by_cases hmore : 0 < a ∧ r.valueOut a < Request.valueIn xs a
    · rw [if_pos hmore, if_pos (Or.inr hmore)]
    · rw [if_neg hmore, if_neg (not_or.2 ⟨hzec, hmore⟩), Nat.add_zero]

theorem assetActions_lt (r : Request) (xs : List Note) (cp a : ℕ) :
    r.assetActions xs cp a < 2 ^ 32 := by
  unfold Request.assetActions
  exact max_lt (clamp_lt _) (clamp_lt _)

theorem sum_assetActions_lt (hc : Serves r ctx) (xs : List Note) (cp : ℕ) :
    ((List.range r.numAssets).map (r.assetActions xs cp)).sum < 2 ^ 40 := by
  have hle := List.sum_le_card_nsmul ((List.range r.numAssets).map (r.assetActions xs cp)) (2 ^ 32)
    (fun n hn => by
      obtain ⟨a, -, rfl⟩ := List.mem_map.1 hn
      exact (assetActions_lt r xs cp a).le)
  rw [List.length_map, List.length_range, smul_eq_mul] at hle
  have := hc.few
  omega

theorem zsaOrchardActions_eq (hc : Serves r ctx) (h : Tracks r ctx s xs) (cp : ℕ) :
    zsaOrchardActions ctx s cp = .ok (if r.numAssets ≤ 1 then none
      else some (bundleActions ((List.range r.numAssets).map (r.assetActions xs cp)).sum 0)) := by
  unfold zsaOrchardActions
  rw [hc.nAssets]
  split
  · rfl
  · have hsum := sum_assetActions_lt hc xs cp
    simp only [orchardOutputs_eq hc h]
    rw [foldlM_u64 _ _ 0 (by omega), ok_bind, Nat.zero_add]
    unfold bundleActions
    simp

theorem bundleActions_lt {m n : ℕ} (hm : m < 2 ^ 40) (hn : n < 2 ^ 40) :
    bundleActions m n < 2 ^ 40 := by
  unfold bundleActions
  split <;> omega

theorem inputCount_lt (xs : List Note) (p : ℕ) : Request.inputCount xs p < 2 ^ 32 := clamp_lt _
theorem outputCount_lt (r : Request) (cp p : ℕ) : r.outputCount cp p < 2 ^ 32 := clamp_lt _

theorem counts_change (hc : Serves r ctx) (cp : ℕ) {p : ℕ} (hp : p < numPools) :
    Function.update ctx.nOutputs cp (bump (ctx.nOutputs cp)) p = r.outputCount cp p := by
  unfold Request.outputCount
  by_cases hcp : p = cp
  · subst hcp
    rw [Function.update_self, hc.counts p hp, bump_clamp, if_pos rfl]
  · rw [Function.update_of_ne hcp, hc.counts p hp, if_neg hcp, Nat.add_zero]

theorem orchardActions_lt (hc : Serves r ctx) (xs : List Note) (cp : ℕ) :
    r.orchardActions xs cp < 2 ^ 40 := by
  have hin := inputCount_lt xs 2
  have hout := outputCount_lt r cp 2
  unfold Request.orchardActions
  split
  · split
    · omega
    · exact bundleActions_lt (by omega) (by omega)
  · exact bundleActions_lt (sum_assetActions_lt hc xs cp) (by omega)

theorem poolOrchardActions_eq (r : Request) (xs : List Note) (cp : ℕ) :
    poolOrchardActions (Request.inputCount xs 2) (r.outputCount cp 2) r.migration
      (if r.numAssets ≤ 1 then none
        else some (bundleActions ((List.range r.numAssets).map (r.assetActions xs cp)).sum 0)) =
      .ok (r.orchardActions xs cp) := by
  have hin := inputCount_lt xs 2
  have hout := outputCount_lt r cp 2
  unfold Request.orchardActions
  by_cases hzec : r.numAssets ≤ 1
  · rw [if_pos hzec, if_pos hzec]
    unfold poolOrchardActions bundleActions
    rw [u64_ok (by omega)]
    by_cases hany : 0 < Request.inputCount xs 2 ∨ 0 < r.outputCount cp 2
    · have hpos : 0 < Request.inputCount xs 2 + r.outputCount cp 2 := by omega
      rw [if_pos hany, if_pos hany]
      cases r.migration <;> simp [hpos, Except.map]
    · have hpos : ¬ 0 < Request.inputCount xs 2 + r.outputCount cp 2 := by omega
      rw [if_neg hany, if_neg hany, if_neg fun hm => hpos hm.2]
  · rw [if_neg hzec, if_neg hzec]
    rfl

theorem feeForChangePool_eq (hc : Serves r ctx) (h : Tracks r ctx s xs) (cp : ℕ) :
    feeForChangePool ctx s cp = .ok (r.fee xs cp) := by
  have hin := inputCount_lt xs
  have hout := outputCount_lt r cp
  have hs := bundleActions_lt (m := Request.inputCount xs 1) (n := r.outputCount cp 1)
    (by have := hin 1; omega) (by have := hout 1; omega)
  have hi := bundleActions_lt (m := Request.inputCount xs 3) (n := r.outputCount cp 3)
    (by have := hin 3; omega) (by have := hout 3; omega)
  have ho := orchardActions_lt hc xs cp
  have ht : max (Request.inputCount xs 0) (r.outputCount cp 0) < 2 ^ 32 := max_lt (hin 0) (hout 0)
  have hcost : costPerAction = 5000 := rfl
  have hgrace : graceActions = 2 := rfl
  unfold feeForChangePool computeFee
  rw [zsaOrchardActions_eq hc h, ok_bind]
  simp only [counts_change hc cp (p := 0) (by decide), counts_change hc cp (p := 1) (by decide),
    counts_change hc cp (p := 2) (by decide), counts_change hc cp (p := 3) (by decide), h.counts,
    hc.fUnit, hc.migration]
  rw [poolOrchardActions_eq, ok_bind, u64_ok (by omega), ok_bind, u64_ok (by omega), ok_bind,
    u64_ok (by omega), ok_bind, u64_ok (by rw [hcost, hgrace]; omega)]
  rfl

/-! ### Costs -/

theorem fee_lt (hc : Serves r ctx) (xs : List Note) (cp : ℕ) : r.fee xs cp < 2 ^ 60 := by
  have hin := inputCount_lt xs
  have hout := outputCount_lt r cp
  have hs := bundleActions_lt (m := Request.inputCount xs 1) (n := r.outputCount cp 1)
    (by have := hin 1; omega) (by have := hout 1; omega)
  have hi := bundleActions_lt (m := Request.inputCount xs 3) (n := r.outputCount cp 3)
    (by have := hin 3; omega) (by have := hout 3; omega)
  have ho := orchardActions_lt hc xs cp
  have ht : max (Request.inputCount xs 0) (r.outputCount cp 0) < 2 ^ 32 := max_lt (hin 0) (hout 0)
  unfold Request.fee Request.logicalActions costPerAction
  omega

theorem zecNeeded_eq (hc : Serves r ctx) (xs : List Note) (cp : ℕ) :
    zecNeeded ctx (r.fee xs cp) = r.needed xs cp := by
  have hfee := fee_lt hc xs cp
  have hout := (outputValue_le (·.assetIndex = 0) r.outputs).trans_lt hc.outTotal
  have hmax : maxU64 = 2 ^ 64 - 1 := rfl
  unfold zecNeeded Request.needed satU64
  rw [hc.recipientPaysFee, hc.assetAmounts]
  split
  · rfl
  · change r.valueOut 0 < 2 ^ 62 at hout
    omega

theorem valueOut_of_le (r : Request) {a : ℕ} (ha : r.numAssets ≤ a) : r.valueOut a = 0 := by
  have hnone : r.outputs.filter (fun o => decide (o.assetIndex = a)) = [] := by
    rw [List.filter_eq_nil_iff]
    intro o ho heq
    rw [decide_eq_true_eq] at heq
    have hle := List.le_max?_getD_of_mem (k := 0) (List.mem_map_of_mem (f := Output.assetIndex) ho)
    unfold Request.numAssets at ha
    omega
  unfold Request.valueOut outputValue
  rw [hnone]
  rfl

theorem isFeasible_iff (hc : Serves r ctx) (h : Tracks r ctx s xs) (cp : ℕ) :
    isFeasible ctx s (r.fee xs cp) = true ↔
      r.needed xs cp ≤ Request.valueIn xs 0 ∧ ∀ a, a ≠ 0 → r.valueOut a ≤ Request.valueIn xs a := by
  unfold isFeasible
  rw [decide_eq_true_eq, zecNeeded_eq hc, h.sums, hc.nAssets]
  refine and_congr_right fun _ => ?_
  simp only [List.mem_range, hc.assetAmounts, h.sums]
  constructor
  · intro hall a ha
    by_cases hlt : a < r.numAssets
    · exact hall a hlt (Nat.pos_of_ne_zero ha)
    · rw [valueOut_of_le r (Nat.le_of_not_lt hlt)]
      exact Nat.zero_le _
  · intro hall a _ ha
    exact hall a (Nat.ne_of_gt ha)

theorem imbalance_le (r : Request) (xs : List Note) (cp p : ℕ) :
    r.imbalance xs cp p ≤ valueOf (·.pool = p) xs + outputValue (·.pool = p) r.outputs +
      if p = cp then r.change xs cp else 0 := by
  unfold Request.imbalance
  split <;> omega

/-- Only the change is counted twice. -/
theorem turnstile_lt (hc : Serves r ctx) (h : Tracks r ctx s xs) (cp : ℕ) :
    r.turnstile xs cp < 3 * 2 ^ 62 := by
  have hin := h.total hc
  have hout := hc.outTotal
  have hpools := sum_pools_le xs
  have houts := sum_output_pools_le r.outputs
  have hchange : r.change xs cp ≤ (xs.map Note.amount).sum :=
    (Nat.sub_le _ _).trans (valueOf_le _ xs)
  have h1 := imbalance_le r xs cp 1
  have h2 := imbalance_le r xs cp 2
  have h3 := imbalance_le r xs cp 3
  have honce : (if 1 = cp then r.change xs cp else 0) + (if 2 = cp then r.change xs cp else 0) +
      (if 3 = cp then r.change xs cp else 0) ≤ r.change xs cp := by
    split_ifs <;> omega
  unfold Request.turnstile
  omega

theorem adjusted_eq (hc : Serves r ctx) (h : Tracks r ctx s xs) (cp : ℕ) {p : ℕ} (hp : 1 ≤ p)
    (hp' : p < numPools) :
    (if p = cp then i64 (s.balance p - asI64 (r.change xs cp)) else .ok (s.balance p)) =
      .ok ((valueOf (·.pool = p) xs : ℤ) - outputValue (·.pool = p) r.outputs -
        if p = cp then (r.change xs cp : ℤ) else 0) := by
  have hin := (valueOf_le (·.pool = p) xs).trans_lt (h.total hc)
  have hout := (outputValue_le (·.pool = p) r.outputs).trans_lt hc.outTotal
  have hchange : r.change xs cp < 2 ^ 62 :=
    ((Nat.sub_le _ _).trans (valueOf_le _ xs)).trans_lt (h.total hc)
  rw [h.balance p hp hp', asI64_of_lt (by omega)]
  split
  · exact i64_ok (by omega) (by omega)
  · rw [sub_zero]

theorem turnstile_eq (hc : Serves r ctx) (h : Tracks r ctx s xs) (cp : ℕ) :
    turnstile s cp (r.change xs cp) = .ok (r.turnstile xs cp) := by
  have hlt := turnstile_lt hc h cp
  have hsum : r.turnstile xs cp = valueOf (·.pool = 0) xs + outputValue (·.pool = 0) r.outputs +
    (r.imbalance xs cp 1 + r.imbalance xs cp 2 + r.imbalance xs cp 3) := rfl
  unfold turnstile
  rw [h.tin, h.tout, u64_ok (by omega), ok_bind]
  simp only [List.foldlM_cons, List.foldlM_nil, adjusted_eq hc h cp (p := 1) (by decide) (by decide),
    adjusted_eq hc h cp (p := 2) (by decide) (by decide),
    adjusted_eq hc h cp (p := 3) (by decide) (by decide), ok_bind]
  change (u64 (0 + r.imbalance xs cp 1) >>= fun n => u64 (n + r.imbalance xs cp 2) >>= fun n =>
    u64 (n + r.imbalance xs cp 3) >>= fun n => pure n) >>= _ = _
  rw [u64_ok (by omega), ok_bind, u64_ok (by omega), ok_bind, u64_ok (by omega), ok_bind]
  change (Except.ok _ >>= _) = _
  rw [ok_bind, u64_ok (by omega), hsum, Nat.zero_add]

/-! ### Evaluation -/

/-- What comes of evaluating a state: the cost of a change pool with which it pays, or
    `u64::MAX` when there is none. -/
inductive Evaluated (r : Request) (xs : List Note) (pools : List ℕ) (b : Best) : Prop
  | none (cost : b.cost = maxU64) (never : ∀ cp ∈ pools, ¬ r.Pays xs cp)
  | some (mem : b.pool ∈ pools) (pays : r.Pays xs b.pool) (cost : b.cost = r.turnstile xs b.pool)
      (real : b.cost ≠ maxU64)

theorem tryChangePool_of_not_pays (hc : Serves r ctx) (h : Tracks r ctx s xs) (b : Best) {cp : ℕ}
    (hno : ¬ r.Pays xs cp) : tryChangePool ctx s b cp = .ok b := by
  unfold tryChangePool
  rw [feeForChangePool_eq hc h, ok_bind, hc.recipientPaysFee, hc.firstRecipientAmount]
  split
  · rfl
  · rename_i hfee
    have hinf : isFeasible ctx s (r.fee xs cp) = false := by
      rw [Bool.eq_false_iff, Ne, isFeasible_iff hc h]
      exact fun hfeas => hno ⟨hfeas.1, fun hp => Nat.le_of_not_lt fun hlt => hfee ⟨hp, hlt⟩, hfeas.2⟩
    rw [hinf]
    rfl

theorem tryChangePool_of_pays (hc : Serves r ctx) (h : Tracks r ctx s xs) (b : Best) {cp : ℕ}
    (hpays : r.Pays xs cp) : tryChangePool ctx s b cp =
      .ok (if isBetterSolution (r.turnstile xs cp) (r.fee xs cp) b.cost b.fee then
        ⟨r.turnstile xs cp, r.fee xs cp, cp⟩ else b) := by
  have hfeas : isFeasible ctx s (r.fee xs cp) = true :=
    (isFeasible_iff hc h cp).2 ⟨hpays.zec, hpays.assets⟩
  unfold tryChangePool
  rw [feeForChangePool_eq hc h, ok_bind, hc.recipientPaysFee, hc.firstRecipientAmount,
    if_neg fun hfee => absurd (hpays.recipient hfee.1) (Nat.not_le.2 hfee.2), hfeas, h.sums,
    zecNeeded_eq hc]
  change (turnstile s cp (r.change xs cp) >>= _) = _
  rw [turnstile_eq hc h, ok_bind]

theorem tryChangePool_spec (hc : Serves r ctx) (h : Tracks r ctx s xs) {done : List ℕ} {b : Best}
    (cp : ℕ) (hb : Evaluated r xs done b) :
    ∃ b', tryChangePool ctx s b cp = .ok b' ∧ Evaluated r xs (done ++ [cp]) b' := by
  by_cases hpays : r.Pays xs cp
  · rw [tryChangePool_of_pays hc h b hpays]
    refine ⟨_, rfl, ?_⟩
    have hreal : r.turnstile xs cp < maxU64 := by
      have := turnstile_lt hc h cp
      have hmax : maxU64 = 2 ^ 64 - 1 := rfl
      omega
    split
    · exact .some (List.mem_append_right _ (List.mem_singleton_self _)) hpays rfl hreal.ne
    · rename_i hworse
      cases hb with
      | none cost never =>
        rw [isBetterSolution, decide_eq_true_eq, cost] at hworse
        exact absurd (Or.inl hreal) hworse
      | some mem pays cost real => exact .some (List.mem_append_left _ mem) pays cost real
  · refine ⟨b, tryChangePool_of_not_pays hc h b hpays, ?_⟩
    cases hb with
    | none cost never =>
      refine .none cost fun c hmem => ?_
      rcases List.mem_append.1 hmem with hmem | hmem
      · exact never c hmem
      · rw [List.mem_singleton.1 hmem]
        exact hpays
    | some mem pays cost real => exact .some (List.mem_append_left _ mem) pays cost real

theorem evaluate_spec (hc : Serves r ctx) (h : Tracks r ctx s xs) :
    ∃ b, evaluate ctx s = .ok (b.cost, b.pool) ∧ Evaluated r xs (List.range numPools) b := by
  have hstart : Evaluated r xs [] ⟨maxU64, maxU64, 0⟩ := .none rfl fun cp hcp => by cases hcp
  have hfold : Meets (fun _ => False) (Evaluated r xs (List.range numPools))
      ((List.range numPools).foldlM (tryChangePool ctx s) ⟨maxU64, maxU64, 0⟩) := by
    refine meets_foldlM _ (fun done cp _ b _ hb => ?_) hstart
    obtain ⟨b', hb', hev⟩ := tryChangePool_spec hc h cp hb
    exact .of_ok hb' hev
  obtain ⟨b, hb, hev⟩ := hfold.returns
  exact ⟨b, by rw [evaluate, hb, ok_bind], hev⟩

/-- No change pool with which the state pays is cheaper. -/
theorem evaluate_cheapest (hc : Serves r ctx) (h : Tracks r ctx s xs) {cost pool : ℕ}
    (hev : evaluate ctx s = .ok (cost, pool)) {cp : ℕ} (hcp : cp < numPools)
    (hpays : r.Pays xs cp) : cost ≤ r.turnstile xs cp := by
  have hfold : Meets (fun _ => True) (fun b : Best => ∀ c ∈ List.range numPools, r.Pays xs c →
      b.cost ≤ r.turnstile xs c)
      ((List.range numPools).foldlM (tryChangePool ctx s) ⟨maxU64, maxU64, 0⟩) := by
    refine meets_foldlM (fun done (b : Best) => ∀ c ∈ done, r.Pays xs c → b.cost ≤ r.turnstile xs c)
      (fun done c _ b _ hb => ?_) (fun c hc => by cases hc)
    by_cases hc' : r.Pays xs c
    · refine .of_ok (tryChangePool_of_pays hc h b hc') fun d hd hdp => ?_
      rcases List.mem_append.1 hd with hd | hd
      · have hle := hb d hd hdp
        split
        · rename_i hbetter
          rw [isBetterSolution, decide_eq_true_eq] at hbetter
          dsimp only
          omega
        · exact hle
      · rw [List.mem_singleton.1 hd]
        split
        · exact le_refl _
        · rename_i hworse
          rw [isBetterSolution, decide_eq_true_eq] at hworse
          omega
    · refine .of_ok (tryChangePool_of_not_pays hc h b hc') fun d hd hdp => ?_
      rcases List.mem_append.1 hd with hd | hd
      · exact hb d hd hdp
      · rw [List.mem_singleton.1 hd] at hdp
        exact absurd hdp hc'
  obtain ⟨b, hb, hok⟩ := bind_eq_ok.1 hev
  cases hok
  exact hfold.result hb cp (List.mem_range.2 hcp) hpays

/-! ### Transitions -/

/-- Where indexing is no allowed fault, every note can be indexed. -/
def Indexed (allowed : Fault → Prop) (ctx : Context) : Prop :=
  ∀ n ∈ ctx.notes, allowed .index ∨ n.pool < numPools ∧ n.assetIndex < ctx.nAssets

variable {allowed : Fault → Prop}

theorem meets_index {i length : ℕ} (h : allowed .index ∨ i < length) :
    Meets allowed (fun _ => i < length) (index i length) := by
  unfold index
  split
  · rename_i hlt
    exact hlt
  · rename_i hlt
    exact h.resolve_right hlt

theorem initialState_spec (hc : Serves r ctx) :
    ∃ s, initialState ctx = .ok s ∧ Tracks r ctx s [] := by
  have hstart : ∀ p < numPools, i64 (-asI64 (ctx.outputAmounts p)) =
      .ok (-(outputValue (·.pool = p) r.outputs : ℤ)) := by
    intro p hp
    have hout := (outputValue_le (·.pool = p) r.outputs).trans_lt hc.outTotal
    rw [hc.amounts p hp, asI64_of_lt (by omega)]
    exact i64_ok (by omega) (by omega)
  unfold initialState initialBalance
  have hrange : List.range numPools = [0, 1, 2, 3] := rfl
  simp only [hrange, List.foldlM_cons, List.foldlM_nil, hstart 0 (by decide), hstart 1 (by decide),
    hstart 2 (by decide), hstart 3 (by decide), ok_bind]
  refine ⟨_, rfl, ?_⟩
  constructor
  · rfl
  · exact List.nodup_nil
  · exact fun n hn => by cases hn
  · exact fun a => rfl
  · rfl
  · intro p hp hp'
    have hp4 : numPools = 4 := rfl
    obtain rfl | rfl | rfl : p = 1 ∨ p = 2 ∨ p = 3 := by omega
    all_goals simp [Function.update]
  · exact fun p => rfl
  · exact fun a => rfl
  · rfl
  · exact hc.amounts 0 (by decide)

theorem countP_snoc {α : Type} (p : α → Bool) (xs : List α) (n : α) :
    (xs ++ [n]).countP p = xs.countP p + if p n then 1 else 0 := by
  rw [List.countP_append, List.countP_singleton]

theorem Tracks.room (hc : Serves r ctx) (h : Tracks r ctx s xs) {i : ℕ} {n : Note}
    (hn : ctx.notes[i]? = some n) (hi : i ∉ s.selected) :
    (s.selected ++ [i]).map (fun i => ctx.notes[i]?) = (xs ++ [n]).map some ∧
      (s.selected ++ [i]).Nodup ∧ ((xs ++ [n]).map Note.amount).sum < 2 ^ 62 := by
  have hselected : (s.selected ++ [i]).map (fun i => ctx.notes[i]?) = (xs ++ [n]).map some := by
    rw [List.map_append, List.map_append, h.selected, List.map_singleton, List.map_singleton, hn]
  have hnodup : (s.selected ++ [i]).Nodup :=
    h.nodup.append (List.nodup_singleton i) (by simpa using hi)
  exact ⟨hselected, hnodup,
    (sum_le_of_subperm (subperm_of_nodup hnodup hselected)).trans_lt hc.inTotal⟩

theorem apply_spec (hc : Serves r ctx) (hidx : Indexed allowed ctx) (h : Tracks r ctx s xs) {i : ℕ}
    {n : Note} (hn : ctx.notes[i]? = some n) (hi : i ∉ s.selected) :
    Meets allowed (fun t => Tracks r ctx t (xs ++ [n]) ∧ t.selected = s.selected ++ [i])
      (apply ctx s i n) := by
  obtain ⟨hselected, hnodup, htotal⟩ := h.room hc hn hi
  have hpool := (valueOf_le (·.pool = n.pool) (xs ++ [n])).trans_lt htotal
  have hasset := (valueOf_le (·.assetIndex = n.assetIndex) (xs ++ [n])).trans_lt htotal
  rw [valueOf_append, valueOf_singleton, if_pos (decide_eq_true rfl)] at hpool hasset
  have hout := (outputValue_le (·.pool = n.pool) r.outputs).trans_lt hc.outTotal
  have hmem : n ∈ ctx.notes := List.mem_of_getElem? hn
  unfold apply
  refine (meets_index ((hidx n hmem).imp_right And.right)).bind fun _ _ => ?_
  rw [h.sums, u64_ok (show Request.valueIn xs n.assetIndex + n.amount < 2 ^ 64 by
    change valueOf _ xs + _ < _; omega), ok_bind]
  refine (meets_index ((hidx n hmem).imp_right And.left)).bind fun _ hp => ?_
  have htin : (if n.pool = 0 then u64 (s.tin + n.amount) else .ok s.tin) =
      .ok (valueOf (·.pool = 0) (xs ++ [n])) := by
    rw [valueOf_append, valueOf_singleton, h.tin]
    by_cases hzero : n.pool = 0
    · rw [if_pos hzero, if_pos (decide_eq_true hzero)]
      rw [hzero] at hpool
      exact u64_ok (by omega)
    · rw [if_neg hzero, if_neg (by simpa using hzero), Nat.add_zero]
  have hbal : (if n.pool = 0 then .ok (s.balance 0)
      else i64 (s.balance n.pool + asI64 n.amount)) = .ok (if n.pool = 0 then s.balance 0
        else ((valueOf (·.pool = n.pool) xs + n.amount : ℕ) : ℤ) -
          outputValue (·.pool = n.pool) r.outputs) := by
    by_cases hzero : n.pool = 0
    · rw [if_pos hzero, if_pos hzero]
    · rw [if_neg hzero, if_neg hzero, h.balance n.pool (Nat.pos_of_ne_zero hzero) hp,
        asI64_of_lt (by omega), i64_ok (by omega) (by omega)]
      congr 1
      omega
  rw [htin, ok_bind, hbal, ok_bind]
  refine ⟨?_, rfl⟩
  constructor
  · exact hselected
  · exact hnodup
  · intro m hm
    rcases List.mem_append.1 hm with hm | hm
    · exact h.pools m hm
    · rw [List.mem_singleton.1 hm]
      exact hp
  · intro a
    dsimp only
    unfold Request.valueIn
    rw [valueOf_append, valueOf_singleton]
    by_cases ha : a = n.assetIndex
    · subst ha
      rw [Function.update_self, if_pos (decide_eq_true rfl)]
    · rw [Function.update_of_ne ha, h.sums, if_neg (by simpa using Ne.symm ha)]
      rfl
  · dsimp only
    by_cases hzero : n.pool = 0
    · rw [hzero, Function.update_self, if_pos rfl]
      exact h.transparent
    · rw [Function.update_of_ne (Ne.symm hzero)]
      exact h.transparent
  · intro p hp1 hp2
    dsimp only
    rw [valueOf_append, valueOf_singleton]
    by_cases hpn : p = n.pool
    · subst hpn
      rw [Function.update_self, if_neg (Nat.ne_of_gt hp1), if_pos (decide_eq_true rfl)]
    · rw [Function.update_of_ne hpn, h.balance p hp1 hp2, if_neg (by simpa using Ne.symm hpn),
        Nat.add_zero]
  · intro p
    dsimp only
    unfold Request.inputCount
    rw [countP_snoc]
    by_cases hpn : p = n.pool
    · subst hpn
      rw [Function.update_self, h.counts, Request.inputCount, bump_clamp,
        if_pos (decide_eq_true rfl)]
    · rw [Function.update_of_ne hpn, h.counts, if_neg (by simpa using Ne.symm hpn), Nat.add_zero]
      rfl
  · intro a
    dsimp only
    rw [countP_snoc]
    by_cases htwo : n.pool = 2
    · rw [if_pos htwo]
      by_cases ha : a = n.assetIndex
      · subst ha
        rw [Function.update_self, h.orchard, bump_clamp, if_pos (by simpa using htwo)]
      · rw [Function.update_of_ne ha, h.orchard, if_neg (by simpa using fun _ => Ne.symm ha),
          Nat.add_zero]
    · rw [if_neg htwo, h.orchard, if_neg (by simp [htwo]), Nat.add_zero]
  · rfl
  · exact h.tout

end Facts

end ZcashSdk.Pay.Solve
