import ZcashSdk.Pay.Search

set_option autoImplicit false

/-!
# Note selection is sound

A selection uses each note at most once, pays for the outputs and the fee in every asset,
reports the fee of what it selected and costs no more than the greedy baseline. Nothing
overflows while totals stay below `2 ^ 62`, up to the count of more assets than a byte has.
-/
namespace ZcashSdk.Pay.Solve
open Db Loops Outcomes Places

variable {r : Request} {ctx : Context} {s : State} {xs : List Note} {allowed : Fault → Prop}

/-! ### The baseline -/

def Solves (r : Request) (ctx : Context) (found : State × ℕ × ℕ) (xs : List Note) : Prop :=
  Sound r ctx ⟨found.1, found.2.1, r.fee xs found.2.2, found.2.2⟩ xs

def Short (r : Request) (ctx : Context) (order : List ℕ) : Prop :=
  ∃ ys, order.map (fun i => ctx.notes[i]?) = ys.map some ∧ ∀ cp < numPools, ¬ r.Pays ys cp

/-- What a baseline returns: a solution, or nothing when all the notes do not pay. -/
def Based (r : Request) (ctx : Context) (order : List ℕ) : Option (State × ℕ × ℕ) → Prop
  | some found => ∃ xs, Solves r ctx found xs
  | none => Short r ctx order

theorem noteAt_ok {i : ℕ} {n : Note} (h : ctx.notes[i]? = some n) : noteAt ctx i = .ok n := by
  unfold noteAt
  rw [h]

theorem based_of_evaluated (h : Tracks r ctx s xs) {b : Best}
    (hev : Evaluated r xs (List.range numPools) b) :
    Based r ctx s.selected (if b.cost = maxU64 then none else some (s, b.cost, b.pool)) := by
  by_cases hmax : b.cost = maxU64
  · rw [if_pos hmax]
    cases hev with
    | none cost never => exact ⟨xs, h.selected, fun cp hcp => never cp (List.mem_range.2 hcp)⟩
    | some mem pays cost real => exact absurd hmax real
  · rw [if_neg hmax]
    exact ⟨xs, sound_of_evaluated h hev hmax⟩

theorem greedyFrom_spec (hc : Serves r ctx) (hidx : Indexed allowed ctx) (order : List ℕ)
    (h : Tracks r ctx s xs) (hnodup : (s.selected ++ order).Nodup)
    (hrange : ∀ i ∈ order, i < ctx.notes.length) :
    Meets allowed (Based r ctx (s.selected ++ order)) (greedyFrom ctx order s) := by
  induction order generalizing s xs with
  | nil =>
    obtain ⟨b, hb, hev⟩ := evaluate_spec hc h
    unfold greedyFrom
    rw [hb, ok_bind, List.append_nil]
    exact based_of_evaluated h hev
  | cons i order ih =>
    obtain ⟨b, hb, hev⟩ := evaluate_spec hc h
    rw [List.forall_mem_cons] at hrange
    have hget := List.getElem?_eq_getElem hrange.1
    have hi : i ∉ s.selected := fun hmem =>
      (List.nodup_append.1 hnodup).2.2 i hmem i (List.mem_cons_self ..) rfl
    unfold greedyFrom
    rw [hb, ok_bind]
    dsimp only
    split
    · rw [noteAt_ok hget, ok_bind]
      refine (apply_spec hc hidx h hget hi).bind fun t ht => ?_
      have happ : s.selected ++ i :: order = t.selected ++ order := by
        rw [ht.2, List.append_assoc, List.singleton_append]
      rw [happ] at hnodup ⊢
      exact ih ht.1 hnodup hrange.2
    · rename_i hreal
      exact ⟨xs, sound_of_evaluated h hev hreal⟩

theorem greedySolution_spec (hc : Serves r ctx) (hidx : Indexed allowed ctx) :
    Meets allowed (Based r ctx (greedyOrder ctx)) (greedySolution ctx) := by
  obtain ⟨start, hstart, h⟩ := initialState_spec hc
  have hempty : start.selected = [] := List.map_eq_nil_iff.1 h.selected
  have hperm : (greedyOrder ctx).Perm (List.range ctx.notes.length) := List.perm_insertionSort _ _
  unfold greedySolution
  rw [hstart, ok_bind]
  have hspec := greedyFrom_spec hc hidx (greedyOrder ctx) h
    (by rw [hempty]; exact hperm.nodup_iff.2 List.nodup_range)
    (fun i hi => List.mem_range.1 (hperm.subset hi))
  rwa [hempty] at hspec

theorem applyAll_spec (hc : Serves r ctx) (hidx : Indexed allowed ctx) (idxs : List ℕ)
    (h : Tracks r ctx s xs) (hnodup : (s.selected ++ idxs).Nodup)
    (hrange : ∀ i ∈ idxs, i < ctx.notes.length) :
    Meets allowed (fun t => ∃ ys, Tracks r ctx t ys ∧ t.selected = s.selected ++ idxs)
      (applyAll ctx s idxs) := by
  refine (meets_foldlM (fun done t => ∃ ys, Tracks r ctx t ys ∧ t.selected = s.selected ++ done)
    (fun done i rest t hl ht => ?_) ⟨xs, h, (List.append_nil _).symm⟩)
  obtain ⟨ys, ht, hsel⟩ := ht
  have hmem : i ∈ idxs := hl ▸ List.mem_append_right _ (List.mem_cons_self ..)
  have hget := List.getElem?_eq_getElem (hrange i hmem)
  have hi : i ∉ t.selected := by
    rw [hsel]
    rw [← hl, ← List.append_assoc] at hnodup
    exact fun hin => (List.nodup_append.1 hnodup).2.2 i hin i (List.mem_cons_self ..) rfl
  rw [noteAt_ok hget, ok_bind]
  refine (apply_spec hc hidx ht hget hi).mono fun u hu => ⟨_, hu.1, ?_⟩
  rw [hu.2, hsel, List.append_assoc]

/-- The baseline is the greedy one, unless that fails. -/
theorem baseline_spec (hc : Serves r ctx) (hidx : Indexed allowed ctx) :
    Meets allowed (fun found => (∃ order, order.Perm (List.range ctx.notes.length) ∧
      Based r ctx order found) ∧ ∀ g, greedySolution ctx = .ok (some g) → found = some g)
      (baseline ctx) := by
  unfold baseline
  cases hg : greedySolution ctx with
  | error e => exact (greedySolution_spec hc hidx).fault hg
  | ok found =>
    have hbased := (greedySolution_spec hc hidx).result hg
    rw [ok_bind]
    cases found with
    | some found =>
      refine ⟨⟨_, List.perm_insertionSort _ _, hbased⟩, fun g hfound => ?_⟩
      cases hfound
      rfl
    | none =>
      dsimp only
      obtain ⟨start, hstart, h⟩ := initialState_spec hc
      have hempty : start.selected = [] := List.map_eq_nil_iff.1 h.selected
      rw [hstart, ok_bind]
      have hall := applyAll_spec hc hidx (List.range ctx.notes.length) h
        (by rw [hempty]; exact List.nodup_range) (fun i hi => List.mem_range.1 hi)
      refine hall.bind fun t ht => ?_
      obtain ⟨ys, ht, hsel⟩ := ht
      rw [hempty, List.nil_append] at hsel
      obtain ⟨b, hb, hev⟩ := evaluate_spec hc ht
      rw [hb, ok_bind]
      refine ⟨⟨_, List.Perm.refl _, ?_⟩, fun g hfound => by cases hfound⟩
      rw [← hsel]
      exact based_of_evaluated ht hev

/-! ### What is returned -/

theorem mapM_noteAt {is : List ℕ} {xs : List Note}
    (h : is.map (fun i => ctx.notes[i]?) = xs.map some) : is.mapM (noteAt ctx) = .ok xs := by
  induction is generalizing xs with
  | nil =>
    rw [List.map_nil, eq_comm, List.map_eq_nil_iff] at h
    rw [h]
    rfl
  | cons i is ih =>
    cases xs with
    | nil => cases h
    | cons n xs =>
      simp only [List.map_cons, List.cons.injEq] at h
      rw [List.mapM_cons, noteAt_ok h.1, ok_bind, ih h.2, ok_bind]
      rfl

theorem pushIndices_eq (h : ∀ n ∈ xs, n.pool < numPools) :
    xs.foldlM pushIndex (fun _ => []) =
      .ok fun p => (xs.filter fun n => n.pool = p).map Note.poolIndex := by
  have hfold : Meets (fun _ => False) (fun indices : ℕ → List ℕ =>
      ∀ p, indices p = (xs.filter fun n => n.pool = p).map Note.poolIndex)
      (xs.foldlM pushIndex fun _ => []) := by
    refine meets_foldlM (fun done (indices : ℕ → List ℕ) =>
      ∀ p, indices p = (done.filter fun n => n.pool = p).map Note.poolIndex)
      (fun done n rest indices hl hinv => ?_) fun _ => rfl
    have hn : n ∈ xs := hl ▸ List.mem_append_right _ (List.mem_cons_self ..)
    refine (meets_index (Or.inr (h n hn))).bind fun _ _ p => ?_
    rw [List.filter_append, List.map_append, ← hinv p]
    by_cases hp : p = n.pool
    · subst hp
      rw [Function.update_self]
      simp
    · rw [Function.update_of_ne hp, List.filter_cons_of_neg (by simpa using Ne.symm hp)]
      simp
  obtain ⟨indices, hok, heq⟩ := hfold.returns
  rw [hok, funext heq]

theorem buildSelection_eq (h : Tracks r ctx s xs) (fee pool : ℕ) :
    buildSelection ctx s fee pool =
      .ok ⟨xs, fun p => (xs.filter fun n => n.pool = p).map Note.poolIndex, pool, fee⟩ := by
  unfold buildSelection
  rw [mapM_noteAt h.selected, ok_bind, pushIndices_eq h.pools, ok_bind]

/-! ### The context -/

structure Aggregated (os : List Output) (agg : Aggregates) : Prop where
  amounts : ∀ p < numPools, agg.outputAmounts p = outputValue (·.pool = p) os
  counts : ∀ p < numPools, agg.nOutputs p = clamp (os.countP (·.pool = p))
  assetAmounts : ∀ a, agg.assetOutputAmounts a = outputValue (·.assetIndex = a) os
  orchard : ∀ a, agg.orchardAssetOutputs a =
    clamp (os.countP fun o => o.pool = 2 ∧ o.assetIndex = a)

theorem addOutput_spec {nAssets : ℕ} {os : List Output} {agg : Aggregates} {o : Output}
    (h : Aggregated os agg) (hin : o.assetIndex < nAssets)
    (htotal : ((os ++ [o]).map Output.amount).sum < 2 ^ 62) :
    ∃ agg', addOutput nAssets agg o = .ok agg' ∧ Aggregated (os ++ [o]) agg' := by
  have hasset := (outputValue_le (·.assetIndex = o.assetIndex) (os ++ [o])).trans_lt htotal
  have hpool := (outputValue_le (·.pool = o.pool) (os ++ [o])).trans_lt htotal
  rw [outputValue_append, outputValue_singleton, if_pos (decide_eq_true rfl)] at hasset hpool
  have hassets : ∀ a, Function.update agg.assetOutputAmounts o.assetIndex
      (outputValue (·.assetIndex = o.assetIndex) os + o.amount) a =
        outputValue (·.assetIndex = a) (os ++ [o]) := by
    intro a
    rw [outputValue_append, outputValue_singleton]
    by_cases ha : a = o.assetIndex
    · subst ha
      rw [Function.update_self, if_pos (decide_eq_true rfl)]
    · rw [Function.update_of_ne ha, h.assetAmounts, if_neg (by simpa using Ne.symm ha)]
      rfl
  have hmax : maxU64 = 2 ^ 64 - 1 := rfl
  unfold addOutput index
  rw [if_pos hin, ok_bind, h.assetAmounts, u64_ok (by omega), ok_bind]
  dsimp only
  split
  · rename_i hlt
    refine ⟨_, rfl, ?_⟩
    constructor
    · intro p hp
      dsimp only
      rw [outputValue_append, outputValue_singleton]
      by_cases hpo : p = o.pool
      · subst hpo
        rw [Function.update_self, h.amounts _ hp, if_pos (decide_eq_true rfl)]
        unfold satU64
        omega
      · rw [Function.update_of_ne hpo, h.amounts p hp, if_neg (by simpa using Ne.symm hpo)]
        rfl
    · intro p hp
      dsimp only
      rw [countP_snoc]
      by_cases hpo : p = o.pool
      · subst hpo
        rw [Function.update_self, h.counts _ hp, bump_clamp, if_pos (decide_eq_true rfl)]
      · rw [Function.update_of_ne hpo, h.counts p hp, if_neg (by simpa using Ne.symm hpo)]
        rfl
    · exact hassets
    · intro a
      dsimp only
      rw [countP_snoc]
      by_cases htwo : o.pool = 2
      · rw [if_pos htwo]
        by_cases ha : a = o.assetIndex
        · subst ha
          rw [Function.update_self, h.orchard, bump_clamp, if_pos (by simpa using htwo)]
        · rw [Function.update_of_ne ha, h.orchard, if_neg (by simpa using fun _ => Ne.symm ha)]
          rfl
      · rw [if_neg htwo, h.orchard, if_neg (by simp [htwo])]
        rfl
  · rename_i hge
    have hfour : numPools = 4 := rfl
    refine ⟨_, rfl, ?_⟩
    constructor
    · intro p hp
      rw [outputValue_append, outputValue_singleton, if_neg (by simp; omega)]
      exact h.amounts p hp
    · intro p hp
      rw [countP_snoc, if_neg (by simp; omega)]
      exact h.counts p hp
    · exact hassets
    · intro a
      rw [countP_snoc, if_neg (by simp; omega)]
      exact h.orchard a

section Context
variable {notes : List Note}

theorem sumAmounts_ok (h : (notes.map Note.amount).sum < 2 ^ 62) :
    sumAmounts notes = .ok (notes.map Note.amount).sum := by
  unfold sumAmounts
  rw [foldlM_u64 Note.amount notes 0 (by omega), Nat.zero_add]

/-- The context serves the request, over the candidates among the notes. -/
theorem buildContext_spec (r : Request) (hin : (notes.map Note.amount).sum < 2 ^ 62)
    (hout : (r.outputs.map Output.amount).sum < 2 ^ 62)
    (hassets : allowed .overflow ∨ r.numAssets < 2 ^ 8) :
    Meets allowed (fun c => (c = none → notes.filter (isCandidate costPerAction) = []) ∧
      ∀ ctx, c = some ctx →
        Serves r ctx ∧ ctx.notes.Perm (notes.filter (isCandidate costPerAction)))
      (buildContext notes r.outputs costPerAction r.migration r.recipientPaysFee
        r.firstRecipientAmount) := by
  unfold buildContext
  rw [sumAmounts_ok hin, ok_bind]
  dsimp only
  split
  · rename_i hempty
    exact ⟨fun _ => List.isEmpty_iff.1 hempty, fun ctx h => (by cases h)⟩
  · have hcount : Meets allowed (fun n => n = r.numAssets ∧ r.numAssets < 2 ^ 8)
        (countAssets r.outputs) := by
      unfold countAssets
      dsimp only
      change Meets allowed _ (if r.numAssets < 2 ^ 8 then .ok r.numAssets else .error .overflow)
      split
      · rename_i hlt
        exact ⟨rfl, hlt⟩
      · rename_i hge
        exact hassets.resolve_right hge
    refine hcount.bind fun nAssets hn => ?_
    obtain ⟨rfl, hfew⟩ := hn
    have hagg : Meets allowed (Aggregated r.outputs)
        (r.outputs.foldlM (addOutput r.numAssets) {}) := by
      refine meets_foldlM Aggregated (fun done o rest agg hl hinv => ?_) ?_
      · have ho : o ∈ r.outputs := hl ▸ List.mem_append_right _ (List.mem_cons_self ..)
        have hlt : o.assetIndex < r.numAssets := by
          have := List.le_max?_getD_of_mem (k := 0) (List.mem_map_of_mem (f := Output.assetIndex) ho)
          exact Nat.lt_succ_of_le this
        have htotal : ((done ++ [o]).map Output.amount).sum < 2 ^ 62 := by
          refine lt_of_le_of_lt ?_ hout
          rw [← hl]
          simp only [List.map_append, List.map_cons, List.map_nil, List.sum_append, List.sum_cons,
            List.sum_nil]
          omega
        obtain ⟨agg', hok, hagg⟩ := addOutput_spec hinv hlt htotal
        exact .of_ok hok hagg
      · exact ⟨fun _ _ => rfl, fun _ _ => rfl, fun _ => rfl, fun _ => rfl⟩
    refine hagg.bind fun agg h => ⟨fun hnone => (by cases hnone), fun ctx hctx => ?_⟩
    cases hctx
    have hperm := List.perm_insertionSort noteLe (notes.filter (isCandidate costPerAction))
    refine ⟨?_, hperm⟩
    constructor
    · rfl
    · rfl
    · rfl
    · rfl
    · rfl
    · exact hfew
    · exact h.amounts
    · exact h.counts
    · exact h.assetAmounts
    · exact h.orchard
    · exact hout
    · refine lt_of_le_of_lt (sum_le_of_subperm ?_) hin
      exact hperm.subperm.trans (List.filter_sublist).subperm

end Context

/-! ### Selection -/

structure Selected (r : Request) (notes : List Note) (sel : Selection) : Prop where
  once : List.Subperm sel.inputs (notes.filter (isCandidate costPerAction))
  indices : ∀ p, sel.perPoolIndices p = (sel.inputs.filter fun n => n.pool = p).map Note.poolIndex
  pools : ∀ n ∈ sel.inputs, n.pool < numPools
  changePool : sel.changePool < numPools
  pays : r.Pays sel.inputs sel.changePool
  fee : sel.fee = r.fee sel.inputs sel.changePool

def Request.cost (r : Request) (sel : Selection) : ℕ ×ₗ ℕ :=
  toLex (r.turnstile sel.inputs sel.changePool, sel.fee)

section Select
variable {notes : List Note} {budget : Budget} {sel g : Selection}

theorem Sound.selected {b : Incumbent} (h : Sound r ctx b xs)
    (hnotes : ctx.notes.Perm (notes.filter (isCandidate costPerAction)))
    (hsel : buildSelection ctx b.state b.fee b.pool = .ok sel) : Selected r notes sel := by
  rw [buildSelection_eq h.tracks] at hsel
  cases hsel
  exact ⟨h.tracks.subperm.trans hnotes.subperm, fun _ => rfl, h.tracks.pools, h.pool, h.pays, h.fee⟩

theorem Sound.cost_eq {b : Incumbent} (h : Sound r ctx b xs)
    (hsel : buildSelection ctx b.state b.fee b.pool = .ok sel) :
    r.cost sel = toLex (b.cost, b.fee) := by
  rw [buildSelection_eq h.tracks] at hsel
  cases hsel
  unfold Request.cost
  rw [h.cost]

theorem greedySelection_ok (hc : Serves r ctx)
    (hctx : buildContext notes r.outputs costPerAction r.migration r.recipientPaysFee
      r.firstRecipientAmount = .ok (some ctx))
    (hg : greedySelection notes r.outputs costPerAction r.migration r.recipientPaysFee
      r.firstRecipientAmount = .ok (some g)) :
    ∃ state cost pool xs, greedySolution ctx = .ok (some (state, cost, pool)) ∧
      Sound r ctx ⟨state, cost, r.fee xs pool, pool⟩ xs ∧ r.cost g = toLex (cost, r.fee xs pool) := by
  unfold greedySelection at hg
  rw [hctx, ok_bind] at hg
  dsimp only at hg
  obtain ⟨found, hfound, hg⟩ := bind_eq_ok.1 hg
  cases found with
  | none => cases hg
  | some found =>
    obtain ⟨state, cost, pool⟩ := found
    have hspec : Meets (fun _ => True) (Based r ctx (greedyOrder ctx)) (greedySolution ctx) :=
      greedySolution_spec hc fun _ _ => Or.inl trivial
    obtain ⟨xs, hsound⟩ := hspec.result hfound
    dsimp only at hg
    rw [feeForChangePool_eq hc hsound.tracks, ok_bind] at hg
    obtain ⟨sel, hsel, hsome⟩ := map_eq_ok.1 hg
    cases hsome
    exact ⟨state, cost, pool, xs, hfound, hsound, hsound.cost_eq hsel⟩

/-- A selection that is returned, or none when all candidates together do not pay. -/
def Answers (r : Request) (notes : List Note) : Option Selection → Prop
  | some sel => Selected r notes sel ∧
      ∀ g, greedySelection notes r.outputs costPerAction r.migration r.recipientPaysFee
        r.firstRecipientAmount = .ok (some g) → r.cost sel ≤ r.cost g
  | none => ∀ ys, ys.Perm (notes.filter (isCandidate costPerAction)) → ys ≠ [] →
      ∀ cp < numPools, ¬ r.Pays ys cp

theorem selectNotes_spec (r : Request) (hin : (notes.map Note.amount).sum < 2 ^ 62)
    (hout : (r.outputs.map Output.amount).sum < 2 ^ 62) (hnodes : budget.maxNodes < 2 ^ 62)
    (hassets : allowed .overflow ∨ r.numAssets < 2 ^ 8)
    (hidx : ∀ n ∈ notes, allowed .index ∨ n.pool < numPools ∧ n.assetIndex < r.numAssets) :
    Meets allowed (Answers r notes) (selectNotes notes r.outputs costPerAction r.migration
      r.recipientPaysFee r.firstRecipientAmount budget) := by
  have hspec := buildContext_spec r hin hout hassets
  unfold selectNotes
  cases hctx : buildContext notes r.outputs costPerAction r.migration r.recipientPaysFee
      r.firstRecipientAmount with
  | error e => exact hspec.fault hctx
  | ok c =>
    rw [ok_bind]
    cases c with
    | none =>
      intro ys hperm hne
      rw [(hspec.result hctx).1 rfl] at hperm
      exact absurd hperm.eq_nil hne
    | some ctx =>
      dsimp only
      obtain ⟨hc, hnotes⟩ := (hspec.result hctx).2 ctx rfl
      have hidx' : Indexed allowed ctx := fun n hn => by
        rw [hc.nAssets]
        exact hidx n (List.mem_of_mem_filter (hnotes.mem_iff.1 hn))
      refine (baseline_spec hc hidx').bind fun found hfound => ?_
      obtain ⟨⟨order, horder, hbased⟩, hgreedy⟩ := hfound
      cases found with
      | none =>
        obtain ⟨ys, hys, hshort⟩ := hbased
        intro zs hzs _ cp hcp hpays
        exact hshort cp hcp (hpays.perm (hzs.trans (hnotes.symm.trans (perm_of_range horder hys).symm)))
      | some found =>
        obtain ⟨state, cost, pool⟩ := found
        obtain ⟨xs, hsound⟩ := hbased
        dsimp only
        rw [feeForChangePool_eq hc hsound.tracks, ok_bind]
        refine (improve_spec hc hidx' hnodes ⟨xs, hsound⟩).bind fun b hb => ?_
        obtain ⟨⟨ys, hys⟩, hle⟩ := hb
        have hsel := buildSelection_eq hys.tracks b.fee b.pool
        rw [hsel]
        refine ⟨hys.selected hnotes hsel, fun g hg => ?_⟩
        rw [hys.cost_eq hsel]
        obtain ⟨state', cost', pool', zs, hgs, hz, hcost⟩ := greedySelection_ok hc hctx hg
        rw [hcost]
        have heq := hgreedy _ hgs
        cases heq
        have hzx : zs = xs := List.map_injective_iff.2 (Option.some_injective _)
          (hz.tracks.selected.symm.trans hsound.tracks.selected)
        rw [hzx]
        exact hle

theorem exists_asset (h : 2 ^ 8 ≤ r.numAssets) : ∃ o ∈ r.outputs, 255 ≤ o.assetIndex := by
  unfold Request.numAssets at h
  cases hmax : (r.outputs.map Output.assetIndex).max? with
  | none =>
    rw [hmax, Option.getD_none] at h
    omega
  | some m =>
    rw [hmax, Option.getD_some] at h
    obtain ⟨o, ho, rfl⟩ := List.mem_map.1 (List.max?_mem hmax)
    exact ⟨o, ho, by omega⟩

/-- Every selection that is returned is as promised, for every budget; and no sum, difference or
    count overflows unless an output has the last asset index of a byte. -/
theorem selectNotes_sound (notes : List Note) (r : Request) (budget : Budget)
    (hin : (notes.map Note.amount).sum < 2 ^ 62) (hout : (r.outputs.map Output.amount).sum < 2 ^ 62)
    (hnodes : budget.maxNodes < 2 ^ 62) :
    (∀ sel, selectNotes notes r.outputs costPerAction r.migration r.recipientPaysFee
        r.firstRecipientAmount budget = .ok (some sel) →
      Selected r notes sel ∧
        ∀ g, greedySelection notes r.outputs costPerAction r.migration r.recipientPaysFee
          r.firstRecipientAmount = .ok (some g) → r.cost sel ≤ r.cost g) ∧
    (selectNotes notes r.outputs costPerAction r.migration r.recipientPaysFee
        r.firstRecipientAmount budget = .error .overflow → ∃ o ∈ r.outputs, 255 ≤ o.assetIndex) := by
  have hspec : Meets (fun e => e = .overflow → 2 ^ 8 ≤ r.numAssets) (Answers r notes)
      (selectNotes notes r.outputs costPerAction r.migration r.recipientPaysFee
        r.firstRecipientAmount budget) := by
    refine selectNotes_spec r hin hout hnodes ?_ fun n _ => Or.inl fun h => by cases h
    exact (Nat.lt_or_ge r.numAssets (2 ^ 8)).symm.imp_left fun h _ => h
  refine ⟨fun sel hsel => hspec.result hsel, fun herr => ?_⟩
  exact exists_asset (hspec.fault herr rfl)

/-- Three notes in two pools, and a payment from the sender. -/
theorem threeNotes_sound :
    ∃ sel, selectNotes [⟨1, 30000, 0, 0⟩, ⟨2, 50000, 0, 0⟩, ⟨2, 4000, 1, 0⟩] [⟨2, 20000, 0⟩]
        costPerAction false false 20000 ⟨10, 4, fun _ => false⟩ = .ok (some sel) ∧
      Selected ⟨[⟨2, 20000, 0⟩], false, false, 20000⟩
        [⟨1, 30000, 0, 0⟩, ⟨2, 50000, 0, 0⟩, ⟨2, 4000, 1, 0⟩] sel := by
  have hok : ∃ sel, selectNotes [⟨1, 30000, 0, 0⟩, ⟨2, 50000, 0, 0⟩, ⟨2, 4000, 1, 0⟩]
      [⟨2, 20000, 0⟩] costPerAction false false 20000 ⟨10, 4, fun _ => false⟩ = .ok (some sel) :=
    ⟨_, rfl⟩
  obtain ⟨sel, hsel⟩ := hok
  exact ⟨sel, hsel, ((selectNotes_sound _ ⟨[⟨2, 20000, 0⟩], false, false, 20000⟩ _ (by decide)
    (by decide) (by decide)).1 sel hsel).1⟩

end Select

end ZcashSdk.Pay.Solve
