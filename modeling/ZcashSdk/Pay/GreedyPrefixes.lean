import ZcashSdk.Pay.SelectNotes

set_option autoImplicit false

/-!
# When no selection is found

The baseline takes the largest notes first until they pay, and the search only improves on
it. So nothing is returned exactly when no prefix of the candidates in that order pays, and
a selection that skips a large note is not looked for.
-/
namespace ZcashSdk.Pay.Solve
open Db Loops Outcomes Places

variable {r : Request} {ctx : Context} {s : State} {xs : List Note} {allowed : Fault → Prop}

/-! ### Prefixes -/

/-- No change pool will do for any prefix of what is to be taken. -/
def PrefixesShort (r : Request) (xs order : List Note) : Prop :=
  ∀ k, ∀ cp < numPools, ¬ r.Pays (xs ++ order.take k) cp

theorem prefixesShort_nil : PrefixesShort r xs [] ↔ ∀ cp < numPools, ¬ r.Pays xs cp := by
  unfold PrefixesShort
  simp only [List.take_nil, List.append_nil, forall_const]

theorem prefixesShort_cons {n : Note} {order : List Note} :
    PrefixesShort r xs (n :: order) ↔
      (∀ cp < numPools, ¬ r.Pays xs cp) ∧ PrefixesShort r (xs ++ [n]) order := by
  constructor
  · intro h
    refine ⟨fun cp hcp => ?_, fun k cp hcp => ?_⟩
    · have hzero := h 0 cp hcp
      rwa [List.take_zero, List.append_nil] at hzero
    · have hsucc := h (k + 1) cp hcp
      rwa [List.take_succ_cons, ← List.singleton_append, ← List.append_assoc] at hsucc
  · rintro ⟨hnow, hlater⟩ k cp hcp
    cases k with
    | zero =>
      rw [List.take_zero, List.append_nil]
      exact hnow cp hcp
    | succ k =>
      rw [List.take_succ_cons, ← List.singleton_append, ← List.append_assoc]
      exact hlater k cp hcp

theorem Evaluated.cost_eq_max_iff {b : Best} (hev : Evaluated r xs (List.range numPools) b) :
    b.cost = maxU64 ↔ ∀ cp < numPools, ¬ r.Pays xs cp := by
  cases hev with
  | none cost never => exact ⟨fun _ cp hcp => never cp (List.mem_range.2 hcp), fun _ => cost⟩
  | some mem pays cost real =>
    exact ⟨fun h => absurd h real, fun h => absurd pays (h b.pool (List.mem_range.1 mem))⟩

theorem greedyFrom_none_iff (hc : Serves r ctx) (hidx : Indexed allowed ctx) (order : List ℕ)
    {ys : List Note} (hys : order.map (fun i => ctx.notes[i]?) = ys.map some)
    (h : Tracks r ctx s xs) (hnodup : (s.selected ++ order).Nodup) :
    Meets allowed (fun found => found = none ↔ PrefixesShort r xs ys) (greedyFrom ctx order s) := by
  induction order generalizing s xs ys with
  | nil =>
    obtain rfl : ys = [] := List.map_eq_nil_iff.1 hys.symm
    obtain ⟨b, hb, hev⟩ := evaluate_spec hc h
    unfold greedyFrom
    rw [hb, ok_bind]
    change (_ ↔ _)
    rw [prefixesShort_nil, ← hev.cost_eq_max_iff]
    simp only [ite_eq_left_iff, reduceCtorEq, imp_false, not_not]
  | cons i order ih =>
    cases ys with
    | nil => cases hys
    | cons n ys =>
      rw [List.map_cons, List.map_cons, List.cons.injEq] at hys
      obtain ⟨b, hb, hev⟩ := evaluate_spec hc h
      have hi : i ∉ s.selected := fun hmem =>
        (List.nodup_append.1 hnodup).2.2 i hmem i (List.mem_cons_self ..) rfl
      unfold greedyFrom
      rw [hb, ok_bind]
      dsimp only
      split
      · rename_i hmax
        rw [noteAt_ok hys.1, ok_bind]
        refine (apply_spec hc hidx h hys.1 hi).bind fun t ht => ?_
        have happ : s.selected ++ i :: order = t.selected ++ order := by
          rw [ht.2, List.append_assoc, List.singleton_append]
        rw [happ] at hnodup
        refine (ih hys.2 ht.1 hnodup).mono fun found hfound => ?_
        rw [hfound, prefixesShort_cons]
        exact ⟨fun hlater => ⟨hev.cost_eq_max_iff.1 hmax, hlater⟩, And.right⟩
      · rename_i hreal
        refine ⟨fun hnone => (by cases hnone), fun hshort => ?_⟩
        exact absurd (hev.cost_eq_max_iff.2 (prefixesShort_cons.1 hshort).1) hreal

/-! ### The order -/

def largestFirst (notes : List Note) : List Note :=
  ((notes.filter (isCandidate costPerAction)).insertionSort noteLe).insertionSort
    fun a b => b.amount ≤ a.amount

def optionLe (a b : Option Note) : Prop := (b.map Note.amount).getD 0 ≤ (a.map Note.amount).getD 0

instance : DecidableRel optionLe := fun _ _ => inferInstanceAs (Decidable (_ ≤ _))

theorem greedyOrder_notes (ctx : Context) :
    (greedyOrder ctx).map (fun i => ctx.notes[i]?) =
      (ctx.notes.insertionSort fun a b => b.amount ≤ a.amount).map some := by
  have hplaces := List.map_insertionSort (r := fun a b =>
    ((ctx.notes[b]?).map Note.amount).getD 0 ≤ ((ctx.notes[a]?).map Note.amount).getD 0)
    (s := optionLe) (fun i => ctx.notes[i]?) (List.range ctx.notes.length)
    fun _ _ _ _ => Iff.rfl
  have hnotes := List.map_insertionSort (r := fun a b : Note => b.amount ≤ a.amount) (s := optionLe)
    some ctx.notes fun _ _ _ _ => Iff.rfl
  unfold greedyOrder
  rw [hplaces, hnotes, map_range_getElem?]

/-! ### The baseline -/

theorem greedySolution_none_iff (hc : Serves r ctx) (hidx : Indexed allowed ctx) :
    Meets allowed (fun found => found = none ↔
      PrefixesShort r [] (ctx.notes.insertionSort fun a b => b.amount ≤ a.amount))
      (greedySolution ctx) := by
  obtain ⟨start, hstart, h⟩ := initialState_spec hc
  have hempty : start.selected = [] := List.map_eq_nil_iff.1 h.selected
  have hperm : (greedyOrder ctx).Perm (List.range ctx.notes.length) := List.perm_insertionSort _ _
  unfold greedySolution
  rw [hstart, ok_bind]
  exact greedyFrom_none_iff hc hidx (greedyOrder ctx) (greedyOrder_notes ctx) h
    (by rw [hempty]; exact hperm.nodup_iff.2 List.nodup_range)

/-- All notes are a prefix too, so trying them again finds nothing more. -/
theorem baseline_none_iff (hc : Serves r ctx) (hidx : Indexed allowed ctx) :
    Meets allowed (fun found => found = none ↔
      PrefixesShort r [] (ctx.notes.insertionSort fun a b => b.amount ≤ a.amount))
      (baseline ctx) := by
  have hspec := greedySolution_none_iff hc hidx
  unfold baseline
  cases hg : greedySolution ctx with
  | error e => exact hspec.fault hg
  | ok first =>
    have hfirst := hspec.result hg
    rw [ok_bind]
    cases first with
    | some g => exact ⟨fun h => (by cases h), fun h => hfirst.2 h⟩
    | none =>
      dsimp only
      obtain ⟨start, hstart, h⟩ := initialState_spec hc
      have hempty : start.selected = [] := List.map_eq_nil_iff.1 h.selected
      rw [hstart, ok_bind]
      refine (applyAll_spec hc hidx (List.range ctx.notes.length) h
        (by rw [hempty]; exact List.nodup_range) fun i hi => List.mem_range.1 hi).bind fun t ht => ?_
      obtain ⟨ys, ht, hsel⟩ := ht
      rw [hempty, List.nil_append] at hsel
      have hperm : ys.Perm (ctx.notes.insertionSort fun a b => b.amount ≤ a.amount) :=
        (perm_of_range (.of_eq hsel) ht.selected).trans (List.perm_insertionSort _ _).symm
      obtain ⟨b, hb, hev⟩ := evaluate_spec hc ht
      rw [hb, ok_bind]
      have hmax : b.cost = maxU64 := by
        refine hev.cost_eq_max_iff.2 fun cp hcp hpays => ?_
        refine hfirst.1 rfl (ctx.notes.insertionSort fun a b => b.amount ≤ a.amount).length cp hcp ?_
        rw [List.nil_append, List.take_length]
        exact hpays.perm hperm
      dsimp only
      rw [if_pos hmax]
      exact ⟨fun _ => hfirst.1 rfl, fun _ => rfl⟩

/-! ### Selection -/

section Select
variable {notes : List Note} {budget : Budget}

theorem buildContext_nil (hin : (notes.map Note.amount).sum < 2 ^ 62)
    (hnil : notes.filter (isCandidate costPerAction) = []) :
    buildContext notes r.outputs costPerAction r.migration r.recipientPaysFee
      r.firstRecipientAmount = .ok none := by
  unfold buildContext
  rw [sumAmounts_ok hin, ok_bind, hnil]
  rfl

theorem context_notes {ctx : Context}
    (hctx : buildContext notes r.outputs costPerAction r.migration r.recipientPaysFee
      r.firstRecipientAmount = .ok (some ctx)) :
    (ctx.notes.insertionSort fun a b => b.amount ≤ a.amount) = largestFirst notes := by
  unfold buildContext at hctx
  obtain ⟨_, -, hctx⟩ := bind_eq_ok.1 hctx
  dsimp only at hctx
  split at hctx
  · cases hctx
  · obtain ⟨_, -, hctx⟩ := bind_eq_ok.1 hctx
    obtain ⟨_, -, hctx⟩ := bind_eq_ok.1 hctx
    cases hctx
    rfl

/-- Nothing is returned when there is no candidate, or when no prefix pays. -/
theorem selectNotes_none_iff (r : Request) (hin : (notes.map Note.amount).sum < 2 ^ 62)
    (hout : (r.outputs.map Output.amount).sum < 2 ^ 62)
    (hidx : ∀ n ∈ notes, n.pool < numPools ∧ n.assetIndex < r.numAssets) :
    selectNotes notes r.outputs costPerAction r.migration r.recipientPaysFee
        r.firstRecipientAmount budget = .ok none ↔
      notes.filter (isCandidate costPerAction) = [] ∨
        r.numAssets < 2 ^ 8 ∧ PrefixesShort r [] (largestFirst notes) := by
  have hspec := @buildContext_spec (fun _ => 2 ^ 8 ≤ r.numAssets) _ r hin hout
    (Nat.lt_or_ge _ _).symm
  unfold selectNotes
  by_cases hnil : notes.filter (isCandidate costPerAction) = []
  · rw [buildContext_nil hin hnil, ok_bind]
    exact ⟨fun _ => Or.inl hnil, fun _ => rfl⟩
  · rw [or_iff_right hnil]
    cases hctx : buildContext notes r.outputs costPerAction r.migration r.recipientPaysFee
        r.firstRecipientAmount with
    | error e =>
      have hmany := hspec.fault hctx
      exact ⟨fun h => (by cases h), fun h => absurd h.1 (Nat.not_lt.2 hmany)⟩
    | ok c =>
      rw [ok_bind]
      cases c with
      | none => exact absurd ((hspec.result hctx).1 rfl) hnil
      | some ctx =>
        obtain ⟨hc, hperm⟩ := (hspec.result hctx).2 ctx rfl
        have hidx' : Indexed (fun _ => False) ctx := fun n hn => by
          rw [hc.nAssets]
          exact Or.inr (hidx n (List.mem_of_mem_filter (hperm.mem_iff.1 hn)))
        obtain ⟨found, hfound, hnone⟩ := (baseline_none_iff hc hidx').returns
        rw [context_notes hctx] at hnone
        dsimp only
        rw [hfound, ok_bind, and_iff_right hc.few, ← hnone]
        cases found with
        | none => exact ⟨fun _ => rfl, fun _ => rfl⟩
        | some found =>
          refine ⟨fun h => ?_, fun h => by cases h⟩
          obtain ⟨_, -, h⟩ := bind_eq_ok.1 h
          obtain ⟨_, -, h⟩ := bind_eq_ok.1 h
          obtain ⟨_, -, hsome⟩ := map_eq_ok.1 h
          cases hsome

/-- Nothing is returned only when no part of the candidates pays. -/
def Complete (r : Request) (notes : List Note) (budget : Budget) : Prop :=
  selectNotes notes r.outputs costPerAction r.migration r.recipientPaysFee r.firstRecipientAmount
      budget = .ok none →
    ∀ ys, List.Subperm ys (notes.filter (isCandidate costPerAction)) →
      ∀ cp < numPools, ¬ r.Pays ys cp

/-- Selection is complete exactly when some prefix of the candidates by amount pays as soon as any
    part of them does. -/
theorem selectNotes_complete_iff (notes : List Note) (r : Request) (budget : Budget)
    (hin : (notes.map Note.amount).sum < 2 ^ 62) (hout : (r.outputs.map Output.amount).sum < 2 ^ 62)
    (hidx : ∀ n ∈ notes, n.pool < numPools ∧ n.assetIndex < r.numAssets) :
    Complete r notes budget ↔
      ((∃ ys, List.Subperm ys (notes.filter (isCandidate costPerAction)) ∧
          ∃ cp < numPools, r.Pays ys cp) →
        notes.filter (isCandidate costPerAction) ≠ [] ∧
          (2 ^ 8 ≤ r.numAssets ∨ ∃ k, ∃ cp < numPools, r.Pays ((largestFirst notes).take k) cp)) := by
  unfold Complete
  rw [selectNotes_none_iff r hin hout hidx]
  constructor
  · rintro hcomplete ⟨ys, hys, cp, hcp, hpays⟩
    refine ⟨fun hnil => hcomplete (Or.inl hnil) ys hys cp hcp hpays, ?_⟩
    by_contra hno
    rw [not_or, Nat.not_le] at hno
    refine hcomplete (Or.inr ⟨hno.1, fun k c hc hk => hno.2 ⟨k, c, hc, ?_⟩⟩) ys hys cp hcp hpays
    rwa [List.nil_append] at hk
  · rintro hprefix hnone ys hys cp hcp hpays
    obtain ⟨hne, hmany⟩ := hprefix ⟨ys, hys, cp, hcp, hpays⟩
    obtain ⟨hfew, hshort⟩ := hnone.resolve_left hne
    obtain ⟨k, c, hc, hk⟩ := hmany.resolve_left (Nat.not_le.2 hfew)
    exact hshort k c hc (by rwa [List.nil_append])

/-- Two Orchard notes of which the larger one pays alone. -/
theorem oneLarge_complete :
    Complete ⟨[⟨2, 8000, 0⟩], false, false, 8000⟩ [⟨2, 9000, 0, 0⟩, ⟨2, 30000, 1, 0⟩]
      ⟨100000, 24, fun _ => false⟩ := by
  refine (selectNotes_complete_iff [⟨2, 9000, 0, 0⟩, ⟨2, 30000, 1, 0⟩]
    ⟨[⟨2, 8000, 0⟩], false, false, 8000⟩ ⟨100000, 24, fun _ => false⟩ (by decide) (by decide)
    (by decide)).2 fun _ => ⟨by decide, Or.inr ⟨1, 2, by decide, ?_⟩⟩
  refine ⟨by decide, fun h => (by cases h), fun a ha => ?_⟩
  have hnone : Request.valueOut ⟨[⟨2, 8000, 0⟩], false, false, 8000⟩ a = 0 := by
    simp [Request.valueOut, outputValue, Ne.symm ha]
  rw [hnone]
  exact Nat.zero_le _

/-- Two Orchard notes pay, but the larger Sapling note before them costs more than it brings. -/
theorem saplingFirst_not_complete :
    selectNotes [⟨1, 9500, 0, 0⟩, ⟨2, 9000, 0, 0⟩, ⟨2, 9000, 1, 0⟩] [⟨2, 8000, 0⟩] costPerAction false
        false 8000 ⟨100000, 24, fun _ => false⟩ = .ok none ∧
      Request.Pays ⟨[⟨2, 8000, 0⟩], false, false, 8000⟩ [⟨2, 9000, 0, 0⟩, ⟨2, 9000, 1, 0⟩] 2 ∧
      ¬ Complete ⟨[⟨2, 8000, 0⟩], false, false, 8000⟩
        [⟨1, 9500, 0, 0⟩, ⟨2, 9000, 0, 0⟩, ⟨2, 9000, 1, 0⟩] ⟨100000, 24, fun _ => false⟩ := by
  have hnone : selectNotes [⟨1, 9500, 0, 0⟩, ⟨2, 9000, 0, 0⟩, ⟨2, 9000, 1, 0⟩] [⟨2, 8000, 0⟩]
      costPerAction false false 8000 ⟨100000, 24, fun _ => false⟩ = .ok none := by rfl
  have hpays : Request.Pays ⟨[⟨2, 8000, 0⟩], false, false, 8000⟩
      [⟨2, 9000, 0, 0⟩, ⟨2, 9000, 1, 0⟩] 2 := by
    refine ⟨by decide, fun h => (by cases h), fun a ha => ?_⟩
    have hzero : Request.valueOut ⟨[⟨2, 8000, 0⟩], false, false, 8000⟩ a = 0 := by
      simp [Request.valueOut, outputValue, Ne.symm ha]
    rw [hzero]
    exact Nat.zero_le _
  refine ⟨hnone, hpays, fun hcomplete => ?_⟩
  refine hcomplete hnone [⟨2, 9000, 0, 0⟩, ⟨2, 9000, 1, 0⟩] ?_ 2 (by decide) hpays
  exact (List.sublist_cons_self (⟨1, 9500, 0, 0⟩ : Note) _).subperm

end Select

end ZcashSdk.Pay.Solve
