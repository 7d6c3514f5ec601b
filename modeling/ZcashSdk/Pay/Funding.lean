import ZcashSdk.Pay.SelectNotes

set_option autoImplicit false

/-!
# What is selected for can be paid

A state is feasible only when it holds what the outputs ask for, so outputs that ask for
more than all notes together are not selected for.
-/
namespace ZcashSdk.Pay.Solve
open Db Loops Outcomes Places

variable {ctx : Context} {s t : State}

abbrev Returns {α : Type} (Q : α → Prop) : Except Fault α → Prop := Meets (fun _ => True) Q

theorem Returns.ok {α : Type} {Q : α → Prop} {x : Except Fault α} (h : ∀ a, x = .ok a → Q a) :
    Returns Q x := by
  cases x with
  | error e => trivial
  | ok a => exact h a rfl

/-! ### Sums over the assets -/

def holds (ctx : Context) (s : State) : ℕ := ((List.range ctx.nAssets).map s.assetSums).sum

def asks (ctx : Context) : ℕ := ((List.range ctx.nAssets).map ctx.assetOutputAmounts).sum

theorem sum_update {n a : ℕ} (ha : a < n) (f : ℕ → ℕ) (v : ℕ) :
    ((List.range n).map (Function.update f a v)).sum + f a = ((List.range n).map f).sum + v := by
  induction n with
  | zero => omega
  | succ n ih =>
    rw [List.range_succ, List.map_append, List.map_append, List.sum_append, List.sum_append]
    simp only [List.map_cons, List.map_nil, List.sum_cons, List.sum_nil, Nat.add_zero]
    by_cases hlast : a = n
    · subst hlast
      have hrest : (List.range a).map (Function.update f a v) = (List.range a).map f :=
        List.map_congr_left fun i hi =>
          Function.update_of_ne (Nat.ne_of_lt (List.mem_range.1 hi)) _ _
      rw [hrest, Function.update_self]
      omega
    · have hlt : a < n := by omega
      rw [Function.update_of_ne (Ne.symm hlast)]
      have := ih hlt
      omega

theorem index_ok {i n : ℕ} {u : Unit} (h : index i n = .ok u) : i < n := by
  unfold index at h
  split at h
  · rename_i hlt
    exact hlt
  · cases h

theorem u64_eq {n m : ℕ} (h : u64 n = .ok m) : m = n := by
  unfold u64 at h
  split at h
  · cases h
    rfl
  · cases h

theorem holds_apply {i : ℕ} {n : Note} (h : apply ctx s i n = .ok t) :
    holds ctx t = holds ctx s + n.amount := by
  unfold apply at h
  obtain ⟨_, hidx, h⟩ := bind_eq_ok.1 h
  obtain ⟨sum, hsum, h⟩ := bind_eq_ok.1 h
  obtain ⟨_, -, h⟩ := bind_eq_ok.1 h
  obtain ⟨_, -, h⟩ := bind_eq_ok.1 h
  obtain ⟨_, -, h⟩ := bind_eq_ok.1 h
  cases h
  have hupdate := sum_update (index_ok hidx) s.assetSums sum
  rw [u64_eq hsum] at hupdate
  unfold holds
  dsimp only
  rw [u64_eq hsum]
  omega

theorem asks_le_holds {fee : ℕ} (hn : 0 < ctx.nAssets) (hlt : holds ctx s < maxU64)
    (h : isFeasible ctx s fee = true) : asks ctx ≤ holds ctx s := by
  unfold isFeasible at h
  rw [decide_eq_true_eq] at h
  refine List.sum_le_sum fun a ha => ?_
  by_cases hzero : a = 0
  · subst hzero
    have hmem : s.assetSums 0 ∈ (List.range ctx.nAssets).map s.assetSums :=
      List.mem_map_of_mem (List.mem_range.2 hn)
    have hle : s.assetSums 0 ≤ holds ctx s := List.single_le_sum (fun _ _ => Nat.zero_le _) _ hmem
    have hneeded := h.1
    unfold zecNeeded satU64 at hneeded
    split at hneeded <;> omega
  · exact h.2 a ha (Nat.pos_of_ne_zero hzero)

/-! ### Searches -/

theorem evaluate_feasible {cost pool : ℕ} (h : evaluate ctx s = .ok (cost, pool))
    (hreal : cost ≠ maxU64) : ∃ fee, isFeasible ctx s fee = true := by
  have hfold : Returns (fun b : Best => b.cost ≠ maxU64 → ∃ fee, isFeasible ctx s fee = true)
      ((List.range numPools).foldlM (tryChangePool ctx s) ⟨maxU64, maxU64, 0⟩) := by
    refine meets_foldlM (fun _ (b : Best) => b.cost ≠ maxU64 → ∃ fee, isFeasible ctx s fee = true)
      (fun _ cp _ b _ hb => ?_) fun hne => absurd rfl hne
    refine Returns.ok fun b' hb' => ?_
    unfold tryChangePool at hb'
    obtain ⟨fee, -, hb'⟩ := bind_eq_ok.1 hb'
    split at hb'
    · cases hb'
      exact hb
    · split at hb'
      · cases hb'
        exact hb
      · rename_i hfeas
        exact fun _ => ⟨fee, by simpa using hfeas⟩
  obtain ⟨b, hb, hok⟩ := bind_eq_ok.1 h
  cases hok
  exact hfold.result hb hreal

def worth (ctx : Context) (is : List ℕ) : ℕ :=
  ((is.filterMap fun i => ctx.notes[i]?).map Note.amount).sum

theorem noteAt_eq {i : ℕ} {n : Note} (h : noteAt ctx i = .ok n) : ctx.notes[i]? = some n := by
  unfold noteAt at h
  split at h
  · rename_i m hget
    cases h
    exact hget
  · cases h

theorem worth_cons {i : ℕ} {n : Note} (h : ctx.notes[i]? = some n) (is : List ℕ) :
    worth ctx (i :: is) = n.amount + worth ctx is := by
  unfold worth
  rw [List.filterMap_cons_some h, List.map_cons, List.sum_cons]

theorem asks_of_greedyFrom {order : List ℕ} {found : State × ℕ × ℕ} (hn : 0 < ctx.nAssets)
    (hlt : holds ctx s + worth ctx order < maxU64)
    (h : greedyFrom ctx order s = .ok (some found)) : asks ctx ≤ holds ctx s + worth ctx order := by
  induction order generalizing s with
  | nil =>
    unfold greedyFrom at h
    obtain ⟨⟨cost, pool⟩, hev, h⟩ := bind_eq_ok.1 h
    dsimp only at h
    split at h
    · cases h
    · rename_i hreal
      obtain ⟨fee, hfeas⟩ := evaluate_feasible hev hreal
      exact (asks_le_holds hn (by omega) hfeas).trans (Nat.le_add_right _ _)
  | cons i order ih =>
    unfold greedyFrom at h
    obtain ⟨⟨cost, pool⟩, hev, h⟩ := bind_eq_ok.1 h
    dsimp only at h
    split at h
    · obtain ⟨n, hnote, h⟩ := bind_eq_ok.1 h
      obtain ⟨u, happly, h⟩ := bind_eq_ok.1 h
      have hholds := holds_apply happly
      have hworth := worth_cons (noteAt_eq hnote) order
      have hle := ih (by omega) h
      omega
    · rename_i hreal
      obtain ⟨fee, hfeas⟩ := evaluate_feasible hev hreal
      exact (asks_le_holds hn (by omega) hfeas).trans (Nat.le_add_right _ _)

theorem holds_applyAll {is : List ℕ} (h : applyAll ctx s is = .ok t) :
    holds ctx t = holds ctx s + worth ctx is := by
  induction is generalizing s with
  | nil =>
    cases h
    rfl
  | cons i is ih =>
    unfold applyAll at h
    rw [List.foldlM_cons] at h
    obtain ⟨u, hu, h⟩ := bind_eq_ok.1 h
    obtain ⟨n, hnote, happly⟩ := bind_eq_ok.1 hu
    rw [ih h, holds_apply happly, worth_cons (noteAt_eq hnote), Nat.add_assoc]

theorem holds_initial (h : initialState ctx = .ok s) : holds ctx s = 0 := by
  unfold initialState at h
  obtain ⟨_, -, h⟩ := bind_eq_ok.1 h
  cases h
  exact List.sum_eq_zero fun n hn => by
    obtain ⟨a, -, rfl⟩ := List.mem_map.1 hn
    rfl

theorem worth_of_perm {is : List ℕ} (h : is.Perm (List.range ctx.notes.length)) :
    worth ctx is = (ctx.notes.map Note.amount).sum := by
  have hnotes : ((List.range ctx.notes.length).filterMap fun i => ctx.notes[i]?) = ctx.notes :=
    filterMap_of_map (map_range_getElem? ctx.notes)
  unfold worth
  rw [((h.filterMap fun i => ctx.notes[i]?).map Note.amount).sum_eq, hnotes]

theorem asks_of_baseline {found : State × ℕ × ℕ} (hn : 0 < ctx.nAssets)
    (hlt : (ctx.notes.map Note.amount).sum < maxU64) (h : baseline ctx = .ok (some found)) :
    asks ctx ≤ (ctx.notes.map Note.amount).sum := by
  unfold baseline at h
  obtain ⟨first, hfirst, h⟩ := bind_eq_ok.1 h
  cases first with
  | some g =>
    unfold greedySolution at hfirst
    obtain ⟨start, hstart, hgreedy⟩ := bind_eq_ok.1 hfirst
    have hworth := @worth_of_perm ctx (greedyOrder ctx) (List.perm_insertionSort _ _)
    have hzero := holds_initial hstart
    have hle := asks_of_greedyFrom hn (by omega) hgreedy
    omega
  | none =>
    obtain ⟨start, hstart, h⟩ := bind_eq_ok.1 h
    obtain ⟨u, hu, h⟩ := bind_eq_ok.1 h
    obtain ⟨⟨cost, pool⟩, hev, h⟩ := bind_eq_ok.1 h
    have hworth := @worth_of_perm ctx _ (List.Perm.refl (List.range ctx.notes.length))
    have hzero := holds_initial hstart
    have hholds := holds_applyAll hu
    dsimp only at h
    split at h
    · cases h
    · rename_i hreal
      obtain ⟨fee, hfeas⟩ := evaluate_feasible hev hreal
      have hle := asks_le_holds hn (by omega) hfeas
      omega

/-! ### Contexts -/

theorem asks_addOutput {n : ℕ} {agg agg' : Aggregates} {o : Output}
    (h : addOutput n agg o = .ok agg') :
    ((List.range n).map agg'.assetOutputAmounts).sum =
      ((List.range n).map agg.assetOutputAmounts).sum + o.amount := by
  unfold addOutput at h
  obtain ⟨_, hidx, h⟩ := bind_eq_ok.1 h
  obtain ⟨sum, hsum, h⟩ := bind_eq_ok.1 h
  have hupdate := sum_update (index_ok hidx) agg.assetOutputAmounts sum
  have hsum := u64_eq hsum
  dsimp only at h
  split at h
  · cases h
    dsimp only
    omega
  · cases h
    dsimp only
    omega

theorem asks_foldlM {n : ℕ} {outputs : List Output} {agg agg' : Aggregates}
    (h : outputs.foldlM (addOutput n) agg = .ok agg') :
    ((List.range n).map agg'.assetOutputAmounts).sum =
      ((List.range n).map agg.assetOutputAmounts).sum + (outputs.map Output.amount).sum := by
  induction outputs generalizing agg with
  | nil =>
    cases h
    rfl
  | cons o outputs ih =>
    rw [List.foldlM_cons] at h
    obtain ⟨next, hnext, h⟩ := bind_eq_ok.1 h
    rw [ih h, asks_addOutput hnext, List.map_cons, List.sum_cons, Nat.add_assoc]

theorem countAssets_ok {outputs : List Output} {n : ℕ} (h : countAssets outputs = .ok n) :
    n = ((outputs.map Output.assetIndex).max?).getD 0 + 1 ∧ n < 2 ^ 8 := by
  unfold countAssets at h
  dsimp only at h
  split at h
  · rename_i hlt
    cases h
    exact ⟨rfl, hlt⟩
  · cases h

theorem selected_for {notes : List Note} {outputs : List Output}
    {migration recipientPaysFee : Bool} {firstRecipientAmount : ℕ} {budget : Budget}
    {sel : Selection} (hin : (notes.map Note.amount).sum < 2 ^ 62)
    (h : selectNotes notes outputs costPerAction migration recipientPaysFee firstRecipientAmount
      budget = .ok (some sel)) :
    (outputs.map Output.amount).sum ≤ (notes.map Note.amount).sum ∧
      ((outputs.map Output.assetIndex).max?).getD 0 + 1 < 2 ^ 8 := by
  unfold selectNotes at h
  obtain ⟨c, hctx, h⟩ := bind_eq_ok.1 h
  cases c with
  | none => cases h
  | some ctx =>
    obtain ⟨found, hfound, h⟩ := bind_eq_ok.1 h
    cases found with
    | none => cases h
    | some found =>
      unfold buildContext at hctx
      obtain ⟨_, -, hctx⟩ := bind_eq_ok.1 hctx
      dsimp only at hctx
      split at hctx
      · cases hctx
      · obtain ⟨n, hcount, hctx⟩ := bind_eq_ok.1 hctx
        obtain ⟨agg, hagg, hctx⟩ := bind_eq_ok.1 hctx
        cases hctx
        obtain ⟨hn, hfew⟩ := countAssets_ok hcount
        have hperm := List.perm_insertionSort noteLe (notes.filter (isCandidate costPerAction))
        have hle : ((notes.filter (isCandidate costPerAction)).map Note.amount).sum ≤
            (notes.map Note.amount).sum := sum_le_of_subperm (List.filter_sublist).subperm
        have hsum := (hperm.map Note.amount).sum_eq
        have hmax : maxU64 = 2 ^ 64 - 1 := rfl
        have hasks := asks_of_baseline (by dsimp only; omega) (by dsimp only; omega) hfound
        have htotal := asks_foldlM hagg
        have hzero : ((List.range n).map (fun _ => 0)).sum = 0 := by simp
        unfold asks at hasks
        dsimp only at hasks htotal
        exact ⟨by omega, by omega⟩

end ZcashSdk.Pay.Solve
