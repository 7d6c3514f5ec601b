import ZcashSdk.Pay.SelectNotes

set_option autoImplicit false

/-!
# The lower bound of a state

The bound lets the notes that are left balance the pools, but not the change. It grows with
every note that is taken. So it is under the cost of all that a state can grow into, unless
some selection gets change that balances its pool by more than its notes left could have.
-/
namespace ZcashSdk.Pay.Solve
open Db Loops Outcomes Places

namespace Request
variable (r : Request) (notes xs : List Note) (changePool : ℕ)

/-- What a pool takes in more than it pays out, before any change. -/
def surplus (pool : ℕ) : ℤ :=
  (valueOf (·.pool = pool) xs : ℤ) - outputValue (·.pool = pool) r.outputs

def left (pool : ℕ) : ℕ := valueOf (·.pool = pool) notes - valueOf (·.pool = pool) xs

/-- The bound of a state that selected `xs`. -/
def bound : ℕ :=
  valueOf (·.pool = 0) xs + outputValue (·.pool = 0) r.outputs +
    ([1, 2, 3].map fun p => (r.surplus xs p).natAbs - left notes xs p).sum

def balanced : ℕ :=
  (r.surplus xs changePool).natAbs - (r.surplus xs changePool - r.change xs changePool).natAbs

/-- By how much the notes that are left could at most balance the pools. -/
def balanceable : ℕ :=
  ([1, 2, 3].map fun p => min (r.surplus xs p).natAbs (left notes xs p)).sum

variable {r notes xs changePool} {ys : List Note}

theorem valueOf_le_of_subperm (p : Note → Bool) (h : List.Subperm xs ys) :
    valueOf p xs ≤ valueOf p ys := by
  obtain ⟨zs, hperm, hsub⟩ := h
  rw [← valueOf_perm p hperm]
  exact ((hsub.filter p).map Note.amount).sum_le_sum fun _ _ => Nat.zero_le _

theorem pool_bound_mono {v v' o n : ℕ} (hv : v ≤ v') (hn : v' ≤ n) :
    ((v : ℤ) - o).natAbs - (n - v) ≤ ((v' : ℤ) - o).natAbs - (n - v') := by omega

/-- The bound grows with every note. -/
theorem bound_mono (h : List.Subperm xs ys) (hys : List.Subperm ys notes) :
    r.bound notes xs ≤ r.bound notes ys := by
  have hpool : ∀ p, (r.surplus xs p).natAbs - left notes xs p ≤
      (r.surplus ys p).natAbs - left notes ys p := fun p =>
    pool_bound_mono (valueOf_le_of_subperm (·.pool = p) h) (valueOf_le_of_subperm (·.pool = p) hys)
  unfold bound
  refine Nat.add_le_add (Nat.add_le_add_right (valueOf_le_of_subperm _ h) _) ?_
  exact List.sum_le_sum fun p _ => hpool p

def crossing (r : Request) (xs : List Note) : ℕ :=
  valueOf (·.pool = 0) xs + outputValue (·.pool = 0) r.outputs +
    ([1, 2, 3].map fun p => (r.surplus xs p).natAbs).sum

theorem bound_add_balanceable :
    r.bound notes xs + r.balanceable notes xs = r.crossing xs := by
  have hpool : ∀ p, (r.surplus xs p).natAbs - left notes xs p +
      min (r.surplus xs p).natAbs (left notes xs p) = (r.surplus xs p).natAbs := by
    intro p
    omega
  unfold bound balanceable crossing
  rw [Nat.add_assoc, ← List.sum_map_add]
  simp only [hpool]

theorem turnstile_add (hlt : changePool < numPools) :
    r.turnstile xs changePool + (if changePool = 0 then 0 else (r.surplus xs changePool).natAbs) =
      r.crossing xs + if changePool = 0 then 0
        else (r.surplus xs changePool - r.change xs changePool).natAbs := by
  have himb : ∀ p, r.imbalance xs changePool p = if p = changePool
      then (r.surplus xs changePool - r.change xs changePool).natAbs
      else (r.surplus xs p).natAbs := by
    intro p
    unfold imbalance
    by_cases hp : p = changePool
    · subst hp
      rw [if_pos rfl, if_pos rfl]
      rfl
    · rw [if_neg hp, if_neg hp, sub_zero]
      rfl
  have hpools : numPools = 4 := rfl
  unfold turnstile crossing
  simp only [himb, List.map_cons, List.map_nil, List.sum_cons, List.sum_nil]
  obtain rfl | rfl | rfl | rfl : changePool = 0 ∨ changePool = 1 ∨ changePool = 2 ∨ changePool = 3 := by
    omega
  all_goals
    simp only [if_true, OfNat.ofNat_ne_zero, one_ne_zero, if_false,
      OfNat.ofNat_ne_one, OfNat.one_ne_ofNat, Nat.reduceEqDiff]
    omega

theorem bound_le_turnstile_zero : r.bound notes xs ≤ r.turnstile xs 0 := by
  have hsum := @bound_add_balanceable r notes xs
  have hturn := @turnstile_add r xs 0 (by decide)
  rw [if_pos rfl, if_pos rfl] at hturn
  omega

theorem bound_le_turnstile_iff (hpos : 1 ≤ changePool) (hlt : changePool < numPools) :
    r.bound notes xs ≤ r.turnstile xs changePool ↔
      r.balanced xs changePool ≤ r.balanceable notes xs := by
  have hsum := @bound_add_balanceable r notes xs
  have hturn := @turnstile_add r xs _ hlt
  rw [if_neg (by omega), if_neg (by omega)] at hturn
  unfold balanced
  omega

end Request

/-! ### States and what they grow into -/

structure Reached (ctx : Context) (is : List ℕ) (s : State) : Prop where
  once : is.Nodup
  run : (initialState ctx >>= fun start => applyAll ctx start is) = .ok s

/-- No state grows into a feasible one that costs less than its bound. -/
def Admissible (ctx : Context) : Prop :=
  ∀ is js s t, Reached ctx is s → (is ++ js).Nodup → applyAll ctx s js = .ok t →
    ∀ cost pool bound, evaluate ctx t = .ok (cost, pool) → cost ≠ maxU64 →
      lowerBound ctx s = .ok bound → bound ≤ cost

section States
variable {r : Request} {ctx : Context} {s t : State} {xs ys : List Note} {is js : List ℕ}

theorem balanced_perm (h : xs.Perm ys) (cp : ℕ) : r.balanced xs cp = r.balanced ys cp := by
  unfold Request.balanced Request.surplus Request.change
  rw [valueOf_perm _ h, Request.valueIn_perm h, Request.needed_perm r cp h]

theorem balanceable_perm (notes : List Note) (h : xs.Perm ys) :
    r.balanceable notes xs = r.balanceable notes ys := by
  unfold Request.balanceable Request.surplus Request.left
  simp only [valueOf_perm _ h]

theorem applyAll_range (h : applyAll ctx s is = .ok t) : ∀ i ∈ is, i < ctx.notes.length := by
  induction is generalizing s with
  | nil => exact fun i hi => by cases hi
  | cons i is ih =>
    unfold applyAll at h
    rw [List.foldlM_cons] at h
    obtain ⟨u, hu, hrest⟩ := bind_eq_ok.1 h
    obtain ⟨n, hn, -⟩ := bind_eq_ok.1 hu
    intro j hj
    rcases List.mem_cons.1 hj with rfl | hj
    · unfold noteAt at hn
      split at hn
      · rename_i hget
        exact (List.getElem?_eq_some_iff.1 hget).1
      · cases hn
    · exact ih hrest j hj

theorem applyAll_tracks (hc : Serves r ctx) (hidx : Indexed (fun _ => False) ctx)
    (h : Tracks r ctx s xs) (hnodup : (s.selected ++ is).Nodup) (hrun : applyAll ctx s is = .ok t) :
    ∃ ys, Tracks r ctx t ys ∧ t.selected = s.selected ++ is :=
  (applyAll_spec hc hidx is h hnodup (applyAll_range hrun)).result hrun

theorem Reached.tracks (hc : Serves r ctx) (hidx : Indexed (fun _ => False) ctx)
    (h : Reached ctx is s) : ∃ xs, Tracks r ctx s xs ∧ s.selected = is := by
  obtain ⟨start, hstart, hrun⟩ := bind_eq_ok.1 h.run
  obtain ⟨start', hstart', htracks⟩ := initialState_spec hc
  rw [hstart] at hstart'
  cases hstart'
  have hempty : start.selected = [] := List.map_eq_nil_iff.1 htracks.selected
  have hspec := applyAll_tracks hc hidx htracks (by rw [hempty]; exact h.once) hrun
  rwa [hempty] at hspec

theorem exists_reached (hc : Serves r ctx) (hidx : Indexed (fun _ => False) ctx)
    (h : List.Subperm xs ctx.notes) :
    ∃ is s ys, Reached ctx is s ∧ Tracks r ctx s ys ∧ ys.Perm xs := by
  obtain ⟨is, ys, hn, his, hperm⟩ := exists_places h
  obtain ⟨start, hstart, htracks⟩ := initialState_spec hc
  have hempty : start.selected = [] := List.map_eq_nil_iff.1 htracks.selected
  have hrange : ∀ i ∈ is, i < ctx.notes.length := by
    intro i hi
    have hmem : ctx.notes[i]? ∈ ys.map some := his ▸ List.mem_map_of_mem hi
    obtain ⟨x, -, hx⟩ := List.mem_map.1 hmem
    exact (List.getElem?_eq_some_iff.1 hx.symm).1
  obtain ⟨s, hs, zs, hzs, hsel⟩ := (applyAll_spec hc hidx is htracks
    (by rw [hempty]; exact hn) hrange).returns
  rw [hempty, List.nil_append] at hsel
  have hzy : zs = ys := by
    have hsome := hzs.selected
    rw [hsel, his] at hsome
    exact List.map_injective_iff.2 (Option.some_injective _) hsome.symm
  exact ⟨is, s, ys, ⟨hn, by rw [hstart, ok_bind, hs]⟩, hzy ▸ hzs, hperm⟩

theorem unselected_eq (h : Tracks r ctx s xs) (p : ℕ) :
    unselected ctx s p = Request.left ctx.notes xs p := by
  have hlt : ∀ i ∈ s.selected, i < ctx.notes.length := by
    intro i hi
    have hmem : ctx.notes[i]? ∈ xs.map some := h.selected ▸ List.mem_map_of_mem hi
    obtain ⟨x, -, hx⟩ := List.mem_map.1 hmem
    exact (List.getElem?_eq_some_iff.1 hx.symm).1
  have htaken := marked_perm ctx.notes h.nodup hlt
  rw [filterMap_of_map h.selected] at htaken
  have hrest : (remainingNotes ctx s).map Prod.snd =
      (ctx.notes.zipIdx.filter fun n => n.2 ∉ s.selected).map Prod.fst := by
    simp [remainingNotes, Function.comp_def]
  have hall : valueOf (·.pool = p) xs + unselected ctx s p = valueOf (·.pool = p) ctx.notes := by
    unfold unselected
    rw [hrest, ← valueOf_perm _ htaken, ← valueOf_append]
    exact valueOf_perm _ (marked_append_unmarked ctx.notes s.selected)
  unfold Request.left
  omega

theorem lowerBound_eq (hc : Serves r ctx) (hidx : Indexed (fun _ => False) ctx)
    (h : Tracks r ctx s xs) : lowerBound ctx s = .ok (r.bound ctx.notes xs) := by
  obtain ⟨b, hb, heq⟩ := (lowerBound_spec hc hidx h).returns
  rw [hb, heq]
  unfold Request.bound Request.surplus
  simp only [List.map_cons, List.map_nil, List.sum_cons, List.sum_nil, unselected_eq h, h.tin, h.tout,
    h.balance 1 (by decide) (by decide), h.balance 2 (by decide) (by decide),
    h.balance 3 (by decide) (by decide)]

theorem subperm_of_extends (hs : Tracks r ctx s xs) (ht : Tracks r ctx t ys)
    (hsel : t.selected = s.selected ++ js) : List.Subperm xs ys := by
  have hmap := ht.selected
  rw [hsel, List.map_append, hs.selected] at hmap
  obtain ⟨xs', ws, rfl, hxs, -⟩ := List.map_eq_append_iff.1 hmap.symm
  rw [← List.map_injective_iff.2 (Option.some_injective _) hxs]
  exact (List.sublist_append_left xs' ws).subperm

end States

/-! ### Admissibility -/

section Main
variable {r : Request} {ctx : Context}

/-- No selection gets change that balances its pool by more than the notes left could. -/
def ChangeCovered (r : Request) (notes : List Note) : Prop :=
  ∀ ys, List.Subperm ys notes → ∀ cp, 1 ≤ cp → cp < numPools → r.Pays ys cp →
    r.balanced ys cp ≤ r.balanceable notes ys

theorem admissible_of_covered (hc : Serves r ctx) (hidx : Indexed (fun _ => False) ctx)
    (hcov : ChangeCovered r ctx.notes) : Admissible ctx := by
  intro is js s t hreach hnodup hrun cost pool bound hev hreal hbound
  obtain ⟨xs, hs, hsel⟩ := hreach.tracks hc hidx
  rw [← hsel] at hnodup
  obtain ⟨ys, ht, hext⟩ := applyAll_tracks hc hidx hs hnodup hrun
  rw [lowerBound_eq hc hidx hs] at hbound
  cases hbound
  refine (Request.bound_mono (subperm_of_extends hs ht hext) ht.subperm).trans ?_
  obtain ⟨b, hb, hbest⟩ := evaluate_spec hc ht
  rw [hev] at hb
  cases hb
  cases hbest with
  | none hcost never => exact absurd hcost hreal
  | some hmem hpays hcost _ =>
    have hlt := List.mem_range.1 hmem
    rw [hcost]
    by_cases hzero : b.pool = 0
    · rw [hzero]
      exact Request.bound_le_turnstile_zero
    · have hpos : 1 ≤ b.pool := Nat.pos_of_ne_zero hzero
      exact (Request.bound_le_turnstile_iff hpos hlt).2 (hcov ys ht.subperm b.pool hpos hlt hpays)

theorem covered_of_admissible (hc : Serves r ctx) (hidx : Indexed (fun _ => False) ctx)
    (hadm : Admissible ctx) : ChangeCovered r ctx.notes := by
  intro ys hys cp hpos hlt hpays
  obtain ⟨is, s, zs, hreach, hs, hperm⟩ := exists_reached hc hidx hys
  have hpays' : r.Pays zs cp := hpays.perm hperm.symm
  obtain ⟨b, hb, hbest⟩ := evaluate_spec hc hs
  have hreal : b.cost ≠ maxU64 := by
    cases hbest with
    | none _ never => exact absurd hpays' (never cp (List.mem_range.2 hlt))
    | some _ _ _ real => exact real
  have hle := hadm is [] s s hreach (by rw [List.append_nil]; exact hreach.once) rfl _ _ _ hb hreal
    (lowerBound_eq hc hidx hs)
  rw [← balanced_perm hperm, ← balanceable_perm ctx.notes hperm,
    ← Request.bound_le_turnstile_iff hpos hlt]
  exact hle.trans (evaluate_cheapest hc hs hb hlt hpays')

theorem ChangeCovered.perm {notes notes' : List Note} (h : notes.Perm notes')
    (hcov : ChangeCovered r notes) : ChangeCovered r notes' := by
  intro ys hys cp hpos hlt hpays
  have hleft : r.balanceable notes ys = r.balanceable notes' ys := by
    unfold Request.balanceable Request.left
    simp only [valueOf_perm _ h]
  rw [← hleft]
  exact hcov ys (hys.trans h.symm.subperm) cp hpos hlt hpays

/-- The lower bound is admissible exactly when the change of every selection that pays balances
    its pool by no more than the notes it leaves could balance the pools. -/
theorem lowerBound_admissible_iff (notes : List Note) (r : Request) (ctx : Context)
    (hin : (notes.map Note.amount).sum < 2 ^ 62) (hout : (r.outputs.map Output.amount).sum < 2 ^ 62)
    (hidx : ∀ n ∈ notes, n.pool < numPools ∧ n.assetIndex < r.numAssets)
    (hctx : buildContext notes r.outputs costPerAction r.migration r.recipientPaysFee
      r.firstRecipientAmount = .ok (some ctx)) :
    Admissible ctx ↔ ChangeCovered r (notes.filter (isCandidate costPerAction)) := by
  have hspec := @buildContext_spec (fun _ => True) _ r hin hout (Or.inl trivial)
  obtain ⟨hc, hperm⟩ := (hspec.result hctx).2 ctx rfl
  have hidx' : Indexed (fun _ => False) ctx := fun n hn => by
    rw [hc.nAssets]
    exact Or.inr (hidx n (List.mem_of_mem_filter (hperm.mem_iff.1 hn)))
  constructor
  · exact fun hadm => (covered_of_admissible hc hidx' hadm).perm hperm
  · exact fun hcov => admissible_of_covered hc hidx' (hcov.perm hperm.symm)

/-- Transparent notes leave no pool with a surplus that change could balance. -/
theorem transparent_admissible :
    ∃ ctx, buildContext [⟨0, 30000, 0, 0⟩, ⟨0, 20000, 1, 0⟩] [⟨0, 10000, 0⟩] costPerAction false false
      10000 = .ok (some ctx) ∧ Admissible ctx := by
  refine ⟨_, rfl, ?_⟩
  refine (lowerBound_admissible_iff [⟨0, 30000, 0, 0⟩, ⟨0, 20000, 1, 0⟩]
    ⟨[⟨0, 10000, 0⟩], false, false, 10000⟩ _ (by decide) (by decide) (by decide) rfl).2 ?_
  intro ys hys cp hpos hlt _
  have hvalue := Request.valueOf_le_of_subperm (·.pool = cp) hys
  have hcp : 0 ≠ cp := Nat.ne_of_lt hpos
  have hzero : valueOf (·.pool = cp)
      (List.filter (isCandidate costPerAction) [⟨0, 30000, 0, 0⟩, ⟨0, 20000, 1, 0⟩]) = 0 := by
    simp [valueOf, isCandidate, costPerAction, hcp]
  have hnone : outputValue (·.pool = cp) [⟨0, 10000, 0⟩] = 0 := by
    simp [outputValue, hcp]
  rw [hzero] at hvalue
  unfold Request.balanced Request.surplus
  rw [hnone, Nat.le_zero.1 hvalue, sub_self, Int.natAbs_zero, Nat.zero_sub]
  exact Nat.zero_le _

/-- One Orchard note pays a transparent address and gets its change back into Orchard. -/
theorem shieldedChange_not_admissible :
    ∃ ctx s, buildContext [⟨2, 100000, 0, 0⟩] [⟨0, 40000, 0⟩] costPerAction false false 40000 =
        .ok (some ctx) ∧ Reached ctx [0] s ∧ evaluate ctx s = .ok (95000, 2) ∧
      lowerBound ctx s = .ok 140000 ∧ ¬ Admissible ctx := by
  refine ⟨_, _, rfl, ⟨List.nodup_singleton 0, rfl⟩, by rfl, by rfl, fun hadm => ?_⟩
  have hle := hadm [0] [] _ _ ⟨List.nodup_singleton 0, rfl⟩ (List.nodup_singleton 0) rfl 95000 2 140000
    (by rfl) (by decide) (by rfl)
  omega

end Main

end ZcashSdk.Pay.Solve
