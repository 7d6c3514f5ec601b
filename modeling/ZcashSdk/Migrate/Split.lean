import ZcashSdk.Pay.FeeManager
import ZcashSdk.Lib.Iterate

set_option autoImplicit false

/-!
# Splitting notes into standard denominations

The greedy decomposition takes at most nine of each denomination, so one byte holds every
count, and the trim keeps the value of the plan while it moves denominations into the
remainder. It ends because it has one output less at every turn.
-/
namespace ZcashSdk.Migrate
open Pay Pay.Solve Loops Outcomes Iterate

def minSd : ℕ := 100 * costPerAction
def maxSplitInputs : ℕ := 50

/-- The fees a standard denomination carries. -/
def sdFeePad : ℕ := 4 * costPerAction

def maxMoney : ℕ := 21000000 * 10 ^ 8

/-! ### Standard denominations -/

def dMin : ℕ := 10 ^ 5 + sdFeePad

/-- The loop of `decompose_to_sd` over the exponents; `as u8` cuts the count. -/
def decomposeLoop : List ℕ → List (ℕ × ℕ) → ℕ → List (ℕ × ℕ) × ℕ
  | [], result, remainder => (result, remainder)
  | k :: ks, result, remainder =>
    if remainder < dMin then (result, remainder)
    else
      let d := 10 ^ k + sdFeePad
      let count := remainder / d % 2 ^ 8
      decomposeLoop ks (if 0 < count then result ++ [(d, count)] else result) (remainder % d)

def kMin : ℕ := 5
def kMax : ℕ := 16

def decomposeToSd (total : ℕ) : List (ℕ × ℕ) × ℕ :=
  decomposeLoop (List.range' kMin (kMax - kMin)).reverse [] total

/-- `while x % 10 == 0 { x /= 10 }`; zero never comes here. -/
def stripTens (x : ℕ) : ℕ :=
  if h : 0 < x ∧ x % 10 = 0 then stripTens (x / 10) else x
termination_by x
decreasing_by omega

def isIwSd (value : ℕ) : Bool :=
  100000 ≤ value && value % 100000 == 0 && stripTens (value / 100000) == 1

def isSd (value : ℕ) : Bool := sdFeePad < value && isIwSd (value - sdFeePad)

/-! ### The plan -/

structure SplitPlan where
  digits : List (ℕ × ℕ)
  remainder : ℕ
  total : ℕ
  deriving DecidableEq

def worth (digits : List (ℕ × ℕ)) : ℕ := (digits.map fun p => p.1 * p.2).sum

def outputs (digits : List (ℕ × ℕ)) : ℕ := (digits.map Prod.snd).sum

def sumU64 (xs : List ℕ) : Except Fault ℕ := xs.foldlM (fun sum x => u64 (sum + x)) 0

/-- `x -= 1` of an unsigned `x`. -/
def lower (n : ℕ) : Except Fault ℕ := if 0 < n then .ok (n - 1) else .error .overflow

/-- `FeeManager::remove_output`. -/
def removeOutput (fm : FeeManager) (pool : ℕ) : Except Fault FeeManager := do
  index pool numPools
  let n ← lower (fm.numOutputs pool)
  .ok { fm with numOutputs := Function.update fm.numOutputs pool n }

def largest (values : List ℕ) : List ℕ :=
  (values.mergeSort fun a b => decide (b ≤ a)).take maxSplitInputs

/-- The inputs and outputs of a split; the last output is the change. -/
def splitCalls (numInputs numOutputs : ℕ) : List FeeCall :=
  List.replicate numInputs (.addInput 2) ++ List.replicate numOutputs (.addOutput 2) ++
    [.addOutput 2]

structure Trim where
  digits : List (ℕ × ℕ)
  remainder : ℕ
  numOutputs : ℕ
  fm : FeeManager

def trimStep (t : Trim) : Except Fault (Option Trim) :=
  if t.fm.fee ≤ t.remainder ∨ t.numOutputs = 0 then .ok none
  else match t.digits.getLast? with
    | none => .ok (some t)
    | some (denom, count) => do
      let count ← lower count
      let remainder ← u64 (t.remainder + denom)
      let numOutputs ← lower t.numOutputs
      let fm ← removeOutput t.fm 2
      let rest := t.digits.dropLast
      .ok (some ⟨if count = 0 then rest else rest ++ [(denom, count)], remainder, numOutputs, fm⟩)

/-- A turn of the loop, which ends where it breaks and at a fault. -/
def trimTurn (t : Trim) : Trim ⊕ Except Fault Trim :=
  match trimStep t with
  | .error e => .inr (.error e)
  | .ok none => .inr (.ok t)
  | .ok (some t') => .inl t'

/-- A remainder that may not pay the fee gets `minSd` carved out of what is decomposed. -/
def carve (total : ℕ) : Except Fault (List (ℕ × ℕ) × ℕ) :=
  let natural := decomposeToSd total
  if natural.2 < minSd / 2 then do
    let carved := decomposeToSd (total - minSd)
    let remainder ← u64 (carved.2 + minSd)
    .ok (carved.1, remainder)
  else .ok natural

/-- `plan_split` up to its loop, with the total. -/
def splitStart (values : List ℕ) : Except Fault (Option (ℕ × Trim)) := do
  let sorted := largest values
  let total ← sumU64 sorted
  if total < minSd then .ok none
  else
    let (digits, remainder) ← carve total
    let numOutputs ← sumU64 (digits.map Prod.snd)
    let fm ← (FeeManager.new true).feed (splitCalls sorted.length numOutputs)
    .ok (some (total, ⟨digits, remainder, numOutputs, fm⟩))

def splitEnd (total : ℕ) (t : Trim) : Option SplitPlan :=
  if 0 < t.numOutputs then some ⟨t.digits, t.remainder, total⟩ else none

def planSplit (fuel : ℕ) (values : List ℕ) : Option (Except Fault (Option SplitPlan)) :=
  match splitStart values with
  | .error e => some (.error e)
  | .ok none => some (.ok none)
  | .ok (some (total, t)) => (iterate trimTurn fuel t).map fun r => r.map (splitEnd total)

theorem planSplit_mono {values : List ℕ} {r : Except Fault (Option SplitPlan)} {fuel : ℕ}
    (h : planSplit fuel values = some r) (n : ℕ) : planSplit (fuel + n) values = some r := by
  unfold planSplit at h ⊢
  split at h
  · exact h
  · exact h
  · obtain ⟨t, ht, hr⟩ := Option.map_eq_some_iff.1 h
    rw [iterate_mono ht n]
    exact congrArg some hr

/-! ### What a denomination is -/

theorem stripTens_pow (n : ℕ) : stripTens (10 ^ n) = 1 := by
  induction n with
  | zero => rw [stripTens, dif_neg (by decide), pow_zero]
  | succ n ih =>
    have hpos : 0 < 10 ^ n := Nat.pow_pos (by decide)
    rw [stripTens, dif_pos (by rw [pow_succ]; omega), pow_succ, Nat.mul_div_cancel _ (by decide), ih]

theorem eq_stripTens_mul (x : ℕ) (hx : 0 < x) : ∃ n, x = stripTens x * 10 ^ n := by
  induction x using Nat.strong_induction_on with
  | h x ih =>
    by_cases hten : x % 10 = 0
    · obtain ⟨n, hn⟩ := ih (x / 10) (by omega) (by omega)
      refine ⟨n + 1, ?_⟩
      rw [stripTens, dif_pos ⟨hx, hten⟩, pow_succ, ← Nat.mul_assoc, ← hn]
      omega
    · refine ⟨0, ?_⟩
      rw [stripTens, dif_neg (fun h => hten h.2), pow_zero, Nat.mul_one]

theorem isIwSd_iff (value : ℕ) : isIwSd value = true ↔ ∃ k, kMin ≤ k ∧ value = 10 ^ k := by
  unfold isIwSd kMin
  simp only [Bool.and_eq_true, decide_eq_true_eq, beq_iff_eq]
  constructor
  · rintro ⟨⟨hge, hmod⟩, hstrip⟩
    obtain ⟨n, hn⟩ := eq_stripTens_mul (value / 100000) (by omega)
    rw [hstrip, Nat.one_mul] at hn
    refine ⟨n + 5, by omega, ?_⟩
    rw [pow_add, ← hn]
    omega
  · rintro ⟨k, hk, rfl⟩
    obtain ⟨n, rfl⟩ := Nat.exists_eq_add_of_le' hk
    have hpos : 0 < 10 ^ n := Nat.pow_pos (by decide)
    have hdiv : 10 ^ (n + 5) / 100000 = 10 ^ n := by
      rw [pow_add]
      exact Nat.mul_div_cancel _ (by decide)
    rw [hdiv]
    refine ⟨⟨?_, ?_⟩, stripTens_pow n⟩
    · rw [pow_add]
      omega
    · rw [pow_add]
      exact Nat.mul_mod_left _ _

theorem isSd_iff (value : ℕ) : isSd value = true ↔ ∃ k, kMin ≤ k ∧ value = 10 ^ k + sdFeePad := by
  unfold isSd
  rw [Bool.and_eq_true, decide_eq_true_eq, isIwSd_iff]
  constructor
  · rintro ⟨hlt, k, hk, hv⟩
    exact ⟨k, hk, by omega⟩
  · rintro ⟨k, hk, rfl⟩
    have hpos : 0 < 10 ^ k := Nat.pow_pos (by decide)
    exact ⟨by omega, k, hk, by omega⟩

/-! ### The decomposition -/

theorem worth_append (ds es : List (ℕ × ℕ)) : worth (ds ++ es) = worth ds + worth es := by
  unfold worth
  rw [List.map_append, List.sum_append]

theorem outputs_append (ds es : List (ℕ × ℕ)) : outputs (ds ++ es) = outputs ds + outputs es := by
  unfold outputs
  rw [List.map_append, List.sum_append]

theorem worth_singleton (d c : ℕ) : worth [(d, c)] = d * c := by simp [worth]

theorem outputs_singleton (d c : ℕ) : outputs [(d, c)] = c := by simp [outputs]

def Standard (digits : List (ℕ × ℕ)) : Prop :=
  ∀ p ∈ digits, 0 < p.2 ∧ isSd p.1 = true

theorem Standard.append {ds es : List (ℕ × ℕ)} (hd : Standard ds) (he : Standard es) :
    Standard (ds ++ es) := fun p hp => (List.mem_append.1 hp).elim (hd p) (he p)

theorem Standard.singleton {d c : ℕ} (hc : 0 < c) (hd : isSd d = true) : Standard [(d, c)] := by
  intro p hp
  rw [List.mem_singleton] at hp
  subst hp
  exact ⟨hc, hd⟩

/-- What the loop adds to its result: at most nine of a kind, one kind an exponent. -/
structure Decomposes (n remainder : ℕ) (ds : List (ℕ × ℕ)) (left : ℕ) : Prop where
  value : worth ds + left = remainder
  left : left < dMin
  standard : Standard ds
  few : outputs ds ≤ 9 * n

theorem decomposeLoop_spec (n : ℕ) (result : List (ℕ × ℕ)) (remainder : ℕ)
    (hlt : remainder < 10 ^ (kMin + n) + sdFeePad) :
    ∃ ds, (decomposeLoop (List.range' kMin n).reverse result remainder).1 = result ++ ds ∧
      Decomposes n remainder ds (decomposeLoop (List.range' kMin n).reverse result remainder).2 := by
  induction n generalizing result remainder with
  | zero => exact ⟨[], (List.append_nil _).symm, ⟨Nat.zero_add _, hlt, by simp [Standard], le_refl _⟩⟩
  | succ n ih =>
    rw [List.range'_1_concat, List.reverse_append, List.reverse_singleton, List.singleton_append,
      decomposeLoop]
    split
    · rename_i hsmall
      exact ⟨[], (List.append_nil _).symm,
        ⟨Nat.zero_add _, hsmall, by simp [Standard], Nat.zero_le _⟩⟩
    · have hd : 0 < 10 ^ (kMin + n) + sdFeePad := Nat.add_pos_left (Nat.pow_pos (by decide)) _
      have hten : 10 ^ (kMin + (n + 1)) = 10 ^ (kMin + n) * 10 := pow_succ ..
      generalize hdenom : 10 ^ (kMin + n) + sdFeePad = d at hd
      -- ten of this denomination are worth more than one of the next
      have hnine : remainder / d < 10 := (Nat.div_lt_iff_lt_mul hd).2 (by omega)
      have hcount : remainder / d % 2 ^ 8 = remainder / d := Nat.mod_eq_of_lt (by omega)
      have hmod : remainder % d < 10 ^ (kMin + n) + sdFeePad := by
        rw [hdenom]
        exact Nat.mod_lt _ hd
      have hvalue : d * (remainder / d) + remainder % d = remainder := Nat.div_add_mod _ _
      simp only [hcount]
      split
      · rename_i hpos
        obtain ⟨ds, hds, hdec⟩ := ih (result ++ [(d, remainder / d)]) (remainder % d) hmod
        have hvalue' := hdec.value
        have hfew := hdec.few
        refine ⟨(d, remainder / d) :: ds, ?_, ?_, hdec.left, ?_, ?_⟩
        · rw [hds, List.append_assoc, List.singleton_append]
        · rw [← List.singleton_append, worth_append, worth_singleton]
          omega
        · have hsd : isSd d = true := (isSd_iff d).2 ⟨_, Nat.le_add_right _ _, hdenom.symm⟩
          exact (Standard.singleton hpos hsd).append hdec.standard
        · rw [← List.singleton_append, outputs_append, outputs_singleton]
          omega
      · rename_i hzero
        obtain ⟨ds, hds, hdec⟩ := ih result (remainder % d) hmod
        have hvalue' := hdec.value
        have hfew := hdec.few
        refine ⟨ds, hds, ?_, hdec.left, hdec.standard, by omega⟩
        have hnone : remainder / d = 0 := by omega
        rw [hnone, Nat.mul_zero] at hvalue
        omega

theorem decomposeToSd_spec {total : ℕ} (h : total ≤ maxMoney) :
    Decomposes 11 total (decomposeToSd total).1 (decomposeToSd total).2 := by
  have hmoney : maxMoney < 10 ^ (kMin + 11) + sdFeePad := by decide
  obtain ⟨ds, hds, hdec⟩ := decomposeLoop_spec 11 [] total (by omega)
  rw [List.nil_append] at hds
  subst hds
  exact hdec

/-! ### The trim -/

def manager (ins outs : ℕ) : FeeManager :=
  ⟨Function.update (fun _ => 0) 2 ins, Function.update (fun _ => 0) 2 outs, true⟩

theorem manager_fee {ins outs : ℕ} (h : 2 ≤ ins + outs) :
    (manager ins outs).fee = (ins + outs) * costPerAction := by
  have hactions : (if 0 < ins ∨ 0 < outs then max (ins + outs) 2 else 0) = ins + outs := by
    rw [if_pos (by omega)]
    omega
  simp only [FeeManager.fee, manager, Function.update_self, ne_eq, OfNat.zero_ne_ofNat,
    not_false_eq_true, Function.update_of_ne, OfNat.one_ne_ofNat, Nat.reduceEqDiff, lt_self_iff_false,
    or_self, if_false, if_true, max_self, hactions]
  congr 1
  omega

theorem removeOutput_manager (ins outs : ℕ) :
    removeOutput (manager ins (outs + 1)) 2 = .ok (manager ins outs) := by
  unfold removeOutput manager lower
  simp only [index, numPools, Nat.reduceLT, if_true, ok_bind, Function.update_self,
    Nat.zero_lt_succ, Nat.add_sub_cancel, Function.update_idem]

theorem splitCalls_pools (ins outs : ℕ) : ∀ c ∈ splitCalls ins outs, c.pool < numPools := by
  intro c hc
  unfold splitCalls at hc
  simp only [List.mem_append, List.mem_replicate, List.mem_singleton] at hc
  rcases hc with (⟨-, rfl⟩ | ⟨-, rfl⟩) | rfl <;> decide

theorem splitCalls_inputs (ins outs p : ℕ) :
    inputsIn (splitCalls ins outs) p = if p = 2 then ins else 0 := by
  unfold inputsIn splitCalls
  simp only [List.count_append, List.count_replicate, List.count_singleton, beq_iff_eq,
    FeeCall.addInput.injEq, reduceCtorEq, if_false, Nat.add_zero, eq_comm (a := 2)]

theorem splitCalls_outputs (ins outs p : ℕ) :
    outputsIn (splitCalls ins outs) p = if p = 2 then outs + 1 else 0 := by
  unfold outputsIn splitCalls
  simp only [List.count_append, List.count_replicate, List.count_singleton, beq_iff_eq,
    FeeCall.addOutput.injEq, reduceCtorEq, if_false, Nat.zero_add, eq_comm (a := 2)]
  split <;> rfl

theorem feed_splitCalls {ins outs : ℕ} (hins : ins ≤ 255) (houts : outs < 255) :
    (FeeManager.new true).feed (splitCalls ins outs) = .ok (manager ins (outs + 1)) := by
  have hcount : Countable (splitCalls ins outs) := by
    intro p
    rw [splitCalls_inputs, splitCalls_outputs]
    split <;> omega
  obtain ⟨fm, hfm⟩ := @feed_returns _ true (splitCalls_pools ins outs) hcount
  have hcounted := (feed_counted hfm).1
  rw [hfm]
  congr 1
  cases fm with
  | mk numInputs numOutputs migration =>
    unfold manager
    congr 1
    · funext p
      rw [show numInputs p = _ from hcounted.inputs p, splitCalls_inputs, Function.update_apply]
    · funext p
      rw [show numOutputs p = _ from hcounted.outputs p, splitCalls_outputs, Function.update_apply]
    · exact hcounted.migration

/-- The value of the plan stays, and the manager counts what is left of it. -/
structure Trimming (total ins : ℕ) (t : Trim) : Prop where
  value : worth t.digits + t.remainder = total
  counted : outputs t.digits = t.numOutputs
  standard : Standard t.digits
  few : t.numOutputs < 255
  fm : t.fm = manager ins (t.numOutputs + 1)

/-- The loop is through: the fee fits, or nothing is left to send. -/
def Trim.Through (t : Trim) : Prop := t.fm.fee ≤ t.remainder ∨ t.numOutputs = 0

section TrimLoop
variable {total ins : ℕ} {t : Trim}

theorem trimStep_through (h : t.Through) : trimStep t = .ok none := if_pos h

theorem trimStep_lowers (h : Trimming total ins t) (htotal : total < 2 ^ 64) (hgo : ¬ t.Through) :
    ∃ t', trimStep t = .ok (some t') ∧ Trimming total ins t' ∧ t'.numOutputs + 1 = t.numOutputs := by
  have hpos : 0 < t.numOutputs := Nat.pos_of_ne_zero fun h0 => hgo (.inr h0)
  have hvalue := h.value
  have hcounted := h.counted
  unfold trimStep
  rw [if_neg (show ¬ (t.fm.fee ≤ t.remainder ∨ t.numOutputs = 0) from hgo)]
  rcases List.eq_nil_or_concat t.digits with hnil | ⟨rest, ⟨denom, count⟩, hdigits⟩
  · rw [hnil] at hcounted
    simp only [outputs, List.map_nil, List.sum_nil] at hcounted
    omega
  · have hstandard := h.standard
    rw [hdigits] at hvalue hcounted hstandard
    obtain ⟨hcount, hsd⟩ := hstandard (denom, count) (by simp)
    have hfew := h.few
    rw [List.concat_eq_append] at hdigits hvalue hcounted hstandard
    have hrest : Standard rest := fun p hp => hstandard p (List.mem_append_left _ hp)
    rw [worth_append, worth_singleton] at hvalue
    rw [outputs_append, outputs_singleton] at hcounted
    change 0 < count at hcount
    obtain ⟨c, rfl⟩ : ∃ c, count = c + 1 := ⟨count - 1, by omega⟩
    obtain ⟨m, hm⟩ : ∃ m, t.numOutputs = m + 1 := ⟨t.numOutputs - 1, by omega⟩
    have hmul : denom * (c + 1) = denom * c + denom := Nat.mul_succ _ _
    rw [hdigits, List.getLast?_concat, List.dropLast_concat, h.fm]
    simp only [lower, hcount, if_true, ok_bind, hm, removeOutput_manager, Nat.add_sub_cancel]
    rw [u64_ok (by omega), ok_bind]
    refine ⟨_, rfl, ⟨?_, ?_, ?_, by dsimp only; omega, rfl⟩, rfl⟩
    · dsimp only
      split
      · rename_i hzero
        rw [hzero, Nat.zero_add, Nat.mul_one] at hvalue
        omega
      · rw [worth_append, worth_singleton]
        omega
    · dsimp only
      split
      · omega
      · rw [outputs_append, outputs_singleton]
        omega
    · dsimp only
      split
      · exact hrest
      · exact hrest.append (Standard.singleton (by omega) hsd)

/-- One output less at every turn: the loop ends, and no count goes below zero. -/
theorem trim_ends (h : Trimming total ins t) (htotal : total < 2 ^ 64) :
    ∃ t', Ends trimTurn t (.ok t') ∧ Trimming total ins t' ∧ t'.Through := by
  have hends := ends_of_turns trimTurn (Trimming total ins)
    (fun r => ∃ t', r = .ok t' ∧ Trimming total ins t' ∧ t'.Through) (measure Trim.numOutputs).wf
    (fun t ht => by
      unfold trimTurn
      by_cases hthrough : t.Through
      · rw [trimStep_through hthrough]
        exact ⟨t, rfl, ht, hthrough⟩
      · obtain ⟨t₁, hstep, hinv, hless⟩ := trimStep_lowers ht htotal hthrough
        rw [hstep]
        exact ⟨hinv, show t₁.numOutputs < t.numOutputs by omega⟩) h
  obtain ⟨r, hr, t', rfl, hinv, hthrough⟩ := hends
  exact ⟨t', hr, hinv, hthrough⟩

end TrimLoop

/-! ### The plan of a split -/

/-- The notes taken: fifty of the largest, or all there are. -/
def Takes (values taken : List ℕ) : Prop :=
  taken.length = min maxSplitInputs values.length ∧
    ∃ left, (taken ++ left).Perm values ∧ ∀ x ∈ taken, ∀ y ∈ left, y ≤ x

theorem largest_takes (values : List ℕ) : Takes values (largest values) := by
  have htrans : ∀ a b c : ℕ, decide (b ≤ a) = true → decide (c ≤ b) = true →
      decide (c ≤ a) = true := by
    intro a b c hab hbc
    rw [decide_eq_true_eq] at hab hbc ⊢
    omega
  have htotal : ∀ a b : ℕ, (decide (b ≤ a) || decide (a ≤ b)) = true := by
    intro a b
    rw [Bool.or_eq_true, decide_eq_true_eq, decide_eq_true_eq]
    omega
  have hsorted := List.pairwise_mergeSort htrans htotal values
  have hperm := List.mergeSort_perm values fun a b => decide (b ≤ a)
  unfold Takes largest
  refine ⟨?_, (values.mergeSort fun a b => decide (b ≤ a)).drop maxSplitInputs, ?_, ?_⟩
  · rw [List.length_take, List.length_mergeSort]
  · rw [List.take_append_drop]
    exact hperm
  · intro x hx y hy
    rw [← List.take_append_drop maxSplitInputs (values.mergeSort _), List.pairwise_append] at hsorted
    exact of_decide_eq_true (hsorted.2.2 x hx y hy)

theorem Takes.sum_le {values taken : List ℕ} (h : Takes values taken) : taken.sum ≤ values.sum := by
  obtain ⟨-, left, hperm, -⟩ := h
  rw [← hperm.sum_eq, List.sum_append]
  omega

theorem sumU64_ok {xs : List ℕ} (h : xs.sum < 2 ^ 64) : sumU64 xs = .ok xs.sum := by
  have hsum := foldlM_u64 id xs 0 (by simpa using h)
  simpa [sumU64] using hsum

/-- Carved or not, the digits are few, and with the remainder they are worth the total. -/
theorem carve_spec {total : ℕ} (h : total ≤ maxMoney) (hmin : minSd ≤ total) :
    ∃ digits remainder, carve total = .ok (digits, remainder) ∧
      worth digits + remainder = total ∧ Standard digits ∧ outputs digits ≤ 99 := by
  have hmoney : maxMoney = 21000000 * 10 ^ 8 := rfl
  unfold carve
  dsimp only
  split
  · have hdec := @decomposeToSd_spec (total - minSd) (by omega)
    have hvalue := hdec.value
    refine ⟨_, _, by rw [u64_ok (by omega), ok_bind], ?_, hdec.standard, hdec.few⟩
    omega
  · have hdec := decomposeToSd_spec h
    exact ⟨_, _, rfl, hdec.value, hdec.standard, hdec.few⟩

theorem splitStart_spec {values : List ℕ} (h : values.sum ≤ maxMoney) :
    splitStart values = .ok none ∨
      ∃ t, splitStart values = .ok (some ((largest values).sum, t)) ∧
        Trimming (largest values).sum (largest values).length t := by
  have htakes := largest_takes values
  have hle := htakes.sum_le
  have hmoney : maxMoney = 21000000 * 10 ^ 8 := rfl
  have hsd : minSd = 500000 := rfl
  have hlength : (largest values).length ≤ 50 := by
    rw [htakes.1]
    exact Nat.min_le_left _ _
  unfold splitStart
  simp only [@sumU64_ok (largest values) (by omega), ok_bind]
  split
  · exact .inl rfl
  · rename_i hlarge
    right
    obtain ⟨digits, remainder, hrun, hvalue, hstandard, hfew⟩ :=
      carve_spec (show (largest values).sum ≤ maxMoney by omega) (by omega)
    have hfew' : (digits.map Prod.snd).sum ≤ 99 := hfew
    rw [hrun, ok_bind]
    dsimp only
    rw [sumU64_ok (by omega), ok_bind, feed_splitCalls (by omega) (by omega), ok_bind]
    exact ⟨_, rfl, hvalue, rfl, hstandard, by dsimp only; omega, rfl⟩

/-- A plan that keeps the value of the notes it takes, sends something, only standard
    denominations, and leaves what the fee takes. -/
structure SplitPlan.Sound (taken : List ℕ) (plan : SplitPlan) : Prop where
  total : plan.total = taken.sum
  value : worth plan.digits + plan.remainder = plan.total
  sends : 0 < outputs plan.digits
  standard : ∀ p ∈ plan.digits, 0 < p.2 ∧ isSd p.1 = true
  fee : ∃ fm, (FeeManager.new true).feed (splitCalls taken.length (outputs plan.digits)) = .ok fm ∧
    fm.fee ≤ plan.remainder

theorem planSplit_ends {values : List ℕ} (h : values.sum ≤ maxMoney) :
    ∃ plan bound, (∀ fuel, bound ≤ fuel → planSplit fuel values = some (.ok plan)) ∧
      ∀ p, plan = some p → p.Sound (largest values) := by
  unfold planSplit
  rcases splitStart_spec h with hnone | ⟨t, ht, hinv⟩
  · refine ⟨none, 0, fun fuel _ => ?_, nofun⟩
    rw [hnone]
  · have hle := (largest_takes values).sum_le
    have hmoney : maxMoney = 21000000 * 10 ^ 8 := rfl
    obtain ⟨t', ⟨bound, hrun⟩, hinv', hthrough⟩ := trim_ends hinv (by omega)
    refine ⟨splitEnd (largest values).sum t', bound, fun fuel hfuel => ?_, ?_⟩
    · rw [ht]
      dsimp only
      rw [hrun fuel hfuel]
      rfl
    · intro p hp
      unfold splitEnd at hp
      split at hp
      · rename_i hpos
        cases hp
        have hcounted := hinv'.counted
        have hlength := (largest_takes values).1
        have hmax : maxSplitInputs = 50 := rfl
        refine ⟨rfl, hinv'.value, by dsimp only; omega, hinv'.standard, t'.fm, ?_, ?_⟩
        · rw [hcounted, hinv'.fm]
          exact feed_splitCalls (by omega) hinv'.few
        · rcases hthrough with hfee | hzero
          · exact hfee
          · omega
      · cases hp

/-- A plan is found without a fault, with all it promises; and a decomposition gives back its
    total, with less than the smallest denomination left. -/
theorem planSplit_sound (values : List ℕ) (h : values.sum ≤ maxMoney) :
    (∃ plan bound, (∀ fuel, bound ≤ fuel → planSplit fuel values = some (.ok plan)) ∧
      ∀ p, plan = some p → ∃ taken, Takes values taken ∧ p.Sound taken) ∧
    ∀ total ≤ maxMoney, worth (decomposeToSd total).1 + (decomposeToSd total).2 = total ∧
      (decomposeToSd total).2 < dMin := by
  constructor
  · obtain ⟨plan, bound, hrun, hsound⟩ := planSplit_ends h
    exact ⟨plan, bound, hrun, fun p hp => ⟨_, largest_takes values, hsound p hp⟩⟩
  · intro total htotal
    have hdec := decomposeToSd_spec htotal
    exact ⟨hdec.value, hdec.left⟩

/-- Two notes, whose natural remainder is nothing: the buffer is carved out. -/
theorem planSplit_twoNotes :
    ∃ bound taken, (∀ fuel, bound ≤ fuel →
        planSplit fuel [600000, 120000] = some (.ok (some ⟨[(120000, 1)], 600000, 720000⟩))) ∧
      Takes [600000, 120000] taken ∧ SplitPlan.Sound taken ⟨[(120000, 1)], 600000, 720000⟩ ∧
      ∃ fm, (FeeManager.new true).feed (splitCalls 2 1) = .ok fm ∧ fm.fee = 20000 := by
  obtain ⟨plan, bound, hrun, hsound⟩ := (planSplit_sound [600000, 120000] (by decide)).1
  have hlargest : largest [600000, 120000] = [600000, 120000] := by
    rw [largest, List.mergeSort_of_pairwise (by decide)]
    rfl
  have hplan : planSplit 10 [600000, 120000] =
      some (.ok (some ⟨[(120000, 1)], 600000, 720000⟩)) := by
    unfold planSplit splitStart
    rw [hlargest]
    decide +kernel
  have hfar := hrun (10 + bound) (Nat.le_add_left bound 10)
  rw [planSplit_mono hplan bound] at hfar
  cases hfar
  obtain ⟨taken, htakes, htaken⟩ := hsound _ rfl
  exact ⟨bound, taken, hrun, htakes, htaken, _, feed_splitCalls (by decide) (by decide), by rfl⟩

end ZcashSdk.Migrate
