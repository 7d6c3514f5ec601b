import ZcashSdk.Pay.Tracking

set_option autoImplicit false

/-!
# The two fee calculators

`FeeManager` counts inputs and outputs as they come, in one byte each; the solver's
`computeFee` takes the counts, less the change, which it adds itself. They agree as long as
the bytes hold the counts, and a transaction of the chain may have more.
-/
namespace ZcashSdk.Pay
open Solve Loops Outcomes

def u8 (n : ℕ) : Except Fault ℕ := if n < 2 ^ 8 then .ok n else .error .overflow

/-- `counts[pool] += 1`. -/
def increment (counts : ℕ → ℕ) (pool : ℕ) : Except Fault (ℕ → ℕ) := do
  index pool numPools
  let n ← u8 (counts pool + 1)
  .ok (Function.update counts pool n)

structure FeeManager where
  numInputs : ℕ → ℕ
  numOutputs : ℕ → ℕ
  migration : Bool

def FeeManager.new (migration : Bool) : FeeManager := ⟨fun _ => 0, fun _ => 0, migration⟩

inductive FeeCall where
  | addInput (pool : ℕ)
  | addOutput (pool : ℕ)
  deriving DecidableEq

def FeeCall.pool : FeeCall → ℕ
  | addInput pool => pool
  | addOutput pool => pool

namespace FeeManager

def addInput (fm : FeeManager) (pool : ℕ) : Except Fault FeeManager :=
  (increment fm.numInputs pool).map fun n => { fm with numInputs := n }

def addOutput (fm : FeeManager) (pool : ℕ) : Except Fault FeeManager :=
  (increment fm.numOutputs pool).map fun n => { fm with numOutputs := n }

def call (fm : FeeManager) : FeeCall → Except Fault FeeManager
  | .addInput pool => fm.addInput pool
  | .addOutput pool => fm.addOutput pool

def feed (fm : FeeManager) (calls : List FeeCall) : Except Fault FeeManager :=
  calls.foldlM call fm

/-- Issuance is not counted. -/
def fee (fm : FeeManager) : ℕ :=
  let t := max (fm.numInputs 0) (fm.numOutputs 0)
  let s := if 0 < fm.numInputs 1 ∨ 0 < fm.numOutputs 1 then
    max (max (fm.numInputs 1) (fm.numOutputs 1)) 2 else 0
  let o := if 0 < fm.numInputs 2 ∨ 0 < fm.numOutputs 2 then
    if fm.migration then max (fm.numInputs 2 + fm.numOutputs 2) 2
    else max (max (fm.numInputs 2) (fm.numOutputs 2)) 2
    else 0
  let i := if 0 < fm.numInputs 3 ∨ 0 < fm.numOutputs 3 then
    max (max (fm.numInputs 3) (fm.numOutputs 3)) 2 else 0
  max (t + s + o + i) 2 * costPerAction

end FeeManager

/-! ### The transactions of the chain -/

inductive OrchardBundle where
  | vanilla (actions : ℕ)
  | zsa (actions : ℕ)

/-- How much of everything a transaction has; a bundle that is missing has nothing. -/
structure ChainTx where
  vin : ℕ
  vout : ℕ
  shieldedSpends : ℕ
  shieldedOutputs : ℕ
  orchard : Option OrchardBundle
  ironwood : ℕ

def actionCalls (pool actions : ℕ) : List FeeCall :=
  (List.replicate actions [FeeCall.addInput pool, FeeCall.addOutput pool]).flatten

/-- The calls of `decrypt_memo`; a bundle of several assets makes none. -/
def feeCalls (tx : ChainTx) : List FeeCall :=
  List.replicate tx.vin (.addInput 0) ++ List.replicate tx.vout (.addOutput 0) ++
    (List.replicate tx.shieldedSpends (.addInput 1) ++
      List.replicate tx.shieldedOutputs (.addOutput 1)) ++
    (match tx.orchard with
    | some (.vanilla actions) => actionCalls 2 actions
    | _ => []) ++ actionCalls 3 tx.ironwood

/-- The fee `decrypt_memo` stores. -/
def decryptMemoFee (tx : ChainTx) : Except Fault ℕ :=
  ((FeeManager.new false).feed (feeCalls tx)).map FeeManager.fee

/-! ### Counts -/

def inputsIn (calls : List FeeCall) (pool : ℕ) : ℕ := calls.count (.addInput pool)
def outputsIn (calls : List FeeCall) (pool : ℕ) : ℕ := calls.count (.addOutput pool)

def Countable (calls : List FeeCall) : Prop :=
  ∀ p, inputsIn calls p ≤ 255 ∧ outputsIn calls p ≤ 255

section Counting
variable {fm fm' : FeeManager} {calls : List FeeCall} {migration : Bool}

theorem increment_ok {counts counts' : ℕ → ℕ} {pool : ℕ} :
    increment counts pool = .ok counts' ↔ pool < numPools ∧ counts pool < 255 ∧
      ∀ p, counts' p = counts p + if pool = p then 1 else 0 := by
  have hupdate : ∀ p, Function.update counts pool (counts pool + 1) p =
      counts p + if pool = p then 1 else 0 := by
    intro p
    by_cases hp : p = pool
    · subst hp
      rw [Function.update_self, if_pos rfl]
    · rw [Function.update_of_ne hp, if_neg (Ne.symm hp), Nat.add_zero]
  unfold increment index u8
  by_cases hpool : pool < numPools
  · rw [if_pos hpool, ok_bind]
    by_cases hlt : counts pool + 1 < 2 ^ 8
    · rw [if_pos hlt, ok_bind, Except.ok.injEq]
      constructor
      · rintro rfl
        exact ⟨hpool, by omega, hupdate⟩
      · rintro ⟨-, -, hcounts⟩
        funext p
        rw [hupdate, hcounts]
    · rw [if_neg hlt]
      exact ⟨fun h => (by cases h), fun h => absurd h.2.1 (by omega)⟩
  · rw [if_neg hpool]
    exact ⟨fun h => (by cases h), fun h => absurd h.1 hpool⟩

theorem inputsIn_snoc (calls : List FeeCall) (c : FeeCall) (p : ℕ) :
    inputsIn (calls ++ [c]) p = inputsIn calls p + if c = .addInput p then 1 else 0 := by
  unfold inputsIn
  rw [List.count_append, List.count_singleton]
  simp only [beq_iff_eq]

theorem outputsIn_snoc (calls : List FeeCall) (c : FeeCall) (p : ℕ) :
    outputsIn (calls ++ [c]) p = outputsIn calls p + if c = .addOutput p then 1 else 0 := by
  unfold outputsIn
  rw [List.count_append, List.count_singleton]
  simp only [beq_iff_eq]

structure Counted (migration : Bool) (calls : List FeeCall) (fm : FeeManager) : Prop where
  inputs : ∀ p, fm.numInputs p = inputsIn calls p
  outputs : ∀ p, fm.numOutputs p = outputsIn calls p
  migration : fm.migration = migration

theorem new_counted (migration : Bool) : Counted migration [] (.new migration) :=
  ⟨fun _ => rfl, fun _ => rfl, rfl⟩

theorem call_counted (h : Counted migration calls fm) (hcount : Countable calls) {c : FeeCall}
    (hcall : fm.call c = .ok fm') :
    Counted migration (calls ++ [c]) fm' ∧ Countable (calls ++ [c]) := by
  cases c with
  | addInput pool =>
    obtain ⟨counts, hcounts, rfl⟩ := map_eq_ok.1 (show fm.addInput pool = .ok fm' from hcall)
    obtain ⟨-, hlt, hnew⟩ := increment_ok.1 hcounts
    rw [h.inputs] at hlt
    refine ⟨⟨fun p => ?_, fun p => ?_, h.migration⟩, fun p => ?_⟩
    · simpa only [inputsIn_snoc, FeeCall.addInput.injEq, ← h.inputs] using hnew p
    · simpa only [outputsIn_snoc, reduceCtorEq, if_false, Nat.add_zero] using h.outputs p
    · have := hcount p
      simp only [inputsIn_snoc, outputsIn_snoc, FeeCall.addInput.injEq, reduceCtorEq, if_false]
      split
      · rename_i hp
        subst hp
        omega
      · omega
  | addOutput pool =>
    obtain ⟨counts, hcounts, rfl⟩ := map_eq_ok.1 (show fm.addOutput pool = .ok fm' from hcall)
    obtain ⟨-, hlt, hnew⟩ := increment_ok.1 hcounts
    rw [h.outputs] at hlt
    refine ⟨⟨fun p => ?_, fun p => ?_, h.migration⟩, fun p => ?_⟩
    · simpa only [inputsIn_snoc, reduceCtorEq, if_false, Nat.add_zero] using h.inputs p
    · simpa only [outputsIn_snoc, FeeCall.addOutput.injEq, ← h.outputs] using hnew p
    · have := hcount p
      simp only [inputsIn_snoc, outputsIn_snoc, FeeCall.addOutput.injEq, reduceCtorEq, if_false]
      split
      · rename_i hp
        subst hp
        omega
      · omega

theorem call_returns (h : Counted migration calls fm) {c : FeeCall} (hpool : c.pool < numPools)
    (hcount : Countable (calls ++ [c])) : ∃ fm', fm.call c = .ok fm' := by
  have hroom := hcount c.pool
  rw [inputsIn_snoc, outputsIn_snoc] at hroom
  cases c with
  | addInput pool =>
    change pool < numPools at hpool
    have hlt : fm.numInputs pool < 255 := by
      rw [h.inputs]
      simp only [FeeCall.pool, if_true] at hroom
      omega
    exact ⟨_, map_eq_ok.2 ⟨_, increment_ok.2 ⟨hpool, hlt, fun _ => rfl⟩, rfl⟩⟩
  | addOutput pool =>
    change pool < numPools at hpool
    have hlt : fm.numOutputs pool < 255 := by
      rw [h.outputs]
      simp only [FeeCall.pool, if_true] at hroom
      omega
    exact ⟨_, map_eq_ok.2 ⟨_, increment_ok.2 ⟨hpool, hlt, fun _ => rfl⟩, rfl⟩⟩

theorem feed_snoc (fm : FeeManager) (calls : List FeeCall) (c : FeeCall) :
    fm.feed (calls ++ [c]) = fm.feed calls >>= fun fm => fm.call c := by
  unfold FeeManager.feed
  rw [List.foldlM_append]
  simp only [List.foldlM_cons, List.foldlM_nil, bind_pure]

theorem Countable.of_snoc {c : FeeCall} (h : Countable (calls ++ [c])) : Countable calls := by
  intro p
  have hp := h p
  rw [inputsIn_snoc, outputsIn_snoc] at hp
  omega

theorem feed_counted (h : (FeeManager.new migration).feed calls = .ok fm) :
    Counted migration calls fm ∧ Countable calls := by
  induction calls using List.reverseRecOn generalizing fm with
  | nil =>
    cases h
    exact ⟨new_counted migration, fun p => ⟨Nat.zero_le _, Nat.zero_le _⟩⟩
  | append_singleton calls c ih =>
    rw [feed_snoc] at h
    obtain ⟨fm₀, hfeed, hcall⟩ := bind_eq_ok.1 h
    obtain ⟨hcounted, hcount⟩ := ih hfeed
    exact call_counted hcounted hcount hcall

theorem feed_returns (hpools : ∀ c ∈ calls, c.pool < numPools) (hcount : Countable calls) :
    ∃ fm, (FeeManager.new migration).feed calls = .ok fm := by
  induction calls using List.reverseRecOn with
  | nil => exact ⟨_, rfl⟩
  | append_singleton calls c ih =>
    obtain ⟨fm₀, hfeed⟩ := ih (fun d hd => hpools d (List.mem_append_left _ hd)) hcount.of_snoc
    have hc := hpools c (List.mem_append_right _ (List.mem_singleton_self c))
    obtain ⟨fm, hfm⟩ := call_returns (feed_counted hfeed).1 hc hcount
    exact ⟨fm, by rw [feed_snoc, hfeed, ok_bind, hfm]⟩

end Counting

/-! ### Agreement -/

/-- The counts `computeFee` is given: it adds the change itself. -/
def withoutChange (outputs : ℕ → ℕ) (changePool : ℕ) : ℕ → ℕ :=
  Function.update outputs changePool (outputs changePool - 1)

/-- The calls return, and whichever output is the change, both fees are the same. -/
def FeesAgree (migration : Bool) (calls : List FeeCall) : Prop :=
  ∃ fm, (FeeManager.new migration).feed calls = .ok fm ∧
    ∀ cp < numPools, 0 < outputsIn calls cp →
      computeFee (inputsIn calls) (withoutChange (outputsIn calls) cp) cp costPerAction migration
        none = .ok fm.fee

section Agreement
variable {fm : FeeManager} {calls : List FeeCall} {migration : Bool}

theorem bump_withoutChange {outputs : ℕ → ℕ} {cp : ℕ} (hpos : 0 < outputs cp)
    (hle : outputs cp ≤ 255) :
    Function.update (withoutChange outputs cp) cp (bump (withoutChange outputs cp cp)) = outputs := by
  have hmax : maxU32 = 2 ^ 32 - 1 := rfl
  unfold withoutChange
  rw [Function.update_self, Function.update_idem]
  have hbump : bump (outputs cp - 1) = outputs cp := by
    unfold bump
    omega
  rw [hbump, Function.update_eq_self]

theorem orchardActions_eq (ins outs : ℕ) (migration : Bool) (h : ins + outs ≤ 510) :
    poolOrchardActions ins outs migration none = .ok (if 0 < ins ∨ 0 < outs then
      if migration then max (ins + outs) 2 else max (max ins outs) 2 else 0) := by
  unfold poolOrchardActions
  dsimp only
  split
  · split
    · rw [u64_ok (by omega)]
      rfl
    · rfl
  · rfl

theorem computeFee_eq (h : Counted migration calls fm) (hcount : Countable calls) {cp : ℕ}
    (hpos : 0 < outputsIn calls cp) :
    computeFee (inputsIn calls) (withoutChange (outputsIn calls) cp) cp costPerAction migration
      none = .ok fm.fee := by
  obtain ⟨hi0, ho0⟩ := hcount 0
  obtain ⟨hi1, ho1⟩ := hcount 1
  obtain ⟨hi2, ho2⟩ := hcount 2
  obtain ⟨hi3, ho3⟩ := hcount 3
  have hs : bundleActions (inputsIn calls 1) (outputsIn calls 1) ≤ 255 := by
    unfold bundleActions
    split <;> omega
  have hi : bundleActions (inputsIn calls 3) (outputsIn calls 3) ≤ 255 := by
    unfold bundleActions
    split <;> omega
  have ho : (if 0 < inputsIn calls 2 ∨ 0 < outputsIn calls 2 then
      if migration then max (inputsIn calls 2 + outputsIn calls 2) 2
      else max (max (inputsIn calls 2) (outputsIn calls 2)) 2 else 0) ≤ 510 := by
    split_ifs <;> omega
  have hgrace : graceActions = 2 := rfl
  have hcost : costPerAction = 5000 := rfl
  unfold computeFee
  dsimp only
  rw [bump_withoutChange hpos (hcount cp).2, orchardActions_eq _ _ _ (by omega), ok_bind,
    u64_ok (by omega), ok_bind, u64_ok (by omega), ok_bind, u64_ok (by omega), ok_bind,
    u64_ok (by rw [hcost]; omega)]
  unfold FeeManager.fee
  rw [h.migration]
  simp only [h.inputs, h.outputs]
  rfl

/-- The fees agree exactly when no pool has more than 255 inputs or outputs. -/
theorem fees_agree_iff (migration : Bool) (calls : List FeeCall)
    (hpools : ∀ c ∈ calls, c.pool < numPools) :
    FeesAgree migration calls ↔ Countable calls := by
  constructor
  · rintro ⟨fm, hfeed, -⟩
    exact (feed_counted hfeed).2
  · intro hcount
    obtain ⟨fm, hfeed⟩ := @feed_returns _ migration hpools hcount
    exact ⟨fm, hfeed, fun cp _ hpos => computeFee_eq (feed_counted hfeed).1 hcount hpos⟩

/-- Three Orchard notes are sent to a transparent address. -/
theorem shielding_fees_agree :
    FeesAgree false (List.replicate 3 (.addInput 2) ++ [.addOutput 0, .addOutput 2]) ∧
      Countable (List.replicate 3 (.addInput 2) ++ [.addOutput 0, .addOutput 2]) := by
  have hpools : ∀ c ∈ List.replicate 3 (FeeCall.addInput 2) ++ [.addOutput 0, .addOutput 2],
      c.pool < numPools := by decide
  have hcount : Countable (List.replicate 3 (FeeCall.addInput 2) ++ [.addOutput 0, .addOutput 2]) :=
    fun p => ⟨List.count_le_length.trans (by decide), List.count_le_length.trans (by decide)⟩
  exact ⟨(fees_agree_iff false _ hpools).2 hcount, hcount⟩

theorem actionCalls_pools {pool actions : ℕ} (hpool : pool < numPools) :
    ∀ c ∈ actionCalls pool actions, c.pool < numPools := by
  intro c hc
  obtain ⟨cs, hcs, hmem⟩ := List.mem_flatten.1 hc
  rw [List.eq_of_mem_replicate hcs] at hmem
  rcases List.mem_pair.1 hmem with rfl | rfl <;> exact hpool

theorem feeCalls_pools (tx : ChainTx) : ∀ c ∈ feeCalls tx, c.pool < numPools := by
  intro c hc
  unfold feeCalls at hc
  simp only [List.mem_append, List.mem_replicate] at hc
  rcases hc with (((⟨-, rfl⟩ | ⟨-, rfl⟩) | ⟨-, rfl⟩ | ⟨-, rfl⟩) | hc) | hc
  · decide
  · decide
  · decide
  · decide
  · split at hc
    · exact actionCalls_pools (by decide) c hc
    · cases hc
  · exact actionCalls_pools (by decide) c hc

theorem vout_le (tx : ChainTx) : tx.vout ≤ outputsIn (feeCalls tx) 0 := by
  have hcount : (List.replicate tx.vout (FeeCall.addOutput 0)).count (.addOutput 0) = tx.vout :=
    List.count_replicate_self
  unfold outputsIn feeCalls
  simp only [List.count_append, hcount]
  omega

/-- The fee of a transaction is found exactly when every count fits into a byte. -/
theorem decryptMemoFee_ok_iff (tx : ChainTx) :
    (∃ fee, decryptMemoFee tx = .ok fee) ↔ Countable (feeCalls tx) := by
  have hpools := feeCalls_pools tx
  constructor
  · rintro ⟨fee, hfee⟩
    obtain ⟨fm, hfeed, -⟩ := map_eq_ok.1 hfee
    exact (feed_counted hfeed).2
  · intro hcount
    obtain ⟨fm, hfeed⟩ := @feed_returns _ false hpools hcount
    exact ⟨fm.fee, map_eq_ok.2 ⟨fm, hfeed, rfl⟩⟩

/-- A transaction with more outputs than a byte counts. -/
theorem manyOutputs_fees_disagree :
    (∀ c ∈ feeCalls ⟨1, 256, 0, 0, none, 0⟩, c.pool < numPools) ∧
      (∀ fee, decryptMemoFee ⟨1, 256, 0, 0, none, 0⟩ ≠ .ok fee) ∧
      ¬ FeesAgree false (feeCalls ⟨1, 256, 0, 0, none, 0⟩) := by
  have hmany : ¬ Countable (feeCalls ⟨1, 256, 0, 0, none, 0⟩) := by
    intro hcount
    have hle : 256 ≤ 255 := (vout_le ⟨1, 256, 0, 0, none, 0⟩).trans (hcount 0).2
    omega
  refine ⟨feeCalls_pools _, fun fee hfee => hmany ((decryptMemoFee_ok_iff _).1 ⟨fee, hfee⟩), ?_⟩
  rintro ⟨fm, hfeed, -⟩
  exact hmany (feed_counted hfeed).2

end Agreement

end ZcashSdk.Pay
