import ZcashSdk.Pay.Solve
import ZcashSdk.Lib.Outcomes

set_option autoImplicit false

/-!
# What a selection promises

The fee, the cost and the sufficiency of a selection, said of the selected notes and the
outputs alone. The solver's sums and counts are shown to be theirs in every state of the
search.
-/
namespace ZcashSdk.Pay.Solve
open Db Loops Outcomes

/-! ### Sums and counts -/

section Sums
variable {α : Type}

def valueOf (p : Note → Bool) (xs : List Note) : ℕ := ((xs.filter p).map Note.amount).sum
def outputValue (p : Output → Bool) (os : List Output) : ℕ := ((os.filter p).map Output.amount).sum

/-- A count that stops at `u32::MAX`. -/
def clamp (n : ℕ) : ℕ := min n maxU32

theorem bump_clamp (n : ℕ) : bump (clamp n) = clamp (n + 1) := by
  unfold bump clamp
  omega

theorem clamp_lt (n : ℕ) : clamp n < 2 ^ 32 := by
  have hmax : maxU32 = 2 ^ 32 - 1 := rfl
  unfold clamp
  omega

@[simp] theorem clamp_zero : clamp 0 = 0 := Nat.zero_min _

theorem valueOf_append (p : Note → Bool) (xs ys : List Note) :
    valueOf p (xs ++ ys) = valueOf p xs + valueOf p ys := by
  simp only [valueOf, List.filter_append, List.map_append, List.sum_append]

@[simp] theorem valueOf_nil (p : Note → Bool) : valueOf p [] = 0 := rfl

theorem valueOf_singleton (p : Note → Bool) (n : Note) :
    valueOf p [n] = if p n then n.amount else 0 := by
  unfold valueOf
  by_cases hp : p n <;> simp [hp]

theorem valueOf_le (p : Note → Bool) (xs : List Note) : valueOf p xs ≤ (xs.map Note.amount).sum := by
  have hsub : ((xs.filter p).map Note.amount).Sublist (xs.map Note.amount) :=
    (List.filter_sublist).map _
  exact hsub.sum_le_sum fun _ _ => Nat.zero_le _

theorem valueOf_perm (p : Note → Bool) {xs ys : List Note} (h : xs.Perm ys) :
    valueOf p xs = valueOf p ys :=
  ((h.filter p).map _).sum_eq

theorem outputValue_append (p : Output → Bool) (xs ys : List Output) :
    outputValue p (xs ++ ys) = outputValue p xs + outputValue p ys := by
  simp only [outputValue, List.filter_append, List.map_append, List.sum_append]

theorem outputValue_singleton (p : Output → Bool) (o : Output) :
    outputValue p [o] = if p o then o.amount else 0 := by
  unfold outputValue
  by_cases hp : p o <;> simp [hp]

theorem outputValue_le (p : Output → Bool) (os : List Output) :
    outputValue p os ≤ (os.map Output.amount).sum := by
  have hsub : ((os.filter p).map Output.amount).Sublist (os.map Output.amount) :=
    (List.filter_sublist).map _
  exact hsub.sum_le_sum fun _ _ => Nat.zero_le _

theorem sum_by_pool_le (pool value : α → ℕ) (xs : List α) :
    ((xs.filter fun x => pool x = 0).map value).sum + ((xs.filter fun x => pool x = 1).map value).sum +
      ((xs.filter fun x => pool x = 2).map value).sum +
      ((xs.filter fun x => pool x = 3).map value).sum ≤ (xs.map value).sum := by
  induction xs with
  | nil => simp
  | cons x xs ih =>
    simp only [List.filter_cons, decide_eq_true_eq, List.map_cons, List.sum_cons]
    rcases pool x with _ | _ | _ | _ | p <;> simp <;> omega

theorem sum_pools_le (xs : List Note) :
    valueOf (·.pool = 0) xs + valueOf (·.pool = 1) xs + valueOf (·.pool = 2) xs +
      valueOf (·.pool = 3) xs ≤ (xs.map Note.amount).sum :=
  sum_by_pool_le Note.pool Note.amount xs

theorem sum_output_pools_le (os : List Output) :
    outputValue (·.pool = 0) os + outputValue (·.pool = 1) os + outputValue (·.pool = 2) os +
      outputValue (·.pool = 3) os ≤ (os.map Output.amount).sum :=
  sum_by_pool_le Output.pool Output.amount os

end Sums

/-! ### What is asked for -/

structure Request where
  outputs : List Output
  migration : Bool
  recipientPaysFee : Bool
  firstRecipientAmount : ℕ

namespace Request
variable (r : Request) (inputs : List Note) (changePool : ℕ)

def valueIn (asset : ℕ) : ℕ := valueOf (·.assetIndex = asset) inputs
def valueOut (asset : ℕ) : ℕ := outputValue (·.assetIndex = asset) r.outputs

def numAssets : ℕ := ((r.outputs.map Output.assetIndex).max?).getD 0 + 1

def inputCount (pool : ℕ) : ℕ := clamp (inputs.countP (·.pool = pool))

def outputCount (pool : ℕ) : ℕ :=
  clamp (r.outputs.countP (·.pool = pool) + if pool = changePool then 1 else 0)

/-- Orchard actions of one asset: spends and outputs in pairs, and an output for what is left
    over. -/
def assetActions (asset : ℕ) : ℕ :=
  max (clamp (inputs.countP fun n => n.pool = 2 ∧ n.assetIndex = asset))
    (clamp (r.outputs.countP (fun o => o.pool = 2 ∧ o.assetIndex = asset) +
      if asset = 0 ∧ changePool = 2 ∨ 0 < asset ∧ r.valueOut asset < valueIn inputs asset then 1
      else 0))

/-- Orchard actions: asset by asset when there are assets besides ZEC. -/
def orchardActions : ℕ :=
  if r.numAssets ≤ 1 then
    if r.migration ∧ 0 < inputCount inputs 2 + r.outputCount changePool 2 then
      max (inputCount inputs 2 + r.outputCount changePool 2) 2
    else bundleActions (inputCount inputs 2) (r.outputCount changePool 2)
  else bundleActions ((List.range r.numAssets).map (r.assetActions inputs changePool)).sum 0

/-- ZIP-317. -/
def logicalActions : ℕ :=
  max (max (inputCount inputs 0) (r.outputCount changePool 0) +
    bundleActions (inputCount inputs 1) (r.outputCount changePool 1) +
    r.orchardActions inputs changePool +
    bundleActions (inputCount inputs 3) (r.outputCount changePool 3)) 2

def fee : ℕ := r.logicalActions inputs changePool * costPerAction

def needed : ℕ :=
  if r.recipientPaysFee then r.valueOut 0 else r.valueOut 0 + r.fee inputs changePool

def change : ℕ := valueIn inputs 0 - r.needed inputs changePool

def imbalance (pool : ℕ) : ℕ :=
  ((valueOf (·.pool = pool) inputs : ℤ) - outputValue (·.pool = pool) r.outputs -
    if pool = changePool then (r.change inputs changePool : ℤ) else 0).natAbs

def turnstile : ℕ :=
  valueOf (·.pool = 0) inputs + outputValue (·.pool = 0) r.outputs +
    (r.imbalance inputs changePool 1 + r.imbalance inputs changePool 2 +
      r.imbalance inputs changePool 3)

structure Pays : Prop where
  zec : r.needed inputs changePool ≤ valueIn inputs 0
  recipient : r.recipientPaysFee = true → r.fee inputs changePool ≤ r.firstRecipientAmount
  assets : ∀ a, a ≠ 0 → r.valueOut a ≤ valueIn inputs a

/-! ### The order of the inputs does not matter -/

variable {inputs} {ys : List Note}

theorem inputCount_perm (h : inputs.Perm ys) (p : ℕ) : inputCount inputs p = inputCount ys p := by
  unfold inputCount
  rw [h.countP_eq]

theorem valueIn_perm (h : inputs.Perm ys) (a : ℕ) : valueIn inputs a = valueIn ys a :=
  valueOf_perm _ h

theorem fee_perm (h : inputs.Perm ys) : r.fee inputs changePool = r.fee ys changePool := by
  have hasset : r.assetActions inputs changePool = r.assetActions ys changePool := by
    funext a
    unfold assetActions
    rw [h.countP_eq, valueIn_perm h]
  unfold fee logicalActions orchardActions
  simp only [inputCount_perm h, hasset]

theorem needed_perm (h : inputs.Perm ys) : r.needed inputs changePool = r.needed ys changePool := by
  unfold needed
  rw [fee_perm r changePool h]

theorem Pays.perm {r : Request} {changePool : ℕ} (h : inputs.Perm ys)
    (hp : r.Pays inputs changePool) : r.Pays ys changePool where
  zec := by
    rw [← needed_perm r changePool h, ← valueIn_perm h]
    exact hp.zec
  recipient hr := by
    rw [← fee_perm r changePool h]
    exact hp.recipient hr
  assets a ha := by
    rw [← valueIn_perm h]
    exact hp.assets a ha

end Request

end ZcashSdk.Pay.Solve
