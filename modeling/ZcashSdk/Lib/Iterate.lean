import Mathlib

set_option autoImplicit false

/-!
# Loops without a bound of their own

A loop steps from state to state until it has a result. It is run with a bound on its turns,
and a result found within one bound is the result for every larger one. A loop ends when its
steps keep an invariant and descend in a well-founded relation.
-/
namespace ZcashSdk.Iterate

variable {σ β : Type} (step : σ → σ ⊕ β)

/-- Nothing where the loop is cut off. -/
def iterate : ℕ → σ → Option β
  | 0, _ => none
  | fuel + 1, s =>
    match step s with
    | .inl t => iterate fuel t
    | .inr b => some b

def Ends (s : σ) (b : β) : Prop := ∃ bound, ∀ fuel, bound ≤ fuel → iterate step fuel s = some b

variable {step} {s t : σ} {b c : β}

theorem iterate_mono {fuel : ℕ} (h : iterate step fuel s = some b) (n : ℕ) :
    iterate step (fuel + n) s = some b := by
  induction fuel generalizing s with
  | zero => cases h
  | succ fuel ih =>
    rw [Nat.succ_add, iterate]
    rw [iterate] at h
    split at h
    · exact ih h
    · exact h

theorem Ends.of_iterate {n : ℕ} (h : iterate step n s = some b) : Ends step s b := by
  refine ⟨n, fun fuel hfuel => ?_⟩
  obtain ⟨m, rfl⟩ := Nat.exists_eq_add_of_le hfuel
  exact iterate_mono h m

theorem Ends.unique (hb : Ends step s b) (hc : Ends step s c) : b = c := by
  obtain ⟨m, hm⟩ := hb
  obtain ⟨n, hn⟩ := hc
  have hboth := (hm (m + n) (Nat.le_add_right m n)).symm.trans (hn (m + n) (Nat.le_add_left n m))
  exact Option.some.inj hboth

theorem Ends.of_inr (h : step s = .inr b) : Ends step s b :=
  .of_iterate (n := 1) (by rw [iterate, h])

theorem Ends.of_inl (h : step s = .inl t) (ht : Ends step t b) : Ends step s b := by
  obtain ⟨bound, hbound⟩ := ht
  exact .of_iterate (n := bound + 1) (by rw [iterate, h]; exact hbound bound (le_refl bound))

/-- What one turn of a loop promises: a smaller state as before, or a result as promised. -/
def Turns (Inv : σ → Prop) (Post : β → Prop) (less : σ → σ → Prop) (s : σ) : σ ⊕ β → Prop
  | .inl t => Inv t ∧ less t s
  | .inr b => Post b

/-- The rule of the loop. -/
theorem ends_of_turns (step : σ → σ ⊕ β) (Inv : σ → Prop) (Post : β → Prop) {less : σ → σ → Prop}
    (hwf : WellFounded less) (hstep : ∀ s, Inv s → Turns Inv Post less s (step s)) (hs : Inv s) :
    ∃ b, Ends step s b ∧ Post b := by
  induction s using hwf.induction with
  | h s ih =>
    have hturn := hstep s hs
    cases hnext : step s with
    | inl t =>
      rw [hnext] at hturn
      obtain ⟨b, hb, hpost⟩ := ih t hturn.2 hturn.1
      exact ⟨b, hb.of_inl hnext, hpost⟩
    | inr b =>
      rw [hnext] at hturn
      exact ⟨b, .of_inr hnext, hturn⟩

end ZcashSdk.Iterate
