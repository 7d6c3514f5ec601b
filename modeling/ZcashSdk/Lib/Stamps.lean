import ZcashSdk.Lib.Runs

set_option autoImplicit false

/-!
# Counters that are read twice

A counter goes up by one at every step of some kind, perhaps modulo a bound. Whoever reads it
twice and finds the same has not missed a step of that kind, unless there were as many of them
as the bound. What holds at the end of a run and did not at its start began to hold at a step.
-/
namespace ZcashSdk.Runs

variable {σ ε : Type} {step : σ → ε → Option σ} {ok : σ → ε → Prop} {s t : σ} {es : List ε}

theorem AllSteps.and {ok' : σ → ε → Prop} (h : AllSteps step ok s es)
    (h' : AllSteps step ok' s es) : AllSteps step (fun s e => ok s e ∧ ok' s e) s es := by
  induction es generalizing s with
  | nil => trivial
  | cons e es ih => exact ⟨⟨h.1, h'.1⟩, fun u hu => ih (h.2 u hu) (h'.2 u hu)⟩

theorem AllSteps.imp {ok' : σ → ε → Prop}
    (himp : ∀ s e u, step s e = some u → ok s e → ok' s e) (hrun : run step s es = some t)
    (h : AllSteps step ok s es) : AllSteps step ok' s es := by
  induction es generalizing s with
  | nil => trivial
  | cons e es ih =>
    obtain ⟨u, hu, hr⟩ := (run_cons_some step).1 hrun
    exact AllSteps.cons hu (himp s e u hu h.1) (ih hr (h.2 u hu))

theorem AllSteps.forall_mem {q : ε → Prop} (hrun : run step s es = some t)
    (h : AllSteps step (fun _ e => q e) s es) : ∀ e ∈ es, q e := by
  induction es generalizing s with
  | nil => simp
  | cons e es ih =>
    obtain ⟨u, hu, hr⟩ := (run_cons_some step).1 hrun
    exact List.forall_mem_cons.2 ⟨h.1, ih hr (h.2 u hu)⟩

theorem allSteps_of_forall (h : ∀ s e, ok s e) (s : σ) (es : List ε) : AllSteps step ok s es := by
  induction es generalizing s with
  | nil => trivial
  | cons e es ih => exact ⟨h s e, fun u _ => ih u⟩

theorem AllSteps.snoc {u : σ} {e : ε} (hall : AllSteps step ok s es)
    (hrun : run step s es = some u) (he : ok u e) : AllSteps step ok s (es ++ [e]) := by
  induction es generalizing s with
  | nil =>
    rw [run_nil, Option.some.injEq] at hrun
    exact ⟨hrun ▸ he, fun _ _ => trivial⟩
  | cons a es ih =>
    refine ⟨hall.1, fun v hv => ?_⟩
    obtain ⟨w, hw, hr⟩ := (run_cons_some step).1 hrun
    rw [hv, Option.some.injEq] at hw
    exact ih (hall.2 v hv) (hw ▸ hr)

theorem AllSteps.suffix {fs : List ε} (hall : AllSteps step ok s (es ++ fs))
    (hrun : run step s es = some t) : AllSteps step ok t fs := by
  induction es generalizing s with
  | nil =>
    rw [run_nil, Option.some.injEq] at hrun
    exact hrun ▸ hall
  | cons e es ih =>
    obtain ⟨u, hu, hr⟩ := (run_cons_some step).1 hrun
    exact ih (hall.2 u hu) hr

theorem run_snoc {e : ε} : run step s (es ++ [e]) = some t ↔
    ∃ u, run step s es = some u ∧ step u e = some t := by
  rw [run_append]
  simp only [run_singleton]

end ZcashSdk.Runs

namespace ZcashSdk.Stamps
open Runs

variable {σ ε : Type} (step : σ → ε → Option σ)

def marks (mark : σ → ε → Bool) : σ → List ε → ℕ
  | _, [] => 0
  | s, e :: es => (if mark s e then 1 else 0) + ((step s e).map fun t => marks mark t es).getD 0

/-- A counter of the marked steps, modulo `m`; with zero for `m` it never wraps. -/
def Counts (ok : σ → ε → Prop) (mark : σ → ε → Bool) (counter : σ → ℕ) (m : ℕ) : Prop :=
  ∀ s e t, ok s e → step s e = some t →
    counter t ≡ counter s + (if mark s e then 1 else 0) [MOD m]

variable {step} {ok : σ → ε → Prop} {mark : σ → ε → Bool} {counter : σ → ℕ} {m : ℕ} {s t : σ}
  {es : List ε}

theorem marks_cons {u : σ} {e : ε} (h : step s e = some u) :
    marks step mark s (e :: es) = (if mark s e then 1 else 0) + marks step mark u es := by
  rw [marks, h]
  rfl

theorem marks_eq_countP {p : ε → Bool} (hrun : run step s es = some t) :
    marks step (fun _ e => p e) s es = es.countP p := by
  induction es generalizing s with
  | nil => rfl
  | cons e es ih =>
    obtain ⟨u, hu, hr⟩ := (run_cons_some step).1 hrun
    rw [marks_cons hu, ih hr, List.countP_cons, Nat.add_comm]

theorem marks_eq_zero (hrun : run step s es = some t) (h : marks step mark s es = 0) :
    AllSteps step (fun s e => mark s e = false) s es := by
  induction es generalizing s with
  | nil => trivial
  | cons e es ih =>
    obtain ⟨u, hu, hr⟩ := (run_cons_some step).1 hrun
    rw [marks_cons hu] at h
    refine AllSteps.cons hu ?_ (ih hr (by omega))
    by_contra hmark
    rw [Bool.not_eq_false] at hmark
    rw [hmark, if_pos rfl] at h
    omega

theorem Counts.run (h : Counts step ok mark counter m) (hok : AllSteps step ok s es)
    (hrun : run step s es = some t) :
    counter t ≡ counter s + marks step mark s es [MOD m] := by
  induction es generalizing s with
  | nil =>
    rw [run_nil, Option.some.injEq] at hrun
    subst hrun
    exact Nat.ModEq.refl _
  | cons e es ih =>
    obtain ⟨u, hu, hr⟩ := (run_cons_some step).1 hrun
    have hone := (h s e u hok.1 hu).add_right (marks step mark u es)
    rw [marks_cons hu, ← Nat.add_assoc]
    exact (ih (hok.2 u hu) hr).trans hone

/-- Nothing was missed between two readings that agree. -/
theorem Counts.none_missed (h : Counts step ok mark counter m) (hok : AllSteps step ok s es)
    (hrun : Runs.run step s es = some t) (hsame : counter t = counter s)
    (hfew : m = 0 ∨ marks step mark s es < m) :
    AllSteps step (fun s e => mark s e = false) s es := by
  refine marks_eq_zero hrun ?_
  have hcount := h.run hok hrun
  rw [hsame] at hcount
  have hzero : 0 ≡ marks step mark s es [MOD m] := Nat.ModEq.add_left_cancel' (counter s) hcount
  rcases hfew with rfl | hfew
  · exact (Nat.modEq_zero_iff.1 hzero).symm
  · exact (Nat.ModEq.eq_of_lt_of_lt hzero (by omega) hfew).symm

/-- What holds after a run but not before began to hold at a step, and held ever since. -/
theorem exists_start {P : σ → Prop} (hs : ¬ P s) (hrun : run step s es = some t) (ht : P t) :
    ∃ pre e post u v, es = pre ++ e :: post ∧ run step s pre = some u ∧ ¬ P u ∧
      step u e = some v ∧ P v ∧ run step v post = some t ∧
        AllSteps step (fun s e => ∀ x, step s e = some x → P x) v post := by
  induction es using List.reverseRecOn generalizing t with
  | nil =>
    rw [run_nil, Option.some.injEq] at hrun
    exact absurd (hrun ▸ ht) hs
  | append_singleton es e ih =>
    obtain ⟨u, hu, hstep⟩ := run_snoc.1 hrun
    by_cases hP : P u
    · obtain ⟨pre, b, post, x, v, rfl, hpre, hx, hb, hv, hpost, hall⟩ := ih hu hP
      refine ⟨pre, b, post ++ [e], x, v, by simp, hpre, hx, hb, hv, ?_, ?_⟩
      · exact run_snoc.2 ⟨u, hpost, hstep⟩
      · refine AllSteps.snoc hall hpost fun y hy => ?_
        rw [hstep, Option.some.injEq] at hy
        exact hy ▸ ht
    · exact ⟨es, e, [], u, t, rfl, hu, hP, hstep, ht, rfl, trivial⟩

end ZcashSdk.Stamps
