import Mathlib

set_option autoImplicit false

/-!
# Runs of a machine

A machine is a partial step function: an event that is not enabled has no successor.
A run is a list of events; an invariant of the steps that satisfy a guard is an
invariant of the runs all of whose steps satisfy it.
-/
namespace ZcashSdk.Runs

variable {σ ε : Type} (step : σ → ε → Option σ)

def run : σ → List ε → Option σ
  | s, [] => some s
  | s, e :: es => (step s e).bind fun t => run t es

@[simp] theorem run_nil (s : σ) : run step s [] = some s := rfl

theorem run_cons_some {s t : σ} {e : ε} {es : List ε} :
    run step s (e :: es) = some t ↔ ∃ u, step s e = some u ∧ run step u es = some t := by
  simp [run, Option.bind_eq_some_iff]

theorem run_append {s t : σ} {es fs : List ε} :
    run step s (es ++ fs) = some t ↔ ∃ u, run step s es = some u ∧ run step u fs = some t := by
  induction es generalizing s with
  | nil => simp
  | cons e es ih =>
    rw [List.cons_append, run_cons_some]
    constructor
    · rintro ⟨u, hu, hr⟩
      obtain ⟨v, hv, ht⟩ := ih.1 hr
      exact ⟨v, (run_cons_some step).2 ⟨u, hu, hv⟩, ht⟩
    · rintro ⟨v, hv, ht⟩
      obtain ⟨u, hu, hr⟩ := (run_cons_some step).1 hv
      exact ⟨u, hu, ih.2 ⟨v, hr, ht⟩⟩

theorem run_singleton {s : σ} {e : ε} : run step s [e] = step s e := by
  cases h : step s e <;> simp [run, h]

/-- One event again and again, through a family of states. -/
theorem run_replicate {f : ℕ → σ} {e : ε} (hstep : ∀ n, step (f n) e = some (f (n + 1))) (n : ℕ) :
    run step (f 0) (List.replicate n e) = some (f n) := by
  induction n with
  | zero => rfl
  | succ n ih =>
    rw [List.replicate_succ', run_append]
    exact ⟨f n, ih, (run_singleton step).trans (hstep n)⟩

/-- Every step of the run satisfies the guard, in the state it is taken in. -/
def AllSteps (ok : σ → ε → Prop) : σ → List ε → Prop
  | _, [] => True
  | s, e :: es => ok s e ∧ ∀ t, step s e = some t → AllSteps ok t es

instance AllSteps.decidable {ok : σ → ε → Prop} [∀ s e, Decidable (ok s e)] :
    ∀ (s : σ) (es : List ε), Decidable (AllSteps step ok s es)
  | _, [] => isTrue trivial
  | s, e :: es =>
    match h : step s e with
    | none => decidable_of_iff (ok s e) (by simp [AllSteps, h])
    | some t =>
      have : Decidable (AllSteps step ok t es) := AllSteps.decidable t es
      decidable_of_iff (ok s e ∧ AllSteps step ok t es) (by simp [AllSteps, h])

theorem AllSteps.cons {step : σ → ε → Option σ} {ok : σ → ε → Prop} {s t : σ} {e : ε} {es : List ε}
    (hstep : step s e = some t) (hok : ok s e) (hes : AllSteps step ok t es) :
    AllSteps step ok s (e :: es) :=
  ⟨hok, fun _ hu => Option.some.inj (hstep.symm.trans hu) ▸ hes⟩

/-- A guarded step invariant holds at the end of every guarded run. -/
theorem run_inv_of_allSteps {ok : σ → ε → Prop} {Inv : σ → Prop}
    (hstep : ∀ s e t, Inv s → ok s e → step s e = some t → Inv t) {s t : σ} {es : List ε}
    (hs : Inv s) (hok : AllSteps step ok s es) (hrun : run step s es = some t) : Inv t := by
  induction es generalizing s with
  | nil =>
    rw [run_nil, Option.some.injEq] at hrun
    exact hrun ▸ hs
  | cons e es ih =>
    obtain ⟨u, hu, hr⟩ := (run_cons_some step).1 hrun
    exact ih (hstep s e u hs hok.1 hu) (hok.2 u hu) hr

theorem run_inv (Inv : σ → Prop) (hstep : ∀ s e t, Inv s → step s e = some t → Inv t)
    {s t : σ} {es : List ε} (hs : Inv s) (hrun : run step s es = some t) : Inv t := by
  induction es generalizing s with
  | nil =>
    rw [run_nil, Option.some.injEq] at hrun
    exact hrun ▸ hs
  | cons e es ih =>
    obtain ⟨u, hu, hr⟩ := (run_cons_some step).1 hrun
    exact ih (hstep s e u hs hu) hr

/-- What each step keeps unless it brings about something else holds at the end of the run, or the
    run came to the other before. -/
theorem run_until {ok : σ → ε → Prop} {P Q : σ → Prop}
    (hstep : ∀ s e t, P s → ok s e → step s e = some t → P t ∨ Q t) {s t : σ} {es : List ε}
    (hs : P s) (hok : AllSteps step ok s es) (hrun : run step s es = some t) :
    P t ∨ ∃ fs gs u, es = fs ++ gs ∧ run step s fs = some u ∧ Q u := by
  induction es generalizing s with
  | nil =>
    rw [run_nil, Option.some.injEq] at hrun
    exact .inl (hrun ▸ hs)
  | cons e es ih =>
    obtain ⟨u, hu, hr⟩ := (run_cons_some step).1 hrun
    rcases hstep s e u hs hok.1 hu with hP | hQ
    · refine (ih hP (hok.2 u hu) hr).imp_right ?_
      rintro ⟨fs, gs, w, rfl, hw, hQ⟩
      exact ⟨e :: fs, gs, w, rfl, (run_cons_some step).2 ⟨u, hu, hw⟩, hQ⟩
    · exact .inr ⟨[e], es, u, rfl, (run_singleton step).trans hu, hQ⟩

theorem allSteps_iff {ok : σ → ε → Prop} {s : σ} {es : List ε} :
    AllSteps step ok s es ↔
      ∀ fs e gs t, es = fs ++ e :: gs → run step s fs = some t → ok t e := by
  induction es generalizing s with
  | nil => simp [AllSteps]
  | cons a es ih =>
    constructor
    · rintro ⟨hok, hrest⟩ fs e gs t he hrun
      cases fs with
      | nil =>
        rw [List.nil_append, List.cons.injEq] at he
        rw [run_nil, Option.some.injEq] at hrun
        rw [← he.1, ← hrun]
        exact hok
      | cons f fs =>
        rw [List.cons_append, List.cons.injEq] at he
        obtain ⟨u, hu, hr⟩ := (run_cons_some step).1 hrun
        rw [← he.1] at hu
        exact ih.1 (hrest u hu) fs e gs t he.2 hr
    · intro hall
      refine ⟨hall [] a es s rfl rfl, fun u hu => ih.2 fun fs e gs t he hrun => ?_⟩
      exact hall (a :: fs) e gs t (by rw [he]; rfl) ((run_cons_some step).2 ⟨u, hu, hrun⟩)

theorem AllSteps.join {ok : σ → ε → Prop} {s t : σ} {es fs : List ε} (hall : AllSteps step ok s es)
    (hrun : run step s es = some t) (hrest : AllSteps step ok t fs) :
    AllSteps step ok s (es ++ fs) := by
  induction es generalizing s with
  | nil =>
    rw [run_nil, Option.some.injEq] at hrun
    exact hrun ▸ hrest
  | cons e es ih =>
    obtain ⟨u, hu, hr⟩ := (run_cons_some step).1 hrun
    exact AllSteps.cons hu hall.1 (ih (hall.2 u hu) hr)

theorem allSteps_of_mem {ok : σ → ε → Prop} {es : List ε} (h : ∀ s, ∀ e ∈ es, ok s e) (s : σ) :
    AllSteps step ok s es :=
  (allSteps_iff step).2 fun _ e _ t he _ => h t e (he ▸ List.mem_append_right _ List.mem_cons_self)

theorem AllSteps.append {ok : σ → ε → Prop} {s : σ} {es fs : List ε}
    (hall : AllSteps step ok s (es ++ fs)) : AllSteps step ok s es := by
  rw [allSteps_iff] at hall ⊢
  intro gs e hs t he hrun
  exact hall gs e (hs ++ fs) t (by rw [he]; simp) hrun

end ZcashSdk.Runs
