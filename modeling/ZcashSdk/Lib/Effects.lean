import Mathlib

set_option autoImplicit false

/-!
# Programs whose effects stay

A program changes a state and may fail; what it did before it failed stays done.
-/
namespace ZcashSdk.Effects

def Prog (σ ε α : Type) : Type := σ → Except ε α × σ

namespace Prog
variable {σ ε α β : Type}

instance : Monad (Prog σ ε) where
  pure a := fun s => (.ok a, s)
  bind p f := fun s =>
    match p s with
    | (.ok a, t) => f a t
    | (.error e, t) => (.error e, t)

def lift (x : Except ε α) : Prog σ ε α := fun s => (x, s)

/-- A statement that fails changes nothing. -/
def statement (f : σ → Except ε σ) : Prog σ ε Unit := fun s =>
  match f s with
  | .ok t => (.ok (), t)
  | .error e => (.error e, s)

def query (f : σ → α) : Prog σ ε α := fun s => (.ok (f s), s)

def modify (f : σ → σ) : Prog σ ε Unit := fun s => (.ok (), f s)

@[simp] theorem pure_run (a : α) (s : σ) : (pure a : Prog σ ε α) s = (.ok a, s) := rfl

theorem bind_run (p : Prog σ ε α) (f : α → Prog σ ε β) (s : σ) :
    (p >>= f) s = match p s with
      | (.ok a, t) => f a t
      | (.error e, t) => (.error e, t) := rfl

theorem bind_of_ok {p : Prog σ ε α} {f : α → Prog σ ε β} {s t : σ} {a : α}
    (h : p s = (.ok a, t)) : (p >>= f) s = f a t := by
  rw [bind_run, h]

theorem bind_of_error {p : Prog σ ε α} {f : α → Prog σ ε β} {s t : σ} {e : ε}
    (h : p s = (.error e, t)) : (p >>= f) s = (.error e, t) := by
  rw [bind_run, h]

theorem bind_eq_error {p : Prog σ ε α} {f : α → Prog σ ε β} {s t : σ} {e : ε} :
    (p >>= f) s = (.error e, t) ↔
      p s = (.error e, t) ∨ ∃ a u, p s = (.ok a, u) ∧ f a u = (.error e, t) := by
  rw [bind_run]
  rcases p s with ⟨_ | _, u⟩ <;> simp

theorem bind_eq_ok {p : Prog σ ε α} {f : α → Prog σ ε β} {s t : σ} {b : β} :
    (p >>= f) s = (.ok b, t) ↔ ∃ a u, p s = (.ok a, u) ∧ f a u = (.ok b, t) := by
  rw [bind_run]
  rcases p s with ⟨_ | _, u⟩ <;> simp

theorem pure_eq_ok {a b : α} {s t : σ} :
    (pure a : Prog σ ε α) s = (.ok b, t) ↔ b = a ∧ t = s := by
  simp [eq_comm]

theorem lift_eq_ok {x : Except ε α} {s t : σ} {a : α} :
    lift x s = (.ok a, t) ↔ x = .ok a ∧ t = s := by
  simp [lift, eq_comm]

theorem query_eq_ok {f : σ → α} {s t : σ} {a : α} :
    (query f : Prog σ ε α) s = (.ok a, t) ↔ a = f s ∧ t = s := by
  simp [query, eq_comm]

theorem modify_eq_ok {f : σ → σ} {s t : σ} :
    (modify f : Prog σ ε Unit) s = (.ok (), t) ↔ t = f s := by
  simp [modify, eq_comm]

theorem statement_of_ok {f : σ → Except ε σ} {s t : σ} (h : f s = .ok t) :
    statement f s = (.ok (), t) := by
  rw [statement, h]

theorem statement_of_error {f : σ → Except ε σ} {s : σ} {e : ε} (h : f s = .error e) :
    statement f s = (.error e, s) := by
  rw [statement, h]

def each (f : α → Prog σ ε Unit) : List α → Prog σ ε Unit
  | [] => pure ()
  | a :: l => do
    f a
    each f l

theorem each_cons_of_ok {f : α → Prog σ ε Unit} {a : α} {l : List α} {s t : σ}
    (h : f a s = (.ok (), t)) : each f (a :: l) s = each f l t := bind_of_ok h

theorem each_cons_of_error {f : α → Prog σ ε Unit} {a : α} {l : List α} {s t : σ} {e : ε}
    (h : f a s = (.error e, t)) : each f (a :: l) s = (.error e, t) := bind_of_error h

/-- What a program and its continuation keep, they keep together, whether they fail or not. -/
theorem bind_keeps {I : σ → Prop} {p : Prog σ ε α} {f : α → Prog σ ε β} {s : σ} (hp : I (p s).2)
    (hf : ∀ a t, I t → I (f a t).2) : I ((p >>= f) s).2 := by
  rw [bind_run]
  rcases hrun : p s with ⟨_ | a, t⟩
  · rwa [hrun] at hp
  · rw [hrun] at hp
    exact hf a t hp

theorem each_keeps {I : σ → Prop} {f : α → Prog σ ε Unit} {l : List α}
    (hstep : ∀ a ∈ l, ∀ s, I s → I (f a s).2) {s : σ} (hs : I s) : I (each f l s).2 := by
  induction l generalizing s with
  | nil => exact hs
  | cons a l ih =>
    refine bind_keeps (hstep a List.mem_cons_self s hs) fun _ t ht => ?_
    exact ih (fun b hb => hstep b (List.mem_cons_of_mem a hb)) ht

end Prog

end ZcashSdk.Effects
