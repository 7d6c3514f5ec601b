import Mathlib

set_option autoImplicit false

/-!
# Programs that may fault

What a program promises of its result when it may end in a fault of a given kind instead.
With no fault allowed, it returns.
-/
namespace ZcashSdk.Outcomes

variable {ε α β : Type} {allowed : ε → Prop} {P Q : α → Prop} {x : Except ε α}

def Meets (allowed : ε → Prop) (Q : α → Prop) : Except ε α → Prop
  | .ok a => Q a
  | .error e => allowed e

theorem Meets.of_ok {a : α} (hx : x = .ok a) (ha : Q a) : Meets allowed Q x := by
  subst hx
  exact ha

theorem Meets.result {a : α} (h : Meets allowed Q x) (hx : x = .ok a) : Q a := by
  subst hx
  exact h

theorem Meets.fault {e : ε} (h : Meets allowed Q x) (hx : x = .error e) : allowed e := by
  subst hx
  exact h

theorem Meets.returns (h : Meets (fun _ => False) Q x) : ∃ a, x = .ok a ∧ Q a := by
  cases x with
  | error e => exact h.elim
  | ok a => exact ⟨a, rfl, h⟩

theorem Meets.mono (h : Meets allowed P x) (hPQ : ∀ a, P a → Q a) : Meets allowed Q x := by
  cases x with
  | error e => exact h
  | ok a => exact hPQ a h

theorem Meets.bind {R : β → Prop} {f : α → Except ε β} (h : Meets allowed P x)
    (hf : ∀ a, P a → Meets allowed R (f a)) : Meets allowed R (x >>= f) := by
  cases x with
  | error e => exact h
  | ok a => exact hf a h

theorem Meets.map {R : β → Prop} {f : α → β} (h : Meets allowed P x) (hf : ∀ a, P a → R (f a)) :
    Meets allowed R (x.map f) := by
  cases x with
  | error e => exact h
  | ok a => exact hf a h

/-- The invariant of a loop may speak of the elements it went through. -/
theorem meets_foldlM {f : β → α → Except ε β} (Inv : List α → β → Prop) {l : List α} {b : β}
    (hstep : ∀ done a rest b, done ++ a :: rest = l → Inv done b →
      Meets allowed (Inv (done ++ [a])) (f b a))
    (hb : Inv [] b) : Meets allowed (Inv l) (l.foldlM f b) := by
  have hfrom : ∀ rest done b, done ++ rest = l → Inv done b →
      Meets allowed (Inv l) (rest.foldlM f b) := by
    intro rest
    induction rest with
    | nil =>
      intro done b hl hb
      rw [List.append_nil] at hl
      subst hl
      exact hb
    | cons a rest ih =>
      intro done b hl hb
      rw [List.foldlM_cons]
      refine (hstep done a rest b hl hb).bind fun c hc => ih (done ++ [a]) c ?_ hc
      rw [List.append_assoc, List.singleton_append, hl]
  exact hfrom l [] b rfl hb

theorem meets_mapM {f : α → Except ε β} {R : α → β → Prop} {l : List α}
    (h : ∀ a ∈ l, Meets allowed (R a) (f a)) :
    Meets allowed (fun bs => ∀ b ∈ bs, ∃ a ∈ l, R a b) (l.mapM f) := by
  induction l with
  | nil =>
    rw [List.mapM_nil]
    exact fun b hb => by cases hb
  | cons a l ih =>
    rw [List.mapM_cons]
    rw [List.forall_mem_cons] at h
    refine h.1.bind fun b hb => (ih h.2).bind fun bs hbs => ?_
    intro c hc
    rcases List.mem_cons.1 hc with rfl | hc
    · exact ⟨a, List.mem_cons_self .., hb⟩
    · obtain ⟨d, hd, hdc⟩ := hbs c hc
      exact ⟨d, List.mem_cons_of_mem a hd, hdc⟩

end ZcashSdk.Outcomes
