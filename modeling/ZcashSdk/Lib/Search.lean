import Mathlib

set_option autoImplicit false

/-!
# The last place of a pattern in a list
-/
namespace ZcashSdk.Search

variable {α : Type} [DecidableEq α]

def rfind (pat : List α) : List α → Option ℕ
  | [] => none
  | a :: s =>
    match rfind pat s with
    | some i => some (i + 1)
    | none => if pat <+: a :: s then some 0 else none

theorem rfind_cons_of_none {pat s : List α} (h : rfind pat s = none) (a : α) :
    rfind pat (a :: s) = if pat <+: a :: s then some 0 else none := by
  rw [rfind, h]

theorem rfind_eq_none {pat s : List α} (hpat : pat ≠ []) : rfind pat s = none ↔ ¬ pat <:+: s := by
  induction s with
  | nil => simp [rfind, hpat]
  | cons a s ih =>
    rw [List.infix_cons_iff, not_or]
    cases hs : rfind pat s with
    | some i =>
      have hin : pat <:+: s := by
        by_contra hnot
        rw [ih.2 hnot] at hs
        cases hs
      simp [rfind, hs, hin]
    | none =>
      rw [rfind_cons_of_none hs]
      split
      next hpre => simp [hpre]
      next hpre => simp [hpre, ih.1 hs]

theorem rfind_append {pat t : List α} {i : ℕ} (h : rfind pat t = some i) (s : List α) :
    rfind pat (s ++ t) = some (s.length + i) := by
  induction s with
  | nil => simpa using h
  | cons a s ih =>
    rw [List.cons_append, rfind, ih]
    simp only [List.length_cons, Option.some.injEq]
    omega

/-- The pattern is found in front of what holds no other occurrence. -/
theorem rfind_self {pat t : List α} (hpat : pat ≠ []) (h : ¬ pat <:+: (pat ++ t).tail) :
    rfind pat (pat ++ t) = some 0 := by
  obtain ⟨a, s, rfl⟩ := List.exists_cons_of_ne_nil hpat
  rw [List.cons_append, List.tail_cons, ← rfind_eq_none hpat] at h
  rw [List.cons_append, rfind_cons_of_none h, if_pos]
  rw [← List.cons_append]
  exact List.prefix_append _ _

theorem prefix_drop_rfind {pat s : List α} {i : ℕ} (h : rfind pat s = some i) :
    i < s.length ∧ pat <+: s.drop i := by
  induction s generalizing i with
  | nil => cases h
  | cons a s ih =>
    cases hs : rfind pat s with
    | some j =>
      rw [rfind, hs, Option.some.injEq] at h
      subst h
      obtain ⟨hlt, hpre⟩ := ih hs
      exact ⟨Nat.succ_lt_succ hlt, hpre⟩
    | none =>
      rw [rfind_cons_of_none hs] at h
      split at h
      next hpre =>
        rw [← Option.some.inj h]
        exact ⟨Nat.succ_pos _, hpre⟩
      next => cases h

end ZcashSdk.Search
