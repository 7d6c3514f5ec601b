import Mathlib

set_option autoImplicit false

/-!
# Sums by key

What the elements of a list with a given key are worth together.
-/
namespace ZcashSdk.Sums

variable {α β κ : Type} [DecidableEq κ] {key : α → κ} {value : α → ℕ} {l l' : List α} {k : κ}

def sumOf (key : α → κ) (value : α → ℕ) (l : List α) (k : κ) : ℕ :=
  ((l.filter fun x => key x = k).map value).sum

@[simp] theorem sumOf_nil : sumOf key value [] k = 0 := rfl

theorem sumOf_cons (x : α) (l : List α) (k : κ) :
    sumOf key value (x :: l) k = (if key x = k then value x else 0) + sumOf key value l k := by
  unfold sumOf
  by_cases hk : key x = k <;> simp [hk]

theorem sumOf_append (l l' : List α) (k : κ) :
    sumOf key value (l ++ l') k = sumOf key value l k + sumOf key value l' k := by
  simp only [sumOf, List.filter_append, List.map_append, List.sum_append]

theorem sumOf_perm (h : l.Perm l') : sumOf key value l k = sumOf key value l' k :=
  ((h.filter _).map value).sum_eq

theorem sumOf_eq_zero (h : ∀ x ∈ l, key x ≠ k) : sumOf key value l k = 0 := by
  unfold sumOf
  rw [List.filter_eq_nil_iff.2 fun x hx => by simpa using h x hx]
  rfl

theorem sumOf_map (f : β → α) (l : List β) :
    sumOf key value (l.map f) k = sumOf (fun x => key (f x)) (fun x => value (f x)) l k := by
  simp only [sumOf, List.filter_map, List.map_map]
  rfl

theorem sumOf_congr {κ' : Type} [DecidableEq κ'] {key' : α → κ'} {k' : κ'}
    (h : ∀ x ∈ l, (key x = k ↔ key' x = k')) : sumOf key value l k = sumOf key' value l k' := by
  unfold sumOf
  rw [List.filter_congr fun x hx => decide_eq_decide.2 (h x hx)]

theorem sumOf_filter {p : α → Bool} (h : ∀ x ∈ l, p x = false → value x = 0) :
    sumOf key value (l.filter p) k = sumOf key value l k := by
  induction l with
  | nil => rfl
  | cons x l ih =>
    rw [List.forall_mem_cons] at h
    rw [List.filter_cons, sumOf_cons]
    cases hp : p x
    · rw [if_neg Bool.false_ne_true, ih h.2, h.1 hp, ite_self, Nat.zero_add]
    · rw [if_pos rfl, sumOf_cons, ih h.2]

theorem sum_map_single {keys : List κ} (hn : keys.Nodup) (j : κ) (f : κ → ℕ) :
    (keys.map fun k => if k = j then f k else 0).sum = if j ∈ keys then f j else 0 := by
  rw [List.sum_map_eq_nsmul_single j _ fun k hk _ => if_neg hk, if_pos rfl]
  by_cases hj : j ∈ keys
  · rw [if_pos hj, List.count_eq_one_of_mem hn hj, one_nsmul]
  · rw [if_neg hj, List.count_eq_zero.2 hj, zero_nsmul]

theorem sum_sumOf {keys : List κ} (hn : keys.Nodup) (h : ∀ x ∈ l, key x ∈ keys) :
    (keys.map (sumOf key value l)).sum = (l.map value).sum := by
  induction l with
  | nil =>
    refine List.sum_eq_zero fun n hmem => ?_
    obtain ⟨k, -, rfl⟩ := List.mem_map.1 hmem
    rfl
  | cons x l ih =>
    rw [List.forall_mem_cons] at h
    have hsplit : keys.map (sumOf key value (x :: l)) =
        keys.map fun k => (if k = key x then value x else 0) + sumOf key value l k :=
      List.map_congr_left fun k _ => by rw [sumOf_cons, if_congr eq_comm rfl rfl]
    rw [hsplit, List.sum_map_add, ih h.2, List.map_cons, List.sum_cons]
    congr 1
    rw [sum_map_single hn (key x) fun _ => value x, if_pos h.1]

/-- A list is made up of its elements key by key. -/
theorem flatMap_filter_perm [DecidableEq α] {keys : List κ} (hn : keys.Nodup)
    (h : ∀ x ∈ l, key x ∈ keys) : (keys.flatMap fun k => l.filter fun x => key x = k).Perm l := by
  refine List.perm_iff_count.2 fun x => ?_
  have hcount : ∀ k, (l.filter fun y => key y = k).count x = if k = key x then l.count x else 0 := by
    intro k
    by_cases hk : k = key x
    · rw [if_pos hk, List.count_filter (by simpa using hk.symm)]
    · rw [if_neg hk, List.count_eq_zero]
      exact fun hmem => hk (of_decide_eq_true (List.mem_filter.1 hmem).2).symm
  rw [List.count_flatMap]
  simp only [Function.comp_def, hcount]
  rw [sum_map_single hn (key x) fun _ => l.count x]
  by_cases hx : x ∈ l
  · rw [if_pos (h x hx)]
  · rw [List.count_eq_zero.2 hx, ite_self]

theorem sumOf_flatMap (f : β → List α) (l : List β) :
    sumOf key value (l.flatMap f) k = (l.map fun b => sumOf key value (f b) k).sum := by
  induction l with
  | nil => rfl
  | cons b l ih => rw [List.flatMap_cons, sumOf_append, ih, List.map_cons, List.sum_cons]

theorem sum_flatMap (f : β → List α) (l : List β) :
    ((l.flatMap f).map value).sum = (l.map fun b => ((f b).map value).sum).sum := by
  induction l with
  | nil => rfl
  | cons b l ih =>
    rw [List.flatMap_cons, List.map_append, List.sum_append, ih, List.map_cons, List.sum_cons]

theorem sumOf_le {key' : α → κ} (h : ∀ x ∈ l, key x = k → key' x = k) :
    sumOf key value l k ≤ sumOf key' value l k := by
  induction l with
  | nil => exact le_rfl
  | cons x l ih =>
    rw [List.forall_mem_cons] at h
    have hrest := ih h.2
    rw [sumOf_cons, sumOf_cons]
    by_cases hk : key x = k
    · rw [if_pos hk, if_pos (h.1 hk)]
      omega
    · rw [if_neg hk]
      omega

theorem sumOf_eq_of_others {key' : α → κ} {j : κ}
    (h : ∀ k, k ≠ j → sumOf key value l k = sumOf key' value l k) :
    sumOf key value l j = sumOf key' value l j := by
  set others := (l.map key ++ l.map key').dedup.erase j
  have hnodup : (j :: others).Nodup :=
    List.nodup_cons.2 ⟨(List.nodup_dedup _).not_mem_erase, (List.nodup_dedup _).erase j⟩
  have hmem (k : κ) (hk : k ∈ l.map key ++ l.map key') : k ∈ j :: others := by
    by_cases hkj : k = j
    · exact hkj ▸ List.mem_cons_self
    · exact List.mem_cons_of_mem _ ((List.mem_erase_of_ne hkj).2 (List.mem_dedup.2 hk))
  have hall := @sum_sumOf _ _ _ key value l _ hnodup fun x hx =>
    hmem _ (List.mem_append_left _ (List.mem_map_of_mem hx))
  have hall' := @sum_sumOf _ _ _ key' value l _ hnodup fun x hx =>
    hmem _ (List.mem_append_right _ (List.mem_map_of_mem hx))
  have hrest : others.map (sumOf key value l) = others.map (sumOf key' value l) :=
    List.map_congr_left fun k hk => h k fun hkj => (List.nodup_cons.1 hnodup).1 (hkj ▸ hk)
  rw [List.map_cons, List.sum_cons] at hall hall'
  rw [hrest] at hall
  omega

end ZcashSdk.Sums
