import Mathlib

set_option autoImplicit false

/-!
# Joins of tables

A join repeats a row once for every row it matches; a left join keeps what matches none.
How often a row of the first table comes back is a matter of counting.
-/
namespace ZcashSdk.Joins
variable {α β γ : Type}

def matching (p : α → β → Bool) (bs : List β) (a : α) : List β := bs.filter (p a)

def innerJoin (p : α → β → Bool) (as : List α) (bs : List β) : List (α × β) :=
  as.flatMap fun a => (matching p bs a).map fun b => (a, b)

def orNull : List β → List (Option β)
  | [] => [none]
  | b :: bs => (b :: bs).map some

def leftJoin (p : α → β → Bool) (as : List α) (bs : List β) : List (α × Option β) :=
  as.flatMap fun a => (orNull (matching p bs a)).map fun b => (a, b)

section Join
variable {p : α → β → Bool} {as : List α} {bs : List β}

theorem mem_innerJoin {r : α × β} :
    r ∈ innerJoin p as bs ↔ r.1 ∈ as ∧ r.2 ∈ bs ∧ p r.1 r.2 = true := by
  obtain ⟨a, b⟩ := r
  simp only [innerJoin, matching, List.mem_flatMap, List.mem_map, List.mem_filter, Prod.mk.injEq]
  constructor
  · rintro ⟨_, ha, _, hb, rfl, rfl⟩
    exact ⟨ha, hb⟩
  · rintro ⟨ha, hb⟩
    exact ⟨a, ha, b, hb, rfl, rfl⟩

theorem one_le_length_orNull (l : List β) : 1 ≤ (orNull l).length := by
  cases l with
  | nil => exact le_refl 1
  | cons b l => simp [orNull]

theorem length_orNull_eq_one {l : List β} : (orNull l).length = 1 ↔ l.length ≤ 1 := by
  cases l with
  | nil => simp [orNull]
  | cons b l =>
    rw [orNull, List.length_map]
    constructor
    · exact fun h => h.le
    · intro h
      have hpos : 1 ≤ (b :: l).length := List.length_pos_of_mem List.mem_cons_self
      omega

/-- Terms that are no larger add up to as much only if they are equal. -/
theorem sum_eq_sum_iff {f g : α → ℕ} (h : ∀ a ∈ as, f a ≤ g a) :
    (as.map f).sum = (as.map g).sum ↔ ∀ a ∈ as, f a = g a := by
  induction as with
  | nil => simp
  | cons a as ih =>
    have ha := h a List.mem_cons_self
    have has : ∀ b ∈ as, f b ≤ g b := fun b hb => h b (List.mem_cons_of_mem a hb)
    have htail : (as.map f).sum ≤ (as.map g).sum := List.sum_le_sum has
    rw [List.map_cons, List.map_cons, List.sum_cons, List.sum_cons, List.forall_mem_cons]
    constructor
    · intro hsum
      exact ⟨by omega, (ih has).1 (by omega)⟩
    · rintro ⟨heq, hall⟩
      rw [heq, (ih has).2 hall]

theorem sum_one (l : List α) : (l.map fun _ => 1).sum = l.length := by simp

theorem length_leftJoin :
    (leftJoin p as bs).length = (as.map fun a => (orNull (matching p bs a)).length).sum := by
  rw [leftJoin, List.length_flatMap]
  simp

theorem mem_map_leftJoin {a : α} : a ∈ (leftJoin p as bs).map Prod.fst ↔ a ∈ as := by
  rw [leftJoin, List.map_flatMap, List.mem_flatMap]
  constructor
  · rintro ⟨c, hc, ha⟩
    rw [List.map_map, List.mem_map] at ha
    obtain ⟨-, -, rfl⟩ := ha
    exact hc
  · intro ha
    obtain ⟨b, hb⟩ := List.exists_mem_of_length_pos (one_le_length_orNull (matching p bs a))
    exact ⟨a, ha, List.mem_map_of_mem (List.mem_map_of_mem hb)⟩

theorem leftJoin_map_fst (h : ∀ a ∈ as, (matching p bs a).length ≤ 1) :
    (leftJoin p as bs).map Prod.fst = as := by
  induction as with
  | nil => rfl
  | cons a as ih =>
    have htail := ih fun b hb => h b (List.mem_cons_of_mem a hb)
    obtain ⟨b, hb⟩ := List.length_eq_one_iff.1 (length_orNull_eq_one.2 (h a List.mem_cons_self))
    rw [leftJoin, List.flatMap_cons, List.map_append]
    change _ ++ (leftJoin p as bs).map Prod.fst = _
    rw [htail, hb]
    rfl

/-- Whatever identifies a row, every row comes back once exactly when none matches twice. -/
theorem leftJoin_perm_iff (f : α → γ) :
    ((leftJoin p as bs).map fun r => f r.1).Perm (as.map f) ↔
      ∀ a ∈ as, (matching p bs a).length ≤ 1 := by
  constructor
  · intro hperm
    have hlen := hperm.length_eq
    rw [List.length_map, List.length_map, length_leftJoin, ← sum_one] at hlen
    have hone := (sum_eq_sum_iff fun a _ => one_le_length_orNull _).1 hlen.symm
    exact fun a ha => length_orNull_eq_one.1 (hone a ha).symm
  · intro h
    have hmap := congrArg (List.map f) (leftJoin_map_fst h)
    rw [List.map_map] at hmap
    exact List.Perm.of_eq hmap

theorem innerJoin_map_fst (h : ∀ a ∈ as, (matching p bs a).length = 1) :
    (innerJoin p as bs).map Prod.fst = as := by
  induction as with
  | nil => rfl
  | cons a as ih =>
    have htail := ih fun b hb => h b (List.mem_cons_of_mem a hb)
    obtain ⟨b, hb⟩ := List.length_eq_one_iff.1 (h a List.mem_cons_self)
    rw [innerJoin, List.flatMap_cons, List.map_append]
    change _ ++ (innerJoin p as bs).map Prod.fst = _
    rw [htail, hb]
    rfl

theorem innerJoin_perm_iff (f : α → γ) (hone : ∀ a ∈ as, (matching p bs a).length ≤ 1) :
    ((innerJoin p as bs).map fun r => f r.1).Perm (as.map f) ↔
      ∀ a ∈ as, ∃ b ∈ bs, p a b = true := by
  have hmatch (a : α) : (∃ b ∈ bs, p a b = true) ↔ 1 ≤ (matching p bs a).length := by
    simp [matching, Nat.one_le_iff_ne_zero]
  simp only [hmatch]
  constructor
  · intro hperm
    have hlen := hperm.length_eq
    rw [List.length_map, List.length_map, innerJoin, List.length_flatMap, ← sum_one] at hlen
    simp only [List.length_map] at hlen
    exact fun a ha => ((sum_eq_sum_iff hone).1 hlen a ha).ge
  · intro h
    have hmap := congrArg (List.map f)
      (innerJoin_map_fst fun a ha => le_antisymm (hone a ha) (h a ha))
    rw [List.map_map] at hmap
    exact List.Perm.of_eq hmap

theorem length_filter_le_one_iff {l : List α} (hl : l.Nodup) (q : α → Bool) :
    (l.filter q).length ≤ 1 ↔ ∀ a ∈ l, ∀ b ∈ l, q a = true → q b = true → a = b := by
  have hf : (l.filter q).Nodup := hl.filter q
  have hmem (x : α) : x ∈ l.filter q ↔ x ∈ l ∧ q x = true := List.mem_filter
  generalize l.filter q = m at hf hmem
  cases m with
  | nil =>
    refine iff_of_true (Nat.zero_le 1) fun a ha _ _ hqa _ => ?_
    exact absurd ((hmem a).2 ⟨ha, hqa⟩) List.not_mem_nil
  | cons a m =>
    cases m with
    | nil =>
      refine iff_of_true le_rfl fun b hb c hc hqb hqc => ?_
      rw [List.mem_singleton.1 ((hmem b).2 ⟨hb, hqb⟩), List.mem_singleton.1 ((hmem c).2 ⟨hc, hqc⟩)]
    | cons b m =>
      refine iff_of_false (by simp) fun h => ?_
      have ha := (hmem a).1 List.mem_cons_self
      have hb := (hmem b).1 (List.mem_cons_of_mem a List.mem_cons_self)
      have hne : a ≠ b := List.ne_of_not_mem_cons (List.nodup_cons.1 hf).1
      exact hne (h a ha.1 b hb.1 ha.2 hb.2)

end Join

end ZcashSdk.Joins
