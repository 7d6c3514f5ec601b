import Mathlib

set_option autoImplicit false

/-!
# Rules for loops that may fail

`Except` programs over lists: what a successful bind, a collecting loop and a
counted loop tell, which loops do not depend on the order of their elements, and how
a stable sort acts on a list whose elements fall into an earlier and a later part.
-/
namespace ZcashSdk.Loops

section Binds
variable {ε α β : Type}

theorem map_eq_ok {x : Except ε α} {f : α → β} {b : β} :
    x.map f = .ok b ↔ ∃ a, x = .ok a ∧ f a = b := by
  cases x <;> simp [Except.map]

theorem map_eq_error {x : Except ε α} {f : α → β} {e : ε} :
    x.map f = .error e ↔ x = .error e := by
  cases x <;> simp [Except.map]

theorem bind_eq_ok {x : Except ε α} {f : α → Except ε β} {b : β} :
    (x >>= f) = .ok b ↔ ∃ a, x = .ok a ∧ f a = .ok b := by
  cases x with
  | error e => simp [bind, Except.bind]
  | ok a => simp [bind, Except.bind]

@[simp] theorem ok_bind (a : α) (f : α → Except ε β) : (Except.ok a >>= f) = f a := rfl

@[simp] theorem error_bind (e : ε) (f : α → Except ε β) :
    ((Except.error e : Except ε α) >>= f) = .error e := rfl

/-- Runs `f` on each element and concatenates what it returns. -/
def flatMapM (f : α → Except ε (List β)) : List α → Except ε (List β)
  | [] => .ok []
  | a :: as => do
    let xs ← f a
    let ys ← flatMapM f as
    .ok (xs ++ ys)

theorem flatMapM_cons_ok (f : α → Except ε (List β)) (a : α) (as : List α) (zs : List β) :
    flatMapM f (a :: as) = .ok zs ↔
      ∃ xs ys, f a = .ok xs ∧ flatMapM f as = .ok ys ∧ zs = xs ++ ys := by
  simp only [flatMapM, bind_eq_ok, Except.ok.injEq]
  constructor
  · rintro ⟨xs, hx, ys, hy, rfl⟩
    exact ⟨xs, ys, hx, hy, rfl⟩
  · rintro ⟨xs, ys, hx, hy, rfl⟩
    exact ⟨xs, hx, ys, hy, rfl⟩

theorem flatMapM_append_ok (f : α → Except ε (List β)) (as bs : List α) (zs : List β) :
    flatMapM f (as ++ bs) = .ok zs ↔
      ∃ xs ys, flatMapM f as = .ok xs ∧ flatMapM f bs = .ok ys ∧ zs = xs ++ ys := by
  induction as generalizing zs with
  | nil => simp [flatMapM]
  | cons a as ih =>
    rw [List.cons_append, flatMapM_cons_ok]
    constructor
    · rintro ⟨xs, ys, hx, hy, rfl⟩
      obtain ⟨us, vs, hu, hv, rfl⟩ := (ih ys).1 hy
      exact ⟨xs ++ us, vs, (flatMapM_cons_ok f a as _).2 ⟨xs, us, hx, hu, rfl⟩, hv,
        (List.append_assoc _ _ _).symm⟩
    · rintro ⟨ws, vs, hw, hv, rfl⟩
      obtain ⟨xs, us, hx, hu, rfl⟩ := (flatMapM_cons_ok f a as _).1 hw
      exact ⟨xs, us ++ vs, hx, (ih _).2 ⟨us, vs, hu, hv, rfl⟩, List.append_assoc _ _ _⟩

theorem mem_flatMapM {f : α → Except ε (List β)} {as : List α} {zs : List β}
    (hz : flatMapM f as = .ok zs) {z : β} (hm : z ∈ zs) :
    ∃ a ∈ as, ∃ xs, f a = .ok xs ∧ z ∈ xs := by
  induction as generalizing zs with
  | nil => simp [flatMapM] at hz; subst hz; simp at hm
  | cons a as ih =>
    obtain ⟨xs, ys, hx, hy, rfl⟩ := (flatMapM_cons_ok f a as zs).1 hz
    rcases List.mem_append.1 hm with hm | hm
    · exact ⟨a, by simp, xs, hx, hm⟩
    · obtain ⟨b, hb, ws, hw, hzw⟩ := ih hy hm
      exact ⟨b, by simp [hb], ws, hw, hzw⟩

theorem mapM_cons_ok (f : α → Except ε β) (a : α) (as : List α) (zs : List β) :
    (a :: as).mapM f = .ok zs ↔ ∃ y ys, f a = .ok y ∧ as.mapM f = .ok ys ∧ zs = y :: ys := by
  rw [List.mapM_cons]
  simp only [bind_eq_ok, pure, Except.pure, Except.ok.injEq]
  constructor
  · rintro ⟨y, hy, ys, hs, rfl⟩
    exact ⟨y, ys, hy, hs, rfl⟩
  · rintro ⟨y, ys, hy, hs, rfl⟩
    exact ⟨y, hy, ys, hs, rfl⟩

theorem mapM_ok_mem {f : α → Except ε β} {as : List α} {bs : List β}
    (hm : as.mapM f = .ok bs) {b : β} (hb : b ∈ bs) : ∃ a ∈ as, f a = .ok b := by
  induction as generalizing bs with
  | nil =>
    simp only [List.mapM_nil, pure, Except.pure, Except.ok.injEq] at hm
    subst hm
    simp at hb
  | cons a as ih =>
    obtain ⟨y, ys, hy, hs, rfl⟩ := (mapM_cons_ok f a as bs).1 hm
    rcases List.mem_cons.1 hb with rfl | hb
    · exact ⟨a, by simp, hy⟩
    · obtain ⟨c, hc, hcb⟩ := ih hs hb
      exact ⟨c, by simp [hc], hcb⟩

theorem mem_of_mapM_ok {f : α → Except ε β} {as : List α} {bs : List β}
    (hm : as.mapM f = .ok bs) {a : α} (ha : a ∈ as) : ∃ b ∈ bs, f a = .ok b := by
  induction as generalizing bs with
  | nil => simp at ha
  | cons c as ih =>
    obtain ⟨y, ys, hy, hs, rfl⟩ := (mapM_cons_ok f c as bs).1 hm
    rcases List.mem_cons.1 ha with rfl | ha
    · exact ⟨y, by simp, hy⟩
    · obtain ⟨b, hb, hab⟩ := ih hs ha
      exact ⟨b, by simp [hb], hab⟩

theorem exists_mapM_ok {f : α → Except ε β} {as : List α} (hf : ∀ a ∈ as, ∃ b, f a = .ok b) :
    ∃ bs, as.mapM f = .ok bs := by
  induction as with
  | nil => exact ⟨[], rfl⟩
  | cons a as ih =>
    rw [List.forall_mem_cons] at hf
    obtain ⟨y, hy⟩ := hf.1
    obtain ⟨ys, hs⟩ := ih hf.2
    exact ⟨y :: ys, (mapM_cons_ok f a as _).2 ⟨y, ys, hy, hs, rfl⟩⟩

theorem mem_of_flatMapM_ok {f : α → Except ε (List β)} {as : List α} {zs : List β}
    (hz : flatMapM f as = .ok zs) {a : α} (ha : a ∈ as) : ∃ xs, f a = .ok xs ∧ xs ⊆ zs := by
  induction as generalizing zs with
  | nil => simp at ha
  | cons c as ih =>
    obtain ⟨xs, ys, hx, hy, rfl⟩ := (flatMapM_cons_ok f c as zs).1 hz
    rcases List.mem_cons.1 ha with rfl | ha
    · exact ⟨xs, hx, fun x hm => List.mem_append_left _ hm⟩
    · obtain ⟨ws, hw, hsub⟩ := ih hy ha
      exact ⟨ws, hw, fun x hx => List.mem_append_right _ (hsub hx)⟩

theorem exists_flatMapM_ok {f : α → Except ε (List β)} {as : List α}
    (hf : ∀ a ∈ as, ∃ xs, f a = .ok xs) : ∃ zs, flatMapM f as = .ok zs := by
  induction as with
  | nil => exact ⟨[], rfl⟩
  | cons a as ih =>
    rw [List.forall_mem_cons] at hf
    obtain ⟨xs, hx⟩ := hf.1
    obtain ⟨ys, hy⟩ := ih hf.2
    exact ⟨xs ++ ys, (flatMapM_cons_ok f a as _).2 ⟨xs, ys, hx, hy, rfl⟩⟩

theorem flatMapM_ok_flatMap {f : α → Except ε (List β)} {g : α → List β} {as : List α}
    (hf : ∀ a ∈ as, ∀ xs, f a = .ok xs → xs = g a) {zs : List β} (hz : flatMapM f as = .ok zs) :
    zs = as.flatMap g := by
  induction as generalizing zs with
  | nil =>
    cases hz
    rfl
  | cons a as ih =>
    rw [List.forall_mem_cons] at hf
    obtain ⟨xs, ys, hx, hy, rfl⟩ := (flatMapM_cons_ok f a as zs).1 hz
    rw [List.flatMap_cons, ← hf.1 xs hx, ← ih hf.2 hy]

theorem mapM_ok_map {γ : Type} {f : α → Except ε β} (g : α → γ) (g' : β → γ)
    (hf : ∀ a b, f a = .ok b → g' b = g a) {as : List α} {bs : List β} (hm : as.mapM f = .ok bs) :
    bs.map g' = as.map g := by
  induction as generalizing bs with
  | nil =>
    simp only [List.mapM_nil, pure, Except.pure, Except.ok.injEq] at hm
    subst hm
    rfl
  | cons a as ih =>
    obtain ⟨y, ys, hy, hs, rfl⟩ := (mapM_cons_ok f a as bs).1 hm
    rw [List.map_cons, List.map_cons, hf a y hy, ih hs]

theorem mapM_ok_of_forall (f : α → Except ε β) (g : α → β) (as : List α)
    (hf : ∀ a ∈ as, f a = .ok (g a)) : as.mapM f = .ok (as.map g) := by
  induction as with
  | nil => rfl
  | cons a as ih =>
    rw [List.forall_mem_cons] at hf
    exact (mapM_cons_ok f a as _).2 ⟨g a, as.map g, hf.1, ih hf.2, rfl⟩

end Binds

section Folds
variable {σ α : Type} {f : σ → α → σ} {I : σ → Prop}

theorem foldl_inv {l : List α} (hstep : ∀ s, ∀ a ∈ l, I s → I (f s a)) {s : σ} (hs : I s) :
    I (l.foldl f s) := by
  induction l generalizing s with
  | nil => exact hs
  | cons a l ih =>
    exact ih (fun s b hb => hstep s b (List.mem_cons_of_mem a hb))
      (hstep s a List.mem_cons_self hs)

/-- What a turn of the loop establishes for its element and the later turns keep. -/
theorem foldl_reach {P : α → σ → Prop} {l : List α} (hstep : ∀ s, ∀ a ∈ l, I s → I (f s a))
    (hdone : ∀ s, ∀ a ∈ l, I s → P a (f s a))
    (hkeep : ∀ s, ∀ a ∈ l, ∀ b, I s → P b s → P b (f s a)) {s : σ} (hs : I s) :
    ∀ a ∈ l, P a (l.foldl f s) := by
  induction l generalizing s with
  | nil => exact fun a ha => absurd ha List.not_mem_nil
  | cons a l ih =>
    simp only [List.mem_cons, forall_eq_or_imp] at hstep hdone hkeep ⊢
    have hstep' : ∀ s, ∀ b ∈ l, I s → I (f s b) := fun s => (hstep s).2
    have hs' : I (f s a) := (hstep s).1 hs
    refine ⟨?_, ih hstep' (fun s => (hdone s).2) (fun s => (hkeep s).2) hs'⟩
    have hend : I (l.foldl f (f s a)) ∧ P a (l.foldl f (f s a)) :=
      foldl_inv (I := fun s => I s ∧ P a s)
        (fun t b hb ht => ⟨hstep' t b hb ht.1, (hkeep t).2 b hb a ht.1 ht.2⟩)
        ⟨hs', (hdone s).1 hs⟩
    exact hend.2

end Folds

section CountedLoops
variable {ε σ : Type}

theorem foldlM_inv {α : Type} (f : σ → α → Except ε σ) (Inv : σ → Prop)
    (step : ∀ s a s', Inv s → f s a = .ok s' → Inv s') (l : List α) (s s' : σ) (hs : Inv s)
    (hf : l.foldlM f s = .ok s') : Inv s' := by
  induction l generalizing s with
  | nil =>
    simp only [List.foldlM_nil, pure, Except.pure, Except.ok.injEq] at hf
    exact hf ▸ hs
  | cons a l ih =>
    rw [List.foldlM_cons] at hf
    obtain ⟨u, hu, hf⟩ := bind_eq_ok.1 hf
    exact ih u (step s a u hs hu) hf

theorem foldlM_collect {α β : Type} (f : σ → α → Except ε σ)
    (g : α → Except ε (List β)) (out : σ → List β)
    (step : ∀ s a s', f s a = .ok s' → ∃ xs, g a = .ok xs ∧ out s' = out s ++ xs)
    (as : List α) (s s' : σ) (hf : as.foldlM f s = .ok s') :
    ∃ xs, flatMapM g as = .ok xs ∧ out s' = out s ++ xs := by
  induction as generalizing s with
  | nil =>
    simp only [List.foldlM_nil, pure, Except.pure, Except.ok.injEq] at hf
    subst hf
    exact ⟨[], rfl, by simp⟩
  | cons a as ih =>
    rw [List.foldlM_cons] at hf
    obtain ⟨u, hu, hf⟩ := bind_eq_ok.1 hf
    obtain ⟨xs, hx, hxo⟩ := step s a u hu
    obtain ⟨ys, hy, hyo⟩ := ih u hf
    exact ⟨xs ++ ys, (flatMapM_cons_ok _ _ _ _).2 ⟨xs, ys, hx, hy, rfl⟩,
      by rw [hyo, hxo, List.append_assoc]⟩

/-- A loop over `0, …, n - 1` keeps an indexed invariant that each turn carries on. -/
theorem foldlM_finRange {n : ℕ} (f : σ → Fin n → Except ε σ) (Inv : ℕ → σ → Prop) (s : σ)
    (h0 : Inv 0 s)
    (step : ∀ (d : Fin n) (t : σ), Inv d.val t → ∃ u, f t d = .ok u ∧ Inv (d.val + 1) u) :
    ∃ u, (List.finRange n).foldlM f s = .ok u ∧ Inv n u := by
  suffices hk : ∀ k ≤ n, ∃ u, ((List.finRange n).take k).foldlM f s = .ok u ∧ Inv k u by
    obtain ⟨u, hu, hi⟩ := hk n le_rfl
    rw [List.take_of_length_le (by simp)] at hu
    exact ⟨u, hu, hi⟩
  intro k hk
  induction k with
  | zero => exact ⟨s, rfl, h0⟩
  | succ k ih =>
    obtain ⟨t, ht, hi⟩ := ih (by omega)
    obtain ⟨u, hu, hj⟩ := step ⟨k, by omega⟩ t hi
    refine ⟨u, ?_, hj⟩
    have hl : k < (List.finRange n).length := by simp; omega
    rw [List.take_succ_eq_append_getElem hl, List.foldlM_append, ht]
    simpa using hu

end CountedLoops

section Order
variable {ε σ α β : Type}

theorem mapM_perm {f : α → Except ε β} {l l' : List α} (h : l.Perm l') {bs : List β}
    (hm : l.mapM f = .ok bs) : ∃ bs', l'.mapM f = .ok bs' ∧ bs.Perm bs' := by
  induction h generalizing bs with
  | nil => exact ⟨bs, hm, .refl _⟩
  | cons a _ ih =>
    obtain ⟨y, ys, hy, hs, rfl⟩ := (mapM_cons_ok f a _ bs).1 hm
    obtain ⟨ys', hs', hperm⟩ := ih hs
    exact ⟨y :: ys', (mapM_cons_ok f a _ _).2 ⟨y, ys', hy, hs', rfl⟩, hperm.cons y⟩
  | swap a b l =>
    obtain ⟨z, zs, hz, hzs, rfl⟩ := (mapM_cons_ok f b _ bs).1 hm
    obtain ⟨y, ys, hy, hys, rfl⟩ := (mapM_cons_ok f a _ zs).1 hzs
    refine ⟨y :: z :: ys, (mapM_cons_ok f a _ _).2 ⟨y, z :: ys, hy, ?_, rfl⟩, .swap y z ys⟩
    exact (mapM_cons_ok f b _ _).2 ⟨z, ys, hz, hys, rfl⟩
  | trans _ _ ih ih' =>
    obtain ⟨cs, hcs, hperm⟩ := ih hm
    obtain ⟨ds, hds, hperm'⟩ := ih' hcs
    exact ⟨ds, hds, hperm.trans hperm'⟩

/-- A loop ends in the same state for every order of elements whose steps commute. -/
theorem foldlM_perm {f : σ → α → Except ε σ} {Apart : α → α → Prop}
    (hsymm : ∀ a b, Apart a b → Apart b a)
    (hcomm : ∀ s t u a b, Apart a b → f s a = .ok t → f t b = .ok u →
      ∃ t', f s b = .ok t' ∧ f t' a = .ok u)
    {l l' : List α} (h : l.Perm l') (hapart : l.Pairwise Apart) {s u : σ}
    (hf : l.foldlM f s = .ok u) : l'.foldlM f s = .ok u := by
  induction h generalizing s with
  | nil => exact hf
  | cons a _ ih =>
    rw [List.foldlM_cons, bind_eq_ok] at hf ⊢
    obtain ⟨t, ht, hf⟩ := hf
    exact ⟨t, ht, ih (List.pairwise_cons.1 hapart).2 hf⟩
  | swap a b l =>
    rw [List.foldlM_cons, bind_eq_ok] at hf
    obtain ⟨t, ht, hf⟩ := hf
    rw [List.foldlM_cons, bind_eq_ok] at hf
    obtain ⟨v, hv, hf⟩ := hf
    have hba : Apart b a := (List.pairwise_cons.1 hapart).1 a List.mem_cons_self
    obtain ⟨t', ht', hv'⟩ := hcomm s t v b a hba ht hv
    rw [List.foldlM_cons, ht', ok_bind, List.foldlM_cons, hv', ok_bind]
    exact hf
  | trans h _ ih ih' =>
    refine ih' ?_ (ih hapart hf)
    exact hapart.perm h fun {a b} hab => hsymm a b hab

end Order

section StableSort
variable {α : Type} (r : α → α → Prop) [DecidableRel r]

theorem orderedInsert_append_early (a : α) (xs ys : List α) (hy : ∀ y ∈ ys, r a y) :
    (xs ++ ys).orderedInsert r a = xs.orderedInsert r a ++ ys := by
  induction xs with
  | nil =>
    cases ys with
    | nil => rfl
    | cons y ys => simp [List.orderedInsert, hy y (by simp)]
  | cons x xs ih =>
    by_cases hx : r a x <;> simp [List.orderedInsert, hx, ih]

theorem orderedInsert_append_late (a : α) (xs ys : List α) (hx : ∀ x ∈ xs, ¬ r a x) :
    (xs ++ ys).orderedInsert r a = xs ++ ys.orderedInsert r a := by
  induction xs with
  | nil => rfl
  | cons x xs ih =>
    have hn : ¬ r a x := hx x (by simp)
    simp [hn, ih (fun y hy => hx y (by simp [hy]))]

omit r in
theorem filter_interleave (p : α → Bool) {as bs cs ds : List α} (ha : ∀ x ∈ as, p x = true)
    (hb : ∀ x ∈ bs, p x = false) (hc : ∀ x ∈ cs, p x = true) (hd : ∀ x ∈ ds, p x = false) :
    ((as ++ bs) ++ (cs ++ ds)).filter p = as ++ cs ∧
      ((as ++ bs) ++ (cs ++ ds)).filter (fun x => !p x) = bs ++ ds := by
  have htrue : ∀ xs : List α, (∀ x ∈ xs, p x = true) →
      xs.filter p = xs ∧ xs.filter (fun x => !p x) = [] :=
    fun xs hx => ⟨List.filter_eq_self.2 hx, List.filter_eq_nil_iff.2 fun x hm => by simp [hx x hm]⟩
  have hfalse : ∀ xs : List α, (∀ x ∈ xs, p x = false) →
      xs.filter p = [] ∧ xs.filter (fun x => !p x) = xs :=
    fun xs hx => ⟨List.filter_eq_nil_iff.2 fun x hm => by simp [hx x hm],
      List.filter_eq_self.2 fun x hm => by simp [hx x hm]⟩
  simp only [List.filter_append, htrue as ha, htrue cs hc, hfalse bs hb, hfalse ds hd,
    List.append_nil, List.nil_append, and_self]

/-- Sorting moves the elements of an earlier class, in their sorted order, before all
    others, and does not mix the two. -/
theorem insertionSort_split (p : α → Bool) (l : List α)
    (early : ∀ x ∈ l, ∀ y ∈ l, p x = true → p y = false → r x y ∧ ¬ r y x) :
    l.insertionSort r =
      (l.filter p).insertionSort r ++ (l.filter (fun x => !p x)).insertionSort r := by
  induction l with
  | nil => rfl
  | cons a l ih =>
    have hl := ih (fun x hx y hy => early x (by simp [hx]) y (by simp [hy]))
    rw [List.insertionSort_cons, hl]
    cases ha : p a with
    | true =>
      have hy : ∀ y ∈ (l.filter (fun x => !p x)).insertionSort r, r a y := by
        intro y hy
        rw [List.mem_insertionSort, List.mem_filter] at hy
        exact (early a (by simp) y (by simp [hy.1]) ha (by simpa using hy.2)).1
      rw [orderedInsert_append_early r a _ _ hy]
      simp [ha]
    | false =>
      have hx : ∀ x ∈ (l.filter p).insertionSort r, ¬ r a x := by
        intro x hx
        rw [List.mem_insertionSort, List.mem_filter] at hx
        exact (early x (by simp [hx.1]) a (by simp) hx.2 ha).2
      rw [orderedInsert_append_late r a _ _ hx]
      simp [ha]

end StableSort

section HashMaps
variable {κ α : Type} [DecidableEq κ]

def mapInsert (m : κ → Option α) (e : κ × α) : κ → Option α := Function.update m e.1 (some e.2)

/-- A hash map filled in order from a list, a later entry replacing an earlier one. -/
def hashMap (entries : List (κ × α)) : κ → Option α := entries.foldl mapInsert fun _ => none

theorem foldl_update_of_notMem (entries : List (κ × α)) (m : κ → Option α) (k : κ)
    (hk : k ∉ entries.map Prod.fst) :
    entries.foldl mapInsert m k = m k := by
  induction entries generalizing m with
  | nil => rfl
  | cons e es ih =>
    simp only [List.map_cons, List.mem_cons, not_or] at hk
    rw [List.foldl_cons, ih _ hk.2, mapInsert, Function.update_of_ne hk.1]

theorem hashMap_of_notMem (entries : List (κ × α)) (k : κ) (hk : k ∉ entries.map Prod.fst) :
    hashMap entries k = none :=
  foldl_update_of_notMem entries _ k hk

theorem hashMap_of_mem (entries : List (κ × α)) (hd : (entries.map Prod.fst).Nodup) (k : κ)
    (v : α) (hm : (k, v) ∈ entries) : hashMap entries k = some v := by
  obtain ⟨xs, ys, rfl⟩ := List.append_of_mem hm
  unfold hashMap
  rw [List.foldl_append, List.foldl_cons, foldl_update_of_notMem]
  · exact Function.update_self ..
  · simp only [List.map_append, List.map_cons, List.nodup_append, List.nodup_cons] at hd
    exact hd.2.1.1

end HashMaps

end ZcashSdk.Loops
