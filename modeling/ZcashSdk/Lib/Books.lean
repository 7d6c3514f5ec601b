import ZcashSdk.Lib.Runs

set_option autoImplicit false

/-!
# Books of what comes in and what is used up

A book lists what its owner received and the keys that were used up, each with the height at
which it happened. A book is written page after page and goes back to a height. What is held
at a height came in by then and has not been used up since. Books can be kept beside a machine
that runs.
-/
namespace ZcashSdk.Books
open Runs

structure Book (N K : Type) where
  received : List (ℕ × N)
  usedUp : List (ℕ × K)

variable {A N K : Type}

namespace Book

def empty : Book N K := ⟨[], []⟩

instance : Append (Book N K) where
  append b c := ⟨b.received ++ c.received, b.usedUp ++ c.usedUp⟩

def upTo (h : ℕ) (b : Book N K) : Book N K :=
  ⟨b.received.filter fun e => e.1 ≤ h, b.usedUp.filter fun e => e.1 ≤ h⟩

def ownedBy (p : N → Bool) (b : Book N K) : Book N K :=
  ⟨b.received.filter fun e => p e.2, b.usedUp⟩

/-- Received by a height and not used up from then on to that height. -/
def HeldAt (key : N → K) (b : Book N K) (h : ℕ) (n : N) : Prop :=
  ∃ r, (r, n) ∈ b.received ∧ r ≤ h ∧ ∀ u, (u, key n) ∈ b.usedUp → r ≤ u → h < u

@[simp] theorem empty_received : (empty : Book N K).received = [] := rfl

@[simp] theorem empty_usedUp : (empty : Book N K).usedUp = [] := rfl

@[simp] theorem received_append (b c : Book N K) :
    (b ++ c).received = b.received ++ c.received := rfl

@[simp] theorem usedUp_append (b c : Book N K) : (b ++ c).usedUp = b.usedUp ++ c.usedUp := rfl

@[simp] theorem upTo_empty (h : ℕ) : (empty : Book N K).upTo h = empty := rfl

theorem upTo_eq_self {h : ℕ} {b : Book N K} (hreceived : ∀ e ∈ b.received, e.1 ≤ h)
    (husedUp : ∀ e ∈ b.usedUp, e.1 ≤ h) : b.upTo h = b := by
  obtain ⟨rs, us⟩ := b
  simp only [upTo, mk.injEq, List.filter_eq_self, decide_eq_true_eq]
  exact ⟨hreceived, husedUp⟩

@[simp] theorem append_empty (b : Book N K) : b ++ empty = b := by
  cases b
  change (⟨_ ++ [], _ ++ []⟩ : Book N K) = _
  rw [List.append_nil, List.append_nil]

@[simp] theorem mem_received_upTo {h : ℕ} {b : Book N K} {e : ℕ × N} :
    e ∈ (b.upTo h).received ↔ e ∈ b.received ∧ e.1 ≤ h := by
  simp [upTo]

@[simp] theorem mem_usedUp_upTo {h : ℕ} {b : Book N K} {e : ℕ × K} :
    e ∈ (b.upTo h).usedUp ↔ e ∈ b.usedUp ∧ e.1 ≤ h := by
  simp [upTo]

@[simp] theorem mem_received_ownedBy {p : N → Bool} {b : Book N K} {e : ℕ × N} :
    e ∈ (b.ownedBy p).received ↔ e ∈ b.received ∧ p e.2 = true := by
  simp [ownedBy]

@[simp] theorem usedUp_ownedBy (p : N → Bool) (b : Book N K) : (b.ownedBy p).usedUp = b.usedUp :=
  rfl

end Book

/-! ### Ledgers -/

abbrev Ledger (A N K : Type) := A → Book N K

namespace Ledger
variable [DecidableEq A]

/-- A page that some owners read, each of whom keeps what is its own. -/
def extend (L : Ledger A N K) (readers : List A) (owner : N → A) (page : Book N K) :
    Ledger A N K := fun a =>
  if a ∈ readers then L a ++ page.ownedBy fun n => owner n = a else L a

def goBack (L : Ledger A N K) (a : A) (h : ℕ) : Ledger A N K := Function.update L a ((L a).upTo h)

def forget (L : Ledger A N K) (a : A) : Ledger A N K := Function.update L a Book.empty

variable {L : Ledger A N K} {a b : A}

theorem extend_of_mem {readers : List A} {owner : N → A} {page : Book N K} (h : a ∈ readers) :
    L.extend readers owner page a = L a ++ page.ownedBy fun n => owner n = a :=
  if_pos h

theorem extend_of_not_mem {readers : List A} {owner : N → A} {page : Book N K}
    (h : a ∉ readers) : L.extend readers owner page a = L a :=
  if_neg h

@[simp] theorem goBack_self (h : ℕ) : L.goBack a h a = (L a).upTo h := Function.update_self a _ L

@[simp] theorem forget_self : L.forget a a = Book.empty := Function.update_self a _ L

theorem goBack_of_ne {h : ℕ} (hne : b ≠ a) : L.goBack a h b = L b := Function.update_of_ne hne _ L

theorem forget_of_ne (hne : b ≠ a) : L.forget a b = L b := Function.update_of_ne hne _ L

end Ledger

/-! ### Entries and what cancels them -/

section Cancelled
variable {α β ι G : Type} [DecidableEq ι] [AddCommGroup G]

theorem sum_add_cancelled {ns : List α} {ss : List β} {idN : α → ι} {idS : β → ι}
    {valN : α → G} {valS : β → G} (hns : (ns.map idN).Nodup) (hss : (ss.map idS).Nodup)
    (hcancels : ∀ s ∈ ss, ∃ n ∈ ns, idN n = idS s ∧ valS s = -valN n) :
    (ns.map valN).sum + (ss.map valS).sum =
      ((ns.filter fun n => idN n ∉ ss.map idS).map valN).sum := by
  choose f hmem hid hval using hcancels
  have hinj := List.inj_on_of_nodup_map hns
  have hperm : (ss.pmap f fun _ h => h).Perm (ns.filter fun n => idN n ∈ ss.map idS) := by
    refine (List.perm_ext_iff_of_nodup ?_ (hns.of_map.filter _)).2 fun n => ?_
    · refine List.Nodup.of_map idN ?_
      rw [List.map_pmap]
      simpa only [hid, List.pmap_eq_map] using hss
    · rw [List.mem_pmap, List.mem_filter, decide_eq_true_eq, List.mem_map]
      constructor
      · rintro ⟨s, hs, rfl⟩
        exact ⟨hmem s hs, s, hs, (hid s hs).symm⟩
      · rintro ⟨hn, s, hs, heq⟩
        exact ⟨s, hs, hinj (hmem s hs) hn ((hid s hs).trans heq)⟩
  have hsum : (ss.map valS).sum = -((ns.filter fun n => idN n ∈ ss.map idS).map valN).sum := by
    have hmap : ss.map valS = (ss.pmap f fun _ h => h).map fun n => -valN n := by
      rw [List.map_pmap, ← List.pmap_eq_map (p := fun s => s ∈ ss) (f := valS) (H := fun _ h => h)]
      exact List.pmap_congr_left ss fun s _ h _ => hval s h
    rw [hmap, ← (hperm.map valN).sum_eq, List.sum_neg, List.map_map]
    rfl
  have hsplit := ((List.filter_append_perm (fun n => decide (idN n ∈ ss.map idS)) ns).map valN).sum_eq
  rw [List.map_append, List.sum_append] at hsplit
  rw [hsum, ← hsplit]
  simp only [decide_not]
  abel

end Cancelled

/-! ### Beside a machine -/

section Runs
variable {σ ε G : Type} (step : σ → ε → Option σ) (note : σ → ε → G → G)

def noted : σ → List ε → G → G
  | _, [], g => g
  | s, e :: es, g =>
    match step s e with
    | some t => noted t es (note s e g)
    | none => g

theorem noted_append {s t : σ} {es fs : List ε} {g : G} (hrun : run step s es = some t) :
    noted step note s (es ++ fs) g = noted step note t fs (noted step note s es g) := by
  induction es generalizing s g with
  | nil =>
    rw [run_nil, Option.some.injEq] at hrun
    rw [hrun]
    rfl
  | cons e es ih =>
    obtain ⟨u, hu, hr⟩ := (run_cons_some step).1 hrun
    rw [List.cons_append, noted, noted, hu]
    exact ih hr

/-- A step that keeps the machine and the notes in agreement. -/
theorem run_noted_inv {ok : σ → ε → Prop} {Inv : σ → G → Prop}
    (hstep : ∀ s e t g, Inv s g → ok s e → step s e = some t → Inv t (note s e g)) {s t : σ}
    {es : List ε} {g : G} (hs : Inv s g) (hok : AllSteps step ok s es)
    (hrun : run step s es = some t) : Inv t (noted step note s es g) := by
  induction es generalizing s g with
  | nil =>
    rw [run_nil, Option.some.injEq] at hrun
    exact hrun ▸ hs
  | cons e es ih =>
    obtain ⟨u, hu, hr⟩ := (run_cons_some step).1 hrun
    rw [noted, hu]
    exact ih (hstep s e u g hs hok.1 hu) (hok.2 u hu) hr

end Runs

end ZcashSdk.Books
