import ZcashSdk.Wallet.Checkpoints
import Mathlib.Data.List.Destutter
import Mathlib.Data.List.Sort
import Mathlib.Tactic.SplitIfs

set_option autoImplicit false

/-!
# The ranges of a sync cycle

A cycle scans from the height after each account's seam. The heights that occur divide
the chain into ranges, and each range is scanned for the accounts that begin at its
start or before. A range ends where the next one begins, so where an account is ahead
of the chain the range before it ends above the chain.
-/
namespace ZcashSdk.Wallet
open Tables Db Shielded

/-! ### Planning -/

/-- A range of blocks, both ends included, and the accounts it is scanned for. -/
structure HeightRange where
  start : ℕ
  stop : ℕ
  accounts : List ℕ
  deriving DecidableEq

def uniqueHeights (heights : List (ℕ × ℕ)) : List ℕ :=
  ((heights.map Prod.snd).insertionSort (· ≤ ·)).destutter (· ≠ ·)

def endHeight (current : ℕ) (rest : List ℕ) : ℕ :=
  match rest with
  | [] => current
  | next :: _ => next - 1

def accountsToSync (start : ℕ) (heights : List (ℕ × ℕ)) : List ℕ :=
  (heights.filter fun p => p.2 ≤ start).map Prod.fst

def advanceHeights (start stop : ℕ) (heights : List (ℕ × ℕ)) : List (ℕ × ℕ) :=
  heights.map fun p => if p.2 ≤ start then (p.1, stop) else p

def planRanges (current : ℕ) : List ℕ → List (ℕ × ℕ) → List HeightRange
  | [], _ => []
  | start :: rest, heights =>
    let stop := endHeight current rest
    if (accountsToSync start heights).isEmpty then planRanges current rest heights
    else if stop < start then []
    else ⟨start, stop, accountsToSync start heights⟩ ::
      planRanges current rest (advanceHeights start stop heights)

section Reads
variable {H : Type} [DecidableEq H]

/-- Where the scan of an account begins, a `u32`. -/
def nextHeight (db : Database H) (account : ℕ) : Option ℕ := do
  let _ ← db.accountRow account
  let height ← db.accountSeam account
  some ((height + 1) % 2 ^ 32)

/-- The map of the accounts that have a height; asking for one twice changes nothing. -/
def accountHeights (db : Database H) (accounts : List ℕ) : List (ℕ × ℕ) :=
  accounts.dedup.filterMap fun a => (nextHeight db a).map (a, ·)

def syncHeightRanges (db : Database H) (accounts : List ℕ) (current : ℕ) :
    Except Fault (List HeightRange) :=
  match db.recoverFromPartialSync accounts with
  | (_, some f) => .error f
  | (db, none) =>
    let heights := accountHeights db accounts
    .ok (planRanges current (uniqueHeights heights) heights)

end Reads

def timesScanned (scans : List HeightRange) (account block : ℕ) : ℕ :=
  scans.countP fun s => decide (account ∈ s.accounts ∧ s.start ≤ block ∧ block ≤ s.stop)

theorem timesScanned_cons (s : HeightRange) (scans : List HeightRange) (account block : ℕ) :
    timesScanned (s :: scans) account block = timesScanned scans account block +
      if account ∈ s.accounts ∧ s.start ≤ block ∧ block ≤ s.stop then 1 else 0 := by
  unfold timesScanned
  rw [List.countP_cons]
  simp only [decide_eq_true_eq]

/-! ### What a plan scans -/

def planEnd (current : ℕ) : List ℕ → ℕ
  | [] => current
  | [last] => if last ≤ current then current else last - 1
  | _ :: rest => planEnd current rest

theorem planEnd_last (current : ℕ) : ∀ {heights : List ℕ}, heights ≠ [] →
    heights.Pairwise (· < ·) → ∃ last ∈ heights, (∀ h ∈ heights, h ≤ last) ∧
      planEnd current heights = if last ≤ current then current else last - 1
  | [], h, _ => absurd rfl h
  | [h], _, _ => ⟨h, List.mem_singleton_self _, fun _ hm => (List.mem_singleton.1 hm).le, rfl⟩
  | h :: next :: rest, _, hs => by
    obtain ⟨hlt, hs⟩ := List.pairwise_cons.1 hs
    obtain ⟨last, hmem, hmax, heq⟩ := planEnd_last current (List.cons_ne_nil _ _) hs
    refine ⟨last, List.mem_cons_of_mem _ hmem, ?_, heq⟩
    intro x hx
    obtain rfl | hx := List.mem_cons.1 hx
    · exact (hlt last hmem).le
    · exact hmax x hx

theorem le_planEnd {current h : ℕ} {heights : List ℕ} (hs : heights.Pairwise (· < ·))
    (hmem : h ∈ heights) : h ≤ planEnd current heights + 1 := by
  obtain ⟨last, -, hmax, heq⟩ := planEnd_last current (List.ne_nil_of_mem hmem) hs
  have hle := hmax h hmem
  rw [heq]
  split_ifs <;> omega

/-- The heights are those the remaining ranges begin with, or behind all of them. -/
structure Pending (start : ℕ) (rest : List ℕ) (heights : List (ℕ × ℕ)) : Prop where
  sorted : (start :: rest).Pairwise (· < ·)
  keys : (heights.map Prod.fst).Nodup
  begin : ∀ p ∈ heights, p.2 ≤ start ∨ p.2 ∈ rest
  reached : ∃ p ∈ heights, p.2 ≤ start

namespace Pending
variable {start next current : ℕ} {rest : List ℕ} {heights : List (ℕ × ℕ)}

theorem nonempty (h : Pending start rest heights) :
    (accountsToSync start heights).isEmpty = false := by
  obtain ⟨p, hp, hle⟩ := h.reached
  refine List.isEmpty_eq_false_iff_exists_mem.2 ⟨p.1, ?_⟩
  exact List.mem_map_of_mem (List.mem_filter.2 ⟨hp, decide_eq_true hle⟩)

theorem mem_accountsToSync (h : Pending start rest heights) {p : ℕ × ℕ} (hp : p ∈ heights) :
    p.1 ∈ accountsToSync start heights ↔ p.2 ≤ start := by
  unfold accountsToSync
  constructor
  · intro hmem
    obtain ⟨q, hq, hkey⟩ := List.mem_map.1 hmem
    obtain ⟨hq, hle⟩ := List.mem_filter.1 hq
    rw [← List.inj_on_of_nodup_map h.keys hq hp hkey]
    exact of_decide_eq_true hle
  · intro hle
    exact List.mem_map_of_mem (List.mem_filter.2 ⟨hp, decide_eq_true hle⟩)

theorem lt_next (h : Pending start (next :: rest) heights) : start < next :=
  (List.pairwise_cons.1 h.sorted).1 next List.mem_cons_self

theorem advance (h : Pending start (next :: rest) heights) :
    Pending next rest (advanceHeights start (next - 1) heights) where
  sorted := (List.pairwise_cons.1 h.sorted).2
  keys := by
    have hsame : (advanceHeights start (next - 1) heights).map Prod.fst =
        heights.map Prod.fst := by
      unfold advanceHeights
      rw [List.map_map]
      refine List.map_congr_left fun p _ => ?_
      simp only [Function.comp_apply]
      split <;> rfl
    rw [hsame]
    exact h.keys
  begin := by
    intro q hq
    obtain ⟨p, hp, rfl⟩ := List.mem_map.1 hq
    split_ifs with hle
    · exact .inl (Nat.sub_le _ _)
    · obtain hle' | hmem := h.begin p hp
      · exact absurd hle' hle
      · exact (List.mem_cons.1 hmem).imp_left Eq.le
  reached := by
    obtain ⟨p, hp, hle⟩ := h.reached
    refine ⟨(p.1, next - 1), ?_, Nat.sub_le _ _⟩
    exact List.mem_map.2 ⟨p, hp, if_pos hle⟩

theorem planRanges_last (h : Pending start [] heights) :
    planRanges current [start] heights =
      if current < start then [] else [⟨start, current, accountsToSync start heights⟩] := by
  unfold planRanges
  rw [h.nonempty]
  rfl

theorem planRanges_next (h : Pending start (next :: rest) heights) :
    planRanges current (start :: next :: rest) heights =
      ⟨start, next - 1, accountsToSync start heights⟩ ::
        planRanges current (next :: rest) (advanceHeights start (next - 1) heights) := by
  have hstop : ¬ endHeight current (next :: rest) < start := by
    have hlt := h.lt_next
    change ¬ next - 1 < start
    omega
  rw [planRanges]
  simp only [h.nonempty, if_neg hstop]
  rfl

/-- The induction is on the remaining ranges: an account that was scanned up to the start
    goes on there, any other begins at its own height. -/
theorem timesScanned_plan (current : ℕ) : ∀ {rest : List ℕ} {start : ℕ} {heights : List (ℕ × ℕ)},
    Pending start rest heights → ∀ p ∈ heights, ∀ block,
      timesScanned (planRanges current (start :: rest) heights) p.1 block =
        if max p.2 start ≤ block ∧ block ≤ planEnd current (start :: rest) then 1 else 0
  | [], start, heights, h, p, hp, block => by
    have hle : p.2 ≤ start := (h.begin p hp).resolve_right (List.not_mem_nil)
    have hmem := (h.mem_accountsToSync hp).2 hle
    rw [h.planRanges_last, planEnd, max_eq_right hle]
    obtain hcur | hcur := lt_or_ge current start
    · have hnone : ¬ (start ≤ block ∧ block ≤ start - 1) := by omega
      rw [if_pos hcur, if_neg (by omega : ¬ start ≤ current), if_neg hnone]
      rfl
    · rw [if_neg (by omega : ¬ current < start), if_pos hcur, timesScanned_cons]
      simp only [hmem, true_and]
      exact Nat.zero_add _
  | next :: rest, start, heights, h, p, hp, block => by
    have hlt := h.lt_next
    have hend : next ≤ planEnd current (next :: rest) + 1 :=
      le_planEnd (List.pairwise_cons.1 h.sorted).2 List.mem_cons_self
    have htail := timesScanned_plan current h.advance
      (if p.2 ≤ start then (p.1, next - 1) else p) (List.mem_map_of_mem hp) block
    rw [h.planRanges_next, timesScanned_cons]
    simp only [h.mem_accountsToSync hp]
    change _ = if _ ∧ _ ≤ planEnd current (next :: rest) then 1 else 0
    by_cases hle : p.2 ≤ start
    · rw [if_pos hle] at htail
      rw [htail]
      simp only [hle, true_and, max_eq_right hle, max_eq_right (Nat.sub_le next 1)]
      split_ifs <;> omega
    · rw [if_neg hle] at htail
      have hnext : next ≤ p.2 := by
        obtain heq | hmem := List.mem_cons.1 ((h.begin p hp).resolve_left hle)
        · exact heq.ge
        · exact ((List.pairwise_cons.1 (List.pairwise_cons.1 h.sorted).2).1 _ hmem).le
      rw [htail, max_eq_left hnext, max_eq_left (by omega)]
      simp only [hle, false_and, if_false, Nat.add_zero]
      rfl

theorem mem_plan (current : ℕ) : ∀ {rest : List ℕ} {start : ℕ} {heights : List (ℕ × ℕ)},
    Pending start rest heights → ∀ s ∈ planRanges current (start :: rest) heights,
      start ≤ s.start ∧ s.start ≤ s.stop ∧ s.stop ≤ planEnd current (start :: rest)
  | [], start, heights, h, s, hs => by
    rw [h.planRanges_last] at hs
    split_ifs at hs with hcur
    · exact absurd hs List.not_mem_nil
    · obtain rfl := List.mem_singleton.1 hs
      have hle := Nat.le_of_not_lt hcur
      rw [planEnd, if_pos hle]
      exact ⟨le_rfl, hle, le_rfl⟩
  | next :: rest, start, heights, h, s, hs => by
    have hlt := h.lt_next
    have hend : next ≤ planEnd current (next :: rest) + 1 :=
      le_planEnd (List.pairwise_cons.1 h.sorted).2 List.mem_cons_self
    rw [h.planRanges_next] at hs
    change _ ∧ _ ∧ _ ≤ planEnd current (next :: rest)
    obtain rfl | hs := List.mem_cons.1 hs
    · exact ⟨le_rfl, by simp only; omega, by simp only; omega⟩
    · obtain ⟨hstart, hrest⟩ := mem_plan current h.advance s hs
      exact ⟨by omega, hrest⟩

end Pending

/-! ### The heights of a database -/

theorem mem_destutter'_ne {a : ℕ} : ∀ {l : List ℕ} {b : ℕ}, a ∈ b :: l →
    a ∈ l.destutter' (· ≠ ·) b
  | [], _, h => h
  | c :: l, b, h => by
    rw [List.destutter'_cons]
    obtain rfl | h := List.mem_cons.1 h
    · split_ifs with hne
      · exact List.mem_cons_self
      · exact List.mem_destutter' _ _ _
    · split_ifs with hne
      · exact List.mem_cons_of_mem _ (mem_destutter'_ne h)
      · rw [not_not.1 hne]
        exact mem_destutter'_ne h

theorem mem_uniqueHeights {heights : List (ℕ × ℕ)} {h : ℕ} :
    h ∈ uniqueHeights heights ↔ ∃ p ∈ heights, p.2 = h := by
  unfold uniqueHeights
  have hsort : h ∈ (heights.map Prod.snd).insertionSort (· ≤ ·) ↔
      ∃ p ∈ heights, p.2 = h := by
    rw [List.mem_insertionSort, List.mem_map]
  rw [← hsort]
  constructor
  · exact fun hm => (List.destutter_sublist _ _).subset hm
  · intro hm
    cases hl : (heights.map Prod.snd).insertionSort (· ≤ ·) with
    | nil => rw [hl] at hm; exact absurd hm List.not_mem_nil
    | cons b l =>
      rw [hl] at hm
      exact mem_destutter'_ne hm

theorem lt_of_chain : ∀ {l : List ℕ}, l.Pairwise (· ≤ ·) → l.IsChain (· ≠ ·) →
    l.Pairwise (· < ·)
  | [], _, _ => .nil
  | [_], _, _ => List.pairwise_singleton _ _
  | a :: b :: l, hle, hne => by
    obtain ⟨hle, htail⟩ := List.pairwise_cons.1 hle
    obtain ⟨hne, hchain⟩ := List.isChain_cons_cons.1 hne
    have hlt := lt_of_chain htail hchain
    have hab : a < b := lt_of_le_of_ne (hle b List.mem_cons_self) hne
    refine List.pairwise_cons.2 ⟨fun x hx => ?_, hlt⟩
    obtain rfl | hx := List.mem_cons.1 hx
    · exact hab
    · exact hab.trans ((List.pairwise_cons.1 hlt).1 x hx)

theorem uniqueHeights_sorted (heights : List (ℕ × ℕ)) :
    (uniqueHeights heights).Pairwise (· < ·) := by
  have hsorted := List.pairwise_insertionSort (· ≤ ·) (heights.map Prod.snd)
  exact lt_of_chain (hsorted.sublist (List.destutter_sublist _ _)) (List.isChain_destutter _ _)

theorem pending_start {heights : List (ℕ × ℕ)} (hkeys : (heights.map Prod.fst).Nodup)
    {start : ℕ} {rest : List ℕ} (h : uniqueHeights heights = start :: rest) :
    Pending start rest heights where
  sorted := h ▸ uniqueHeights_sorted heights
  keys := hkeys
  begin p hp := by
    have hmem : p.2 ∈ start :: rest := h ▸ mem_uniqueHeights.2 ⟨p, hp, rfl⟩
    exact (List.mem_cons.1 hmem).imp_left Eq.le
  reached := by
    obtain ⟨p, hp, heq⟩ := mem_uniqueHeights.1 (h ▸ List.mem_cons_self (a := start) (l := rest))
    exact ⟨p, hp, heq.le⟩

section Reads
variable {H : Type} [DecidableEq H] {db : Database H}

/-- The recovery of an account leaves every seam where it is. -/
theorem trim_seam {a S b T : ℕ} (hS : db.accountSeam a = some S) (hT : db.accountSeam b = some T) :
    (db.trimSyncData a S).accountSeam b = some T := by
  by_cases hb : b = a
  · subst hb
    obtain rfl := Option.some.inj (hS.symm.trans hT)
    obtain ⟨r, hr, hacc, hheight⟩ := accountSeam_mem hS
    refine List.min?_eq_some_iff.2 ⟨?_, ?_⟩
    · exact mem_heights.2 ⟨r, mem_trim_heights.2 (.inr ⟨hheight, r, hr, hacc, hacc, rfl⟩), hacc,
        hheight⟩
    · intro h hh
      obtain ⟨q, hq, hqa, rfl⟩ := mem_heights.1 hh
      obtain ⟨hne, -⟩ | ⟨heq, -⟩ := mem_trim_heights.1 hq
      · exact absurd hqa hne
      · exact heq.ge
  · refine accountSeam_congr (fun r hr => ?_) hT
    rw [mem_trim_heights]
    constructor
    · exact fun h => .inl ⟨fun hra => hb (hr.symm.trans hra), h⟩
    · rintro (⟨-, h⟩ | ⟨-, -, -, -, hra, -⟩)
      · exact h
      · exact absurd (hr.symm.trans hra) hb

/-- The accounts of a cycle, with their seams, which are `u32`. -/
def Stored (db : Database H) (accounts : List ℕ) (seam : ℕ → ℕ) : Prop :=
  ∀ a ∈ accounts, (db.accountRow a).isSome ∧ db.accountSeam a = some (seam a) ∧ seam a < 2 ^ 32

theorem recover_stored {seam : ℕ → ℕ} : ∀ {accounts : List ℕ} {db : Database H} {all : List ℕ},
    Stored db all seam → (∀ a ∈ accounts, a ∈ all) →
      ∃ db', db.recoverFromPartialSync accounts = (db', none) ∧ Stored db' all seam
  | [], db, _, h, _ => ⟨db, rfl, h⟩
  | a :: accounts, db, all, h, hsub => by
    have hseam := (h a (hsub a List.mem_cons_self)).2.1
    have hnext : Stored (db.trimSyncData a (seam a)) all seam := by
      intro b hb
      obtain ⟨hrow, hb, hlt⟩ := h b hb
      exact ⟨hrow, trim_seam hseam hb, hlt⟩
    rw [Database.recoverFromPartialSync, hseam]
    exact recover_stored hnext fun b hb => hsub b (List.mem_cons_of_mem _ hb)

theorem nextHeight_stored {accounts : List ℕ} {seam : ℕ → ℕ} (h : Stored db accounts seam) {a : ℕ}
    (ha : a ∈ accounts) : nextHeight db a = some ((seam a + 1) % 2 ^ 32) := by
  obtain ⟨hrow, hseam, -⟩ := h a ha
  obtain ⟨r, hr⟩ := Option.isSome_iff_exists.1 hrow
  unfold nextHeight
  rw [hr, hseam]
  rfl

theorem accountHeights_stored {accounts : List ℕ} {seam : ℕ → ℕ} (h : Stored db accounts seam) :
    accountHeights db accounts = accounts.dedup.map fun a => (a, (seam a + 1) % 2 ^ 32) := by
  unfold accountHeights
  rw [← List.filterMap_eq_map]
  refine List.filterMap_congr fun a ha => ?_
  rw [nextHeight_stored h (List.mem_dedup.1 ha)]
  rfl

def nextOf (seam : ℕ) : ℕ := (seam + 1) % 2 ^ 32

theorem nextOf_eq {seam : ℕ} (h : seam < 2 ^ 32 - 1) : nextOf seam = seam + 1 :=
  Nat.mod_eq_of_lt (by omega)

theorem nextOf_max {seam : ℕ} (h : seam < 2 ^ 32) (hmax : ¬ seam < 2 ^ 32 - 1) :
    nextOf seam = 0 := by
  obtain rfl : seam = 2 ^ 32 - 1 := by omega
  rfl

/-- Every account is scanned from its own height to one stop, which is above the chain where
    the last range begins there. -/
structure PlansTo (accounts : List ℕ) (seam : ℕ → ℕ) (current stop : ℕ)
    (ranges : List HeightRange) : Prop where
  stop_eq : ∃ last ∈ accounts, (∀ a ∈ accounts, nextOf (seam a) ≤ nextOf (seam last)) ∧
    stop = if nextOf (seam last) ≤ current then current else nextOf (seam last) - 1
  times : ∀ a ∈ accounts, ∀ block, timesScanned ranges a block =
    if nextOf (seam a) ≤ block ∧ block ≤ stop then 1 else 0
  bounds : ∀ r ∈ ranges, (∃ a ∈ accounts, nextOf (seam a) ≤ r.start) ∧
    r.start ≤ r.stop ∧ r.stop ≤ stop

theorem syncHeightRanges_plansTo {accounts : List ℕ} {seam : ℕ → ℕ} (h : Stored db accounts seam)
    (hne : accounts ≠ []) (current : ℕ) : ∃ ranges stop,
      syncHeightRanges db accounts current = .ok ranges ∧
        PlansTo accounts seam current stop ranges := by
  obtain ⟨db', hrecover, h'⟩ := recover_stored h fun _ ha => ha
  let heights := accountHeights db' accounts
  have hheights : heights = accounts.dedup.map fun a => (a, nextOf (seam a)) :=
    accountHeights_stored h'
  have hkeys : (heights.map Prod.fst).Nodup := by
    rw [hheights, List.map_map]
    exact (List.map_id accounts.dedup).symm ▸ accounts.nodup_dedup
  have hof : ∀ a ∈ accounts, (a, nextOf (seam a)) ∈ heights := by
    intro a ha
    rw [hheights]
    exact List.mem_map_of_mem (List.mem_dedup.2 ha)
  have hunique : ∀ n, n ∈ uniqueHeights heights ↔ ∃ a ∈ accounts, nextOf (seam a) = n := by
    intro n
    rw [mem_uniqueHeights, hheights]
    simp only [List.mem_map, List.mem_dedup, exists_exists_and_eq_and]
  have hsorted := uniqueHeights_sorted heights
  obtain ⟨a₀, ha₀⟩ := List.exists_mem_of_ne_nil accounts hne
  obtain ⟨start, rest, hsplit⟩ : ∃ start rest, uniqueHeights heights = start :: rest :=
    List.exists_cons_of_ne_nil (List.ne_nil_of_mem ((hunique _).2 ⟨a₀, ha₀, rfl⟩))
  have hpending := pending_start hkeys hsplit
  have hstart : ∀ n ∈ uniqueHeights heights, start ≤ n := by
    rw [hsplit] at hsorted ⊢
    intro n hn
    obtain rfl | hn := List.mem_cons.1 hn
    · exact le_rfl
    · exact ((List.pairwise_cons.1 hsorted).1 n hn).le
  refine ⟨planRanges current (start :: rest) heights, planEnd current (start :: rest), ?_, ?_, ?_, ?_⟩
  · unfold syncHeightRanges
    rw [hrecover]
    change Except.ok (planRanges current (uniqueHeights heights) heights) = _
    rw [hsplit]
  · obtain ⟨last, hlast, hmax, heq⟩ :=
      planEnd_last current (List.cons_ne_nil start rest) (hsplit ▸ hsorted)
    rw [← hsplit] at hlast hmax
    obtain ⟨a, ha, rfl⟩ := (hunique _).1 hlast
    exact ⟨a, ha, fun b hb => hmax _ ((hunique _).2 ⟨b, hb, rfl⟩), heq⟩
  · intro a ha block
    have htimes := hpending.timesScanned_plan current _ (hof a ha) block
    rwa [max_eq_left (hstart _ ((hunique _).2 ⟨a, ha, rfl⟩))] at htimes
  · intro r hr
    obtain ⟨hbegin, hrest⟩ := hpending.mem_plan current r hr
    obtain ⟨a, ha, heq⟩ := (hunique start).1 (hsplit ▸ List.mem_cons_self)
    exact ⟨⟨a, ha, heq ▸ hbegin⟩, hrest⟩

/-- Every block above an account's seam is scanned once for it, none at or below, and no range
    is empty or reaches above the chain. -/
structure ScansExactly (accounts : List ℕ) (seam : ℕ → ℕ) (current : ℕ)
    (ranges : List HeightRange) : Prop where
  times : ∀ a ∈ accounts, ∀ block, timesScanned ranges a block =
    if seam a < block ∧ block ≤ current then 1 else 0
  bounds : ∀ r ∈ ranges, r.start ≤ r.stop ∧ r.stop ≤ current

theorem PlansTo.exactly {accounts : List ℕ} {seam : ℕ → ℕ} {current stop : ℕ}
    {ranges : List HeightRange} (h : PlansTo accounts seam current stop ranges)
    (hu32 : ∀ a ∈ accounts, seam a < 2 ^ 32 - 1)
    (hchain : (∀ a ∈ accounts, seam a ≤ current) ∨ ∀ a ∈ accounts, ∀ b ∈ accounts, seam a = seam b) :
    ScansExactly accounts seam current ranges := by
  obtain ⟨last, hlast, -, hstop⟩ := h.stop_eq
  have hnext := nextOf_eq (hu32 last hlast)
  -- where the heights are equal and above the chain, the stop is below them all
  have hcases : stop = current ∨ stop < nextOf (seam last) ∧ current < nextOf (seam last) ∧
      ∀ a ∈ accounts, seam a = seam last := by
    split_ifs at hstop with hle
    · exact .inl hstop
    · obtain hall | hall := hchain
      · have hseam := hall last hlast
        exact .inl (by omega)
      · exact .inr ⟨by omega, by omega, fun a ha => hall a ha last hlast⟩
  constructor
  · intro a ha block
    have hnext' := nextOf_eq (hu32 a ha)
    rw [h.times a ha block]
    obtain rfl | ⟨hlt, hcur, heq⟩ := hcases
    · simp only [hnext', Nat.succ_le_iff]
    · have hseam := heq a ha
      rw [if_neg (by omega), if_neg (by omega)]
  · intro r hr
    obtain ⟨⟨a, ha, hbegin⟩, hle, hend⟩ := h.bounds r hr
    obtain rfl | ⟨hlt, -, heq⟩ := hcases
    · exact ⟨hle, hend⟩
    · rw [heq a ha] at hbegin
      omega

/-- A cycle scans exactly what it should where no account is ahead of the chain, or all are at
    one height, and the next height is a `u32`. -/
theorem ranges_exact_iff (db : Database H) (accounts : List ℕ) (current : ℕ) (seam : ℕ → ℕ)
    (hstored : Stored db accounts seam) :
    (∃ ranges, syncHeightRanges db accounts current = .ok ranges ∧
      ScansExactly accounts seam current ranges) ↔
      (∀ a ∈ accounts, seam a < 2 ^ 32 - 1) ∧
        ((∀ a ∈ accounts, seam a ≤ current) ∨
          ∀ a ∈ accounts, ∀ b ∈ accounts, seam a = seam b) := by
  by_cases hne : accounts = []
  · subst hne
    refine iff_of_true ⟨[], rfl, ?_, ?_⟩ ⟨?_, .inl ?_⟩ <;>
      exact fun _ h => absurd h List.not_mem_nil
  obtain ⟨ranges, stop, hranges, hplan⟩ := syncHeightRanges_plansTo hstored hne current
  constructor
  · rintro ⟨found, hfound, hexact⟩
    obtain rfl := Except.ok.inj (hranges.symm.trans hfound)
    have hiff : ∀ a ∈ accounts, ∀ block, (nextOf (seam a) ≤ block ∧ block ≤ stop) ↔
        seam a < block ∧ block ≤ current := by
      intro a ha block
      have htimes := (hplan.times a ha block).symm.trans (hexact.times a ha block)
      split_ifs at htimes with hplanned hscan hscan
      · exact iff_of_true hplanned hscan
      · exact iff_of_false hplanned hscan
    have hu32 : ∀ a ∈ accounts, seam a < 2 ^ 32 - 1 := by
      intro a ha
      by_contra hmax
      have hzero := (hiff a ha 0).1 ⟨(nextOf_max (hstored a ha).2.2 hmax).le, Nat.zero_le _⟩
      exact absurd hzero.1 (Nat.not_lt_zero _)
    refine ⟨hu32, or_iff_not_imp_left.2 fun hahead => ?_⟩
    obtain ⟨last, hlast, hmax, hstop⟩ := hplan.stop_eq
    push Not at hahead
    obtain ⟨b, hb, hlt⟩ := hahead
    have hnext : ∀ a ∈ accounts, nextOf (seam a) = seam a + 1 := fun a ha => nextOf_eq (hu32 a ha)
    have hbig := hmax b hb
    rw [hnext b hb, hnext last hlast] at hbig
    rw [hnext last hlast, if_neg (by omega)] at hstop
    -- an account behind the last one would be scanned up to the stop, above the chain
    have hall : ∀ a ∈ accounts, seam a = seam last := by
      intro a ha
      have hle := hmax a ha
      have hscan := hiff a ha stop
      rw [hnext a ha] at hscan hle
      rw [hnext last hlast] at hle
      omega
    exact fun a ha c hc => (hall a ha).trans (hall c hc).symm
  · rintro ⟨hu32, hchain⟩
    exact ⟨ranges, hranges, hplan.exactly hu32 hchain⟩

end Reads

def keylessAccount (id : ℕ) : AccountRow :=
  { idAccount := id, seedFingerprint := none, aindex := 0, dindex := 0, birth := 0,
    transparent := true, xvk := none, sapling := false, orchard := false }

def twoHeights : Database ℕ :=
  { Database.empty with
    accounts := ⟨[keylessAccount 1, keylessAccount 2], by decide⟩
    syncHeights := ⟨[⟨1, 0, 100⟩, ⟨2, 0, 300⟩], by decide⟩ }

def twoSeams (account : ℕ) : ℕ := if account = 1 then 100 else 300

theorem twoHeights_exact : ∃ ranges, syncHeightRanges twoHeights [1, 2] 1000 = .ok ranges ∧
    ScansExactly [1, 2] twoSeams 1000 ranges :=
  (ranges_exact_iff twoHeights [1, 2] 1000 twoSeams (by unfold Stored; decide)).2
    (by decide)

/-- On a chain of 200 blocks the first account is scanned up to 300. -/
theorem twoHeights_ahead :
    syncHeightRanges twoHeights [1, 2] 200 = .ok [⟨101, 300, [1]⟩] ∧
      ¬ ScansExactly [1, 2] twoSeams 200 [⟨101, 300, [1]⟩] := by
  refine ⟨by rfl, fun h => ?_⟩
  exact absurd (h.bounds _ List.mem_cons_self).2 (by decide)

end ZcashSdk.Wallet
