import ZcashSdk.Pay.Spends

set_option autoImplicit false

/-!
# The advertised maximum

What is offered as the most that can be sent is what the confirmed notes of the chosen
pools hold, less a fee that no way of sending it exceeds. So the planner finds a selection
for it, to whatever pool it goes.
-/
namespace ZcashSdk.Pay
open Tables Db Shielded Loops Outcomes Database

variable {H : Type} [DecidableEq H]

/-! ### The query -/

def spendableZecNotes (db : Database H) (account cutoff : ℕ) : List (NoteRow H) :=
  (db.ownedUnspentZecNotes account).filter fun n =>
    db.availableNote cutoff n ∧ (Solve.costPerAction : ℤ) ≤ n.value

/-- `SELECT pool, SUM(value), COUNT(*) … GROUP BY pool`. -/
def groupByPool (rows : List (NoteRow H)) : List (ℕ × ℤ × ℕ) :=
  (rows.map NoteRow.pool).dedup.map fun p =>
    let group := rows.filter fun n => n.pool = p
    (p, (group.map NoteRow.value).sum, group.length)

/-- A shielded bundle has at least two actions. -/
def groupActions (pool count : ℕ) : ℕ := if pool = 0 then count else max count 2

def maxSpendableFromPools (db : Database H) (account pools confirmations : ℕ) : ℕ :=
  let rows := groupByPool (spendableZecNotes db account (db.confirmedHeight account confirmations))
  let chosen := rows.filter fun g => hasPool pools g.1
  let available := (chosen.map fun g => asU64 g.2.1).sum
  let actions := (chosen.map fun g => groupActions g.1 g.2.2).sum
  available - max (actions + 4) 2 * Solve.costPerAction

/-! ### The planner's candidates -/

/-- Zatoshis that will ever exist. -/
def maxMoney : ℕ := 21000000 * 100000000

/-- What holds of the notes of an account: those with an asset have its base, which is not that
    of ZEC, and those without hold money. -/
structure Sane (db : Database H) (account : ℕ) : Prop where
  asset : ∀ n ∈ db.notes.rows, n.account = account → n.idAsset ≠ none →
    (db.assetBaseOfRow n).length = 32 ∧ db.assetBaseOfRow n ≠ zecKey
  value : ∀ n ∈ db.notes.rows, n.account = account → n.idAsset = none → 0 ≤ n.value
  supply : ((db.ownedUnspentZecNotes account).map NoteRow.value).sum ≤ maxMoney

theorem assetBaseOfRow_zec (db : Database H) {n : NoteRow H} (h : n.idAsset = none) :
    db.assetBaseOfRow n = zecKey := by
  unfold assetBaseOfRow
  rw [h, List.find?_eq_none.2 (by simp)]
  rfl

theorem Sane.value_le {db : Database H} {account : ℕ} (h : Sane db account) {n : NoteRow H}
    (hn : n ∈ db.ownedUnspentZecNotes account) : n.value ≤ maxMoney := by
  have hnonneg : ∀ v ∈ (db.ownedUnspentZecNotes account).map NoteRow.value, 0 ≤ v := by
    intro v hv
    obtain ⟨m, hm, rfl⟩ := List.mem_map.1 hv
    obtain ⟨hm, hq⟩ := List.mem_filter.1 hm
    rw [decide_eq_true_eq] at hq
    exact h.value m hm hq.1 hq.2.1
  exact (List.single_le_sum hnonneg _ (List.mem_map_of_mem hn)).trans h.supply

theorem asAsset_of_sane {db : Database H} {account : ℕ} (h : Sane db account) {n : NoteRow H}
    (hn : n ∈ db.notes.rows) (hacc : n.account = account) :
    asAsset (db.assetBaseOfRow n) = zecKey ↔ n.idAsset = none := by
  constructor
  · intro hzec
    by_contra hsome
    obtain ⟨hlen, hne⟩ := h.asset n hn hacc hsome
    rw [asAsset, if_pos hlen] at hzec
    exact hne hzec
  · intro hnone
    rw [assetBaseOfRow_zec db hnone]
    rfl

theorem poolNotes_amounts (zsa : List Bytes) (notes : List InputNote) (pool : ℕ) :
    (poolNotes zsa notes pool).map Solve.Note.amount =
      (notes.filter fun n => (noteAssetIndex zsa n.assetBase).isSome).map InputNote.amount := by
  unfold poolNotes
  rw [List.map_filterMap]
  have hfst : (fun n : InputNote × ℕ =>
      ((noteAssetIndex zsa n.1.assetBase).map fun a =>
        (⟨pool, n.1.amount, n.2, a⟩ : Solve.Note)).map Solve.Note.amount) =
      (fun n : InputNote => if (noteAssetIndex zsa n.assetBase).isSome then some n.amount else none) ∘
        Prod.fst := by
    funext n
    dsimp only [Function.comp_apply]
    cases noteAssetIndex zsa n.1.assetBase <;> rfl
  rw [hfst, ← List.filterMap_map, List.zipIdx_map_fst]
  induction notes with
  | nil => rfl
  | cons n notes ih =>
    rw [List.filterMap_cons, List.filter_cons]
    cases hsome : (noteAssetIndex zsa n.assetBase).isSome
    · simpa using ih
    · simpa using ih

section Candidates
variable {db : Database H} {account pools cutoff : ℕ}

theorem noteAssetIndex_nil (base : Bytes) :
    (noteAssetIndex [] base).isSome = true ↔ asAsset base = zecKey := by
  unfold noteAssetIndex zsaIndex
  split <;> simp_all

theorem isZecBase_zecKey : isZecBase zecKey = true := by decide

theorem asU64_of_nonneg {v : ℤ} (h : 0 ≤ v) (hlt : v < 2 ^ 63) : (asU64 v : ℤ) = v := by
  unfold asU64
  omega

def chosenRows (db : Database H) (account pools cutoff : ℕ) : List (NoteRow H) :=
  (spendableZecNotes db account cutoff).filter fun n => hasPool pools n.pool

def poolCandidates (db : Database H) (account pools cutoff pool : ℕ) : List InputNote :=
  (if hasPool pools pool then ((db.fetchUnspentNotes account).filter fun n => n.pool = pool).filter
    fun n => n.height ≤ cutoff else []).filter
      fun n => !isZecBase n.assetBase || Solve.costPerAction ≤ n.amount

theorem poolCandidates_amounts (h : Sane db account) (pool : ℕ) :
    ((poolCandidates db account pools cutoff pool).filter fun n =>
        (noteAssetIndex [] n.assetBase).isSome).map InputNote.amount =
      ((chosenRows db account pools cutoff).filter fun n => n.pool = pool).map
        fun n => asU64 n.value := by
  unfold poolCandidates chosenRows spendableZecNotes ownedUnspentZecNotes fetchUnspentNotes
    spendableRows
  cases hpool : hasPool pools pool with
  | false =>
    simp only [Bool.false_eq_true, if_false, List.filter_nil, List.map_nil, List.filter_filter]
    rw [eq_comm, List.map_eq_nil_iff, List.filter_eq_nil_iff]
    intro n _ hn
    simp only [Bool.and_eq_true, decide_eq_true_eq] at hn
    rw [hn.1, hpool] at hn
    cases hn.2.1
  | true =>
    simp only [if_true, List.filter_map, List.map_map, List.filter_filter, Function.comp_def]
    have hfun : (fun n => (db.inputNote n).amount) = fun n : NoteRow H => asU64 n.value := rfl
    rw [hfun]
    refine congrArg (List.map _) (List.filter_congr fun n hn => ?_)
    rw [Bool.eq_iff_iff]
    simp only [Bool.and_eq_true, decide_eq_true_eq, availableNote]
    change (noteAssetIndex [] (db.assetBaseOfRow n)).isSome = true ∧
      (!isZecBase (db.assetBaseOfRow n) || decide (Solve.costPerAction ≤ asU64 n.value)) = true ∧
      n.height ≤ cutoff ∧ n.pool = pool ∧ _ ↔ _
    rw [noteAssetIndex_nil]
    constructor
    · rintro ⟨hzec, hdust, hheight, rfl, hacc, hunspent, hlocked, hres⟩
      have hnone := (asAsset_of_sane h hn hacc).1 hzec
      have hval := h.value n hn hacc hnone
      have hle := h.value_le (List.mem_filter.2 ⟨hn, decide_eq_true ⟨hacc, hnone, hunspent⟩⟩)
      have hmoney : maxMoney < 2 ^ 62 := by decide
      have hu64 := asU64_of_nonneg hval (by omega)
      rw [assetBaseOfRow_zec db hnone, isZecBase_zecKey, Bool.not_true, Bool.false_or,
        decide_eq_true_eq] at hdust
      exact ⟨rfl, hpool, ⟨⟨hheight, hlocked, hres⟩, by omega⟩, hacc, hnone, hunspent⟩
    · rintro ⟨rfl, hmask, ⟨⟨hheight, hlocked, hres⟩, hcost⟩, hacc, hnone, hunspent⟩
      have hval := h.value n hn hacc hnone
      have hle := h.value_le (List.mem_filter.2 ⟨hn, decide_eq_true ⟨hacc, hnone, hunspent⟩⟩)
      have hmoney : maxMoney < 2 ^ 62 := by decide
      have hu64 := asU64_of_nonneg hval (by omega)
      refine ⟨(asAsset_of_sane h hn hacc).2 hnone, ?_, hheight, rfl, hacc, hunspent, hlocked, hres⟩
      rw [assetBaseOfRow_zec db hnone, isZecBase_zecKey, Bool.not_true, Bool.false_or,
        decide_eq_true_eq]
      omega

/-- What the planner runs the solver on when ZEC is all that is paid. -/
def plannerCandidates (inputPools : List (List InputNote)) (pools cutoff : ℕ) : List Solve.Note :=
  selectNotesInput [] (dropZecDust (restrictToSourcePools inputPools pools cutoff))

variable {inputPools : List (List InputNote)}

theorem plannerCandidates_eq (hfetch : db.fetchUnspentNotesByPool account = .ok inputPools) :
    plannerCandidates inputPools pools cutoff =
      (List.range numPools).flatMap fun p =>
        poolNotes [] (poolCandidates db account pools cutoff p) p := by
  unfold fetchUnspentNotesByPool at hfetch
  split at hfetch
  · cases hfetch
  · cases hfetch
    rfl

theorem filter_plannerCandidates (hfetch : db.fetchUnspentNotesByPool account = .ok inputPools)
    {p : ℕ} (hp : p < numPools) :
    (plannerCandidates inputPools pools cutoff).filter (fun n => n.pool = p) =
      poolNotes [] (poolCandidates db account pools cutoff p) p := by
  rw [plannerCandidates_eq hfetch, List.filter_flatMap]
  have hone : ∀ q, (poolNotes [] (poolCandidates db account pools cutoff q) q).filter
      (fun n => n.pool = p) = if q = p then
        poolNotes [] (poolCandidates db account pools cutoff p) p else [] := by
    intro q
    by_cases hq : q = p
    · subst hq
      rw [if_pos rfl, List.filter_eq_self]
      exact fun n hn => decide_eq_true (mem_poolNotes hn).1
    · rw [if_neg hq, List.filter_eq_nil_iff]
      intro n hn heq
      exact hq ((mem_poolNotes hn).1.symm.trans (of_decide_eq_true heq))
  simp only [hone]
  have hfour : numPools = 4 := rfl
  obtain rfl | rfl | rfl | rfl : p = 0 ∨ p = 1 ∨ p = 2 ∨ p = 3 := by omega
  all_goals simp [hfour, List.range_succ]

/-! ### Sums by pool -/

theorem asU64_sum {l : List ℤ} (h : ∀ v ∈ l, 0 ≤ v) (hsum : l.sum < 2 ^ 63) :
    asU64 l.sum = (l.map asU64).sum := by
  induction l with
  | nil => rfl
  | cons v l ih =>
    rw [List.forall_mem_cons] at h
    rw [List.sum_cons] at hsum
    have hl : 0 ≤ l.sum := List.sum_nonneg h.2
    have hv := asU64_of_nonneg h.1 (by omega)
    have hrest := asU64_of_nonneg hl (by omega)
    have hall := asU64_of_nonneg (v := v + l.sum) (by omega) (by omega)
    rw [List.map_cons, List.sum_cons, List.sum_cons, ← ih h.2 (by omega)]
    omega

/-- Pools that are not in the list count for nothing. -/
theorem sum_pools (g : ℕ → ℕ) {l : List ℕ} (hl : l.Nodup) (hlt : ∀ p ∈ l, p < numPools)
    (hg : ∀ p < numPools, p ∉ l → g p = 0) : (l.map g).sum = g 0 + g 1 + g 2 + g 3 := by
  have hsub : l.toFinset ⊆ Finset.range numPools := by
    intro p hp
    exact Finset.mem_range.2 (hlt p (List.mem_toFinset.1 hp))
  rw [← List.sum_toFinset g hl, Finset.sum_subset hsub]
  · have hfour : numPools = 4 := rfl
    rw [hfour]
    simp [Finset.sum_range_succ]
  · intro p hp hnot
    exact hg p (Finset.mem_range.1 hp) fun hmem => hnot (List.mem_toFinset.2 hmem)

def chosenCount (db : Database H) (account pools cutoff pool : ℕ) : ℕ :=
  ((chosenRows db account pools cutoff).filter fun n => n.pool = pool).length

def chosenValue (db : Database H) (account pools cutoff pool : ℕ) : ℕ :=
  (((chosenRows db account pools cutoff).filter fun n => n.pool = pool).map
    fun n => asU64 n.value).sum

theorem countP_candidates (h : Sane db account)
    (hfetch : db.fetchUnspentNotesByPool account = .ok inputPools) {p : ℕ} (hp : p < numPools) :
    (plannerCandidates inputPools pools cutoff).countP (fun n => n.pool = p) =
      chosenCount db account pools cutoff p := by
  rw [List.countP_eq_length_filter, filter_plannerCandidates hfetch hp,
    ← List.length_map (f := Solve.Note.amount), poolNotes_amounts, poolCandidates_amounts h,
    List.length_map]
  rfl

theorem mem_chosenRows {n : NoteRow H} (hn : n ∈ chosenRows db account pools cutoff) :
    n ∈ db.ownedUnspentZecNotes account ∧ (Solve.costPerAction : ℤ) ≤ n.value ∧
      n ∈ db.spendableRows account := by
  simp only [chosenRows, spendableZecNotes, ownedUnspentZecNotes, availableNote, spendableRows,
    List.mem_filter, decide_eq_true_eq] at hn ⊢
  exact ⟨⟨hn.1.1.1, hn.1.1.2⟩, hn.1.2.2, hn.1.1.1, hn.1.1.2.1, hn.1.1.2.2.2, hn.1.2.1.2⟩

theorem mem_candidates (h : Sane db account)
    (hfetch : db.fetchUnspentNotesByPool account = .ok inputPools) {x : Solve.Note}
    (hx : x ∈ plannerCandidates inputPools pools cutoff) :
    x.pool < numPools ∧ x.assetIndex = 0 ∧ Solve.costPerAction ≤ x.amount := by
  rw [plannerCandidates_eq hfetch] at hx
  obtain ⟨p, hp, hx⟩ := List.mem_flatMap.1 hx
  obtain ⟨hpool, n, hn, hamount, hasset⟩ := mem_poolNotes hx
  refine ⟨hpool ▸ List.mem_range.1 hp, ?_, ?_⟩
  · unfold noteAssetIndex zsaIndex at hasset
    split at hasset
    · exact (Option.some.inj hasset).symm
    · simp at hasset
  · have hmem : x.amount ∈ (poolNotes [] (poolCandidates db account pools cutoff p) p).map
        Solve.Note.amount := List.mem_map_of_mem hx
    rw [poolNotes_amounts, poolCandidates_amounts h] at hmem
    obtain ⟨row, hrow, hval⟩ := List.mem_map.1 hmem
    obtain ⟨howned, hcost, -⟩ := mem_chosenRows (List.mem_of_mem_filter hrow)
    have hle := h.value_le howned
    have hmoney : maxMoney < 2 ^ 62 := by decide
    have hfive : Solve.costPerAction = 5000 := rfl
    have := asU64_of_nonneg (v := row.value) (by omega) (by omega)
    omega

theorem sum_candidates (h : Sane db account)
    (hfetch : db.fetchUnspentNotesByPool account = .ok inputPools) :
    ((plannerCandidates inputPools pools cutoff).map Solve.Note.amount).sum =
      chosenValue db account pools cutoff 0 + chosenValue db account pools cutoff 1 +
        chosenValue db account pools cutoff 2 + chosenValue db account pools cutoff 3 := by
  have hpool : ∀ p, ((poolNotes [] (poolCandidates db account pools cutoff p) p).map
      Solve.Note.amount).sum = chosenValue db account pools cutoff p := by
    intro p
    rw [poolNotes_amounts, poolCandidates_amounts h]
    rfl
  have hfour : List.range numPools = [0, 1, 2, 3] := rfl
  rw [plannerCandidates_eq hfetch, hfour]
  simp only [List.flatMap_cons, List.flatMap_nil, List.append_nil, List.map_append, List.sum_append,
    hpool]
  omega

theorem chosenRows_nonneg {v : ℤ} {l : List (NoteRow H)}
    (hl : ∀ n ∈ l, n ∈ chosenRows db account pools cutoff) (hv : v ∈ l.map NoteRow.value) :
    0 ≤ v := by
  obtain ⟨n, hn, rfl⟩ := List.mem_map.1 hv
  exact le_trans (by decide) (mem_chosenRows (hl n hn)).2.1

theorem sum_chosenRows_le (h : Sane db account) {l : List (NoteRow H)}
    (hl : l.Sublist (chosenRows db account pools cutoff)) :
    (l.map NoteRow.value).sum ≤ maxMoney := by
  have hsub : l.Sublist (db.ownedUnspentZecNotes account) :=
    hl.trans (List.filter_sublist.trans List.filter_sublist)
  refine le_trans ((hsub.map NoteRow.value).sum_le_sum fun v hv => ?_) h.supply
  obtain ⟨n, hn, rfl⟩ := List.mem_map.1 hv
  obtain ⟨hmem, hq⟩ := List.mem_filter.1 hn
  rw [decide_eq_true_eq] at hq
  exact h.value n hmem hq.1 hq.2.1

theorem sum_candidates_le (h : Sane db account)
    (hfetch : db.fetchUnspentNotesByPool account = .ok inputPools) :
    ((plannerCandidates inputPools pools cutoff).map Solve.Note.amount).sum ≤ maxMoney := by
  have hmoney : maxMoney < 2 ^ 62 := by decide
  have hall : ((chosenRows db account pools cutoff).map NoteRow.value).sum ≤ maxMoney :=
    sum_chosenRows_le h (List.Sublist.refl _)
  rw [sum_candidates h hfetch]
  refine le_trans (Solve.sum_by_pool_le NoteRow.pool (fun n : NoteRow H => asU64 n.value)
    (chosenRows db account pools cutoff)) ?_
  have hu64 := asU64_sum (fun v hv => chosenRows_nonneg (fun n hn => hn) hv)
    (lt_of_le_of_lt hall (by omega))
  have hnat := asU64_of_nonneg (List.sum_nonneg fun v hv => chosenRows_nonneg (fun n hn => hn) hv)
    (lt_of_le_of_lt hall (by omega))
  rw [List.map_map] at hu64
  change asU64 _ = ((chosenRows db account pools cutoff).map fun n => asU64 n.value).sum at hu64
  omega

/-! ### The maximum -/

def chosenActions (db : Database H) (account pools cutoff pool : ℕ) : ℕ :=
  if chosenCount db account pools cutoff pool = 0 then 0
  else groupActions pool (chosenCount db account pools cutoff pool)

def chosenPools (db : Database H) (account pools cutoff : ℕ) : List ℕ :=
  ((spendableZecNotes db account cutoff).map NoteRow.pool).dedup.filter fun p => hasPool pools p

theorem mem_chosenPools {p : ℕ} :
    p ∈ chosenPools db account pools cutoff ↔
      ∃ n ∈ chosenRows db account pools cutoff, n.pool = p := by
  simp only [chosenPools, chosenRows, List.mem_filter, List.mem_dedup, List.mem_map]
  constructor
  · rintro ⟨⟨n, hn, rfl⟩, hp⟩
    exact ⟨n, ⟨hn, hp⟩, rfl⟩
  · rintro ⟨n, ⟨hn, hp⟩, rfl⟩
    exact ⟨⟨n, hn, rfl⟩, hp⟩

theorem pool_lt_of_fetch (hfetch : db.fetchUnspentNotesByPool account = .ok inputPools)
    {n : NoteRow H} (hn : n ∈ db.spendableRows account) : n.pool < numPools := by
  unfold fetchUnspentNotesByPool at hfetch
  split at hfetch
  · cases hfetch
  · rename_i hnone
    have hall := List.find?_eq_none.1 hnone (db.inputNote n) (List.mem_map_of_mem hn)
    rw [decide_eq_true_eq, Nat.not_le] at hall
    exact hall

theorem filter_of_mem_chosenPools {p : ℕ} (hp : p ∈ chosenPools db account pools cutoff) :
    (spendableZecNotes db account cutoff).filter (fun n => n.pool = p) =
      (chosenRows db account pools cutoff).filter fun n => n.pool = p := by
  have hmask : hasPool pools p = true := by
    simpa using (List.mem_filter.1 hp).2
  unfold chosenRows
  rw [List.filter_filter]
  refine List.filter_congr fun n _ => ?_
  by_cases hn : n.pool = p
  · rw [hn, hmask, Bool.and_true]
  · rw [decide_eq_false hn, Bool.false_and]

theorem filter_of_notMem_chosenPools {p : ℕ} (hp : p ∉ chosenPools db account pools cutoff) :
    (chosenRows db account pools cutoff).filter (fun n => n.pool = p) = [] := by
  rw [List.filter_eq_nil_iff]
  intro n hn heq
  exact hp (mem_chosenPools.2 ⟨n, hn, of_decide_eq_true heq⟩)

theorem maxSpendable_eq (h : Sane db account)
    (hfetch : db.fetchUnspentNotesByPool account = .ok inputPools) {confirmations : ℕ}
    (hcut : cutoff = db.confirmedHeight account confirmations) :
    maxSpendableFromPools db account pools confirmations =
      (chosenValue db account pools cutoff 0 + chosenValue db account pools cutoff 1 +
        chosenValue db account pools cutoff 2 + chosenValue db account pools cutoff 3) -
      (chosenActions db account pools cutoff 0 + chosenActions db account pools cutoff 1 +
        chosenActions db account pools cutoff 2 + chosenActions db account pools cutoff 3 + 4) *
        Solve.costPerAction := by
  have hnodup : (chosenPools db account pools cutoff).Nodup := (List.nodup_dedup _).filter _
  have hlt : ∀ p ∈ chosenPools db account pools cutoff, p < numPools := by
    intro p hp
    obtain ⟨n, hn, rfl⟩ := mem_chosenPools.1 hp
    exact pool_lt_of_fetch hfetch (mem_chosenRows hn).2.2
  have hmoney : maxMoney < 2 ^ 62 := by decide
  have hvalue : ∀ p ∈ chosenPools db account pools cutoff, asU64
      (((spendableZecNotes db account cutoff).filter fun n => n.pool = p).map NoteRow.value).sum =
        chosenValue db account pools cutoff p := by
    intro p hp
    rw [filter_of_mem_chosenPools hp, asU64_sum, List.map_map]
    · rfl
    · exact fun v hv => chosenRows_nonneg (fun n hn => List.mem_of_mem_filter hn) hv
    · exact lt_of_le_of_lt (sum_chosenRows_le h List.filter_sublist) (by omega)
  have hactions : ∀ p ∈ chosenPools db account pools cutoff, groupActions p
      ((spendableZecNotes db account cutoff).filter fun n => n.pool = p).length =
        chosenActions db account pools cutoff p := by
    intro p hp
    obtain ⟨n, hn, hpool⟩ := mem_chosenPools.1 hp
    have hpos : 0 < chosenCount db account pools cutoff p :=
      List.length_pos_of_mem (List.mem_filter.2 ⟨hn, decide_eq_true hpool⟩)
    unfold chosenActions
    rw [if_neg (Nat.ne_of_gt hpos), filter_of_mem_chosenPools hp]
    rfl
  unfold maxSpendableFromPools groupByPool
  rw [← hcut]
  simp only [List.filter_map, List.map_map, Function.comp_def]
  change ((chosenPools db account pools cutoff).map fun p => asU64 _).sum - max
    (((chosenPools db account pools cutoff).map fun p => groupActions p _).sum + 4) 2 * _ = _
  rw [List.map_congr_left hvalue, List.map_congr_left hactions, sum_pools _ hnodup hlt,
    sum_pools _ hnodup hlt]
  · rw [max_eq_left (by omega)]
  · intro p _ hp
    unfold chosenActions chosenCount
    rw [filter_of_notMem_chosenPools hp]
    rfl
  · intro p _ hp
    unfold chosenValue
    rw [filter_of_notMem_chosenPools hp]
    rfl

end Candidates

/-! ### The fee of sending it -/

def single (pool amount : ℕ) (migration : Bool) : Solve.Request :=
  ⟨[⟨pool, amount, 0⟩], migration, false, amount⟩

section Fee
variable (pool amount : ℕ) (migration : Bool) (ys : List Solve.Note)

theorem outputCount_single (p : ℕ) :
    (single pool amount migration).outputCount pool p = if p = pool then 2 else 0 := by
  unfold Solve.Request.outputCount single
  by_cases hp : p = pool
  · subst hp
    simp [Solve.clamp, Solve.maxU32]
  · have hne : ¬ pool = p := fun h => hp h.symm
    simp [hp, hne]

theorem inputCount_le (p : ℕ) : Solve.Request.inputCount ys p ≤ ys.countP (fun n => n.pool = p) :=
  Nat.min_le_left _ _

def countActions (ys : List Solve.Note) (p : ℕ) : ℕ :=
  if ys.countP (fun n => n.pool = p) = 0 then 0
  else groupActions p (ys.countP fun n => n.pool = p)

theorem bundleActions_le {p : ℕ} (hp : p ≠ 0) :
    Solve.bundleActions (Solve.Request.inputCount ys p)
      ((single pool amount migration).outputCount pool p) ≤
      countActions ys p + if p = pool then 2 else 0 := by
  have hle := inputCount_le ys p
  rw [outputCount_single]
  unfold Solve.bundleActions countActions groupActions
  rw [if_neg hp]
  split_ifs <;> omega

theorem orchardActions_le :
    (single pool amount migration).orchardActions ys pool ≤
      countActions ys 2 + if 2 = pool then 2 else 0 := by
  have hone : (single pool amount migration).numAssets ≤ 1 := by
    simp [Solve.Request.numAssets, single]
  have hle := inputCount_le ys 2
  have hbundle := bundleActions_le pool amount migration ys (p := 2) (by decide)
  unfold Solve.Request.orchardActions
  rw [if_pos hone]
  split
  · rw [outputCount_single]
    rename_i hpos
    rw [outputCount_single] at hpos
    have hpos := hpos.2
    unfold countActions groupActions
    rw [if_neg (show (2 : ℕ) ≠ 0 by decide)]
    split_ifs at hpos ⊢ <;> omega
  · exact hbundle

/-- Two outputs add at most two actions to those of the inputs. -/
theorem fee_single_le :
    (single pool amount migration).fee ys pool ≤
      (countActions ys 0 + countActions ys 1 + countActions ys 2 + countActions ys 3 + 4) *
        Solve.costPerAction := by
  have h0 : max (Solve.Request.inputCount ys 0) ((single pool amount migration).outputCount pool 0) ≤
      countActions ys 0 + if 0 = pool then 2 else 0 := by
    have hle := inputCount_le ys 0
    rw [outputCount_single]
    unfold countActions groupActions
    split_ifs <;> omega
  have h1 := bundleActions_le pool amount migration ys (p := 1) (by decide)
  have h2 := orchardActions_le pool amount migration ys
  have h3 := bundleActions_le pool amount migration ys (p := 3) (by decide)
  have hone : (if 0 = pool then 2 else 0) + (if 1 = pool then 2 else 0) +
      (if 2 = pool then 2 else 0) + (if 3 = pool then 2 else 0) ≤ 2 := by
    split_ifs <;> omega
  unfold Solve.Request.fee Solve.Request.logicalActions
  exact Nat.mul_le_mul_right _ (by omega)

end Fee

/-! ### The maximum can be sent -/

/-- The solver's own budget; the clock may stop it anywhere. -/
def defaultBudget (expired : ℕ → Bool) : Solve.Budget := ⟨100000, 24, expired⟩

theorem candidates_pay {db : Database H} {account pools confirmations : ℕ}
    {inputPools : List (List InputNote)} (hsane : Sane db account)
    (hfetch : db.fetchUnspentNotesByPool account = .ok inputPools) (pool : ℕ) (migration : Bool)
    (hpos : 0 < maxSpendableFromPools db account pools confirmations) :
    (single pool (maxSpendableFromPools db account pools confirmations) migration).Pays
      (plannerCandidates inputPools pools (db.confirmedHeight account confirmations)) pool := by
  have hmax : maxSpendableFromPools db account pools confirmations = _ :=
    maxSpendable_eq hsane hfetch rfl
  have hactions : ∀ p < numPools, countActions
      (plannerCandidates inputPools pools (db.confirmedHeight account confirmations)) p =
        chosenActions db account pools (db.confirmedHeight account confirmations) p := by
    intro p hp
    unfold countActions chosenActions
    rw [countP_candidates hsane hfetch hp]
  have hfee := fee_single_le pool (maxSpendableFromPools db account pools confirmations) migration
    (plannerCandidates inputPools pools (db.confirmedHeight account confirmations))
  rw [hactions 0 (by decide), hactions 1 (by decide), hactions 2 (by decide),
    hactions 3 (by decide)] at hfee
  have hall : Solve.Request.valueIn
      (plannerCandidates inputPools pools (db.confirmedHeight account confirmations)) 0 =
      ((plannerCandidates inputPools pools (db.confirmedHeight account confirmations)).map
        Solve.Note.amount).sum := by
    unfold Solve.Request.valueIn Solve.valueOf
    rw [List.filter_eq_self.2 fun n hn => decide_eq_true (mem_candidates hsane hfetch hn).2.1]
  have hout : (single pool (maxSpendableFromPools db account pools confirmations)
      migration).valueOut 0 = maxSpendableFromPools db account pools confirmations := by
    simp [Solve.Request.valueOut, Solve.outputValue, single]
  refine ⟨?_, fun h => (by cases h), fun a ha => ?_⟩
  · rw [hall, sum_candidates hsane hfetch]
    unfold Solve.Request.needed
    rw [if_neg (show ¬ (single pool _ migration).recipientPaysFee = true from Bool.false_ne_true),
      hout]
    omega
  · have hnone : (single pool (maxSpendableFromPools db account pools confirmations)
        migration).valueOut a = 0 := by
      simp [Solve.Request.valueOut, Solve.outputValue, single, Ne.symm ha]
    rw [hnone]
    exact Nat.zero_le _

/-- Whatever is advertised is found a selection for, with no shortfall. -/
theorem max_spendable (db : Database H) (account pools confirmations pool : ℕ) (migration : Bool)
    (expired : ℕ → Bool) (inputPools : List (List InputNote)) (hsane : Sane db account)
    (hfetch : db.fetchUnspentNotesByPool account = .ok inputPools) (hpool : pool < numPools)
    (hpos : 0 < maxSpendableFromPools db account pools confirmations) :
    ∃ sel, Solve.selectNotes
        (plannerCandidates inputPools pools (db.confirmedHeight account confirmations))
        [⟨pool, maxSpendableFromPools db account pools confirmations, 0⟩] Solve.costPerAction
        migration false (maxSpendableFromPools db account pools confirmations)
        (defaultBudget expired) = .ok (some sel) ∧
      maxSpendableFromPools db account pools confirmations + sel.fee ≤
        (sel.inputs.map Solve.Note.amount).sum := by
  have hpays := candidates_pay hsane hfetch pool migration hpos
  have hmoney : maxMoney < 2 ^ 62 := by decide
  have htotal : ((plannerCandidates inputPools pools
      (db.confirmedHeight account confirmations)).map Solve.Note.amount).sum ≤ maxMoney :=
    sum_candidates_le hsane hfetch
  have hone : (single pool (maxSpendableFromPools db account pools confirmations)
      migration).numAssets = 1 := by
    simp [Solve.Request.numAssets, single]
  have hneeded : ∀ xs cp, (single pool (maxSpendableFromPools db account pools confirmations)
      migration).needed xs cp = maxSpendableFromPools db account pools confirmations +
        (single pool (maxSpendableFromPools db account pools confirmations) migration).fee xs cp := by
    intro xs cp
    simp [Solve.Request.needed, Solve.Request.valueOut, Solve.outputValue, single]
  have hzec := hpays.zec.trans (Solve.valueOf_le _ _)
  rw [hneeded] at hzec
  have hcand : (plannerCandidates inputPools pools (db.confirmedHeight account confirmations)).filter
      (Solve.isCandidate Solve.costPerAction) =
        plannerCandidates inputPools pools (db.confirmedHeight account confirmations) :=
    List.filter_eq_self.2 fun n hn => decide_eq_true (Or.inr (mem_candidates hsane hfetch hn).2.2)
  have hspec : Meets (fun _ => False) (Solve.Answers (single pool
      (maxSpendableFromPools db account pools confirmations) migration)
      (plannerCandidates inputPools pools (db.confirmedHeight account confirmations)))
      (Solve.selectNotes
        (plannerCandidates inputPools pools (db.confirmedHeight account confirmations))
        [⟨pool, maxSpendableFromPools db account pools confirmations, 0⟩] Solve.costPerAction
        migration false (maxSpendableFromPools db account pools confirmations)
        (defaultBudget expired)) := by
    refine Solve.selectNotes_spec (single pool
      (maxSpendableFromPools db account pools confirmations) migration) (by omega) ?_
      (show 100000 < 2 ^ 62 by decide)
      (Or.inr (by rw [hone]; decide)) fun n hn => Or.inr ?_
    · simp only [single, List.map_cons, List.map_nil, List.sum_singleton]
      omega
    · obtain ⟨hlt, hasset, -⟩ := mem_candidates hsane hfetch hn
      exact ⟨hlt, by rw [hone, hasset]; decide⟩
  obtain ⟨found, hfound, hans⟩ := hspec.returns
  cases found with
  | none =>
    refine absurd hpays (hans _ ?_ ?_ pool hpool)
    · rw [hcand]
    · intro hnil
      rw [hnil, List.map_nil, List.sum_nil] at hzec
      omega
  | some sel =>
    refine ⟨sel, hfound, ?_⟩
    have hpaid := hans.1.pays.zec.trans (Solve.valueOf_le _ _)
    rw [hneeded] at hpaid
    rw [hans.1.fee]
    exact hpaid

def twoNotes : Database ℕ :=
  { Database.empty with
    notes := ⟨[
      { idNote := 1, height := 10, account := 1, pool := 2, scope := some 0,
        nullifier := .shielded 7, tx := 1, value := 100000, cmx := none, taddress := none,
        position := none, diversifier := none, rcm := none, rho := none, idAsset := none,
        diversifierIndex := none },
      { idNote := 2, height := 10, account := 1, pool := 1, scope := some 0,
        nullifier := .shielded 8, tx := 1, value := 400, cmx := none, taddress := none,
        position := none, diversifier := none, rcm := none, rho := none, idAsset := none,
        diversifierIndex := none }], by decide⟩
    syncHeights := ⟨[⟨1, 2, 90⟩], List.pairwise_singleton _ _⟩ }

theorem twoNotes_sane : Sane twoNotes 1 where
  asset n hn _ hsome := by
    simp only [twoNotes, List.mem_cons, List.not_mem_nil, or_false] at hn
    rcases hn with rfl | rfl <;> exact absurd rfl hsome
  value n hn _ _ := by
    simp only [twoNotes, List.mem_cons, List.not_mem_nil, or_false] at hn
    rcases hn with rfl | rfl <;> decide
  supply := by decide

theorem twoNotes_max_spendable :
    maxSpendableFromPools twoNotes 1 15 3 = 70000 ∧ ∃ inputPools sel,
      twoNotes.fetchUnspentNotesByPool 1 = .ok inputPools ∧
      Solve.selectNotes (plannerCandidates inputPools 15 (twoNotes.confirmedHeight 1 3))
        [⟨1, 70000, 0⟩] Solve.costPerAction false false 70000 (defaultBudget fun _ => false) =
          .ok (some sel) ∧ 70000 + sel.fee ≤ (sel.inputs.map Solve.Note.amount).sum := by
  have hmax : maxSpendableFromPools twoNotes 1 15 3 = 70000 := by decide
  have hfetch : ∃ inputPools, twoNotes.fetchUnspentNotesByPool 1 = .ok inputPools := ⟨_, rfl⟩
  obtain ⟨inputPools, hfetch⟩ := hfetch
  have hsel := max_spendable twoNotes 1 15 3 1 false (fun _ => false) inputPools twoNotes_sane
    hfetch (by decide) (by rw [hmax]; decide)
  rw [hmax] at hsel
  obtain ⟨sel, hok, hle⟩ := hsel
  exact ⟨hmax, inputPools, sel, hfetch, hok, hle⟩

end ZcashSdk.Pay
