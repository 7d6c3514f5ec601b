import ZcashSdk.Pay.Tracking

set_option autoImplicit false

/-!
# The search

Whatever the search takes for its incumbent pays, and costs no more than the baseline it
started from, for every budget and wherever it is cut off.
-/
namespace ZcashSdk.Pay.Solve
open Db Loops Outcomes Places

variable {r : Request} {ctx : Context} {s : State} {xs : List Note} {allowed : Fault → Prop}

/-! ### Bounds and scores -/

theorem mem_remainingNotes {i : ℕ} {n : Note} :
    (i, n) ∈ remainingNotes ctx s ↔ ctx.notes[i]? = some n ∧ i ∉ s.selected := by
  simp only [remainingNotes, List.mem_map, List.mem_filter, decide_eq_true_eq, Prod.mk.injEq]
  constructor
  · rintro ⟨⟨m, j⟩, ⟨hmem, hj⟩, rfl, rfl⟩
    exact ⟨List.mem_zipIdx_iff_getElem?.1 hmem, hj⟩
  · rintro ⟨hget, hi⟩
    exact ⟨(n, i), ⟨List.mem_zipIdx_iff_getElem?.2 hget, hi⟩, rfl, rfl⟩

theorem remainingNotes_sublist : ((remainingNotes ctx s).map Prod.snd).Sublist ctx.notes := by
  have hfst : (remainingNotes ctx s).map Prod.snd =
      (ctx.notes.zipIdx.filter fun n => n.2 ∉ s.selected).map Prod.fst := by
    simp [remainingNotes, Function.comp_def]
  rw [hfst]
  have hsub := (List.filter_sublist (p := fun n : Note × ℕ => n.2 ∉ s.selected)
    (l := ctx.notes.zipIdx)).map Prod.fst
  rwa [List.zipIdx_map_fst] at hsub

def unselected (ctx : Context) (s : State) (p : ℕ) : ℕ :=
  valueOf (·.pool = p) ((remainingNotes ctx s).map Prod.snd)

theorem remainingByPool_spec (hc : Serves r ctx) (hidx : Indexed allowed ctx) (s : State) :
    Meets allowed (fun sums : ℕ → ℕ => ∀ p, sums p = unselected ctx s p) (remainingByPool ctx s) := by
  unfold remainingByPool
  refine meets_foldlM (fun done (sums : ℕ → ℕ) => ∀ p, sums p = valueOf (·.pool = p) (done.map Prod.snd))
    (fun done n rest sums hl hinv => ?_) fun _ => rfl
  have hmem : n ∈ remainingNotes ctx s := hl ▸ List.mem_append_right _ (List.mem_cons_self ..)
  have hnote := List.mem_of_getElem? (mem_remainingNotes.1 (show (n.1, n.2) ∈ _ from hmem)).1
  refine (meets_index ((hidx n.2 hnote).imp_right And.left)).bind fun _ _ => ?_
  have hinit : (done ++ [n]).Sublist (remainingNotes ctx s) := by
    rw [← hl]
    exact ((List.nil_sublist rest).cons_cons n).append_left done
  have htotal : (((done ++ [n]).map Prod.snd).map Note.amount).sum < 2 ^ 62 :=
    (sum_le_of_subperm ((hinit.map _).trans remainingNotes_sublist).subperm).trans_lt hc.inTotal
  have hsum : valueOf (·.pool = n.2.pool) ((done ++ [n]).map Prod.snd) < 2 ^ 64 :=
    ((valueOf_le _ _).trans_lt htotal).trans (by decide)
  have hsnoc : ∀ p, valueOf (·.pool = p) ((done ++ [n]).map Prod.snd) =
      valueOf (·.pool = p) (done.map Prod.snd) + if n.2.pool = p then n.2.amount else 0 := by
    intro p
    rw [List.map_append, valueOf_append, List.map_singleton, valueOf_singleton]
    simp only [decide_eq_true_eq]
  rw [hsnoc, if_pos rfl] at hsum
  rw [hinv, u64_ok hsum, ok_bind]
  intro p
  rw [hsnoc]
  by_cases hp : p = n.2.pool
  · subst hp
    rw [Function.update_self, if_pos rfl]
  · rw [Function.update_of_ne hp, hinv, if_neg (Ne.symm hp), Nat.add_zero]

theorem natAbs_balance_le (h : Tracks r ctx s xs) {p : ℕ} (hp : 1 ≤ p) (hp' : p < numPools) :
    (s.balance p).natAbs ≤ valueOf (·.pool = p) xs + outputValue (·.pool = p) r.outputs := by
  rw [h.balance p hp hp']
  omega

/-- The bound, from the notes that are selected and those that are left. -/
theorem lowerBound_spec (hc : Serves r ctx) (hidx : Indexed allowed ctx) (h : Tracks r ctx s xs) :
    Meets allowed (fun bound => bound = s.tin + s.tout +
      ([1, 2, 3].map fun p => (s.balance p).natAbs - unselected ctx s p).sum) (lowerBound ctx s) := by
  have hin := h.total hc
  have hout := hc.outTotal
  have hpools := sum_pools_le xs
  have houts := sum_output_pools_le r.outputs
  have h1 := natAbs_balance_le h (p := 1) (by decide) (by decide)
  have h2 := natAbs_balance_le h (p := 2) (by decide) (by decide)
  have h3 := natAbs_balance_le h (p := 3) (by decide) (by decide)
  unfold lowerBound
  rw [u64_ok (by rw [h.tin, h.tout]; omega), ok_bind]
  refine (remainingByPool_spec hc hidx s).bind fun rest hrest => ?_
  have hsum : s.tin + s.tout + ([1, 2, 3].map fun p => (s.balance p).natAbs - rest p).sum <
      2 ^ 64 := by
    simp only [List.map_cons, List.map_nil, List.sum_cons, List.sum_nil]
    rw [h.tin, h.tout]
    omega
  rw [foldlM_u64 (fun p => (s.balance p).natAbs - rest p) [1, 2, 3] _ hsum, funext hrest]
  rfl

theorem localScore_spec (hc : Serves r ctx) (hidx : Indexed allowed ctx) (h : Tracks r ctx s xs)
    {n : ℕ × Note} (hn : n ∈ remainingNotes ctx s) :
    Meets allowed (fun _ => True) (localScore n.2 s) := by
  obtain ⟨hget, hi⟩ := mem_remainingNotes.1 (show (n.1, n.2) ∈ _ from hn)
  obtain ⟨-, -, htotal⟩ := h.room hc hget hi
  have hin := (valueOf_le (·.pool = n.2.pool) (xs ++ [n.2])).trans_lt htotal
  rw [valueOf_append, valueOf_singleton, if_pos (decide_eq_true rfl)] at hin
  have hout := (outputValue_le (·.pool = n.2.pool) r.outputs).trans_lt hc.outTotal
  unfold localScore
  refine (meets_index ((hidx n.2 (List.mem_of_getElem? hget)).imp_right And.left)).bind
    fun _ hp => ?_
  have hbal : -2 ^ 62 < s.balance n.2.pool ∧ s.balance n.2.pool + n.2.amount < 2 ^ 62 := by
    by_cases hzero : n.2.pool = 0
    · rw [hzero, h.transparent]
      rw [hzero] at hout
      omega
    · rw [h.balance _ (Nat.pos_of_ne_zero hzero) hp]
      omega
  obtain ⟨hlo, hhi⟩ := hbal
  dsimp only
  have hdiv : (n.2.amount : ℤ).tdiv 1000 = n.2.amount / 1000 :=
    Int.tdiv_eq_ediv_of_nonneg (Int.natCast_nonneg _)
  rw [asI64_of_lt (show n.2.amount < 2 ^ 63 by omega), i64_ok (by omega) (by omega), ok_bind,
    asI64_of_lt (by omega), asI64_of_lt (by omega), i64_ok (by omega) (by omega), ok_bind, hdiv,
    i64_ok (by omega) (by omega)]
  trivial

theorem topK_spec (hc : Serves r ctx) (hidx : Indexed allowed ctx) (h : Tracks r ctx s xs) (k : ℕ) :
    Meets allowed (fun cs => ∀ c ∈ cs, c ∈ remainingNotes ctx s)
      (topKByLocalHeuristic (remainingNotes ctx s) s k) := by
  unfold topKByLocalHeuristic
  split
  · exact fun c hc => hc
  · have hscored : Meets allowed (fun ys => ∀ y ∈ ys, ∃ n ∈ remainingNotes ctx s, n = y.2)
        ((remainingNotes ctx s).mapM fun n => (localScore n.2 s).map fun score => (score, n)) :=
      meets_mapM fun n hn => (localScore_spec hc hidx h hn).map fun _ _ => rfl
    refine hscored.bind fun scored hall => ?_
    intro c hmem
    obtain ⟨y, hy, rfl⟩ := List.mem_map.1 hmem
    obtain ⟨n, hn, rfl⟩ := hall y ((List.mem_insertionSort _).1 (List.mem_of_mem_take hy))
    exact hn

/-! ### The frontier -/

def Queued (r : Request) (ctx : Context) (heap : List QueueItem) : Prop :=
  ∀ q ∈ heap, ∃ xs, Tracks r ctx q.state xs

theorem popMin_mem {heap rest : List QueueItem} {q : QueueItem} (h : popMin heap = some (q, rest)) :
    q ∈ heap ∧ ∀ p ∈ rest, p ∈ heap := by
  induction heap generalizing q rest with
  | nil => cases h
  | cons x heap ih =>
    unfold popMin at h
    split at h
    · cases h
      exact ⟨List.mem_cons_self .., fun p hp => by cases hp⟩
    · rename_i least others hpop
      obtain ⟨hleast, hothers⟩ := ih hpop
      split at h
      · cases h
        exact ⟨List.mem_cons_self .., fun p hp => List.mem_cons_of_mem _ hp⟩
      · cases h
        refine ⟨List.mem_cons_of_mem _ hleast, fun p hp => ?_⟩
        rcases List.mem_cons.1 hp with rfl | hp
        · exact List.mem_cons_self ..
        · exact List.mem_cons_of_mem _ (hothers p hp)

theorem pushChild_spec (hc : Serves r ctx) (hidx : Indexed allowed ctx) (h : Tracks r ctx s xs)
    {bestCost : ℕ} {f : Frontier} {n : ℕ × Note} (hn : n ∈ remainingNotes ctx s)
    (hf : Queued r ctx f.heap) :
    Meets allowed (fun g => Queued r ctx g.heap) (pushChild ctx s bestCost f n) := by
  obtain ⟨hget, hi⟩ := mem_remainingNotes.1 (show (n.1, n.2) ∈ _ from hn)
  unfold pushChild
  refine (apply_spec hc hidx h hget hi).bind fun child hchild => ?_
  refine (lowerBound_spec hc hidx hchild.1).bind fun bound _ => ?_
  split
  · exact hf
  · dsimp only
    split
    · exact hf
    · intro q hq
      rcases List.mem_append.1 hq with hq | hq
      · exact hf q hq
      · rw [List.mem_singleton.1 hq]
        exact ⟨_, hchild.1⟩

theorem expand_spec (hc : Serves r ctx) (hidx : Indexed allowed ctx) (h : Tracks r ctx s xs)
    {beamWidth bestCost : ℕ} {f : Frontier} (hf : Queued r ctx f.heap) :
    Meets allowed (fun g => Queued r ctx g.heap) (expand ctx beamWidth s bestCost f) := by
  unfold expand
  dsimp only
  split
  · exact hf
  · split
    · exact hf
    · refine (topK_spec hc hidx h beamWidth).bind fun cs hcs => ?_
      refine meets_foldlM (fun _ (g : Frontier) => Queued r ctx g.heap) (fun done n rest g hl hg => ?_) hf
      have hn : n ∈ cs := hl ▸ List.mem_append_right _ (List.mem_cons_self ..)
      exact pushChild_spec hc hidx h (hcs n hn) hg

/-! ### The incumbent -/

structure Sound (r : Request) (ctx : Context) (b : Incumbent) (xs : List Note) : Prop where
  tracks : Tracks r ctx b.state xs
  pool : b.pool < numPools
  pays : r.Pays xs b.pool
  cost : b.cost = r.turnstile xs b.pool
  fee : b.fee = r.fee xs b.pool

def NoWorse (b c : Incumbent) : Prop := toLex (b.cost, b.fee) ≤ toLex (c.cost, c.fee)

def Improves (r : Request) (ctx : Context) (b c : Incumbent) : Prop :=
  (∃ xs, Sound r ctx b xs) ∧ NoWorse b c

theorem sound_of_evaluated (h : Tracks r ctx s xs) {b : Best}
    (hev : Evaluated r xs (List.range numPools) b) (hreal : b.cost ≠ maxU64) :
    Sound r ctx ⟨s, b.cost, r.fee xs b.pool, b.pool⟩ xs := by
  cases hev with
  | none cost never => exact absurd cost hreal
  | some mem pays cost real => exact ⟨h, List.mem_range.1 mem, pays, cost, rfl⟩

theorem challenge_spec (hc : Serves r ctx) (h : Tracks r ctx s xs) {best : Incumbent}
    (hbest : ∃ ys, Sound r ctx best ys) :
    ∃ b, challenge ctx s best = .ok b ∧ Improves r ctx b best := by
  obtain ⟨b, hb, hev⟩ := evaluate_spec hc h
  unfold challenge
  rw [hb, ok_bind]
  dsimp only
  rw [feeForChangePool_eq hc h, ok_bind]
  refine ⟨_, rfl, ?_⟩
  split
  · rename_i hbetter
    refine ⟨⟨xs, sound_of_evaluated h hev hbetter.1⟩, le_of_lt ?_⟩
    have hlt := hbetter.2
    rw [isBetterSolution, decide_eq_true_eq] at hlt
    exact Prod.Lex.toLex_lt_toLex.2 hlt
  · exact ⟨hbest, le_refl _⟩

/-- The search improves on its incumbent wherever it is left. -/
theorem search_spec (hc : Serves r ctx) (hidx : Indexed allowed ctx) {budget : Budget}
    {fuel nodes : ℕ} {f : Frontier} {best : Incumbent} (hnodes : nodes + fuel < 2 ^ 64)
    (hf : Queued r ctx f.heap) (hbest : ∃ ys, Sound r ctx best ys) :
    Meets allowed (fun b => Improves r ctx b best) (search ctx budget fuel nodes f best) := by
  induction fuel generalizing nodes f best with
  | zero => exact ⟨hbest, le_refl _⟩
  | succ fuel ih =>
    unfold search
    split
    · exact ⟨hbest, le_refl _⟩
    · rename_i item heap hpop
      obtain ⟨hitem, hheap⟩ := popMin_mem hpop
      have hrest : Queued r ctx heap := fun q hq => hf q (hheap q hq)
      rw [u64_ok (by omega), ok_bind]
      split
      · exact ⟨hbest, le_refl _⟩
      · split
        · exact ih (by omega) hrest hbest
        · obtain ⟨xs, h⟩ := hf item hitem
          obtain ⟨b, hb, hsound, hle⟩ := challenge_spec hc h hbest
          rw [hb, ok_bind]
          refine (expand_spec hc hidx h hrest).bind fun g hg => ?_
          refine (ih (by omega) hg hsound).mono fun c hcb => ?_
          exact ⟨hcb.1, le_trans hcb.2 hle⟩

theorem improve_spec (hc : Serves r ctx) (hidx : Indexed allowed ctx) {budget : Budget}
    (hbudget : budget.maxNodes < 2 ^ 62) {best : Incumbent} (hbest : ∃ ys, Sound r ctx best ys) :
    Meets allowed (fun b => Improves r ctx b best) (improve ctx budget best) := by
  obtain ⟨start, hstart, h⟩ := initialState_spec hc
  unfold improve
  rw [hstart, ok_bind]
  refine (lowerBound_spec hc hidx h).bind fun bound _ => ?_
  refine search_spec hc hidx (by omega) ?_ hbest
  dsimp only
  split
  · exact fun q hq => by cases hq
  · intro q hq
    rw [List.mem_singleton.1 hq]
    exact ⟨[], h⟩

end ZcashSdk.Pay.Solve
