import ZcashSdk.Discovery.IndexWalk

set_option autoImplicit false

/-!
# Discovery does not depend on concurrency

A round of the loop is so many steps of the walk that goes index by index, whatever its
width and in whatever order its requests complete. So the loop comes to the same end for
every width, up to a derivation that fails while a batch is planned ahead.
-/
namespace ZcashSdk.Discovery
open Tables Shielded Db Database

variable {H : Type} [DecidableEq H]

section Rounds
variable {env : Env} {a : DiscoveryArgs} {scope : ℕ} {storedThrough : Option ℕ}
  {s t u : WalkState H} {o : Outcome (WalkState H) H} {n m : ℕ}

/-! ### Plans -/

/-- The entries are the plans of consecutive indexes. -/
def Planned (env : Env) (a : DiscoveryArgs) (scope : ℕ) (db : Database H) :
    ℕ → List BatchEntry → Prop
  | _, [] => True
  | i, e :: es => planEntry env a scope db i = .ok e ∧ Planned env a scope db (i + 1) es

theorem planBatch_ok {db : Database H} {limit slots i : ℕ} {batch : List BatchEntry}
    (h : planBatch env a scope db limit slots i = .ok batch) :
    Planned env a scope db i batch ∧ batch.length ≤ limit ∧
      (0 < limit → 0 < slots → 0 < batch.length) := by
  induction limit generalizing slots i batch with
  | zero =>
    cases h
    exact ⟨trivial, le_refl _, fun h _ => h⟩
  | succ limit ih =>
    cases slots with
    | zero =>
      cases h
      exact ⟨trivial, Nat.zero_le _, fun _ h => h⟩
    | succ slots =>
      unfold planBatch at h
      split at h
      · cases h
      · rename_i e he
        obtain ⟨es, hes, rfl⟩ := Loops.map_eq_ok.1 h
        obtain ⟨hplanned, hle, -⟩ := ih hes
        exact ⟨⟨he, hplanned⟩, Nat.succ_le_succ hle, fun _ _ => Nat.succ_pos _⟩

theorem planBatch_error {db : Database H} {limit slots i : ℕ} {f : Failure}
    (h : planBatch env a scope db limit slots i = .error f) :
    ∃ p < limit, planEntry env a scope db (i + p) = .error f ∧
      ∀ q < p, ∃ e, planEntry env a scope db (i + q) = .ok e := by
  induction limit generalizing slots i with
  | zero => cases h
  | succ limit ih =>
    cases slots with
    | zero => cases h
    | succ slots =>
      unfold planBatch at h
      split at h
      · rename_i g hg
        cases h
        exact ⟨0, Nat.succ_pos _, hg, fun q hq => absurd hq (Nat.not_lt_zero q)⟩
      · rename_i e he
        obtain ⟨p, hp, hfail, hbefore⟩ := ih (Loops.map_eq_error.1 h)
        refine ⟨p + 1, Nat.succ_lt_succ hp, ?_, fun q hq => ?_⟩
        · rwa [show i + (p + 1) = i + 1 + p by omega]
        · cases q with
          | zero => exact ⟨e, he⟩
          | succ q =>
            rw [show i + (q + 1) = i + 1 + q by omega]
            exact hbefore q (by omega)

theorem candidateStart_error {db : Database H} {i j : ℕ} {x y : Bytes} {f : Failure}
    (h : candidateStart a db scope i x = .error f) : candidateStart a db scope j y = .error f := by
  unfold candidateStart at h ⊢
  split at h
  · rename_i hid
    rw [if_pos hid]
    exact h
  · rename_i hid
    rw [if_neg hid]
    split at h
    · exact h
    · split at h
      · dsimp only at h
        split at h <;> cases h
      · cases h

/-- A plan fails as its first index does, or for want of an address further on. -/
theorem planBatch_fails {db : Database H} {limit slots i : ℕ} {f : Failure}
    (h : planBatch env a scope db limit slots i = .error f) :
    planEntry env a scope db i = .error f ∨
      f = .derivation ∧ ∃ p < limit, env.derive scope (i + p) = none := by
  obtain ⟨p, hp, hfail, hbefore⟩ := planBatch_error h
  cases p with
  | zero => exact Or.inl hfail
  | succ p =>
    right
    unfold planEntry at hfail
    split at hfail
    · rename_i hnone
      cases hfail
      exact ⟨rfl, p + 1, hp, hnone⟩
    · rename_i x hx
      -- the first index was planned, so the account is there
      obtain ⟨e, he⟩ := hbefore 0 (Nat.succ_pos p)
      obtain ⟨y, -, -, start, hstart, -⟩ := planEntry_ok he
      cases hcand : candidateStart a db scope (i + (p + 1)) x with
      | error g =>
        rw [candidateStart_error hcand] at hstart
        cases hstart
      | ok st =>
        rw [hcand] at hfail
        cases hfail

theorem planEntry_kept {w : Bytes} (hw : Walking env a s) (ht : Walking env a t)
    (hstep : Stepped a (walkArgs a scope s.dindex w) s t) {i : ℕ} (hi : i ≠ s.dindex) :
    planEntry env a scope t.db i = planEntry env a scope s.db i := by
  unfold planEntry
  cases htaddr : env.derive scope i with
  | none => rfl
  | some taddr =>
    have hkept := candidateStart_kept a rfl hw.derived ht.derived hstep.untouched hi htaddr
    change candidateStart a t.db scope i taddr = _ at hkept
    simp only [hkept]
    rfl

theorem Planned.kept {w : Bytes} (hw : Walking env a s) (ht : Walking env a t)
    (hstep : Stepped a (walkArgs a scope s.dindex w) s t) {i : ℕ} (hi : s.dindex < i)
    {batch : List BatchEntry} (h : Planned env a scope s.db i batch) :
    Planned env a scope t.db i batch := by
  induction batch generalizing i with
  | nil => trivial
  | cons e es ih =>
    exact ⟨(planEntry_kept hw ht hstep (Nat.ne_of_gt hi)).trans h.1, ih (Nat.lt_succ_of_lt hi) h.2⟩

/-! ### Replies that were asked for ahead -/

def Faithful (env : Env) (a : DiscoveryArgs) (db : Database H) (batch : List BatchEntry)
    (slot : ℕ) (prefetched : Prefetched) : Prop :=
  ∀ p e f, batch[p]? = some e → prefetched (slot + p) = some (.ok f) →
    ∃ c, e.candidate = some c ∧ c.lo ≤ a.endHeight ∧ ∃ seam,
      db.accountSeam a.account = some seam ∧
        fetchWindow env c.taddr c.lo a.endHeight seam = .ok f

theorem joinAll_some {targets : List (ℕ × Candidate)} {seam slot : ℕ}
    {r : Except BackfillError Fetched} (h : joinAll env a targets seam slot = some r) :
    ∃ c, (slot, c) ∈ targets ∧ r = fetchWindow env c.taddr c.lo a.endHeight seam := by
  -- the slots filled before stay, or are filled again
  have hfold : ∀ (ts : List (ℕ × Candidate)) (results : Prefetched),
      ts.foldl (fun (results : Prefetched) t => Function.update results t.1
        (some (fetchWindow env t.2.taddr t.2.lo a.endHeight seam))) results slot = some r →
      results slot = some r ∨
        ∃ c, (slot, c) ∈ ts ∧ r = fetchWindow env c.taddr c.lo a.endHeight seam := by
    intro ts
    induction ts with
    | nil => exact fun results h => Or.inl h
    | cons x ts ih =>
      intro results h
      rcases ih _ h with h | ⟨c, hc, hr⟩
      · dsimp only at h
        by_cases hx : slot = x.1
        · subst hx
          rw [Function.update_self, Option.some.injEq] at h
          exact Or.inr ⟨x.2, List.mem_cons_self .., h.symm⟩
        · rw [Function.update_of_ne hx] at h
          exact Or.inl h
      · exact Or.inr ⟨c, List.mem_cons_of_mem x hc, hr⟩
  rcases hfold targets _ h with h | h
  · cases h
  · exact h

theorem mem_targetsOf {batch : List BatchEntry} {slot : ℕ} {c : Candidate}
    (h : (slot, c) ∈ targetsOf a batch) :
    ∃ e, batch[slot]? = some e ∧ e.candidate = some c ∧ c.lo ≤ a.endHeight := by
  obtain ⟨⟨e, k⟩, hmem, hsome⟩ := List.mem_filterMap.1 h
  obtain ⟨c', hc', hasks⟩ := Option.bind_eq_some_iff.1 hsome
  split_ifs at hasks with hlo
  cases hasks
  exact ⟨e, List.mem_zipIdx_iff_getElem?.1 hmem, hc', of_decide_eq_true hlo⟩

theorem faithful_joinAll {db : Database H} {batch : List BatchEntry} {seam : ℕ}
    {order : List (ℕ × Candidate) → List (ℕ × Candidate)}
    (horder : (order (targetsOf a batch)).Perm (targetsOf a batch))
    (hseam : db.accountSeam a.account = some seam) :
    Faithful env a db batch 0 (joinAll env a (order (targetsOf a batch)) seam) := by
  intro p e f he hf
  rw [Nat.zero_add] at hf
  obtain ⟨c, hmem, hr⟩ := joinAll_some hf
  obtain ⟨e', he', hc, hlo⟩ := mem_targetsOf (horder.subset hmem)
  rw [he] at he'
  cases he'
  exact ⟨c, hc, hlo, seam, hseam, hr.symm⟩

theorem ingestEntry_first {e : BatchEntry} {f : Fetched}
    (h : ∃ c, e.candidate = some c ∧ c.lo ≤ a.endHeight ∧ ∃ seam,
      s.db.accountSeam a.account = some seam ∧
        fetchWindow env c.taddr c.lo a.endHeight seam = .ok f) :
    ingestEntry env a scope s e (some f) = ingestEntry env a scope s e none := by
  obtain ⟨c, hc, hlo, seam, hseam, hf⟩ := h
  have hwalk : walkCandidate env (walkArgs a scope e.dindex c.taddr) a.identity c.existing c.lo
      a.endHeight (some f) s.db = walkCandidate env (walkArgs a scope e.dindex c.taddr) a.identity
        c.existing c.lo a.endHeight none s.db := walkCandidate_first hlo hseam hf
  unfold ingestEntry
  simp only [hc, hwalk]

/-! ### Rounds -/

theorem replyOf_eq_some {r : Option (Except BackfillError Fetched)} {f : Fetched} :
    replyOf r = some f ↔ r = some (.ok f) := by
  rcases r with _ | _ | g <;> simp [replyOf]

theorem ingestBatch_spec (hlaw : env.Lawful) {batch : List BatchEntry} {slot : ℕ} (width : ℕ)
    {prefetched : Prefetched} (hs : Walking env a s)
    (hplan : Planned env a scope s.db s.dindex batch)
    (hpre : Faithful env a s.db batch slot prefetched)
    (hlen : batch.length ≤ certain a storedThrough s.gap s.dindex) :
    (∀ t w d, ingestBatch env a scope batch slot width prefetched s = (.ok (t, w), d) →
      IndexSteps env a scope storedThrough batch.length s t ∧ Walking env a t ∧ d = t.db ∧
        (1 ≤ width → 1 ≤ w)) ∧
    ∀ f d, ingestBatch env a scope batch slot width prefetched s = (.error f, d) →
      ∃ n t, IndexSteps env a scope storedThrough n s t ∧
        Ends env a scope storedThrough t (.error f, d) := by
  induction batch generalizing slot width prefetched s with
  | nil =>
    refine ⟨fun t w d h => ?_, fun f d h => ?_⟩
    · cases h
      exact ⟨.refl s, hs, rfl, id⟩
    · cases h
  | cons e es ih =>
    obtain ⟨he, hes⟩ := hplan
    have hgo : continues a storedThrough s.gap s.dindex = true :=
      continues_of_certain (lt_of_lt_of_le (Nat.succ_pos _) hlen)
    -- the first entry is the next index of the walk, with its reply there or not
    have hfirst : ∀ first : Option Fetched, (∀ f, first = some f → prefetched slot = some (.ok f)) →
        ingestEntry env a scope s e first = walkIndex env a scope s := by
      intro first hf
      have hindex : walkIndex env a scope s = ingestEntry env a scope s e none := by
        unfold walkIndex
        rw [he]
      cases first with
      | none => exact hindex.symm
      | some f =>
        rw [hindex]
        exact ingestEntry_first (hpre 0 e f rfl (hf f rfl))
    unfold ingestBatch
    dsimp only
    generalize probeFailed e (prefetched slot) = failed
    rw [hfirst _ fun f hf => replyOf_eq_some.1 hf]
    cases hstep : walkIndex env a scope s with
    | mk r d₁ =>
      cases r with
      | error g =>
        refine ⟨fun t w d h => ?_, fun f d h => ?_⟩
        · cases h
        · cases h
          exact ⟨0, s, .refl s, .fail g d₁ hgo hstep⟩
      | ok u =>
        dsimp only
        obtain ⟨rfl, taddr, htaddr, hstepped⟩ := walkIndex_ok hstep
        have hu := hs.step hlaw htaddr hstepped
        have hplan' : Planned env a scope u.db u.dindex es := by
          rw [hstepped.dindex]
          exact hes.kept hs hu hstepped (Nat.lt_succ_self _)
        have hpre' : Faithful env a u.db es (slot + 1)
            (if failed = true then fun _ => none else prefetched) := by
          intro p e' f hp hf
          rw [accountSeam_kept hstepped.untouched]
          split_ifs at hf
          refine hpre (p + 1) e' f ?_ ?_
          · rwa [List.getElem?_cons_succ]
          · rwa [show slot + (p + 1) = slot + 1 + p by omega]
        have hlen' : es.length ≤ certain a storedThrough u.gap u.dindex := by
          have := certain_step a storedThrough s.dindex hstepped.gap
          rw [List.length_cons] at hlen
          rw [hstepped.dindex]
          omega
        obtain ⟨hok, herr⟩ := ih (if failed = true then max (width / 2) 1 else width)
          hu hplan' hpre' hlen'
        refine ⟨fun t w d h => ?_, fun f d h => ?_⟩
        · obtain ⟨hsteps, ht, hd, hw⟩ := hok t w d h
          refine ⟨.next _ s u t u.db hgo hstep hsteps, ht, hd, fun hwidth => hw ?_⟩
          split <;> omega
        · obtain ⟨n, t, hsteps, hends⟩ := herr f d h
          exact ⟨n + 1, t, .next n s u t u.db hgo hstep hsteps, hends⟩

theorem fails_of_underivable {p : ℕ} (hnone : env.derive scope (s.dindex + p) = none)
    (hp : p < certain a storedThrough s.gap s.dindex)
    (hw : IndexWalk env a scope storedThrough m s o) : ∃ f d, o = (.error f, d) := by
  induction p generalizing s m with
  | zero =>
    have hgo := continues_of_certain hp
    have hfail : walkIndex env a scope s = (.error .derivation, s.db) := by
      unfold walkIndex planEntry
      rw [show env.derive scope s.dindex = none from hnone]
    obtain ⟨-, t, hsteps, hends⟩ := IndexSteps.split (.refl s) hw
    cases hsteps with
    | refl => exact ⟨_, _, hends.det (.fail .derivation s.db hgo hfail)⟩
    | next n _ u _ d hc step rest =>
      rw [hfail] at step
      cases step
  | succ p ih =>
    have hgo := continues_of_certain (lt_of_le_of_lt (Nat.zero_le _) hp)
    obtain ⟨t, hsteps, hends⟩ := hw
    cases hsteps with
    | refl =>
      cases hends with
      | stop hc =>
        rw [hgo] at hc
        cases hc
      | fail f d hc step => exact ⟨f, d, rfl⟩
    | next n _ u _ d hc step rest =>
      obtain ⟨-, taddr, -, hstepped⟩ := walkIndex_ok step
      refine ih ?_ ?_ ⟨t, rest, hends⟩
      · rw [hstepped.dindex, show s.dindex + 1 + p = s.dindex + (p + 1) by omega]
        exact hnone
      · have := certain_step a storedThrough s.dindex hstepped.gap
        rw [hstepped.dindex]
        omega

theorem walkBatch_ok (hlaw : env.Lawful) {order : List (ℕ × Candidate) → List (ℕ × Candidate)}
    (horder : ∀ targets, (order targets).Perm targets) {width w : ℕ} {d : Database H}
    (hs : Walking env a s)
    (h : walkBatch env a scope storedThrough order width s = (.ok (t, w), d)) :
    ∃ n, IndexSteps env a scope storedThrough n s t ∧ Walking env a t ∧ d = t.db ∧
      (1 ≤ width → 1 ≤ w ∧ (0 < certain a storedThrough s.gap s.dindex → 0 < n)) := by
  unfold walkBatch at h
  split at h
  · cases h
  · rename_i batch hbatch
    obtain ⟨hplan, hle, hpos⟩ := planBatch_ok hbatch
    have hspec : ∀ prefetched, Faithful env a s.db batch 0 prefetched →
        ingestBatch env a scope batch 0 width prefetched s = (.ok (t, w), d) →
          ∃ n, IndexSteps env a scope storedThrough n s t ∧ Walking env a t ∧ d = t.db ∧
            (1 ≤ width → 1 ≤ w ∧ (0 < certain a storedThrough s.gap s.dindex → 0 < n)) := by
      intro prefetched hpre hrun
      obtain ⟨hsteps, ht, hd, hw⟩ := (ingestBatch_spec hlaw width hs hplan hpre hle).1 t w d hrun
      exact ⟨batch.length, hsteps, ht, hd, fun hwidth => ⟨hw hwidth, fun hc => hpos hc hwidth⟩⟩
    dsimp only at h
    split_ifs at h with htwo
    · split at h
      · cases h
      · rename_i seam hseam
        exact hspec _ (faithful_joinAll (horder _) hseam) h
    · exact hspec _ (fun _ _ _ _ hf => by cases hf) h

theorem walkBatch_error (hlaw : env.Lawful) {order : List (ℕ × Candidate) → List (ℕ × Candidate)}
    (horder : ∀ targets, (order targets).Perm targets) {width : ℕ} {f : Failure} {d : Database H}
    (hs : Walking env a s) (hgo : continues a storedThrough s.gap s.dindex = true)
    (h : walkBatch env a scope storedThrough order width s = (.error f, d)) :
    (∃ n, IndexWalk env a scope storedThrough n s (.error f, d)) ∨
      f = .derivation ∧ ∀ n o, IndexWalk env a scope storedThrough n s o →
        ∃ g d', o = (.error g, d') := by
  unfold walkBatch at h
  split at h
  · rename_i g hg
    cases h
    rcases planBatch_fails hg with hfail | ⟨rfl, p, hp, hnone⟩
    · refine Or.inl ⟨0, s, .refl s, .fail f s.db hgo ?_⟩
      unfold walkIndex
      rw [hfail]
    · exact Or.inr ⟨rfl, fun n o hw => fails_of_underivable hnone hp hw⟩
  · rename_i batch hbatch
    obtain ⟨hplan, hle, -⟩ := planBatch_ok hbatch
    have hspec : ∀ prefetched, Faithful env a s.db batch 0 prefetched →
        ingestBatch env a scope batch 0 width prefetched s = (.error f, d) →
          ∃ n, IndexWalk env a scope storedThrough n s (.error f, d) := by
      intro prefetched hpre hrun
      obtain ⟨n, t, hsteps, hends⟩ := (ingestBatch_spec hlaw width hs hplan hpre hle).2 f d hrun
      exact ⟨n, t, hsteps, hends⟩
    dsimp only at h
    split_ifs at h with htwo
    · split at h
      · -- an entry was planned, so the seam is there
        rename_i hseam
        cases batch with
        | nil => cases htwo
        | cons e es =>
          obtain ⟨taddr, -, -, start, hstart, -⟩ := planEntry_ok hplan.1
          unfold candidateStart at hstart
          rw [hseam] at hstart
          split at hstart <;> cases hstart
      · rename_i seam hseam
        exact Or.inl (hspec _ (faithful_joinAll (horder _) hseam) h)
    · exact Or.inl (hspec _ (fun _ _ _ _ hf => by cases hf) h)

/-! ### Scopes -/

/-- What a walk comes to, without its width and the number of its rounds. -/
def ended (o : Outcome (WalkState H × ℕ × ℕ) H) : Outcome (WalkState H) H :=
  (o.1.map Prod.fst, o.2)

/-- A loop of rounds ends as the walk does, or for want of an address that the walk would come
    to want too if it got there. -/
theorem scopeWalk_index (hlaw : env.Lawful) {c : Completion} {k w : ℕ}
    {o : Outcome (WalkState H × ℕ × ℕ) H} (hs : Walking env a s)
    (h : ScopeWalk env a scope storedThrough c k w s o) :
    (∃ n, IndexWalk env a scope storedThrough n s (ended o)) ∨
      (∃ d, o = (.error .derivation, d)) ∧
        ∀ n o', IndexWalk env a scope storedThrough n s o' → ∃ g d, o' = (.error g, d) := by
  induction h with
  | stop k w s hstop => exact Or.inl ⟨0, s, .refl s, .stop hstop⟩
  | fail k w s f d hgo round =>
    rcases walkBatch_error hlaw (c.perm k) hs hgo round with hend | ⟨rfl, hfails⟩
    · exact Or.inl hend
    · exact Or.inr ⟨⟨d, rfl⟩, hfails⟩
  | next k w w' s t d o hgo round rest ih =>
    obtain ⟨n, hsteps, ht, -, -⟩ := walkBatch_ok hlaw (c.perm k) hs round
    rcases ih ht with ⟨m, e, hrest, hend⟩ | ⟨hd, hfails⟩
    · exact Or.inl ⟨n + m, e, hsteps.trans hrest, hend⟩
    · exact Or.inr ⟨hd, fun m o' hw => hfails _ o' (hsteps.split hw).2⟩

/-- Where the walk ends, so does the loop of rounds, or it fails for want of an address. -/
theorem index_scopeWalk (hlaw : env.Lawful) (c : Completion) {k w : ℕ} (hw : 1 ≤ w)
    (hs : Walking env a s) (h : IndexWalk env a scope storedThrough n s o) :
    ∃ o', ScopeWalk env a scope storedThrough c k w s o' ∧
      (ended o' = o ∨ (∃ d, o' = (.error .derivation, d)) ∧ ∃ g d, o = (.error g, d)) := by
  induction n using Nat.strong_induction_on generalizing s k w with
  | _ n ih =>
    by_cases hgo : continues a storedThrough s.gap s.dindex = true
    · cases hround : walkBatch env a scope storedThrough (c.order k) w s with
      | mk r d =>
        cases r with
        | error f =>
          refine ⟨_, .fail k w s f d hgo hround, ?_⟩
          rcases walkBatch_error hlaw (c.perm k) hs hgo hround with ⟨m, e, hsteps, hend⟩ | ⟨rfl, hf⟩
          · left
            obtain ⟨-, e', hsteps', hend'⟩ := hsteps.split h
            generalize n - m = q at hsteps'
            cases hend with
            | fail _ _ hc step =>
              cases hsteps' with
              | refl => exact Ends.det (.fail f d hc step) hend'
              | next m' _ u _ d' hc' step' rest' =>
                rw [step] at step'
                cases step'
          · exact Or.inr ⟨⟨d, rfl⟩, hf n o h⟩
        | ok t =>
          obtain ⟨t, w'⟩ := t
          obtain ⟨m, hsteps, ht, -, hwidth⟩ := walkBatch_ok hlaw (c.perm k) hs hround
          obtain ⟨hw', hpos⟩ := hwidth hw
          have hm := hpos (certain_of_continues (hs.gap.trans hs.dindex) hs.dindex hgo)
          obtain ⟨hle, hrest⟩ := hsteps.split h
          obtain ⟨o', hscope, hend⟩ := ih (n - m) (by omega) (k := k + 1) hw' ht hrest
          exact ⟨o', .next k w w' s t d o' hgo hround hscope, hend⟩
    · rw [Bool.not_eq_true] at hgo
      refine ⟨_, .stop k w s hgo, Or.inl ?_⟩
      obtain ⟨e, hsteps, hend⟩ := h
      cases hsteps with
      | refl => exact Ends.det (.stop hgo) hend
      | next m _ u _ d hc step rest =>
        rw [hgo] at hc
        cases hc

theorem scopeWalk_ok (hlaw : env.Lawful) {c : Completion} {k w : ℕ}
    {o : Outcome (WalkState H × ℕ × ℕ) H} (hs : Walking env a s) (hw : 1 ≤ w)
    (h : ScopeWalk env a scope storedThrough c k w s o) {t : WalkState H} {w' k' : ℕ}
    {d : Database H} (ho : o = (.ok (t, w', k'), d)) : Walking env a t ∧ d = t.db ∧ 1 ≤ w' := by
  induction h with
  | stop k w s hstop =>
    cases ho
    exact ⟨hs, rfl, hw⟩
  | fail k w s f d hgo round => cases ho
  | next k w w' s t d o hgo round rest ih =>
    obtain ⟨n, -, ht, -, hwidth⟩ := walkBatch_ok hlaw (c.perm k) hs round
    exact ih ht (hwidth hw).1 ho

/-- Two loops of rounds over one scope, however wide and in whatever order. -/
theorem scopeWalk_transfer (hlaw : env.Lawful) (c' : Completion) (k' : ℕ) {c : Completion} {k w w' : ℕ} (hw' : 1 ≤ w')
    {o : Outcome (WalkState H × ℕ × ℕ) H} (hs : Walking env a s)
    (h : ScopeWalk env a scope storedThrough c k w s o) :
    (∃ d, o = (.error .derivation, d)) ∨
      ∃ o', ScopeWalk env a scope storedThrough c' k' w' s o' ∧
        (ended o' = ended o ∨ (∃ d, o' = (.error .derivation, d)) ∧ ∃ g d, ended o = (.error g, d)) := by
  rcases scopeWalk_index hlaw hs h with ⟨n, hwalk⟩ | ⟨hd, -⟩
  · exact Or.inr (index_scopeWalk hlaw c' hw' hs hwalk)
  · exact Or.inl hd

theorem ended_ok {o : Outcome (WalkState H × ℕ × ℕ) H} {d : Database H}
    (h : ended o = (.ok t, d)) : ∃ w k, o = (.ok (t, w, k), d) := by
  obtain ⟨r, d'⟩ := o
  cases r with
  | error f => cases h
  | ok x =>
    obtain ⟨t', w, k⟩ := x
    cases h
    exact ⟨w, k, rfl⟩

theorem ended_error {o : Outcome (WalkState H × ℕ × ℕ) H} {f : Failure} {d : Database H}
    (h : ended o = (.error f, d)) : o = (.error f, d) := by
  obtain ⟨r, d'⟩ := o
  cases r with
  | error g =>
    cases h
    rfl
  | ok x => cases h

theorem scopeWalk_same (hlaw : env.Lawful) (c' : Completion) (k' : ℕ) {c : Completion} {k w w' w₁ k₁ : ℕ}
    (hw' : 1 ≤ w') {d : Database H} (hs : Walking env a s)
    (h : ScopeWalk env a scope storedThrough c k w s (.ok (t, w₁, k₁), d)) :
    ∃ w₂ k₂, ScopeWalk env a scope storedThrough c' k' w' s (.ok (t, w₂, k₂), d) := by
  rcases scopeWalk_transfer hlaw c' k' hw' hs h with ⟨d', hd⟩ | ⟨o', ho', hend | ⟨-, g, d', hg⟩⟩
  · cases hd
  · obtain ⟨w₂, k₂, rfl⟩ := ended_ok hend
    exact ⟨w₂, k₂, ho'⟩
  · cases hg

theorem scopeWalk_failure (hlaw : env.Lawful) (c' : Completion) (k' : ℕ) {c : Completion} {k w w' : ℕ} (hw' : 1 ≤ w')
    {f : Failure} {d : Database H} (hs : Walking env a s) (hf : f ≠ .derivation)
    (h : ScopeWalk env a scope storedThrough c k w s (.error f, d)) :
    ScopeWalk env a scope storedThrough c' k' w' s (.error f, d) ∨
      ∃ d', ScopeWalk env a scope storedThrough c' k' w' s (.error .derivation, d') := by
  rcases scopeWalk_transfer hlaw c' k' hw' hs h with
    ⟨d', hd⟩ | ⟨o', ho', hend | ⟨⟨d', rfl⟩, -⟩⟩
  · cases hd
    exact absurd rfl hf
  · rw [ended_error hend] at ho'
    exact Or.inl ho'
  · exact Or.inr ⟨d', ho'⟩

end Rounds

/-! ### The whole walk -/

section Whole
variable {env : Env} {db d : Database H} {account endHeight gapLimit w w' : ℕ}
  {c c' : Completion}

theorem readArgs_ok {a : DiscoveryArgs} (h : readArgs db account endHeight gapLimit = .ok a) :
    a.account = account := by
  unfold readArgs at h
  split at h
  · cases h
  · cases h
    rfl

theorem width_pos (concurrency : ℕ) : 1 ≤ min (max concurrency 1) maxDiscoveryConcurrency := by
  have hmax : maxDiscoveryConcurrency = 32 := rfl
  omega

theorem walking_start {a : DiscoveryArgs} (h : Derived env a.account db) (n : ℕ)
    (covered : List (ℕ × ℕ)) : Walking env a (⟨db, n, covered, 0, 0⟩ : WalkState H) :=
  ⟨h, le_refl _, Nat.zero_le _⟩

theorem discovers_ok (hlaw : env.Lawful) (hderived : Derived env account db) {r : Discovered}
    (h : Discovers env c w db account endHeight gapLimit (.ok r, d)) :
    Discovers env c' w' db account endHeight gapLimit (.ok r, d) := by
  generalize ho : ((.ok r, d) : Outcome Discovered H) = o at h
  cases h with
  | unknown f hargs => cases ho
  | first a f d' hargs walk => cases ho
  | second a f d₁ d₂ s w₁ k₁ hargs walk walk' => cases ho
  | both a d₁ d₂ s t w₁ w₂ k₁ k₂ hargs walk walk' =>
    rw [← readArgs_ok hargs] at hderived
    have hstart := walking_start hderived 0 []
    obtain ⟨hs, -, -⟩ := scopeWalk_ok hlaw hstart (width_pos w) walk rfl
    obtain ⟨v₁, l₁, hwalk⟩ := scopeWalk_same hlaw c' 0 (width_pos w') hstart walk
    obtain ⟨-, -, hv₁⟩ := scopeWalk_ok hlaw hstart (width_pos w') hwalk rfl
    obtain ⟨v₂, l₂, hwalk'⟩ := scopeWalk_same hlaw c' l₁ hv₁
      (walking_start hs.derived s.nAdded s.covered) walk'
    exact .both a d₁ d₂ s t v₁ v₂ l₁ l₂ hargs hwalk hwalk'

theorem discovers_error (hlaw : env.Lawful) (hderived : Derived env account db) {f : Failure}
    (hf : f ≠ .derivation)
    (h : Discovers env c w db account endHeight gapLimit (.error f, d)) :
    Discovers env c' w' db account endHeight gapLimit (.error f, d) ∨
      ∃ d', Discovers env c' w' db account endHeight gapLimit (.error .derivation, d') := by
  generalize ho : ((.error f, d) : Outcome Discovered H) = o at h
  cases h with
  | unknown g hargs =>
    cases ho
    exact Or.inl (.unknown f hargs)
  | first a g d' hargs walk =>
    cases ho
    rw [← readArgs_ok hargs] at hderived
    have hstart := walking_start hderived 0 []
    rcases scopeWalk_failure hlaw c' 0 (width_pos w') hstart hf walk with
      hwalk | ⟨d', hwalk⟩
    · exact Or.inl (.first a f d hargs hwalk)
    · exact Or.inr ⟨d', .first a _ d' hargs hwalk⟩
  | second a g d₁ d₂ s w₁ k₁ hargs walk walk' =>
    cases ho
    rw [← readArgs_ok hargs] at hderived
    have hstart := walking_start hderived 0 []
    obtain ⟨hs, -, -⟩ := scopeWalk_ok hlaw hstart (width_pos w) walk rfl
    obtain ⟨v₁, l₁, hwalk⟩ := scopeWalk_same hlaw c' 0 (width_pos w') hstart walk
    obtain ⟨-, -, hv₁⟩ := scopeWalk_ok hlaw hstart (width_pos w') hwalk rfl
    rcases scopeWalk_failure hlaw c' l₁ hv₁
      (walking_start hs.derived s.nAdded s.covered) hf walk' with hwalk' | ⟨d', hwalk'⟩
    · exact Or.inl (.second a f d₁ d s v₁ l₁ hargs hwalk hwalk')
    · exact Or.inr ⟨d', .second a _ d₁ d' s v₁ l₁ hargs hwalk hwalk'⟩
  | both a d₁ d₂ s t w₁ w₂ k₁ k₂ hargs walk walk' =>
    rw [← readArgs_ok hargs] at hderived
    have hstart := walking_start hderived 0 []
    obtain ⟨hs, -, -⟩ := scopeWalk_ok hlaw hstart (width_pos w) walk rfl
    obtain ⟨v₁, l₁, hwalk⟩ := scopeWalk_same hlaw c' 0 (width_pos w') hstart walk
    obtain ⟨-, -, hv₁⟩ := scopeWalk_ok hlaw hstart (width_pos w') hwalk rfl
    obtain ⟨v₂, l₂, hwalk'⟩ := scopeWalk_same hlaw c' l₁ hv₁
      (walking_start hs.derived s.nAdded s.covered) walk'
    exact Or.inl (.both a d₁ d₂ s t v₁ v₂ l₁ l₂ hargs hwalk hwalk')

/-- Whatever the width and the order in which requests complete, the walk stores and returns the
    same. Only where an address that is sure to be reached cannot be derived may a wider walk
    fail earlier than the walk with one request at a time, which then fails too. -/
theorem discovery_independent (env : Env) (c c' : Completion) (w w' : ℕ) (db : Database H)
    (account endHeight gapLimit : ℕ) (hlaw : env.Lawful) (hderived : Derived env account db) :
    (∀ r d, Discovers env c w db account endHeight gapLimit (.ok r, d) ↔
      Discovers env c' w' db account endHeight gapLimit (.ok r, d)) ∧
    ∀ f d, f ≠ .derivation → Discovers env c w db account endHeight gapLimit (.error f, d) →
      Discovers env c' w' db account endHeight gapLimit (.error f, d) ∨
        ∃ d', Discovers env c' w' db account endHeight gapLimit (.error .derivation, d') := by
  refine ⟨fun r d => ⟨?_, ?_⟩, fun f d hf => ?_⟩
  · exact discovers_ok hlaw hderived
  · exact discovers_ok hlaw hderived
  · exact discovers_error hlaw hderived hf

/-- Addresses that spell their scope and index, and a server that saw the one at index 3. -/
def sampleEnv : Env where
  derive scope i := if i < 2 ^ 31 then some (le32 scope ++ le32 i) else none
  taddressTxs taddr lo hi :=
    if taddr = le32 0 ++ le32 3 ∧ lo ≤ 40 ∧ 40 ≤ hi then
      .stream [(40, ⟨[9], [], [⟨some taddr, 5⟩]⟩)] .closed
    else .stream [] .closed
  block h := .block (le32 h) 1000
  setOrder hs := hs

def oneAddress : Database ℕ :=
  { Database.empty with
    accounts := ⟨[⟨1, none, 0, 0, 10, true, none, true, true⟩], List.pairwise_singleton _ _⟩
    syncHeights := ⟨[⟨1, 0, 90⟩], List.pairwise_singleton _ _⟩
    addresses := ⟨[⟨1, 1, 0, 0, le32 0 ++ le32 0, none, false, none⟩], List.pairwise_singleton _ _⟩ }

theorem sampleEnv_lawful : sampleEnv.Lawful where
  injective scope i j taddr hi hj := by
    simp only [sampleEnv, Option.ite_none_right_eq_some, Option.some.injEq] at hi hj
    obtain ⟨hi, rfl⟩ := hi
    obtain ⟨hj, heq⟩ := hj
    exact le32_injective (by omega) (by omega) (List.append_cancel_left heq).symm
  bound scope i hi := if_neg (by omega)

theorem oneAddress_derived : Derived sampleEnv 1 oneAddress where
  address r hr hacc j hj := by
    simp only [oneAddress, List.mem_singleton] at hr
    subst hr
    simp only [sampleEnv, Option.ite_none_right_eq_some, Option.some.injEq] at hj
    exact le32_injective (by decide) (by omega) (List.append_cancel_left hj.2).symm
  transparent n hn := by cases hn

def inTurn : Completion := ⟨fun _ targets => targets, fun _ _ => .refl _⟩
def lastFirst : Completion := ⟨fun _ targets => targets.reverse, fun _ _ => List.reverse_perm _⟩

theorem oneAddress_independent :
    sampleEnv.Lawful ∧ Derived sampleEnv 1 oneAddress ∧
      ∀ r d, Discovers sampleEnv lastFirst 32 oneAddress 1 80 20 (.ok r, d) ↔
        Discovers sampleEnv inTurn 1 oneAddress 1 80 20 (.ok r, d) :=
  ⟨sampleEnv_lawful, oneAddress_derived, (discovery_independent sampleEnv lastFirst inTurn 32 1
    oneAddress 1 80 20 sampleEnv_lawful oneAddress_derived).1⟩

end Whole

end ZcashSdk.Discovery
