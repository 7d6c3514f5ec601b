import ZcashSdk.Mempool.Subscription

set_option autoImplicit false

/-!
# Whose events a collector gets

The order of a queue is kept by the lock of the slot alone. That a collector meets no run
but its own depends on when runs are started: while a collector that was stopped from
outside has not made its own final stop, it would poll and stop the run of the next one.
-/
namespace ZcashSdk.Mempool
open Runs

/-! ### The native operations -/

structure RunGrows (a b : Run) : Prop where
  owner : b.owner = a.owner
  taken : a.taken ≤ b.taken
  queued : a.queued <+: b.queued

theorem RunGrows.refl (a : Run) : RunGrows a a := ⟨rfl, le_refl _, List.prefix_refl _⟩

def Later (n m : Native) : Prop :=
  ∀ (r : ℕ) (a : Run), n.runs[r]? = some a → ∃ b, m.runs[r]? = some b ∧ RunGrows a b

theorem Later.refl (n : Native) : Later n n := fun _ a h => ⟨a, h, .refl a⟩

theorem later_set {n : Native} {r : ℕ} {a b : Run} (h : n.runs[r]? = some a) (hg : RunGrows a b)
    (slot : Option ℕ) : Later n ⟨slot, n.runs.set r b⟩ := by
  intro i c hi
  obtain ⟨hlt, -⟩ := List.getElem?_eq_some_iff.1 h
  by_cases hir : r = i
  · subst hir
    rw [h] at hi
    cases hi
    exact ⟨b, List.getElem?_set_self hlt, hg⟩
  · exact ⟨c, (List.getElem?_set_ne hir).trans hi, .refl c⟩

theorem later_modify (n : Native) (r : ℕ) (f : Run → Run) (hf : ∀ a, RunGrows a (f a))
    (slot : Option ℕ) : Later n ⟨slot, n.runs.modify r f⟩ := by
  intro i a hi
  change ∃ b, (n.runs.modify r f)[i]? = some b ∧ RunGrows a b
  rw [List.getElem?_modify, hi]
  by_cases hir : r = i
  · exact ⟨f a, by simp [hir], hf a⟩
  · exact ⟨a, by simp [hir], .refl a⟩

theorem start_spec {n m : Native} {c : ℕ} (h : n.start c = some m) :
    n.slot = none ∧ Later n m ∧ ∃ r, m.slot = some r ∧ ∃ run, m.runs[r]? = some run ∧ run.owner = c := by
  unfold Native.start at h
  split at h
  · cases h
  · rename_i hslot
    cases h
    refine ⟨hslot, fun i a hi => ?_, _, rfl, _, List.getElem?_concat_length, rfl⟩
    obtain ⟨hlt, -⟩ := List.getElem?_eq_some_iff.1 hi
    exact ⟨a, (List.getElem?_append_left hlt).trans hi, .refl a⟩

theorem next_spec (n : Native) : n.next.1.slot = n.slot ∧ Later n n.next.1 := by
  unfold Native.next
  split
  · exact ⟨rfl, .refl n⟩
  · split
    · exact ⟨rfl, .refl n⟩
    · rename_i run hrun
      split
      · refine ⟨rfl, later_set hrun ?_ _⟩
        exact ⟨rfl, Nat.le_succ _, List.prefix_refl _⟩
      · exact ⟨rfl, .refl n⟩

/-- An event comes from the run in the slot, and is the next one of its queue. -/
theorem next_event {n : Native} {r i : ℕ} {e : MempoolEvent} (h : n.next.2 = .event r i e) :
    n.slot = some r ∧ ∃ run, n.runs[r]? = some run ∧ run.taken = i ∧ run.queued[i]? = some e ∧
      n.next.1.runs[r]? = some { run with taken := i + 1 } := by
  unfold Native.next at h ⊢
  cases hslot : n.slot with
  | none =>
    simp only [hslot] at h
    cases h
  | some s =>
    simp only [hslot] at h ⊢
    cases hrun : n.runs[s]? with
    | none =>
      simp only [hrun] at h
      cases h
    | some run =>
      simp only [hrun] at h ⊢
      cases hq : run.queued[run.taken]? with
      | none =>
        simp only [hq] at h
        split at h <;> cases h
      | some e' =>
        simp only [hq, Polled.event.injEq] at h ⊢
        obtain ⟨rfl, rfl, rfl⟩ := h
        obtain ⟨hlt, -⟩ := List.getElem?_eq_some_iff.1 hrun
        exact ⟨rfl, run, hrun, rfl, hq, List.getElem?_set_self hlt⟩

theorem take_spec (n : Native) : n.take.2 = n.slot ∧ n.take.1.slot = none ∧ Later n n.take.1 := by
  unfold Native.take
  split
  · rename_i hslot
    exact ⟨hslot.symm, hslot, .refl n⟩
  · rename_i r hslot
    refine ⟨hslot.symm, rfl, later_modify n r _ (fun a => ?_) _⟩
    exact ⟨rfl, le_refl _, List.prefix_refl _⟩

theorem send_spec {n m : Native} {r : ℕ} {e : MempoolEvent} (h : n.send r e = some m) :
    m.slot = n.slot ∧ Later n m := by
  unfold Native.send at h
  split at h
  · cases h
  · rename_i run hrun
    split_ifs at h
    cases h
    refine ⟨rfl, later_set hrun ?_ _⟩
    exact ⟨rfl, le_refl _, List.prefix_append _ _⟩

theorem Later.trans {n m k : Native} (h : Later n m) (h' : Later m k) : Later n k := by
  intro r a ha
  obtain ⟨b, hb, hg⟩ := h r a ha
  obtain ⟨c, hc, hg'⟩ := h' r b hb
  exact ⟨c, hc, hg'.owner.trans hg.owner, hg.taken.trans hg'.taken, hg.queued.trans hg'.queued⟩

theorem finish_spec {n m : Native} {r : ℕ} {error : Option String}
    (h : n.finish r error = some m) : m.slot = n.slot ∧ Later n m := by
  obtain ⟨k, hk, rfl⟩ := Option.map_eq_some_iff.1 h
  obtain ⟨hslot, hlater⟩ := send_spec hk
  refine ⟨hslot, hlater.trans (later_modify k r _ (fun a => ?_) k.slot)⟩
  exact ⟨rfl, le_refl _, List.prefix_refl _⟩

/-! ### What a step can do -/

section Steps
variable {walletOf : ℕ → ℕ} {s t : State} {a : Action}

/-- What is delivered and which run is in the slot changes in three ways. -/
inductive Change (s : State) (a : Action) (t : State) : Prop
  | other (native : Later s.native t.native)
      (slot : t.native.slot = s.native.slot ∨ t.native.slot = none)
      (delivered : t.delivered = s.delivered) (stops : t.stops = s.stops)
      (active : ∀ c, Active t c → Active s c)
  | begun (c : ℕ) (action : a = .start c ∨ a = .startDropped c)
      (native : s.native.start c = some t.native)
      (delivered : t.delivered = s.delivered) (stops : t.stops = s.stops)
      (active : ∀ c', Active t c' → Active s c' ∨ c' = c)
  | received (c r i : ℕ) (e : MempoolEvent) (polling : Active s c)
      (native : t.native = s.native.next.1) (event : s.native.next.2 = .event r i e)
      (delivered : t.delivered = s.delivered ++ [⟨c, r, i, e⟩]) (stops : t.stops = s.stops)
      (active : ∀ c, Active t c → Active s c)
  | stopped (c r : ℕ) (leaving : Active s c) (native : t.native = s.native.take.1)
      (slot : s.native.slot = some r) (delivered : t.delivered = s.delivered)
      (stops : t.stops = s.stops ++ [(c, r)]) (active : ∀ c, Active t c → Active s c)

theorem active_setCollector {s : State} {c : ℕ} {phase : CollectorPhase} {c' : ℕ}
    (h : Active (s.setCollector c phase) c') : c' = c ∨ Active s c' := by
  by_cases hc : c' = c
  · exact Or.inl hc
  · refine Or.inr ?_
    simpa only [Active, State.setCollector, Function.update_of_ne hc] using h

/-- A phase that polls no more makes a collector no more active than it was. -/
theorem active_of_setCollector {s : State} {c : ℕ} {phase : CollectorPhase}
    (hphase : Active s c ∨ ¬ Active (s.setCollector c phase) c) (c' : ℕ)
    (h : Active (s.setCollector c phase) c') : Active s c' := by
  rcases active_setCollector h with rfl | h'
  · exact hphase.elim id fun hn => absurd h hn
  · exact h'

theorem not_active_update {s : State} {c : ℕ} {phase : CollectorPhase}
    (h : phase ≠ .looping ∧ phase ≠ .polling ∧ phase ≠ .leaving) :
    ¬ Active (s.setCollector c phase) c := by
  simp only [Active, State.setCollector, Function.update_self]
  tauto

theorem change_of_step (h : step walletOf s a = some t) : Change s a t := by
  cases a with
  | enter c =>
    simp only [step] at h
    split at h <;> cases h
    refine .other (.refl _) (Or.inl rfl) rfl rfl (active_of_setCollector (Or.inr ?_))
    split <;> exact not_active_update (by decide)
  | start c =>
    simp only [step] at h
    split at h
    · split at h <;> cases h
      · rename_i n hn
        exact .begun c (Or.inl rfl) hn rfl rfl fun c' hc' => (active_setCollector hc').symm
      · exact .other (.refl _) (Or.inl rfl) rfl rfl
          (active_of_setCollector (Or.inr (not_active_update (by decide))))
    · cases h
  | startDropped c =>
    simp only [step] at h
    split at h
    · split at h <;> cases h
      · rename_i n hn
        exact .begun c (Or.inr rfl) hn rfl rfl fun c' hc' => (active_setCollector hc').symm
      · exact .other (.refl _) (Or.inl rfl) rfl rfl
          (active_of_setCollector (Or.inr (not_active_update (by decide))))
    · cases h
  | startFails c =>
    simp only [step] at h
    split at h <;> cases h
    exact .other (.refl _) (Or.inl rfl) rfl rfl
      (active_of_setCollector (Or.inr (not_active_update (by decide))))
  | check c =>
    simp only [step] at h
    split at h <;> cases h
    rename_i hphase
    exact .other (.refl _) (Or.inl rfl) rfl rfl (active_of_setCollector (Or.inl (Or.inl hphase)))
  | poll c =>
    simp only [step] at h
    split at h <;> cases h
    rename_i hphase
    have hactive : Active s c := Or.inr (Or.inl hphase)
    obtain ⟨hslot, hlater⟩ := next_spec s.native
    cases hp : s.native.next.2 with
    | event r i e =>
      exact .received c r i e hactive rfl hp rfl rfl (active_of_setCollector (Or.inl hactive))
    | _ =>
      refine .other hlater (Or.inl hslot) ?_ rfl (active_of_setCollector (Or.inl hactive))
      exact List.append_nil _
  | pollDropped c =>
    simp only [step] at h
    split at h <;> cases h
    rename_i hphase
    obtain ⟨hslot, hlater⟩ := next_spec s.native
    exact .other hlater (Or.inl hslot) rfl rfl
      (active_of_setCollector (Or.inl (Or.inr (Or.inl hphase))))
  | leave c =>
    simp only [step] at h
    split at h <;> cases h
    rename_i hphase
    exact .other (.refl _) (Or.inl rfl) rfl rfl (active_of_setCollector (Or.inl (Or.inl hphase)))
  | take c =>
    simp only [step] at h
    split at h <;> cases h
    rename_i hphase
    have hactive : Active s c := Or.inr (Or.inr hphase)
    obtain ⟨hrun, hslot, hlater⟩ := take_spec s.native
    cases hr : s.native.slot with
    | none =>
      refine .other hlater (Or.inr hslot) rfl ?_ (active_of_setCollector (Or.inl hactive))
      simp [State.setCollector, hrun, hr]
    | some r =>
      refine .stopped c r hactive rfl hr rfl ?_ (active_of_setCollector (Or.inl hactive))
      simp [State.setCollector, hrun, hr]
  | join c =>
    simp only [step] at h
    split at h
    · split_ifs at h
      cases h
      exact .other (.refl _) (Or.inl rfl) rfl rfl
        (active_of_setCollector (Or.inr (not_active_update (by decide))))
    · cases h
  | stopMempool k =>
    simp only [step] at h
    split at h <;> cases h
    exact .other (.refl _) (Or.inl rfl) rfl rfl fun _ => id
  | close k wallet =>
    simp only [step] at h
    split at h <;> cases h
    exact .other (.refl _) (Or.inl rfl) rfl rfl fun _ => id
  | takeFor k =>
    simp only [step] at h
    split at h <;> cases h
    obtain ⟨-, hslot, hlater⟩ := take_spec s.native
    exact .other hlater (Or.inr hslot) rfl rfl fun _ => id
  | joinFor k =>
    simp only [step] at h
    split at h
    · split_ifs at h
      cases h
      exact .other (.refl _) (Or.inl rfl) rfl rfl fun _ => id
    · cases h
  | readerSends r e =>
    obtain ⟨n, hn, rfl⟩ := Option.map_eq_some_iff.1 h
    obtain ⟨hslot, hlater⟩ := send_spec hn
    exact .other hlater (Or.inl hslot) rfl rfl fun _ => id
  | readerEnds r error =>
    obtain ⟨n, hn, rfl⟩ := Option.map_eq_some_iff.1 h
    obtain ⟨hslot, hlater⟩ := finish_spec hn
    exact .other hlater (Or.inl hslot) rfl rfl fun _ => id

theorem Change.later (h : Change s a t) : Later s.native t.native := by
  cases h with
  | other native => exact native
  | begun c action native => exact (start_spec native).2.1
  | received c r i e polling native => exact native ▸ (next_spec s.native).2
  | stopped c r leaving native => exact native ▸ (take_spec s.native).2.2

/-! ### The order of a queue -/

structure Ordered (s : State) : Prop where
  once : ∀ r, ((s.delivered.filter fun d => d.run = r).map Delivery.index).Pairwise (· < ·)
  taken : ∀ d ∈ s.delivered, ∃ run, s.native.runs[d.run]? = some run ∧ d.index < run.taken ∧
    run.queued[d.index]? = some d.event

theorem Ordered.of_later (h : Ordered s) (hd : t.delivered = s.delivered)
    (hl : Later s.native t.native) : Ordered t := by
  refine ⟨hd ▸ h.once, fun d hmem => ?_⟩
  rw [hd] at hmem
  obtain ⟨run, hrun, hlt, he⟩ := h.taken d hmem
  obtain ⟨run', hrun', hg⟩ := hl _ _ hrun
  obtain ⟨rest, hrest⟩ := hg.queued
  refine ⟨run', hrun', lt_of_lt_of_le hlt hg.taken, ?_⟩
  obtain ⟨hlen, -⟩ := List.getElem?_eq_some_iff.1 he
  rw [← hrest, List.getElem?_append_left hlen, he]

theorem Ordered.step (h : Ordered s) (hc : Change s a t) : Ordered t := by
  have hlater := hc.later
  cases hc with
  | other native slot delivered => exact h.of_later delivered hlater
  | begun c action native delivered => exact h.of_later delivered hlater
  | stopped c r leaving native slot delivered => exact h.of_later delivered hlater
  | received c r i e polling native event delivered =>
    obtain ⟨-, run, hrun, htaken, hq, hrun'⟩ := next_event event
    have hkept : Ordered { t with delivered := s.delivered } := h.of_later rfl hlater
    refine ⟨fun k => ?_, fun d hd => ?_⟩
    · rw [delivered, List.filter_append, List.map_append]
      refine List.pairwise_append.2 ⟨h.once k, ?_, ?_⟩
      · exact (List.pairwise_singleton _ _).sublist ((List.filter_sublist).map _)
      · -- what was taken before has a smaller index
        intro x hx y hy
        obtain ⟨d, hd, rfl⟩ := List.mem_map.1 hx
        obtain ⟨d', hd', rfl⟩ := List.mem_map.1 hy
        obtain ⟨hd, hdk⟩ := List.mem_filter.1 hd
        obtain ⟨hd', hdk'⟩ := List.mem_filter.1 hd'
        obtain rfl := List.mem_singleton.1 hd'
        simp only [decide_eq_true_eq] at hdk hdk'
        obtain ⟨run', hr', hlt, -⟩ := h.taken d hd
        rw [hdk, ← hdk', hrun] at hr'
        cases hr'
        exact htaken ▸ hlt
    · rw [delivered] at hd
      rcases List.mem_append.1 hd with hd | hd
      · exact hkept.taken d hd
      · obtain rfl := List.mem_singleton.1 hd
        exact ⟨{ run with taken := i + 1 }, native ▸ hrun', Nat.lt_succ_self i, hq⟩

/-! ### Whose run it is -/

/-- A collector that may poll or stop finds no run in the slot but its own, and none ever did. -/
structure Private (s : State) : Prop where
  slot : ∀ c, Active s c → ∀ r, s.native.slot = some r →
    ∃ run, s.native.runs[r]? = some run ∧ run.owner = c
  owner : ∀ d ∈ s.delivered, ∃ run, s.native.runs[d.run]? = some run ∧ run.owner = d.collector
  stops : ∀ p ∈ s.stops, ∃ run, s.native.runs[p.2]? = some run ∧ run.owner = p.1

theorem Later.owner {n m : Native} (h : Later n m) {r c : ℕ}
    (hr : ∃ run, n.runs[r]? = some run ∧ run.owner = c) :
    ∃ run, m.runs[r]? = some run ∧ run.owner = c := by
  obtain ⟨run, hrun, hown⟩ := hr
  obtain ⟨run', hrun', hg⟩ := h _ _ hrun
  exact ⟨run', hrun', hg.owner.trans hown⟩

theorem Private.step (h : Private s) (hok : Settled s a) (hc : Change s a t) : Private t := by
  have hlater := hc.later
  have howner : ∀ d ∈ s.delivered, ∃ run, t.native.runs[d.run]? = some run ∧
      run.owner = d.collector := fun d hd => hlater.owner (h.owner d hd)
  have hstops : ∀ p ∈ s.stops, ∃ run, t.native.runs[p.2]? = some run ∧ run.owner = p.1 :=
    fun p hp => hlater.owner (h.stops p hp)
  cases hc with
  | other native slot delivered stops active =>
    refine ⟨fun c hc r hr => ?_, delivered ▸ howner, stops ▸ hstops⟩
    rcases slot with hslot | hslot
    · exact hlater.owner (h.slot c (active c hc) r (hslot ▸ hr))
    · rw [hslot] at hr
      cases hr
  | begun c action native delivered stops active =>
    obtain ⟨hnone, -, r', hr', run, hrun, hown⟩ := start_spec native
    have hsettled : ∀ c, ¬ Active s c := by
      rcases action with rfl | rfl
      · exact hok hnone
      · exact hok hnone
    refine ⟨fun c' hc' r hr => ?_, delivered ▸ howner, stops ▸ hstops⟩
    -- nobody was active, so this is the collector that starts the run
    obtain rfl := (active c' hc').resolve_left (hsettled c')
    rw [hr', Option.some.injEq] at hr
    exact ⟨run, hr ▸ hrun, hown⟩
  | received c r i e polling native event delivered stops active =>
    obtain ⟨hslot, -⟩ := next_event event
    refine ⟨fun c' hc' k hk => ?_, fun d hd => ?_, stops ▸ hstops⟩
    · rw [native, (next_spec s.native).1] at hk
      exact hlater.owner (h.slot c' (active c' hc') k hk)
    · rw [delivered] at hd
      rcases List.mem_append.1 hd with hd | hd
      · exact howner d hd
      · obtain rfl := List.mem_singleton.1 hd
        exact hlater.owner (h.slot c polling r hslot)
  | stopped c r leaving native slot delivered stops active =>
    refine ⟨fun c' hc' k hk => ?_, delivered ▸ howner, fun p hp => ?_⟩
    · rw [native, (take_spec s.native).2.1] at hk
      cases hk
    · rw [stops] at hp
      rcases List.mem_append.1 hp with hp | hp
      · exact hstops p hp
      · obtain rfl := List.mem_singleton.1 hp
        exact hlater.owner (h.slot c leaving r slot)

theorem Isolated.of_private (ho : Ordered s) (hp : Private s) : Isolated s where
  once := ho.once
  queued d hd := by
    obtain ⟨run, hrun, -, he⟩ := ho.taken d hd
    exact ⟨run, hrun, he⟩
  owner := hp.owner
  stops := hp.stops

theorem private_init : Private .init where
  slot c hc := by
    rcases hc with hc | hc | hc <;> cases hc
  owner d hd := absurd hd List.not_mem_nil
  stops p hp := absurd hp List.not_mem_nil

theorem ordered_init : Ordered .init := ⟨fun _ => List.Pairwise.nil, fun _ hd => absurd hd List.not_mem_nil⟩

/-- In every interleaving in which runs are started only when all earlier collectors have made
    their final stop, collections are isolated. -/
theorem mempool_isolated (walletOf : ℕ → ℕ) (as : List Action) {s : State}
    (hrun : run (step walletOf) .init as = some s)
    (hsettled : AllSteps (step walletOf) Settled .init as) : Isolated s := by
  refine Isolated.of_private ?_ ?_
  · exact run_inv (step walletOf) _ (fun _ _ _ h hs => h.step (change_of_step hs)) ordered_init hrun
  · exact run_inv_of_allSteps (step walletOf)
      (fun _ _ _ h hok hs => h.step hok (change_of_step hs)) private_init hsettled hrun

/-! ### Two collections -/

/-- One collection after the other, the first ended by its wallet. -/
def inTurn : List Action :=
  [.enter 1, .start 1, .readerSends 0 (.epoch 7), .check 1, .poll 1, .stopMempool 0, .takeFor 0,
    .readerEnds 0 none, .joinFor 0, .check 1, .poll 1, .take 1, .join 1, .enter 2, .start 2]

theorem inTurn_isolated :
    ∃ s, run (step id) .init inTurn = some s ∧ s.delivered = [⟨1, 0, 0, .epoch 7⟩] ∧
      Isolated s := by
  refine ⟨_, rfl, rfl, mempool_isolated id inTurn rfl ?_⟩
  iterate 1 refine ⟨trivial, fun t ht => ?_⟩; cases ht
  refine ⟨fun _ c hc => ?_, fun t ht => ?_⟩
  · simp [Active, State.setCollector, State.init, Function.update_apply] at hc
    grind
  cases ht
  iterate 12 refine ⟨trivial, fun t ht => ?_⟩; cases ht
  refine ⟨fun _ c hc => ?_, fun _ _ => trivial⟩
  simp [Active, State.setCollector, State.setStopper, State.init, Function.update_apply] at hc
  grind

/-- The first collection is between two polls when its wallet stops it and the second begins:
    it gets an event of the second and then stops it. -/
def overlapping : List Action :=
  [.enter 1, .start 1, .stopMempool 0, .takeFor 0, .readerEnds 0 none, .joinFor 0, .enter 2, .start 2,
    .readerSends 1 (.epoch 8), .check 1, .poll 1, .leave 1, .take 1]

theorem overlapping_not_isolated :
    ∃ s, run (step id) .init overlapping = some s ∧ s.delivered = [⟨1, 1, 0, .epoch 8⟩] ∧
      s.stops = [(1, 1)] ∧ ¬ Isolated s := by
  refine ⟨_, rfl, rfl, rfl, fun h => ?_⟩
  obtain ⟨run, hrun, hown⟩ := h.owner ⟨1, 1, 0, .epoch 8⟩ (List.mem_singleton_self _)
  cases hrun
  cases hown

end Steps

end ZcashSdk.Mempool
