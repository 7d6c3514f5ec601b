import ZcashSdk.Shielded.Synchronizer

set_option autoImplicit false

/-!
# The map of tracked notes

Inserting and spending address a tracked note by its key only. They commute with any
update of the notes that keeps the keys, and an insertion commutes with spends of other
keys. The spends of a chunk are one list of events, each a nullifier of a transaction
looked up for one account.
-/
namespace ZcashSdk.Shielded

variable {H : Type} [DecidableEq H] {P : ShieldedProtocol H}

/-! ### Insertion -/

theorem insertUtxo_map (c : UTXO H → UTXO H) (hc : ∀ u, (c u).key = u.key)
    (m : List (UTXO H)) (u : UTXO H) : insertUtxo (m.map c) (c u) = (insertUtxo m u).map c := by
  simp [insertUtxo, List.filter_map, Function.comp_def, hc]

theorem insertAll_map (c : UTXO H → UTXO H) (hc : ∀ u, (c u).key = u.key)
    (new m : List (UTXO H)) :
    (new.map c).foldl insertUtxo (m.map c) = (new.foldl insertUtxo m).map c := by
  induction new generalizing m with
  | nil => rfl
  | cons u new ih => rw [List.map_cons, List.foldl_cons, List.foldl_cons, insertUtxo_map c hc, ih]

theorem mem_insertAll {new m : List (UTXO H)} {u : UTXO H}
    (hu : u ∈ new.foldl insertUtxo m) : u ∈ m ∨ u ∈ new := by
  induction new generalizing m with
  | nil => exact Or.inl hu
  | cons v new ih =>
    rcases ih hu with hm | hn
    · rcases List.mem_append.1 hm with hm | hm
      · exact Or.inl (List.mem_filter.1 hm).1
      · exact Or.inr (by simp [List.mem_singleton.1 hm])
    · exact Or.inr (by simp [hn])

theorem keys_insertAll (new m : List (UTXO H)) (k : ℕ × H) :
    k ∈ (new.foldl insertUtxo m).map UTXO.key ↔ k ∈ m.map UTXO.key ∨ k ∈ new.map UTXO.key := by
  induction new generalizing m with
  | nil => simp
  | cons u new ih =>
    rw [List.foldl_cons, ih]
    have hone : k ∈ (insertUtxo m u).map UTXO.key ↔ k ∈ m.map UTXO.key ∨ k = u.key := by
      simp only [insertUtxo, List.map_append, List.mem_append, List.mem_map, List.mem_filter,
        List.map_cons, List.map_nil, List.mem_singleton, decide_eq_true_eq]
      constructor
      · rintro (⟨v, ⟨hv, -⟩, rfl⟩ | rfl)
        · exact Or.inl ⟨v, hv, rfl⟩
        · exact Or.inr rfl
      · rintro (⟨v, hv, rfl⟩ | rfl)
        · by_cases he : v.key = u.key
          · exact Or.inr he
          · exact Or.inl ⟨v, ⟨hv, he⟩, rfl⟩
        · exact Or.inr rfl
    rw [hone, List.map_cons, List.mem_cons, or_assoc]

theorem nodup_insertAll {new m : List (UTXO H)} (hm : (m.map UTXO.key).Nodup) :
    ((new.foldl insertUtxo m).map UTXO.key).Nodup := by
  induction new generalizing m with
  | nil => exact hm
  | cons u new ih =>
    refine ih ?_
    rw [insertUtxo, List.map_append, List.map_singleton]
    refine List.nodup_append.2 ⟨hm.sublist (List.filter_sublist.map _), List.nodup_singleton _, ?_⟩
    rintro k hk l hl rfl
    obtain ⟨v, hv, rfl⟩ := List.mem_map.1 hk
    have hne := (List.mem_filter.1 hv).2
    simp [List.mem_singleton.1 hl] at hne

/-! ### Spends -/

/-- The nullifiers of a chunk in chain order, each with the account it is looked up for. -/
def spendEvents (P : ShieldedProtocol H) (accounts : List ℕ) (ts : List (TxAt H)) :
    List (TxAt H × (ℕ × H)) :=
  ts.flatMap fun t => (spendKeys P accounts t).map fun k => (t, k)

def spentKeys (P : ShieldedProtocol H) (accounts : List ℕ) (ts : List (TxAt H)) : List (ℕ × H) :=
  (spendEvents P accounts ts).map Prod.snd

def spendEvent (st : List (UTXO H) × List (WarpSyncMessage H)) (e : TxAt H × (ℕ × H)) :
    List (UTXO H) × List (WarpSyncMessage H) :=
  spendKey e.1 st e.2

theorem spendTxs_eq_events (accounts : List ℕ) (ts : List (TxAt H)) (m : List (UTXO H)) :
    spendTxs P accounts ts m = (spendEvents P accounts ts).foldl spendEvent (m, []) := by
  unfold spendTxs spendEvents
  generalize (m, ([] : List (WarpSyncMessage H))) = st
  induction ts generalizing st with
  | nil => rfl
  | cons t ts ih =>
    rw [List.foldl_cons, ih, List.flatMap_cons, List.foldl_append, List.foldl_map]
    rfl

def eventMessages (m : List (UTXO H)) (e : TxAt H × (ℕ × H)) : List (WarpSyncMessage H) :=
  match m.find? fun v => v.key = e.2 with
  | some u => [.transaction (txOf e.1 u.account), .spend { u with txid := e.1.tx.hash }]
  | none => []

theorem spendEvent_eq (m : List (UTXO H)) (msgs : List (WarpSyncMessage H))
    (e : TxAt H × (ℕ × H)) :
    spendEvent (m, msgs) e = (m.filter fun u => u.key ≠ e.2, msgs ++ eventMessages m e) := by
  unfold spendEvent spendKey removeUtxo eventMessages
  dsimp only
  cases hf : m.find? fun v => v.key = e.2 with
  | some u => rfl
  | none =>
    rw [List.find?_eq_none] at hf
    have hs : (m.filter fun u => decide (u.key ≠ e.2)) = m :=
      List.filter_eq_self.2 fun u hu => by simpa using hf u hu
    rw [hs, List.append_nil]

/-- The messages of a list of events, from the notes tracked before it. -/
def spendMessages (m : List (UTXO H)) : List (TxAt H × (ℕ × H)) → List (WarpSyncMessage H)
  | [] => []
  | e :: es => eventMessages m e ++ spendMessages (m.filter fun u => u.key ≠ e.2) es

theorem filter_unspent_cons (m : List (UTXO H)) (e : TxAt H × (ℕ × H))
    (es : List (TxAt H × (ℕ × H))) :
    ((m.filter fun u => u.key ≠ e.2).filter fun u => u.key ∉ es.map Prod.snd) =
      m.filter fun u => u.key ∉ (e :: es).map Prod.snd := by
  rw [List.filter_filter]
  apply List.filter_congr
  intro u _
  simp only [List.map_cons, List.mem_cons, not_or, ne_eq, Bool.decide_and, Bool.and_comm]

theorem foldl_spendEvent (es : List (TxAt H × (ℕ × H))) (m : List (UTXO H))
    (msgs : List (WarpSyncMessage H)) :
    es.foldl spendEvent (m, msgs) =
      (m.filter fun u => u.key ∉ es.map Prod.snd, msgs ++ spendMessages m es) := by
  induction es generalizing m msgs with
  | nil => simp [spendMessages]
  | cons e es ih =>
    rw [List.foldl_cons, spendEvent_eq, ih, filter_unspent_cons, spendMessages,
      List.append_assoc]

/-- Spending removes exactly the notes whose nullifier is revealed for their account. -/
theorem spendTxs_eq (accounts : List ℕ) (ts : List (TxAt H)) (m : List (UTXO H)) :
    spendTxs P accounts ts m =
      (m.filter fun u => u.key ∉ spentKeys P accounts ts,
        spendMessages m (spendEvents P accounts ts)) := by
  rw [spendTxs_eq_events, foldl_spendEvent, List.nil_append]
  rfl

theorem spendMessages_append (m : List (UTXO H)) (es fs : List (TxAt H × (ℕ × H))) :
    spendMessages m (es ++ fs) =
      spendMessages m es ++ spendMessages (m.filter fun u => u.key ∉ es.map Prod.snd) fs := by
  induction es generalizing m with
  | nil => simp [spendMessages]
  | cons e es ih =>
    rw [List.cons_append, spendMessages, ih, spendMessages, List.append_assoc,
      filter_unspent_cons]

theorem eventMessages_mem {m : List (UTXO H)} {e : TxAt H × (ℕ × H)} {x : WarpSyncMessage H}
    (hx : x ∈ eventMessages m e) :
    ∃ u ∈ m, u.key = e.2 ∧
      (x = .transaction (txOf e.1 u.account) ∨ x = .spend { u with txid := e.1.tx.hash }) := by
  unfold eventMessages at hx
  cases hf : m.find? fun v => v.key = e.2 with
  | none => rw [hf] at hx; simp at hx
  | some u =>
    rw [hf] at hx
    have hk : u.key = e.2 := by simpa using List.find?_some hf
    simp only [List.mem_cons, List.not_mem_nil, or_false] at hx
    exact ⟨u, List.mem_of_find?_eq_some hf, hk, hx⟩

theorem spendMessages_mem {m : List (UTXO H)} {es : List (TxAt H × (ℕ × H))}
    {x : WarpSyncMessage H} (hx : x ∈ spendMessages m es) :
    ∃ e ∈ es, ∃ u ∈ m, u.key = e.2 ∧
      (x = .transaction (txOf e.1 u.account) ∨ x = .spend { u with txid := e.1.tx.hash }) := by
  induction es generalizing m with
  | nil => simp [spendMessages] at hx
  | cons e es ih =>
    rcases List.mem_append.1 hx with hx | hx
    · obtain ⟨u, hu, hk⟩ := eventMessages_mem hx
      exact ⟨e, by simp, u, hu, hk⟩
    · obtain ⟨f, hf, u, hu, hk⟩ := ih hx
      exact ⟨f, by simp [hf], u, (List.mem_filter.1 hu).1, hk⟩

theorem exists_spend {m : List (UTXO H)} {es : List (TxAt H × (ℕ × H))} {k : ℕ × H}
    (hk : k ∈ es.map Prod.snd) (hm : k ∈ m.map UTXO.key) :
    ∃ u, .spend u ∈ spendMessages m es ∧ u.key = k := by
  induction es generalizing m with
  | nil => simp at hk
  | cons e es ih =>
    by_cases he : e.2 = k
    · cases hf : m.find? fun v => v.key = e.2 with
      | none =>
        obtain ⟨u, hu, hku⟩ := List.mem_map.1 hm
        have hne := List.find?_eq_none.1 hf u hu
        simp [hku, he] at hne
      | some u =>
        have hku : u.key = e.2 := by simpa using List.find?_some hf
        refine ⟨{ u with txid := e.1.tx.hash }, List.mem_append_left _ ?_, hku.trans he⟩
        rw [eventMessages, hf]
        simp
    · have hk' : k ∈ es.map Prod.snd := by
        rw [List.map_cons, List.mem_cons] at hk
        exact hk.resolve_left fun h => he h.symm
      have hm' : k ∈ (m.filter fun u => u.key ≠ e.2).map UTXO.key := by
        obtain ⟨u, hu, hku⟩ := List.mem_map.1 hm
        refine List.mem_map.2 ⟨u, List.mem_filter.2 ⟨hu, ?_⟩, hku⟩
        simpa [hku] using fun h => he h.symm
      obtain ⟨u, hu, hku⟩ := ih hk' hm'
      exact ⟨u, List.mem_append_right _ hu, hku⟩

/-! ### Spends of updated and of extended maps -/

variable [Inhabited H]

def UTXO.bare (u : UTXO H) : UTXO H := { u with witness := Witness.default }

/-- A spend message without the witness, which the database does not read. -/
def stripWitness : WarpSyncMessage H → WarpSyncMessage H
  | .spend u => .spend u.bare
  | m => m

/-- Updating only witnesses changes the messages only in their witnesses. -/
theorem spendMessages_map (c : UTXO H → UTXO H)
    (hc : ∀ u, (c u).bare = u.bare)
    (es : List (TxAt H × (ℕ × H))) (m : List (UTXO H)) :
    (spendMessages (m.map c) es).map stripWitness = (spendMessages m es).map stripWitness := by
  have hkey : ∀ u, (c u).key = u.key := fun u => (UTXO.mk.inj (hc u)).2.2.elim fun h1 h2 =>
    Prod.ext h1 h2.1
  have hacc : ∀ u, (c u).account = u.account := fun u => congrArg Prod.fst (hkey u)
  induction es generalizing m with
  | nil => rfl
  | cons e es ih =>
    have hev : (eventMessages (m.map c) e).map stripWitness =
        (eventMessages m e).map stripWitness := by
      have hfind : ((m.map c).find? fun v => v.key = e.2) =
          (m.find? fun v => v.key = e.2).map c := by
        simp [List.find?_map, hkey]
      unfold eventMessages
      rw [hfind]
      cases m.find? fun v => v.key = e.2 with
      | none => rfl
      | some u =>
        have hs : UTXO.bare { c u with txid := e.1.tx.hash } =
            UTXO.bare { u with txid := e.1.tx.hash } :=
          congrArg (fun v : UTXO H => { v with txid := e.1.tx.hash }) (hc u)
        exact congrArg₂ (fun a v => [WarpSyncMessage.transaction (txOf e.1 a), .spend v])
          (hacc u) hs
    have hfilter : ((m.map c).filter fun u => u.key ≠ e.2) =
        (m.filter fun u => u.key ≠ e.2).map c := by
      simp [List.filter_map, Function.comp_def, hkey]
    simp only [spendMessages, List.map_append]
    rw [hev, hfilter, ih]

omit [Inhabited H] in
theorem eventMessages_insert (m : List (UTXO H)) (u : UTXO H) (e : TxAt H × (ℕ × H))
    (hu : u.key ≠ e.2) : eventMessages (insertUtxo m u) e = eventMessages m e := by
  have hfind : ((insertUtxo m u).find? fun v => v.key = e.2) =
      m.find? fun v => v.key = e.2 := by
    rw [insertUtxo, List.find?_append, List.find?_filter]
    have hlast : ([u].find? fun v => decide (v.key = e.2)) = none := by simp [hu]
    rw [hlast, Option.or_none]
    congr 1
    funext v
    by_cases hv : v.key = e.2
    · simp [hv, Ne.symm hu]
    · simp [hv]
  unfold eventMessages
  rw [hfind]

omit [Inhabited H] in
theorem filter_insertUtxo (m : List (UTXO H)) (u : UTXO H) (p : ℕ × H → Prop) [DecidablePred p]
    (hu : p u.key) :
    ((insertUtxo m u).filter fun v => p v.key) = insertUtxo (m.filter fun v => p v.key) u := by
  simp only [insertUtxo, List.filter_append, List.filter_filter, List.filter_cons,
    List.filter_nil, hu, decide_true, if_true, Bool.and_comm]

omit [Inhabited H] in
theorem spendMessages_insert (es : List (TxAt H × (ℕ × H))) (m : List (UTXO H)) (u : UTXO H)
    (hu : u.key ∉ es.map Prod.snd) : spendMessages (insertUtxo m u) es = spendMessages m es := by
  induction es generalizing m with
  | nil => rfl
  | cons e es ih =>
    rw [List.map_cons, List.mem_cons, not_or] at hu
    rw [spendMessages, spendMessages, eventMessages_insert m u e hu.1,
      filter_insertUtxo m u (fun k => k ≠ e.2) hu.1, ih _ hu.2]

omit [Inhabited H] in
/-- Notes whose keys are not spent can be inserted before or after the spends. -/
theorem spend_insertAll (es : List (TxAt H × (ℕ × H))) (new m : List (UTXO H))
    (hn : ∀ u ∈ new, u.key ∉ es.map Prod.snd) :
    ((new.foldl insertUtxo m).filter fun u => u.key ∉ es.map Prod.snd) =
        new.foldl insertUtxo (m.filter fun u => u.key ∉ es.map Prod.snd) ∧
      spendMessages (new.foldl insertUtxo m) es = spendMessages m es := by
  induction new generalizing m with
  | nil => exact ⟨rfl, rfl⟩
  | cons u new ih =>
    rw [List.forall_mem_cons] at hn
    obtain ⟨h1, h2⟩ := ih (insertUtxo m u) hn.2
    rw [List.foldl_cons, List.foldl_cons, h1, h2]
    exact ⟨by rw [filter_insertUtxo m u (fun k => k ∉ es.map Prod.snd) hn.1],
      spendMessages_insert es m u hn.1⟩

end ZcashSdk.Shielded
