import ZcashSdk.Shielded.Consistency

set_option autoImplicit false

/-!
# Where the reader cuts the chunks does not matter

`add` on two consecutive lists of blocks at once, and one after the other, reach the same
state and report the same notes, transactions and spends. A spend message carries the
witness of the last block of its chunk, which depends on the cut and is not compared.
The two runs differ when a nullifier is revealed before its note is received: one chunk
inserts all its notes before it looks at any nullifier.
-/
namespace ZcashSdk.Shielded
open Loops MerkleTree

variable {H : Type} [DecidableEq H] [Inhabited H] {P : ShieldedProtocol H}

/-- Notes, transactions and spends, as opposed to witnesses and checkpoints. -/
def isEvent : WarpSyncMessage H → Bool
  | .note _ | .transaction _ | .spend _ => true
  | _ => false

/-- What a run reports, the witnesses inside spend messages left out. -/
def events (msgs : List (WarpSyncMessage H)) : List (WarpSyncMessage H) :=
  (msgs.filter isEvent).map stripWitness

omit [DecidableEq H] in
theorem events_append (xs ys : List (WarpSyncMessage H)) :
    events (xs ++ ys) = events xs ++ events ys := by
  simp [events]

omit [DecidableEq H] in
theorem mem_note_events {msgs : List (WarpSyncMessage H)} {n : Note H} :
    .note n ∈ events msgs ↔ .note n ∈ msgs := by
  simp only [events, List.mem_map, List.mem_filter]
  constructor
  · rintro ⟨m, ⟨hm, -⟩, he⟩
    cases m <;> simp [stripWitness] at he
    subst he
    exact hm
  · intro hn
    exact ⟨_, ⟨hn, rfl⟩, rfl⟩

omit [DecidableEq H] in
theorem spend_of_events {msgs : List (WarpSyncMessage H)} {u : UTXO H}
    (hu : .spend u ∈ events msgs) : ∃ v, .spend v ∈ msgs ∧ v.key = u.key := by
  simp only [events, List.mem_map, List.mem_filter] at hu
  obtain ⟨m, ⟨hm, -⟩, he⟩ := hu
  cases m with
  | spend v =>
    simp only [stripWitness, WarpSyncMessage.spend.injEq] at he
    exact ⟨v, hm, by rw [← he]; rfl⟩
  | _ => simp [stripWitness] at he

omit [DecidableEq H] in
theorem spend_mem_events {msgs : List (WarpSyncMessage H)} {u : UTXO H} (hu : .spend u ∈ msgs) :
    .spend u.bare ∈ events msgs :=
  List.mem_map.2 ⟨_, List.mem_filter.2 ⟨hu, rfl⟩, rfl⟩

omit [DecidableEq H] in
@[simp] theorem carryTo_bare (s : Synchronizer P) (L : List H) (u : UTXO H) :
    (carryTo s L u).bare = u.bare := by
  unfold carryTo refreshAnchor
  split_ifs <;> rfl

omit [DecidableEq H] [Inhabited H] in
theorem carryTo_carryTo (s : Synchronizer P) (L L' : List H) (u : UTXO H) :
    carryTo s L' (carryTo s L u) = carryTo s L' u := by
  unfold carryTo refreshAnchor
  split_ifs <;> rfl

omit [DecidableEq H] [Inhabited H] in
theorem events_receipts [Inhabited H] (rs : List (Receipt H)) :
    events (rs.flatMap Receipt.messages) = rs.flatMap Receipt.messages := by
  have hall : ∀ m ∈ rs.flatMap Receipt.messages, isEvent m = true ∧ stripWitness m = m := by
    intro m hm
    obtain ⟨r, -, hm⟩ := List.mem_flatMap.1 hm
    obtain ⟨n, -, hm⟩ := List.mem_flatMap.1 hm
    simp only [noteMessages, List.mem_cons, List.not_mem_nil, or_false] at hm
    rcases hm with rfl | rfl <;> exact ⟨rfl, rfl⟩
  rw [events, List.filter_eq_self.2 fun m hm => (hall m hm).1]
  exact (List.map_congr_left fun m hm => (hall m hm).2).trans (List.map_id _)

theorem events_spendMessages (m : List (UTXO H)) (es : List (TxAt H × (ℕ × H))) :
    events (spendMessages m es) = (spendMessages m es).map stripWitness := by
  have hall : ∀ x ∈ spendMessages m es, isEvent x = true := by
    intro x hx
    obtain ⟨e, -, u, -, -, rfl | rfl⟩ := spendMessages_mem hx <;> rfl
  rw [events, List.filter_eq_self.2 hall]

/-- The notes tracked in a chunk, before the tree brings them up to date. -/
def inserted (s : Synchronizer P) (notes : List (Note H)) : List (UTXO H) :=
  (notes.map (received s.pool)).foldl insertUtxo s.utxos

theorem events_chunkMessages (s : Synchronizer P) (L : List H) (height : ℕ) (ts : List (TxAt H))
    (rs : List (Receipt H)) :
    events (chunkMessages s L height ts rs) = rs.flatMap Receipt.messages ++
      (spendMessages (inserted s (notesOf rs)) (spendEvents P s.accounts ts)).map stripWitness := by
  have hw : events ((trackedAfter s L (notesOf rs)).map (witnessMessage height)) = [] := by
    rw [events, List.filter_eq_nil_iff.2, List.map_nil]
    intro m hm
    obtain ⟨u, -, rfl⟩ := List.mem_map.1 hm
    simp [witnessMessage, isEvent]
  have hc : events [WarpSyncMessage.checkpoint (H := H) s.accounts s.pool height] = [] := rfl
  rw [chunkMessages, events_append, events_append, events_append, events_receipts, hw, hc,
    List.append_nil, List.append_nil, spendTxs_eq, events_spendMessages]
  exact congrArg _ (spendMessages_map (carryTo s L) (carryTo_bare s L) _ _)

theorem afterChunk_utxos (s : Synchronizer P) (L : List H) (ts : List (TxAt H))
    (rs : List (Receipt H)) :
    (afterChunk s L ts rs).utxos =
      ((inserted s (notesOf rs)).filter fun u => u.key ∉ spentKeys P s.accounts ts).map
        (carryTo s L) := by
  simp [afterChunk, spendTxs_eq, trackedAfter, inserted, List.filter_map, Function.comp_def]

/-! ### Two chunks and their concatenation -/

section TwoChunks
variable (s : Synchronizer P) (L1 L2 : List H) (ts1 ts2 : List (TxAt H))
  (xs ys : List (Receipt H))

/-- No note received in the second list of transactions has a nullifier of the first. -/
def Fresh (accounts : List ℕ) (ts1 : List (TxAt H)) (notes : List (Note H)) : Prop :=
  ∀ n ∈ notes, (n.account, n.nf) ∉ spentKeys P accounts ts1

omit [DecidableEq H] [Inhabited H] in
theorem notesOf_append (xs ys : List (Receipt H)) :
    notesOf (xs ++ ys) = notesOf xs ++ notesOf ys := by
  simp [notesOf]

theorem inserted_append (ms ns : List (Note H)) :
    inserted s (ms ++ ns) = (ns.map (received s.pool)).foldl insertUtxo (inserted s ms) := by
  simp [inserted]

omit [DecidableEq H] [Inhabited H] in
theorem spendEvents_append (accounts : List ℕ) (ts1 ts2 : List (TxAt H)) :
    spendEvents P accounts (ts1 ++ ts2) = spendEvents P accounts ts1 ++ spendEvents P accounts ts2 :=
  List.flatMap_append

omit [Inhabited H] in
theorem filter_spentKeys_append (accounts : List ℕ) (m : List (UTXO H)) :
    (m.filter fun u => u.key ∉ spentKeys P accounts (ts1 ++ ts2)) =
      (m.filter fun u => u.key ∉ spentKeys P accounts ts1).filter fun u =>
        u.key ∉ spentKeys P accounts ts2 := by
  rw [List.filter_filter]
  apply List.filter_congr
  intro u _
  have hm : u.key ∈ spentKeys P accounts (ts1 ++ ts2) ↔
      u.key ∈ spentKeys P accounts ts1 ∨ u.key ∈ spentKeys P accounts ts2 := by
    rw [spentKeys, spendEvents_append, List.map_append, List.mem_append]
    rfl
  by_cases h1 : u.key ∈ spentKeys P accounts ts1 <;>
    by_cases h2 : u.key ∈ spentKeys P accounts ts2 <;> simp [hm, h1, h2]

/-- The notes the second chunk starts from, up to the tree. -/
theorem inserted_afterChunk :
    (inserted (afterChunk s L1 ts1 xs) (notesOf ys)).map (carryTo s L2) =
      (((notesOf ys).map (received s.pool)).foldl insertUtxo
        ((inserted s (notesOf xs)).filter fun u => u.key ∉ spentKeys P s.accounts ts1)).map
          (carryTo s L2) := by
  have hpool : (afterChunk s L1 ts1 xs).pool = s.pool := rfl
  rw [inserted, afterChunk_utxos, hpool, ← insertAll_map _ (carryTo_key s L2),
    ← insertAll_map _ (carryTo_key s L2), List.map_map]
  congr 2
  exact funext fun u => carryTo_carryTo s L1 L2 u

variable {s ts1 xs ys}

theorem inserted_fresh (xs : List (Receipt H)) (hn : Fresh (P := P) s.accounts ts1 (notesOf ys)) :
    ((inserted s (notesOf (xs ++ ys))).filter fun u => u.key ∉ spentKeys P s.accounts ts1) =
        ((notesOf ys).map (received s.pool)).foldl insertUtxo
          ((inserted s (notesOf xs)).filter fun u => u.key ∉ spentKeys P s.accounts ts1) ∧
      spendMessages (inserted s (notesOf (xs ++ ys))) (spendEvents P s.accounts ts1) =
        spendMessages (inserted s (notesOf xs)) (spendEvents P s.accounts ts1) := by
  rw [notesOf_append, inserted_append]
  refine spend_insertAll _ _ _ fun u hu => ?_
  obtain ⟨n, hm, rfl⟩ := List.mem_map.1 hu
  exact hn n hm

theorem afterChunk_append (hn : Fresh (P := P) s.accounts ts1 (notesOf ys)) :
    afterChunk s L2 (ts1 ++ ts2) (xs ++ ys) =
      afterChunk (afterChunk s L1 ts1 xs) L2 ts2 ys := by
  have hut : (afterChunk s L2 (ts1 ++ ts2) (xs ++ ys)).utxos =
      (afterChunk (afterChunk s L1 ts1 xs) L2 ts2 ys).utxos := by
    have hmap : ∀ (m : List (UTXO H)), (m.filter fun u =>
        u.key ∉ spentKeys P s.accounts ts2).map (carryTo s L2) =
        (m.map (carryTo s L2)).filter fun u => u.key ∉ spentKeys P s.accounts ts2 := by
      intro m
      simp [List.filter_map, Function.comp_def]
    rw [afterChunk_utxos, afterChunk_utxos, filter_spentKeys_append, (inserted_fresh xs hn).1]
    exact (hmap _).trans ((congrArg _ (inserted_afterChunk s L1 L2 ts1 xs ys)).symm.trans
      (hmap _).symm)
  exact congrArg (fun us => { s with
    position := u32 L2.length, utxos := us, treeState := edgeOf P.hasher.nodeHash L2 }) hut

theorem events_append_perm (h1 h2 : ℕ) (hn : Fresh (P := P) s.accounts ts1 (notesOf ys)) :
    (events (chunkMessages s L2 h2 (ts1 ++ ts2) (xs ++ ys))).Perm
      (events (chunkMessages s L1 h1 ts1 xs ++
        chunkMessages (afterChunk s L1 ts1 xs) L2 h2 ts2 ys)) := by
  have hsecond : (spendMessages (inserted (afterChunk s L1 ts1 xs) (notesOf ys))
        (spendEvents P s.accounts ts2)).map stripWitness =
      (spendMessages (((notesOf ys).map (received s.pool)).foldl insertUtxo
        ((inserted s (notesOf xs)).filter fun u => u.key ∉ spentKeys P s.accounts ts1))
        (spendEvents P s.accounts ts2)).map stripWitness := by
    rw [← spendMessages_map (carryTo s L2) (carryTo_bare s L2), inserted_afterChunk,
      spendMessages_map (carryTo s L2) (carryTo_bare s L2)]
  have hacc : (afterChunk s L1 ts1 xs).accounts = s.accounts := rfl
  obtain ⟨hstore, hfirst⟩ := inserted_fresh xs hn
  rw [events_append, events_chunkMessages, events_chunkMessages, events_chunkMessages, hacc,
    hsecond, spendEvents_append, spendMessages_append, hfirst, List.flatMap_append, List.map_append]
  unfold spentKeys at hstore
  rw [hstore]
  simp only [List.append_assoc]
  refine List.Perm.append_left _ ?_
  rw [← List.append_assoc, ← List.append_assoc]
  exact List.Perm.append_right _ List.perm_append_comm

end TwoChunks

structure SameRun (a b : Synchronizer P × List (WarpSyncMessage H)) : Prop where
  state : a.1 = b.1
  reports : (events a.2).Perm (events b.2)

def ReceivedAndSpent (msgs : List (WarpSyncMessage H)) (n : Note H) : Prop :=
  .note n ∈ msgs ∧ ∃ u, .spend u ∈ msgs ∧ u.key = (n.account, n.nf)

omit [DecidableEq H] in
theorem ReceivedAndSpent.of_perm {xs ys : List (WarpSyncMessage H)} {n : Note H}
    (hp : (events xs).Perm (events ys)) (hr : ReceivedAndSpent xs n) : ReceivedAndSpent ys n := by
  obtain ⟨hn, u, hu, hk⟩ := hr
  refine ⟨mem_note_events.1 (hp.subset (mem_note_events.2 hn)), ?_⟩
  obtain ⟨v, hv, hkv⟩ := spend_of_events (hp.subset (spend_mem_events hu))
  exact ⟨v, hv, hkv.trans hk⟩

theorem note_mem_chunkMessages {s : Synchronizer P} {L : List H} {height : ℕ} {ts : List (TxAt H)}
    {rs : List (Receipt H)} {n : Note H} (hn : n ∈ notesOf rs) :
    .note n ∈ chunkMessages s L height ts rs := by
  unfold chunkMessages
  refine List.mem_append_left _ (List.mem_append_left _ (List.mem_append_left _ ?_))
  exact mem_noteMessages hn

theorem chunkMessages_receivedAndSpent (s : Synchronizer P) (L : List H) (height : ℕ)
    (ts : List (TxAt H)) (rs : List (Receipt H)) (n : Note H)
    (hn : .note n ∈ chunkMessages s L height ts rs)
    (hk : (n.account, n.nf) ∈ spentKeys P s.accounts ts) :
    ReceivedAndSpent (chunkMessages s L height ts rs) n := by
  refine ⟨hn, ?_⟩
  have hmem : received s.pool n ∈ (notesOf rs).map (received s.pool) :=
    List.mem_map_of_mem (mem_note_chunkMessages hn)
  have hkey : (n.account, n.nf) ∈ (trackedAfter s L (notesOf rs)).map UTXO.key := by
    rw [trackedAfter, List.map_map, show UTXO.key ∘ carryTo s L = UTXO.key from
      funext (carryTo_key s L), keys_insertAll]
    exact Or.inr (List.mem_map_of_mem (f := UTXO.key) hmem)
  obtain ⟨u, hu, hku⟩ := exists_spend hk hkey
  refine ⟨u, ?_, hku⟩
  rw [chunkMessages, spendTxs_eq]
  exact List.mem_append_left _ (List.mem_append_right _ hu)

section Cut
variable (assetBaseOf : AssetBaseOf) (s : Synchronizer P)

/-- A chain reveals a nullifier only after the commitment of its note. -/
def RevealedAfterReceipt (b1 b2 : List (CompactBlock H)) : Prop :=
  ∀ xs ys, receive assetBaseOf s.keys s.position (chunkTxs b1) = .ok xs →
    receive assetBaseOf s.keys (u32 (s.position + (leavesOf xs).length)) (chunkTxs b2) = .ok ys →
    Fresh (P := P) s.accounts (chunkTxs b1) (notesOf ys)

/-- A note that the blocks bring to an account of the synchronizer. -/
def ReceivedIn (blocks : List (CompactBlock H)) (n : Note H) : Prop :=
  ∃ rs, receive assetBaseOf s.keys s.position (chunkTxs blocks) = .ok rs ∧ n ∈ notesOf rs

/-- The commitments of the blocks fit behind `L` in the tree. -/
def Fits (L : List H) (blocks : List (CompactBlock H)) : Prop :=
  ∀ M, commitments P assetBaseOf (chunkTxs blocks) = .ok M → (L ++ M).length < 2 ^ 32

variable {assetBaseOf s}

omit [DecidableEq H] [Inhabited H] in
theorem Ascending.append {b1 b2 : List (CompactBlock H)} (ha : Ascending (b1 ++ b2)) :
    Ascending b1 ∧ Ascending b2 :=
  ⟨(List.pairwise_append.1 ha).1, (List.pairwise_append.1 ha).2.1⟩

/-- The two runs on non-empty chunks, once their receipts are known. -/
theorem sameRun_of_receive (hP : P.Lawful) {L : List H} (hs : s.Consistent L)
    {b1 b2 : List (CompactBlock H)} (ha : Ascending (b1 ++ b2)) (h1 : b1 ≠ []) (h2 : b2 ≠ [])
    {xs ys : List (Receipt H)}
    (hx : receive assetBaseOf s.keys s.position (chunkTxs b1) = .ok xs)
    (hy : receive assetBaseOf s.keys (u32 (s.position + (leavesOf xs).length)) (chunkTxs b2) =
      .ok ys)
    (hfit : (L ++ leavesOf (xs ++ ys)).length < 2 ^ 32)
    (hfresh : Fresh (P := P) s.accounts (chunkTxs b1) (notesOf ys)) :
    ∃ one two, s.add assetBaseOf (b1 ++ b2) = .ok one ∧
      s.addAll assetBaseOf [b1, b2] = .ok two ∧ SameRun one two := by
  have ha' := ha.append
  have hl1 := List.getLast?_eq_some_getLast h1
  have hl2 := List.getLast?_eq_some_getLast h2
  have hl : (b1 ++ b2).getLast? = some (b2.getLast h2) := by
    rw [List.getLast?_append, hl2]
    rfl
  rw [leavesOf_append, ← List.append_assoc] at hfit
  have hfit1 : (L ++ leavesOf xs).length < 2 ^ 32 := by
    rw [List.length_append] at hfit
    omega
  have hL : L.length < 2 ^ 32 := by
    rw [List.length_append] at hfit1
    omega
  have hpos : u32 (s.position + (leavesOf xs).length) = u32 (L ++ leavesOf xs).length := by
    rw [hs.position, List.length_append]
  have hboth : receive assetBaseOf s.keys s.position (chunkTxs (b1 ++ b2)) = .ok (xs ++ ys) := by
    rw [chunkTxs_append]
    refine (receive_append_ok _ _ _ _ _ _ ?_).2 ⟨xs, ys, hx, hy, rfl⟩
    rw [hs.position, u32_of_lt hL]
  have hone := add_ok hP assetBaseOf s L hs (b1 ++ b2) ha _ hl (xs ++ ys) hboth hL
    (by rw [leavesOf_append, ← List.append_assoc]; exact le_of_lt hfit)
  have hadd1 := add_ok hP assetBaseOf s L hs b1 ha'.1 _ hl1 xs hx hL (le_of_lt hfit1)
  have hs1 := afterChunk_consistent hP assetBaseOf s L hs (chunkTxs b1) xs hx hfit1
  rw [hpos] at hy
  have hadd2 := add_ok hP assetBaseOf _ _ hs1 b2 ha'.2 _ hl2 ys hy hfit1 (le_of_lt hfit)
  rw [leavesOf_append, ← List.append_assoc, chunkTxs_append] at hone
  refine ⟨_, _, hone, (addAll_cons_ok _ _ _ _ _).2 ⟨_, _, hadd1,
    (addAll_cons_ok _ _ _ _ _).2 ⟨_, _, hadd2, rfl, rfl⟩, rfl⟩, ?_, ?_⟩
  · exact afterChunk_append _ _ _ hfresh
  · rw [List.append_nil]
    exact events_append_perm _ _ _ _ _ hfresh

/-- What `add` sends when it succeeds, with the receipts of its scan. -/
theorem add_messages (hP : P.Lawful) {L : List H} (hs : s.Consistent L)
    {blocks : List (CompactBlock H)} (ha : Ascending blocks)
    (hfit : Fits (P := P) assetBaseOf L blocks)
    {one : Synchronizer P × List (WarpSyncMessage H)} (hadd : s.add assetBaseOf blocks = .ok one) :
    blocks = [] ∨ ∃ rs height, receive assetBaseOf s.keys s.position (chunkTxs blocks) = .ok rs ∧
      one.2 = chunkMessages s (L ++ leavesOf rs) height (chunkTxs blocks) rs := by
  obtain ⟨rs, hr⟩ := add_receive hP assetBaseOf s one.1 blocks ha one.2 hadd
  have hlen := hfit _ (receive_commitments hr)
  cases hlast : blocks.getLast? with
  | none => exact .inl (List.getLast?_eq_none_iff.1 hlast)
  | some last =>
    have hL : L.length < 2 ^ 32 := by rw [List.length_append] at hlen; omega
    rw [add_ok hP assetBaseOf s L hs blocks ha last hlast rs hr hL (le_of_lt hlen),
      Except.ok.injEq] at hadd
    subst hadd
    exact .inr ⟨rs, last.height, hr, rfl⟩

theorem add_receivedAndSpent (hP : P.Lawful) {L : List H} (hs : s.Consistent L)
    {blocks : List (CompactBlock H)} (ha : Ascending blocks)
    (hfit : Fits (P := P) assetBaseOf L blocks)
    {one : Synchronizer P × List (WarpSyncMessage H)} (hadd : s.add assetBaseOf blocks = .ok one)
    {n : Note H} (hn : .note n ∈ one.2)
    (hk : (n.account, n.nf) ∈ spentKeys P s.accounts (chunkTxs blocks)) :
    ReceivedAndSpent one.2 n := by
  rcases add_messages hP hs ha hfit hadd with rfl | ⟨rs, height, -, hsent⟩
  · simp [spentKeys, spendEvents, chunkTxs] at hk
  · rw [hsent] at hn ⊢
    exact chunkMessages_receivedAndSpent s _ _ _ _ n hn hk

/-- Every note of the blocks is reported, also one of the first blocks alone. -/
theorem add_reports (hP : P.Lawful) {L : List H} (hs : s.Consistent L)
    {b1 b2 : List (CompactBlock H)} (ha : Ascending (b1 ++ b2))
    (hfit : Fits (P := P) assetBaseOf L (b1 ++ b2))
    {one : Synchronizer P × List (WarpSyncMessage H)}
    (hadd : s.add assetBaseOf (b1 ++ b2) = .ok one) {n : Note H}
    (hn : ReceivedIn assetBaseOf s b1 n) : .note n ∈ one.2 := by
  obtain ⟨xs, hx, hmem⟩ := hn
  rcases add_messages hP hs ha hfit hadd with hnil | ⟨rs, height, hr, hsent⟩
  · obtain ⟨rfl, -⟩ := List.append_eq_nil_iff.1 hnil
    obtain rfl : [] = xs := Except.ok.inj hx
    exact absurd hmem List.not_mem_nil
  · have hlen := hfit _ (receive_commitments hr)
    have hu : u32 s.position = s.position := by
      rw [hs.position]
      rw [List.length_append] at hlen
      exact u32_of_lt (by omega)
    rw [chunkTxs_append] at hr
    obtain ⟨xs', ys, hx', -, rfl⟩ := (receive_append_ok _ _ _ _ _ _ hu).1 hr
    obtain rfl : xs' = xs := Except.ok.inj (hx'.symm.trans hx)
    rw [hsent]
    exact note_mem_chunkMessages (List.mem_flatMap.2 ((List.mem_flatMap.1 hmem).imp fun _ hr =>
      ⟨List.mem_append_left _ hr.1, hr.2⟩))

theorem addAll_pair_ok (b1 b2 : List (CompactBlock H))
    (two : Synchronizer P × List (WarpSyncMessage H)) :
    s.addAll assetBaseOf [b1, b2] = .ok two ↔
      ∃ a b, s.add assetBaseOf b1 = .ok a ∧ a.1.add assetBaseOf b2 = .ok b ∧
        two = (b.1, a.2 ++ b.2) := by
  rw [addAll_cons_ok]
  constructor
  · rintro ⟨a, b, ha, hb, rfl⟩
    obtain ⟨c, d, hc, hd, rfl⟩ := (addAll_cons_ok _ _ _ _ _).1 hb
    obtain rfl : (c.1, []) = d := Except.ok.inj hd
    exact ⟨a, c, ha, hc, by rw [List.append_nil]⟩
  · rintro ⟨a, c, ha, hc, rfl⟩
    exact ⟨a, (c.1, c.2 ++ []), ha, (addAll_cons_ok _ _ _ _ _).2 ⟨c, (c.1, []), hc, rfl, rfl⟩,
      by rw [List.append_nil]⟩

omit [DecidableEq H] in
theorem SameRun.refl (a : Synchronizer P × List (WarpSyncMessage H)) :
    SameRun a a :=
  ⟨rfl, List.Perm.refl _⟩

theorem addAll_pair_of_empty {b1 b2 : List (CompactBlock H)} (he : b1 = [] ∨ b2 = [])
    (o : Synchronizer P × List (WarpSyncMessage H)) :
    s.addAll assetBaseOf [b1, b2] = .ok o ↔ s.add assetBaseOf (b1 ++ b2) = .ok o := by
  rw [addAll_pair_ok]
  rcases he with rfl | rfl
  · constructor
    · rintro ⟨a, b, hadd, hb, rfl⟩
      obtain rfl : (s, []) = a := Except.ok.inj hadd
      exact hb
    · intro ho
      exact ⟨(s, []), o, rfl, ho, rfl⟩
  · rw [List.append_nil]
    constructor
    · rintro ⟨a, b, hadd, hb, rfl⟩
      obtain rfl : (a.1, []) = b := Except.ok.inj hb
      rw [hadd, List.append_nil]
    · intro ho
      exact ⟨o, (o.1, []), ho, rfl, by rw [List.append_nil]⟩

omit [DecidableEq H] [Inhabited H] in
theorem Fits.of_receipts {L : List H} {b1 b2 : List (CompactBlock H)}
    (hfit : Fits (P := P) assetBaseOf L (b1 ++ b2)) {M1 M2 : List H}
    (h1 : commitments P assetBaseOf (chunkTxs b1) = .ok M1)
    (h2 : commitments P assetBaseOf (chunkTxs b2) = .ok M2) :
    (L ++ (M1 ++ M2)).length < 2 ^ 32 := by
  apply hfit
  rw [chunkTxs_append]
  exact (flatMapM_append_ok _ _ _ _).2 ⟨M1, M2, h1, h2, rfl⟩

theorem receipts_of_run (hP : P.Lawful) {L : List H} (hs : s.Consistent L)
    {b1 b2 : List (CompactBlock H)} (ha : Ascending (b1 ++ b2)) (h1 : b1 ≠ [])
    (hfit : Fits (P := P) assetBaseOf L (b1 ++ b2))
    (hrun : (∃ o, s.add assetBaseOf (b1 ++ b2) = .ok o) ∨
      ∃ o, s.addAll assetBaseOf [b1, b2] = .ok o) :
    ∃ xs ys, receive assetBaseOf s.keys s.position (chunkTxs b1) = .ok xs ∧
      receive assetBaseOf s.keys (u32 (s.position + (leavesOf xs).length)) (chunkTxs b2) =
        .ok ys := by
  rcases hrun with ⟨o, ho⟩ | ⟨o, ho⟩
  · obtain ⟨rs, hr⟩ := add_receive hP assetBaseOf s o.1 (b1 ++ b2) ha o.2 ho
    have hlen := hfit _ (receive_commitments hr)
    have hu : u32 s.position = s.position := by
      rw [hs.position]
      rw [List.length_append] at hlen
      exact u32_of_lt (by omega)
    rw [chunkTxs_append] at hr
    obtain ⟨xs, ys, hx, hy, -⟩ := (receive_append_ok _ _ _ _ _ _ hu).1 hr
    exact ⟨xs, ys, hx, hy⟩
  · obtain ⟨a, b, hadd1, hadd2, rfl⟩ := (addAll_pair_ok _ _ _).1 ho
    obtain ⟨xs, hx⟩ := add_receive hP assetBaseOf s a.1 b1 ha.append.1 a.2 hadd1
    obtain ⟨ys, hy⟩ := add_receive hP assetBaseOf a.1 b.1 b2 ha.append.2 b.2 hadd2
    have hlen := hfit.of_receipts (receive_commitments hx) (receive_commitments hy)
    have hfit1 : L.length + (leavesOf xs).length < 2 ^ 32 := by
      simp only [List.length_append] at hlen
      omega
    rw [add_ok hP assetBaseOf s L hs b1 ha.append.1 _ (List.getLast?_eq_some_getLast h1) xs hx
      (by omega) (by rw [List.length_append]; omega), Except.ok.injEq] at hadd1
    subst hadd1
    refine ⟨xs, ys, hx, ?_⟩
    have hpos : u32 (s.position + (leavesOf xs).length) = u32 (L ++ leavesOf xs).length := by
      rw [hs.position, List.length_append]
    rw [hpos]
    exact hy

/-- Cutting a list of blocks in two changes nothing: both runs succeed or fail together,
    end in the same state, and report the same notes, transactions and spends; a note, of the first
    part or any other, whose nullifier is revealed in the second part is reported as received and
    spent by both. -/
theorem add_append (hP : P.Lawful) {L : List H} (hs : s.Consistent L)
    {b1 b2 : List (CompactBlock H)} (ha : Ascending (b1 ++ b2))
    (hfit : Fits (P := P) assetBaseOf L (b1 ++ b2))
    (hrev : RevealedAfterReceipt assetBaseOf s b1 b2) :
    ((∃ one, s.add assetBaseOf (b1 ++ b2) = .ok one) ↔
        ∃ two, s.addAll assetBaseOf [b1, b2] = .ok two) ∧
      ∀ one two, s.add assetBaseOf (b1 ++ b2) = .ok one →
        s.addAll assetBaseOf [b1, b2] = .ok two → SameRun one two ∧
          ∀ n, ReceivedIn assetBaseOf s b1 n ∨ .note n ∈ one.2 →
            (n.account, n.nf) ∈ spentKeys P s.accounts (chunkTxs b2) →
            ReceivedAndSpent one.2 n ∧ ReceivedAndSpent two.2 n := by
  have hsame : ((∃ one, s.add assetBaseOf (b1 ++ b2) = .ok one) ↔
        ∃ two, s.addAll assetBaseOf [b1, b2] = .ok two) ∧
      ∀ one two, s.add assetBaseOf (b1 ++ b2) = .ok one →
        s.addAll assetBaseOf [b1, b2] = .ok two → SameRun one two := by
    by_cases he : b1 = [] ∨ b2 = []
    · refine ⟨exists_congr fun o => (addAll_pair_of_empty he o).symm, fun one two h1 h2 => ?_⟩
      rw [addAll_pair_of_empty he, h1, Except.ok.injEq] at h2
      exact h2 ▸ SameRun.refl one
    · obtain ⟨h1, h2⟩ := not_or.1 he
      have hrun : ∀ xs ys, receive assetBaseOf s.keys s.position (chunkTxs b1) = .ok xs →
          receive assetBaseOf s.keys (u32 (s.position + (leavesOf xs).length)) (chunkTxs b2) =
            .ok ys →
          ∃ o t, s.add assetBaseOf (b1 ++ b2) = .ok o ∧
            s.addAll assetBaseOf [b1, b2] = .ok t ∧ SameRun o t := by
        intro xs ys hx hy
        refine sameRun_of_receive hP hs ha h1 h2 hx hy ?_ (hrev xs ys hx hy)
        rw [leavesOf_append]
        exact hfit.of_receipts (receive_commitments hx) (receive_commitments hy)
      refine ⟨⟨fun ho => ?_, fun ho => ?_⟩, fun one two hone htwo => ?_⟩
      · obtain ⟨xs, ys, hx, hy⟩ := receipts_of_run hP hs ha h1 hfit (Or.inl ho)
        obtain ⟨-, t, -, ht, -⟩ := hrun xs ys hx hy
        exact ⟨t, ht⟩
      · obtain ⟨xs, ys, hx, hy⟩ := receipts_of_run hP hs ha h1 hfit (Or.inr ho)
        obtain ⟨o, -, hadd, -, -⟩ := hrun xs ys hx hy
        exact ⟨o, hadd⟩
      · obtain ⟨xs, ys, hx, hy⟩ := receipts_of_run hP hs ha h1 hfit (Or.inl ⟨one, hone⟩)
        obtain ⟨o, t, hadd, ht, hot⟩ := hrun xs ys hx hy
        obtain rfl : o = one := Except.ok.inj (hadd.symm.trans hone)
        obtain rfl : t = two := Except.ok.inj (ht.symm.trans htwo)
        exact hot
  refine ⟨hsame.1, fun one two hone htwo => ?_⟩
  have hot := hsame.2 one two hone htwo
  refine ⟨hot, fun n hn hk => ?_⟩
  have hk' : (n.account, n.nf) ∈ spentKeys P s.accounts (chunkTxs (b1 ++ b2)) := by
    rw [chunkTxs_append, spentKeys, spendEvents_append, List.map_append]
    exact List.mem_append_right _ hk
  have hnote : .note n ∈ one.2 := hn.elim (add_reports hP hs ha hfit hone) id
  have hone' := add_receivedAndSpent hP hs ha hfit hone hnote hk'
  exact ⟨hone', hone'.of_perm hot.reports⟩

end Cut

/-! ### Instances -/

def outputBlocks (height : ℕ) (ivk : UInt8) : List (CompactBlock ℕ) :=
  [sampleBlock height [sampleTx 1 [] [sampleOutput ivk 5]]]

/-- Reveals the nullifier of the sample account's note at position 0. -/
def spendBlocks (height : ℕ) : List (CompactBlock ℕ) := [sampleBlock height [sampleTx 2 [1000] []]]

/-- A note received in one chunk and spent in the next. -/
theorem add_append_sample :
    ∃ one two n, sampleSynchronizer.add sampleAssetBase (outputBlocks 1 7 ++ spendBlocks 2) = .ok one ∧
      sampleSynchronizer.addAll sampleAssetBase [outputBlocks 1 7, spendBlocks 2] = .ok two ∧
      SameRun one two ∧ ReceivedIn sampleAssetBase sampleSynchronizer (outputBlocks 1 7) n ∧
      n.nf = 1000 ∧ ReceivedAndSpent one.2 n ∧ ReceivedAndSpent two.2 n := by
  obtain ⟨one, hone⟩ := exists_ok
    (x := sampleSynchronizer.add sampleAssetBase (outputBlocks 1 7 ++ spendBlocks 2))
    (by rfl)
  have hasc : Ascending (outputBlocks 1 7 ++ spendBlocks 2) := by
    simp [outputBlocks, spendBlocks, Ascending, sampleBlock]
  have hfit : Fits (P := sampleProtocol) sampleAssetBase [] (outputBlocks 1 7 ++ spendBlocks 2) := by
    intro M hM
    obtain rfl : [5] = M := Except.ok.inj (Eq.trans (by rfl) hM)
    decide
  have hmain := add_append (saplingProtocol_lawful sampleCrypto) sampleSynchronizer_consistent hasc
    hfit
    (fun xs ys _ _ n _ hk => by
      have hnone : spentKeys sampleProtocol sampleSynchronizer.accounts (chunkTxs (outputBlocks 1 7)) =
          [] := rfl
      rw [hnone] at hk
      simp at hk)
  obtain ⟨two, htwo⟩ := hmain.1.1 ⟨one, hone⟩
  obtain ⟨hsame, hspent⟩ := hmain.2 one two hone htwo
  obtain ⟨n, hn, hkey⟩ : ∃ n, ReceivedIn sampleAssetBase sampleSynchronizer (outputBlocks 1 7) n ∧
      (n.account, n.nf) = (1, 1000) := ⟨_, ⟨_, rfl, List.mem_cons_self⟩, rfl⟩
  have hrevealed : (1, 1000) ∈ spentKeys sampleProtocol sampleSynchronizer.accounts
      (chunkTxs (spendBlocks 2)) := by decide
  exact ⟨one, two, n, hone, htwo, hsame, hn, congrArg Prod.snd hkey,
    hspent n (.inl hn) (hkey ▸ hrevealed)⟩

def spendsOf (r : Except Fault (Synchronizer sampleProtocol × List (WarpSyncMessage ℕ))) :
    Option (List (ℕ × Option ℕ)) :=
  match r with
  | .ok o => some (o.2.filterMap fun
    | .spend u => some (u.nullifier, u.witness.ommers 0)
    | _ => none)
  | .error _ => none

theorem spendsOf_mem (r : Except Fault (Synchronizer sampleProtocol × List (WarpSyncMessage ℕ)))
    (xs : List (ℕ × Option ℕ)) (hr : spendsOf r = some xs) :
    ∃ o, r = .ok o ∧ ∀ x, x ∈ xs ↔ ∃ u, .spend u ∈ o.2 ∧ (u.nullifier, u.witness.ommers 0) = x := by
  cases r with
  | error e => simp [spendsOf] at hr
  | ok o =>
    simp only [spendsOf, Option.some.injEq] at hr
    refine ⟨o, rfl, fun x => ?_⟩
    rw [← hr, List.mem_filterMap]
    constructor
    · rintro ⟨m, hm, he⟩
      cases m <;> simp at he
      exact ⟨_, hm, by simpa using he⟩
    · rintro ⟨u, hu, rfl⟩
      exact ⟨_, hu, rfl⟩

/-- The cut shows in two ways: in the witness inside a spend message, and in a nullifier
    revealed before its note, which only a single chunk connects with the note. -/
theorem cut_shows :
    sampleSynchronizer.Consistent [] ∧
    (∃ one two,
      sampleSynchronizer.add sampleAssetBase
        ((outputBlocks 1 7 ++ spendBlocks 2) ++ outputBlocks 3 8) = .ok one ∧
      sampleSynchronizer.addAll sampleAssetBase
        [outputBlocks 1 7 ++ spendBlocks 2, outputBlocks 3 8] = .ok two ∧
      ∃ u, .spend u ∈ one.2 ∧ .spend u ∉ two.2) ∧
    (∃ one two,
      sampleSynchronizer.add sampleAssetBase (spendBlocks 1 ++ outputBlocks 2 7) = .ok one ∧
      sampleSynchronizer.addAll sampleAssetBase [spendBlocks 1, outputBlocks 2 7] = .ok two ∧
      (∃ u, .spend u ∈ one.2) ∧ ∀ u, .spend u ∉ two.2) := by
  refine ⟨sampleSynchronizer_consistent, ?_, ?_⟩
  · obtain ⟨one, hone, h1⟩ := spendsOf_mem (sampleSynchronizer.add sampleAssetBase
      ((outputBlocks 1 7 ++ spendBlocks 2) ++ outputBlocks 3 8)) [(1000, some 5)]
      (by rfl)
    obtain ⟨two, htwo, h2⟩ := spendsOf_mem (sampleSynchronizer.addAll sampleAssetBase
      [outputBlocks 1 7 ++ spendBlocks 2, outputBlocks 3 8]) [(1000, none)]
      (by rfl)
    obtain ⟨u, hu, hx⟩ := (h1 _).1 (List.mem_singleton_self _)
    refine ⟨one, two, hone, htwo, u, hu, fun hu2 => ?_⟩
    have hmem := (h2 (u.nullifier, u.witness.ommers 0)).2 ⟨u, hu2, rfl⟩
    rw [hx] at hmem
    simp at hmem
  · obtain ⟨one, hone, h1⟩ := spendsOf_mem (sampleSynchronizer.add sampleAssetBase
      (spendBlocks 1 ++ outputBlocks 2 7)) [(1000, none)] (by rfl)
    obtain ⟨two, htwo, h2⟩ := spendsOf_mem (sampleSynchronizer.addAll sampleAssetBase
      [spendBlocks 1, outputBlocks 2 7]) [] (by rfl)
    obtain ⟨u, hu, -⟩ := (h1 _).1 (List.mem_singleton_self _)
    refine ⟨one, two, hone, htwo, ⟨u, hu⟩, fun v hv => ?_⟩
    have hmem := (h2 _).2 ⟨v, hv, rfl⟩
    simp at hmem

end ZcashSdk.Shielded
