import ZcashSdk.Shielded.Commitments
import ZcashSdk.Shielded.Sample
import ZcashSdk.Shielded.Tracked
import ZcashSdk.Shielded.TreeAdvance

set_option autoImplicit false

/-!
# The note commitment tree is maintained

A synchronizer is consistent for a list of commitments when its position, its edge and
the witnesses of its tracked notes are those of the naive tree over the list. `add`
takes it to the list extended by the chunk's commitments. The witnesses are required to
hold exactly the siblings that are complete: a witness that merely recomputes the root
may hold an empty subtree that a later chunk fills.
-/
namespace ZcashSdk.Shielded
open Loops MerkleTree

variable {H : Type} {P : ShieldedProtocol H}

def edgeOf (h : NodeHash H) (L : List H) : Edge H := fun k => frontier h L k.val

structure Synchronizer.Consistent (s : Synchronizer P) (L : List H) : Prop where
  position : s.position = L.length
  treeState : s.treeState = edgeOf P.hasher.nodeHash L
  tracks : ∀ u ∈ s.utxos, u.Tracks P.hasher.nodeHash L

/-- The root that a note's witness gives from the note's own leaf position when the edge
    completes it. -/
def UTXO.rootFrom (h : NodeHash H) (edge : Edge H) (u : UTXO H) : H :=
  climb h u.position u.witness.value (completedPath h (Edge.slot edge) (Edge.slot u.witness.ommers))
    merkleDepth

theorem completedPath_congr (h : NodeHash H) {e e' o o' : ℕ → Option H} {n : ℕ}
    (he : ∀ d < n, e d = e' d) (ho : ∀ d < n, o d = o' d) {d : ℕ} (hd : d < n) :
    completedPath h e o d = completedPath h e' o' d := by
  have hfill : ∀ k ≤ d, fillingRoot h e k = fillingRoot h e' k := by
    intro k hk
    induction k with
    | zero => rfl
    | succ k ih => rw [fillingRoot, fillingRoot, he k (by omega), ih (by omega)]
  have hmiss : (∃ k < d, o k = none) ↔ ∃ k < d, o' k = none := by
    constructor
    · rintro ⟨k, hk, hn⟩
      exact ⟨k, hk, by rw [← ho k (by omega)]; exact hn⟩
    · rintro ⟨k, hk, hn⟩
      exact ⟨k, hk, by rw [ho k (by omega)]; exact hn⟩
  unfold completedPath
  simp only [ho d hd, hmiss, hfill d le_rfl]

theorem climb_congr (h : NodeHash H) (p : ℕ) (x : H) {path path' : ℕ → H} {n : ℕ}
    (hp : ∀ d < n, path d = path' d) : climb h p x path n = climb h p x path' n := by
  induction n with
  | zero => rfl
  | succ n ih => rw [climb, climb, hp n (by omega), ih fun d hd => hp d (by omega)]

theorem Synchronizer.Consistent.rootFrom {s : Synchronizer P} {L : List H} (hs : s.Consistent L)
    (hfit : L.length ≤ 2 ^ 32) {u : UTXO H} (hu : u ∈ s.utxos) :
    u.rootFrom P.hasher.nodeHash s.treeState = root P.hasher.nodeHash merkleDepth L := by
  have ht := hs.tracks u hu
  rw [← climb_completedPath P.hasher.nodeHash merkleDepth L u.witness.position ht.inTree hfit,
    UTXO.rootFrom, ht.value, ← ht.position]
  refine climb_congr _ _ _ fun d hd => completedPath_congr _ (n := merkleDepth) ?_ ?_ hd
  · intro k hk
    rw [hs.treeState, Edge.slot, dif_pos hk]
    rfl
  · intro k hk
    rw [ht.ommers, Edge.slot, dif_pos hk]
    rfl

section Chunk
variable [DecidableEq H] [Inhabited H]

/-! ### What a chunk does to the tracked notes -/

/-- A note as it is first tracked, before the tree gives it siblings. -/
def received (pool : ℕ) (n : Note H) : UTXO H :=
  { toUtxo pool n with witness :=
      { (Witness.default : Witness H) with value := n.cmx, position := n.position } }

def withOmmers (h : NodeHash H) (L : List H) (u : UTXO H) : UTXO H :=
  { u with witness := { u.witness with ommers := ommersOf h L u.witness.position } }

/-- A tracked note brought up to date with the tree over `L`. -/
def carryTo (s : Synchronizer P) (L : List H) (u : UTXO H) : UTXO H :=
  refreshAnchor s (edgeOf P.hasher.nodeHash L) (withOmmers P.hasher.nodeHash L u)

omit [Inhabited H] [DecidableEq H] in
theorem refreshAnchor_fields (s : Synchronizer P) (e : Edge H) (u : UTXO H) :
    (refreshAnchor s e u).account = u.account ∧ (refreshAnchor s e u).nullifier = u.nullifier ∧
      (refreshAnchor s e u).position = u.position ∧
      (refreshAnchor s e u).witness.position = u.witness.position ∧
      (refreshAnchor s e u).witness.value = u.witness.value ∧
      (refreshAnchor s e u).witness.ommers = u.witness.ommers := by
  unfold refreshAnchor
  split_ifs <;> simp

omit [Inhabited H] [DecidableEq H] in
@[simp] theorem carryTo_key (s : Synchronizer P) (L : List H) (u : UTXO H) :
    (carryTo s L u).key = u.key := by
  obtain ⟨h1, h2, -⟩ := refreshAnchor_fields s (edgeOf P.hasher.nodeHash L)
    (withOmmers P.hasher.nodeHash L u)
  unfold UTXO.key carryTo
  rw [h1, h2]
  rfl

omit [Inhabited H] [DecidableEq H] in
theorem carryTo_tracks (s : Synchronizer P) (L : List H) (u : UTXO H)
    (hp : u.witness.position = u.position)
    (hv : L[u.witness.position]? = some u.witness.value) :
    (carryTo s L u).Tracks P.hasher.nodeHash L := by
  obtain ⟨-, -, h3, h4, h5, h6⟩ := refreshAnchor_fields s (edgeOf P.hasher.nodeHash L)
    (withOmmers P.hasher.nodeHash L u)
  have hin := (List.getElem?_eq_some_iff.1 hv).1
  refine ⟨?_, ?_, ?_, ?_⟩
  · exact h4.trans (hp.trans h3.symm)
  · exact h4 ▸ hin
  · rw [carryTo, h5, h4]
    simp [withOmmers, List.getD_eq_getElem?_getD, hv]
  · rw [carryTo, h6, h4]
    rfl

def trackedAfter (s : Synchronizer P) (L : List H) (notes : List (Note H)) : List (UTXO H) :=
  ((notes.map (received s.pool)).foldl insertUtxo s.utxos).map (carryTo s L)

/-- The state `add` reaches with these receipts. -/
def afterChunk (s : Synchronizer P) (L : List H) (ts : List (TxAt H)) (rs : List (Receipt H)) :
    Synchronizer P :=
  { s with
    position := u32 L.length
    utxos := (spendTxs P s.accounts ts (trackedAfter s L (notesOf rs))).1
    treeState := edgeOf P.hasher.nodeHash L }

def chunkMessages (s : Synchronizer P) (L : List H) (height : ℕ) (ts : List (TxAt H))
    (rs : List (Receipt H)) : List (WarpSyncMessage H) :=
  rs.flatMap Receipt.messages ++
    (trackedAfter s L (notesOf rs)).map (witnessMessage height) ++
    (spendTxs P s.accounts ts (trackedAfter s L (notesOf rs))).2 ++
    [.checkpoint s.accounts s.pool height]

/-! ### The spec of `add` -/

omit [DecidableEq H] in
/-- The level loop leaves a new note as a received one with its siblings. -/
theorem refreshNew_toUtxo (h : NodeHash H) (L : List H) (pool : ℕ) (n : Note H)
    (hn : L[n.position]? = some n.cmx) :
    refreshNew h L merkleDepth (toUtxo pool n) = withOmmers h L (received pool n) := by
  have hv : L.getD n.position h.uncommitted = n.cmx := by
    simp [List.getD_eq_getElem?_getD, hn]
  simp only [refreshNew, ommersUpTo_depth, toUtxo, withOmmers, received, hv]
  rfl

omit [DecidableEq H] [Inhabited H] in
theorem refreshOld_depth (h : NodeHash H) (L : List H) (u : UTXO H) :
    refreshOld h L merkleDepth u = withOmmers h L u := by
  simp only [refreshOld, ommersUpTo_depth, withOmmers]

theorem u32_of_lt {n : ℕ} (hn : n < 2 ^ 32) : u32 n = n := Nat.mod_eq_of_lt hn

/-- `add` on a consistent state: it succeeds as soon as the scan does. -/
theorem add_ok (hP : P.Lawful) (assetBaseOf : AssetBaseOf) (s : Synchronizer P) (L : List H)
    (hs : s.Consistent L) (blocks : List (CompactBlock H)) (ha : Ascending blocks)
    (last : CompactBlock H) (hlast : blocks.getLast? = some last) (rs : List (Receipt H))
    (hr : receive assetBaseOf s.keys s.position (chunkTxs blocks) = .ok rs)
    (hL : L.length < 2 ^ 32) (hfit : (L ++ leavesOf rs).length ≤ 2 ^ 32) :
    s.add assetBaseOf blocks =
      .ok (afterChunk s (L ++ leavesOf rs) (chunkTxs blocks) rs,
        chunkMessages s (L ++ leavesOf rs) last.height (chunkTxs blocks) rs) := by
  have hscan := (scanNotes_ok_iff hP assetBaseOf s blocks ha _).2 ⟨rs, hr, rfl⟩
  have hcollect := collectCmxs_receive ha hr
  have hnotes : ∀ n ∈ notesOf rs, L.length ≤ n.position ∧
      (L ++ leavesOf rs)[n.position]? = some n.cmx := by
    intro n hn
    rw [hs.position, ← u32_of_lt hL] at hr
    exact receive_leaf hP hfit hr hn
  obtain ⟨t, ht, hnew, hold, hedge⟩ := advanceTree_ok s L (leavesOf rs)
    ((notesOf rs).map (toUtxo s.pool)) hs.position (fun k => by rw [hs.treeState]; rfl) hs.tracks
    (fun u hu => by
      obtain ⟨n, hn, rfl⟩ := List.mem_map.1 hu
      obtain ⟨h1, h2⟩ := hnotes n hn
      exact ⟨h1, (List.getElem?_eq_some_iff.1 h2).1⟩) hfit
  have hedge : t.treeState = edgeOf P.hasher.nodeHash (L ++ leavesOf rs) := funext hedge
  have htracked : (t.newUtxos.foldl insertUtxo t.utxos).map (refreshAnchor s t.treeState) =
      trackedAfter s (L ++ leavesOf rs) (notesOf rs) := by
    have hn : t.newUtxos = ((notesOf rs).map (received s.pool)).map
        (withOmmers P.hasher.nodeHash (L ++ leavesOf rs)) := by
      rw [hnew, List.map_map, List.map_map]
      exact List.map_congr_left fun n hm => refreshNew_toUtxo _ _ _ n (hnotes n hm).2
    rw [hn, hold, funext (refreshOld_depth _ _),
      insertAll_map (withOmmers P.hasher.nodeHash (L ++ leavesOf rs)) (fun u => rfl), List.map_map,
      hedge]
    rfl
  have hpos : u32 (s.position + u32 (leavesOf rs).length) = u32 (L ++ leavesOf rs).length := by
    rw [hs.position, List.length_append, Nat.add_comm, u32_add, Nat.add_comm]
  unfold Synchronizer.add
  rw [hlast]
  simp only [hscan, ok_bind, hcollect, NoteScan.newUtxos, List.map_nil, List.append_nil, ht,
    htracked, hpos]
  rw [hedge]
  rfl

/-- Conversely a successful `add` comes from a successful scan. -/
theorem add_receive (hP : P.Lawful) (assetBaseOf : AssetBaseOf) (s s' : Synchronizer P)
    (blocks : List (CompactBlock H)) (ha : Ascending blocks) (msgs : List (WarpSyncMessage H))
    (hadd : s.add assetBaseOf blocks = .ok (s', msgs)) :
    ∃ rs, receive assetBaseOf s.keys s.position (chunkTxs blocks) = .ok rs := by
  unfold Synchronizer.add at hadd
  cases hlast : blocks.getLast? with
  | none =>
    rw [List.getLast?_eq_none_iff] at hlast
    subst hlast
    exact ⟨[], rfl⟩
  | some last =>
    rw [hlast] at hadd
    obtain ⟨scan, hscan, -⟩ := bind_eq_ok.1 hadd
    obtain ⟨rs, hr, -⟩ := (scanNotes_ok_iff hP assetBaseOf s blocks ha scan).1 hscan
    exact ⟨rs, hr⟩

theorem afterChunk_consistent (hP : P.Lawful) (assetBaseOf : AssetBaseOf) (s : Synchronizer P)
    (L : List H) (hs : s.Consistent L) (ts : List (TxAt H)) (rs : List (Receipt H))
    (hr : receive assetBaseOf s.keys s.position ts = .ok rs)
    (hfit : (L ++ leavesOf rs).length < 2 ^ 32) :
    (afterChunk s (L ++ leavesOf rs) ts rs).Consistent (L ++ leavesOf rs) := by
  refine ⟨u32_of_lt hfit, rfl, ?_⟩
  intro u hu
  have hL : L.length < 2 ^ 32 := by rw [List.length_append] at hfit; omega
  rw [hs.position, ← u32_of_lt hL] at hr
  simp only [afterChunk, spendTxs_eq, List.mem_filter] at hu
  obtain ⟨v, hv, rfl⟩ := List.mem_map.1 hu.1
  rcases mem_insertAll hv with hv | hv
  · have ht := hs.tracks v hv
    refine carryTo_tracks s _ v ht.position ?_
    rw [List.getElem?_append_left ht.inTree, ht.value, List.getD_eq_getElem?_getD,
      List.getElem?_eq_getElem ht.inTree, Option.getD_some]
  · obtain ⟨n, hn, rfl⟩ := List.mem_map.1 hv
    exact carryTo_tracks s _ _ rfl (receive_leaf hP (le_of_lt hfit) hr hn).2

/-! ### Chunk after chunk -/

theorem mem_note_chunkMessages {s : Synchronizer P} {L : List H} {height : ℕ}
    {ts : List (TxAt H)} {rs : List (Receipt H)} {n : Note H}
    (hn : .note n ∈ chunkMessages s L height ts rs) : n ∈ notesOf rs := by
  simp only [chunkMessages, List.mem_append, List.mem_map, List.mem_singleton] at hn
  rcases hn with ((hn | ⟨u, -, hu⟩) | hn) | hn
  · obtain ⟨r, hr, hn⟩ := List.mem_flatMap.1 hn
    obtain ⟨k, hk, hn⟩ := List.mem_flatMap.1 hn
    simp only [noteMessages, List.mem_cons, List.not_mem_nil, or_false, reduceCtorEq, false_or,
      WarpSyncMessage.note.injEq] at hn
    subst hn
    exact List.mem_flatMap.2 ⟨r, hr, hk⟩
  · simp [witnessMessage] at hu
  · rw [spendTxs_eq] at hn
    obtain ⟨e, -, u, -, -, hx⟩ := spendMessages_mem hn
    simp at hx
  · simp at hn

theorem add_consistent (hP : P.Lawful) (assetBaseOf : AssetBaseOf) (s s' : Synchronizer P)
    (L M : List H) (hs : s.Consistent L) (blocks : List (CompactBlock H)) (ha : Ascending blocks)
    (msgs : List (WarpSyncMessage H)) (hadd : s.add assetBaseOf blocks = .ok (s', msgs))
    (hM : commitments P assetBaseOf (chunkTxs blocks) = .ok M)
    (hfit : (L ++ M).length < 2 ^ 32) :
    s'.Consistent (L ++ M) ∧ s'.keys = s.keys ∧
      ∀ n, .note n ∈ msgs → PlacedIn P assetBaseOf L.length (chunkTxs blocks) n := by
  obtain ⟨rs, hr⟩ := add_receive hP assetBaseOf s s' blocks ha msgs hadd
  obtain rfl : leavesOf rs = M := Except.ok.inj ((receive_commitments hr).symm.trans hM)
  cases hlast : blocks.getLast? with
  | none =>
    rw [List.getLast?_eq_none_iff] at hlast
    subst hlast
    obtain rfl : [] = rs := Except.ok.inj hr
    simp only [Synchronizer.add, List.getLast?_nil, Except.ok.injEq, Prod.mk.injEq] at hadd
    obtain ⟨rfl, rfl⟩ := hadd
    exact ⟨by simpa [leavesOf] using hs, rfl, by simp⟩
  | some last =>
    have hL : L.length < 2 ^ 32 := by rw [List.length_append] at hfit; omega
    rw [add_ok hP assetBaseOf s L hs blocks ha last hlast rs hr hL (le_of_lt hfit),
      Except.ok.injEq, Prod.mk.injEq] at hadd
    obtain ⟨rfl, rfl⟩ := hadd
    refine ⟨afterChunk_consistent hP assetBaseOf s L hs _ rs hr hfit, rfl, fun n hn => ?_⟩
    rw [List.length_append] at hfit
    rw [hs.position, ← u32_of_lt hL] at hr
    exact receive_placedIn hP (by omega) hr (mem_note_chunkMessages hn)

omit [DecidableEq H] [Inhabited H] in
theorem flatMap_chunkTxs_cons (blocks : List (CompactBlock H))
    (chunks : List (List (CompactBlock H))) :
    (blocks :: chunks).flatMap chunkTxs = chunkTxs blocks ++ chunks.flatMap chunkTxs :=
  List.flatMap_cons

theorem addAll_cons_ok (assetBaseOf : AssetBaseOf) (s : Synchronizer P)
    (blocks : List (CompactBlock H)) (chunks : List (List (CompactBlock H)))
    (out : Synchronizer P × List (WarpSyncMessage H)) :
    s.addAll assetBaseOf (blocks :: chunks) = .ok out ↔
      ∃ a b, s.add assetBaseOf blocks = .ok a ∧ a.1.addAll assetBaseOf chunks = .ok b ∧
        out = (b.1, a.2 ++ b.2) := by
  simp only [Synchronizer.addAll, bind_eq_ok, Except.ok.injEq]
  constructor
  · rintro ⟨a, ha, b, hb, rfl⟩
    exact ⟨a, b, ha, hb, rfl⟩
  · rintro ⟨a, b, ha, hb, rfl⟩
    exact ⟨a, ha, b, hb, rfl⟩

theorem addAll_commitments (hP : P.Lawful) (assetBaseOf : AssetBaseOf) (s : Synchronizer P)
    (chunks : List (List (CompactBlock H))) (ha : ∀ c ∈ chunks, Ascending c)
    (out : Synchronizer P × List (WarpSyncMessage H))
    (hadd : s.addAll assetBaseOf chunks = .ok out) :
    ∃ M, commitments P assetBaseOf (chunks.flatMap chunkTxs) = .ok M := by
  induction chunks generalizing s out with
  | nil => exact ⟨[], rfl⟩
  | cons blocks chunks ih =>
    rw [List.forall_mem_cons] at ha
    obtain ⟨a, b, h1, h2, -⟩ := (addAll_cons_ok _ _ _ _ _).1 hadd
    obtain ⟨rs, hr⟩ := add_receive hP assetBaseOf s a.1 blocks ha.1 a.2 h1
    obtain ⟨M, hM⟩ := ih a.1 ha.2 b h2
    rw [flatMap_chunkTxs_cons]
    exact ⟨_, (flatMapM_append_ok _ _ _ _).2 ⟨_, M, receive_commitments hr, hM, rfl⟩⟩

theorem addAll_run (hP : P.Lawful) (assetBaseOf : AssetBaseOf) (s : Synchronizer P)
    (L M : List H) (hs : s.Consistent L) (chunks : List (List (CompactBlock H)))
    (ha : ∀ c ∈ chunks, Ascending c) (out : Synchronizer P × List (WarpSyncMessage H))
    (hadd : s.addAll assetBaseOf chunks = .ok out)
    (hM : commitments P assetBaseOf (chunks.flatMap chunkTxs) = .ok M)
    (hfit : (L ++ M).length < 2 ^ 32) :
    out.1.Consistent (L ++ M) ∧
      ∀ n, .note n ∈ out.2 → PlacedIn P assetBaseOf L.length (chunks.flatMap chunkTxs) n := by
  induction chunks generalizing s L M out with
  | nil =>
    obtain rfl : [] = M := Except.ok.inj hM
    simp only [Synchronizer.addAll, Except.ok.injEq] at hadd
    subst hadd
    exact ⟨by simpa using hs, by simp⟩
  | cons blocks chunks ih =>
    rw [List.forall_mem_cons] at ha
    obtain ⟨a, b, h1, h2, rfl⟩ := (addAll_cons_ok _ _ _ _ _).1 hadd
    rw [flatMap_chunkTxs_cons] at hM ⊢
    obtain ⟨M1, M2, hM1, hM2, rfl⟩ := (flatMapM_append_ok _ _ _ _).1 hM
    rw [← List.append_assoc] at hfit ⊢
    have hfit1 : (L ++ M1).length < 2 ^ 32 := by
      rw [List.length_append] at hfit
      omega
    obtain ⟨hc1, -, hn1⟩ := add_consistent hP assetBaseOf s a.1 L M1 hs blocks ha.1 a.2 h1 hM1 hfit1
    obtain ⟨hc2, hn2⟩ := ih a.1 (L ++ M1) M2 hc1 ha.2 b h2 hM2 hfit
    refine ⟨hc2, fun n hn => ?_⟩
    rcases List.mem_append.1 hn with hn | hn
    · exact (hn1 n hn).append_right
    · have hp := hn2 n hn
      rw [List.length_append] at hp
      exact hp.append_left hM1

/-- Chunk after chunk succeeds as soon as their transactions are scanned without a fault. -/
theorem addAll_ok (hP : P.Lawful) (assetBaseOf : AssetBaseOf) (s : Synchronizer P) (L : List H)
    (hs : s.Consistent L) (chunks : List (List (CompactBlock H)))
    (ha : ∀ c ∈ chunks, Ascending c) (rs : List (Receipt H))
    (hr : receive assetBaseOf s.keys s.position (chunks.flatMap chunkTxs) = .ok rs)
    (hfit : (L ++ leavesOf rs).length < 2 ^ 32) : ∃ out, s.addAll assetBaseOf chunks = .ok out := by
  induction chunks generalizing s L rs with
  | nil => exact ⟨_, rfl⟩
  | cons blocks chunks ih =>
    rw [List.forall_mem_cons] at ha
    have hL : L.length < 2 ^ 32 := by
      rw [List.length_append] at hfit
      omega
    have hpos : u32 s.position = s.position := by rw [hs.position, u32_of_lt hL]
    rw [flatMap_chunkTxs_cons] at hr
    obtain ⟨xs, ys, hx, hy, rfl⟩ := (receive_append_ok _ _ _ _ _ _ hpos).1 hr
    rw [leavesOf_append, ← List.append_assoc] at hfit
    have hfit1 : (L ++ leavesOf xs).length < 2 ^ 32 := by
      rw [List.length_append] at hfit
      omega
    cases hlast : blocks.getLast? with
    | none =>
      rw [List.getLast?_eq_none_iff] at hlast
      subst hlast
      obtain rfl : [] = xs := Except.ok.inj hx
      have hnone : leavesOf ([] : List (Receipt H)) = [] := rfl
      rw [hnone, List.append_nil] at hfit
      rw [hnone, List.length_nil, Nat.add_zero, hpos] at hy
      obtain ⟨b, hb⟩ := ih s L hs ha.2 ys hy hfit
      exact ⟨_, (addAll_cons_ok _ _ _ _ _).2 ⟨(s, []), b, rfl, hb, rfl⟩⟩
    | some last =>
      have hadd := add_ok hP assetBaseOf s L hs blocks ha.1 last hlast xs hx hL (le_of_lt hfit1)
      have hs1 := afterChunk_consistent hP assetBaseOf s L hs (chunkTxs blocks) xs hx hfit1
      have hnext : u32 (s.position + (leavesOf xs).length) = u32 (L ++ leavesOf xs).length := by
        rw [hs.position, List.length_append]
      rw [hnext] at hy
      obtain ⟨b, hb⟩ := ih _ _ hs1 ha.2 ys hy hfit
      exact ⟨_, (addAll_cons_ok _ _ _ _ _).2 ⟨_, b, hadd, hb, rfl⟩⟩

/-- Every sequence of chunks that is scanned without a fault is added, and takes a consistent state
    to a consistent state over the list extended by the commitments in chain order; every tracked
    note then recomputes the naive root, and every note received on the way sits at the index of
    its commitment. -/
theorem addAll_consistent (hP : P.Lawful) (assetBaseOf : AssetBaseOf) (s : Synchronizer P)
    (L : List H) (hs : s.Consistent L) (chunks : List (List (CompactBlock H)))
    (ha : ∀ c ∈ chunks, Ascending c) :
    (∀ rs, receive assetBaseOf s.keys s.position (chunks.flatMap chunkTxs) = .ok rs →
      (L ++ leavesOf rs).length < 2 ^ 32 → ∃ out, s.addAll assetBaseOf chunks = .ok out) ∧
    ∀ s' msgs, s.addAll assetBaseOf chunks = .ok (s', msgs) →
      ∃ M, commitments P assetBaseOf (chunks.flatMap chunkTxs) = .ok M ∧
        ((L ++ M).length < 2 ^ 32 →
          s'.Consistent (L ++ M) ∧
          (∀ u ∈ s'.utxos, u.rootFrom P.hasher.nodeHash s'.treeState =
            root P.hasher.nodeHash merkleDepth (L ++ M)) ∧
          ∀ n, .note n ∈ msgs → (L ++ M)[n.position]? = some n.cmx ∧
            PlacedIn P assetBaseOf L.length (chunks.flatMap chunkTxs) n) := by
  refine ⟨addAll_ok hP assetBaseOf s L hs chunks ha, fun s' msgs hadd => ?_⟩
  obtain ⟨M, hM⟩ := addAll_commitments hP assetBaseOf s chunks ha _ hadd
  refine ⟨M, hM, fun hfit => ?_⟩
  obtain ⟨hc, hn⟩ := addAll_run hP assetBaseOf s L M hs chunks ha _ hadd hM hfit
  exact ⟨hc, fun u hu => hc.rootFrom (le_of_lt hfit) hu,
    fun n hm => ⟨(hn n hm).getElem? hM, hn n hm⟩⟩

end Chunk

/-! ### Instances -/

theorem exists_ok {ε α : Type} {x : Except ε α} (hx : x.isOk = true) : ∃ a, x = .ok a := by
  cases x with
  | ok a => exact ⟨a, rfl⟩
  | error e => exact absurd hx Bool.false_ne_true

theorem sampleSynchronizer_consistent : sampleSynchronizer.Consistent [] := by
  refine ⟨rfl, ?_, by simp [sampleSynchronizer]⟩
  funext k
  simp [sampleSynchronizer, edgeOf, MerkleTree.frontier, complete]

def sampleChunks : List (List (CompactBlock ℕ)) :=
  [[sampleBlock 1 [sampleTx 1 [] [sampleOutput 7 5]]], [],
    [sampleBlock 2 [sampleTx 2 [] [sampleOutput 8 6, sampleOutput 7 9]],
      sampleBlock 3 [sampleTx 3 [1000] []]]]

/-- Two notes over three chunks, of which the last begins at an odd position; the first note is
    spent. -/
theorem sampleChunks_consistent :
    ∃ s' msgs, sampleSynchronizer.addAll sampleAssetBase sampleChunks = .ok (s', msgs) ∧
      s'.Consistent [5, 6, 9] := by
  obtain ⟨hok, hconsistent⟩ := addAll_consistent (saplingProtocol_lawful sampleCrypto)
    sampleAssetBase sampleSynchronizer [] sampleSynchronizer_consistent sampleChunks
    (by simp [sampleChunks, Ascending, sampleBlock])
  obtain ⟨rs, hrs⟩ := exists_ok (x := receive sampleAssetBase sampleSynchronizer.keys
    sampleSynchronizer.position (sampleChunks.flatMap chunkTxs)) (by rfl)
  have hleaves : [5, 6, 9] = leavesOf rs :=
    Except.ok.inj (Eq.trans (by rfl) (receive_commitments hrs))
  obtain ⟨⟨s', msgs⟩, hadd⟩ := hok rs hrs (by rw [← hleaves]; decide)
  obtain ⟨M, hM, hc⟩ := hconsistent s' msgs hadd
  obtain rfl : [5, 6, 9] = M := Except.ok.inj (Eq.trans (by rfl) hM)
  exact ⟨s', msgs, hadd, (hc (by decide)).1⟩

/-- Consistency with witnesses that are only asked to recompute the root. -/
structure Synchronizer.RecomputesRoot (s : Synchronizer P) (L : List H) : Prop where
  position : s.position = L.length
  treeState : s.treeState = edgeOf P.hasher.nodeHash L
  roots : ∀ u ∈ s.utxos, u.rootFrom P.hasher.nodeHash s.treeState =
    root P.hasher.nodeHash merkleDepth L

/-- A note at leaf 0 whose witness holds the empty subtrees to its right. -/
def staleUtxo : UTXO ℕ :=
  { id := 0, pool := 1, account := 1, nullifier := 1000, position := 0, value := 1, cmx := 5,
    witness := ⟨5, 0, fun _ => some 0, 0⟩, txid := [] }

def staleSynchronizer : Synchronizer sampleProtocol :=
  { sampleSynchronizer with
    position := 1, utxos := [staleUtxo], treeState := edgeOf weighted [5] }

/-- A synchronizer that tracks nothing over the leaves `L`. -/
def plainSynchronizer (L : List ℕ) : Synchronizer sampleProtocol :=
  { sampleSynchronizer with
    keys := [], position := L.length, treeState := edgeOf weighted L }

def oneOutput : List (CompactBlock ℕ) := [sampleBlock 2 [sampleTx 2 [] [sampleOutput 8 6]]]

theorem root_weighted (L : List ℕ) (x : ℕ) (h0 : 0 < L.length) (hfit : L.length ≤ 2 ^ 32)
    (hx : climb weighted 0 (L.getD 0 0) (completedPath weighted (frontier weighted L)
      (ommer weighted L 0)) merkleDepth = x) : root weighted merkleDepth L = x := by
  rw [← hx]
  exact (climb_completedPath weighted merkleDepth L 0 h0 hfit).symm

theorem staleSynchronizer_recomputesRoot : staleSynchronizer.RecomputesRoot [5] := by
  refine ⟨rfl, rfl, ?_⟩
  intro u hu
  obtain rfl : u = staleUtxo := by simpa [staleSynchronizer] using hu
  have hroot : root weighted merkleDepth [5] = 5 :=
    root_weighted [5] 5 (by decide) (by decide) (by rfl)
  have hstale : staleUtxo.rootFrom weighted (edgeOf weighted [5]) = 5 := by rfl
  exact hstale.trans hroot.symm

theorem plainSynchronizer_recomputesRoot (L : List ℕ) :
    (plainSynchronizer L).RecomputesRoot L :=
  ⟨rfl, rfl, by simp [plainSynchronizer, sampleSynchronizer]⟩

def rootsAfter (s : Synchronizer sampleProtocol) (blocks : List (CompactBlock ℕ)) :
    Option (List ℕ) :=
  match s.add sampleAssetBase blocks with
  | .ok o => some (o.1.utxos.map (UTXO.rootFrom weighted o.1.treeState))
  | .error _ => none

theorem staleSynchronizer_breaks :
    ∃ s' msgs, staleSynchronizer.add sampleAssetBase oneOutput = .ok (s', msgs) ∧
      ¬ s'.RecomputesRoot ([5] ++ [6]) := by
  have hroots : rootsAfter staleSynchronizer oneOutput = some [5] := by rfl
  unfold rootsAfter at hroots
  cases hadd : staleSynchronizer.add sampleAssetBase oneOutput with
  | error e => rw [hadd] at hroots; simp at hroots
  | ok o =>
    rw [hadd] at hroots
    simp only [Option.some.injEq] at hroots
    refine ⟨o.1, o.2, rfl, fun hr => ?_⟩
    obtain ⟨u, hu, hu5⟩ := List.mem_map.1 (hroots ▸ List.mem_singleton_self 5)
    have hroot : root weighted merkleDepth [5, 6] = 17 :=
      root_weighted [5, 6] 17 (by decide) (by decide) (by rfl)
    have h17 : (5 : ℕ) = 17 := hu5.symm.trans ((hr.roots u hu).trans hroot)
    exact absurd h17 (by decide)

/-- One leaf short of a full tree the position wraps around. -/
theorem plainSynchronizer_breaks (L : List ℕ) (hL : L.length = 2 ^ 32 - 1) :
    ∃ s' msgs, (plainSynchronizer L).add sampleAssetBase oneOutput = .ok (s', msgs) ∧
      ¬ s'.RecomputesRoot (L ++ [6]) := by
  have hc : (plainSynchronizer L).Consistent L :=
    ⟨rfl, rfl, by simp [plainSynchronizer, sampleSynchronizer]⟩
  let rs : List (Receipt ℕ) :=
    [⟨⟨sampleBlock 2 [sampleTx 2 [] [sampleOutput 8 6]], 0, sampleTx 2 [] [sampleOutput 8 6]⟩,
      [], [6], []⟩]
  have hlen : (L ++ leavesOf rs).length = 2 ^ 32 := by
    rw [List.length_append, hL]
    decide
  have hadd := add_ok (saplingProtocol_lawful sampleCrypto) sampleAssetBase (plainSynchronizer L) L
    hc oneOutput (by simp [oneOutput, Ascending]) _ rfl rs rfl (by rw [hL]; decide) (le_of_eq hlen)
  refine ⟨_, _, hadd, fun hr => ?_⟩
  have hpos : u32 (L ++ leavesOf rs).length = (L ++ [6]).length := hr.position
  rw [hlen, List.length_append, hL] at hpos
  exact absurd hpos (by decide)

/-- Recomputing the root is not kept: an ommer that stands for an empty subtree goes stale,
    and the position of a full tree wraps around. -/
theorem recomputesRoot_not_kept :
    commitments sampleProtocol sampleAssetBase (chunkTxs oneOutput) = .ok [6] ∧
    (staleSynchronizer.RecomputesRoot [5] ∧
      ∃ s' msgs, staleSynchronizer.add sampleAssetBase oneOutput = .ok (s', msgs) ∧
        ¬ s'.RecomputesRoot ([5] ++ [6])) ∧
    ((plainSynchronizer (List.replicate (2 ^ 32 - 1) 0)).RecomputesRoot
        (List.replicate (2 ^ 32 - 1) 0) ∧
      ∃ s' msgs, (plainSynchronizer (List.replicate (2 ^ 32 - 1) 0)).add sampleAssetBase
          oneOutput = .ok (s', msgs) ∧
        ¬ s'.RecomputesRoot (List.replicate (2 ^ 32 - 1) 0 ++ [6])) :=
  ⟨rfl, ⟨staleSynchronizer_recomputesRoot, staleSynchronizer_breaks⟩,
    plainSynchronizer_recomputesRoot _, plainSynchronizer_breaks _ List.length_replicate⟩

end ZcashSdk.Shielded
