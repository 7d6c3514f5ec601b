import ZcashSdk.Shielded.Commitments
import ZcashSdk.Shielded.Tracked

set_option autoImplicit false

/-!
# The shape of a chunk's messages

Whatever the state of the tree, a chunk that `add` accepts announces the notes it
received, then one witness for every note tracked at its end, then the spends, then
its checkpoint. Advancing the tree changes nothing of a tracked note but its witness.
-/
namespace ZcashSdk.Shielded
open Loops

variable {H : Type} [DecidableEq H] [Inhabited H] {P : ShieldedProtocol H}

/-! ### The tree only changes witnesses -/

omit [DecidableEq H] in
theorem setLeaf_bare {depth : Fin merkleDepth} {npos nidx : ℕ} {cmxs : List (Option H)}
    {u v : UTXO H} (h : setLeaf depth npos nidx cmxs u = .ok v) : v.bare = u.bare := by
  unfold setLeaf at h
  split at h
  · obtain ⟨c, -, h⟩ := bind_eq_ok.1 h
    rw [Except.ok.injEq] at h
    subst h
    rfl
  · rw [Except.ok.injEq] at h
    rw [h]

omit [DecidableEq H] in
theorem setSibling_bare {depth : Fin merkleDepth} {nidx : ℕ} {cmxs : List (Option H)}
    {u v : UTXO H} (h : setSibling depth nidx cmxs u = .ok v) : v.bare = u.bare := by
  unfold setSibling at h
  split at h
  · split at h
    · obtain ⟨c, -, h⟩ := bind_eq_ok.1 h
      rw [Except.ok.injEq] at h
      subst h
      rfl
    · rw [Except.ok.injEq] at h
      subst h
      rfl
  · obtain ⟨c, -, h⟩ := bind_eq_ok.1 h
    rw [Except.ok.injEq] at h
    subst h
    rfl

omit [DecidableEq H] in
theorem updateNew_bare {depth : Fin merkleDepth} {position : ℕ} {cmxs : List (Option H)}
    {u v : UTXO H} (h : updateNew depth position cmxs u = .ok v) : v.bare = u.bare := by
  obtain ⟨w, hw, h⟩ := bind_eq_ok.1 h
  rw [setSibling_bare h, setLeaf_bare hw]

omit [DecidableEq H] in
theorem updateOld_bare {depth : Fin merkleDepth} {cmxs : List (Option H)}
    {u v : UTXO H} (h : updateOld depth cmxs u = .ok v) : v.bare = u.bare := by
  unfold updateOld at h
  split at h
  · obtain ⟨c, -, h⟩ := bind_eq_ok.1 h
    rw [Except.ok.injEq] at h
    subst h
    rfl
  · rw [Except.ok.injEq] at h
    rw [h]

omit [DecidableEq H] in
theorem advanceTree_bare {s : Synchronizer P} {leaves : List H} {new : List (UTXO H)}
    {t : TreeUpdate H} (h : advanceTree s leaves new = .ok t) :
    t.newUtxos.map UTXO.bare = new.map UTXO.bare ∧
      t.utxos.map UTXO.bare = s.utxos.map UTXO.bare := by
  refine foldlM_inv (levelStep P.hasher s.position leaves) (fun t : TreeUpdate H =>
    t.newUtxos.map UTXO.bare = new.map UTXO.bare ∧
      t.utxos.map UTXO.bare = s.utxos.map UTXO.bare) ?_ _ _ t ⟨rfl, rfl⟩ h
  intro t depth t' ht hstep
  obtain ⟨carried, -, hstep⟩ := bind_eq_ok.1 hstep
  obtain ⟨new', hnew, hstep⟩ := bind_eq_ok.1 hstep
  obtain ⟨old', hold, hstep⟩ := bind_eq_ok.1 hstep
  rw [Except.ok.injEq] at hstep
  subst hstep
  exact ⟨(mapM_ok_map UTXO.bare UTXO.bare (fun _ _ => updateNew_bare) hnew).trans ht.1,
    (mapM_ok_map UTXO.bare UTXO.bare (fun _ _ => updateOld_bare) hold).trans ht.2⟩

omit [DecidableEq H] in
theorem refreshAnchor_bare (s : Synchronizer P) (e : Edge H) (u : UTXO H) :
    (refreshAnchor s e u).bare = u.bare := by
  unfold refreshAnchor
  split <;> rfl

omit [DecidableEq H] in
@[simp] theorem bare_key (u : UTXO H) : u.bare.key = u.key := rfl

/-! ### Whose notes a chunk brings, and where from -/

def Found.Owned (keys : List (Key P)) (n : Found P) : Prop := ∃ k ∈ keys, n.2.1.account = k.account

omit [DecidableEq H] [Inhabited H] in
theorem decryptTx_owned (hP : P.Lawful) {keys : List (Key P)} {t : TxAt H} {a : List (Found P)}
    (ha : decryptTx keys t = .ok a) : ∀ n ∈ a, n.Owned keys := by
  intro n hn
  obtain ⟨o, -, xs, hx, hm⟩ := mem_flatMapM ha hn
  obtain ⟨k, hk, hd, -⟩ := tryKeys_mem hx hm
  exact ⟨k, hk, (hP.tryDecrypt_found _ _ _ _ _ _ _ _ _ hd).1.1⟩

omit [DecidableEq H] [Inhabited H] in
theorem issuanceTx_owned (hP : P.Lawful) {assetBaseOf : AssetBaseOf} {keys : List (Key P)}
    {t : TxAt H} {i : IssuanceScan P} (hi : issuanceTx assetBaseOf keys t = .ok i) :
    ∀ n ∈ i.found, n.Owned keys := by
  refine foldlM_inv _ (fun acc : IssuanceScan P => ∀ n ∈ acc.found, n.Owned keys) ?_
    t.tx.issuances _ i (by simp) hi
  intro s iss s' hs hstep
  obtain ⟨base, -, hstep⟩ := bind_eq_ok.1 hstep
  refine foldlM_inv _ (fun acc : IssuanceScan P => ∀ n ∈ acc.found, n.Owned keys) ?_
    iss.notes s s' hs hstep
  intro acc note acc' hacc hn
  obtain ⟨cmx, -, hn⟩ := bind_eq_ok.1 hn
  obtain ⟨found, hf, hn⟩ := bind_eq_ok.1 hn
  rw [Except.ok.injEq] at hn
  subst hn
  intro n hm
  rcases List.mem_append.1 hm with hm | hm
  · exact hacc n hm
  · obtain ⟨k, hk, hd, -⟩ := tryKeys_mem hf hm
    exact ⟨k, hk, (hP.tryDecryptIssuance_found _ _ _ _ _ _ _ _ _ _ hd).1.1⟩

omit [DecidableEq H] [Inhabited H] in
theorem findTxs_owned (hP : P.Lawful) {assetBaseOf : AssetBaseOf} {keys : List (Key P)}
    {ts : List (TxAt H)} {fs : List (FoundTx P)} (hf : findTxs assetBaseOf keys ts = .ok fs) :
    ∀ f ∈ fs, ∀ n ∈ f.notes, n.Owned keys := by
  induction ts generalizing fs with
  | nil => simp [findTxs, flatMapM] at hf; subst hf; simp
  | cons t ts ih =>
    obtain ⟨a, i, gs, ha, hi, hg, rfl⟩ := (findTxs_cons_ok _ _ _ _ _).1 hf
    rw [List.forall_mem_cons]
    refine ⟨?_, ih hg⟩
    intro n hn
    rcases List.mem_append.1 hn with hn | hn
    · exact decryptTx_owned hP ha n hn
    · exact issuanceTx_owned hP hi n hn

omit [DecidableEq H] [Inhabited H] in
theorem placeAll_mem {position : ℕ} {fs : List (FoundTx P)} {rs : List (Receipt H)}
    (hr : placeAll position fs = .ok rs) {r : Receipt H} (hm : r ∈ rs) :
    ∃ f ∈ fs, ∃ p, placeFound p f = .ok r := by
  induction fs generalizing position rs with
  | nil => simp [placeAll] at hr; subst hr; simp at hm
  | cons f fs ih =>
    obtain ⟨q, qs, hq, hqs, rfl⟩ := (placeAll_cons_ok _ _ _ _).1 hr
    rcases List.mem_cons.1 hm with rfl | hm
    · exact ⟨f, by simp, position, hq⟩
    · obtain ⟨g, hg, hp⟩ := ih hqs hm
      exact ⟨g, by simp [hg], hp⟩

omit [DecidableEq H] [Inhabited H] in
theorem receive_note (hP : P.Lawful) {assetBaseOf : AssetBaseOf} {keys : List (Key P)}
    {position : ℕ} {ts : List (TxAt H)} {rs : List (Receipt H)}
    (hr : receive assetBaseOf keys position ts = .ok rs) {r : Receipt H} (hm : r ∈ rs)
    {n : Note H} (hn : n ∈ r.notes) :
    r.tx ∈ ts ∧ n.height = r.tx.block.height ∧ n.txid = r.tx.tx.hash ∧
      n.account ∈ keys.map Key.account := by
  have htx : r.tx ∈ ts := by
    rw [← receive_tx hr]
    exact List.mem_map_of_mem hm
  obtain ⟨fs, hf, hp⟩ := bind_eq_ok.1 hr
  obtain ⟨f, hmf, p, hpf⟩ := placeAll_mem hp hm
  obtain ⟨-, -, hh, -, hid⟩ := placeFound_note (findTxs_sound hP _ _ _ _ hf f hmf) hpf hn
  obtain ⟨-, -, -, hmap⟩ := placeFound_ok p f r hpf
  obtain ⟨x, hx, hpx⟩ := mapM_ok_mem hmap hn
  obtain ⟨nf, -, rfl⟩ := placeOne_ok hpx
  obtain ⟨k, hk, hacc⟩ := findTxs_owned hP hf f hmf x hx
  exact ⟨htx, hh, hid, List.mem_map.2 ⟨k, hk, hacc.symm⟩⟩

/-- The notes tracked once those of a chunk are inserted, without their witnesses. -/
def trackedBare (pool : ℕ) (utxos : List (UTXO H)) (notes : List (Note H)) : List (UTXO H) :=
  (notes.map (toUtxo pool)).foldl insertUtxo (utxos.map UTXO.bare)

/-! ### Messages -/

/-- The messages of a chunk from its receipts and the notes tracked at its end. -/
def messagesOf (s : Synchronizer P) (height : ℕ) (ts : List (TxAt H)) (rs : List (Receipt H))
    (tracked : List (UTXO H)) : List (WarpSyncMessage H) :=
  rs.flatMap Receipt.messages ++ tracked.map (witnessMessage height) ++
    spendMessages tracked (spendEvents P s.accounts ts) ++
    [.checkpoint s.accounts s.pool height]

theorem add_shape (hP : P.Lawful) {assetBaseOf : AssetBaseOf} {s s' : Synchronizer P}
    {blocks : List (CompactBlock H)} (ha : Ascending blocks) {last : CompactBlock H}
    (hlast : blocks.getLast? = some last) {msgs : List (WarpSyncMessage H)}
    (hadd : s.add assetBaseOf blocks = .ok (s', msgs)) :
    ∃ rs tracked, receive assetBaseOf s.keys s.position (chunkTxs blocks) = .ok rs ∧
      tracked.map UTXO.bare = trackedBare s.pool s.utxos (notesOf rs) ∧
      msgs = messagesOf s last.height (chunkTxs blocks) rs tracked ∧
      s'.pool = s.pool ∧ s'.keys = s.keys ∧
      s'.utxos = tracked.filter fun u => u.key ∉ spentKeys P s.accounts (chunkTxs blocks) := by
  unfold Synchronizer.add at hadd
  rw [hlast] at hadd
  obtain ⟨scan, hscan, hadd⟩ := bind_eq_ok.1 hadd
  obtain ⟨tree, htree, hadd⟩ := bind_eq_ok.1 hadd
  obtain ⟨rs, hr, rfl⟩ := (scanNotes_ok_iff hP assetBaseOf s blocks ha scan).1 hscan
  obtain ⟨hnew, hold⟩ := advanceTree_bare htree
  simp only [spendTxs_eq, Except.ok.injEq, Prod.mk.injEq] at hadd
  obtain ⟨rfl, rfl⟩ := hadd
  refine ⟨rs, _, hr, ?_, rfl, rfl, rfl, rfl⟩
  simp only [NoteScan.newUtxos, List.map_nil, List.append_nil] at hnew
  have hbare : (UTXO.bare ∘ refreshAnchor s tree.treeState : UTXO H → UTXO H) = UTXO.bare :=
    funext fun u => refreshAnchor_bare s tree.treeState u
  have hto : (UTXO.bare ∘ toUtxo s.pool : Note H → UTXO H) = toUtxo s.pool := rfl
  rw [List.map_map, hbare, ← insertAll_map UTXO.bare (fun u => rfl), hnew, hold, List.map_map, hto]
  rfl

end ZcashSdk.Shielded
