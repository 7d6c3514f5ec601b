import ZcashSdk.Shielded.Receipts

set_option autoImplicit false

/-!
# Positions and commitments of received notes

The commitments of a list of transactions in chain order, read off the chain without
any key, are the leaves of its receipts; and a received note sits at the index of its
own commitment among them.
-/
namespace ZcashSdk.Shielded
open Loops

variable {H : Type} {P : ShieldedProtocol H}

/-! ### Notes of a receipt -/

theorem placeOne_ok {t : TxAt H} {position : ℕ} {n : Found P} {note : Note H}
    (hp : placeOne t position n = .ok note) :
    ∃ nf, P.deriveNf n.2.2 (u32 (position + n.2.1.vout)) n.1 = .ok nf ∧
      note = { n.2.1 with
        position := u32 (position + n.2.1.vout), nf := nf, txid := t.tx.hash } := by
  obtain ⟨nf, hd, hp⟩ := bind_eq_ok.1 hp
  rw [Except.ok.injEq] at hp
  exact ⟨nf, hd, hp.symm⟩

/-- A note of a receipt sits at its output index after the commitments before the
    transaction, and opens the commitment there. -/
theorem placeFound_note {position : ℕ} {f : FoundTx P} {r : Receipt H} (hs : f.Sound)
    (hr : placeFound position f = .ok r) {n : Note H} (hn : n ∈ r.notes) :
    n.position = u32 (position + n.vout) ∧ r.leaves[n.vout]? = some n.cmx ∧
      n.height = r.tx.block.height ∧ n.ivtx = r.tx.ivtx ∧ n.txid = r.tx.tx.hash := by
  obtain ⟨h1, h2, h3, h4⟩ := placeFound_ok position f r hr
  obtain ⟨m, hm, hp⟩ := mapM_ok_mem h4 hn
  obtain ⟨nf, -, rfl⟩ := placeOne_ok hp
  obtain ⟨hh, hi⟩ := hs.ofTx m hm
  refine ⟨rfl, ?_, by rw [h1]; exact hh, by rw [h1]; exact hi, by rw [h1]⟩
  rw [Receipt.leaves, h3, h2]
  simpa using (hs.commits m hm).2

/-- A received note sits at its output index after all commitments before its transaction. -/
structure Receipt.Places (r : Receipt H) (start : ℕ) (n : Note H) : Prop where
  position : n.position = u32 (start + n.vout)
  commits : r.leaves[n.vout]? = some n.cmx
  height : n.height = r.tx.block.height
  ivtx : n.ivtx = r.tx.ivtx
  txid : n.txid = r.tx.tx.hash

theorem placeAll_notes {start : ℕ} {fs : List (FoundTx P)} {rs : List (Receipt H)}
    (hs : ∀ f ∈ fs, f.Sound) (hr : placeAll (u32 start) fs = .ok rs)
    {n : Note H} (hn : n ∈ notesOf rs) :
    ∃ before r after, rs = before ++ r :: after ∧ n ∈ r.notes ∧
      r.Places (start + (leavesOf before).length) n := by
  induction fs generalizing start rs with
  | nil =>
    simp only [placeAll, Except.ok.injEq] at hr
    subst hr
    simp [notesOf] at hn
  | cons f fs ih =>
    rw [List.forall_mem_cons] at hs
    obtain ⟨r, qs, hp, hq, rfl⟩ := (placeAll_cons_ok _ _ _ _).1 hr
    rw [u32_add] at hq
    rcases List.mem_append.1 (show n ∈ r.notes ++ notesOf qs from hn) with hn | hn
    · obtain ⟨hpos, hc, hh, hi, ht⟩ := placeFound_note hs.1 hp hn
      rw [u32_add] at hpos
      exact ⟨[], r, qs, rfl, hn, hpos, hc, hh, hi, ht⟩
    · obtain ⟨before, q, after, rfl, hnq, hpl⟩ := ih hs.2 hq hn
      refine ⟨r :: before, q, after, rfl, hnq, ?_⟩
      have hlen : (leavesOf (r :: before)).length = r.leaves.length + (leavesOf before).length := by
        simp [leavesOf]
      rw [hlen, ← Nat.add_assoc]
      exact hpl

theorem receive_notes (hP : P.Lawful) {assetBaseOf : AssetBaseOf} {keys : List (Key P)}
    {start : ℕ} {ts : List (TxAt H)} {rs : List (Receipt H)}
    (hr : receive assetBaseOf keys (u32 start) ts = .ok rs) {n : Note H} (hn : n ∈ notesOf rs) :
    ∃ before r after, rs = before ++ r :: after ∧ n ∈ r.notes ∧
      r.Places (start + (leavesOf before).length) n := by
  obtain ⟨fs, hf, hp⟩ := bind_eq_ok.1 hr
  exact placeAll_notes (findTxs_sound hP _ _ _ _ hf) hp hn

theorem leavesOf_append (rs qs : List (Receipt H)) :
    leavesOf (rs ++ qs) = leavesOf rs ++ leavesOf qs := by
  simp [leavesOf]

theorem receive_leaf (hP : P.Lawful) {assetBaseOf : AssetBaseOf} {keys : List (Key P)}
    {L : List H} {ts : List (TxAt H)} {rs : List (Receipt H)}
    (hfit : (L ++ leavesOf rs).length ≤ 2 ^ 32)
    (hr : receive assetBaseOf keys (u32 L.length) ts = .ok rs) {n : Note H}
    (hn : n ∈ notesOf rs) :
    L.length ≤ n.position ∧ (L ++ leavesOf rs)[n.position]? = some n.cmx := by
  obtain ⟨before, r, after, rfl, -, hp⟩ := receive_notes hP hr hn
  have hv := (List.getElem?_eq_some_iff.1 hp.commits).1
  have hall : leavesOf (before ++ r :: after) =
      leavesOf before ++ (r.leaves ++ leavesOf after) := by
    rw [leavesOf_append]
    simp [leavesOf]
  rw [hall] at hfit ⊢
  simp only [List.length_append] at hfit
  have hpos : n.position = L.length + ((leavesOf before).length + n.vout) := by
    rw [hp.position, u32]
    omega
  refine ⟨by omega, ?_⟩
  rw [hpos, List.getElem?_append_right (by omega), Nat.add_sub_cancel_left,
    List.getElem?_append_right (by omega), Nat.add_sub_cancel_left,
    List.getElem?_append_left hv, hp.commits]

/-! ### The commitments of a chunk -/

def issuanceCommitments (P : ShieldedProtocol H) (assetBaseOf : AssetBaseOf) (t : TxAt H) :
    Except Fault (List H) :=
  flatMapM (fun iss => do
    let base ← issuanceAssetBase assetBaseOf iss
    flatMapM (fun note => do
      let c ← P.computeIssuanceCmx note base
      .ok c.toList) iss.notes) t.tx.issuances

/-- All commitments of a transaction in chain order. -/
def txCommitments (P : ShieldedProtocol H) (assetBaseOf : AssetBaseOf) (t : TxAt H) :
    Except Fault (List H) := do
  let iss ← issuanceCommitments P assetBaseOf t
  .ok ((P.extractOutputs t.tx).map P.extractCmx ++ iss)

def commitments (P : ShieldedProtocol H) (assetBaseOf : AssetBaseOf) (ts : List (TxAt H)) :
    Except Fault (List H) :=
  flatMapM (txCommitments P assetBaseOf) ts

theorem issuanceNote_commitments (keys : List (Key P)) (t : TxAt H) (base : Bytes)
    (a a' : IssuanceScan P) (note : CompactIssueNote)
    (hn : issuanceNote keys t base a note = .ok a') :
    ∃ cs, (do
      let c ← P.computeIssuanceCmx note base
      Except.ok (ε := Fault) c.toList) = .ok cs ∧ a'.cmxs = a.cmxs ++ cs := by
  obtain ⟨c, hc, hn⟩ := bind_eq_ok.1 hn
  obtain ⟨found, -, hn⟩ := bind_eq_ok.1 hn
  rw [Except.ok.injEq] at hn
  subst hn
  exact ⟨c.toList, by rw [hc]; rfl, rfl⟩

theorem issuance_commitments (assetBaseOf : AssetBaseOf) (keys : List (Key P)) (t : TxAt H)
    (a a' : IssuanceScan P) (iss : CompactIssuance)
    (hi : issuance assetBaseOf keys t a iss = .ok a') :
    ∃ cs, (do
      let base ← issuanceAssetBase assetBaseOf iss
      flatMapM (fun note => do
        let c ← P.computeIssuanceCmx note base
        .ok c.toList) iss.notes) = .ok cs ∧ a'.cmxs = a.cmxs ++ cs := by
  obtain ⟨base, hb, hi⟩ := bind_eq_ok.1 hi
  rw [hb, ok_bind]
  exact foldlM_collect (issuanceNote keys t base) _ IssuanceScan.cmxs
    (fun b note b' => issuanceNote_commitments keys t base b b' note) iss.notes a a' hi

theorem issuanceTx_commitments (assetBaseOf : AssetBaseOf) (keys : List (Key P)) (t : TxAt H)
    (i : IssuanceScan P) (hi : issuanceTx assetBaseOf keys t = .ok i) :
    issuanceCommitments P assetBaseOf t = .ok i.cmxs := by
  obtain ⟨xs, hx, ho⟩ := foldlM_collect _ _ IssuanceScan.cmxs
    (fun a iss a' => issuance_commitments assetBaseOf keys t a a' iss) t.tx.issuances _ i hi
  rw [List.nil_append] at ho
  rw [ho]
  exact hx

theorem receive_txCommitments {assetBaseOf : AssetBaseOf} {keys : List (Key P)} {position : ℕ}
    {ts : List (TxAt H)} {rs : List (Receipt H)}
    (hr : receive assetBaseOf keys position ts = .ok rs) :
    ∀ r ∈ rs, txCommitments P assetBaseOf r.tx = .ok r.leaves := by
  obtain ⟨fs, hf, hp⟩ := bind_eq_ok.1 hr
  clear hr
  induction ts generalizing position fs rs with
  | nil =>
    simp only [findTxs, flatMapM, Except.ok.injEq] at hf
    subst hf
    simp only [placeAll, Except.ok.injEq] at hp
    subst hp
    simp
  | cons t ts ih =>
    obtain ⟨a, i, gs, -, hi, hg, rfl⟩ := (findTxs_cons_ok _ _ _ _ _).1 hf
    obtain ⟨r, qs, hr, hq, rfl⟩ := (placeAll_cons_ok _ _ _ _).1 hp
    obtain ⟨h1, h2, h3, -⟩ := placeFound_ok _ _ _ hr
    rw [List.forall_mem_cons]
    refine ⟨?_, ih gs hg hq⟩
    rw [h1, txCommitments, issuanceTx_commitments _ _ _ _ hi, Receipt.leaves, h2, h3]
    rfl

theorem commitments_receipts (assetBaseOf : AssetBaseOf) (rs : List (Receipt H))
    (hr : ∀ r ∈ rs, txCommitments P assetBaseOf r.tx = .ok r.leaves) :
    commitments P assetBaseOf (rs.map Receipt.tx) = .ok (leavesOf rs) := by
  induction rs with
  | nil => rfl
  | cons r rs ih =>
    rw [List.forall_mem_cons] at hr
    exact (flatMapM_cons_ok _ _ _ _).2 ⟨r.leaves, leavesOf rs, hr.1, ih hr.2, rfl⟩

theorem receive_commitments {assetBaseOf : AssetBaseOf} {keys : List (Key P)} {position : ℕ}
    {ts : List (TxAt H)} {rs : List (Receipt H)}
    (hr : receive assetBaseOf keys position ts = .ok rs) :
    commitments P assetBaseOf ts = .ok (leavesOf rs) := by
  rw [← receive_tx hr]
  exact commitments_receipts assetBaseOf rs (receive_txCommitments hr)

/-- The note sits, after `start` commitments, at the index of its own commitment among those
    of the transactions: after all commitments of the transactions before its own. -/
def PlacedIn (P : ShieldedProtocol H) (assetBaseOf : AssetBaseOf) (start : ℕ)
    (ts : List (TxAt H)) (n : Note H) : Prop :=
  ∃ before t after cs ds, ts = before ++ t :: after ∧ n.height = t.block.height ∧
    n.ivtx = t.ivtx ∧ commitments P assetBaseOf before = .ok cs ∧
    txCommitments P assetBaseOf t = .ok ds ∧ ds[n.vout]? = some n.cmx ∧
    n.position = start + cs.length + n.vout

theorem receive_placedIn (hP : P.Lawful) {assetBaseOf : AssetBaseOf} {keys : List (Key P)}
    {start : ℕ} {ts : List (TxAt H)} {rs : List (Receipt H)}
    (hfit : start + (leavesOf rs).length ≤ 2 ^ 32)
    (hr : receive assetBaseOf keys (u32 start) ts = .ok rs) {n : Note H}
    (hn : n ∈ notesOf rs) : PlacedIn P assetBaseOf start ts n := by
  obtain ⟨before, r, after, rfl, -, hp⟩ := receive_notes hP hr hn
  have htx := receive_txCommitments hr
  have hv := (List.getElem?_eq_some_iff.1 hp.commits).1
  refine ⟨before.map Receipt.tx, r.tx, after.map Receipt.tx, leavesOf before, r.leaves, ?_,
    hp.height, hp.ivtx, commitments_receipts _ _ fun q hq => htx q (by simp [hq]),
    htx r (by simp), hp.commits, ?_⟩
  · rw [← receive_tx hr, List.map_append, List.map_cons]
  · have hlen : (leavesOf (before ++ r :: after)).length =
        (leavesOf before).length + (r.leaves.length + (leavesOf after).length) := by
      simp [leavesOf]
    rw [hp.position, u32]
    omega

theorem PlacedIn.append_right {assetBaseOf : AssetBaseOf} {start : ℕ} {ts us : List (TxAt H)}
    {n : Note H} (hp : PlacedIn P assetBaseOf start ts n) :
    PlacedIn P assetBaseOf start (ts ++ us) n := by
  obtain ⟨before, t, after, cs, ds, rfl, hh, hi, hb, ht, hc, hpos⟩ := hp
  exact ⟨before, t, after ++ us, cs, ds, by simp, hh, hi, hb, ht, hc, hpos⟩

theorem PlacedIn.append_left {assetBaseOf : AssetBaseOf} {start : ℕ} {ts us : List (TxAt H)}
    {n : Note H} {M : List H} (hM : commitments P assetBaseOf ts = .ok M)
    (hp : PlacedIn P assetBaseOf (start + M.length) us n) :
    PlacedIn P assetBaseOf start (ts ++ us) n := by
  obtain ⟨before, t, after, cs, ds, rfl, hh, hi, hb, ht, hc, hpos⟩ := hp
  refine ⟨ts ++ before, t, after, M ++ cs, ds, by simp, hh, hi,
    (flatMapM_append_ok _ _ _ _).2 ⟨M, cs, hM, hb, rfl⟩, ht, hc, ?_⟩
  rw [hpos, List.length_append]
  omega

theorem PlacedIn.getElem? {assetBaseOf : AssetBaseOf} {L M : List H} {ts : List (TxAt H)}
    {n : Note H} (hM : commitments P assetBaseOf ts = .ok M)
    (hp : PlacedIn P assetBaseOf L.length ts n) : (L ++ M)[n.position]? = some n.cmx := by
  obtain ⟨before, t, after, cs, ds, rfl, -, -, hb, ht, hc, hpos⟩ := hp
  obtain ⟨xs, ys, hx, hy, rfl⟩ := (flatMapM_append_ok _ _ _ _).1 hM
  obtain ⟨us, vs, hu, -, rfl⟩ := (flatMapM_cons_ok _ _ _ _).1 hy
  obtain rfl : cs = xs := Except.ok.inj (hb.symm.trans hx)
  obtain rfl : ds = us := Except.ok.inj (ht.symm.trans hu)
  have hv := (List.getElem?_eq_some_iff.1 hc).1
  rw [hpos, List.getElem?_append_right (by omega), List.getElem?_append_right (by omega),
    List.getElem?_append_left (by omega), ← hc]
  congr 1
  omega

end ZcashSdk.Shielded
