import ZcashSdk.Shielded.ChainOrder

set_option autoImplicit false

/-!
# Receipts

A receipt says what one transaction leaves to the synchronizer: the wallet's notes
in it, placed and with their nullifiers, and the commitments it appends to the
tree. `receive` produces the receipts of a list of transactions one by one, and
`scanNotes` succeeds exactly when it does.
-/
namespace ZcashSdk.Shielded
open Loops

variable {H : Type} {P : ShieldedProtocol H}

structure Receipt (H : Type) where
  tx : TxAt H
  notes : List (Note H)
  outputs : List H
  issuance : List H

def Receipt.leaves (r : Receipt H) : List H := r.outputs ++ r.issuance

def noteMessages (t : TxAt H) (n : Note H) : List (WarpSyncMessage H) :=
  [.transaction (txOf t n.account), .note n]

def Receipt.messages (r : Receipt H) : List (WarpSyncMessage H) :=
  r.notes.flatMap (noteMessages r.tx)

def leavesOf (rs : List (Receipt H)) : List H := rs.flatMap Receipt.leaves

def notesOf (rs : List (Receipt H)) : List (Note H) := rs.flatMap Receipt.notes

theorem mem_noteMessages {rs : List (Receipt H)} {n : Note H} (hn : n ∈ notesOf rs) :
    .note n ∈ rs.flatMap Receipt.messages := by
  obtain ⟨r, hr, hn⟩ := List.mem_flatMap.1 hn
  exact List.mem_flatMap.2 ⟨r, hr, List.mem_flatMap.2 ⟨n, hn, by simp [noteMessages]⟩⟩

def placeOne (t : TxAt H) (position : ℕ) (n : Found P) : Except Fault (Note H) := do
  let at_ := u32 (position + n.2.1.vout)
  let nf ← P.deriveNf n.2.2 at_ n.1
  .ok { n.2.1 with position := at_, nf := nf, txid := t.tx.hash }

def placeFound (position : ℕ) (f : FoundTx P) : Except Fault (Receipt H) := do
  let notes ← f.notes.mapM (placeOne f.tx position)
  .ok ⟨f.tx, notes, (P.extractOutputs f.tx.tx).map P.extractCmx, f.issuance.cmxs⟩

def placeAll : ℕ → List (FoundTx P) → Except Fault (List (Receipt H))
  | _, [] => .ok []
  | position, f :: fs => do
    let r ← placeFound position f
    let rs ← placeAll (u32 (position + r.leaves.length)) fs
    .ok (r :: rs)

/-- Finds and places the notes of consecutive transactions, the first commitment of the
    first one having index `position`. -/
def receive (assetBaseOf : AssetBaseOf) (keys : List (Key P)) (position : ℕ)
    (ts : List (TxAt H)) : Except Fault (List (Receipt H)) := do
  let fs ← findTxs assetBaseOf keys ts
  placeAll position fs

theorem placeNotes_of_other (t : TxAt H) (position : ℕ) (rest : List (Found P))
    (hr : ∀ n ∈ rest, ¬ Found.OfTx t n) : placeNotes t position rest = .ok ⟨[], [], rest⟩ := by
  cases rest with
  | nil => rfl
  | cons n rest =>
    have hn : ¬ Found.OfTx t n := hr n (by simp)
    exact if_neg hn

theorem placeNotes_append (t : TxAt H) (position : ℕ) (found rest : List (Found P))
    (hf : ∀ n ∈ found, Found.OfTx t n) (hr : ∀ n ∈ rest, ¬ Found.OfTx t n) :
    placeNotes t position (found ++ rest) =
      found.mapM (placeOne t position) >>= fun notes =>
        .ok ⟨notes, notes.flatMap (noteMessages t), rest⟩ := by
  induction found with
  | nil => simpa using placeNotes_of_other t position rest hr
  | cons n found ih =>
    obtain ⟨q, dbn, nk⟩ := n
    rw [List.forall_mem_cons] at hf
    have hof : dbn.height = t.block.height ∧ dbn.ivtx = t.ivtx := hf.1
    rw [List.cons_append, placeNotes, if_pos hof, List.mapM_cons, ih hf.2]
    simp only [placeOne]
    cases hd : P.deriveNf nk (u32 (position + dbn.vout)) q with
    | error e => rfl
    | ok nf =>
      cases hm : found.mapM (placeOne t position) with
      | error e => rfl
      | ok notes => rfl

theorem placeFound_ok (position : ℕ) (f : FoundTx P) (r : Receipt H)
    (hr : placeFound position f = .ok r) :
    r.tx = f.tx ∧ r.issuance = f.issuance.cmxs ∧
      r.outputs = (P.extractOutputs f.tx.tx).map P.extractCmx ∧
      f.notes.mapM (placeOne f.tx position) = .ok r.notes := by
  obtain ⟨notes, hn, hr⟩ := bind_eq_ok.1 hr
  rw [Except.ok.injEq] at hr
  subst hr
  exact ⟨rfl, rfl, rfl, hn⟩

theorem placeAll_cons_ok (position : ℕ) (f : FoundTx P) (fs : List (FoundTx P))
    (rs : List (Receipt H)) :
    placeAll position (f :: fs) = .ok rs ↔ ∃ r qs, placeFound position f = .ok r ∧
      placeAll (u32 (position + r.leaves.length)) fs = .ok qs ∧ rs = r :: qs := by
  simp only [placeAll, bind_eq_ok, Except.ok.injEq]
  constructor
  · rintro ⟨r, hr, qs, hq, rfl⟩
    exact ⟨r, qs, hr, hq, rfl⟩
  · rintro ⟨r, qs, hr, hq, rfl⟩
    exact ⟨r, hr, qs, hq, rfl⟩

/-- The outer loop over a chunk whose notes are in chain order places all of them. -/
theorem placeTxs_ok_iff (count : ℕ × ℕ → Option ℕ) (fs : List (FoundTx P)) (position : ℕ)
    (p : Placed P) (hs : ∀ f ∈ fs, f.Sound) (hb : fs.Pairwise fun f g => f.tx.Before g.tx)
    (hc : ∀ f ∈ fs, (count f.tx.key).getD 0 = f.issuance.cmxs.length) :
    placeTxs count (fs.map FoundTx.tx) position (fs.flatMap FoundTx.notes) = .ok p ↔
      ∃ rs, placeAll position fs = .ok rs ∧
        p = ⟨notesOf rs, rs.flatMap Receipt.messages, []⟩ := by
  induction fs generalizing position p with
  | nil =>
    simp only [List.map_nil, List.flatMap_nil, placeTxs, placeAll, Except.ok.injEq]
    constructor
    · rintro rfl
      exact ⟨[], rfl, rfl⟩
    · rintro ⟨rs, rfl, rfl⟩
      rfl
  | cons f fs ih =>
    rw [List.forall_mem_cons] at hs hc
    rw [List.pairwise_cons] at hb
    have hrest : ∀ n ∈ fs.flatMap FoundTx.notes, ¬ Found.OfTx f.tx n := by
      intro n hn hof
      obtain ⟨g, hg, hn⟩ := List.mem_flatMap.1 hn
      have hog := (hs.2 g hg).ofTx n hn
      exact (hb.1 g hg).key_ne (Prod.ext (hof.1.symm.trans hog.1) (hof.2.symm.trans hog.2))
    have hext : (count (f.tx.block.height, f.tx.ivtx)).getD 0 = f.issuance.cmxs.length := hc.1
    rw [List.map_cons, List.flatMap_cons, placeTxs, placeNotes_append _ _ _ _ hs.1.ofTx hrest]
    simp only [bind_eq_ok, Except.ok.injEq, placeAll_cons_ok, hext]
    constructor
    · rintro ⟨-, ⟨notes, hn, rfl⟩, q, hq, rfl⟩
      obtain ⟨rs, hr, rfl⟩ := (ih _ _ hs.2 hb.2 hc.2).1 hq
      refine ⟨_ :: rs, ⟨_, rs, bind_eq_ok.2 ⟨notes, hn, rfl⟩, ?_, rfl⟩, rfl⟩
      simpa [Receipt.leaves] using hr
    · rintro ⟨rs, ⟨r, qs, hr, hq, rfl⟩, rfl⟩
      obtain ⟨notes, hn, hr⟩ := bind_eq_ok.1 hr
      rw [Except.ok.injEq] at hr
      subst hr
      refine ⟨_, ⟨notes, hn, rfl⟩, _, (ih _ _ hs.2 hb.2 hc.2).2 ⟨qs, ?_, rfl⟩, rfl⟩
      simpa [Receipt.leaves] using hq

theorem placeAll_map {α : Type} (g : TxAt H → List H → α) (position : ℕ) (fs : List (FoundTx P))
    (rs : List (Receipt H)) (hr : placeAll position fs = .ok rs) :
    rs.map (fun r => g r.tx r.issuance) = fs.map fun f => g f.tx f.issuance.cmxs := by
  induction fs generalizing position rs with
  | nil => simp [placeAll] at hr; subst hr; rfl
  | cons f fs ih =>
    obtain ⟨r, qs, hp, hq, rfl⟩ := (placeAll_cons_ok _ _ _ _).1 hr
    obtain ⟨h1, h2, -, -⟩ := placeFound_ok position f r hp
    rw [List.map_cons, List.map_cons, ih _ qs hq, h1, h2]

theorem placeAll_outputs (position : ℕ) (fs : List (FoundTx P)) (rs : List (Receipt H))
    (hr : placeAll position fs = .ok rs) :
    ∀ r ∈ rs, r.outputs = (P.extractOutputs r.tx.tx).map P.extractCmx := by
  induction fs generalizing position rs with
  | nil => simp [placeAll] at hr; subst hr; simp
  | cons f fs ih =>
    obtain ⟨r, qs, hp, hq, rfl⟩ := (placeAll_cons_ok _ _ _ _).1 hr
    obtain ⟨h1, -, h3, -⟩ := placeFound_ok position f r hp
    rw [List.forall_mem_cons]
    exact ⟨by rw [h3, h1], ih _ qs hq⟩

/-! ### Issuance commitments by transaction -/

section Maps
variable {α : Type} (key : α → ℕ × ℕ) (cmxs : α → List H)

def entriesOf (xs : List α) : List ((ℕ × ℕ) × List H) :=
  xs.filterMap fun x => if cmxs x = [] then none else some (key x, cmxs x)

theorem entriesOf_keys_sublist (xs : List α) :
    ((entriesOf key cmxs xs).map Prod.fst).Sublist (xs.map key) := by
  induction xs with
  | nil => simp [entriesOf]
  | cons x xs ih =>
    by_cases hx : cmxs x = []
    · simpa [entriesOf, hx] using ih.cons (key x)
    · simpa [entriesOf, hx] using ih.cons_cons (key x)

/-- A transaction without issuance notes has no entry, and reads as the empty list. -/
theorem hashMap_entriesOf (xs : List α) (hd : (xs.map key).Nodup) (x : α) (hx : x ∈ xs) :
    (hashMap (entriesOf key cmxs xs) (key x)).getD [] = cmxs x := by
  have hn : ((entriesOf key cmxs xs).map Prod.fst).Nodup :=
    hd.sublist (entriesOf_keys_sublist key cmxs xs)
  by_cases hc : cmxs x = []
  · rw [hashMap_of_notMem, hc, Option.getD_none]
    intro hm
    obtain ⟨e, he, hek⟩ := List.mem_map.1 hm
    obtain ⟨y, hy, hye⟩ := List.mem_filterMap.1 he
    split_ifs at hye with hyc
    rw [Option.some.injEq] at hye
    have hkey : key y = key x := by rw [← hek, ← hye]
    exact hyc (by rw [List.inj_on_of_nodup_map hd hy hx hkey]; exact hc)
  · have hm : (key x, cmxs x) ∈ entriesOf key cmxs xs :=
      List.mem_filterMap.2 ⟨x, hx, by simp [hc]⟩
    rw [hashMap_of_mem _ hn _ _ hm, Option.getD_some]

theorem hashMap_map_length {κ : Type} [DecidableEq κ] (es : List (κ × List H)) (k : κ) :
    (hashMap (es.map fun e => (e.1, e.2.length)) k).getD 0 = ((hashMap es k).getD []).length := by
  suffices hf : ∀ (m : κ → Option (List H)) (n : κ → Option ℕ),
      (∀ k, n k = (m k).map List.length) →
      (es.map fun e => (e.1, e.2.length)).foldl mapInsert n k =
        (es.foldl mapInsert m k).map List.length by
    rw [hashMap, hashMap, hf (fun _ => none) (fun _ => none) (fun _ => rfl)]
    cases es.foldl mapInsert (fun _ => none) k <;> rfl
  induction es with
  | nil => intro m n hmn; exact hmn k
  | cons e es ih =>
    intro m n hmn
    rw [List.map_cons, List.foldl_cons, List.foldl_cons]
    apply ih
    intro j
    by_cases hj : j = e.1
    · subst hj; simp [mapInsert]
    · simp [mapInsert, Function.update_of_ne hj, hmn j]

end Maps

def issuanceEntries (rs : List (Receipt H)) : List ((ℕ × ℕ) × List H) :=
  entriesOf (fun r : Receipt H => r.tx.key) Receipt.issuance rs

/-! ### The scan of a chunk -/

theorem findTxs_before (assetBaseOf : AssetBaseOf) (keys : List (Key P))
    (blocks : List (CompactBlock H)) (ha : Ascending blocks) (fs : List (FoundTx P))
    (hf : findTxs assetBaseOf keys (chunkTxs blocks) = .ok fs) :
    fs.Pairwise fun f g => f.tx.Before g.tx := by
  have hb := chunkTxs_before blocks ha
  rw [← findTxs_tx _ _ _ _ hf, List.pairwise_map] at hb
  exact hb

theorem nodup_keys {α : Type} (f : α → TxAt H) (xs : List α)
    (hb : xs.Pairwise fun a b => (f a).Before (f b)) : (xs.map fun x => (f x).key).Nodup := by
  rw [List.nodup_iff_pairwise_ne, List.pairwise_map]
  exact hb.imp TxAt.Before.key_ne

theorem issuanceCmxs_found (position : ℕ) (fs : List (FoundTx P)) (rs : List (Receipt H))
    (hr : placeAll position fs = .ok rs) :
    issuanceCmxs (fs.map fun f => (f.tx, f.issuance)) = issuanceEntries rs := by
  have hm := congrArg (List.filterMap id) (placeAll_map (fun t c => if c = [] then none
    else some (t.key, c)) position fs rs hr)
  simp only [List.filterMap_map, Function.comp_def, id_eq] at hm
  simpa [List.filterMap_map, issuanceCmxs, issuanceEntries, entriesOf, TxAt.key]
    using hm.symm

/-- Once the notes of a chunk are found, sorting and placing them is `placeAll`. -/
theorem placeTxs_sorted_ok_iff (hP : P.Lawful) (assetBaseOf : AssetBaseOf) (keys : List (Key P))
    (position : ℕ) (blocks : List (CompactBlock H)) (ha : Ascending blocks)
    (fs : List (FoundTx P)) (hf : findTxs assetBaseOf keys (chunkTxs blocks) = .ok fs)
    (p : Placed P) :
    placeTxs (hashMap ((issuanceCmxs (fs.map fun f => (f.tx, f.issuance))).map
        fun e => (e.1, e.2.length))) (chunkTxs blocks) position
      ((fs.flatMap FoundTx.actions ++
        (fs.map fun f => (f.tx, f.issuance)).flatMap fun i => i.2.found).insertionSort noteLe) =
        .ok p ↔
      ∃ rs, placeAll position fs = .ok rs ∧
        p = ⟨notesOf rs, rs.flatMap Receipt.messages, []⟩ := by
  have hsound := findTxs_sound hP _ _ _ _ hf
  have hbefore := findTxs_before _ _ _ ha _ hf
  have hcount : ∀ f ∈ fs, ((hashMap ((issuanceCmxs (fs.map fun f => (f.tx, f.issuance))).map
      fun e => (e.1, e.2.length))) f.tx.key).getD 0 = f.issuance.cmxs.length := by
    intro f hm
    have he : issuanceCmxs (fs.map fun f => (f.tx, f.issuance)) =
        entriesOf (fun f => f.tx.key) (fun f => f.issuance.cmxs) fs := by
      simp [issuanceCmxs, entriesOf, List.filterMap_map, TxAt.key]
    rw [hashMap_map_length, he,
      hashMap_entriesOf _ _ _ (nodup_keys FoundTx.tx fs hbefore) f hm]
  rw [List.flatMap_map, sort_chain fs hsound hbefore, ← findTxs_tx _ _ _ _ hf]
  exact placeTxs_ok_iff _ fs position p hsound hbefore hcount

theorem scanNotes_ok_iff (hP : P.Lawful) (assetBaseOf : AssetBaseOf) (s : Synchronizer P)
    (blocks : List (CompactBlock H)) (ha : Ascending blocks) (scan : NoteScan P) :
    scanNotes assetBaseOf s blocks = .ok scan ↔
      ∃ rs, receive assetBaseOf s.keys s.position (chunkTxs blocks) = .ok rs ∧
        scan = ⟨⟨notesOf rs, rs.flatMap Receipt.messages, []⟩, issuanceEntries rs⟩ := by
  unfold scanNotes receive
  simp only [bind_eq_ok, Except.ok.injEq]
  constructor
  · rintro ⟨as, has, is, his, p, hp, rfl⟩
    obtain ⟨fs, hf, rfl, rfl⟩ := (scans_ok_iff _ _ _ _ _).1 ⟨has, his⟩
    obtain ⟨rs, hr, rfl⟩ := (placeTxs_sorted_ok_iff hP _ _ _ _ ha fs hf p).1 hp
    exact ⟨rs, ⟨fs, hf, hr⟩, by rw [issuanceCmxs_found _ fs rs hr]⟩
  · rintro ⟨rs, ⟨fs, hf, hr⟩, rfl⟩
    obtain ⟨has, his⟩ := (scans_ok_iff _ _ _ _ _).2 ⟨fs, hf, rfl, rfl⟩
    exact ⟨_, has, _, his, _, (placeTxs_sorted_ok_iff hP _ _ _ _ ha fs hf _).2 ⟨rs, hr, rfl⟩,
      by rw [issuanceCmxs_found _ fs rs hr]⟩

/-! ### Receipts of a chunk -/

theorem receive_tx {assetBaseOf : AssetBaseOf} {keys : List (Key P)} {position : ℕ}
    {ts : List (TxAt H)} {rs : List (Receipt H)}
    (hr : receive assetBaseOf keys position ts = .ok rs) : rs.map Receipt.tx = ts := by
  obtain ⟨fs, hf, hr⟩ := bind_eq_ok.1 hr
  rw [placeAll_map (fun t _ => t) position fs rs hr, findTxs_tx _ _ _ _ hf]

theorem collectCmxs_receive {assetBaseOf : AssetBaseOf} {keys : List (Key P)} {position : ℕ}
    {blocks : List (CompactBlock H)} (ha : Ascending blocks) {rs : List (Receipt H)}
    (hr : receive assetBaseOf keys position (chunkTxs blocks) = .ok rs) :
    collectCmxs P (hashMap (issuanceEntries rs)) (chunkTxs blocks) =
      (leavesOf rs, (leavesOf rs).length) := by
  have hb := chunkTxs_before blocks ha
  rw [← receive_tx hr, List.pairwise_map] at hb
  have hmap : ∀ r ∈ rs, (hashMap (issuanceEntries rs) r.tx.key).getD [] = r.issuance :=
    fun r hm => hashMap_entriesOf (fun r : Receipt H => r.tx.key) Receipt.issuance rs
      (nodup_keys Receipt.tx rs hb) r hm
  obtain ⟨fs, -, hp⟩ := bind_eq_ok.1 hr
  have hout := placeAll_outputs position fs rs hp
  rw [← receive_tx hr]
  generalize hashMap (issuanceEntries rs) = m at hmap
  clear hr hb hp
  induction rs with
  | nil => rfl
  | cons r rs ih =>
    rw [List.forall_mem_cons] at hmap hout
    have hk : (m (r.tx.block.height, r.tx.ivtx)).getD [] = r.issuance := hmap.1
    rw [List.map_cons, collectCmxs, ih hout.2 hmap.2, hk, ← hout.1]
    simp only [leavesOf, List.flatMap_cons, Receipt.leaves, List.length_append]
    ext1
    · rfl
    · simp only; omega

theorem u32_add (a b : ℕ) : u32 (u32 a + b) = u32 (a + b) := by
  unfold u32
  omega

theorem placeAll_append_ok (position : ℕ) (fs gs : List (FoundTx P)) (rs : List (Receipt H))
    (hu : u32 position = position) :
    placeAll position (fs ++ gs) = .ok rs ↔ ∃ xs ys, placeAll position fs = .ok xs ∧
      placeAll (u32 (position + (leavesOf xs).length)) gs = .ok ys ∧ rs = xs ++ ys := by
  induction fs generalizing position rs with
  | nil => simp [placeAll, leavesOf, hu]
  | cons f fs ih =>
    have hstep : ∀ (r : Receipt H) (qs : List (Receipt H)),
        u32 (u32 (position + r.leaves.length) + (leavesOf qs).length) =
          u32 (position + (leavesOf (r :: qs)).length) := by
      intro r qs
      rw [u32_add]
      simp [leavesOf, Nat.add_assoc]
    rw [List.cons_append, placeAll_cons_ok]
    constructor
    · rintro ⟨r, qs, hr, hq, rfl⟩
      obtain ⟨xs, ys, hx, hy, rfl⟩ := (ih _ _ (by simp [u32])).1 hq
      rw [hstep] at hy
      exact ⟨r :: xs, ys, (placeAll_cons_ok _ _ _ _).2 ⟨r, xs, hr, hx, rfl⟩, hy, rfl⟩
    · rintro ⟨zs, ys, hz, hy, rfl⟩
      obtain ⟨r, xs, hr, hx, rfl⟩ := (placeAll_cons_ok _ _ _ _).1 hz
      rw [← hstep] at hy
      exact ⟨r, xs ++ ys, hr, (ih _ _ (by simp [u32])).2 ⟨xs, ys, hx, hy, rfl⟩, rfl⟩

/-- Receiving the transactions of two consecutive lists of blocks. -/
theorem receive_append_ok (assetBaseOf : AssetBaseOf) (keys : List (Key P)) (position : ℕ)
    (ts us : List (TxAt H)) (rs : List (Receipt H)) (hu : u32 position = position) :
    receive assetBaseOf keys position (ts ++ us) = .ok rs ↔
      ∃ xs ys, receive assetBaseOf keys position ts = .ok xs ∧
        receive assetBaseOf keys (u32 (position + (leavesOf xs).length)) us = .ok ys ∧
        rs = xs ++ ys := by
  unfold receive findTxs
  simp only [bind_eq_ok, flatMapM_append_ok]
  constructor
  · rintro ⟨-, ⟨fs, gs, hf, hg, rfl⟩, hp⟩
    obtain ⟨xs, ys, hx, hy, rfl⟩ := (placeAll_append_ok _ _ _ _ hu).1 hp
    exact ⟨xs, ys, ⟨fs, hf, hx⟩, ⟨gs, hg, hy⟩, rfl⟩
  · rintro ⟨xs, ys, ⟨fs, hf, hx⟩, ⟨gs, hg, hy⟩, rfl⟩
    exact ⟨fs ++ gs, ⟨fs, gs, hf, hg, rfl⟩, (placeAll_append_ok _ _ _ _ hu).2
      ⟨xs, ys, hx, hy, rfl⟩⟩

end ZcashSdk.Shielded
