import ZcashSdk.Db.MessageEffects
import ZcashSdk.Shielded.ChunkShape

set_option autoImplicit false

/-!
# One synchronizer's part of a chunk

A synchronizer follows the notes of its pool when each tracked note has its row and each
row of its accounts is tracked or marked as spent. The part of a chunk's batch that one
synchronizer sends keeps this, and gives every note that was not spent before a witness
at the chunk's height. Only what the database accepts is looked at here.
-/
namespace ZcashSdk.Wallet
open Tables Shielded Db Loops

variable {H : Type} [DecidableEq H]

/-! ### Notes, spends and witnesses of the database -/

/-- A tracked note and its row. -/
def Is (u : UTXO H) (n : NoteRow H) : Prop :=
  n.account = u.account ∧ n.nullifier = .shielded u.nullifier ∧ n.cmx = some u.cmx

def SpentBy (db : Database H) (n : NoteRow H) (height : ℕ) : Prop :=
  ∃ s ∈ db.spends.rows, s.idNote = n.idNote ∧ s.height ≤ height

def WitnessedAt (db : Database H) (n : NoteRow H) (height : ℕ) : Prop :=
  ∃ w ∈ db.witnesses.rows, w.account = n.account ∧ w.note = n.idNote ∧ w.height = height

theorem SpentBy.grows {db db' : Database H} (hg : Grows db db') {n : NoteRow H} {h h' : ℕ}
    (hs : SpentBy db n h) (hh : h ≤ h') : SpentBy db' n h' := by
  obtain ⟨s, hm, hid, hle⟩ := hs
  exact ⟨s, hg.spends s hm, hid, hle.trans hh⟩

theorem WitnessedAt.grows {db db' : Database H} (hg : Grows db db') {n : NoteRow H} {h : ℕ}
    (hw : WitnessedAt db n h) : WitnessedAt db' n h := by
  obtain ⟨w, hm, hrest⟩ := hw
  exact ⟨w, hg.witnesses w hm, hrest⟩

theorem Is.unique {db : Database H} {u v : UTXO H} {m n : NoteRow H} (hm : m ∈ db.notes.rows)
    (hn : n ∈ db.notes.rows) (hu : Is u m) (hv : Is v n) (hk : u.key = v.key) : m = n := by
  have h1 : u.account = v.account := congrArg Prod.fst hk
  have h2 : u.nullifier = v.nullifier := congrArg Prod.snd hk
  refine db.notes.eq_of_clash hm hn (Or.inr ⟨?_, ?_⟩)
  · rw [hu.1, hv.1, h1]
  · rw [hu.2.1, hv.2.1, h2]

variable {P : ShieldedProtocol H}

/-- The tracked notes are those of the synchronizer's accounts, and have their rows. -/
structure Holds (db : Database H) (s : Synchronizer P) (height : ℕ) : Prop where
  owners : ∀ u ∈ s.utxos, u.account ∈ s.accounts
  held : ∀ u ∈ s.utxos, ∃ n ∈ db.notes.rows, Is u n ∧ n.height ≤ height

/-- The synchronizer knows the notes of its pool and accounts, as of a height. -/
structure Tracks (db : Database H) (s : Synchronizer P) (height : ℕ) : Prop where
  owners : ∀ u ∈ s.utxos, u.account ∈ s.accounts
  held : ∀ u ∈ s.utxos, ∃ n ∈ db.notes.rows, Is u n ∧ n.height ≤ height
  tracked : ∀ n ∈ db.notes.rows, n.account ∈ s.accounts → n.pool = s.pool →
    (∃ u ∈ s.utxos, Is u n) ∨ SpentBy db n height

theorem Tracks.holds {db : Database H} {s : Synchronizer P} {height : ℕ} (h : Tracks db s height) :
    Holds db s height := ⟨h.owners, h.held⟩

/-! ### What a chain guarantees -/

/-- The pool of a note is that of the bundle it was found in, and its nullifier is not
    revealed before it. -/
structure InOrder (assetBaseOf : AssetBaseOf) (s : Synchronizer P)
    (blocks : List (CompactBlock H)) : Prop where
  filed : ∀ rs, receive assetBaseOf s.keys s.position (chunkTxs blocks) = .ok rs →
    ∀ n ∈ notesOf rs, n.pool = s.pool
  ordered : ∀ rs, receive assetBaseOf s.keys s.position (chunkTxs blocks) = .ok rs →
    ∀ n ∈ notesOf rs, ∀ e ∈ spendEvents P s.accounts (chunkTxs blocks),
      e.2 = (n.account, n.nf) → n.height ≤ e.1.block.height

/-- A transaction that is stored already is stored at the height the chain has it. -/
def HeightsAgree (db : Database H) (accounts : List ℕ) (ts : List (TxAt H)) : Prop :=
  ∀ t ∈ db.transactions.rows, t.account ∈ accounts → ∀ x ∈ ts, t.txid = x.tx.hash →
    t.height = x.block.height

def TxidsUnique (ts : List (TxAt H)) : Prop :=
  ∀ x ∈ ts, ∀ y ∈ ts, x.tx.hash = y.tx.hash → x.block.height = y.block.height

/-! ### The part of the batch -/

variable [Inhabited H]

omit [DecidableEq H] in
theorem is_bare {u : UTXO H} {n : NoteRow H} : Is u.bare n ↔ Is u n := Iff.rfl

omit [DecidableEq H] in
theorem Is.of_bare {u v : UTXO H} {n : NoteRow H} (hb : u.bare = v.bare) (h : Is u n) : Is v n :=
  is_bare.1 (hb ▸ is_bare.2 h)

omit [DecidableEq H] in
theorem key_of_bare {u v : UTXO H} (hb : u.bare = v.bare) : u.key = v.key := by
  rw [← bare_key u, hb, bare_key]

omit [DecidableEq H] [Inhabited H] in
theorem isScan_receipts (rs : List (Receipt H)) :
    ∀ m ∈ rs.flatMap Receipt.messages, isScan m = true := by
  intro m hm
  obtain ⟨r, -, hm⟩ := List.mem_flatMap.1 hm
  obtain ⟨n, -, hm⟩ := List.mem_flatMap.1 hm
  simp only [noteMessages, List.mem_cons, List.not_mem_nil, or_false] at hm
  rcases hm with rfl | rfl <;> rfl

omit [DecidableEq H] [Inhabited H] in
theorem mem_receipts {rs : List (Receipt H)} {m : WarpSyncMessage H}
    (hm : m ∈ rs.flatMap Receipt.messages) :
    ∃ r ∈ rs, ∃ n ∈ r.notes, m = .transaction (txOf r.tx n.account) ∨ m = .note n := by
  obtain ⟨r, hr, hm⟩ := List.mem_flatMap.1 hm
  obtain ⟨n, hn, hm⟩ := List.mem_flatMap.1 hm
  simp only [noteMessages, List.mem_cons, List.not_mem_nil, or_false] at hm
  exact ⟨r, hr, n, hn, hm⟩

def reports (s : Synchronizer P) (height : ℕ) (ts : List (TxAt H)) (tracked : List (UTXO H)) :
    List (WarpSyncMessage H) :=
  tracked.map (witnessMessage height) ++ (spendMessages tracked (spendEvents P s.accounts ts) ++
    [.checkpoint s.accounts s.pool height])

omit [Inhabited H] in
theorem mem_reports {s : Synchronizer P} {height : ℕ} {ts : List (TxAt H)}
    {tracked : List (UTXO H)} {m : WarpSyncMessage H} (hm : m ∈ reports s height ts tracked) :
    (∃ u ∈ tracked, m = witnessMessage height u) ∨
      (∃ e ∈ spendEvents P s.accounts ts, ∃ u ∈ tracked, u.key = e.2 ∧
        (m = .transaction (txOf e.1 u.account) ∨ m = .spend { u with txid := e.1.tx.hash })) ∨
      m = .checkpoint s.accounts s.pool height := by
  rcases List.mem_append.1 hm with hm | hm
  · obtain ⟨u, hu, rfl⟩ := List.mem_map.1 hm
    exact Or.inl ⟨u, hu, rfl⟩
  · rcases List.mem_append.1 hm with hm | hm
    · exact Or.inr (Or.inl (spendMessages_mem hm))
    · exact Or.inr (Or.inr (List.mem_singleton.1 hm))

omit [Inhabited H] in
theorem isScan_reports {s : Synchronizer P} {height : ℕ} {ts : List (TxAt H)}
    {tracked : List (UTXO H)} : ∀ m ∈ reports s height ts tracked, isScan m = true := by
  intro m hm
  rcases mem_reports hm with ⟨u, -, rfl⟩ | ⟨e, -, u, -, -, rfl | rfl⟩ | rfl <;> rfl

omit [DecidableEq H] [Inhabited H] in
theorem mem_spendEvents {accounts : List ℕ} {ts : List (TxAt H)} {e : TxAt H × (ℕ × H)}
    (he : e ∈ spendEvents P accounts ts) : e.1 ∈ ts := by
  obtain ⟨t, ht, he⟩ := List.mem_flatMap.1 he
  obtain ⟨k, -, rfl⟩ := List.mem_map.1 he
  exact ht

section Tracked
variable {pool : ℕ} {utxos tracked : List (UTXO H)} {ns : List (Note H)}

theorem tracked_from (hb : tracked.map UTXO.bare = trackedBare pool utxos ns) {v : UTXO H}
    (hv : v ∈ tracked) :
    (∃ u ∈ utxos, u.bare = v.bare) ∨ ∃ n ∈ ns, toUtxo pool n = v.bare := by
  have hm : v.bare ∈ trackedBare pool utxos ns := by
    rw [← hb]
    exact List.mem_map_of_mem hv
  rcases mem_insertAll hm with hm | hm
  · obtain ⟨u, hu, hb⟩ := List.mem_map.1 hm
    exact Or.inl ⟨u, hu, hb⟩
  · obtain ⟨n, hn, hb⟩ := List.mem_map.1 hm
    exact Or.inr ⟨n, hn, hb⟩

theorem tracked_has (hb : tracked.map UTXO.bare = trackedBare pool utxos ns) {k : ℕ × H}
    (hk : k ∈ utxos.map UTXO.key ∨ k ∈ ns.map fun n => (n.account, n.nf)) :
    ∃ v ∈ tracked, v.key = k := by
  have hkeys : k ∈ (trackedBare pool utxos ns).map UTXO.key := by
    refine (keys_insertAll _ _ k).2 (hk.imp ?_ ?_)
    · intro hk
      rwa [List.map_map]
    · intro hk
      rwa [List.map_map]
  rw [← hb, List.map_map] at hkeys
  exact List.mem_map.1 hkeys

end Tracked

/-- A synchronizer's `add` of a chunk and what the database made of its messages. -/
structure Stage (env : WriterEnv) (assetBaseOf : AssetBaseOf) (db db' : Database H)
    (s s' : Synchronizer P) (blocks : List (CompactBlock H)) (height : ℕ) where
  rs : List (Receipt H)
  tracked : List (UTXO H)
  mid : Database H
  received : receive assetBaseOf s.keys s.position (chunkTxs blocks) = .ok rs
  bare : tracked.map UTXO.bare = trackedBare s.pool s.utxos (notesOf rs)
  stored : commitWarpMessages env db (rs.flatMap Receipt.messages) = .ok mid
  reported : commitWarpMessages env mid (reports s height (chunkTxs blocks) tracked) = .ok db'
  pool : s'.pool = s.pool
  keys : s'.keys = s.keys
  utxos : s'.utxos = tracked.filter fun u => u.key ∉ spentKeys P s.accounts (chunkTxs blocks)

theorem exists_stage (hP : P.Lawful) {env : WriterEnv} {assetBaseOf : AssetBaseOf}
    {db db' : Database H} {s s' : Synchronizer P} {blocks : List (CompactBlock H)}
    (ha : Ascending blocks) {last : CompactBlock H} (hlast : blocks.getLast? = some last)
    {msgs : List (WarpSyncMessage H)} (hadd : s.add assetBaseOf blocks = .ok (s', msgs))
    (hc : commitWarpMessages env db msgs = .ok db') :
    Nonempty (Stage env assetBaseOf db db' s s' blocks last.height) := by
  obtain ⟨rs, tracked, hr, hb, rfl, hp, hk, hu⟩ := add_shape hP ha hlast hadd
  rw [messagesOf, List.append_assoc, List.append_assoc] at hc
  obtain ⟨mid, hmid, hc⟩ := commit_append_ok.1 hc
  exact ⟨⟨rs, tracked, mid, hr, hb, hmid, hc, hp, hk, hu⟩⟩

namespace Stage
variable {env : WriterEnv} {assetBaseOf : AssetBaseOf} {db db' : Database H}
  {s s' : Synchronizer P} {blocks : List (CompactBlock H)} {h₀ height : ℕ}

theorem grows_mid (st : Stage env assetBaseOf db db' s s' blocks height) : Grows db st.mid :=
  commit_grows (isScan_receipts st.rs) st.stored

theorem grows_end (st : Stage env assetBaseOf db db' s s' blocks height) : Grows st.mid db' :=
  commit_grows isScan_reports st.reported

theorem grows (st : Stage env assetBaseOf db db' s s' blocks height) : Grows db db' :=
  st.grows_mid.trans st.grows_end

theorem tracked_cases (st : Stage env assetBaseOf db db' s s' blocks height) {v : UTXO H}
    (hv : v ∈ st.tracked) :
    (∃ u ∈ s.utxos, u.bare = v.bare) ∨ ∃ n ∈ notesOf st.rs, toUtxo s.pool n = v.bare :=
  tracked_from st.bare hv

theorem key_tracked (st : Stage env assetBaseOf db db' s s' blocks height) {k : ℕ × H}
    (hk : k ∈ s.utxos.map UTXO.key ∨ k ∈ (notesOf st.rs).map fun n => (n.account, n.nf)) :
    ∃ v ∈ st.tracked, v.key = k :=
  tracked_has st.bare hk

theorem row_of_note (st : Stage env assetBaseOf db db' s s' blocks height) {n : Note H}
    (hn : n ∈ notesOf st.rs) :
    ∃ t a i, t.account = n.account ∧ Database.noteRow env n t a i ∈ st.mid.notes.rows :=
  note_of_mem (isScan_receipts st.rs) st.stored (mem_noteMessages hn)

/-- Every tracked note has its row once the receipts are stored, at the height of a note
    held before or of one received now. -/
theorem row_mid (st : Stage env assetBaseOf db db' s s' blocks height) (ht : Holds db s h₀)
    {v : UTXO H} (hv : v ∈ st.tracked) :
    ∃ n ∈ st.mid.notes.rows, Is v n ∧ (n.height ≤ h₀ ∨
      ∃ k ∈ notesOf st.rs, (k.account, k.nf) = v.key ∧ n.height = k.height) := by
  rcases st.tracked_cases hv with ⟨u, hu, hb⟩ | ⟨k, hk, hb⟩
  · obtain ⟨n, hn, his, hle⟩ := ht.held u hu
    exact ⟨n, st.grows_mid.notes n hn, his.of_bare hb, Or.inl hle⟩
  · obtain ⟨t, a, i, hacc, hrow⟩ := st.row_of_note hk
    refine ⟨_, hrow, ?_, Or.inr ⟨k, hk, ?_, rfl⟩⟩
    · rw [← is_bare, ← hb]
      exact ⟨hacc, rfl, rfl⟩
    · rw [← bare_key v, ← hb]
      rfl

theorem held_mid (st : Stage env assetBaseOf db db' s s' blocks height) (ht : Holds db s h₀)
    {v : UTXO H} (hv : v ∈ st.tracked) : ∃ n ∈ st.mid.notes.rows, Is v n := by
  obtain ⟨n, hn, his, -⟩ := st.row_mid ht hv
  exact ⟨n, hn, his⟩

theorem owner (st : Stage env assetBaseOf db db' s s' blocks height) (hP : P.Lawful)
    (ht : Holds db s h₀) {v : UTXO H} (hv : v ∈ st.tracked) : v.account ∈ s.accounts := by
  rcases st.tracked_cases hv with ⟨u, hu, hb⟩ | ⟨n, hn, hb⟩
  · have := ht.owners u hu
    rwa [show u.account = v.account from congrArg Prod.fst (key_of_bare hb)] at this
  · obtain ⟨r, hr, hn⟩ := List.mem_flatMap.1 hn
    have hacc := (receive_note hP st.received hr hn).2.2.2
    rwa [show n.account = v.account from congrArg UTXO.account hb] at hacc

theorem note_mid (st : Stage env assetBaseOf db db' s s' blocks height) {n : NoteRow H}
    (hn : n ∈ db'.notes.rows) : n ∈ st.mid.notes.rows := by
  rcases note_from isScan_reports st.reported hn with hn | ⟨m, t, a, i, hm, -, -⟩
  · exact hn
  · rcases mem_reports hm with ⟨u, -, h⟩ | ⟨e, -, u, -, -, h | h⟩ | h <;>
      simp [witnessMessage] at h

theorem note_cases (st : Stage env assetBaseOf db db' s s' blocks height) (hP : P.Lawful)
    {n : NoteRow H} (hn : n ∈ db'.notes.rows) :
    n ∈ db.notes.rows ∨ ∃ m ∈ notesOf st.rs, ∃ x ∈ chunkTxs blocks, n.account ∈ s.accounts ∧
      n.account = m.account ∧ n.nullifier = .shielded m.nf ∧ n.cmx = some m.cmx ∧
      n.pool = m.pool ∧ n.position = some m.position ∧ n.height = m.height ∧
      m.height = x.block.height := by
  rcases note_from (isScan_receipts st.rs) st.stored (st.note_mid hn) with
    hn | ⟨m, t, a, i, hm, hacc, rfl⟩
  · exact Or.inl hn
  · obtain ⟨r, hr, k, hk, h | h⟩ := mem_receipts hm
    · simp at h
    · rw [WarpSyncMessage.note.injEq] at h
      subst h
      obtain ⟨hx, hh, -, hown⟩ := receive_note hP st.received hr hk
      refine Or.inr ⟨m, List.mem_flatMap.2 ⟨r, hr, hk⟩, r.tx, hx, ?_, hacc, rfl, rfl, rfl, rfl,
        rfl, hh⟩
      change t.account ∈ s.accounts
      rw [hacc]
      exact hown

/-- Every note of the pool is tracked when the witnesses are sent, or was spent before. -/
theorem tracked_row (st : Stage env assetBaseOf db db' s s' blocks height) (hP : P.Lawful)
    (ht : Tracks db s h₀) {n : NoteRow H} (hn : n ∈ db'.notes.rows)
    (hacc : n.account ∈ s.accounts) (hpool : n.pool = s.pool) :
    (∃ v ∈ st.tracked, Is v n) ∨ SpentBy db n h₀ := by
  have hmid := st.note_mid hn
  -- any tracked note with the key of the row has its own row, which is then this one
  have hkey : ∀ k, n.account = k.1 → n.nullifier = .shielded k.2 →
      (k ∈ s.utxos.map UTXO.key ∨ k ∈ (notesOf st.rs).map fun n => (n.account, n.nf)) →
      ∃ v ∈ st.tracked, Is v n := by
    intro k h1 h2 hk
    obtain ⟨v, hv, rfl⟩ := st.key_tracked hk
    obtain ⟨m, hm, his⟩ := st.held_mid ht.holds hv
    obtain rfl : m = n := st.mid.notes.eq_of_clash hm hmid
      (Or.inr ⟨his.1.trans h1.symm, his.2.1.trans h2.symm⟩)
    exact ⟨v, hv, his⟩
  rcases st.note_cases hP hn with hold | ⟨m, hm, -, -, -, h1, h2, -⟩
  · rcases ht.tracked n hold hacc hpool with ⟨u, hu, his⟩ | hs
    · exact Or.inl (hkey u.key his.1 his.2.1 (Or.inl (List.mem_map_of_mem hu)))
    · exact Or.inr hs
  · exact Or.inl (hkey (m.account, m.nf) h1 h2 (Or.inr (List.mem_map_of_mem hm)))

theorem witnessed (st : Stage env assetBaseOf db db' s s' blocks height) {n : NoteRow H}
    (hn : n ∈ db'.notes.rows) {v : UTXO H} (hv : v ∈ st.tracked) (his : Is v n) :
    WitnessedAt db' n height := by
  have hm : witnessMessage height v ∈ reports s height (chunkTxs blocks) st.tracked :=
    List.mem_append_left _ (List.mem_map_of_mem hv)
  obtain ⟨w, hw, hacc, hnote, hh, -⟩ :=
    witness_of_mem isScan_reports st.reported hm (st.note_mid hn) his.1 his.2.2
  exact ⟨w, hw, hacc.trans his.1.symm, hnote, hh⟩

theorem heightsAgree (st : Stage env assetBaseOf db db' s s' blocks height) (hP : P.Lawful)
    {accounts : List ℕ} (hu : TxidsUnique (chunkTxs blocks))
    (ha : HeightsAgree db accounts (chunkTxs blocks)) :
    HeightsAgree db' accounts (chunkTxs blocks) := by
  -- a transaction message is about a transaction of the chunk, at its height
  have hmid : HeightsAgree st.mid accounts (chunkTxs blocks) := by
    intro t ht hacc x hx hid
    rcases transaction_from (isScan_receipts st.rs) st.stored ht with
      ⟨t', ht', hsame⟩ | ⟨tx, htx, -, htxid, hh⟩
    · rw [hsame.2.2.2]
      exact ha t' ht' (hsame.2.1 ▸ hacc) x hx (hsame.2.2.1 ▸ hid)
    · obtain ⟨r, hr, k, hk, h | h⟩ := mem_receipts htx
      · rw [WarpSyncMessage.transaction.injEq] at h
        subst h
        rw [hh]
        exact hu _ (receive_note hP st.received hr hk).1 x hx (htxid.symm.trans hid)
      · simp at h
  intro t ht hacc x hx hid
  rcases transaction_from isScan_reports st.reported ht with
    ⟨t', ht', hsame⟩ | ⟨tx, htx, -, htxid, hh⟩
  · rw [hsame.2.2.2]
    exact hmid t' ht' (hsame.2.1 ▸ hacc) x hx (hsame.2.2.1 ▸ hid)
  · rcases mem_reports htx with ⟨u, -, h⟩ | ⟨e, he, u, -, -, h | h⟩ | h
    · simp [witnessMessage] at h
    · rw [WarpSyncMessage.transaction.injEq] at h
      subst h
      rw [hh]
      exact hu _ (mem_spendEvents he) x hx (htxid.symm.trans hid)
    · simp at h
    · simp at h

theorem kept_or_spent (st : Stage env assetBaseOf db db' s s' blocks height) (ht : Tracks db s h₀)
    (ha : HeightsAgree db' s.accounts (chunkTxs blocks))
    (hle : ∀ x ∈ chunkTxs blocks, x.block.height ≤ height) {n : NoteRow H}
    (hn : n ∈ db'.notes.rows) (hacc : n.account ∈ s.accounts) {v : UTXO H} (hv : v ∈ st.tracked)
    (his : Is v n) : (∃ u ∈ s'.utxos, Is u n) ∨ SpentBy db' n height := by
  by_cases hs : v.key ∈ spentKeys P s.accounts (chunkTxs blocks)
  · obtain ⟨u, hu, hk⟩ := exists_spend hs (List.mem_map_of_mem hv)
    have hm : WarpSyncMessage.spend u ∈ reports s height (chunkTxs blocks) st.tracked :=
      List.mem_append_right _ (List.mem_append_left _ hu)
    obtain ⟨e, he, w, hw, -, h | h⟩ := spendMessages_mem hu
    · simp at h
    · rw [WarpSyncMessage.spend.injEq] at h
      subst h
      obtain ⟨m, hmm, hwm⟩ := st.held_mid ht.holds hw
      obtain rfl := Is.unique hmm (st.note_mid hn) hwm his hk
      obtain ⟨sp, hsp, hid, -, t, htr, hta, htx, hh⟩ :=
        spend_of_mem isScan_reports st.reported hm hmm hwm.1 hwm.2.2
      refine Or.inr ⟨sp, hsp, hid, ?_⟩
      have htacc : t.account ∈ s.accounts := by
        rw [hta]
        exact hwm.1 ▸ hacc
      rw [hh, ha t htr htacc e.1 (mem_spendEvents he) htx]
      exact hle e.1 (mem_spendEvents he)
  · refine Or.inl ⟨v, ?_, his⟩
    rw [st.utxos]
    exact List.mem_filter.2 ⟨hv, by simpa using hs⟩

theorem accounts_eq (st : Stage env assetBaseOf db db' s s' blocks height) :
    s'.accounts = s.accounts := by
  simp only [Synchronizer.accounts, st.keys]

theorem holds (st : Stage env assetBaseOf db db' s s' blocks height) (hP : P.Lawful)
    (ht : Holds db s h₀) (h0 : h₀ ≤ height)
    (hle : ∀ x ∈ chunkTxs blocks, x.block.height ≤ height) : Holds db' s' height where
  owners u hu := by
    rw [st.utxos] at hu
    rw [st.accounts_eq]
    exact st.owner hP ht (List.mem_filter.1 hu).1
  held u hu := by
    rw [st.utxos] at hu
    obtain ⟨n, hn, his, hh⟩ := st.row_mid ht (List.mem_filter.1 hu).1
    refine ⟨n, st.grows_end.notes n hn, his, ?_⟩
    rcases hh with hh | ⟨k, hk, -, hh⟩
    · exact hh.trans h0
    · obtain ⟨r, hr, hk⟩ := List.mem_flatMap.1 hk
      obtain ⟨hx, hkh, -, -⟩ := receive_note hP st.received hr hk
      rw [hh, hkh]
      exact hle _ hx

theorem tracks (st : Stage env assetBaseOf db db' s s' blocks height) (hP : P.Lawful)
    (ht : Tracks db s h₀) (h0 : h₀ ≤ height)
    (ha : HeightsAgree db' s.accounts (chunkTxs blocks))
    (hle : ∀ x ∈ chunkTxs blocks, x.block.height ≤ height) : Tracks db' s' height where
  owners := (st.holds hP ht.holds h0 hle).owners
  held := (st.holds hP ht.holds h0 hle).held
  tracked n hn hacc hpool := by
    rw [st.accounts_eq] at hacc
    rcases st.tracked_row hP ht hn hacc (hpool.trans st.pool) with ⟨v, hv, his⟩ | hs
    · exact st.kept_or_spent ht ha hle hn hacc hv his
    · exact Or.inr (hs.grows st.grows h0)

/-- Notes that were not spent before get a witness at the chunk's height. -/
theorem spent_or_witnessed (st : Stage env assetBaseOf db db' s s' blocks height) (hP : P.Lawful)
    (ht : Tracks db s h₀) {n : NoteRow H} (hn : n ∈ db'.notes.rows)
    (hacc : n.account ∈ s.accounts) (hpool : n.pool = s.pool) :
    SpentBy db n h₀ ∨ WitnessedAt db' n height := by
  rcases st.tracked_row hP ht hn hacc hpool with ⟨v, hv, his⟩ | hs
  · exact Or.inr (st.witnessed hn hv his)
  · exact Or.inl hs

theorem witness_cases (st : Stage env assetBaseOf db db' s s' blocks height) (hP : P.Lawful)
    (ht : Holds db s h₀) {w : WitnessRow H} (hw : w ∈ db'.witnesses.rows) :
    w ∈ db.witnesses.rows ∨ (w.height = height ∧ w.account ∈ s.accounts ∧
      ∃ n ∈ db'.notes.rows, n.idNote = w.note ∧ n.account = w.account ∧ n.cmx ≠ none) := by
  rcases witness_from isScan_reports st.reported hw with hw | ⟨n, hn, hid, hacc, cmx, hcmx, hm⟩
  · rcases witness_from (isScan_receipts st.rs) st.stored hw with hw | ⟨n, -, -, -, cmx, -, hm⟩
    · exact Or.inl hw
    · obtain ⟨r, -, k, -, h | h⟩ := mem_receipts hm <;> simp at h
  · rcases mem_reports hm with ⟨u, hu, h⟩ | ⟨e, -, u, -, -, h | h⟩ | h
    · rw [witnessMessage, WarpSyncMessage.witness.injEq] at h
      refine Or.inr ⟨h.2.1, h.1 ▸ st.owner hP ht hu, n, hn, hid, hacc, ?_⟩
      rw [hcmx]
      exact Option.some_ne_none _
    · simp at h
    · simp at h
    · simp at h

theorem spend_cases (st : Stage env assetBaseOf db db' s s' blocks height) (hP : P.Lawful)
    (ht : Holds db s h₀) (ha : HeightsAgree db' s.accounts (chunkTxs blocks))
    (hle : ∀ x ∈ chunkTxs blocks, h₀ ≤ x.block.height ∧ x.block.height ≤ height)
    (ho : ∀ n ∈ notesOf st.rs, ∀ e ∈ spendEvents P s.accounts (chunkTxs blocks),
      e.2 = (n.account, n.nf) → n.height ≤ e.1.block.height) {r : SpendRow}
    (hr : r ∈ db'.spends.rows) :
    r ∈ db.spends.rows ∨ (r.height ≤ height ∧ r.account ∈ s.accounts ∧ ∃ n ∈ db'.notes.rows,
      n.idNote = r.idNote ∧ n.account = r.account ∧ n.height ≤ r.height) := by
  rcases spend_from isScan_reports st.reported hr with
    hr | ⟨u, n, t, hu, hn, huniq, htr, hta, htx, hna, hid, hra, hrh⟩
  · rcases spend_from (isScan_receipts st.rs) st.stored hr with hr | ⟨u, _, _, hu, -⟩
    · exact Or.inl hr
    · obtain ⟨_, -, k, -, h | h⟩ := mem_receipts hu <;> simp at h
  · rcases mem_reports hu with ⟨_, -, h⟩ | ⟨e, he, v, hv, hk, h | h⟩ | h
    · simp [witnessMessage] at h
    · simp at h
    · rw [WarpSyncMessage.spend.injEq] at h
      subst h
      have hmem := mem_spendEvents he
      have hown := st.owner hP ht hv
      have hheight : r.height = e.1.block.height :=
        hrh.trans (ha t htr (hta ▸ hown) e.1 hmem htx)
      obtain ⟨m, hm, his, hh⟩ := st.row_mid ht hv
      obtain rfl := huniq m hm his.1 his.2.2
      refine Or.inr ⟨hheight ▸ (hle e.1 hmem).2, hra ▸ hown, m, hn, hid.symm, hna.trans hra.symm,
        ?_⟩
      rw [hheight]
      rcases hh with hh | ⟨k, hkn, hkey, hh⟩
      · exact hh.trans (hle e.1 hmem).1
      · rw [hh]
        exact ho k hkn e he (hk.symm.trans hkey.symm)
    · simp at h

theorem mem_syncHeights (st : Stage env assetBaseOf db db' s s' blocks height)
    {r : SyncHeightRow} :
    r ∈ db'.syncHeights.rows ↔
      (r.account ∈ s.accounts ∧ db.hasPool r.account s.pool = true ∧ r.pool = s.pool ∧
        r.height = height) ∨
      (r ∈ db.syncHeights.rows ∧
        ¬ (r.account ∈ s.accounts ∧ db.hasPool r.account s.pool = true ∧ r.pool = s.pool)) := by
  have hsame := st.reported
  rw [reports, ← List.append_assoc] at hsame
  obtain ⟨d, hd, hc⟩ := commit_append_ok.1 hsame
  obtain ⟨d', hd', hc⟩ := commit_cons_ok.1 hc
  rw [commit_nil_ok] at hc
  subst hc
  have hscan : ∀ m ∈ st.tracked.map (witnessMessage height) ++
      spendMessages st.tracked (spendEvents P s.accounts (chunkTxs blocks)), isScan m = true :=
    fun m hm => isScan_reports (s := s) m (by
      rw [reports, ← List.append_assoc]
      exact List.mem_append_left _ hm)
  have h1 : st.mid.syncHeights = db.syncHeights :=
    commit_syncHeights (isScan_receipts st.rs) (fun m hm a p h he => by
      obtain ⟨_, -, k, -, h | h⟩ := mem_receipts hm <;> rw [h] at he <;> simp at he) st.stored
  have h2 : d.syncHeights = st.mid.syncHeights := by
    refine commit_syncHeights hscan (fun m hm a p h he => ?_) hd
    rcases List.mem_append.1 hm with hm | hm
    · obtain ⟨u, -, rfl⟩ := List.mem_map.1 hm
      simp [witnessMessage] at he
    · obtain ⟨e, -, u, -, -, h | h⟩ := spendMessages_mem hm <;> rw [h] at he <;> simp at he
  have hpool : ∀ a, d.hasPool a s.pool = db.hasPool a s.pool := fun a =>
    ((commit_sameAccounts (isScan_receipts st.rs) st.stored).trans
      (commit_sameAccounts hscan hd)).hasPool a s.pool
  rw [mem_checkpoint hd', h2, h1, hpool]

end Stage

end ZcashSdk.Wallet
