import ZcashSdk.Lib.Books
import ZcashSdk.Wallet.Retained

set_option autoImplicit false

/-!
# The database as the mirror of what was scanned

Beside the database a ledger is kept: for every account the notes its keys open in the blocks
of the chunks that were committed, and the nullifiers these blocks reveal, less what lies above
the heights it went back to. Whatever a wallet does, the shielded notes it stores for an
account are those of its ledger, and they are stored as spent where it says so.
-/
namespace ZcashSdk.Wallet
open Tables Shielded Db Loops Runs Books

variable {H : Type} [DecidableEq H]

/-! ### Pages -/

/-- Notes with their heights, and nullifiers with the pool and the height of their spend. -/
abbrev Page (H : Type) := Book (Note H) (ℕ × H)

def nullifierOf (n : Note H) : ℕ × H := (n.pool, n.nf)

section Pages
variable {P : ShieldedProtocol H}

def receivedNotes (assetBaseOf : AssetBaseOf) (s : Synchronizer P)
    (blocks : List (CompactBlock H)) : List (Note H) :=
  match receive assetBaseOf s.keys s.position (chunkTxs blocks) with
  | .ok rs => notesOf rs
  | .error _ => []

def revealed (s : Synchronizer P) (blocks : List (CompactBlock H)) : List (ℕ × (ℕ × H)) :=
  (chunkTxs blocks).flatMap fun t =>
    (P.extractInputs t.tx).map fun i => (t.block.height, s.pool, P.extractNf i)

def Synchronizer.page (assetBaseOf : AssetBaseOf) (s : Synchronizer P)
    (blocks : List (CompactBlock H)) : Page H :=
  ⟨(receivedNotes assetBaseOf s blocks).map fun n => (n.height, n), revealed s blocks⟩

omit [DecidableEq H] in
theorem mem_revealed {s : Synchronizer P} {blocks : List (CompactBlock H)} {e : ℕ × (ℕ × H)} :
    e ∈ revealed s blocks ↔ ∃ t ∈ chunkTxs blocks, ∃ i ∈ P.extractInputs t.tx,
      e = (t.block.height, s.pool, P.extractNf i) := by
  simp only [revealed, List.mem_flatMap, List.mem_map, eq_comm]

omit [DecidableEq H] in
theorem mem_page {assetBaseOf : AssetBaseOf} {s : Synchronizer P} {blocks : List (CompactBlock H)}
    {e : ℕ × Note H} :
    e ∈ (Synchronizer.page assetBaseOf s blocks).received ↔
      e.2 ∈ receivedNotes assetBaseOf s blocks ∧ e.1 = e.2.height := by
  obtain ⟨h, n⟩ := e
  simp only [Synchronizer.page, List.mem_map, Prod.mk.injEq]
  constructor
  · rintro ⟨m, hm, rfl, rfl⟩
    exact ⟨hm, rfl⟩
  · rintro ⟨hm, hh⟩
    exact ⟨n, hm, hh.symm, rfl⟩

end Pages

/-! ### What a part of a chunk writes -/

def Shows (env : WriterEnv) (m : Note H) (n : NoteRow H) : Prop :=
  ∃ t a i, t.account = m.account ∧ Database.noteRow env m t a i = n

omit [DecidableEq H] in
theorem Shows.fields {env : WriterEnv} {m : Note H} {n : NoteRow H} (h : Shows env m n) :
    n.account = m.account ∧ n.pool = m.pool ∧ n.nullifier = .shielded m.nf ∧
      n.height = m.height ∧ n.value = asI64 m.value := by
  obtain ⟨t, a, i, hacc, rfl⟩ := h
  exact ⟨hacc, rfl, rfl, rfl, rfl⟩

/-- The spend takes away what the note is worth, for its nullifier was revealed. -/
structure SpendOf (page : Page H) (s : SpendRow) (n : NoteRow H) : Prop where
  id : n.idNote = s.idNote
  account : s.account = n.account
  pool : s.pool = n.pool
  value : s.value = -n.value
  after : n.height ≤ s.height
  revealed : ∃ nf, n.nullifier = .shielded nf ∧ (s.height, n.pool, nf) ∈ page.usedUp

omit [DecidableEq H] in
theorem SpendOf.mono {page page' : Page H} {s : SpendRow} {n : NoteRow H} (h : SpendOf page s n)
    (hsub : ∀ r ∈ page.usedUp, r ∈ page'.usedUp) : SpendOf page' s n where
  id := h.id
  account := h.account
  pool := h.pool
  value := h.value
  after := h.after
  revealed := by
    obtain ⟨nf, hnf, hr⟩ := h.revealed
    exact ⟨nf, hnf, hsub _ hr⟩

/-- Rows are added for what the page received, and for what it reveals of the notes that are
    there. -/
structure Writes (env : WriterEnv) (db db' : Database H) (accounts pools : List ℕ)
    (h₀ height : ℕ) (page : Page H) : Prop where
  grows : Grows db db'
  filed : ∀ m ∈ page.received, m.2.pool ∈ pools ∧ m.1 = m.2.height
  revealedIn : ∀ r ∈ page.usedUp, r.2.1 ∈ pools ∧ h₀ < r.1 ∧ r.1 ≤ height
  stored : ∀ m ∈ page.received, ∃ n ∈ db'.notes.rows, Shows env m.2 n
  notes : ∀ n ∈ db'.notes.rows, n ∈ db.notes.rows ∨ ∃ m ∈ page.received, Shows env m.2 n
  spends : ∀ s ∈ db'.spends.rows, s ∈ db.spends.rows ∨ ∃ n ∈ db'.notes.rows, SpendOf page s n
  spent : ∀ n ∈ db'.notes.rows, n.account ∈ accounts → n.pool ∈ pools →
    db.hasPool n.account n.pool = true → ∀ nf h, n.nullifier = .shielded nf →
      (h, n.pool, nf) ∈ page.usedUp → SpentBy db' n h

theorem Writes.trans {env : WriterEnv} {db db' db'' : Database H}
    {accounts pools pools' : List ℕ} {h₀ height : ℕ} {page page' : Page H}
    (h : Writes env db db' accounts pools h₀ height page)
    (h' : Writes env db' db'' accounts pools' h₀ height page')
    (hsame : SameAccounts db db') (hpools : pools.Disjoint pools') :
    Writes env db db'' accounts (pools ++ pools') h₀ height (page ++ page') where
  grows := h.grows.trans h'.grows
  filed m hm := by
    rcases List.mem_append.1 hm with hm | hm
    · exact ⟨List.mem_append_left _ (h.filed m hm).1, (h.filed m hm).2⟩
    · exact ⟨List.mem_append_right _ (h'.filed m hm).1, (h'.filed m hm).2⟩
  revealedIn r hr := by
    rcases List.mem_append.1 hr with hr | hr
    · exact ⟨List.mem_append_left _ (h.revealedIn r hr).1, (h.revealedIn r hr).2⟩
    · exact ⟨List.mem_append_right _ (h'.revealedIn r hr).1, (h'.revealedIn r hr).2⟩
  stored m hm := by
    rcases List.mem_append.1 hm with hm | hm
    · obtain ⟨n, hn, hshows⟩ := h.stored m hm
      exact ⟨n, h'.grows.notes n hn, hshows⟩
    · exact h'.stored m hm
  notes n hn := by
    rcases h'.notes n hn with hn | ⟨m, hm, hshows⟩
    · rcases h.notes n hn with hn | ⟨m, hm, hshows⟩
      · exact Or.inl hn
      · exact Or.inr ⟨m, List.mem_append_left _ hm, hshows⟩
    · exact Or.inr ⟨m, List.mem_append_right _ hm, hshows⟩
  spends s hs := by
    rcases h'.spends s hs with hs | ⟨n, hn, hof⟩
    · rcases h.spends s hs with hs | ⟨n, hn, hof⟩
      · exact Or.inl hs
      · exact Or.inr ⟨n, h'.grows.notes n hn, hof.mono fun r => List.mem_append_left _⟩
    · exact Or.inr ⟨n, hn, hof.mono fun r => List.mem_append_right _⟩
  spent n hn hacc hpool hhas nf k hnf hr := by
    rcases List.mem_append.1 hr with hr | hr
    · -- the note is not one that the second part received, for it is in a pool of the first
      have hfirst := (h.revealedIn _ hr).1
      rcases h'.notes n hn with hn | ⟨m, hm, hshows⟩
      · exact (h.spent n hn hacc hfirst hhas nf k hnf hr).grows h'.grows le_rfl
      · have hsecond := (h'.filed m hm).1
        rw [← hshows.fields.2.1] at hsecond
        exact absurd hsecond (hpools hfirst)
    · exact h'.spent n hn hacc (h'.revealedIn _ hr).1 (hsame.hasPool _ _ ▸ hhas) nf k hnf hr

theorem Quiet.trans {db db' db'' : Database H} (h : Quiet db db') (h' : Quiet db' db'') :
    Quiet db db'' where
  notes := h'.notes.trans h.notes
  spends := h'.spends.trans h.spends
  witnesses := h'.witnesses.trans h.witnesses
  syncHeights := h'.syncHeights.trans h.syncHeights
  same := h.same.trans h'.same
  grows := h.grows.trans h'.grows
  transactions t ht := by
    obtain ⟨u, hu, hsame⟩ := h'.transactions t ht
    obtain ⟨v, hv, hsame'⟩ := h.transactions u hu
    exact ⟨v, hv, hsame'.trans hsame⟩

theorem Quiet.writes {env : WriterEnv} {db db' : Database H} (h : Quiet db db')
    (accounts : List ℕ) (h₀ height : ℕ) : Writes env db db' accounts [] h₀ height Book.empty where
  grows := h.grows
  filed m hm := absurd hm (by simp)
  revealedIn r hr := absurd hr (by simp)
  stored m hm := absurd hm (by simp)
  notes n hn := Or.inl (h.notes ▸ hn)
  spends s hs := Or.inl (h.spends ▸ hs)
  spent n _ _ hpool := absurd hpool (by simp)

theorem Writes.around {env : WriterEnv} {db d d' db' : Database H} {accounts pools : List ℕ}
    {h₀ height : ℕ} {page : Page H} (h : Writes env d d' accounts pools h₀ height page)
    (before : Quiet db d) (after : Quiet d' db') :
    Writes env db db' accounts pools h₀ height page where
  grows := (before.grows.trans h.grows).trans after.grows
  filed := h.filed
  revealedIn := h.revealedIn
  stored m hm := by
    rw [after.notes]
    exact h.stored m hm
  notes n hn := by
    rw [after.notes] at hn
    exact before.notes ▸ h.notes n hn
  spends s hs := by
    rw [after.spends] at hs
    rw [after.notes]
    exact before.spends ▸ h.spends s hs
  spent n hn hacc hpool hhas nf k hnf hr := by
    rw [after.notes] at hn
    rw [← before.same.hasPool] at hhas
    exact (h.spent n hn hacc hpool hhas nf k hnf hr).grows after.grows le_rfl

/-! ### The part of a pool -/

section Spends
variable {P : ShieldedProtocol H}

omit [DecidableEq H] in
theorem spendEvents_sorted (accounts : List ℕ) {blocks : List (CompactBlock H)}
    (ha : Ascending blocks) :
    (spendEvents P accounts (chunkTxs blocks)).Pairwise
      fun e f => e.1.block.height ≤ f.1.block.height := by
  unfold spendEvents
  rw [List.pairwise_flatMap]
  constructor
  · intro t _
    rw [List.pairwise_map]
    exact List.pairwise_of_forall fun _ _ => le_rfl
  · refine (chunkTxs_before blocks ha).imp ?_
    intro t u hbefore e he f hf
    obtain ⟨k, -, rfl⟩ := List.mem_map.1 he
    obtain ⟨l, -, rfl⟩ := List.mem_map.1 hf
    rcases hbefore with hlt | ⟨heq, -⟩
    · exact hlt.le
    · exact heq.le

/-- A tracked note is reported as spent by the first transaction that reveals its nullifier. -/
theorem exists_first_spend {es : List (TxAt H × (ℕ × H))}
    (hsorted : es.Pairwise fun e f => e.1.block.height ≤ f.1.block.height)
    {e : TxAt H × (ℕ × H)} (he : e ∈ es) {m : List (UTXO H)} (hm : e.2 ∈ m.map UTXO.key) :
    ∃ f ∈ es, f.1.block.height ≤ e.1.block.height ∧ ∃ u ∈ m, u.key = e.2 ∧
      .spend { u with txid := f.1.tx.hash } ∈ spendMessages m es := by
  induction es generalizing m with
  | nil => simp at he
  | cons g es ih =>
    rw [List.pairwise_cons] at hsorted
    by_cases hg : g.2 = e.2
    · cases hfind : m.find? fun v => v.key = g.2 with
      | none =>
        obtain ⟨u, hu, hku⟩ := List.mem_map.1 hm
        have hne := List.find?_eq_none.1 hfind u hu
        simp [hku, hg] at hne
      | some u =>
        have hku : u.key = g.2 := by simpa using List.find?_some hfind
        refine ⟨g, List.mem_cons_self, ?_, u, List.mem_of_find?_eq_some hfind, hku.trans hg,
          List.mem_append_left _ ?_⟩
        · rcases List.mem_cons.1 he with rfl | he
          · exact le_rfl
          · exact hsorted.1 e he
        · rw [eventMessages, hfind]
          simp
    · have he' : e ∈ es := by
        rcases List.mem_cons.1 he with rfl | he
        · exact absurd rfl hg
        · exact he
      have hm' : e.2 ∈ (m.filter fun u => u.key ≠ g.2).map UTXO.key := by
        obtain ⟨u, hu, hku⟩ := List.mem_map.1 hm
        refine List.mem_map.2 ⟨u, List.mem_filter.2 ⟨hu, ?_⟩, hku⟩
        simpa [hku] using fun h => hg h.symm
      obtain ⟨f, hf, hle, u, hu, hku, hmem⟩ := ih hsorted.2 he' hm'
      exact ⟨f, List.mem_cons_of_mem g hf, hle, u, (List.mem_filter.1 hu).1, hku,
        List.mem_append_right _ hmem⟩

end Spends

section Parts
variable [Inhabited H] {P : ShieldedProtocol H} {env : WriterEnv} {assetBaseOf : AssetBaseOf}
  {db db' : Database H} {s s' : Synchronizer P} {blocks : List (CompactBlock H)}
  {accounts : List ℕ} {pool h₀ height : ℕ}

theorem Stage.receivedNotes_eq (st : Stage env assetBaseOf db db' s s' blocks height) :
    receivedNotes assetBaseOf s blocks = notesOf st.rs := by
  rw [receivedNotes, st.received]

/-- A tracked note is what its row says, in the pool of the synchronizer. -/
structure IsCopy (p : ℕ) (u : UTXO H) (n : NoteRow H) : Prop where
  is : Is u n
  pool : n.pool = p
  utxoPool : u.pool = p
  value : n.value = asI64 u.value

def Copies (db : Database H) (s : Synchronizer P) : Prop :=
  ∀ u ∈ s.utxos, ∃ n ∈ db.notes.rows, IsCopy s.pool u n

omit [Inhabited H] in
theorem Copies.grows (h : Copies db s) (hg : Grows db db') : Copies db' s := by
  intro u hu
  obtain ⟨n, hn, hcopy⟩ := h u hu
  exact ⟨n, hg.notes n hn, hcopy⟩

omit [DecidableEq H] in
theorem IsCopy.of_bare {u v : UTXO H} {p : ℕ} {n : NoteRow H} (hb : u.bare = v.bare)
    (h : IsCopy p u n) : IsCopy p v n := by
  have hpool : u.bare.pool = v.bare.pool := congrArg UTXO.pool hb
  have hvalue : u.bare.value = v.bare.value := congrArg UTXO.value hb
  exact ⟨h.is.of_bare hb, h.pool, hpool ▸ h.utxoPool, hvalue ▸ h.value⟩

theorem Stage.copies_mid (st : Stage env assetBaseOf db db' s s' blocks height)
    (hcopies : Copies db s) (ho : InOrder assetBaseOf s blocks) {v : UTXO H}
    (hv : v ∈ st.tracked) : ∃ n ∈ st.mid.notes.rows, IsCopy s.pool v n := by
  rcases st.tracked_cases hv with ⟨u, hu, hb⟩ | ⟨k, hk, hb⟩
  · obtain ⟨n, hn, hcopy⟩ := hcopies u hu
    exact ⟨n, st.grows_mid.notes n hn, hcopy.of_bare hb⟩
  · obtain ⟨t, a, i, hacc, hrow⟩ := st.row_of_note hk
    refine ⟨_, hrow, IsCopy.of_bare (u := toUtxo s.pool k) hb ⟨⟨hacc, rfl, rfl⟩, ?_, rfl, rfl⟩⟩
    exact ho.filed st.rs st.received k hk

theorem Stage.copies (st : Stage env assetBaseOf db db' s s' blocks height)
    (hcopies : Copies db s) (ho : InOrder assetBaseOf s blocks) : Copies db' s' := by
  intro u hu
  rw [st.utxos] at hu
  obtain ⟨n, hn, hcopy⟩ := st.copies_mid hcopies ho (List.mem_filter.1 hu).1
  exact ⟨n, st.grows_end.notes n hn, st.pool ▸ hcopy⟩

theorem Stage.spend_revealed (st : Stage env assetBaseOf db db' s s' blocks height)
    (hP : P.Lawful) (ht : Tracks db s h₀) (ha : HeightsAgree db' s.accounts (chunkTxs blocks))
    (hlow : ∀ x ∈ chunkTxs blocks, h₀ ≤ x.block.height)
    (hcopies : Copies db s) (ho : InOrder assetBaseOf s blocks) {r : SpendRow}
    (hr : r ∈ db'.spends.rows) :
    r ∈ db.spends.rows ∨
      ∃ n ∈ db'.notes.rows, SpendOf (Synchronizer.page assetBaseOf s blocks) r n := by
  rcases spend_written isScan_reports st.reported hr with
    hr | ⟨u, n, t, hu, hn, huniq, hna, hta, htx, ⟨t', ht', hsame⟩, rfl⟩
  · rcases spend_from (isScan_receipts st.rs) st.stored hr with hr | ⟨u, _, _, hu, -⟩
    · exact Or.inl hr
    · obtain ⟨_, -, k, -, h | h⟩ := mem_receipts hu <;> simp at h
  · rcases mem_reports hu with ⟨_, -, h⟩ | ⟨e, he, v, hv, hk, h | h⟩ | h
    · simp [witnessMessage] at h
    · simp at h
    · rw [WarpSyncMessage.spend.injEq] at h
      subst h
      obtain ⟨m, hm, hcopy⟩ := st.copies_mid hcopies ho hv
      obtain rfl := huniq m hm hcopy.is.1 hcopy.is.2.2
      have hacc : t'.account ∈ s.accounts := by
        rw [hsame.2.1, hta]
        change v.account ∈ s.accounts
        exact st.owner hP ht.holds hv
      have hheight : t.height = e.1.block.height := by
        rw [← hsame.2.2.2]
        exact ha t' ht' hacc e.1 (mem_spendEvents he) (hsame.2.2.1.trans htx)
      refine Or.inr ⟨m, hn, rfl, hcopy.is.1.symm, ?_, ?_, ?_, v.nullifier, hcopy.is.2.1, ?_⟩
      · exact hcopy.utxoPool.trans hcopy.pool.symm
      · exact congrArg Neg.neg hcopy.value.symm
      · change m.height ≤ t.height
        rw [hheight]
        obtain ⟨k, hkm, his, hh⟩ := st.row_mid ht.holds hv
        obtain rfl := Is.unique hkm hm his hcopy.is rfl
        rcases hh with hh | ⟨q, hq, hkey, hh⟩
        · exact hh.trans (hlow e.1 (mem_spendEvents he))
        · rw [hh]
          exact ho.ordered st.rs st.received q hq e he (hk.symm.trans hkey.symm)
      · obtain ⟨x, hx, hkey⟩ := List.mem_flatMap.1 he
        obtain ⟨k, hkmem, rfl⟩ := List.mem_map.1 hkey
        obtain ⟨i, hi, hka⟩ := List.mem_flatMap.1 hkmem
        obtain ⟨a, -, rfl⟩ := List.mem_map.1 hka
        have hnf : v.nullifier = P.extractNf i := congrArg Prod.snd hk
        change (t.height, m.pool, v.nullifier) ∈ revealed s blocks
        rw [hheight, hcopy.pool, hnf]
        exact mem_revealed.2 ⟨x, hx, i, hi, rfl⟩
    · simp at h

theorem Stage.revealed_spent (st : Stage env assetBaseOf db db' s s' blocks height)
    (hP : P.Lawful) (ht : Tracks db s h₀) (ha : HeightsAgree db' s.accounts (chunkTxs blocks))
    (hasc : Ascending blocks) (hlow : ∀ x ∈ chunkTxs blocks, h₀ < x.block.height)
    {n : NoteRow H} (hn : n ∈ db'.notes.rows) (hacc : n.account ∈ s.accounts)
    (hpool : n.pool = s.pool) {nf : H} (hnf : n.nullifier = .shielded nf) {h p : ℕ}
    (hr : (h, p, nf) ∈ revealed s blocks) : SpentBy db' n h := by
  obtain ⟨t, htmem, i, hi, heq⟩ := mem_revealed.1 hr
  simp only [Prod.mk.injEq] at heq
  obtain ⟨rfl, -, rfl⟩ := heq
  rcases st.tracked_row hP ht hn hacc hpool with ⟨v, hv, his⟩ | hs
  · have hkey : v.key = (n.account, P.extractNf i) := by
      have h1 := his.2.1
      rw [hnf, NullifierKey.shielded.injEq] at h1
      exact Prod.ext his.1.symm h1.symm
    have he : (t, (n.account, P.extractNf i)) ∈ spendEvents P s.accounts (chunkTxs blocks) := by
      refine List.mem_flatMap.2 ⟨t, htmem, List.mem_map.2 ⟨_, ?_, rfl⟩⟩
      exact List.mem_flatMap.2 ⟨i, hi, List.mem_map.2 ⟨n.account, hacc, rfl⟩⟩
    obtain ⟨f, hf, hle, u, hu, hku, hm⟩ := exists_first_spend (spendEvents_sorted s.accounts hasc)
      he (m := st.tracked) (hkey ▸ List.mem_map_of_mem hv)
    obtain ⟨m, hmm, hum⟩ := st.held_mid ht.holds hu
    obtain rfl := Is.unique hmm (st.note_mid hn) hum his (hku.trans hkey.symm)
    obtain ⟨sp, hsp, hid, -, x, hx, hxa, hxt, hh⟩ :=
      spend_of_mem isScan_reports st.reported
        (List.mem_append_right _ (List.mem_append_left _ hm)) hmm hum.1 hum.2.2
    have hxacc : x.account ∈ s.accounts := by
      rw [hxa]
      exact hum.1 ▸ hacc
    refine ⟨sp, hsp, hid, ?_⟩
    rw [hh, ha x hx hxacc f.1 (mem_spendEvents hf) hxt]
    exact hle
  · exact hs.grows st.grows (hlow t htmem).le

theorem stage_writes (hP : P.Lawful) (st : Stage env assetBaseOf db db' s s' blocks height)
    (hl : SyncLive db accounts s pool h₀) (hcopies : Copies db s)
    (hf : ChunkFits assetBaseOf s blocks h₀ height) (hasc : Ascending blocks)
    (ha : HeightsAgree db' accounts (chunkTxs blocks)) :
    Writes env db db' accounts [pool] h₀ height (Synchronizer.page assetBaseOf s blocks) := by
  have hagree : HeightsAgree db' s.accounts (chunkTxs blocks) :=
    fun t ht hacc => ha t ht ((hl.accounts _).1 hacc).1
  have hfiled : ∀ m ∈ notesOf st.rs, m.pool = pool := fun m hm =>
    (hf.order.filed st.rs st.received m hm).trans hl.pool_eq
  refine ⟨st.grows, ?_, ?_, ?_, ?_, ?_, ?_⟩
  · intro m hm
    rw [mem_page, st.receivedNotes_eq] at hm
    exact ⟨List.mem_singleton.2 (hfiled m.2 hm.1), hm.2⟩
  · intro r hr
    obtain ⟨t, ht, i, -, rfl⟩ := mem_revealed.1 hr
    exact ⟨List.mem_singleton.2 hl.pool_eq, hf.bounds t ht⟩
  · intro m hm
    rw [mem_page, st.receivedNotes_eq] at hm
    obtain ⟨t, a, i, hacc, hrow⟩ := st.row_of_note hm.1
    exact ⟨_, st.grows_end.notes _ hrow, t, a, i, hacc, rfl⟩
  · intro n hn
    rcases note_from (isScan_receipts st.rs) st.stored (st.note_mid hn) with
      hn | ⟨m, t, a, i, hm, hacc, rfl⟩
    · exact Or.inl hn
    · obtain ⟨r, hr, k, hk, h | h⟩ := mem_receipts hm
      · simp at h
      · rw [WarpSyncMessage.note.injEq] at h
        subst h
        refine Or.inr ⟨(m.height, m), ?_, t, a, i, hacc, rfl⟩
        rw [mem_page, st.receivedNotes_eq]
        exact ⟨List.mem_flatMap.2 ⟨r, hr, hk⟩, rfl⟩
  · exact fun r hr => st.spend_revealed hP hl.tracks hagree (fun x hx => (hf.bounds x hx).1.le)
      hcopies hf.order hr
  · intro n hn hacc hpool hhas nf h hnf hr
    rw [List.mem_singleton] at hpool
    exact st.revealed_spent hP hl.tracks hagree hasc (fun x hx => (hf.bounds x hx).1) hn
      ((hl.accounts _).2 ⟨hacc, hpool ▸ hhas⟩) (hpool.trans hl.pool_eq.symm) hnf hr

end Parts

/-! ### A whole chunk -/

section Process
variable [Inhabited H] {c : ZcashCrypto H} {env : Env c} {db db' : Database H}
  {scan scan' : Scan c} {blocks : List (CompactBlock H)} {msgs : List (WarpSyncMessage H)}
  {accounts : List ℕ} {pool h₀ : ℕ} {last : CompactBlock H}

def ironwoodPage (env : Env c) (blocks : List (CompactBlock H)) :
    Option (Synchronizer (ironwoodProtocol c)) → Page H
  | none => Book.empty
  | some s => Synchronizer.page env.assetBaseOf s blocks

def Scan.page (env : Env c) (scan : Scan c) (blocks : List (CompactBlock H)) : Page H :=
  Synchronizer.page env.assetBaseOf scan.sapling blocks ++
    Synchronizer.page env.assetBaseOf scan.orchard blocks ++ ironwoodPage env blocks scan.ironwood

structure ScanCopies (db : Database H) (scan : Scan c) : Prop where
  sapling : Copies db scan.sapling
  orchard : Copies db scan.orchard
  ironwood : ∀ s ∈ scan.ironwood, Copies db s

theorem add_writes {P : ShieldedProtocol H} (hP : P.Lawful) {s s' : Synchronizer P}
    (hadd : s.add env.assetBaseOf blocks = .ok (s', msgs))
    (hc : commitWarpMessages env.writer db msgs = .ok db')
    (hf : ChunkFits env.assetBaseOf s blocks h₀ last.height) (ha : Ascending blocks)
    (hlast : blocks.getLast? = some last) (h0 : h₀ ≤ last.height)
    (hl : SyncLive db accounts s pool h₀) (hcopies : Copies db s)
    (hagree : HeightsAgree db accounts (chunkTxs blocks)) :
    Writes env.writer db db' accounts [pool] h₀ last.height
        (Synchronizer.page env.assetBaseOf s blocks) ∧
      Copies db' s' := by
  obtain ⟨st⟩ := exists_stage hP ha hlast hadd hc
  have hagree' := (stage_advance hP st hl hf hagree h0).2.2
  exact ⟨stage_writes hP st hl hcopies hf ha hagree', st.copies hcopies hf.order⟩

theorem ironwood_writes {o : Option (Synchronizer (ironwoodProtocol c))}
    {i : Option (Synchronizer (ironwoodProtocol c)) × List (WarpSyncMessage H)}
    (hadd : addIronwood env.assetBaseOf blocks o = .ok i)
    (hc : commitWarpMessages env.writer db i.2 = .ok db')
    (hf : ∀ s ∈ o, ChunkFits env.assetBaseOf s blocks h₀ last.height) (ha : Ascending blocks)
    (hlast : blocks.getLast? = some last) (h0 : h₀ ≤ last.height)
    (hl : ∀ s ∈ o, SyncLive db accounts s 3 h₀) (hcopies : ∀ s ∈ o, Copies db s)
    (hagree : HeightsAgree db accounts (chunkTxs blocks)) :
    Writes env.writer db db' accounts (if o.isSome then [3] else []) h₀ last.height
        (ironwoodPage env blocks o) ∧
      ∀ s ∈ i.1, Copies db' s := by
  cases o with
  | none =>
    rw [addIronwood, Except.ok.injEq] at hadd
    subst hadd
    exact ⟨(commit_quiet (by simp) hc).writes accounts h₀ last.height, by simp⟩
  | some s =>
    obtain ⟨a, hs, h⟩ := bind_eq_ok.1 hadd
    rw [Except.ok.injEq] at h
    subst h
    obtain ⟨hw, hcopies'⟩ := add_writes (ironwoodProtocol_lawful c) hs hc (hf s rfl) ha hlast h0
      (hl s rfl) (hcopies s rfl) hagree
    refine ⟨hw, ?_⟩
    rintro _ ⟨⟩
    exact hcopies'

/-- A committed chunk writes what its blocks say. -/
theorem process_writes {headers : List BlockHeader}
    (h : scan.process env blocks = .ok (scan', msgs))
    (hc : commitWarpMessages env.writer db (headers.map .blockHeader ++ msgs) = .ok db')
    (hr : chunkReady scan blocks = true) (hok : ChunkOk env db scan blocks)
    (hl : Live env.writer.network db scan) (hcopies : ScanCopies db scan) :
    Whole env.writer.network db db' scan.accounts scan.height scan'.height ∧
      Writes env.writer db db' scan.accounts (scanPools env.writer.network) scan.height
        scan'.height (scan.page env blocks) ∧
      ScanCopies db' scan' := by
  obtain ⟨last, iss, s, o, i, hlast, hiss, hs, ho, hi, rfl, rfl⟩ := process_cases h
  simp only [chunkReady, Bool.and_eq_true, decide_eq_true_eq, List.all_eq_true] at hr
  obtain ⟨⟨-, ha⟩, hlow⟩ := hr
  have h0 : scan.height ≤ last.height := (hlow last (List.mem_of_getLast? hlast)).le
  obtain ⟨d1, c1, hc⟩ := commit_append_ok.1 hc
  obtain ⟨d5, hc, c6⟩ := commit_append_ok.1 hc
  obtain ⟨d4, hc, c5⟩ := commit_append_ok.1 hc
  obtain ⟨d3, hc, c4⟩ := commit_append_ok.1 hc
  obtain ⟨d2, c2, c3⟩ := commit_append_ok.1 hc
  have q12 := (commit_quiet (isQuiet_headers headers) c1).trans
    (commit_quiet (isQuiet_issuances hiss) c2)
  have q6 := commit_quiet (isQuiet_headers [⟨last.height, last.hash, last.time⟩]) c6
  -- each synchronizer still follows its pool when its turn comes
  have a2 := q12.advance scan.accounts scan.height last.height
  have l3 := hl.sapling.advance a2 (by simp)
  have f3 := fits hok hok.sapling ha hlast hlow
  have g2 : HeightsAgree d2 scan.accounts (chunkTxs blocks) := q12.heightsAgree hok.heights
  obtain ⟨a3, -, g3⟩ := add_advance (saplingProtocol_lawful c) hs c3 f3 ha hlast h0 l3 g2
  obtain ⟨w3, k3⟩ := add_writes (saplingProtocol_lawful c) hs c3 f3 ha hlast h0 l3
    (hcopies.sapling.grows q12.grows) g2
  have a23 := a2.trans a3
  have l4 := hl.orchard.advance a23 (by simp)
  have f4 := fits hok hok.orchard ha hlast hlow
  obtain ⟨a4, -, g4⟩ := add_advance (orchardProtocol_lawful c) ho c4 f4 ha hlast h0 l4 g3
  obtain ⟨w4, k4⟩ := add_writes (orchardProtocol_lawful c) ho c4 f4 ha hlast h0 l4
    (hcopies.orchard.grows a23.grows) g3
  have a24 := a23.trans a4
  have l5 : ∀ t ∈ scan.ironwood, SyncLive d4 scan.accounts t 3 scan.height :=
    fun t ht => (hl.ironwood t ht).advance a24 (by simp)
  have f5 : ∀ t ∈ scan.ironwood,
      ChunkFits env.assetBaseOf t blocks scan.height last.height :=
    fun t ht => fits hok (hok.ironwood t ht) ha hlast hlow
  obtain ⟨a5, -, -⟩ := ironwood_advance hi c5 f5 ha hlast h0 l5 g4
  obtain ⟨w5, k5⟩ := ironwood_writes hi c5 f5 ha hlast h0 l5
    (fun t ht => (hcopies.ironwood t ht).grows a24.grows) g4
  have a6 := q6.advance scan.accounts scan.height last.height
  have hpools : [1] ++ [2] ++ (if scan.ironwood.isSome then [3] else []) =
      scanPools env.writer.network := by
    rw [hl.hasIronwood]
    unfold scanPools
    split <;> rfl
  have hw := ((w3.trans w4 a3.same (by simp)).trans w5 (a3.same.trans a4.same)
    (by split <;> simp)).around q12 q6
  refine ⟨?_, hpools ▸ hw, (k3.grows a4.grows).grows (w5.grows.trans q6.grows),
    k4.grows (w5.grows.trans q6.grows), fun t ht => (k5 t ht).grows q6.grows⟩
  have hwhole := (a24.trans a5).trans a6
  rw [List.append_nil, List.nil_append, hpools] at hwhole
  exact hwhole

/-! ### The start of a scan -/

/-- The value of a shielded row is an `i64`. -/
def ValuesFit (db : Database H) : Prop :=
  ∀ n ∈ db.notes.rows, n.pool ≠ 0 → asI64 (asU64 n.value) = n.value

theorem asI64_asU64 {v : ℕ} (hv : v < 2 ^ 64) : asI64 (asU64 (asI64 v)) = asI64 v := by
  unfold asI64 asU64
  split <;> split <;> omega

omit [Inhabited H] in
theorem new_copies {P : ShieldedProtocol H} {height : ℕ} {keys : List (Key P)}
    {frontier : Frontier H} {debug : Bool} {s : Synchronizer P}
    (h : Synchronizer.new db pool height keys frontier debug = .ok s) (hp : pool ≠ 0)
    (hfit : ValuesFit db) : Copies db s := by
  obtain ⟨us, hus, h⟩ := bind_eq_ok.1 h
  rw [Except.ok.injEq] at h
  subst h
  intro u hu
  have hin : u ∈ us := (mem_insertAll hu).resolve_left (by simp)
  obtain ⟨k, -, xs, hx, hu⟩ := mem_flatMapM hus hin
  obtain ⟨r, hr, hl⟩ := mapM_ok_mem hx hu
  obtain ⟨hn, hrp, -⟩ := mem_unspentAt.1 hr
  have hu' : u.pool = pool ∧ u.value = asU64 r.1.value := by
    unfold loadUtxo at hl
    split at hl
    · rw [Except.ok.injEq] at hl
      subst hl
      exact ⟨rfl, rfl⟩
    · cases hl
  refine ⟨r.1, hn, is_of_loadUtxo hl, hrp, hu'.1, ?_⟩
  rw [hu'.2, hfit r.1 hn (hrp ▸ hp)]

theorem load_copies {ids : List (ℕ × Bool)} {start finish : ℕ} {fs : Frontiers H}
    (hload : Scan.load env db ids start finish fs = .ok scan) (hfit : ValuesFit db) :
    ScanCopies db scan := by
  obtain ⟨s, hs, hload⟩ := bind_eq_ok.1 hload
  obtain ⟨o, ho, hload⟩ := bind_eq_ok.1 hload
  obtain ⟨i, hi, hload⟩ := bind_eq_ok.1 hload
  rw [Except.ok.injEq] at hload
  subst hload
  refine ⟨new_copies hs (by decide) hfit, new_copies ho (by decide) hfit, ?_⟩
  exact fun t ht => new_copies ((loadIronwood_ok hi).2 t ht) (by decide) hfit

end Process

end ZcashSdk.Wallet
