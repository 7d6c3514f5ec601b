import ZcashSdk.Wallet.Checkpoints

set_option autoImplicit false

/-!
# A chunk as one step of the database

`Advance` says what a part of a chunk's batch does for some of the pools: rows are only
added, for the accounts of the scan and at the heights of the chunk, and every note of
these pools ends up spent or with a witness at the chunk's last height. The parts of the
three pools and the headers around them compose to the step of the whole chunk.
-/
namespace ZcashSdk.Wallet
open Tables Shielded Db Loops

variable {H : Type} [DecidableEq H]

def Columns (n : NoteRow H) : Prop :=
  ∃ nf cmx p, n.nullifier = .shielded nf ∧ n.cmx = some cmx ∧ n.position = some p

structure Advance (db db' : Database H) (accounts pools : List ℕ) (h₀ height : ℕ) : Prop where
  grows : Grows db db'
  same : SameAccounts db db'
  notes : ∀ n ∈ db'.notes.rows, n ∈ db.notes.rows ∨
    (n.account ∈ accounts ∧ n.pool ∈ pools ∧ db.hasPool n.account n.pool = true ∧
      h₀ < n.height ∧ n.height ≤ height ∧ Columns n)
  spends : ∀ s ∈ db'.spends.rows, s ∈ db.spends.rows ∨
    (s.height ≤ height ∧ s.account ∈ accounts ∧ ∃ n ∈ db'.notes.rows,
      n.idNote = s.idNote ∧ n.account = s.account ∧ n.height ≤ s.height)
  witnesses : ∀ w ∈ db'.witnesses.rows, w ∈ db.witnesses.rows ∨
    (w.height = height ∧ w.account ∈ accounts ∧ ∃ n ∈ db'.notes.rows,
      n.idNote = w.note ∧ n.account = w.account ∧ n.cmx ≠ none)
  heights : ∀ r, r ∈ db'.syncHeights.rows ↔
    (r.account ∈ accounts ∧ r.pool ∈ pools ∧ db.hasPool r.account r.pool = true ∧
      r.height = height) ∨
    (r ∈ db.syncHeights.rows ∧
      ¬ (r.account ∈ accounts ∧ r.pool ∈ pools ∧ db.hasPool r.account r.pool = true))
  done : ∀ n ∈ db'.notes.rows, n.account ∈ accounts → n.pool ∈ pools →
    db.hasPool n.account n.pool = true → SpentBy db' n height ∨ WitnessedAt db' n height

namespace Advance
variable {db db' db'' : Database H} {accounts pools pools' : List ℕ} {h₀ height : ℕ}

theorem trans (h : Advance db db' accounts pools h₀ height)
    (h' : Advance db' db'' accounts pools' h₀ height) :
    Advance db db'' accounts (pools ++ pools') h₀ height where
  grows := h.grows.trans h'.grows
  same := h.same.trans h'.same
  notes n hn := by
    rcases h'.notes n hn with hn | ⟨h1, h2, h3, h4⟩
    · rcases h.notes n hn with hn | ⟨h1, h2, h3⟩
      · exact Or.inl hn
      · exact Or.inr ⟨h1, List.mem_append_left _ h2, h3⟩
    · rw [h.same.hasPool] at h3
      exact Or.inr ⟨h1, List.mem_append_right _ h2, h3, h4⟩
  spends s hs := by
    rcases h'.spends s hs with hs | hs
    · rcases h.spends s hs with hs | ⟨h1, h2, n, hn, h3⟩
      · exact Or.inl hs
      · exact Or.inr ⟨h1, h2, n, h'.grows.notes n hn, h3⟩
    · exact Or.inr hs
  witnesses w hw := by
    rcases h'.witnesses w hw with hw | hw
    · rcases h.witnesses w hw with hw | ⟨h1, h2, n, hn, h3⟩
      · exact Or.inl hw
      · exact Or.inr ⟨h1, h2, n, h'.grows.notes n hn, h3⟩
    · exact Or.inr hw
  heights r := by
    rw [h'.heights, h.heights, h.same.hasPool, List.mem_append]
    constructor
    · rintro (⟨h1, h2, h3⟩ | ⟨⟨h1, h2, h3⟩ | ⟨h1, h2⟩, h4⟩)
      · exact Or.inl ⟨h1, Or.inr h2, h3⟩
      · exact Or.inl ⟨h1, Or.inl h2, h3⟩
      · refine Or.inr ⟨h1, ?_⟩
        rintro ⟨h5, h6 | h6, h7⟩
        · exact h2 ⟨h5, h6, h7⟩
        · exact h4 ⟨h5, h6, h7⟩
    · rintro (⟨h1, h2, h3⟩ | ⟨h1, h2⟩)
      · by_cases hp : r.pool ∈ pools'
        · exact Or.inl ⟨h1, hp, h3⟩
        · exact Or.inr ⟨Or.inl ⟨h1, h2.resolve_right hp, h3⟩, fun hc => hp hc.2.1⟩
      · refine Or.inr ⟨Or.inr ⟨h1, fun hc => ?_⟩, fun hc => ?_⟩
        · exact h2 ⟨hc.1, Or.inl hc.2.1, hc.2.2⟩
        · exact h2 ⟨hc.1, Or.inr hc.2.1, hc.2.2⟩
  done n hn hacc hpool hhas := by
    rcases List.mem_append.1 hpool with hp | hp
    · rcases h'.notes n hn with hold | ⟨-, hp', -⟩
      · rcases h.done n hold hacc hp hhas with hs | hw
        · exact Or.inl (hs.grows h'.grows le_rfl)
        · exact Or.inr (hw.grows h'.grows)
      · exact h'.done n hn hacc hp' (h.same.hasPool _ _ ▸ hhas)
    · exact h'.done n hn hacc hp (h.same.hasPool _ _ ▸ hhas)

theorem tracks {P : ShieldedProtocol H} {s : Synchronizer P} {h : ℕ}
    (ha : Advance db db' accounts pools h₀ height) (ht : Tracks db s h) (hp : s.pool ∉ pools) :
    Tracks db' s h where
  owners := ht.owners
  held u hu := by
    obtain ⟨n, hn, hrest⟩ := ht.held u hu
    exact ⟨n, ha.grows.notes n hn, hrest⟩
  tracked n hn hacc hpool := by
    rcases ha.notes n hn with hn | ⟨-, hm, -⟩
    · exact (ht.tracked n hn hacc hpool).imp id fun hs => hs.grows ha.grows le_rfl
    · exact absurd (hpool ▸ hm) hp

end Advance

/-! ### Headers and issuances -/

def isQuiet : WarpSyncMessage H → Bool
  | .blockHeader _ => true
  | .issuance _ => true
  | _ => false

omit [DecidableEq H] in
theorem isScan_of_isQuiet {m : WarpSyncMessage H} (h : isQuiet m = true) : isScan m = true := by
  cases m <;> simp_all [isQuiet, isScan]

/-- Nothing of the shielded tables changes, and of transactions only the time. -/
structure Quiet (db db' : Database H) : Prop where
  notes : db'.notes = db.notes
  spends : db'.spends = db.spends
  witnesses : db'.witnesses = db.witnesses
  syncHeights : db'.syncHeights = db.syncHeights
  same : SameAccounts db db'
  grows : Grows db db'
  transactions : ∀ t' ∈ db'.transactions.rows, ∃ t ∈ db.transactions.rows, t.Same t'

variable {env : WriterEnv} {db db' : Database H} {ms : List (WarpSyncMessage H)}

theorem commit_quiet (hq : ∀ m ∈ ms, isQuiet m = true)
    (h : commitWarpMessages env db ms = .ok db') : Quiet db db' := by
  have hs : ∀ m ∈ ms, isScan m = true := fun m hm => isScan_of_isQuiet (hq m hm)
  have htables : db'.notes = db.notes ∧ db'.spends = db.spends ∧ db'.witnesses = db.witnesses := by
    refine commit_inv (fun d => d.notes = db.notes ∧ d.spends = db.spends ∧
      d.witnesses = db.witnesses) hs ?_ h ⟨rfl, rfl, rfl⟩
    intro m hm d d' hd he
    have := hq m hm
    cases he <;> first | exact hd | simp [isQuiet] at this
  refine ⟨htables.1, htables.2.1, htables.2.2, ?_, commit_sameAccounts hs h, commit_grows hs h, ?_⟩
  · refine commit_syncHeights hs (fun m hm a p ht he => ?_) h
    have := hq m hm
    simp [he, isQuiet] at this
  · intro t' ht'
    rcases transaction_from hs h ht' with ht | ⟨tx, htx, -⟩
    · exact ht
    · have := hq _ htx
      simp [isQuiet] at this

theorem Quiet.advance (h : Quiet db db') (accounts : List ℕ) (h₀ height : ℕ) :
    Advance db db' accounts [] h₀ height where
  grows := h.grows
  same := h.same
  notes n hn := Or.inl (h.notes ▸ hn)
  spends s hs := Or.inl (h.spends ▸ hs)
  witnesses w hw := Or.inl (h.witnesses ▸ hw)
  heights r := by
    rw [h.syncHeights]
    simp
  done n _ _ hp := absurd hp (by simp)

theorem Quiet.heightsAgree (h : Quiet db db') {accounts : List ℕ} {ts : List (TxAt H)}
    (ha : HeightsAgree db accounts ts) : HeightsAgree db' accounts ts := by
  intro t ht hacc x hx hid
  obtain ⟨t', ht', hsame⟩ := h.transactions t ht
  rw [hsame.2.2.2]
  exact ha t' ht' (hsame.2.1 ▸ hacc) x hx (hsame.2.2.1 ▸ hid)

/-! ### The part of a pool -/

variable [Inhabited H] {P : ShieldedProtocol H}

structure SyncLive (db : Database H) (accounts : List ℕ) (s : Synchronizer P) (pool height : ℕ) :
    Prop where
  pool_eq : s.pool = pool
  accounts : ∀ a, a ∈ s.accounts ↔ a ∈ accounts ∧ db.hasPool a pool = true
  tracks : Tracks db s height

omit [Inhabited H] in
theorem SyncLive.advance {accounts pools : List ℕ} {s : Synchronizer P} {pool h h₀ height : ℕ}
    (hl : SyncLive db accounts s pool h) (ha : Advance db db' accounts pools h₀ height)
    (hp : pool ∉ pools) : SyncLive db' accounts s pool h where
  pool_eq := hl.pool_eq
  accounts a := by rw [hl.accounts, ha.same.hasPool]
  tracks := ha.tracks hl.tracks (hl.pool_eq ▸ hp)

structure ChunkFits (assetBaseOf : AssetBaseOf) (s : Synchronizer P)
    (blocks : List (CompactBlock H)) (h₀ height : ℕ) : Prop where
  order : InOrder assetBaseOf s blocks
  txids : TxidsUnique (chunkTxs blocks)
  bounds : ∀ x ∈ chunkTxs blocks, h₀ < x.block.height ∧ x.block.height ≤ height

variable {assetBaseOf : AssetBaseOf} {s s' : Synchronizer P} {blocks : List (CompactBlock H)}
  {accounts : List ℕ} {pool h₀ height : ℕ}

theorem stage_advance (hP : P.Lawful) (st : Stage env assetBaseOf db db' s s' blocks height)
    (hl : SyncLive db accounts s pool h₀) (hf : ChunkFits assetBaseOf s blocks h₀ height)
    (ha : HeightsAgree db accounts (chunkTxs blocks)) (h0 : h₀ ≤ height) :
    Advance db db' accounts [pool] h₀ height ∧ SyncLive db' accounts s' pool height ∧
      HeightsAgree db' accounts (chunkTxs blocks) := by
  have hsub : ∀ a, a ∈ s.accounts → a ∈ accounts := fun a h => ((hl.accounts a).1 h).1
  have hagree := st.heightsAgree hP hf.txids ha
  have hagree' : HeightsAgree db' s.accounts (chunkTxs blocks) :=
    fun t ht hacc => hagree t ht (hsub _ hacc)
  have hle : ∀ x ∈ chunkTxs blocks, x.block.height ≤ height := fun x hx => (hf.bounds x hx).2
  have hsame : SameAccounts db db' :=
    (commit_sameAccounts (isScan_receipts st.rs) st.stored).trans
      (commit_sameAccounts isScan_reports st.reported)
  refine ⟨⟨st.grows, hsame, ?_, ?_, ?_, ?_, ?_⟩, ⟨st.pool.trans hl.pool_eq, ?_, ?_⟩, hagree⟩
  · intro n hn
    rcases st.note_cases hP hn with hn | ⟨m, hm, x, hx, hacc, h1, h2, h3, h4, h5, h6, h7⟩
    · exact Or.inl hn
    · have hp : n.pool = pool := h4.trans ((hf.order.filed st.rs st.received m hm).trans hl.pool_eq)
      have hb := hf.bounds x hx
      refine Or.inr ⟨hsub _ hacc, by simp [hp], hp ▸ ((hl.accounts _).1 hacc).2, ?_, ?_,
        m.nf, m.cmx, m.position, h2, h3, h5⟩
      · omega
      · omega
  · intro sp hsp
    rcases st.spend_cases hP hl.tracks.holds hagree'
      (fun x hx => ⟨(hf.bounds x hx).1.le, (hf.bounds x hx).2⟩)
      (hf.order.ordered st.rs st.received) hsp with hsp | ⟨h1, h2, h3⟩
    · exact Or.inl hsp
    · exact Or.inr ⟨h1, hsub _ h2, h3⟩
  · intro w hw
    rcases st.witness_cases hP hl.tracks.holds hw with hw | ⟨h1, h2, h3⟩
    · exact Or.inl hw
    · exact Or.inr ⟨h1, hsub _ h2, h3⟩
  · intro r
    rw [st.mem_syncHeights, hl.pool_eq]
    constructor
    · rintro (⟨h1, h2, h3, h4⟩ | ⟨h1, h2⟩)
      · exact Or.inl ⟨hsub _ h1, by simp [h3], h3 ▸ h2, h4⟩
      · refine Or.inr ⟨h1, ?_⟩
        rintro ⟨h3, h4, h5⟩
        rw [List.mem_singleton] at h4
        rw [h4] at h5
        exact h2 ⟨(hl.accounts _).2 ⟨h3, h5⟩, h5, h4⟩
    · rintro (⟨h1, h2, h3, h4⟩ | ⟨h1, h2⟩)
      · rw [List.mem_singleton] at h2
        rw [h2] at h3
        exact Or.inl ⟨(hl.accounts _).2 ⟨h1, h3⟩, h3, h2, h4⟩
      · refine Or.inr ⟨h1, ?_⟩
        rintro ⟨h3, h4, h5⟩
        exact h2 ⟨hsub _ h3, by simp [h5], h5 ▸ h4⟩
  · intro n hn hacc hp hhas
    rw [List.mem_singleton] at hp
    have hmem : n.account ∈ s.accounts := (hl.accounts _).2 ⟨hacc, hp ▸ hhas⟩
    rcases st.spent_or_witnessed hP hl.tracks hn hmem (hp.trans hl.pool_eq.symm) with hs | hw
    · exact Or.inl (hs.grows st.grows h0)
    · exact Or.inr hw
  · intro a
    rw [st.accounts_eq, hl.accounts, hsame.hasPool]
  · exact st.tracks hP hl.tracks h0 hagree' hle

end ZcashSdk.Wallet
