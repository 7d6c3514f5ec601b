import ZcashSdk.Wallet.Completeness
import ZcashSdk.Wallet.Headers

set_option autoImplicit false

/-!
# The checkpoints of a wallet

Whatever a wallet does after its first scan, a checkpoint it still has is complete. So a
rewind finds every note that was unspent at the checkpoint it goes back to, and pruning
leaves the checkpoints that a rewind to a later height would select.
-/
namespace ZcashSdk.Wallet
open Tables Shielded Db Loops Runs

/-- A wallet before its first scan: its accounts have their heights, and nothing shielded
    is stored. -/
structure Unscanned {H : Type} [DecidableEq H] (network : Network) (db : Database H) : Prop where
  notes : db.notes.rows = []
  spends : db.spends.rows = []
  witnesses : db.witnesses.rows = []
  heights : HeightRows network db

section Operations
variable {H : Type} [DecidableEq H] {network : Network} {env : WriterEnv} {db db' : Database H}

theorem Unscanned.sound (h : Unscanned network db) : DbSound network db := by
  have hnotes : ∀ n, n ∉ db.notes.rows := by simp [h.notes]
  have hspends : ∀ s, s ∉ db.spends.rows := by simp [h.spends]
  have hwitnesses : ∀ w, w ∉ db.witnesses.rows := by simp [h.witnesses]
  constructor
  · exact fun n hn => absurd hn (hnotes n)
  · exact fun n hn => absurd hn (hnotes n)
  · exact fun n hn => absurd hn (hnotes n)
  · exact fun n hn => absurd hn (hnotes n)
  · exact fun s hs => absurd hs (hspends s)
  · exact fun w hw => absurd hw (hwitnesses w)
  · exact fun w hw => absurd hw (hwitnesses w)
  · intro a S _
    refine settled_of_no_notes ?_ ?_ S
    · exact fun w hw => absurd hw (hwitnesses w)
    · exact fun n hn => absurd hn (hnotes n)
  · exact h.heights

theorem quiet_sound (hq : Quiet db db') (hd : DbSound network db) : DbSound network db' := by
  refine hd.of_same_heights ⟨hq.notes, hq.spends, hq.witnesses, hq.same.accounts, ?_⟩ hq.syncHeights
  intro x hx
  rw [hq.same.addresses]
  exact ⟨x, hx, rfl, rfl⟩

/-- What every account's rewind keeps, a reorganization keeps. -/
theorem rewinds_inv {I : Database H → Prop} {accounts : List ℕ} {h : ℕ}
    (hstep : ∀ d a d', I d → d.rewindSync env.network a h = .ok d' → I d') (hd : I db)
    (hr : commitWarpMessages env db [.rewind accounts h] = .ok db') : I db' := by
  obtain ⟨d, hrewinds, hnil⟩ := commit_cons_ok.1 hr
  rw [commit_nil_ok] at hnil
  subst hnil
  exact foldlM_inv _ I hstep accounts db d hd hrewinds

/-- What a database transaction keeps, it keeps if it fails too. -/
theorem orKeep_inv {I : Database H → Prop} {r : Except Fault (Database H)} (hd : I db)
    (hr : ∀ db', r = .ok db' → I db') : I (orKeep db r) := by
  cases r with
  | error f => exact hd
  | ok db' => exact hr db' rfl

end Operations

/-! ### Steps and runs -/

section Run
variable {H : Type} [DecidableEq H] [Inhabited H] {c : ZcashCrypto H} {env : Env c}
  {w w' : State c} {e : Event H} {es : List (Event H)}

/-- The database is sound, and a scan that is under way follows it. -/
structure Sound (env : Env c) (w : State c) : Prop where
  db : DbSound env.writer.network w.db
  scan : ∀ scan ∈ w.scan, Live env.writer.network w.db scan

def OnChain (env : Env c) (w : State c) : Event H → Prop
  | .chunk _ blocks => ∀ scan ∈ w.scan, ChunkOk env w.db scan blocks
  | _ => True

instance {P : ShieldedProtocol H} (assetBaseOf : AssetBaseOf) (s : Synchronizer P)
    (blocks : List (CompactBlock H)) : Decidable (InOrder assetBaseOf s blocks) :=
  match h : receive assetBaseOf s.keys s.position (chunkTxs blocks) with
  | .error _ => isTrue ⟨by simp [h], by simp [h]⟩
  | .ok rs =>
    decidable_of_iff ((∀ n ∈ notesOf rs, n.pool = s.pool) ∧ ∀ n ∈ notesOf rs,
      ∀ e ∈ spendEvents P s.accounts (chunkTxs blocks), e.2 = (n.account, n.nf) →
        n.height ≤ e.1.block.height)
      ⟨fun ⟨h1, h2⟩ => ⟨by simpa [h] using h1, by simpa [h] using h2⟩,
        fun ⟨h1, h2⟩ => ⟨h1 rs h, h2 rs h⟩⟩

instance (db : Database H) (scan : Scan c) (blocks : List (CompactBlock H)) :
    Decidable (ChunkOk env db scan blocks) :=
  decidable_of_iff ((∀ b ∈ blocks, b.height ≤ scan.finish) ∧
      InOrder env.assetBaseOf scan.sapling blocks ∧ InOrder env.assetBaseOf scan.orchard blocks ∧
      (∀ s ∈ scan.ironwood, InOrder env.assetBaseOf s blocks) ∧
      (∀ x ∈ chunkTxs blocks, ∀ y ∈ chunkTxs blocks, x.tx.hash = y.tx.hash →
        x.block.height = y.block.height) ∧
      ∀ t ∈ db.transactions.rows, t.account ∈ scan.accounts → ∀ x ∈ chunkTxs blocks,
        t.txid = x.tx.hash → t.height = x.block.height)
    ⟨fun ⟨h1, h2, h3, h4, h5, h6⟩ => ⟨h1, h2, h3, h4, h5, h6⟩,
      fun ⟨h1, h2, h3, h4, h5, h6⟩ => ⟨h1, h2, h3, h4, h5, h6⟩⟩

instance (w : State c) : ∀ e : Event H, Decidable (OnChain env w e)
  | .chunk _ blocks => inferInstanceAs (Decidable (∀ scan ∈ w.scan, ChunkOk env w.db scan blocks))
  | .prune _ _ | .recover _ | .range _ _ _ _ _ | .reorg _ | .done _ | .stop | .rewind _ _
  | .reset _ => isTrue trivial

theorem Sound.idle {db : Database H} (hd : DbSound env.writer.network db) :
    Sound env ⟨db, none⟩ :=
  ⟨hd, by simp⟩

theorem commitChunk_sound {db : Database H} {scan : Scan c} {headers : List BlockHeader}
    {blocks : List (CompactBlock H)} (hd : DbSound env.writer.network db)
    (hl : Live env.writer.network db scan) (hr : chunkReady scan blocks = true)
    (hok : ChunkOk env db scan blocks) : Sound env (commitChunk env db scan headers blocks) := by
  unfold commitChunk
  split
  · exact .idle hd
  · rename_i scan' msgs hp
    split
    · exact .idle hd
    · rename_i db' hc
      obtain ⟨hd', hl'⟩ := process_advance hp hc hr hok hd hl
      refine ⟨hd', ?_⟩
      rintro _ ⟨⟩
      exact hl'

theorem range_sound {db : Database H} {accounts : List (ℕ × Bool)} {limit start finish : ℕ}
    {fs : Frontiers H} (hd : DbSound env.writer.network db)
    (h : step env ⟨db, none⟩ (.range accounts limit start finish fs) = some w') : Sound env w' := by
  simp only [step] at h
  split at h
  · rename_i hready
    have hd' := endTransparentPass_sound limit hd hready.1 hready.2
    split at h
    · rename_i scan hload
      cases h
      refine ⟨hd', ?_⟩
      rintro _ ⟨⟩
      exact load_live hd hready.1 hload
    · cases h
      exact .idle hd'
  · cases h

theorem step_sound (hw : Sound env w) (hok : OnChain env w e) (h : step env w e = some w') :
    Sound env w' := by
  obtain ⟨db, scan⟩ := w
  have hd := hw.db
  cases e with
  | prune account height =>
    cases scan <;> cases h
    exact .idle (prune_sound hd)
  | recover accounts =>
    cases scan <;> cases h
    exact .idle (recover_sound hd)
  | range accounts limit start finish fs =>
    cases scan with
    | none => exact range_sound hd h
    | some s => cases h
  | chunk headers blocks =>
    cases scan with
    | none => cases h
    | some s =>
      simp only [step] at h
      split at h
      · rename_i hready
        cases h
        exact commitChunk_sound hd (hw.scan s rfl) hready (hok s rfl)
      · cases h
  | reorg height =>
    cases scan <;> cases h
    exact .idle (orKeep_inv hd fun db' hr =>
      rewinds_inv (fun _ _ _ => rewind_sound) hd hr)
  | done headers =>
    cases scan <;> cases h
    exact .idle (orKeep_inv hd fun db' hr =>
      quiet_sound (commit_quiet (isQuiet_headers headers) hr) hd)
  | stop =>
    cases scan <;> cases h
    exact .idle hd
  | rewind account height =>
    cases scan <;> cases h
    exact .idle (orKeep_inv hd fun db' hr => rewind_sound hd hr)
  | reset account =>
    cases scan <;> cases h
    exact .idle (orKeep_inv hd fun db' hr => reset_sound hd hr)

theorem run_sound (hw : Sound env w) (hok : AllSteps (step env) (OnChain env) w es)
    (h : run (step env) w es = some w') : Sound env w' :=
  run_inv_of_allSteps (step env) (fun _ _ _ hs hok h => step_sound hs hok h) hw hok h

end Run

/-! ### What a checkpoint is worth -/

section Checkpoint
variable {H : Type} [DecidableEq H] {network : Network} {db db' : Database H}

/-- A complete height has one witness for each of its notes, for a note has at most one
    witness at a height. -/
theorem CompleteAt.exists_unique {a S : ℕ} (hc : CompleteAt db a S) {n : NoteRow H}
    (hn : n ∈ db.notes.rows) (hacc : n.account = a) (hp : n.pool ≠ 0) (hle : n.height ≤ S)
    (hns : ¬ SpentBy db n S) :
    ∃! x, x ∈ db.witnesses.rows ∧ x.note = n.idNote ∧ x.height = S := by
  obtain ⟨x, hx, -, hxn, hxh⟩ := hc n hn hacc hp hle hns
  refine ⟨x, ⟨hx, hxn, hxh⟩, ?_⟩
  rintro y ⟨hy, hyn, hyh⟩
  exact db.witnesses.eq_of_clash hy hx (Or.inr ⟨hyn.trans hxn.symm, hyh.trans hxh.symm⟩)

/-- Where a rewind goes, the database is the one that was trimmed there. -/
theorem rewind_tables {a h p : ℕ} (hp : db.checkpointBefore a h = some p)
    (hr : db.rewindSync network a h = .ok db') :
    db'.notes = (db.trimSyncData a p).notes ∧ db'.spends = (db.trimSyncData a p).spends ∧
      db'.witnesses = (db.trimSyncData a p).witnesses := by
  obtain ⟨back, hback, hr⟩ := bind_eq_ok.1 hr
  rw [Except.ok.injEq] at hr
  subst hr
  simp only [Database.goBack, hp, Except.ok.injEq] at hback
  subst hback
  exact ⟨rfl, rfl, rfl⟩

/-- Every checkpoint that is left has exactly one witness of each note that was received and
    not spent by then. -/
def RetainedComplete (db : Database H) : Prop :=
  ∀ x ∈ db.witnesses.rows, ∀ n ∈ db.notes.rows, n.account = x.account → n.pool ≠ 0 →
    n.height ≤ x.height → ¬ SpentBy db n x.height →
    ∃! y, y ∈ db.witnesses.rows ∧ y.note = n.idNote ∧ y.height = x.height

variable [Inhabited H]

/-- A synchronizer of a pool that starts from the checkpoint a rewind selects has every note
    of the account that was unspent there. -/
def RewindTracks (network : Network) (db : Database H) : Prop :=
  ∀ (P : ShieldedProtocol H) (a h p pool : ℕ) (keys : List (Key P)) (frontier : Frontier H)
    (debug : Bool) (db' : Database H), db.checkpointBefore a h = some p →
    db.rewindSync network a h = .ok db' → pool ≠ 0 → a ∈ keys.map Key.account →
    ∃ s, Synchronizer.new db' pool (p + 1) keys frontier debug = .ok s ∧
      ∀ n ∈ db.notes.rows, n.account = a → n.pool = pool → n.height ≤ p → ¬ SpentBy db n p →
        ∃ u ∈ s.utxos, Is u n

omit [Inhabited H] in
theorem DbSound.rewindTracks (hd : DbSound network db) : RewindTracks network db := by
  intro P a h p pool keys frontier debug db' hp hr hpool hkeys
  have hd' := rewind_sound hd hr
  obtain ⟨hnotes, hspends, hwitnesses⟩ := rewind_tables hp hr
  have hset : Settled db' a p := by
    obtain ⟨h1, h2, h3, h4⟩ := trim_settled hd (hd.completeAt_checkpoint hp)
    refine ⟨?_, ?_, ?_, ?_⟩
    · simpa only [CompleteAt, SpentBy, WitnessedAt, hnotes, hspends, hwitnesses] using h1
    · simpa only [hnotes] using h2
    · simpa only [hnotes, hspends] using h3
    · simpa only [hwitnesses] using h4
  obtain ⟨s, hs⟩ := exists_new (p + 1) keys frontier debug fun n hn hnp =>
    hd'.columns n hn (hnp ▸ hpool)
  refine ⟨s, hs, ?_⟩
  rintro n hn rfl hnp hle hns
  have hn' : n ∈ db'.notes.rows := hnotes ▸ mem_trim_notes.2 ⟨hn, fun _ => hle⟩
  refine (new_finds hs hpool hn' hkeys hnp hset).resolve_right ?_
  rintro ⟨sp, hsp, hid, hsph⟩
  rw [hspends] at hsp
  exact hns ⟨sp, (mem_trim_spends.1 hsp).1, hid, hsph⟩

end Checkpoint

/-! ### A sample -/

section Sample

/-- The sample's crates, except that the lead byte of a plaintext is that of its ciphertext. -/
def leadCrypto : ZcashCrypto ℕ :=
  { sampleCrypto with
    orchardPlaintext := fun (ivk : UInt8) ca =>
      .ok [if ca.ephemeralKey.headD 0 = ivk then ca.ciphertext.headD 0 else 0] }

def leadEnv : Env leadCrypto :=
  { writer := ⟨⟨80, 80, none⟩, fun _ _ _ _ => none, fun _ => ""⟩
    assetBaseOf := sampleAssetBase
    saplingKey := fun _ _ => ((7 : UInt8), (1 : ℕ))
    orchardKey := fun _ _ => ((7 : UInt8), (1 : ℕ))
    debug := false }

def newWallet : Database ℕ :=
  { Database.empty with
    accounts := ⟨[⟨1, none, 0, 0, 100, false, none, true, true⟩], by simp⟩
    syncHeights := ⟨[⟨1, 1, 100⟩, ⟨1, 2, 100⟩], by decide⟩ }

theorem newWallet_unscanned : Unscanned leadEnv.writer.network newWallet where
  notes := rfl
  spends := rfl
  witnesses := rfl
  heights := by
    refine ⟨by decide, ?_, by decide⟩
    intro a p hp hpool
    have ha : a = 1 := by
      by_contra hne
      have hnone : newWallet.accountRow a = none := by
        simp [newWallet, Database.accountRow, Ne.symm hne]
      unfold Database.hasPool at hpool
      simp [hnone] at hpool
    rcases hp with rfl | rfl
    · exact ⟨⟨1, 1, 100⟩, by simp [newWallet], ha.symm, rfl⟩
    · exact ⟨⟨1, 2, 100⟩, by simp [newWallet], ha.symm, rfl⟩

/-- A Sapling output, and an Orchard action whose plaintext starts with a lead byte. -/
def leadTx (lead : UInt8) : CompactTx ℕ :=
  { sampleTx 9 [] [sampleOutput 7 5] with
    actions := [⟨11, 6, [7], lead :: List.replicate 51 0⟩] }

def leaf (cmx : ℕ) : Frontier ℕ := ⟨1, fun d => if d = 0 then some cmx else none⟩

def twoScans (lead : UInt8) : List (Event ℕ) :=
  [.range [(1, false)] 20 101 101 ⟨⟨0, fun _ => none⟩, ⟨0, fun _ => none⟩, ⟨0, fun _ => none⟩⟩,
    .chunk [] [sampleBlock 101 [leadTx lead]], .done [],
    .range [(1, false)] 20 102 102 ⟨leaf 5, leaf 6, ⟨0, fun _ => none⟩⟩,
    .chunk [] [sampleBlock 102 []]]

/-- A note that the Orchard bundle of block 101 holds is filed under Ironwood, and no
    synchronizer has it in the next scan. -/
theorem misfiled_note_forgotten : ∃ w, run (step leadEnv) ⟨newWallet, none⟩ (twoScans 3) = some w ∧
    ¬ RetainedComplete w.db := by
  have hall : ((run (step leadEnv) ⟨newWallet, none⟩ (twoScans 3)).any fun w =>
      (w.db.witnesses.rows.any fun x => decide (x.account = 1 ∧ x.height = 102)) &&
      (w.db.notes.rows.any fun n => decide (n.idNote = 2 ∧ n.account = 1 ∧ n.pool = 3 ∧
        n.height = 101)) &&
      decide (w.db.spends.rows = []) &&
      decide (∀ y ∈ w.db.witnesses.rows, y.note = 2 → y.height ≠ 102)) = true := by
    rfl
  simp only [Option.any_eq_true, List.any_eq_true, Bool.and_eq_true, decide_eq_true_eq] at hall
  obtain ⟨w, hrun, ⟨⟨⟨x, hx, hxa, hxh⟩, n, hn, hid, hacc, hpool, hh⟩, hspends⟩, hnone⟩ := hall
  refine ⟨w, hrun, fun hc => ?_⟩
  obtain ⟨y, ⟨hy, hyn, hyh⟩, -⟩ := hc x hx n hn (hacc.trans hxa.symm) (by omega) (by omega)
    (by rintro ⟨s, hs, -⟩; simp [hspends] at hs)
  exact hnone y hy (hyn.trans hid) (hyh.trans hxh)

end Sample

/-! ### Every reachable wallet -/

section Reachable
variable {H : Type} [DecidableEq H] [Inhabited H] {c : ZcashCrypto H} {env : Env c}
  {db : Database H} {w : State c} {es : List (Event H)}

theorem checkpoints_retained (h₀ : Unscanned env.writer.network db)
    (hok : AllSteps (step env) (OnChain env) ⟨db, none⟩ es)
    (h : run (step env) ⟨db, none⟩ es = some w) :
    RetainedComplete w.db ∧ RewindTracks env.writer.network w.db ∧
      ∀ a cutoff h, cutoff ≤ h →
        (w.db.pruneOldCheckpoints a cutoff).checkpointBefore a h = w.db.checkpointBefore a h := by
  have hw : Sound env w := run_sound (.idle h₀.sound) hok h
  refine ⟨?_, hw.db.rewindTracks, ?_⟩
  · intro x hx n hn hacc hp hle hns
    exact (hw.db.complete x hx).exists_unique hn hacc hp hle hns
  · intro a cutoff h hh
    exact prune_checkpointBefore hh

end Reachable

/-- With the lead byte of Orchard the wallet has a checkpoint at 102, which is complete. -/
theorem twoScans_retained : ∃ w, run (step leadEnv) ⟨newWallet, none⟩ (twoScans 2) = some w ∧
    (∃ x ∈ w.db.witnesses.rows, x.note = 2 ∧ x.height = 102) ∧ RetainedComplete w.db := by
  have hall : ((run (step leadEnv) ⟨newWallet, none⟩ (twoScans 2)).any fun w =>
      w.db.witnesses.rows.any fun x => decide (x.note = 2 ∧ x.height = 102)) = true := by
    rfl
  simp only [Option.any_eq_true, List.any_eq_true, decide_eq_true_eq] at hall
  obtain ⟨w, hrun, x, hx, hxn⟩ := hall
  have hok : AllSteps (step leadEnv) (OnChain leadEnv) ⟨newWallet, none⟩ (twoScans 2) := by
    decide
  exact ⟨w, hrun, ⟨x, hx, hxn⟩, (checkpoints_retained newWallet_unscanned hok hrun).1⟩

end ZcashSdk.Wallet
