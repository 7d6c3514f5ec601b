import ZcashSdk.Wallet.Acceptance

set_option autoImplicit false

/-!
# The batches of a reachable wallet

Between scans a wallet is consistent, and a scan that is loaded from it or goes on after a chunk
tracks notes that wait for their next witness. So in every state a run reaches the one thing that
can stop the writer is a chunk with a note that is not told apart from another one.
-/
namespace ZcashSdk.Wallet
open Tables Shielded Db Loops Runs

variable {H : Type} [DecidableEq H] {network : Network} {env : WriterEnv} {db db' : Database H}

/-! ### Going back -/

theorem Consistent.of_same (hd : Consistent db) (h : SameShielded db db')
    (hheights : ∀ w ∈ db.witnesses.rows, ∃ r ∈ db'.syncHeights.rows,
      r.account = w.account ∧ w.height ≤ r.height)
    (hrows : ∀ r ∈ db'.syncHeights.rows, ∃ q ∈ db.syncHeights.rows, q.account = r.account) :
    Consistent db' where
  spends := by simpa only [h.spends, h.notes] using hd.spends
  witnesses := by simpa only [h.witnesses, h.notes] using hd.witnesses
  commitments := by simpa only [CommitmentsDiffer, h.notes] using hd.commitments
  heights := by simpa only [h.witnesses] using hheights
  births r hr := by
    obtain ⟨q, hq, hqa⟩ := hrows r hr
    simpa only [Database.getBirthHeight, Database.accountRow, h.accounts, hqa] using hd.births q hq

theorem trim_consistent {a h : ℕ} (hd : Consistent db) : Consistent (db.trimSyncData a h) where
  spends s hs := by
    obtain ⟨hs, hkeep⟩ := mem_trim_spends.1 hs
    obtain ⟨n, hn, hid, hacc, hle⟩ := hd.spends s hs
    exact ⟨n, mem_trim_notes.2 ⟨hn, fun h => hle.trans (hkeep (hacc ▸ h))⟩, hid, hacc, hle⟩
  witnesses w hw := by
    obtain ⟨hw, hkeep⟩ := mem_trim_witnesses.1 hw
    obtain ⟨n, hn, hid, hacc, hle⟩ := hd.witnesses w hw
    exact ⟨n, mem_trim_notes.2 ⟨hn, fun h => hle.trans (hkeep (hacc ▸ h))⟩, hid, hacc, hle⟩
  commitments m hm n hn := hd.commitments m (mem_trim_notes.1 hm).1 n (mem_trim_notes.1 hn).1
  heights w hw := by
    obtain ⟨hw, hkeep⟩ := mem_trim_witnesses.1 hw
    obtain ⟨r, hr, hra, hle⟩ := hd.heights w hw
    by_cases ha : r.account = a
    · exact ⟨⟨a, r.pool, h⟩, mem_trim_heights.2 (.inr ⟨rfl, r, hr, ha, rfl, rfl⟩),
        ha.symm.trans hra, hkeep (hra.symm.trans ha)⟩
    · exact ⟨r, mem_trim_heights.2 (.inl ⟨ha, hr⟩), hra, hle⟩
  births r hr := by
    rcases mem_trim_heights.1 hr with ⟨-, hr⟩ | ⟨-, q, hq, hqa, hra, -⟩
    · exact hd.births r hr
    · rw [hra, ← hqa]
      exact hd.births q hq

theorem recover_consistent {accounts : List ℕ} (hd : Consistent db) :
    Consistent (db.recoverFromPartialSync accounts).1 := by
  induction accounts generalizing db with
  | nil => exact hd
  | cons a accounts ih =>
    unfold Database.recoverFromPartialSync
    cases db.accountSeam a with
    | none => exact hd
    | some S => exact ih (trim_consistent hd)

theorem prune_consistent {a cutoff : ℕ} (hd : Consistent db) :
    Consistent (db.pruneOldCheckpoints a cutoff) := by
  have hframe := prune_frame db a cutoff
  refine ⟨?_, fun w hw => ?_, ?_, fun w hw => ?_, ?_⟩
  · rw [← hframe]
    exact hd.spends
  · rw [← hframe]
    exact hd.witnesses w (mem_prune_witnesses.1 hw).1
  · rw [← hframe]
    exact hd.commitments
  · rw [← hframe]
    exact hd.heights w (mem_prune_witnesses.1 hw).1
  · rw [← hframe]
    exact hd.births

/-- A reset leaves nothing above height 0, and heights are not below it. -/
theorem reset_consistent {a : ℕ} (hd : Consistent db) (h : db.resetSync network a = .ok db') :
    Consistent db' := by
  unfold Database.resetSync at h
  split at h
  · cases h
  · rename_i birth hbirth
    rw [Except.ok.injEq] at h
    subst h
    have ht := trim_consistent (a := a) (h := 0) hd
    refine ht.of_same ⟨rfl, rfl, rfl, rfl, fun x hx => ⟨_, List.mem_map_of_mem hx, ?_⟩⟩
      (fun w hw => ?_) (fun r hr => ?_)
    · split <;> exact ⟨rfl, rfl⟩
    · obtain ⟨q, hq, hqa, hle⟩ := ht.heights w hw
      have hzero : q.account = a → w.height = 0 := fun ha =>
        Nat.le_zero.1 ((mem_trim_witnesses.1 hw).2 (hqa.symm.trans ha))
      refine ⟨_, List.mem_map_of_mem hq, ?_⟩
      split
      · rename_i hc
        exact ⟨hqa, (hzero hc.1).trans_le (Nat.zero_le _)⟩
      · exact ⟨hqa, hle⟩
    · obtain ⟨q, hq, hacc, -⟩ := mem_initSyncHeights.1
        (show r ∈ ((db.trimSyncData a 0).initSyncHeights network a birth).syncHeights.rows from hr)
      exact ⟨q, hq, hacc.symm⟩

theorem rewind_consistent {a h : ℕ} (hd : Consistent db)
    (hr : db.rewindSync network a h = .ok db') : Consistent db' := by
  obtain ⟨back, hback, hr⟩ := bind_eq_ok.1 hr
  rw [Except.ok.injEq] at hr
  subst hr
  have hb : Consistent back := by
    unfold Database.goBack at hback
    split at hback
    · rename_i prev hprev
      rw [Except.ok.injEq] at hback
      subst hback
      exact (trim_consistent hd).of_same ⟨rfl, rfl, rfl, rfl, fun x hx => ⟨x, hx, rfl, rfl⟩⟩
        (trim_consistent hd).heights fun r hr => ⟨r, hr, rfl⟩
    · exact reset_consistent hd hback
  exact hb.of_same ⟨rfl, rfl, rfl, rfl, fun x hx => ⟨x, hx, rfl, rfl⟩⟩ hb.heights
    fun r hr => ⟨r, hr, rfl⟩

/-- An account with a birth can go back to any height. -/
theorem exists_rewindSync {a : ℕ} (hb : (db.getBirthHeight a).isSome = true) (h : ℕ) :
    ∃ db', db.rewindSync network a h = .ok db' := by
  obtain ⟨birth, hbirth⟩ := Option.isSome_iff_exists.1 hb
  have hback : ∃ back, db.goBack network a h = .ok back := by
    unfold Database.goBack
    split
    · exact ⟨_, rfl⟩
    · unfold Database.resetSync
      rw [hbirth]
      exact ⟨_, rfl⟩
  obtain ⟨back, hback⟩ := hback
  exact ⟨_, bind_eq_ok.2 ⟨back, hback, rfl⟩⟩

theorem rewindSync_accounts {a h : ℕ} (hr : db.rewindSync network a h = .ok db') :
    db'.accounts = db.accounts := by
  obtain ⟨back, hback, hr⟩ := bind_eq_ok.1 hr
  rw [Except.ok.injEq] at hr
  subst hr
  unfold Database.goBack at hback
  split at hback
  · rw [Except.ok.injEq] at hback
    subst hback
    rfl
  · unfold Database.resetSync at hback
    split at hback
    · cases hback
    · rw [Except.ok.injEq] at hback
      subst hback
      rfl

theorem accepts_rewind {accounts : List ℕ} {h : ℕ}
    (hb : ∀ a ∈ accounts, (db.getBirthHeight a).isSome = true) :
    Accepts env db [.rewind accounts h] := by
  suffices hrun : ∃ d, accounts.foldlM (fun db a => db.rewindSync env.network a h) db = .ok d by
    obtain ⟨d, hd⟩ := hrun
    exact ⟨d, commit_cons_ok.2 ⟨d, hd, commit_nil_ok.2 rfl⟩⟩
  induction accounts generalizing db with
  | nil => exact ⟨db, rfl⟩
  | cons a accounts ih =>
    rw [List.forall_mem_cons] at hb
    obtain ⟨d, hd⟩ : ∃ d, db.rewindSync env.network a h = .ok d := exists_rewindSync hb.1 h
    have hsame := rewindSync_accounts hd
    obtain ⟨e, he⟩ := @ih d (by
      simpa only [Database.getBirthHeight, Database.accountRow, hsame] using hb.2)
    exact ⟨e, by rw [List.foldlM_cons, hd]; exact he⟩

/-! ### The start of a scan -/

section Load
variable {ids : List ℕ} {limit start finish : ℕ}

theorem endTransparentPass_consistent (hd : Consistent db)
    (h : rangeReady network db ids start = true) (hle : start ≤ finish) :
    Consistent (endTransparentPass db ids limit finish) := by
  refine hd.of_same endTransparentPass_same (fun w hw => ?_) (fun r hr => ?_)
  · obtain ⟨q, hq, hqa, hqle⟩ := hd.heights w hw
    refine ⟨⟨q.account, q.pool, if q.account ∈ ids ∧ q.pool = 0 ∧
      db.transparentAddressesToScan q.account limit ≠ [] then finish else q.height⟩,
      mem_endTransparentPass.2 ⟨q, hq, rfl, rfl, rfl⟩, hqa, ?_⟩
    dsimp only
    split
    · rename_i hc
      obtain ⟨S, -, hstart, hall⟩ := rangeReady_seam h hc.1
      have := hall q hq rfl
      omega
    · exact hqle
  · obtain ⟨q, hq, hqa, -⟩ := mem_endTransparentPass.1 hr
    exact ⟨q, hq, hqa.symm⟩

/-- Nothing of the accounts of a ready range is witnessed in it. -/
theorem rangeReady_base (hd : Consistent db) (h : rangeReady network db ids start = true)
    (hle : start ≤ finish) :
    ScanBase (endTransparentPass db ids limit finish) ids (start - 1) where
  toConsistent := endTransparentPass_consistent hd h hle
  born a ha := by
    obtain ⟨S, hS, -⟩ := rangeReady_seam h ha
    obtain ⟨r, hr, rfl, -⟩ := accountSeam_mem hS
    exact hd.births r hr
  below w hw hacc := by
    obtain ⟨r, hr, hra, hrle⟩ := hd.heights w hw
    obtain ⟨S, -, hstart, hall⟩ := rangeReady_seam h hacc
    have := hall r hr hra
    omega

variable {P : ShieldedProtocol H} {pool height : ℕ} {accounts : List (ℕ × Bool)}
  {key : ℕ → ℕ → P.IVK × P.NK} {frontier : Frontier H} {debug : Bool} {s : Synchronizer P}

theorem new_syncHolds
    (h : Synchronizer.new db pool height
      (loadKeys (fun a s => if db.hasPool a pool then some (key a s) else none) accounts)
      frontier debug = .ok s) (hp : Database.isPool pool = true)
    (hb : ScanBase db (accounts.map Prod.fst) (height - 1)) :
    SyncHolds db (accounts.map Prod.fst) s (height - 1) := by
  obtain ⟨hpool, hkeys, hheld, -⟩ := new_spec h
  have hacc : ∀ a ∈ s.accounts, a ∈ accounts.map Prod.fst ∧ db.hasPool a pool = true := by
    intro a ha
    rw [Synchronizer.accounts, hkeys] at ha
    exact mem_loadKeys.1 ha
  refine ⟨⟨fun u hu => ?_, fun u hu => ?_⟩, hpool.symm ▸ hp, fun a ha => ?_, fun u hu => ?_, ?_⟩
  · obtain ⟨k, hk, r, hr, his⟩ := hheld u hu
    rw [Synchronizer.accounts, hkeys, ← his.1, (mem_unspentAt.1 hr).2.2.1]
    exact List.mem_map_of_mem hk
  · obtain ⟨k, -, r, hr, his⟩ := hheld u hu
    obtain ⟨hn, -, -, -, hw, hid, hh⟩ := mem_unspentAt.1 hr
    obtain ⟨n, hn', hnid, -, hle⟩ := hb.witnesses r.2 hw
    obtain rfl := db.notes.eq_of_clash hn' hn (.inl (hnid.trans hid))
    exact ⟨r.1, hn, his, hh ▸ hle⟩
  · rw [hpool]
    exact hacc a ha
  · obtain ⟨k, hk, r, hr, his⟩ := hheld u hu
    obtain ⟨hn, -, hra, hunspent, -⟩ := mem_unspentAt.1 hr
    refine ⟨r.1, hn, his, fun sp hsp hid => ?_, fun w hw hid => ?_⟩
    · rw [isSpent_eq_true.2 ⟨sp, hsp, hid⟩] at hunspent
      cases hunspent
    · obtain ⟨n, hn', hnid, hna, -⟩ := hb.witnesses w hw
      obtain rfl := db.notes.eq_of_clash hn' hn (.inl (hnid.trans hid))
      refine hb.below w hw (hacc w.account ?_).1
      rw [← hna, hra, Synchronizer.accounts, hkeys]
      exact List.mem_map_of_mem hk
  · obtain ⟨us, -, h⟩ := bind_eq_ok.1 h
    rw [Except.ok.injEq] at h
    subst h
    exact nodup_insertAll List.nodup_nil

/-- Rows of different pools are different rows. -/
theorem new_unshared {Q : ShieldedProtocol H} {pool' height' : ℕ} {keys : List (Key P)}
    {keys' : List (Key Q)} {frontier' : Frontier H} {t : Synchronizer Q}
    (hs : Synchronizer.new db pool height keys frontier debug = .ok s)
    (ht : Synchronizer.new db pool' height' keys' frontier' debug = .ok t) (hne : pool ≠ pool') :
    Unshared s t := by
  intro u hu v hv hkey
  obtain ⟨_, -, r, hr, hru⟩ := (new_spec hs).2.2.1 u hu
  obtain ⟨_, -, q, hq, hqv⟩ := (new_spec ht).2.2.1 v hv
  have hsame := Is.unique (mem_unspentAt.1 hr).1 (mem_unspentAt.1 hq).1 hru hqv hkey
  exact hne ((mem_unspentAt.1 hr).2.1.symm.trans (hsame ▸ (mem_unspentAt.1 hq).2.1))

end Load

/-! ### Steps and runs -/

section Run
variable [Inhabited H] {c : ZcashCrypto H} {env : Env c} {w w' : State c} {e : Event H}
  {es : List (Event H)}

theorem load_holds {accounts : List (ℕ × Bool)} {limit start finish : ℕ} {fs : Frontiers H}
    {scan : Scan c} (hd : Consistent db)
    (h : rangeReady env.writer.network db (accounts.map Prod.fst) start = true)
    (hle : start ≤ finish)
    (hload : Scan.load env (endTransparentPass db (accounts.map Prod.fst) limit finish)
      accounts start finish fs = .ok scan) :
    ScanHolds (endTransparentPass db (accounts.map Prod.fst) limit finish) scan := by
  have hb : ScanBase (endTransparentPass db (accounts.map Prod.fst) limit finish) _ _ :=
    rangeReady_base hd h hle
  obtain ⟨s, hs, hload⟩ := bind_eq_ok.1 hload
  obtain ⟨o, ho, hload⟩ := bind_eq_ok.1 hload
  obtain ⟨i, hi, hload⟩ := bind_eq_ok.1 hload
  rw [Except.ok.injEq] at hload
  subst hload
  have hi' := fun t ht => (loadIronwood_ok hi).2 t ht
  exact ⟨hb, new_syncHolds hs rfl hb, new_syncHolds ho rfl hb,
    fun t ht => new_syncHolds (hi' t ht) rfl hb, new_unshared hs ho (by decide),
    fun t ht => new_unshared hs (hi' t ht) (by decide),
    fun t ht => new_unshared ho (hi' t ht) (by decide)⟩

/-- The database is consistent, and a scan that is under way has what it tracks. -/
structure Steady (w : State c) : Prop where
  db : Consistent w.db
  scan : ∀ scan ∈ w.scan, ScanHolds w.db scan

/-- The blocks of a chunk are of the chain that is stored. -/
def Chained (env : Env c) (w : State c) : Event H → Prop
  | .chunk _ blocks => ∀ scan ∈ w.scan, OfChain env w.db scan blocks
  | _ => True

theorem Steady.idle (hd : Consistent db) : Steady (⟨db, none⟩ : State c) := ⟨hd, by simp⟩

theorem commitChunk_steady {scan : Scan c} {headers : List BlockHeader}
    {blocks : List (CompactBlock H)} (hs : ScanHolds db scan)
    (hr : chunkReady scan blocks = true) (hok : OfChain env db scan blocks) :
    Steady (commitChunk env db scan headers blocks) := by
  unfold commitChunk
  split
  · exact .idle hs.base.toConsistent
  · rename_i scan' msgs hp
    split
    · exact .idle hs.base.toConsistent
    · rename_i db' hc
      have hs' := ((process_outcome hp hr hok hs).2 db' hc).2
      refine ⟨hs'.base.toConsistent, ?_⟩
      rintro _ ⟨⟩
      exact hs'

theorem step_steady (hw : Steady w) (hok : Chained env w e) (h : step env w e = some w') :
    Steady w' := by
  obtain ⟨db, scan⟩ := w
  have hd := hw.db
  cases e with
  | prune account height =>
    cases scan <;> cases h
    exact .idle (prune_consistent hd)
  | recover accounts =>
    cases scan <;> cases h
    exact .idle (recover_consistent hd)
  | range accounts limit start finish fs =>
    cases scan with
    | some s => cases h
    | none =>
      simp only [step] at h
      split at h
      · rename_i hready
        split at h
        · rename_i scan hload
          cases h
          have hs := load_holds hd hready.1 hready.2 hload
          refine ⟨hs.base.toConsistent, ?_⟩
          rintro _ ⟨⟩
          exact hs
        · cases h
          exact .idle (endTransparentPass_consistent hd hready.1 hready.2)
      · cases h
  | chunk headers blocks =>
    cases scan with
    | none => cases h
    | some s =>
      simp only [step] at h
      split at h
      · rename_i hready
        cases h
        exact commitChunk_steady (hw.scan s rfl) hready (hok s rfl)
      · cases h
  | reorg height =>
    cases scan <;> cases h
    exact .idle (orKeep_inv hd fun db' hr =>
      rewinds_inv (fun _ _ _ => rewind_consistent) hd hr)
  | done headers =>
    cases scan <;> cases h
    exact .idle (orKeep_inv hd fun db' hr =>
      quiet_consistent (commit_quiet (isQuiet_headers headers) hr) hd)
  | stop =>
    cases scan <;> cases h
    exact .idle hd
  | rewind account height =>
    cases scan <;> cases h
    exact .idle (orKeep_inv hd fun db' hr => rewind_consistent hd hr)
  | reset account =>
    cases scan <;> cases h
    exact .idle (orKeep_inv hd fun db' hr => reset_consistent hd hr)

theorem run_steady (hw : Steady w) (hok : AllSteps (step env) (Chained env) w es)
    (h : run (step env) w es = some w') : Steady w' :=
  run_inv_of_allSteps (step env) (fun _ _ _ hs hok h => step_steady hs hok h) hw hok h

instance {P : ShieldedProtocol H} (assetBaseOf : AssetBaseOf) (s : Synchronizer P)
    (blocks : List (CompactBlock H)) : Decidable (RevealedAfter assetBaseOf s blocks) :=
  inferInstanceAs (Decidable (∀ n ∈ receivedNotes assetBaseOf s blocks,
    ∀ e ∈ spendEvents P s.accounts (chunkTxs blocks), e.2 = (n.account, n.nf) →
      n.height ≤ e.1.block.height))

instance (db : Database H) (scan : Scan c) (blocks : List (CompactBlock H)) :
    Decidable (OfChain env db scan blocks) :=
  decidable_of_iff (RevealedAfter env.assetBaseOf scan.sapling blocks ∧
      RevealedAfter env.assetBaseOf scan.orchard blocks ∧
      (∀ s ∈ scan.ironwood, RevealedAfter env.assetBaseOf s blocks) ∧
      (∀ x ∈ chunkTxs blocks, ∀ y ∈ chunkTxs blocks, x.tx.hash = y.tx.hash →
        x.block.height = y.block.height) ∧
      ∀ t ∈ db.transactions.rows, t.account ∈ scan.accounts → ∀ x ∈ chunkTxs blocks,
        t.txid = x.tx.hash → t.height = x.block.height)
    ⟨fun ⟨h1, h2, h3, h4, h5⟩ => ⟨h1, h2, h3, h4, h5⟩,
      fun ⟨h1, h2, h3, h4, h5⟩ => ⟨h1, h2, h3, h4, h5⟩⟩

instance (db : Database H) (ns : List (Note H)) : Decidable (ToldApart db ns) :=
  decidable_of_iff ((∀ n ∈ ns, ∀ r ∈ db.notes.rows, r.account = n.account →
      r.nullifier ≠ .shielded n.nf ∧ r.cmx ≠ some n.cmx) ∧
      ns.Pairwise fun m n => m.account = n.account → m.nf ≠ n.nf ∧ m.cmx ≠ n.cmx)
    ⟨fun ⟨h1, h2⟩ => ⟨h1, h2⟩, fun ⟨h1, h2⟩ => ⟨h1, h2⟩⟩

instance (w : State c) : ∀ e : Event H, Decidable (Chained env w e)
  | .chunk _ blocks => inferInstanceAs (Decidable (∀ scan ∈ w.scan, OfChain env w.db scan blocks))
  | .prune _ _ | .recover _ | .range _ _ _ _ _ | .reorg _ | .done _ | .stop | .rewind _ _
  | .reset _ => isTrue trivial

/-- In every state that a run reaches the writer accepts the batch of a chunk exactly when the
    notes it brings are told apart, and every batch that ends a scan. -/
theorem batch_accepted_iff {db : Database H} {scan : Scan c} (hd : Consistent db)
    (hok : AllSteps (step env) (Chained env) ⟨db, none⟩ es)
    (h : run (step env) ⟨db, none⟩ es = some w) (hscan : w.scan = some scan) :
    (∀ (headers : List BlockHeader) blocks scan' msgs, chunkReady scan blocks = true →
      OfChain env w.db scan blocks → scan.process env blocks = .ok (scan', msgs) →
        ((∃ db', commitWarpMessages env.writer w.db (headers.map .blockHeader ++ msgs) = .ok db') ↔
          ToldApart w.db (scan.received env blocks))) ∧
      (∀ headers : List BlockHeader,
        ∃ db', commitWarpMessages env.writer w.db (headers.map .blockHeader) = .ok db') ∧
      ∀ height, ∃ db',
        commitWarpMessages env.writer w.db [.rewind scan.accounts height] = .ok db' := by
  have hs := (run_steady (.idle hd) hok h).scan scan hscan
  refine ⟨fun headers blocks scan' msgs hr hchain hp => (process_outcome hp hr hchain hs).1,
    fun headers => accepts_quiet (isQuiet_headers headers), fun height => ?_⟩
  exact accepts_rewind hs.base.born

end Run

/-! ### A sample -/

theorem newWallet_consistent : Consistent newWallet where
  spends s hs := absurd hs (by simp [newWallet_unscanned.spends])
  witnesses w hw := absurd hw (by simp [newWallet_unscanned.witnesses])
  commitments m hm := absurd hm (by simp [newWallet_unscanned.notes])
  heights w hw := absurd hw (by simp [newWallet_unscanned.witnesses])
  births := by decide

def firstRange : List (Event ℕ) :=
  [.range [(1, false)] 20 101 101 ⟨⟨0, fun _ => none⟩, ⟨0, fun _ => none⟩, ⟨0, fun _ => none⟩⟩]

/-- Two Sapling outputs of the account, the first of which is spent in the same block. -/
def twoOutputs (cmx cmx' : ℕ) : List (CompactBlock ℕ) :=
  [sampleBlock 101 [sampleTx 9 [] [sampleOutput 7 cmx, sampleOutput 7 cmx'], sampleTx 10 [1000] []]]

theorem twoOutputs_accepted : ∃ w scan scan' msgs,
    run (step leadEnv) ⟨newWallet, none⟩ firstRange = some w ∧ w.scan = some scan ∧
      scan.process leadEnv (twoOutputs 5 6) = .ok (scan', msgs) ∧
      ∃ db', commitWarpMessages leadEnv.writer w.db msgs = .ok db' := by
  have hall : ((run (step leadEnv) ⟨newWallet, none⟩ firstRange).any fun w => w.scan.any fun scan =>
      chunkReady scan (twoOutputs 5 6) && decide (OfChain leadEnv w.db scan (twoOutputs 5 6)) &&
        decide (ToldApart w.db (scan.received leadEnv (twoOutputs 5 6))) &&
        (scan.process leadEnv (twoOutputs 5 6)).toBool) = true := by
    rfl
  simp only [Option.any_eq_true, Bool.and_eq_true, decide_eq_true_eq] at hall
  obtain ⟨w, hrun, scan, hscan, ⟨⟨hr, hchain⟩, htold⟩, hp⟩ := hall
  cases hproc : scan.process leadEnv (twoOutputs 5 6) with
  | error f => simp [hproc, Except.toBool] at hp
  | ok r =>
    have hok : AllSteps (step leadEnv) (Chained leadEnv) ⟨newWallet, none⟩ firstRange := by decide
    exact ⟨w, scan, r.1, r.2, hrun, hscan, hproc,
      ((batch_accepted_iff newWallet_consistent hok hrun hscan).1 [] _ r.1 r.2 hr hchain hproc).2
        htold⟩

/-- Two outputs with one commitment: the witness of either finds both rows. -/
theorem sameCommitment_aborts : ∃ w scan scan' msgs,
    run (step leadEnv) ⟨newWallet, none⟩ firstRange = some w ∧ w.scan = some scan ∧
      OfChain leadEnv w.db scan (twoOutputs 5 5) ∧
      scan.process leadEnv (twoOutputs 5 5) = .ok (scan', msgs) ∧
      commitWarpMessages leadEnv.writer w.db msgs = .error assertionFailed := by
  have hall : ((run (step leadEnv) ⟨newWallet, none⟩ firstRange).any fun w => w.scan.any fun scan =>
      decide (OfChain leadEnv w.db scan (twoOutputs 5 5)) &&
        match scan.process leadEnv (twoOutputs 5 5) with
        | .error _ => false
        | .ok r => match commitWarpMessages leadEnv.writer w.db r.2 with
          | .ok _ => false
          | .error f => decide (f = assertionFailed)) = true := by
    rfl
  simp only [Option.any_eq_true, Bool.and_eq_true, decide_eq_true_eq] at hall
  obtain ⟨w, hrun, scan, hscan, hchain, habort⟩ := hall
  split at habort
  · cases habort
  · rename_i r hproc
    split at habort
    · cases habort
    · rename_i f hcommit
      rw [decide_eq_true_eq] at habort
      exact ⟨w, scan, r.1, r.2, hrun, hscan, hchain, hproc, habort ▸ hcommit⟩

end ZcashSdk.Wallet
