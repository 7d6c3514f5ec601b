import ZcashSdk.Lib.Runs
import ZcashSdk.Shielded.ChunkShape
import ZcashSdk.Shielded.Sample
import ZcashSdk.Warp.Reader
import ZcashSdk.Wallet.Completeness

set_option autoImplicit false

/-!
# Headers after a reorganization

A rewind goes back to a checkpoint below the reported height and drops the headers above
that height, so the header at the height stays. The rescan starts above the checkpoint and
ignores a header whose height is stored. What the rescan leaves of the headers up to the
reported height is therefore what was there before, whatever chain it follows.
-/
namespace ZcashSdk.Wallet
open Tables Shielded Db Loops Runs Warp

variable {H : Type} [DecidableEq H]

/-! ### The rewind -/

section Rewind
variable {env : WriterEnv} {network : Network} {db d : Database H}

theorem goBack_headers {account height : ℕ} (h : db.goBack network account height = .ok d) :
    d.headers = db.headers := by
  unfold Database.goBack Database.resetSync at h
  split at h
  · cases h
    rfl
  · split at h
    · cases h
    · cases h
      rfl

theorem mem_rewindSync_headers {account height : ℕ}
    (h : db.rewindSync network account height = .ok d) {x : BlockHeader} :
    x ∈ d.headers.rows ↔ x ∈ db.headers.rows ∧ x.height ≤ height := by
  obtain ⟨back, hback, h⟩ := bind_eq_ok.1 h
  rw [Except.ok.injEq] at h
  subst h
  rw [Table.mem_deleteWhere, goBack_headers hback, decide_eq_false_iff_not, not_lt]

/-- The headers that a report leaves: those above its height are dropped, for any account. -/
theorem mem_rewind_headers {accounts : List ℕ} {height : ℕ} (hne : accounts ≠ [])
    (h : commitWarpMessages env db [.rewind accounts height] = .ok d) {x : BlockHeader} :
    x ∈ d.headers.rows ↔ x ∈ db.headers.rows ∧ x.height ≤ height := by
  obtain ⟨d', hd, hend⟩ := commit_cons_ok.1 h
  rw [commit_nil_ok] at hend
  subst hend
  obtain ⟨a, as, rfl⟩ := List.exists_cons_of_ne_nil hne
  simp only [handleMessage, List.foldlM_cons] at hd
  obtain ⟨e, he, hd⟩ := bind_eq_ok.1 hd
  -- the first account's rewind drops them; the others find nothing more to drop
  have hrest := foldlM_inv (fun db account => Database.rewindSync env.network db account height)
    (fun d => ∀ x, x ∈ d.headers.rows ↔ x ∈ e.headers.rows) (by
      intro d a d' hd hstep x
      rw [mem_rewindSync_headers hstep, hd x, and_iff_left_iff_imp]
      exact fun hx => ((mem_rewindSync_headers he).1 hx).2) as e d' (fun _ => Iff.rfl) hd
  rw [hrest x]
  exact mem_rewindSync_headers he

end Rewind

/-! ### The rescan -/

def headerAt (chain : ℕ → CompactBlock H) (height : ℕ) : BlockHeader :=
  ⟨height, (chain height).hash, (chain height).time⟩

def Agrees (chain : ℕ → CompactBlock H) (lo hi : ℕ) (db : Database H) : Prop :=
  ∀ x ∈ db.headers.rows, lo ≤ x.height → x.height ≤ hi → x = headerAt chain x.height

/-- What a sync along the chain does; it reports no further reorganization. -/
def Along (chain : ℕ → CompactBlock H) : Event H → Prop
  | .chunk headers blocks =>
    (∀ x ∈ headers, x = headerAt chain x.height) ∧ ∀ b ∈ blocks, b = chain b.height
  | .done headers => ∀ x ∈ headers, x = headerAt chain x.height
  | .prune _ _ | .recover _ | .range _ _ _ _ _ | .stop => True
  | .reorg _ | .rewind _ _ | .reset _ => False

structure Extends (chain : ℕ → CompactBlock H) (db db' : Database H) : Prop where
  kept : ∀ x ∈ db.headers.rows, x ∈ db'.headers.rows
  added : ∀ x ∈ db'.headers.rows, x ∈ db.headers.rows ∨ x = headerAt chain x.height

section Rescan
variable {chain : ℕ → CompactBlock H} {db db' : Database H}

theorem Extends.of_eq (h : db'.headers = db.headers) : Extends chain db db' :=
  ⟨fun _ hx => h ▸ hx, fun _ hx => Or.inl (h ▸ hx)⟩

theorem Extends.trans {db'' : Database H} (h : Extends chain db db')
    (h' : Extends chain db' db'') : Extends chain db db'' where
  kept x hx := h'.kept x (h.kept x hx)
  added x hx := by
    rcases h'.added x hx with hx | hx
    · exact h.added x hx
    · exact Or.inr hx

def HeadedBy (chain : ℕ → CompactBlock H) (m : WarpSyncMessage H) : Prop :=
  isScan m = true ∧ ∀ bh, m = .blockHeader bh → bh = headerAt chain bh.height

theorem effect_headers {env : WriterEnv} {m : WarpSyncMessage H} (h : Effect env db m db')
    (hm : ∀ bh, m ≠ .blockHeader bh) : db'.headers = db.headers := by
  cases h with
  | blockHeader bh => exact absurd rfl (hm bh)
  | note n t a ns tx insert =>
    change (db.registerAsset n).headers = _
    unfold Database.registerAsset
    split <;> rfl
  | _ => rfl

theorem effect_extends {env : WriterEnv} {m : WarpSyncMessage H} (h : Effect env db m db')
    (hm : HeadedBy chain m) : Extends chain db db' := by
  by_cases hb : ∃ bh, m = .blockHeader bh
  · obtain ⟨bh, rfl⟩ := hb
    cases h
    refine ⟨fun x hx => Table.mem_insertOrIgnore_of_mem hx, fun x hx => ?_⟩
    rcases Table.mem_insertOrIgnore.1 hx with hx | ⟨rfl, -⟩
    · exact Or.inl hx
    · exact Or.inr (hm.2 x rfl)
  · exact .of_eq (effect_headers h fun bh hbh => hb ⟨bh, hbh⟩)

theorem commit_extends {env : WriterEnv} {ms : List (WarpSyncMessage H)}
    (hms : ∀ m ∈ ms, HeadedBy chain m) (h : commitWarpMessages env db ms = .ok db') :
    Extends chain db db' :=
  commit_inv (fun d => Extends chain db d) (fun m hm => (hms m hm).1)
    (fun m hm _ _ hd he => hd.trans (effect_extends he (hms m hm))) h (.of_eq rfl)

omit [DecidableEq H] in
theorem headedBy_headers {headers : List BlockHeader}
    (h : ∀ x ∈ headers, x = headerAt chain x.height) :
    ∀ m ∈ headers.map (WarpSyncMessage.blockHeader (H := H)), HeadedBy chain m := by
  intro m hm
  obtain ⟨x, hx, rfl⟩ := List.mem_map.1 hm
  refine ⟨rfl, ?_⟩
  rintro _ ⟨⟩
  exact h x hx

omit [DecidableEq H] in
theorem mem_issuanceMessages {assetBaseOf : AssetBaseOf} {blocks : List (CompactBlock H)}
    {ms : List (WarpSyncMessage H)} (h : issuanceMessages assetBaseOf blocks = .ok ms)
    {m : WarpSyncMessage H} (hm : m ∈ ms) : ∃ iss, m = .issuance iss := by
  obtain ⟨t, -, xs, hx, hm⟩ := mem_flatMapM h hm
  obtain ⟨iss, -, hi⟩ := mapM_ok_mem hx hm
  unfold issuanceMessage at hi
  split_ifs at hi
  split at hi
  · rw [Except.ok.injEq] at hi
    exact ⟨_, hi.symm⟩
  · cases hi

theorem recover_headers {accounts : List ℕ} :
    (db.recoverFromPartialSync accounts).1.headers = db.headers := by
  induction accounts generalizing db with
  | nil => rfl
  | cons a accounts ih =>
    unfold Database.recoverFromPartialSync
    split
    · rfl
    · exact ih

theorem prune_headers (db : Database H) (account height : ℕ) :
    (db.pruneOldCheckpoints account height).headers = db.headers := by
  unfold Database.pruneOldCheckpoints
  split <;> rfl

theorem commitOrKeep_extends {c : ZcashCrypto H} {env : Env c} {headers : List BlockHeader}
    (hh : ∀ x ∈ headers, x = headerAt chain x.height) :
    Extends chain db (commitOrKeep env db (headers.map .blockHeader)) := by
  unfold commitOrKeep
  cases hc : commitWarpMessages env.writer db (headers.map .blockHeader) with
  | error f => exact .of_eq rfl
  | ok db' => exact commit_extends (headedBy_headers hh) hc

variable [Inhabited H]

theorem headedBy_add {P : ShieldedProtocol H} (hP : P.Lawful) {assetBaseOf : AssetBaseOf}
    {s s' : Synchronizer P} {blocks : List (CompactBlock H)} (ha : Ascending blocks)
    {last : CompactBlock H} (hlast : blocks.getLast? = some last)
    {msgs : List (WarpSyncMessage H)} (hadd : s.add assetBaseOf blocks = .ok (s', msgs)) :
    ∀ m ∈ msgs, HeadedBy chain m := by
  obtain ⟨rs, tracked, -, -, rfl, -⟩ := add_shape hP ha hlast hadd
  intro m hm
  rw [messagesOf, List.append_assoc, List.append_assoc] at hm
  rcases List.mem_append.1 hm with hm | hm
  · refine ⟨isScan_receipts rs m hm, fun bh hbh => ?_⟩
    obtain ⟨_, -, _, -, h | h⟩ := mem_receipts hm <;> rw [h] at hbh <;> cases hbh
  · refine ⟨isScan_reports m hm, fun bh hbh => ?_⟩
    rcases mem_reports hm with ⟨u, -, h⟩ | ⟨e, -, u, -, -, h | h⟩ | h <;> rw [h] at hbh <;>
      cases hbh

variable {c : ZcashCrypto H} {env : Env c}

theorem headedBy_process {scan scan' : Scan c} {blocks : List (CompactBlock H)}
    {msgs : List (WarpSyncMessage H)} (ha : Ascending blocks)
    (hb : ∀ b ∈ blocks, b = chain b.height)
    (h : scan.process env blocks = .ok (scan', msgs)) : ∀ m ∈ msgs, HeadedBy chain m := by
  obtain ⟨last, iss, s, o, i, hlast, hiss, hs, ho, hi, -, rfl⟩ := process_cases h
  intro m hm
  simp only [List.mem_append, List.mem_singleton] at hm
  rcases hm with (((hm | hm) | hm) | hm) | rfl
  · obtain ⟨is, rfl⟩ := mem_issuanceMessages hiss hm
    exact ⟨rfl, fun bh hbh => by cases hbh⟩
  · exact headedBy_add (saplingProtocol_lawful c) ha hlast hs m hm
  · exact headedBy_add (orchardProtocol_lawful c) ha hlast ho m hm
  · cases hiw : scan.ironwood with
    | none =>
      rw [hiw, addIronwood, Except.ok.injEq] at hi
      rw [← hi] at hm
      exact absurd hm (List.not_mem_nil)
    | some t =>
      rw [hiw] at hi
      obtain ⟨a, ha', hi⟩ := bind_eq_ok.1 hi
      rw [Except.ok.injEq] at hi
      rw [← hi] at hm
      exact headedBy_add (ironwoodProtocol_lawful c) ha hlast ha' m hm
  · refine ⟨rfl, ?_⟩
    rintro _ ⟨⟩
    have hmem : last ∈ blocks := List.mem_of_getLast? hlast
    rw [headerAt, ← hb last hmem]

theorem commitChunk_extends {scan : Scan c} {headers : List BlockHeader}
    {blocks : List (CompactBlock H)} (hr : chunkReady scan blocks = true)
    (hh : ∀ x ∈ headers, x = headerAt chain x.height) (hb : ∀ b ∈ blocks, b = chain b.height) :
    Extends chain db (commitChunk env db scan headers blocks).db := by
  have ha : Ascending blocks := by
    simp only [chunkReady, Bool.and_eq_true, decide_eq_true_eq] at hr
    exact hr.1.2
  unfold commitChunk
  split
  · exact .of_eq rfl
  · rename_i hp
    split
    · exact .of_eq rfl
    · rename_i hc
      refine commit_extends (fun m hm => ?_) hc
      rcases List.mem_append.1 hm with hm | hm
      · exact headedBy_headers hh m hm
      · exact headedBy_process ha hb hp m hm

theorem step_extends {w w' : State c} {e : Event H} (he : Along chain e)
    (h : step env w e = some w') : Extends chain w.db w'.db := by
  obtain ⟨db, scan⟩ := w
  cases e with
  | prune account height =>
    cases scan <;> cases h
    exact .of_eq (prune_headers db account height)
  | recover accounts =>
    cases scan <;> cases h
    exact .of_eq recover_headers
  | range accounts limit start finish fs =>
    cases scan with
    | some scan => cases h
    | none =>
      simp only [step] at h
      split at h
      · split at h <;> cases h <;> exact .of_eq rfl
      · cases h
  | chunk headers blocks =>
    cases scan with
    | none => cases h
    | some scan =>
      simp only [step] at h
      split at h
      · rename_i hr
        cases h
        exact commitChunk_extends hr he.1 he.2
      · cases h
  | done headers =>
    cases scan <;> cases h
    exact commitOrKeep_extends he
  | stop =>
    cases scan <;> cases h
    exact .of_eq rfl
  | reorg height => exact he.elim
  | rewind account height => exact he.elim
  | reset account => exact he.elim

theorem run_extends {w w' : State c} {es : List (Event H)} (he : ∀ e ∈ es, Along chain e)
    (h : run (step env) w es = some w') : Extends chain w.db w'.db := by
  induction es generalizing w with
  | nil =>
    cases h
    exact .of_eq rfl
  | cons e es ih =>
    obtain ⟨v, hv, h⟩ := (run_cons_some _).1 h
    rw [List.forall_mem_cons] at he
    exact (step_extends he.1 hv).trans (ih he.2 h)

end Rescan

/-! ### What a report leaves to the rescan -/

section Report
variable [Inhabited H] {c : ZcashCrypto H} {env : Env c} {w v : State c} {scan : Scan c}
  {d : Database H} {h : ℕ} {es : List (Event H)} {chain : ℕ → CompactBlock H}

/-- After a report the rescan goes on from the database that the rewind left. -/
theorem step_reorg (hscan : w.scan = some scan)
    (hr : commitWarpMessages env.writer w.db [.rewind scan.accounts h] = .ok d) :
    step env w (.reorg h) = some ⟨d, none⟩ := by
  obtain ⟨db, s⟩ := w
  cases hscan
  simp only [step, commitOrKeep, hr, orKeep]

/-- `prev_hash`: the hash stored for the height before a scan. -/
def prevHash (db : Database H) (start : ℕ) : Option Bytes :=
  (db.headers.rows.find? fun x => x.height = start - 1).map BlockHeader.hash

omit [Inhabited H] in
theorem prevHash_of_mem {db : Database H} {x : BlockHeader} (hx : x ∈ db.headers.rows) :
    prevHash db (x.height + 1) = some x.hash := by
  have hfind : db.headers.rows.find? (fun y => y.height = x.height) = some x := by
    rw [db.headers.find?_eq_some fun a ha b hb hpa hpb => ?_]
    · exact ⟨hx, by simp⟩
    · simp only [decide_eq_true_eq] at hpa hpb
      exact db.headers.eq_of_clash ha hb (hpa.trans hpb.symm)
  rw [prevHash, Nat.add_sub_cancel, hfind]
  rfl

omit [DecidableEq H] [Inhabited H] in
/-- The first block of a scan does not link to the stored hash: the height before it is
    reported. -/
theorem onBlock_reports {a : ReaderArgs} {b : CompactBlock H} {hash : Bytes}
    (hb : b.height = a.startHeight) (hpos : 0 < a.startHeight) (hlt : a.startHeight < 2 ^ 32)
    (hprev : a.prevHash = some hash) (hne : b.prevHash ≠ hash) :
    (a.init.onBlock a b).control = .sending (.reorg a.accountIds (a.startHeight - 1)) []
      (.done (.error (.reorg (a.startHeight - 1)))) := by
  have hcur : u32 b.height = a.startHeight := by
    rw [hb, u32, Nat.mod_eq_of_lt hlt]
  have hsub : subU32 a.startHeight 1 = a.startHeight - 1 := by
    unfold subU32 u32
    omega
  have hlink : a.init.links b = false := by
    simp only [Reader.links, ReaderArgs.init, hprev, decide_eq_false_iff_not]
    exact Ne.symm hne
  unfold Reader.onBlock
  rw [if_neg (by simp [ReaderArgs.init, hb]), if_neg (by simp [hlink])]
  simp only [ReaderArgs.init, flushChunk, List.nil_append, Reader.send, hcur, hsub]

/-- The header at the reported height survives the rewind and any rescan, so a later sync
    from the next height reports the same reorganization again. -/
theorem reorg_reported_again (hscan : w.scan = some scan) (hne : scan.accounts ≠ [])
    (hr : commitWarpMessages env.writer w.db [.rewind scan.accounts h] = .ok d)
    (halong : ∀ e ∈ es, Along chain e) (hrun : run (step env) w (.reorg h :: es) = some v)
    {x : BlockHeader} (hx : x ∈ w.db.headers.rows) (hh : x.height = h) {a : ReaderArgs}
    (hstart : a.startHeight = h + 1) (hlt : h + 1 < 2 ^ 32)
    (hprev : a.prevHash = prevHash v.db a.startHeight) {b : CompactBlock H}
    (hb : b.height = h + 1) (hstale : b.prevHash ≠ x.hash) :
    (a.init.onBlock a b).control =
      .sending (.reorg a.accountIds h) [] (.done (.error (.reorg h))) := by
  obtain ⟨u, hu, hrun⟩ := (run_cons_some _).1 hrun
  rw [step_reorg hscan hr, Option.some.injEq] at hu
  subst hu
  have hkept : x ∈ v.db.headers.rows :=
    (run_extends halong hrun).kept x ((mem_rewind_headers hne hr).2 ⟨hx, hh.le⟩)
  rw [hstart, ← hh, prevHash_of_mem hkept] at hprev
  have := onBlock_reports (hb.trans hstart.symm) (by omega) (by omega) hprev hstale
  rwa [hstart, Nat.add_sub_cancel] at this

end Report

/-! ### A sample -/

theorem exists_ok {ε α : Type} {r : Except ε α} (h : r.toOption.isSome = true) :
    ∃ a, r = .ok a := by
  cases r with
  | error e => cases h
  | ok a => exact ⟨a, rfl⟩

def headerEnv : Env sampleCrypto :=
  { writer := ⟨⟨80, 80, none⟩, fun _ _ _ _ => none, fun _ => ""⟩
    assetBaseOf := sampleAssetBase
    saplingKey := fun _ _ => ((7 : UInt8), (1 : ℕ))
    orchardKey := fun _ _ => ((7 : UInt8), (1 : ℕ))
    debug := false }

def checkpointNote : NoteRow ℕ :=
  { idNote := 1, height := 85, account := 1, pool := 1, scope := some 0, nullifier := .shielded 5,
    tx := 1, value := 1, cmx := some 5, taddress := none, position := some 0, diversifier := none,
    rcm := none, rho := none, idAsset := none, diversifierIndex := none }

/-- Account 1 was scanned up to height 100 and has checkpoints at 90 and 100. -/
def scannedTo100 (headers : Table BlockHeader) : Database ℕ :=
  { Database.empty with
    accounts := .singleton ⟨1, none, 0, 0, 80, false, none, true, false⟩
    syncHeights := .singleton ⟨1, 1, 100⟩
    notes := .singleton checkpointNote
    witnesses := ⟨[⟨1, 1, 1, 90, Witness.default⟩, ⟨2, 1, 1, 100, Witness.default⟩], by decide⟩
    headers := headers }

def oneLeaf : Frontiers ℕ :=
  ⟨⟨1, fun d => if d = 0 then some 5 else none⟩, ⟨0, fun _ => none⟩, ⟨0, fun _ => none⟩⟩

def emptyBlocks (height : ℕ) : CompactBlock ℕ := sampleBlock height []

def scanFrom (start : ℕ) : Event ℕ := .range [(1, false)] 20 start 110 oneLeaf

def rescan (start stop : ℕ) : List (Event ℕ) :=
  [scanFrom start, .chunk [] ((List.range' start (stop + 1 - start)).map emptyBlocks)]

theorem rescan_along (start stop : ℕ) : ∀ e ∈ rescan start stop, Along emptyBlocks e := by
  intro e he
  simp only [rescan, List.mem_cons, List.not_mem_nil, or_false] at he
  rcases he with rfl | rfl
  · trivial
  · refine ⟨by simp, fun b hb => ?_⟩
    obtain ⟨n, -, rfl⟩ := List.mem_map.1 hb
    rfl

/-! ### The rescanned range -/

section Range
variable [Inhabited H] {c : ZcashCrypto H} {env : Env c} {w v : State c} {scan : Scan c}
  {d : Database H} {h : ℕ} {es : List (Event H)} {chain : ℕ → CompactBlock H}

/-- After a rescan the headers of a range are the chain's if and only if those up to the
    reported height were so before the report. -/
theorem rescan_agrees_iff (hscan : w.scan = some scan) (hne : scan.accounts ≠ [])
    (hr : commitWarpMessages env.writer w.db [.rewind scan.accounts h] = .ok d)
    (halong : ∀ e ∈ es, Along chain e) (hrun : run (step env) w (.reorg h :: es) = some v)
    (lo hi : ℕ) : Agrees chain lo hi v.db ↔ Agrees chain lo (min h hi) w.db := by
  obtain ⟨u, hu, hrun⟩ := (run_cons_some _).1 hrun
  rw [step_reorg hscan hr, Option.some.injEq] at hu
  subst hu
  have hext := run_extends halong hrun
  constructor
  · intro hagree x hx hlo hmin
    have hx' := (mem_rewind_headers hne hr).2 ⟨hx, hmin.trans (min_le_left h hi)⟩
    exact hagree x (hext.kept x hx') hlo (hmin.trans (min_le_right h hi))
  · intro hagree x hx hlo hhi
    rcases hext.added x hx with hold | hnew
    · obtain ⟨hx', hle⟩ := (mem_rewind_headers hne hr).1 hold
      exact hagree x hx' hlo (le_min hle hhi)
    · exact hnew

end Range

/-- The scan from 101 on reads a block that links to another block 100 than the stored one
    and reports 100. The stored header is still there after the rescan. -/
theorem reported_header_survives :
    ∃ w v scan d, w.scan = some scan ∧ scan.accounts ≠ [] ∧
      (∀ a : ReaderArgs, a.startHeight = 101 → a.prevHash = prevHash w.db 101 →
        (a.init.onBlock a (emptyBlocks 101)).control =
          .sending (.reorg a.accountIds 100) [] (.done (.error (.reorg 100)))) ∧
      commitWarpMessages headerEnv.writer w.db [.rewind scan.accounts 100] = .ok d ∧
      (∀ e ∈ rescan 91 100, Along emptyBlocks e) ∧
      run (step headerEnv) w (.reorg 100 :: rescan 91 100) = some v ∧
      ¬ Agrees emptyBlocks 91 100 v.db := by
  have hall : (run (step headerEnv)
      ⟨scannedTo100 ((Table.empty.insertOrIgnore ⟨90, [90], 90⟩).insertOrIgnore ⟨100, [0], 100⟩),
        none⟩ [scanFrom 101]).any (fun w => w.scan.any fun s => decide (s.accounts = [1]) &&
      decide (⟨100, [0], 100⟩ ∈ w.db.headers.rows) &&
      (commitWarpMessages headerEnv.writer w.db [.rewind s.accounts 100]).toOption.isSome &&
      (run (step headerEnv) w (.reorg 100 :: rescan 91 100)).any fun v =>
        decide (⟨100, [0], 100⟩ ∈ v.db.headers.rows)) = true := by
    rfl
  simp only [Option.any_eq_true, Bool.and_eq_true, decide_eq_true_eq] at hall
  obtain ⟨w, -, scan, hscan, ⟨⟨hacc, hmem⟩, hd⟩, v, hrun, hv⟩ := hall
  obtain ⟨d, hd⟩ := exists_ok hd
  refine ⟨w, v, scan, d, hscan, by simp [hacc], ?_, hd, rescan_along 91 100, hrun, ?_⟩
  · intro a hstart hprev
    rw [prevHash_of_mem hmem] at hprev
    have := onBlock_reports (b := emptyBlocks 101) hstart.symm (by omega) (by omega) hprev (by decide)
    rwa [hstart] at this
  · intro hagree
    exact absurd (hagree _ hv (by decide) (by decide)) (by decide)

/-- The scan follows a block 101 that was replaced, but the header of the replacement is
    stored already, by the scan of another account. -/
theorem replaced_header_kept :
    ∃ w v : State sampleCrypto, run (step headerEnv) w (.reorg 101 :: rescan 101 105) = some v ∧
      Agrees emptyBlocks 101 105 v.db := by
  have hall : (run (step headerEnv)
      ⟨scannedTo100 (((Table.empty.insertOrIgnore ⟨90, [90], 90⟩).insertOrIgnore
        ⟨100, [100], 100⟩).insertOrIgnore ⟨101, [101], 101⟩), none⟩
      [scanFrom 101, .chunk [] [{ emptyBlocks 101 with hash := [0] }]]).any
        (fun w => w.scan.any fun s => decide (s.accounts = [1]) &&
      decide (∀ x ∈ w.db.headers.rows, x = headerAt emptyBlocks x.height) &&
      (commitWarpMessages headerEnv.writer w.db [.rewind s.accounts 101]).toOption.isSome &&
      (run (step headerEnv) w (.reorg 101 :: rescan 101 105)).isSome) = true := by
    rfl
  simp only [Option.any_eq_true, Bool.and_eq_true, decide_eq_true_eq, Option.isSome_iff_exists] at hall
  obtain ⟨w, -, scan, hscan, ⟨⟨hacc, hold⟩, hd⟩, v, hrun⟩ := hall
  obtain ⟨d, hd⟩ := exists_ok (Option.isSome_iff_exists.2 hd)
  exact ⟨w, v, hrun, (rescan_agrees_iff hscan (by simp [hacc]) hd (rescan_along 101 105) hrun 101 105).2
    fun x hx _ _ => hold x hx⟩

end ZcashSdk.Wallet
