import ZcashSdk.Db.Acceptance
import ZcashSdk.Wallet.Mirror

set_option autoImplicit false

/-!
# When the batch of a chunk is accepted

A row is stored under its nullifier, but the writer's messages name it by its commitment. So the
batch of a chunk is accepted when no note it received shares either with another note of its
account, and nothing else that a run of a wallet leaves in the database can be in the way.
-/
namespace ZcashSdk.Wallet
open Tables Shielded Db Loops Runs

variable {H : Type} [DecidableEq H]

/-! ### What the writer goes by -/

def CommitmentsDiffer (db : Database H) : Prop :=
  ∀ m ∈ db.notes.rows, ∀ n ∈ db.notes.rows, m.account = n.account → m.cmx = n.cmx →
    m.cmx ≠ none → m = n

/-- Spends and witnesses are of stored notes and not below them, nothing is witnessed above the
    heights of its account, and the accounts with heights are there. -/
structure Consistent (db : Database H) : Prop where
  spends : ∀ s ∈ db.spends.rows, ∃ n ∈ db.notes.rows,
    n.idNote = s.idNote ∧ n.account = s.account ∧ n.height ≤ s.height
  witnesses : ∀ w ∈ db.witnesses.rows, ∃ n ∈ db.notes.rows,
    n.idNote = w.note ∧ n.account = w.account ∧ n.height ≤ w.height
  commitments : CommitmentsDiffer db
  heights : ∀ w ∈ db.witnesses.rows, ∃ r ∈ db.syncHeights.rows,
    r.account = w.account ∧ w.height ≤ r.height
  births : ∀ r ∈ db.syncHeights.rows, (db.getBirthHeight r.account).isSome = true

/-- No note shares its nullifier or its commitment with another note of its account, be it
    stored or among them. -/
structure ToldApart (db : Database H) (ns : List (Note H)) : Prop where
  stored : ∀ n ∈ ns, ∀ r ∈ db.notes.rows, r.account = n.account →
    r.nullifier ≠ .shielded n.nf ∧ r.cmx ≠ some n.cmx
  received : ns.Pairwise fun m n => m.account = n.account → m.nf ≠ n.nf ∧ m.cmx ≠ n.cmx

/-- The note has its row, which is not spent and has no witness above the height. -/
def Waits (db : Database H) (u : UTXO H) (height : ℕ) : Prop :=
  ∃ n ∈ db.notes.rows, Is u n ∧ (∀ s ∈ db.spends.rows, s.idNote ≠ n.idNote) ∧
    ∀ w ∈ db.witnesses.rows, w.note = n.idNote → w.height ≤ height

section Rows
variable {db d : Database H} {ns ms : List (Note H)}

theorem CommitmentsDiffer.finds (hc : CommitmentsDiffer db) {n : NoteRow H}
    (hn : n ∈ db.notes.rows) {u : UTXO H} (his : Is u n) : Finds db u n := by
  refine Table.filter_eq_singleton _ hn (by simp [his.1, his.2.2]) fun m hm hmm => ?_
  obtain ⟨hacc, hcmx⟩ := of_decide_eq_true hmm
  exact hc m hm n hn (hacc.trans his.1.symm) (hcmx.trans his.2.2.symm) (by simp [hcmx])

/-- A row that a received note was stored in. -/
def Stores (n : Note H) (r : NoteRow H) : Prop :=
  r.account = n.account ∧ r.nullifier = .shielded n.nf ∧ r.cmx = some n.cmx

/-- The notes of the second database are those of the first and the received ones. -/
structure AddsNotes (db d : Database H) (ns : List (Note H)) : Prop where
  kept : ∀ r ∈ db.notes.rows, r ∈ d.notes.rows
  stored : ∀ n ∈ ns, ∃ r ∈ d.notes.rows, Stores n r
  cases : ∀ r ∈ d.notes.rows, r ∈ db.notes.rows ∨ ∃ n ∈ ns, Stores n r

theorem toldApart_append (h : AddsNotes db d ns) :
    ToldApart db (ns ++ ms) ↔ ToldApart db ns ∧ ToldApart d ms := by
  constructor
  · rintro ⟨hstored, hpair⟩
    obtain ⟨hns, hms, hcross⟩ := List.pairwise_append.1 hpair
    refine ⟨⟨fun n hn => hstored n (List.mem_append_left _ hn), hns⟩,
      ⟨fun n hn r hr hacc => ?_, hms⟩⟩
    rcases h.cases r hr with hr | ⟨m, hm, hma, hmn, hmc⟩
    · exact hstored n (List.mem_append_right _ hn) r hr hacc
    · rw [hmn, hmc]
      simpa using hcross m hm n hn (hma.symm.trans hacc)
  · rintro ⟨⟨hns, hpair⟩, ⟨hms, hpair'⟩⟩
    refine ⟨List.forall_mem_append.2 ⟨hns, fun n hn r hr => hms n hn r (h.kept r hr)⟩,
      List.pairwise_append.2 ⟨hpair, hpair', fun m hm n hn hacc => ?_⟩⟩
    obtain ⟨r, hr, hra, hrn, hrc⟩ := h.stored m hm
    have := hms n hn r hr (hra.trans hacc)
    rw [hrn, hrc] at this
    simpa using this

theorem ToldApart.eq (h : ToldApart db ns) {m n : Note H} (hm : m ∈ ns) (hn : n ∈ ns)
    (hacc : m.account = n.account) (hsame : m.nf = n.nf ∨ m.cmx = n.cmx) : m = n := by
  by_contra hne
  have hsymm : Std.Symm fun m n : Note H => m.account = n.account → m.nf ≠ n.nf ∧ m.cmx ≠ n.cmx :=
    ⟨fun _ _ hab hacc => (hab hacc.symm).imp Ne.symm Ne.symm⟩
  have hdiffer := h.received.forall hm hn hne hacc
  exact hsame.elim hdiffer.1 hdiffer.2

theorem AddsNotes.commitments (h : AddsNotes db d ns) (hc : CommitmentsDiffer db)
    (hns : ToldApart db ns) : CommitmentsDiffer d := by
  -- another row with the commitment of a received note is that of the same note
  have hone : ∀ n ∈ ns, ∀ m ∈ d.notes.rows, Stores n m → ∀ r ∈ d.notes.rows,
      m.account = r.account → m.cmx = r.cmx → m = r := by
    intro n hn m hm hs r hr hacc hcmx
    rcases h.cases r hr with hr' | ⟨k, hk, hks⟩
    · exact absurd (hcmx.symm.trans hs.2.2) (hns.stored n hn r hr' (hacc.symm.trans hs.1)).2
    · obtain rfl := hns.eq hn hk (hs.1.symm.trans (hacc.trans hks.1))
        (.inr (Option.some.inj (hs.2.2.symm.trans (hcmx.trans hks.2.2))))
      exact d.notes.eq_of_clash hm hr (.inr ⟨hacc, hs.2.1.trans hks.2.1.symm⟩)
  intro m hm n hn hacc hcmx hsome
  rcases h.cases m hm with hm' | ⟨k, hk, hks⟩
  · rcases h.cases n hn with hn' | ⟨k, hk, hks⟩
    · exact hc m hm' n hn' hacc hcmx hsome
    · exact (hone k hk n hn hks m hm hacc.symm hcmx.symm).symm
  · exact hone k hk m hm hks n hn hacc hcmx

end Rows

/-! ### The receipts of a chunk -/

section Receipts
variable {env : WriterEnv} {db mid : Database H} {rs : List (Receipt H)}

def placed (rs : List (Receipt H)) : List (TxAt H × Note H) :=
  rs.flatMap fun r => r.notes.map fun n => (r.tx, n)

omit [DecidableEq H] in
theorem placed_notes (rs : List (Receipt H)) : (placed rs).map Prod.snd = notesOf rs := by
  simp [placed, notesOf, List.map_flatMap, Function.comp_def]

omit [DecidableEq H] in
theorem placed_messages (rs : List (Receipt H)) :
    (placed rs).flatMap (fun p => noteMessages p.1 p.2) = rs.flatMap Receipt.messages := by
  simp only [placed, List.flatMap_assoc, List.flatMap_map]
  rfl

theorem accepts_receipts {P : ShieldedProtocol H} (hP : P.Lawful) {assetBaseOf : AssetBaseOf}
    {keys : List (Key P)} {position : ℕ} {ts : List (TxAt H)}
    (hr : receive assetBaseOf keys position ts = .ok rs) :
    Accepts env db (rs.flatMap Receipt.messages) ↔ NewNullifiers db (notesOf rs) := by
  rw [← placed_messages, ← placed_notes, accepts_notes]
  intro p hp
  obtain ⟨r, hrm, hp⟩ := List.mem_flatMap.1 hp
  obtain ⟨n, hn, rfl⟩ := List.mem_map.1 hp
  exact (receive_note hP hr hrm hn).2.2.1

theorem receipts_addsNotes (h : commitWarpMessages env db (rs.flatMap Receipt.messages) = .ok mid) :
    AddsNotes db mid (notesOf rs) where
  kept := (commit_grows (isScan_receipts rs) h).notes
  stored n hn := by
    obtain ⟨t, a, i, hacc, hrow⟩ := note_of_mem (isScan_receipts rs) h (mem_noteMessages hn)
    exact ⟨_, hrow, hacc, rfl, rfl⟩
  cases r hr := by
    rcases note_from (isScan_receipts rs) h hr with hr | ⟨m, t, a, i, hm, hacc, rfl⟩
    · exact .inl hr
    · obtain ⟨x, hx, n, hn, hmm | hmm⟩ := mem_receipts hm
      · simp at hmm
      · rw [WarpSyncMessage.note.injEq] at hmm
        subst hmm
        exact .inr ⟨m, List.mem_flatMap.2 ⟨x, hx, hn⟩, hacc, rfl, rfl⟩

theorem receipts_tables (h : commitWarpMessages env db (rs.flatMap Receipt.messages) = .ok mid) :
    mid.spends = db.spends ∧ mid.witnesses = db.witnesses := by
  refine commit_inv (fun d => d.spends = db.spends ∧ d.witnesses = db.witnesses)
    (isScan_receipts rs) ?_ h ⟨rfl, rfl⟩
  intro m hm d d' hd he
  obtain ⟨x, -, n, -, rfl | rfl⟩ := mem_receipts hm
  · cases he
    exact hd
  · cases he
    exact ⟨by simpa using hd.1, by simpa using hd.2⟩

/-- Nothing is known yet of a note that is stored under a new number. -/
theorem receipts_waits (h : commitWarpMessages env db (rs.flatMap Receipt.messages) = .ok mid)
    (hd : Consistent db) (hnew : NewNullifiers db (notesOf rs)) {n : Note H} (hn : n ∈ notesOf rs)
    {u : UTXO H} (hu : u.account = n.account ∧ u.nullifier = n.nf ∧ u.cmx = n.cmx) (height : ℕ) :
    Waits mid u height := by
  have hadds := receipts_addsNotes h
  obtain ⟨hspends, hwitnesses⟩ := receipts_tables h
  obtain ⟨r, hr, hacc, hnf, hcmx⟩ := hadds.stored n hn
  have hfresh : ∀ m ∈ db.notes.rows, m.idNote ≠ r.idNote := by
    intro m hm hid
    obtain rfl := mid.notes.eq_of_clash (hadds.kept m hm) hr (.inl hid)
    exact hnew.1 n hn m hm hacc hnf
  refine ⟨r, hr, ⟨hacc.trans hu.1.symm, hnf.trans (by rw [hu.2.1]), hcmx.trans (by rw [hu.2.2])⟩,
    ?_, ?_⟩
  · rw [hspends]
    intro s hs hid
    obtain ⟨m, hm, hmid, -⟩ := hd.spends s hs
    exact hfresh m hm (hmid.trans hid)
  · rw [hwitnesses]
    intro w hw hid
    obtain ⟨m, hm, hmid, -⟩ := hd.witnesses w hw
    exact absurd (hmid.trans hid) (hfresh m hm)

end Receipts

/-! ### The part of a synchronizer -/

theorem ToldApart.newNullifiers {db : Database H} {ns : List (Note H)} (h : ToldApart db ns) :
    NewNullifiers db ns :=
  ⟨fun n hn r hr hacc => (h.stored n hn r hr hacc).1,
    h.received.imp fun hab hacc => (hab hacc).1⟩

section Parts
variable [Inhabited H] {P : ShieldedProtocol H} {env : WriterEnv} {assetBaseOf : AssetBaseOf}
  {db db' mid : Database H} {s s' : Synchronizer P} {blocks : List (CompactBlock H)}
  {accounts : List ℕ} {h₀ height : ℕ} {rs : List (Receipt H)} {tracked : List (UTXO H)}

/-- A synchronizer of a scan over these accounts, with what it tracks as of a height. -/
structure SyncHolds (db : Database H) (accounts : List ℕ) (s : Synchronizer P) (height : ℕ) : Prop
    extends Holds db s height where
  pool : Database.isPool s.pool = true
  accounts : ∀ a ∈ s.accounts, a ∈ accounts ∧ db.hasPool a s.pool = true
  waits : ∀ u ∈ s.utxos, Waits db u height
  keys : (s.utxos.map UTXO.key).Nodup

theorem Waits.of_bare {u v : UTXO H} (hb : u.bare = v.bare) (h : Waits db u height) :
    Waits db v height := by
  obtain ⟨n, hn, his, hrest⟩ := h
  exact ⟨n, hn, his.of_bare hb, hrest⟩

theorem tracked_waits (hmid : commitWarpMessages env db (rs.flatMap Receipt.messages) = .ok mid)
    (hb : tracked.map UTXO.bare = trackedBare s.pool s.utxos (notesOf rs)) (hd : Consistent db)
    (hnew : NewNullifiers db (notesOf rs)) (hs : SyncHolds db accounts s h₀) {v : UTXO H}
    (hv : v ∈ tracked) : Waits mid v h₀ := by
  rcases tracked_from hb hv with ⟨u, hu, hub⟩ | ⟨n, hn, hnb⟩
  · obtain ⟨r, hr, hrest⟩ := hs.waits u hu
    obtain ⟨hspends, hwitnesses⟩ := receipts_tables hmid
    refine Waits.of_bare hub ⟨r, (receipts_addsNotes hmid).kept r hr, ?_⟩
    rw [hspends, hwitnesses]
    exact hrest
  · refine receipts_waits hmid hd hnew hn ⟨?_, ?_, ?_⟩ h₀
    · exact (congrArg UTXO.account hnb).symm
    · exact (congrArg UTXO.nullifier hnb).symm
    · exact (congrArg UTXO.cmx hnb).symm

theorem tracked_keys (hb : tracked.map UTXO.bare = trackedBare s.pool s.utxos (notesOf rs))
    (hs : SyncHolds db accounts s h₀) : (tracked.map UTXO.key).Nodup := by
  have h : ((tracked.map UTXO.bare).map UTXO.key).Nodup := by
    rw [hb]
    refine nodup_insertAll ?_
    rw [List.map_map]
    exact hs.keys
  rwa [List.map_map] at h

/-- The witnesses are accepted only if each received note is the one with its commitment. -/
theorem toldApart_of_finds
    (hmid : commitWarpMessages env db (rs.flatMap Receipt.messages) = .ok mid)
    (hb : tracked.map UTXO.bare = trackedBare s.pool s.utxos (notesOf rs)) (hd : Consistent db)
    (hnew : NewNullifiers db (notesOf rs)) (hs : SyncHolds db accounts s h₀)
    (hfinds : ∀ v ∈ tracked, ∃ n, Finds mid v n) : ToldApart db (notesOf rs) := by
  have hadds := receipts_addsNotes hmid
  have hone : ∀ n ∈ notesOf rs, ∀ x ∈ mid.notes.rows, x.account = n.account →
      x.cmx = some n.cmx → Stores n x := by
    intro n hn x hx hacc hcmx
    obtain ⟨r, hr, hra, hrn, hrc⟩ := hadds.stored n hn
    obtain ⟨v, hv, hkey⟩ := tracked_has hb (.inr (List.mem_map_of_mem hn))
    obtain ⟨y, hy, his, -⟩ := tracked_waits hmid hb hd hnew hs hv
    obtain ⟨z, hz⟩ := hfinds v hv
    have hva : v.account = n.account := congrArg Prod.fst hkey
    have hvn : v.nullifier = n.nf := congrArg Prod.snd hkey
    obtain rfl := mid.notes.eq_of_clash hy hr (.inr ⟨his.1.trans (hva.trans hra.symm),
      his.2.1.trans (by rw [hvn, hrn])⟩)
    have hvc : v.cmx = n.cmx := Option.some.inj (his.2.2.symm.trans hrc)
    have hfound : ∀ x ∈ mid.notes.rows, x.account = n.account → x.cmx = some n.cmx → x = z := by
      intro x hx hacc hcmx
      have hmem := Database.mem_notesOf.2
        ⟨hx, hacc.trans hva.symm, hcmx.trans (congrArg some hvc.symm)⟩
      rwa [hz, List.mem_singleton] at hmem
    rw [hfound x hx hacc hcmx, ← hfound y hr hra hrc]
    exact ⟨hra, hrn, hrc⟩
  refine ⟨fun n hn r hr hacc => ⟨hnew.1 n hn r hr hacc, fun hcmx => ?_⟩,
    hnew.2.imp_of_mem fun {m n} hm hn hnf hacc => ⟨hnf hacc, fun hcmx => ?_⟩⟩
  · exact hnew.1 n hn r hr hacc (hone n hn r (hadds.kept r hr) hacc hcmx).2.1
  · obtain ⟨r, hr, hra, hrn, hrc⟩ := hadds.stored m hm
    have hrow := (hone n hn r hr (hra.trans hacc) (hrc.trans (by rw [hcmx]))).2.1
    exact hnf hacc (NullifierKey.shielded.inj (hrn.symm.trans hrow))

/-- A synchronizer's messages are accepted when the notes it received are told apart. -/
theorem accepts_part_iff (hP : P.Lawful) (ha : Ascending blocks) {last : CompactBlock H}
    (hlast : blocks.getLast? = some last) {msgs : List (WarpSyncMessage H)}
    (hadd : s.add assetBaseOf blocks = .ok (s', msgs)) (hd : Consistent db)
    (hs : SyncHolds db accounts s h₀) (h0 : h₀ < last.height) :
    Accepts env db msgs ↔ ToldApart db (receivedNotes assetBaseOf s blocks) := by
  obtain ⟨rs, tracked, hr, hb, rfl, -⟩ := add_shape hP ha hlast hadd
  rw [receivedNotes, hr, messagesOf, List.append_assoc, List.append_assoc, accepts_append]
  constructor
  · rintro ⟨mid, hmid, hrest⟩
    obtain ⟨d, hw, -⟩ := accepts_append.1 hrest
    exact toldApart_of_finds hmid hb hd ((accepts_receipts hP hr).1 ⟨mid, hmid⟩) hs
      (commit_witnesses hw).2.2
  · intro htold
    have hnew := htold.newNullifiers
    obtain ⟨mid, hmid⟩ : Accepts env db (rs.flatMap Receipt.messages) :=
      (accepts_receipts hP hr).2 hnew
    have hcommitments := (receipts_addsNotes hmid).commitments hd.commitments htold
    have hwaits := fun v hv => tracked_waits hmid hb hd hnew hs (v := v) hv
    have hfinds : ∀ v ∈ tracked, ∀ n ∈ mid.notes.rows, Is v n → Finds mid v n :=
      fun v _ n hn his => hcommitments.finds hn his
    have hapart : ∀ u ∈ tracked, ∀ v ∈ tracked, u.key ≠ v.key → Apart u v := by
      intro u hu v hv hne hacc hcmx
      obtain ⟨m, hm, hmu, -⟩ := hwaits u hu
      obtain ⟨n, hn, hnv, -⟩ := hwaits v hv
      obtain rfl := hcommitments m hm n hn (hmu.1.trans (hacc.trans hnv.1.symm))
        (hmu.2.2.trans ((congrArg some hcmx).trans hnv.2.2.symm)) (by simp [hmu.2.2])
      exact hne (Prod.ext hacc (NullifierKey.shielded.inj (hmu.2.1.symm.trans hnv.2.1)))
    refine ⟨mid, hmid, accepts_append.2 ?_⟩
    obtain ⟨d, hw⟩ : Accepts env mid (tracked.map (witnessMessage last.height)) := by
      refine accepts_witnesses ?_ fun v hv => ?_
      · exact (List.pairwise_map.1 (tracked_keys hb hs)).imp_of_mem
          fun {u v} hu hv hne => hapart u hu v hv hne
      · obtain ⟨n, hn, his, -, hbelow⟩ := hwaits v hv
        exact ⟨n, hfinds v hv n hn his, fun w hwm hid => ((hbelow w hwm hid).trans_lt h0).ne⟩
    obtain ⟨hnotes, hspends, -⟩ := commit_witnesses hw
    refine ⟨d, hw, accepts_append.2 ?_⟩
    obtain ⟨e, he⟩ : Accepts env d (spendMessages tracked
        (spendEvents P s.accounts (chunkTxs blocks))) := by
      refine accepts_spends hapart fun v hv => ?_
      obtain ⟨n, hn, his, hunspent, -⟩ := hwaits v hv
      refine ⟨n, ?_, ?_⟩
      · rw [Finds, Database.notesOf, hnotes]
        exact hfinds v hv n hn his
      · rw [hspends]
        exact hunspent
    exact ⟨e, he, accepts_checkpoint hs.pool⟩

/-! ### What an accepted part leaves -/

theorem toldApart_of_stage (hP : P.Lawful) (st : Stage env assetBaseOf db db' s s' blocks height)
    (hd : Consistent db) (hs : SyncHolds db accounts s h₀) : ToldApart db (notesOf st.rs) := by
  obtain ⟨d, hw, -⟩ := commit_append_ok.1 st.reported
  exact toldApart_of_finds st.stored st.bare hd
    ((accepts_receipts hP st.received).1 ⟨st.mid, st.stored⟩) hs (commit_witnesses hw).2.2

theorem stage_addsNotes (st : Stage env assetBaseOf db db' s s' blocks height) :
    AddsNotes db db' (notesOf st.rs) where
  kept := st.grows.notes
  stored n hn := by
    obtain ⟨r, hr, hstores⟩ := (receipts_addsNotes st.stored).stored n hn
    exact ⟨r, st.grows_end.notes r hr, hstores⟩
  cases r hr := (receipts_addsNotes st.stored).cases r (st.note_mid hr)

theorem stage_commitments (hP : P.Lawful) (st : Stage env assetBaseOf db db' s s' blocks height)
    (hd : Consistent db) (hs : SyncHolds db accounts s h₀) : CommitmentsDiffer db' :=
  (stage_addsNotes st).commitments hd.commitments (toldApart_of_stage hP st hd hs)

/-- A spend that is new is of a tracked note whose nullifier is revealed. -/
theorem spend_of_tracked (st : Stage env assetBaseOf db db' s s' blocks height)
    (hs : Holds db s h₀) {r : SpendRow} (hr : r ∈ db'.spends.rows) :
    r ∈ db.spends.rows ∨ ∃ v ∈ st.tracked, v.key ∈ spentKeys P s.accounts (chunkTxs blocks) ∧
      ∃ n ∈ db'.notes.rows, Is v n ∧ n.idNote = r.idNote := by
  rcases spend_from isScan_reports st.reported hr with
    hr | ⟨u, n, t, hu, hn, huniq, -, -, -, -, hid, -⟩
  · exact .inl ((receipts_tables st.stored).1 ▸ hr)
  · rcases mem_reports hu with ⟨_, -, h⟩ | ⟨e, he, v, hv, hk, h | h⟩ | h
    · simp [witnessMessage] at h
    · simp at h
    · rw [WarpSyncMessage.spend.injEq] at h
      subst h
      obtain ⟨m, hm, his⟩ := st.held_mid hs hv
      obtain rfl := huniq m hm his.1 his.2.2
      exact .inr ⟨v, hv, hk ▸ List.mem_map_of_mem he, m, hn, his, hid.symm⟩
    · simp at h

theorem witness_of_tracked (st : Stage env assetBaseOf db db' s s' blocks height)
    (hs : Holds db s h₀) (hc : CommitmentsDiffer db') {w : WitnessRow H}
    (hw : w ∈ db'.witnesses.rows) :
    w ∈ db.witnesses.rows ∨ w.height = height ∧ ∃ v ∈ st.tracked, w.account = v.account ∧
      ∃ n ∈ db'.notes.rows, Is v n ∧ n.idNote = w.note := by
  rcases witness_from isScan_reports st.reported hw with hw | ⟨n, hn, hid, hacc, cmx, hcmx, hm⟩
  · exact .inl ((receipts_tables st.stored).2 ▸ hw)
  · rcases mem_reports hm with ⟨v, hv, h⟩ | ⟨e, -, u, -, -, h | h⟩ | h
    · simp only [witnessMessage, WarpSyncMessage.witness.injEq] at h
      obtain ⟨m, hmm, his⟩ := st.held_mid hs hv
      obtain rfl := hc m (st.grows_end.notes m hmm) n hn
        (his.1.trans (h.1.symm.trans hacc.symm))
        (his.2.2.trans ((congrArg some h.2.2.1.symm).trans hcmx.symm)) (by simp [his.2.2])
      exact .inr ⟨h.2.1, v, hv, h.1, m, hn, his, hid⟩
    · simp at h
    · simp at h
    · simp at h

/-- Rows of other notes are not touched. -/
theorem waits_of_other (st : Stage env assetBaseOf db db' s s' blocks height)
    (hs : Holds db s h₀) (hc : CommitmentsDiffer db') {u : UTXO H} {h : ℕ} (hu : Waits db u h)
    (hother : ∀ v ∈ st.tracked, v.key ≠ u.key) : Waits db' u h := by
  obtain ⟨n, hn, his, hunspent, hbelow⟩ := hu
  have hn' := st.grows.notes n hn
  have hrow : ∀ v ∈ st.tracked, ∀ m ∈ db'.notes.rows, Is v m → m.idNote ≠ n.idNote := by
    intro v hv m hm hvm hid
    obtain rfl := db'.notes.eq_of_clash hm hn' (.inl hid)
    exact hother v hv (Prod.ext (hvm.1.symm.trans his.1)
      (NullifierKey.shielded.inj (hvm.2.1.symm.trans his.2.1)))
  refine ⟨n, hn', his, fun r hr hid => ?_, fun w hw hid => ?_⟩
  · rcases spend_of_tracked st hs hr with hr | ⟨v, hv, -, m, hm, hvm, hmid⟩
    · exact hunspent r hr hid
    · exact hrow v hv m hm hvm (hmid.trans hid)
  · rcases witness_of_tracked st hs hc hw with hw | ⟨-, v, hv, -, m, hm, hvm, hmid⟩
    · exact hbelow w hw hid
    · exact absurd (hmid.trans hid) (hrow v hv m hm hvm)

theorem waits_of_kept (hP : P.Lawful) (st : Stage env assetBaseOf db db' s s' blocks height)
    (hd : Consistent db) (hs : SyncHolds db accounts s h₀) (h0 : h₀ ≤ height) {u : UTXO H}
    (hu : u ∈ s'.utxos) : Waits db' u height := by
  rw [st.utxos, List.mem_filter] at hu
  obtain ⟨hu, hkept⟩ := hu
  obtain ⟨hspends, hwitnesses⟩ := receipts_tables st.stored
  have hnew := (toldApart_of_stage hP st hd hs).newNullifiers
  obtain ⟨n, hn, his, hunspent, hbelow⟩ := tracked_waits st.stored st.bare hd hnew hs hu
  refine ⟨n, st.grows_end.notes n hn, his, fun r hr hid => ?_, fun w hw hid => ?_⟩
  · rcases spend_of_tracked st hs.toHolds hr with hr | ⟨v, -, hspent, m, hm, hvm, hmid⟩
    · exact hunspent r (hspends ▸ hr) hid
    · obtain rfl := db'.notes.eq_of_clash hm (st.grows_end.notes n hn) (.inl (hmid.trans hid))
      have hkey : v.key = u.key := Prod.ext (hvm.1.symm.trans his.1)
        (NullifierKey.shielded.inj (hvm.2.1.symm.trans his.2.1))
      simp [← hkey, hspent] at hkept
  · rcases witness_of_tracked st hs.toHolds (stage_commitments hP st hd hs) hw with hw | ⟨hw, -⟩
    · exact (hbelow w (hwitnesses ▸ hw) hid).trans h0
    · exact hw.le

/-- The nullifier of a received note is not revealed in a block below it. -/
def RevealedAfter (assetBaseOf : AssetBaseOf) (s : Synchronizer P)
    (blocks : List (CompactBlock H)) : Prop :=
  ∀ n ∈ receivedNotes assetBaseOf s blocks, ∀ e ∈ spendEvents P s.accounts (chunkTxs blocks),
    e.2 = (n.account, n.nf) → n.height ≤ e.1.block.height

/-- What is there of the accounts of a scan. -/
structure ScanBase (db : Database H) (accounts : List ℕ) (height : ℕ) : Prop
    extends Consistent db where
  born : ∀ a ∈ accounts, (db.getBirthHeight a).isSome = true
  below : ∀ w ∈ db.witnesses.rows, w.account ∈ accounts → w.height ≤ height

theorem Stage.sameAccounts (st : Stage env assetBaseOf db db' s s' blocks height) :
    SameAccounts db db' :=
  (commit_sameAccounts (isScan_receipts st.rs) st.stored).trans
    (commit_sameAccounts isScan_reports st.reported)

theorem part_base (hP : P.Lawful) (st : Stage env assetBaseOf db db' s s' blocks height)
    (hb : ScanBase db accounts height) (hs : SyncHolds db accounts s h₀) (h0 : h₀ ≤ height)
    (hrange : ∀ x ∈ chunkTxs blocks, h₀ ≤ x.block.height ∧ x.block.height ≤ height)
    (hafter : RevealedAfter assetBaseOf s blocks)
    (hagree : HeightsAgree db' s.accounts (chunkTxs blocks)) : ScanBase db' accounts height := by
  have hcommitments := stage_commitments hP st hb.toConsistent hs
  have hcases := fun w hw => witness_of_tracked st hs.toHolds hcommitments (w := w) hw
  have hbirth := st.sameAccounts.getBirthHeight
  refine ⟨⟨fun r hr => ?_, fun w hw => ?_, hcommitments, fun w hw => ?_, fun r hr => ?_⟩,
    fun a ha => hbirth a ▸ hb.born a ha, fun w hw hacc => ?_⟩
  · rcases st.spend_cases hP hs.toHolds hagree hrange
      (fun n hn => hafter n (st.receivedNotes_eq ▸ hn)) hr with hr | ⟨-, -, h⟩
    · obtain ⟨n, hn, h⟩ := hb.spends r hr
      exact ⟨n, st.grows.notes n hn, h⟩
    · exact h
  · rcases hcases w hw with hw | ⟨hh, v, hv, hacc, n, hn, his, hid⟩
    · obtain ⟨n, hn, h⟩ := hb.witnesses w hw
      exact ⟨n, st.grows.notes n hn, h⟩
    · refine ⟨n, hn, hid, his.1.trans hacc.symm, ?_⟩
      obtain ⟨m, hm, hvm, hle⟩ := st.row_mid hs.toHolds hv
      obtain rfl := Is.unique hm (st.note_mid hn) hvm his rfl
      rw [hh]
      rcases hle with hle | ⟨k, hk, -, hle⟩
      · exact hle.trans h0
      · obtain ⟨x, hx, hk⟩ := List.mem_flatMap.1 hk
        obtain ⟨hxm, hkh, -⟩ := receive_note hP st.received hx hk
        rw [hle, hkh]
        exact (hrange _ hxm).2
  · rcases hcases w hw with hw | ⟨hh, v, hv, hacc, -⟩
    · obtain ⟨r, hr, hra, hle⟩ := hb.heights w hw
      by_cases hmine : r.account ∈ s.accounts ∧ db.hasPool r.account s.pool = true ∧ r.pool = s.pool
      · exact ⟨⟨r.account, s.pool, height⟩,
          st.mem_syncHeights.2 (.inl ⟨hmine.1, hmine.2.1, rfl, rfl⟩), hra,
          hb.below w hw (hra ▸ (hs.accounts _ hmine.1).1)⟩
      · exact ⟨r, st.mem_syncHeights.2 (.inr ⟨hr, hmine⟩), hra, hle⟩
    · have howner := st.owner hP hs.toHolds hv
      exact ⟨⟨v.account, s.pool, height⟩,
        st.mem_syncHeights.2 (.inl ⟨howner, (hs.accounts _ howner).2, rfl, rfl⟩), hacc.symm, hh.le⟩
  · rw [hbirth]
    rcases st.mem_syncHeights.1 hr with ⟨hacc, -⟩ | ⟨hr, -⟩
    · exact hb.born _ (hs.accounts _ hacc).1
    · exact hb.births r hr
  · rcases hcases w hw with hw | ⟨hh, -⟩
    · exact hb.below w hw hacc
    · exact hh.le

theorem part_holds (hP : P.Lawful) (st : Stage env assetBaseOf db db' s s' blocks height)
    (hd : Consistent db) (hs : SyncHolds db accounts s h₀) (h0 : h₀ ≤ height)
    (hle : ∀ x ∈ chunkTxs blocks, x.block.height ≤ height) : SyncHolds db' accounts s' height where
  toHolds := st.holds hP hs.toHolds h0 hle
  pool := st.pool ▸ hs.pool
  accounts a ha := by
    rw [st.accounts_eq] at ha
    rw [st.pool, st.sameAccounts.hasPool]
    exact hs.accounts a ha
  waits u hu := waits_of_kept hP st hd hs h0 hu
  keys := by
    rw [st.utxos]
    exact (tracked_keys st.bare hs).sublist (List.filter_sublist.map _)

/-- Two synchronizers track different notes. -/
def Unshared {Q : ShieldedProtocol H} (s : Synchronizer P) (t : Synchronizer Q) : Prop :=
  ∀ u ∈ s.utxos, ∀ v ∈ t.utxos, u.key ≠ v.key

/-- The part of one synchronizer leaves another one as it was. -/
theorem part_frame {Q : ShieldedProtocol H} {t : Synchronizer Q} {h : ℕ} (hP : P.Lawful)
    (st : Stage env assetBaseOf db db' s s' blocks height) (hd : Consistent db)
    (hs : SyncHolds db accounts s h₀) (ht : SyncHolds db accounts t h) (hst : Unshared s t) :
    SyncHolds db' accounts t h ∧ Unshared s' t := by
  have htold := toldApart_of_stage hP st hd hs
  have hother : ∀ v ∈ t.utxos, ∀ u ∈ st.tracked, u.key ≠ v.key := by
    intro v hv u hu hkey
    rcases st.tracked_cases hu with ⟨x, hx, hb⟩ | ⟨n, hn, hb⟩
    · exact hst x hx v hv ((key_of_bare hb).trans hkey)
    · obtain ⟨r, hr, his, -⟩ := ht.waits v hv
      have hva : n.account = v.account :=
        (congrArg UTXO.account hb).trans (congrArg Prod.fst hkey)
      have hvn : n.nf = v.nullifier := (congrArg UTXO.nullifier hb).trans (congrArg Prod.snd hkey)
      exact (htold.stored n hn r hr (his.1.trans hva.symm)).1 (his.2.1.trans (by rw [hvn]))
  refine ⟨⟨⟨ht.owners, fun v hv => ?_⟩, ht.pool, fun a ha => ?_, fun v hv => ?_, ht.keys⟩,
    fun u hu v hv => ?_⟩
  · obtain ⟨n, hn, h⟩ := ht.held v hv
    exact ⟨n, st.grows.notes n hn, h⟩
  · rw [st.sameAccounts.hasPool]
    exact ht.accounts a ha
  · exact waits_of_other st hs.toHolds (stage_commitments hP st hd hs) (ht.waits v hv) (hother v hv)
  · rw [st.utxos, List.mem_filter] at hu
    exact hother v hv u hu.1

omit [DecidableEq H] [Inhabited H] in
theorem Unshared.symm {Q : ShieldedProtocol H} {t : Synchronizer Q} (h : Unshared s t) :
    Unshared t s := fun v hv u hu => (h u hu v hv).symm

/-- A batch is accepted when the notes it is about are told apart, and then adds them and
    establishes the rest. -/
def Outcome (env : WriterEnv) (db : Database H) (msgs : List (WarpSyncMessage H))
    (ns : List (Note H)) (post : Database H → Prop) : Prop :=
  (Accepts env db msgs ↔ ToldApart db ns) ∧
    ∀ d, commitWarpMessages env db msgs = .ok d → AddsNotes db d ns ∧ post d

omit [Inhabited H] in
theorem Outcome.mono {msgs : List (WarpSyncMessage H)} {ns : List (Note H)}
    {post post' : Database H → Prop} (h : Outcome env db msgs ns post)
    (hpost : ∀ d, post d → post' d) : Outcome env db msgs ns post' :=
  ⟨h.1, fun d hd => (h.2 d hd).imp_right (hpost d)⟩

omit [Inhabited H] in
theorem Outcome.append {msgs msgs' : List (WarpSyncMessage H)} {ns ns' : List (Note H)}
    {post post' : Database H → Prop} (h : Outcome env db msgs ns post)
    (h' : ∀ d, post d → Outcome env d msgs' ns' post') :
    Outcome env db (msgs ++ msgs') (ns ++ ns') post' := by
  refine ⟨?_, fun e he => ?_⟩
  · rw [accepts_append]
    constructor
    · rintro ⟨d, hd, hrest⟩
      obtain ⟨hadds, hpost⟩ := h.2 d hd
      exact (toldApart_append hadds).2 ⟨h.1.1 ⟨d, hd⟩, (h' d hpost).1.1 hrest⟩
    · intro htold
      have hfirst : ToldApart db ns := ⟨fun n hn => htold.stored n (List.mem_append_left _ hn),
        (List.pairwise_append.1 htold.received).1⟩
      obtain ⟨d, hd⟩ := h.1.2 hfirst
      obtain ⟨hadds, hpost⟩ := h.2 d hd
      exact ⟨d, hd, (h' d hpost).1.2 ((toldApart_append hadds).1 htold).2⟩
  · obtain ⟨d, hd, he⟩ := commit_append_ok.1 he
    obtain ⟨hadds, hpost⟩ := h.2 d hd
    obtain ⟨hadds', hpost'⟩ := (h' d hpost).2 e he
    refine ⟨⟨fun r hr => hadds'.kept r (hadds.kept r hr), fun n hn => ?_, fun r hr => ?_⟩, hpost'⟩
    · rcases List.mem_append.1 hn with hn | hn
      · obtain ⟨r, hr, hstores⟩ := hadds.stored n hn
        exact ⟨r, hadds'.kept r hr, hstores⟩
      · exact hadds'.stored n hn
    · rcases hadds'.cases r hr with hr | ⟨n, hn, hstores⟩
      · exact (hadds.cases r hr).imp_right fun ⟨n, hn, hstores⟩ =>
          ⟨n, List.mem_append_left _ hn, hstores⟩
      · exact .inr ⟨n, List.mem_append_right _ hn, hstores⟩

/-- A synchronizer was served, and others go on. -/
structure PartDone (db d : Database H) (accounts : List ℕ) (s s' : Synchronizer P)
    (ts : List (TxAt H)) (height : ℕ) : Prop where
  base : ScanBase d accounts height
  holds : SyncHolds d accounts s' height
  agree : HeightsAgree d accounts ts
  frame : ∀ {Q : ShieldedProtocol H} (t : Synchronizer Q) (h : ℕ), SyncHolds db accounts t h →
    Unshared s t → SyncHolds d accounts t h ∧ Unshared s' t

/-- The blocks of a chunk that is next after a height. -/
structure NextChunk (blocks : List (CompactBlock H)) (last : CompactBlock H) (h₀ : ℕ) : Prop where
  ascending : Ascending blocks
  last_eq : blocks.getLast? = some last
  above : ∀ b ∈ blocks, h₀ < b.height
  txids : TxidsUnique (chunkTxs blocks)

omit [DecidableEq H] [Inhabited H] in
theorem NextChunk.lt {last : CompactBlock H} (h : NextChunk blocks last h₀) : h₀ < last.height :=
  h.above last (List.mem_of_getLast? h.last_eq)

omit [DecidableEq H] [Inhabited H] in
theorem NextChunk.bounds {last : CompactBlock H} (h : NextChunk blocks last h₀) {x : TxAt H}
    (hx : x ∈ chunkTxs blocks) : h₀ < x.block.height ∧ x.block.height ≤ last.height :=
  ⟨h.above _ (mem_chunkTxs hx), le_last h.ascending h.last_eq (mem_chunkTxs hx)⟩

theorem part_outcome (hP : P.Lawful) {last : CompactBlock H} (hn : NextChunk blocks last h₀)
    {msgs : List (WarpSyncMessage H)} (hadd : s.add assetBaseOf blocks = .ok (s', msgs))
    (hb : ScanBase db accounts last.height) (hs : SyncHolds db accounts s h₀)
    (hafter : RevealedAfter assetBaseOf s blocks)
    (hagree : HeightsAgree db accounts (chunkTxs blocks)) :
    Outcome env db msgs (receivedNotes assetBaseOf s blocks)
      (PartDone db · accounts s s' (chunkTxs blocks) last.height) := by
  refine ⟨accepts_part_iff hP hn.ascending hn.last_eq hadd hb.toConsistent hs hn.lt, fun d hd => ?_⟩
  obtain ⟨st⟩ := exists_stage hP hn.ascending hn.last_eq hadd hd
  have hagree' := st.heightsAgree hP hn.txids hagree
  refine ⟨st.receivedNotes_eq ▸ stage_addsNotes st, ⟨?_, ?_, hagree', fun t h ht hst => ?_⟩⟩
  · exact part_base hP st hb hs hn.lt.le (fun x hx => (hn.bounds hx).imp_left le_of_lt) hafter
      fun t ht hacc => hagree' t ht (hs.accounts _ hacc).1
  · exact part_holds hP st hb.toConsistent hs hn.lt.le fun x hx => (hn.bounds hx).2
  · exact part_frame hP st hb.toConsistent hs ht hst

omit [Inhabited H] in
theorem accepts_quiet {ms : List (WarpSyncMessage H)} (hq : ∀ m ∈ ms, isQuiet m = true) :
    Accepts env db ms := by
  induction ms generalizing db with
  | nil => exact accepts_nil
  | cons m ms ih =>
    rw [List.forall_mem_cons] at hq
    cases m with
    | blockHeader bh => exact accepts_cons.2 ⟨_, rfl, ih hq.2⟩
    | issuance iss => exact accepts_cons.2 ⟨_, rfl, ih hq.2⟩
    | _ => simp [isQuiet] at hq

omit [Inhabited H] in
theorem quiet_outcome {ms : List (WarpSyncMessage H)} (hq : ∀ m ∈ ms, isQuiet m = true) :
    Outcome env db ms [] (Quiet db) := by
  refine ⟨⟨fun _ => ⟨by simp, .nil⟩, fun _ => accepts_quiet hq⟩, fun d hd => ?_⟩
  have hquiet := commit_quiet hq hd
  exact ⟨⟨hquiet.grows.notes, by simp, fun r hr => .inl (hquiet.notes ▸ hr)⟩, hquiet⟩

omit [Inhabited H] in
theorem quiet_consistent {d : Database H} (hq : Quiet db d) (hd : Consistent db) :
    Consistent d where
  spends := by simpa only [hq.spends, hq.notes] using hd.spends
  witnesses := by simpa only [hq.witnesses, hq.notes] using hd.witnesses
  commitments := by simpa only [CommitmentsDiffer, hq.notes] using hd.commitments
  heights := by simpa only [hq.witnesses, hq.syncHeights] using hd.heights
  births := by simpa only [hq.syncHeights, hq.same.getBirthHeight] using hd.births

omit [Inhabited H] in
theorem quiet_base {d : Database H} (hq : Quiet db d) (hb : ScanBase db accounts height) :
    ScanBase d accounts height where
  toConsistent := quiet_consistent hq hb.toConsistent
  born := by simpa only [hq.same.getBirthHeight] using hb.born
  below := by simpa only [hq.witnesses] using hb.below

omit [Inhabited H] in
theorem quiet_holds {d : Database H} (hq : Quiet db d) (hs : SyncHolds db accounts s height) :
    SyncHolds d accounts s height where
  owners := hs.owners
  held := by simpa only [hq.notes] using hs.held
  pool := hs.pool
  accounts a ha := by
    rw [hq.same.hasPool]
    exact hs.accounts a ha
  waits := by simpa only [Waits, hq.notes, hq.spends, hq.witnesses] using hs.waits
  keys := hs.keys

end Parts

/-! ### A whole chunk -/

section Process
variable [Inhabited H] {c : ZcashCrypto H} {env : Env c} {db : Database H} {scan scan' : Scan c}
  {blocks : List (CompactBlock H)} {msgs : List (WarpSyncMessage H)} {accounts : List ℕ}
  {h₀ : ℕ} {last : CompactBlock H}

def ironwoodNotes (env : Env c) (blocks : List (CompactBlock H)) :
    Option (Synchronizer (ironwoodProtocol c)) → List (Note H)
  | none => []
  | some s => receivedNotes env.assetBaseOf s blocks

/-- The notes that a chunk brings to the accounts of the scan. -/
def Scan.received (env : Env c) (scan : Scan c) (blocks : List (CompactBlock H)) : List (Note H) :=
  receivedNotes env.assetBaseOf scan.sapling blocks ++
    (receivedNotes env.assetBaseOf scan.orchard blocks ++ ironwoodNotes env blocks scan.ironwood)

/-- The synchronizers of a scan track different notes, and what they track is as they left it. -/
structure ScanHolds (db : Database H) (scan : Scan c) : Prop where
  base : ScanBase db scan.accounts scan.height
  sapling : SyncHolds db scan.accounts scan.sapling scan.height
  orchard : SyncHolds db scan.accounts scan.orchard scan.height
  ironwood : ∀ s ∈ scan.ironwood, SyncHolds db scan.accounts s scan.height
  saplingOrchard : Unshared scan.sapling scan.orchard
  saplingIronwood : ∀ s ∈ scan.ironwood, Unshared scan.sapling s
  orchardIronwood : ∀ s ∈ scan.ironwood, Unshared scan.orchard s

/-- The blocks are of one chain, and of the one that is stored: a nullifier is not revealed below
    its note, and a transaction is at one height. -/
structure OfChain (env : Env c) (db : Database H) (scan : Scan c) (blocks : List (CompactBlock H)) :
    Prop where
  sapling : RevealedAfter env.assetBaseOf scan.sapling blocks
  orchard : RevealedAfter env.assetBaseOf scan.orchard blocks
  ironwood : ∀ s ∈ scan.ironwood, RevealedAfter env.assetBaseOf s blocks
  txids : TxidsUnique (chunkTxs blocks)
  heights : HeightsAgree db scan.accounts (chunkTxs blocks)

/-- The synchronizer of Ironwood was served if there is one, and others go on. -/
structure IronwoodDone (db d : Database H) (accounts : List ℕ)
    (o o' : Option (Synchronizer (ironwoodProtocol c))) (height : ℕ) : Prop where
  base : ScanBase d accounts height
  holds : ∀ s ∈ o', SyncHolds d accounts s height
  frame : ∀ {Q : ShieldedProtocol H} (t : Synchronizer Q) (h : ℕ), SyncHolds db accounts t h →
    (∀ s ∈ o, Unshared t s) → SyncHolds d accounts t h ∧ ∀ s ∈ o', Unshared t s

theorem ironwood_outcome {o : Option (Synchronizer (ironwoodProtocol c))}
    {i : Option (Synchronizer (ironwoodProtocol c)) × List (WarpSyncMessage H)}
    (hn : NextChunk blocks last h₀) (hadd : addIronwood env.assetBaseOf blocks o = .ok i)
    (hb : ScanBase db accounts last.height) (hs : ∀ s ∈ o, SyncHolds db accounts s h₀)
    (hafter : ∀ s ∈ o, RevealedAfter env.assetBaseOf s blocks)
    (hagree : HeightsAgree db accounts (chunkTxs blocks)) :
    Outcome env.writer db i.2 (ironwoodNotes env blocks o)
      (IronwoodDone db · accounts o i.1 last.height) := by
  cases o with
  | none =>
    rw [addIronwood, Except.ok.injEq] at hadd
    subst hadd
    exact (quiet_outcome (by simp)).mono fun d hq =>
      ⟨quiet_base hq hb, by simp, fun t h ht _ => ⟨quiet_holds hq ht, by simp⟩⟩
  | some s =>
    obtain ⟨a, ha, h⟩ := bind_eq_ok.1 hadd
    rw [Except.ok.injEq] at h
    subst h
    refine (part_outcome (ironwoodProtocol_lawful c) hn ha hb (hs s rfl) (hafter s rfl)
      hagree).mono fun d hdone => ⟨hdone.base, ?_, fun t h ht hst => ?_⟩
    · rintro _ ⟨⟩
      exact hdone.holds
    · obtain ⟨ht', hst'⟩ := hdone.frame t h ht (hst s rfl).symm
      refine ⟨ht', ?_⟩
      rintro _ ⟨⟩
      exact hst'.symm

/-- The batch of a chunk is accepted exactly when its notes are told apart, and the scan goes on
    from it. -/
theorem process_outcome {headers : List BlockHeader}
    (h : scan.process env blocks = .ok (scan', msgs)) (hr : chunkReady scan blocks = true)
    (hok : OfChain env db scan blocks) (hs : ScanHolds db scan) :
    Outcome env.writer db (headers.map .blockHeader ++ msgs) (scan.received env blocks)
      (ScanHolds · scan') := by
  obtain ⟨last, iss, s, o, i, hlast, hiss, hadd, hadd', hi, rfl, rfl⟩ := process_cases h
  simp only [chunkReady, Bool.and_eq_true, decide_eq_true_eq, List.all_eq_true] at hr
  obtain ⟨⟨-, ha⟩, hlow⟩ := hr
  have hn : NextChunk blocks last scan.height := ⟨ha, hlast, hlow, hok.txids⟩
  have hb : ScanBase db scan.accounts last.height :=
    ⟨hs.base.toConsistent, hs.base.born, fun w hw hacc => (hs.base.below w hw hacc).trans hn.lt.le⟩
  have hquiet : ∀ m ∈ headers.map .blockHeader ++ iss, isQuiet m = true :=
    List.forall_mem_append.2 ⟨isQuiet_headers headers, isQuiet_issuances hiss⟩
  rw [List.append_assoc, List.append_assoc, List.append_assoc, ← List.append_assoc,
    ← List.nil_append (scan.received env blocks)]
  refine (quiet_outcome hquiet).append fun d2 q2 => ?_
  refine (part_outcome (saplingProtocol_lawful c) hn hadd (quiet_base q2 hb)
    (quiet_holds q2 hs.sapling) hok.sapling (q2.heightsAgree hok.heights)).append fun d3 p3 => ?_
  obtain ⟨ho3, u12⟩ := p3.frame _ _ (quiet_holds q2 hs.orchard) hs.saplingOrchard
  have hi3 := fun t ht => p3.frame t _ (quiet_holds q2 (hs.ironwood t ht)) (hs.saplingIronwood t ht)
  refine (part_outcome (orchardProtocol_lawful c) hn hadd' p3.base ho3 hok.orchard p3.agree).append
    fun d4 p4 => ?_
  obtain ⟨hs4, u21⟩ := p4.frame _ _ p3.holds u12.symm
  have hi4 := fun t ht => p4.frame t _ (hi3 t ht).1 (hs.orchardIronwood t ht)
  rw [← List.append_nil (ironwoodNotes env blocks scan.ironwood)]
  refine (ironwood_outcome hn hi p4.base (fun t ht => (hi4 t ht).1) hok.ironwood p4.agree).append
    fun d5 p5 => ?_
  obtain ⟨hs5, u13⟩ := p5.frame _ _ hs4 fun t ht => (hi3 t ht).2
  obtain ⟨ho5, u23⟩ := p5.frame _ _ p4.holds fun t ht => (hi4 t ht).2
  exact (quiet_outcome (isQuiet_headers [⟨last.height, last.hash, last.time⟩])).mono fun d q6 =>
    ⟨quiet_base q6 p5.base, quiet_holds q6 hs5, quiet_holds q6 ho5,
      fun t ht => quiet_holds q6 (p5.holds t ht), u21.symm, u13, u23⟩

end Process

end ZcashSdk.Wallet
