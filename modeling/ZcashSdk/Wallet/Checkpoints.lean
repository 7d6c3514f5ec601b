import ZcashSdk.Wallet.Scan
import ZcashSdk.Wallet.Stage

set_option autoImplicit false

/-!
# Checkpoints between scans

A height is complete for an account when every shielded note received by then and not
spent by then has a witness there. Between scans every height with a witness is
complete, and so is the seam. Trimming to a complete height, rewinding, resetting,
pruning and recovering keep this.
-/
namespace ZcashSdk.Wallet
open Tables Shielded Db Loops

variable {H : Type} [DecidableEq H]

def CompleteAt (db : Database H) (account height : ℕ) : Prop :=
  ∀ n ∈ db.notes.rows, n.account = account → n.pool ≠ 0 → n.height ≤ height →
    ¬ SpentBy db n height → WitnessedAt db n height

/-- The height is complete and nothing shielded of the account lies above it. -/
structure Settled (db : Database H) (account height : ℕ) : Prop where
  complete : CompleteAt db account height
  notes : ∀ n ∈ db.notes.rows, n.account = account → n.pool ≠ 0 → n.height ≤ height
  spends : ∀ n ∈ db.notes.rows, n.account = account → n.pool ≠ 0 →
    ∀ s ∈ db.spends.rows, s.idNote = n.idNote → s.height ≤ height
  witnesses : ∀ w ∈ db.witnesses.rows, w.account = account → w.height ≤ height

/-- Which heights an account has: one for each of its shielded pools, and one for the
    transparent pool only if it has an address to scan. -/
structure HeightRows (network : Network) (db : Database H) : Prop where
  pool : ∀ r ∈ db.syncHeights.rows, r.pool ≠ 0 →
    db.hasPool r.account r.pool = true ∧ (r.pool = 3 → network.nu6_3.isSome = true)
  row : ∀ a p, p = 1 ∨ p = 2 → db.hasPool a p = true →
    ∃ r ∈ db.syncHeights.rows, r.account = a ∧ r.pool = p
  address : ∀ r ∈ db.syncHeights.rows, r.pool = 0 →
    ∃ x ∈ db.addresses.rows, x.account = r.account ∧ x.scope = 0

/-- What the code keeps true of the shielded tables between scans. -/
structure DbSound (network : Network) (db : Database H) : Prop where
  columns : ∀ n ∈ db.notes.rows, n.pool ≠ 0 →
    ∃ nf cmx p, n.nullifier = .shielded nf ∧ n.cmx = some cmx ∧ n.position = some p
  kind : ∀ n ∈ db.notes.rows, n.cmx ≠ none → n.pool ≠ 0
  floor : ∀ n ∈ db.notes.rows, n.pool ≠ 0 → 0 < n.height ∧ network.sapling ≤ n.height
  pools : ∀ n ∈ db.notes.rows, n.pool ≠ 0 →
    db.hasPool n.account n.pool = true ∧ (n.pool = 3 → network.nu6_3.isSome = true)
  spendRef : ∀ s ∈ db.spends.rows, ∃ n ∈ db.notes.rows,
    n.idNote = s.idNote ∧ n.account = s.account ∧ n.height ≤ s.height
  witnessRef : ∀ w ∈ db.witnesses.rows, ∃ n ∈ db.notes.rows,
    n.idNote = w.note ∧ n.account = w.account ∧ n.pool ≠ 0 ∧ n.height ≤ w.height
  complete : ∀ w ∈ db.witnesses.rows, CompleteAt db w.account w.height
  seam : ∀ a S, db.accountSeam a = some S → Settled db a S
  heights : HeightRows network db

variable {network : Network} {db : Database H}

theorem DbSound.spend_account (hd : DbSound network db) {s : SpendRow} (hs : s ∈ db.spends.rows)
    {n : NoteRow H} (hn : n ∈ db.notes.rows) (hid : s.idNote = n.idNote) :
    s.account = n.account := by
  obtain ⟨m, hm, hmid, hacc, -⟩ := hd.spendRef s hs
  obtain rfl := db.notes.eq_of_clash hm hn (Or.inl (hmid.trans hid))
  exact hacc.symm

theorem settled_of_no_notes {a : ℕ}
    (href : ∀ w ∈ db.witnesses.rows, ∃ n ∈ db.notes.rows, n.account = w.account ∧ n.pool ≠ 0)
    (hn : ∀ n ∈ db.notes.rows, n.account = a → n.pool = 0) (S : ℕ) : Settled db a S where
  complete n hm hacc hp := absurd (hn n hm hacc) hp
  notes n hm hacc hp := absurd (hn n hm hacc) hp
  spends n hm hacc hp := absurd (hn n hm hacc) hp
  witnesses w hw hacc := by
    obtain ⟨n, hm, hna, hp⟩ := href w hw
    exact absurd (hn n hm (hna.trans hacc)) hp

theorem DbSound.witness_note (hd : DbSound network db) :
    ∀ w ∈ db.witnesses.rows, ∃ n ∈ db.notes.rows, n.account = w.account ∧ n.pool ≠ 0 := by
  intro w hw
  obtain ⟨n, hm, -, hna, hp, -⟩ := hd.witnessRef w hw
  exact ⟨n, hm, hna, hp⟩

/-! ### Heights -/

theorem mem_heights {a h : ℕ} :
    h ∈ db.heights a ↔ ∃ r ∈ db.syncHeights.rows, r.account = a ∧ r.height = h := by
  simp only [Database.heights, List.mem_map, List.mem_filter, decide_eq_true_eq, and_assoc]

theorem accountSeam_mem {a S : ℕ} (h : db.accountSeam a = some S) :
    ∃ r ∈ db.syncHeights.rows, r.account = a ∧ r.height = S :=
  mem_heights.1 (List.min?_mem h)

theorem accountSeam_le {a S : ℕ} (h : db.accountSeam a = some S) {r : SyncHeightRow}
    (hr : r ∈ db.syncHeights.rows) (hacc : r.account = a) : S ≤ r.height :=
  (List.min?_eq_some_iff.1 h).2 _ (mem_heights.2 ⟨r, hr, hacc, rfl⟩)

theorem accountSeam_congr {db' : Database H} {a : ℕ}
    (h : ∀ r, r.account = a → (r ∈ db'.syncHeights.rows ↔ r ∈ db.syncHeights.rows)) {S : ℕ}
    (hs : db'.accountSeam a = some S) : db.accountSeam a = some S := by
  refine List.min?_eq_some_iff.2 ⟨?_, ?_⟩
  · obtain ⟨r, hr, hacc, hh⟩ := accountSeam_mem hs
    exact mem_heights.2 ⟨r, (h r hacc).1 hr, hacc, hh⟩
  · intro b hb
    obtain ⟨r, hr, hacc, rfl⟩ := mem_heights.1 hb
    exact accountSeam_le hs ((h r hacc).2 hr) hacc

/-! ### Trimming -/

section Trim
variable {a h : ℕ}

theorem mem_trim_notes {n : NoteRow H} :
    n ∈ (db.trimSyncData a h).notes.rows ↔
      n ∈ db.notes.rows ∧ (n.account = a → n.height ≤ h) := by
  simp only [Database.trimSyncData, Table.mem_deleteWhere, Database.above_eq_false]

theorem mem_trim_spends {s : SpendRow} :
    s ∈ (db.trimSyncData a h).spends.rows ↔
      s ∈ db.spends.rows ∧ (s.account = a → s.height ≤ h) := by
  simp only [Database.trimSyncData, Table.mem_deleteWhere, Database.above_eq_false]

theorem mem_trim_witnesses {w : WitnessRow H} :
    w ∈ (db.trimSyncData a h).witnesses.rows ↔
      w ∈ db.witnesses.rows ∧ (w.account = a → w.height ≤ h) := by
  simp only [Database.trimSyncData, Table.mem_deleteWhere, Database.above_eq_false]

theorem mem_trim_heights {r : SyncHeightRow} :
    r ∈ (db.trimSyncData a h).syncHeights.rows ↔
      (r.account ≠ a ∧ r ∈ db.syncHeights.rows) ∨
      (r.height = h ∧ ∃ q ∈ db.syncHeights.rows, q.account = a ∧ r.account = a ∧ r.pool = q.pool) := by
  simp only [Database.trimSyncData, Database.setHeights, Table.mem_update]
  constructor
  · rintro ⟨q, hq, rfl⟩
    split
    · rename_i hqa
      exact Or.inr ⟨rfl, q, hq, hqa, hqa, rfl⟩
    · rename_i hqa
      exact Or.inl ⟨hqa, hq⟩
  · rintro (⟨hne, hr⟩ | ⟨rfl, q, hq, hqa, hra, hp⟩)
    · exact ⟨r, hr, if_neg hne⟩
    · refine ⟨q, hq, ?_⟩
      rw [if_pos hqa]
      cases r
      simp_all

theorem trim_completeAt (hd : DbSound network db) {b S : ℕ} (hc : CompleteAt db b S)
    (hS : b = a → S ≤ h) : CompleteAt (db.trimSyncData a h) b S := by
  intro n hn hacc hp hle hns
  have hn := (mem_trim_notes.1 hn).1
  have hns : ¬ SpentBy db n S := by
    rintro ⟨s, hs, hid, hsS⟩
    have hsa := hd.spend_account hs hn hid
    exact hns ⟨s, mem_trim_spends.2 ⟨hs, fun h => hsS.trans (hS (hacc ▸ hsa ▸ h))⟩, hid, hsS⟩
  obtain ⟨w, hw, hwa, hwn, hwh⟩ := hc n hn hacc hp hle hns
  exact ⟨w, mem_trim_witnesses.2 ⟨hw, fun h => hwh.le.trans (hS (hacc ▸ hwa ▸ h))⟩, hwa, hwn, hwh⟩

/-- After a trim to a complete height that height is the account's seam. -/
theorem trim_settled (hd : DbSound network db) (hc : CompleteAt db a h) :
    Settled (db.trimSyncData a h) a h where
  complete := trim_completeAt hd hc fun _ => le_rfl
  notes _ hn hacc _ := (mem_trim_notes.1 hn).2 hacc
  spends _ hn hacc _ _ hs hid :=
    (mem_trim_spends.1 hs).2
      ((hd.spend_account (mem_trim_spends.1 hs).1 (mem_trim_notes.1 hn).1 hid).trans hacc)
  witnesses _ hw hacc := (mem_trim_witnesses.1 hw).2 hacc

theorem trim_settled_other (hd : DbSound network db) {b S : ℕ} (hb : b ≠ a)
    (hs : Settled db b S) : Settled (db.trimSyncData a h) b S where
  complete := trim_completeAt hd hs.complete fun h => absurd h hb
  notes _ hn := hs.notes _ (mem_trim_notes.1 hn).1
  spends _ hn hacc hp _ hm := hs.spends _ (mem_trim_notes.1 hn).1 hacc hp _ (mem_trim_spends.1 hm).1
  witnesses _ hw := hs.witnesses _ (mem_trim_witnesses.1 hw).1

theorem mem_trim_addresses {x : AddressRow} (hx : x ∈ db.addresses.rows) :
    ∃ y ∈ (db.trimSyncData a h).addresses.rows, y.account = x.account ∧ y.scope = x.scope := by
  refine ⟨Database.clampMarker a h (db.reOwe a h x), ?_, ?_⟩
  · exact List.mem_map_of_mem (List.mem_map_of_mem hx)
  · unfold Database.clampMarker Database.reOwe
    split <;> split <;> exact ⟨rfl, rfl⟩

theorem trim_heightRows (hr : HeightRows network db) :
    HeightRows network (db.trimSyncData a h) where
  pool r hm hp := by
    rcases mem_trim_heights.1 hm with ⟨-, hm⟩ | ⟨-, q, hq, hqa, hra, hpool⟩
    · exact hr.pool r hm hp
    · have := hr.pool q hq (hpool ▸ hp)
      rw [hra, hpool, ← hqa]
      exact this
  row b p hp hpool := by
    obtain ⟨r, hm, hra, hrp⟩ := hr.row b p hp hpool
    by_cases hb : b = a
    · exact ⟨⟨a, p, h⟩, mem_trim_heights.2 (Or.inr ⟨rfl, r, hm, hra.trans hb, rfl, hrp.symm⟩),
        hb.symm, rfl⟩
    · exact ⟨r, mem_trim_heights.2 (Or.inl ⟨fun h => hb (hra.symm.trans h), hm⟩), hra, hrp⟩
  address r hm hp := by
    have hx : ∃ x ∈ db.addresses.rows, x.account = r.account ∧ x.scope = 0 := by
      rcases mem_trim_heights.1 hm with ⟨-, hm⟩ | ⟨-, q, hq, hqa, hra, hpool⟩
      · exact hr.address r hm hp
      · rw [hra, ← hqa]
        exact hr.address q hq (hpool ▸ hp)
    obtain ⟨x, hx, hxa, hxs⟩ := hx
    obtain ⟨y, hy, hya, hys⟩ := mem_trim_addresses (a := a) (h := h) hx
    exact ⟨y, hy, hya.trans hxa, hys.trans hxs⟩

theorem trim_sound (hd : DbSound network db) (hc : CompleteAt db a h) :
    DbSound network (db.trimSyncData a h) where
  columns _ hn := hd.columns _ (mem_trim_notes.1 hn).1
  kind _ hn := hd.kind _ (mem_trim_notes.1 hn).1
  floor _ hn := hd.floor _ (mem_trim_notes.1 hn).1
  pools _ hn := hd.pools _ (mem_trim_notes.1 hn).1
  spendRef s hs := by
    obtain ⟨hs, hkeep⟩ := mem_trim_spends.1 hs
    obtain ⟨n, hn, hid, hacc, hle⟩ := hd.spendRef s hs
    exact ⟨n, mem_trim_notes.2 ⟨hn, fun h => hle.trans (hkeep (hacc ▸ h))⟩, hid, hacc, hle⟩
  witnessRef w hw := by
    obtain ⟨hw, hkeep⟩ := mem_trim_witnesses.1 hw
    obtain ⟨n, hn, hid, hacc, hp, hle⟩ := hd.witnessRef w hw
    exact ⟨n, mem_trim_notes.2 ⟨hn, fun h => hle.trans (hkeep (hacc ▸ h))⟩, hid, hacc, hp, hle⟩
  complete w hw := by
    obtain ⟨hw, hkeep⟩ := mem_trim_witnesses.1 hw
    exact trim_completeAt hd (hd.complete w hw) hkeep
  seam b S hS := by
    by_cases hb : b = a
    · subst hb
      obtain ⟨r, hr, hra, rfl⟩ := accountSeam_mem hS
      rcases mem_trim_heights.1 hr with ⟨hne, -⟩ | ⟨hh, -⟩
      · exact absurd hra hne
      · rw [hh]
        exact trim_settled hd hc
    · refine trim_settled_other hd hb (hd.seam b S (accountSeam_congr ?_ hS))
      intro r hra
      rw [mem_trim_heights]
      constructor
      · rintro (⟨-, hr⟩ | ⟨-, q, -, -, hra', -⟩)
        · exact hr
        · exact absurd (hra.symm.trans hra') hb
      · exact fun hr => Or.inl ⟨fun h => hb (hra.symm.trans h), hr⟩
  heights := trim_heightRows hd.heights

end Trim

/-! ### Statements that leave the shielded tables alone -/

/-- The tables that `DbSound` is about agree, up to the heights of the accounts. -/
structure SameShielded (db db' : Database H) : Prop where
  notes : db'.notes = db.notes
  spends : db'.spends = db.spends
  witnesses : db'.witnesses = db.witnesses
  accounts : db'.accounts = db.accounts
  addresses : ∀ x ∈ db.addresses.rows,
    ∃ y ∈ db'.addresses.rows, y.account = x.account ∧ y.scope = x.scope

theorem SameShielded.hasPool {db' : Database H} (h : SameShielded db db') (a p : ℕ) :
    db'.hasPool a p = db.hasPool a p := by
  simp only [Database.hasPool, Database.accountRow, h.accounts]

theorem SameShielded.settled {db' : Database H} (h : SameShielded db db') {a S : ℕ}
    (hs : Settled db a S) : Settled db' a S := by
  obtain ⟨h1, h2, h3, h4⟩ := hs
  refine ⟨?_, ?_, ?_, ?_⟩
  · simpa only [CompleteAt, SpentBy, WitnessedAt, h.notes, h.spends, h.witnesses] using h1
  · simpa only [h.notes] using h2
  · simpa only [h.notes, h.spends] using h3
  · simpa only [h.witnesses] using h4

theorem DbSound.of_same {db' : Database H} (hd : DbSound network db) (h : SameShielded db db')
    (hseam : ∀ a S, db'.accountSeam a = some S → Settled db a S)
    (hrows : HeightRows network db') : DbSound network db' where
  columns := by simpa only [h.notes] using hd.columns
  kind := by simpa only [h.notes] using hd.kind
  floor := by simpa only [h.notes] using hd.floor
  pools := by simpa only [h.notes, h.hasPool] using hd.pools
  spendRef := by simpa only [h.notes, h.spends] using hd.spendRef
  witnessRef := by simpa only [h.notes, h.witnesses] using hd.witnessRef
  complete := by
    have := hd.complete
    simpa only [CompleteAt, SpentBy, WitnessedAt, h.notes, h.spends, h.witnesses] using this
  seam a S hS := h.settled (hseam a S hS)
  heights := hrows

theorem HeightRows.of_same {db' : Database H} (hr : HeightRows network db)
    (h : SameShielded db db') (hs : db'.syncHeights = db.syncHeights) : HeightRows network db' where
  pool r hm := by
    rw [hs] at hm
    rw [h.hasPool]
    exact hr.pool r hm
  row a p hp hpool := by
    rw [hs]
    rw [h.hasPool] at hpool
    exact hr.row a p hp hpool
  address r hm hp := by
    rw [hs] at hm
    obtain ⟨x, hx, hxa, hxs⟩ := hr.address r hm hp
    obtain ⟨y, hy, hya, hys⟩ := h.addresses x hx
    exact ⟨y, hy, hya.trans hxa, hys.trans hxs⟩

theorem DbSound.of_same_heights {db' : Database H} (hd : DbSound network db)
    (h : SameShielded db db') (hs : db'.syncHeights = db.syncHeights) : DbSound network db' := by
  refine hd.of_same h ?_ (hd.heights.of_same h hs)
  intro a S hS
  simp only [Database.accountSeam, Database.heights, hs] at hS
  exact hd.seam a S hS

/-! ### Resets, rewinds, recovery and pruning -/

theorem completeAt_zero (hd : DbSound network db) (a : ℕ) : CompleteAt db a 0 := by
  intro n hn _ hp hle
  have := (hd.floor n hn hp).1
  omega

theorem mem_initSyncHeights {a birth : ℕ} {r : SyncHeightRow} :
    r ∈ (db.initSyncHeights network a birth).syncHeights.rows ↔
      ∃ q ∈ db.syncHeights.rows, r.account = q.account ∧ r.pool = q.pool ∧
        (q.account ≠ a → r = q) ∧
        (if q.account = a ∧ q.pool < Database.maxPool network then
          r.height = max birth (Database.activationHeight network q.pool) else r.height = q.height) := by
  simp only [Database.initSyncHeights, Table.mem_update]
  constructor
  · rintro ⟨q, hq, rfl⟩
    refine ⟨q, hq, ?_⟩
    split
    · rename_i hc
      exact ⟨rfl, rfl, fun h => absurd hc.1 h, rfl⟩
    · exact ⟨rfl, rfl, fun _ => rfl, rfl⟩
  · rintro ⟨q, hq, h1, h2, -, h3⟩
    refine ⟨q, hq, ?_⟩
    split at h3
    · cases r
      simp_all
    · cases r
      cases q
      simp_all

theorem reset_sound {db' : Database H} {a : ℕ} (hd : DbSound network db)
    (h : db.resetSync network a = .ok db') : DbSound network db' := by
  unfold Database.resetSync at h
  split at h
  · cases h
  · rename_i birth hb
    rw [Except.ok.injEq] at h
    have ht := trim_sound (h := 0) hd (completeAt_zero hd a)
    -- nothing shielded of the account is left, so its new heights are settled
    have hnone : ∀ n ∈ (db.trimSyncData a 0).notes.rows, n.account = a → n.pool = 0 := by
      intro n hn hacc
      by_contra hp
      have h1 := (mem_trim_notes.1 hn).2 hacc
      have h2 := (ht.floor n hn hp).1
      omega
    have hsame : SameShielded (db.trimSyncData a 0) db' := by
      subst h
      refine ⟨rfl, rfl, rfl, rfl, ?_⟩
      intro x hx
      refine ⟨_, List.mem_map_of_mem hx, ?_⟩
      split <;> exact ⟨rfl, rfl⟩
    have hmem : ∀ r, r ∈ db'.syncHeights.rows ↔
        r ∈ ((db.trimSyncData a 0).initSyncHeights network a birth).syncHeights.rows := by
      subst h
      exact fun r => Iff.rfl
    refine ht.of_same hsame ?_ ⟨?_, ?_, ?_⟩
    · intro b S hS
      by_cases hb : b = a
      · subst hb
        exact settled_of_no_notes ht.witness_note hnone S
      · refine ht.seam b S (accountSeam_congr ?_ hS)
        intro r hra
        rw [hmem, mem_initSyncHeights]
        constructor
        · rintro ⟨q, hq, h1, -, h3, -⟩
          rw [h3 fun hqa => hb (hra.symm.trans (h1.trans hqa))]
          exact hq
        · intro hr
          refine ⟨r, hr, rfl, rfl, fun _ => rfl, ?_⟩
          rw [if_neg fun hc => hb (hra.symm.trans hc.1)]
    · intro r hr hp
      obtain ⟨q, hq, h1, h2, -⟩ := mem_initSyncHeights.1 ((hmem r).1 hr)
      rw [hsame.hasPool, h1, h2]
      exact ht.heights.pool q hq (h2 ▸ hp)
    · intro b p hp hpool
      rw [hsame.hasPool] at hpool
      obtain ⟨q, hq, hqa, hqp⟩ := ht.heights.row b p hp hpool
      refine ⟨⟨q.account, q.pool, if q.account = a ∧ q.pool < Database.maxPool network then
        max birth (Database.activationHeight network q.pool) else q.height⟩, ?_, hqa, hqp⟩
      rw [hmem, mem_initSyncHeights]
      refine ⟨q, hq, rfl, rfl, ?_, ?_⟩
      · intro hne
        rw [if_neg fun hc => hne hc.1]
      · split <;> rfl
    · intro r hr hp
      obtain ⟨q, hq, h1, h2, -⟩ := mem_initSyncHeights.1 ((hmem r).1 hr)
      rw [h1]
      obtain ⟨x, hx, hxa, hxs⟩ := ht.heights.address q hq (h2 ▸ hp)
      obtain ⟨y, hy, hya, hys⟩ := hsame.addresses x hx
      exact ⟨y, hy, hya.trans hxa, hys.trans hxs⟩

theorem checkpointBefore_eq_some {a h p : ℕ} :
    db.checkpointBefore a h = some p ↔
      (∃ w ∈ db.witnesses.rows, w.account = a ∧ w.height = p ∧ p < h) ∧
        ∀ w ∈ db.witnesses.rows, w.account = a → w.height < h → w.height ≤ p := by
  unfold Database.checkpointBefore
  rw [List.max?_eq_some_iff]
  simp only [List.mem_map, List.mem_filter, decide_eq_true_eq, forall_exists_index, and_imp]
  constructor
  · rintro ⟨⟨w, ⟨hw, hlt, hacc⟩, rfl⟩, hmax⟩
    exact ⟨⟨w, hw, hacc, rfl, hlt⟩, fun v hv ha hlt => hmax _ v hv hlt ha rfl⟩
  · rintro ⟨⟨w, hw, hacc, rfl, hlt⟩, hmax⟩
    refine ⟨⟨w, ⟨hw, hlt, hacc⟩, rfl⟩, ?_⟩
    rintro _ v hv hlt ha rfl
    exact hmax v hv ha hlt

theorem DbSound.completeAt_checkpoint (hd : DbSound network db) {a h p : ℕ}
    (hc : db.checkpointBefore a h = some p) : CompleteAt db a p := by
  obtain ⟨⟨w, hw, rfl, rfl, -⟩, -⟩ := checkpointBefore_eq_some.1 hc
  exact hd.complete w hw

theorem rewind_sound {db' : Database H} {a h : ℕ} (hd : DbSound network db)
    (hr : db.rewindSync network a h = .ok db') : DbSound network db' := by
  obtain ⟨back, hback, hr⟩ := bind_eq_ok.1 hr
  rw [Except.ok.injEq] at hr
  subst hr
  have hb : DbSound network back := by
    unfold Database.goBack at hback
    split at hback
    · rename_i prev hprev
      rw [Except.ok.injEq] at hback
      subst hback
      refine (trim_sound hd (hd.completeAt_checkpoint hprev)).of_same_heights ?_ rfl
      exact ⟨rfl, rfl, rfl, rfl, fun x hx => ⟨x, hx, rfl, rfl⟩⟩
    · exact reset_sound hd hback
  exact hb.of_same_heights ⟨rfl, rfl, rfl, rfl, fun x hx => ⟨x, hx, rfl, rfl⟩⟩ rfl

theorem recover_sound {accounts : List ℕ} (hd : DbSound network db) :
    DbSound network (db.recoverFromPartialSync accounts).1 := by
  induction accounts generalizing db with
  | nil => exact hd
  | cons a accounts ih =>
    unfold Database.recoverFromPartialSync
    cases hS : db.accountSeam a with
    | none => exact hd
    | some S => exact ih (trim_sound hd (hd.seam a S hS).complete)

theorem mem_prune_witnesses {a cutoff : ℕ} {w : WitnessRow H} :
    w ∈ (db.pruneOldCheckpoints a cutoff).witnesses.rows ↔
      w ∈ db.witnesses.rows ∧
        (w.account = a → ∀ p, db.checkpointBefore a cutoff = some p → p ≤ w.height) := by
  unfold Database.pruneOldCheckpoints
  split
  · rename_i hc
    simp [hc]
  · rename_i p hc
    simp only [Table.mem_deleteWhere, decide_eq_false_iff_not, not_and, not_lt, hc,
      Option.some.injEq, forall_eq']

theorem prune_frame (db : Database H) (a cutoff : ℕ) :
    { db with witnesses := (db.pruneOldCheckpoints a cutoff).witnesses } =
      db.pruneOldCheckpoints a cutoff := by
  unfold Database.pruneOldCheckpoints
  split <;> rfl

theorem prune_completeAt {a cutoff b S : ℕ} (hc : CompleteAt db b S)
    (hS : b = a → ∀ p, db.checkpointBefore a cutoff = some p → p ≤ S) :
    CompleteAt (db.pruneOldCheckpoints a cutoff) b S := by
  intro n hn hacc hp hle hns
  rw [← prune_frame] at hn hns
  obtain ⟨w, hw, hwa, hwn, hwh⟩ := hc n hn hacc hp hle hns
  refine ⟨w, mem_prune_witnesses.2 ⟨hw, fun h p hcp => ?_⟩, hwa, hwn, hwh⟩
  rw [hwh]
  exact hS (hacc ▸ hwa ▸ h) p hcp

theorem prune_sound {a cutoff : ℕ} (hd : DbSound network db) :
    DbSound network (db.pruneOldCheckpoints a cutoff) := by
  have hframe := prune_frame db a cutoff
  constructor
  · rw [← hframe]; exact hd.columns
  · rw [← hframe]; exact hd.kind
  · rw [← hframe]; exact hd.floor
  · rw [← hframe]; exact hd.pools
  · rw [← hframe]; exact hd.spendRef
  · intro w hw
    obtain ⟨hw, -⟩ := mem_prune_witnesses.1 hw
    rw [← hframe]
    exact hd.witnessRef w hw
  · intro w hw
    obtain ⟨hw, hkeep⟩ := mem_prune_witnesses.1 hw
    exact prune_completeAt (hd.complete w hw) hkeep
  · intro b S hS
    rw [← hframe] at hS
    have hs := hd.seam b S hS
    refine ⟨prune_completeAt hs.complete ?_, ?_, ?_, ?_⟩
    · intro hb p hcp
      obtain ⟨⟨w, hw, hwa, rfl, -⟩, -⟩ := checkpointBefore_eq_some.1 hcp
      exact hs.witnesses w hw (hwa.trans hb.symm)
    · rw [← hframe]; exact hs.notes
    · rw [← hframe]; exact hs.spends
    · intro w hw
      exact hs.witnesses w (mem_prune_witnesses.1 hw).1
  · rw [← hframe]
    exact ⟨hd.heights.pool, hd.heights.row, hd.heights.address⟩

/-- Pruning keeps the checkpoint that a rewind to any height from the cutoff on selects. -/
theorem prune_checkpointBefore {a cutoff h : ℕ} (hh : cutoff ≤ h) :
    (db.pruneOldCheckpoints a cutoff).checkpointBefore a h = db.checkpointBefore a h := by
  refine Option.ext fun p => ?_
  rw [checkpointBefore_eq_some, checkpointBefore_eq_some]
  simp only [mem_prune_witnesses]
  constructor
  · rintro ⟨⟨w, ⟨hw, hkeep⟩, hwa, rfl, hlt⟩, hmax⟩
    refine ⟨⟨w, hw, hwa, rfl, hlt⟩, fun v hv hva hvlt => ?_⟩
    by_contra hgt
    refine hgt (hmax v ⟨hv, fun _ q hq => ?_⟩ hva hvlt)
    have := hkeep hwa q hq
    omega
  · rintro ⟨⟨w, hw, hwa, rfl, hlt⟩, hmax⟩
    refine ⟨⟨w, ⟨hw, fun _ q hq => ?_⟩, hwa, rfl, hlt⟩, fun v hv hva hvlt => hmax v hv.1 hva hvlt⟩
    -- the checkpoint pruning goes to is itself below the height
    obtain ⟨⟨v, hv, hva, rfl, hvlt⟩, -⟩ := checkpointBefore_eq_some.1 hq
    exact hmax v hv hva (by omega)

end ZcashSdk.Wallet
