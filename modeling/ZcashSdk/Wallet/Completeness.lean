import ZcashSdk.Wallet.Loading
import ZcashSdk.Lib.Runs

set_option autoImplicit false

/-!
# Every checkpoint is complete

Between scans and after every chunk of one, each height with a witness has a witness for
every shielded note that was received and not spent by then. Loading a scan from the
database gives synchronizers that follow it, each chunk keeps them following, and what
goes back goes back to a height that is complete.
-/
namespace ZcashSdk.Wallet
open Tables Shielded Db Loops Runs

variable {H : Type} [DecidableEq H] [Inhabited H] {c : ZcashCrypto H} {network : Network}

/-! ### Pools and seams -/

omit [Inhabited H] in
theorem pool_cases {db : Database H} {a p : ℕ} (h : db.hasPool a p = true) (hp : p ≠ 0) :
    (p = 1 ∨ p = 2 ∨ p = 3) ∧ (db.hasPool a 1 = true ∨ db.hasPool a 2 = true) := by
  unfold Database.hasPool at *
  cases hr : db.accountRow a with
  | none => simp [hr] at h
  | some r =>
    rw [hr] at h
    match p, hp with
    | 1, _ => exact ⟨Or.inl rfl, Or.inl h⟩
    | 2, _ => exact ⟨Or.inr (Or.inl rfl), Or.inr h⟩
    | 3, _ => exact ⟨Or.inr (Or.inr rfl), Or.inr h⟩
    | n + 4, _ => simp at h

omit [Inhabited H] in
/-- When the shielded heights of an account agree and the transparent one is not below
    them, they are its seam, unless it has no shielded pool. -/
theorem seam_cases {db : Database H} {a h S : ℕ} (hr : HeightRows network db)
    (hpools : ∀ n ∈ db.notes.rows, n.pool ≠ 0 → db.hasPool n.account n.pool = true)
    (hshielded : ∀ r ∈ db.syncHeights.rows, r.account = a → r.pool ≠ 0 → r.height = h)
    (htransparent : ∀ r ∈ db.syncHeights.rows, r.account = a → r.pool = 0 → h ≤ r.height)
    (hS : db.accountSeam a = some S) :
    S = h ∨ ∀ n ∈ db.notes.rows, n.account = a → n.pool = 0 := by
  by_cases hn : ∀ n ∈ db.notes.rows, n.account = a → n.pool = 0
  · exact Or.inr hn
  · push Not at hn
    obtain ⟨n, hn, hacc, hp⟩ := hn
    obtain ⟨-, hpool⟩ := pool_cases (hpools n hn hp) hp
    have hrow : ∃ r ∈ db.syncHeights.rows, r.account = a ∧ r.pool ≠ 0 := by
      rw [hacc] at hpool
      rcases hpool with hpool | hpool
      · obtain ⟨r, hm, hra, hrp⟩ := hr.row a 1 (Or.inl rfl) hpool
        exact ⟨r, hm, hra, by omega⟩
      · obtain ⟨r, hm, hra, hrp⟩ := hr.row a 2 (Or.inr rfl) hpool
        exact ⟨r, hm, hra, by omega⟩
    obtain ⟨r, hm, hra, hrp⟩ := hrow
    have hle := accountSeam_le hS hm hra
    rw [hshielded r hm hra hrp] at hle
    obtain ⟨q, hq, hqa, rfl⟩ := accountSeam_mem hS
    by_cases hqp : q.pool = 0
    · exact Or.inl (le_antisymm hle (htransparent q hq hqa hqp))
    · exact Or.inl (hshielded q hq hqa hqp)

/-! ### During a scan -/

/-- The synchronizers of a scan follow the database, and nothing of the scanned accounts
    is above the last chunk. -/
structure Live (network : Network) (db : Database H) (scan : Scan c) : Prop where
  sapling : SyncLive db scan.accounts scan.sapling 1 scan.height
  orchard : SyncLive db scan.accounts scan.orchard 2 scan.height
  ironwood : ∀ s ∈ scan.ironwood, SyncLive db scan.accounts s 3 scan.height
  hasIronwood : scan.ironwood.isSome = network.nu6_3.isSome
  floor : ∀ a ∈ scan.accounts, network.sapling ≤ scan.height + 1
  notes : ∀ n ∈ db.notes.rows, n.account ∈ scan.accounts → n.pool ≠ 0 → n.height ≤ scan.height
  spends : ∀ n ∈ db.notes.rows, n.account ∈ scan.accounts → n.pool ≠ 0 →
    ∀ s ∈ db.spends.rows, s.idNote = n.idNote → s.height ≤ scan.height
  witnesses : ∀ w ∈ db.witnesses.rows, w.account ∈ scan.accounts → w.height ≤ scan.height
  transparent : ∀ r ∈ db.syncHeights.rows, r.account ∈ scan.accounts → r.pool = 0 →
    scan.finish ≤ r.height

def scanPools (network : Network) : List ℕ := if network.nu6_3.isSome then [1, 2, 3] else [1, 2]

theorem mem_scanPools {p : ℕ} :
    p ∈ scanPools network ↔ p = 1 ∨ p = 2 ∨ (p = 3 ∧ network.nu6_3.isSome = true) := by
  unfold scanPools
  split <;> simp_all

abbrev Whole (network : Network) (db db' : Database H) (accounts : List ℕ) (h₀ height : ℕ) : Prop :=
  Advance db db' accounts (scanPools network) h₀ height

section Chunk
variable {db db' : Database H} {accounts : List ℕ} {h₀ height finish : ℕ}

omit [Inhabited H] in
theorem advance_notes (ha : Whole network db db' accounts h₀ height)
    (hd : DbSound network db) {n : NoteRow H} (hn : n ∈ db'.notes.rows) (hp : n.pool ≠ 0) :
    n.pool ∈ scanPools network ∧ db.hasPool n.account n.pool = true := by
  rcases ha.notes n hn with hn | ⟨-, hp, hpool, -⟩
  · obtain ⟨hpool, h3⟩ := hd.pools n hn hp
    refine ⟨mem_scanPools.2 ?_, hpool⟩
    rcases (pool_cases hpool hp).1 with h | h | h
    · exact Or.inl h
    · exact Or.inr (Or.inl h)
    · exact Or.inr (Or.inr ⟨h, h3 h⟩)
  · exact ⟨hp, hpool⟩

omit [Inhabited H] in
theorem advance_completeAt (ha : Whole network db db' accounts h₀ height)
    (hd : DbSound network db) {a : ℕ} (hacc : a ∈ accounts) : CompleteAt db' a height := by
  intro n hn hna hp _ hns
  obtain ⟨hpools, hpool⟩ := advance_notes ha hd hn hp
  exact (ha.done n hn (hna ▸ hacc) hpools hpool).resolve_left hns

omit [Inhabited H] in
/-- Heights that were complete before stay so: new notes are above them. -/
theorem advance_completeAt_old {pools : List ℕ} (ha : Advance db db' accounts pools h₀ height)
    {a S : ℕ} (hc : CompleteAt db a S) (hS : a ∈ accounts → S ≤ h₀) : CompleteAt db' a S := by
  intro n hn hna hp hle hns
  rcases ha.notes n hn with hold | ⟨hacc, -, -, hlt, -⟩
  · exact (hc n hold hna hp hle fun hs => hns (hs.grows ha.grows le_rfl)).grows ha.grows
  · have := hS (hna ▸ hacc)
    omega

omit [Inhabited H] in
theorem advance_settled_other {pools : List ℕ} (ha : Advance db db' accounts pools h₀ height)
    {a S : ℕ} (hs : Settled db a S) (hacc : a ∉ accounts) : Settled db' a S where
  complete := advance_completeAt_old ha hs.complete fun h => absurd h hacc
  notes n hn hna hp := by
    rcases ha.notes n hn with hold | ⟨h, -⟩
    · exact hs.notes n hold hna hp
    · exact absurd (hna ▸ h) hacc
  spends n hn hna hp s hm hid := by
    rcases ha.notes n hn with hold | ⟨h, -⟩
    · rcases ha.spends s hm with hm | ⟨-, h, m, hmn, hmid, hma, -⟩
      · exact hs.spends n hold hna hp s hm hid
      · obtain rfl := db'.notes.eq_of_clash hmn hn (Or.inl (hmid.trans hid))
        exact absurd (hna ▸ hma ▸ h) hacc
    · exact absurd (hna ▸ h) hacc
  witnesses w hw hwa := by
    rcases ha.witnesses w hw with hw | ⟨-, h, -⟩
    · exact hs.witnesses w hw hwa
    · exact absurd (hwa ▸ h) hacc

omit [Inhabited H] in
theorem advance_kind (ha : Whole network db db' accounts h₀ height) (hd : DbSound network db)
    {n : NoteRow H} (hn : n ∈ db'.notes.rows) (hc : n.cmx ≠ none) : n.pool ≠ 0 := by
  rcases ha.notes n hn with hn | ⟨-, hpool, -⟩
  · exact hd.kind n hn hc
  · rw [mem_scanPools] at hpool
    omega

theorem advance_below {scan : Scan c} (ha : Whole network db db' scan.accounts scan.height height)
    (hd : DbSound network db) (hl : Live network db scan) (h0 : scan.height ≤ height) :
    (∀ n ∈ db'.notes.rows, n.account ∈ scan.accounts → n.pool ≠ 0 → n.height ≤ height) ∧
      (∀ n ∈ db'.notes.rows, n.account ∈ scan.accounts → n.pool ≠ 0 →
        ∀ s ∈ db'.spends.rows, s.idNote = n.idNote → s.height ≤ height) ∧
      ∀ w ∈ db'.witnesses.rows, w.account ∈ scan.accounts → w.height ≤ height := by
  refine ⟨?_, ?_, ?_⟩
  · intro n hn hacc hp
    rcases ha.notes n hn with hn | ⟨-, -, -, -, hle, -⟩
    · exact (hl.notes n hn hacc hp).trans h0
    · exact hle
  · intro n hn hacc hp s hs hid
    rcases ha.spends s hs with hs | ⟨hle, -⟩
    · rcases ha.notes n hn with hold | ⟨-, -, -, hlt, hle, -⟩
      · exact (hl.spends n hold hacc hp s hs hid).trans h0
      · -- a spend that was stored before is of a note that was stored before
        obtain ⟨m, hm, hmid, -, -⟩ := hd.spendRef s hs
        obtain rfl := db'.notes.eq_of_clash (ha.grows.notes m hm) hn (Or.inl (hmid.trans hid))
        exact (hl.spends m hm hacc hp s hs hid).trans h0
    · exact hle
  · intro w hw hacc
    rcases ha.witnesses w hw with hw | ⟨h, -⟩
    · exact (hl.witnesses w hw hacc).trans h0
    · exact h.le

omit [Inhabited H] in
theorem advance_heightRows (ha : Whole network db db' accounts h₀ height)
    (hr : HeightRows network db) : HeightRows network db' where
  pool r hm hp := by
    rw [ha.same.hasPool]
    rcases (ha.heights r).1 hm with ⟨-, hpool, hhas, -⟩ | ⟨hm, -⟩
    · refine ⟨hhas, fun h3 => ?_⟩
      rcases mem_scanPools.1 hpool with h | h | h
      · omega
      · omega
      · exact h.2
    · exact hr.pool r hm hp
  row a p hp hhas := by
    rw [ha.same.hasPool] at hhas
    have hpool : p ∈ scanPools network := mem_scanPools.2 (hp.imp id Or.inl)
    by_cases hacc : a ∈ accounts
    · exact ⟨⟨a, p, height⟩, (ha.heights _).2 (Or.inl ⟨hacc, hpool, hhas, rfl⟩), rfl, rfl⟩
    · obtain ⟨r, hm, hra, hrp⟩ := hr.row a p hp hhas
      exact ⟨r, (ha.heights r).2 (Or.inr ⟨hm, fun h => hacc (hra ▸ h.1)⟩), hra, hrp⟩
  address r hm hp := by
    rw [ha.same.addresses]
    rcases (ha.heights r).1 hm with ⟨-, hpool, -⟩ | ⟨hm, -⟩
    · rw [mem_scanPools] at hpool
      omega
    · exact hr.address r hm hp

omit [Inhabited H] in
theorem advance_heights (ha : Whole network db db' accounts h₀ height)
    (hr : HeightRows network db) {r : SyncHeightRow} (hm : r ∈ db'.syncHeights.rows)
    (hacc : r.account ∈ accounts) (hp : r.pool ≠ 0) : r.height = height := by
  rcases (ha.heights r).1 hm with ⟨-, -, -, h⟩ | ⟨hm, hne⟩
  · exact h
  · obtain ⟨hhas, h3⟩ := hr.pool r hm hp
    refine absurd ⟨hacc, mem_scanPools.2 ?_, hhas⟩ hne
    rcases (pool_cases hhas hp).1 with h | h | h
    · exact Or.inl h
    · exact Or.inr (Or.inl h)
    · exact Or.inr (Or.inr ⟨h, h3 h⟩)

omit [Inhabited H] in
theorem advance_transparent (ha : Whole network db db' accounts h₀ height) {r : SyncHeightRow}
    (hm : r ∈ db'.syncHeights.rows) (hp : r.pool = 0) : r ∈ db.syncHeights.rows := by
  rcases (ha.heights r).1 hm with ⟨-, hpool, -⟩ | ⟨hm, -⟩
  · rw [mem_scanPools] at hpool
    omega
  · exact hm

theorem advance_seam {scan : Scan c} (ha : Whole network db db' scan.accounts scan.height height)
    (hd : DbSound network db) (hl : Live network db scan) (h0 : scan.height ≤ height)
    (hfin : height ≤ scan.finish) {a S : ℕ} (hS : db'.accountSeam a = some S) :
    Settled db' a S := by
  by_cases hacc : a ∈ scan.accounts
  · obtain ⟨hnotes, hspends, hwitnesses⟩ := advance_below ha hd hl h0
    have hpools : ∀ n ∈ db'.notes.rows, n.pool ≠ 0 → db'.hasPool n.account n.pool = true := by
      intro n hn hp
      rw [ha.same.hasPool]
      exact (advance_notes ha hd hn hp).2
    rcases seam_cases (advance_heightRows ha hd.heights) hpools
      (fun r hm hra hp => advance_heights ha hd.heights hm (hra ▸ hacc) hp)
      (fun r hm hra hp => hfin.trans
        (hl.transparent r (advance_transparent ha hm hp) (hra ▸ hacc) hp)) hS with rfl | hnone
    · exact ⟨advance_completeAt ha hd hacc, fun n hn hna => hnotes n hn (hna ▸ hacc),
        fun n hn hna => hspends n hn (hna ▸ hacc), fun w hw hwa => hwitnesses w hw (hwa ▸ hacc)⟩
    · refine settled_of_no_notes (fun w hw => ?_) hnone S
      rcases ha.witnesses w hw with hw | ⟨-, -, n, hn, -, hna, hcmx⟩
      · obtain ⟨n, hn, hna, hp⟩ := hd.witness_note w hw
        exact ⟨n, ha.grows.notes n hn, hna, hp⟩
      · exact ⟨n, hn, hna, advance_kind ha hd hn hcmx⟩
  · refine advance_settled_other ha (hd.seam a S (accountSeam_congr ?_ hS)) hacc
    intro r hra
    rw [ha.heights]
    constructor
    · rintro (⟨h, -⟩ | ⟨hr, -⟩)
      · exact absurd (hra ▸ h) hacc
      · exact hr
    · exact fun hr => Or.inr ⟨hr, fun h => hacc (hra ▸ h.1)⟩

/-- A chunk leaves the database sound. -/
theorem advance_sound {scan : Scan c} (ha : Whole network db db' scan.accounts scan.height height)
    (hd : DbSound network db) (hl : Live network db scan) (h0 : scan.height ≤ height)
    (hfin : height ≤ scan.finish) : DbSound network db' where
  columns n hn hp := by
    rcases ha.notes n hn with hn | ⟨-, -, -, -, -, hc⟩
    · exact hd.columns n hn hp
    · exact hc
  kind n hn hc := advance_kind ha hd hn hc
  floor n hn hp := by
    rcases ha.notes n hn with hn | ⟨hacc, -, -, hlt, -⟩
    · exact hd.floor n hn hp
    · have := hl.floor n.account hacc
      omega
  pools n hn hp := by
    obtain ⟨hpool, hhas⟩ := advance_notes ha hd hn hp
    rw [ha.same.hasPool]
    refine ⟨hhas, fun h3 => ?_⟩
    rcases mem_scanPools.1 hpool with h | h | h
    · omega
    · omega
    · exact h.2
  spendRef s hs := by
    rcases ha.spends s hs with hs | ⟨-, -, n, hn, h⟩
    · obtain ⟨n, hn, h⟩ := hd.spendRef s hs
      exact ⟨n, ha.grows.notes n hn, h⟩
    · exact ⟨n, hn, h⟩
  witnessRef w hw := by
    rcases ha.witnesses w hw with hw | ⟨hh, hacc, n, hn, hid, hna, hcmx⟩
    · obtain ⟨n, hn, h⟩ := hd.witnessRef w hw
      exact ⟨n, ha.grows.notes n hn, h⟩
    · have hp := advance_kind ha hd hn hcmx
      refine ⟨n, hn, hid, hna, hp, ?_⟩
      rw [hh]
      exact (advance_below ha hd hl h0).1 n hn (hna ▸ hacc) hp
  complete w hw := by
    rcases ha.witnesses w hw with hw | ⟨hh, hacc, -⟩
    · exact advance_completeAt_old ha (hd.complete w hw) fun h => hl.witnesses w hw h
    · rw [hh]
      exact advance_completeAt ha hd hacc
  seam _ _ hS := advance_seam ha hd hl h0 hfin hS
  heights := advance_heightRows ha hd.heights

end Chunk

/-! ### The parts of a chunk -/

/-- What the scan relies on: blocks of its range, notes that are filed under the pool of their
    bundle and are not spent before, and transactions that are where they are stored. -/
structure ChunkOk (env : Env c) (db : Database H) (scan : Scan c) (blocks : List (CompactBlock H)) :
    Prop where
  within : ∀ b ∈ blocks, b.height ≤ scan.finish
  sapling : InOrder env.assetBaseOf scan.sapling blocks
  orchard : InOrder env.assetBaseOf scan.orchard blocks
  ironwood : ∀ s ∈ scan.ironwood, InOrder env.assetBaseOf s blocks
  txids : TxidsUnique (chunkTxs blocks)
  heights : HeightsAgree db scan.accounts (chunkTxs blocks)

omit [DecidableEq H] [Inhabited H] in
theorem mem_chunkTxs {blocks : List (CompactBlock H)} {x : TxAt H} (hx : x ∈ chunkTxs blocks) :
    x.block ∈ blocks := by
  obtain ⟨b, hb, hx⟩ := List.mem_flatMap.1 hx
  obtain ⟨p, -, rfl⟩ := List.mem_map.1 hx
  exact hb

omit [DecidableEq H] [Inhabited H] in
theorem le_last {blocks : List (CompactBlock H)} {last : CompactBlock H} (ha : Ascending blocks)
    (hlast : blocks.getLast? = some last) {b : CompactBlock H} (hb : b ∈ blocks) :
    b.height ≤ last.height := by
  obtain ⟨init, rfl⟩ := List.getLast?_eq_some_iff.1 hlast
  rcases List.mem_append.1 hb with hb | hb
  · exact ((List.pairwise_append.1 ha).2.2 b hb last (by simp)).le
  · rw [List.mem_singleton.1 hb]

omit [DecidableEq H] [Inhabited H] in
theorem isQuiet_headers (headers : List BlockHeader) :
    ∀ m ∈ headers.map (WarpSyncMessage.blockHeader (H := H)), isQuiet m = true := by
  intro m hm
  obtain ⟨b, -, rfl⟩ := List.mem_map.1 hm
  rfl

omit [DecidableEq H] [Inhabited H] in
theorem isQuiet_issuances {assetBaseOf : AssetBaseOf} {blocks : List (CompactBlock H)}
    {ms : List (WarpSyncMessage H)} (h : issuanceMessages assetBaseOf blocks = .ok ms) :
    ∀ m ∈ ms, isQuiet m = true := by
  intro m hm
  obtain ⟨t, -, xs, hx, hm⟩ := mem_flatMapM h hm
  obtain ⟨iss, -, hi⟩ := mapM_ok_mem hx hm
  unfold issuanceMessage at hi
  split_ifs at hi
  split at hi
  · rw [Except.ok.injEq] at hi
    subst hi
    rfl
  · cases hi

section Process
variable {env : Env c} {db db' : Database H} {scan scan' : Scan c}
  {blocks : List (CompactBlock H)} {msgs : List (WarpSyncMessage H)}

theorem process_cases (h : scan.process env blocks = .ok (scan', msgs)) :
    ∃ last iss s o i, blocks.getLast? = some last ∧
      issuanceMessages env.assetBaseOf blocks = .ok iss ∧
      scan.sapling.add env.assetBaseOf blocks = .ok s ∧
      scan.orchard.add env.assetBaseOf blocks = .ok o ∧
      addIronwood env.assetBaseOf blocks scan.ironwood = .ok i ∧
      scan' = ⟨scan.accounts, last.height, scan.finish, s.1, o.1, i.1⟩ ∧
      msgs = iss ++ s.2 ++ o.2 ++ i.2 ++ [.blockHeader ⟨last.height, last.hash, last.time⟩] := by
  unfold Scan.process at h
  split at h
  · cases h
  · rename_i last hlast
    obtain ⟨iss, hiss, h⟩ := bind_eq_ok.1 h
    obtain ⟨s, hs, h⟩ := bind_eq_ok.1 h
    obtain ⟨o, ho, h⟩ := bind_eq_ok.1 h
    obtain ⟨i, hi, h⟩ := bind_eq_ok.1 h
    rw [Except.ok.injEq, Prod.mk.injEq] at h
    exact ⟨last, iss, s, o, i, hlast, hiss, hs, ho, hi, h.1.symm, h.2.symm⟩

theorem fits {P : ShieldedProtocol H} {s : Synchronizer P} {last : CompactBlock H}
    (hok : ChunkOk env db scan blocks) (ho : InOrder env.assetBaseOf s blocks)
    (ha : Ascending blocks) (hlast : blocks.getLast? = some last)
    (hlow : ∀ b ∈ blocks, scan.height < b.height) :
    ChunkFits env.assetBaseOf s blocks scan.height last.height where
  order := ho
  txids := hok.txids
  bounds _ hx := ⟨hlow _ (mem_chunkTxs hx), le_last ha hlast (mem_chunkTxs hx)⟩

theorem add_advance {P : ShieldedProtocol H} (hP : P.Lawful) {s s' : Synchronizer P} {pool : ℕ}
    {last : CompactBlock H} (hadd : s.add env.assetBaseOf blocks = .ok (s', msgs))
    (hc : commitWarpMessages env.writer db msgs = .ok db') {accounts : List ℕ} {h₀ : ℕ}
    (hf : ChunkFits env.assetBaseOf s blocks h₀ last.height) (ha : Ascending blocks)
    (hlast : blocks.getLast? = some last) (h0 : h₀ ≤ last.height)
    (hl : SyncLive db accounts s pool h₀)
    (hagree : HeightsAgree db accounts (chunkTxs blocks)) :
    Advance db db' accounts [pool] h₀ last.height ∧ SyncLive db' accounts s' pool last.height ∧
      HeightsAgree db' accounts (chunkTxs blocks) := by
  obtain ⟨st⟩ := exists_stage hP ha hlast hadd hc
  exact stage_advance hP st hl hf hagree h0

theorem ironwood_advance {o : Option (Synchronizer (ironwoodProtocol c))} {last : CompactBlock H}
    {i : Option (Synchronizer (ironwoodProtocol c)) × List (WarpSyncMessage H)}
    (hadd : addIronwood env.assetBaseOf blocks o = .ok i)
    (hc : commitWarpMessages env.writer db i.2 = .ok db') {accounts : List ℕ} {h₀ : ℕ}
    (hf : ∀ s ∈ o, ChunkFits env.assetBaseOf s blocks h₀ last.height) (ha : Ascending blocks)
    (hlast : blocks.getLast? = some last) (h0 : h₀ ≤ last.height)
    (hl : ∀ s ∈ o, SyncLive db accounts s 3 h₀)
    (hagree : HeightsAgree db accounts (chunkTxs blocks)) :
    Advance db db' accounts (if o.isSome then [3] else []) h₀ last.height ∧
      (∀ s ∈ i.1, SyncLive db' accounts s 3 last.height) ∧ i.1.isSome = o.isSome := by
  cases o with
  | none =>
    rw [addIronwood, Except.ok.injEq] at hadd
    subst hadd
    refine ⟨?_, by simp, rfl⟩
    exact (commit_quiet (by simp) hc).advance accounts h₀ last.height
  | some s =>
    obtain ⟨a, hs, h⟩ := bind_eq_ok.1 hadd
    rw [Except.ok.injEq] at h
    subst h
    obtain ⟨h1, h2, -⟩ := add_advance (ironwoodProtocol_lawful c) hs hc
      (hf s rfl) ha hlast h0 (hl s rfl) hagree
    refine ⟨h1, ?_, rfl⟩
    rintro _ ⟨⟩
    exact h2

/-- A committed chunk is one step of the database, and the scan goes on from it. -/
theorem process_advance {headers : List BlockHeader}
    (h : scan.process env blocks = .ok (scan', msgs))
    (hc : commitWarpMessages env.writer db (headers.map .blockHeader ++ msgs) = .ok db')
    (hr : chunkReady scan blocks = true) (hok : ChunkOk env db scan blocks)
    (hd : DbSound env.writer.network db) (hl : Live env.writer.network db scan) :
    DbSound env.writer.network db' ∧ Live env.writer.network db' scan' := by
  obtain ⟨last, iss, s, o, i, hlast, hiss, hs, ho, hi, rfl, rfl⟩ := process_cases h
  simp only [chunkReady, Bool.and_eq_true, decide_eq_true_eq, List.all_eq_true] at hr
  obtain ⟨⟨-, ha⟩, hlow⟩ := hr
  have hmem : last ∈ blocks := List.mem_of_getLast? hlast
  have h0 : scan.height ≤ last.height := (hlow last hmem).le
  have hfin : last.height ≤ scan.finish := hok.within last hmem
  -- the batch, part by part
  obtain ⟨d1, c1, hc⟩ := commit_append_ok.1 hc
  obtain ⟨d5, hc, c6⟩ := commit_append_ok.1 hc
  obtain ⟨d4, hc, c5⟩ := commit_append_ok.1 hc
  obtain ⟨d3, hc, c4⟩ := commit_append_ok.1 hc
  obtain ⟨d2, c2, c3⟩ := commit_append_ok.1 hc
  have q1 := commit_quiet (isQuiet_headers headers) c1
  have q2 := commit_quiet (isQuiet_issuances hiss) c2
  have q6 := commit_quiet (isQuiet_headers [⟨last.height, last.hash, last.time⟩]) c6
  have a12 := (q1.advance scan.accounts scan.height last.height).trans
    (q2.advance scan.accounts scan.height last.height)
  obtain ⟨a3, l3, g3⟩ := add_advance (saplingProtocol_lawful c) hs c3
    (fits hok hok.sapling ha hlast hlow) ha hlast h0 (hl.sapling.advance a12 (by simp))
    (q2.heightsAgree (q1.heightsAgree hok.heights))
  obtain ⟨a4, l4, g4⟩ := add_advance (orchardProtocol_lawful c) ho c4
    (fits hok hok.orchard ha hlast hlow) ha hlast h0 (hl.orchard.advance (a12.trans a3) (by simp)) g3
  obtain ⟨a5, l5, hsome⟩ := ironwood_advance hi c5
    (fun t ht => fits hok (hok.ironwood t ht) ha hlast hlow) ha hlast h0
    (fun t ht => (hl.ironwood t ht).advance ((a12.trans a3).trans a4) (by simp)) g4
  have a6 := q6.advance scan.accounts scan.height last.height
  have hw : Whole env.writer.network db db' scan.accounts scan.height last.height := by
    have := (((a12.trans a3).trans a4).trans a5).trans a6
    rw [hl.hasIronwood] at this
    unfold Whole scanPools
    split
    · rename_i h3
      simpa [h3] using this
    · rename_i h3
      simpa [h3] using this
  obtain ⟨hnotes, hspends, hwitnesses⟩ := advance_below hw hd hl h0
  refine ⟨advance_sound hw hd hl h0 hfin, ⟨?_, ?_, ?_, ?_, ?_, hnotes, hspends, hwitnesses, ?_⟩⟩
  · have := a5.trans a6
    refine (l3.advance a4 (by simp)).advance this ?_
    split <;> simp
  · refine l4.advance (a5.trans a6) ?_
    split <;> simp
  · exact fun t ht => (l5 t ht).advance a6 (by simp)
  · exact hsome.trans hl.hasIronwood
  · intro a hacc
    have := hl.floor a hacc
    change _ ≤ last.height + 1
    omega
  · exact fun r hm hacc hp => hl.transparent r (advance_transparent hw hm hp) hacc hp

end Process

/-! ### The start of a range -/

section Range
variable {db : Database H} {ids : List ℕ} {limit start finish : ℕ}

omit [Inhabited H] in
theorem mem_endTransparentPass {r : SyncHeightRow} :
    r ∈ (endTransparentPass db ids limit finish).syncHeights.rows ↔
      ∃ q ∈ db.syncHeights.rows, r.account = q.account ∧ r.pool = q.pool ∧
        r.height = if q.account ∈ ids ∧ q.pool = 0 ∧
          db.transparentAddressesToScan q.account limit ≠ [] then finish else q.height := by
  simp only [endTransparentPass, Table.mem_update]
  constructor
  · rintro ⟨q, hq, rfl⟩
    refine ⟨q, hq, ?_⟩
    split <;> exact ⟨rfl, rfl, rfl⟩
  · rintro ⟨q, hq, h1, h2, h3⟩
    refine ⟨q, hq, ?_⟩
    split at h3
    · cases r
      simp_all
    · cases r
      cases q
      simp_all

omit [Inhabited H] in
theorem endTransparentPass_same :
    SameShielded db (endTransparentPass db ids limit finish) :=
  ⟨rfl, rfl, rfl, rfl, fun x hx => ⟨x, hx, rfl, rfl⟩⟩

omit [Inhabited H] in
theorem endTransparentPass_heightRows (hr : HeightRows network db) :
    HeightRows network (endTransparentPass db ids limit finish) where
  pool r hm hp := by
    obtain ⟨q, hq, h1, h2, -⟩ := mem_endTransparentPass.1 hm
    rw [h1, h2]
    exact hr.pool q hq (h2 ▸ hp)
  row a p hp hhas := by
    obtain ⟨q, hq, hqa, hqp⟩ := hr.row a p hp hhas
    exact ⟨⟨q.account, q.pool, if q.account ∈ ids ∧ q.pool = 0 ∧
      db.transparentAddressesToScan q.account limit ≠ [] then finish else q.height⟩,
      mem_endTransparentPass.2 ⟨q, hq, rfl, rfl, rfl⟩, hqa, hqp⟩
  address r hm hp := by
    obtain ⟨q, hq, h1, h2, -⟩ := mem_endTransparentPass.1 hm
    rw [h1]
    exact hr.address q hq (h2 ▸ hp)

omit [Inhabited H] in
/-- An account of a ready range: its heights are its seam, right below the range or below
    Sapling. -/
theorem rangeReady_seam (h : rangeReady network db ids start = true) {a : ℕ} (ha : a ∈ ids) :
    ∃ S, db.accountSeam a = some S ∧ max (S + 1) network.sapling = start ∧
      ∀ r ∈ db.syncHeights.rows, r.account = a → r.height = S := by
  simp only [rangeReady, List.all_eq_true, Option.any_eq_true] at h
  obtain ⟨S, hS, hrest⟩ := h a ha
  rw [decide_eq_true_eq] at hrest
  exact ⟨S, hS, hrest.1, fun r hr hra => hrest.2 _ (mem_heights.2 ⟨r, hr, hra, rfl⟩)⟩

omit [Inhabited H] in
/-- Below Sapling there are no notes, so the seam can be moved up to it. -/
theorem rangeReady_settled (hd : DbSound network db) (h : rangeReady network db ids start = true)
    {a : ℕ} (ha : a ∈ ids) : Settled db a (start - 1) := by
  obtain ⟨S, hS, hstart, -⟩ := rangeReady_seam h ha
  have hs := hd.seam a S hS
  by_cases hlow : network.sapling ≤ S + 1
  · have : start - 1 = S := by omega
    rw [this]
    exact hs
  · refine settled_of_no_notes hd.witness_note (fun n hn hacc => ?_) _
    by_contra hp
    have h1 := hs.notes n hn hacc hp
    have h2 := (hd.floor n hn hp).2
    omega

omit [Inhabited H] in
theorem endTransparentPass_heights (hd : DbSound network db)
    (h : rangeReady network db ids start = true) {r : SyncHeightRow}
    (hm : r ∈ (endTransparentPass db ids limit finish).syncHeights.rows) (ha : r.account ∈ ids) :
    (r.pool = 0 → r.height = finish) ∧
      (r.pool ≠ 0 → db.accountSeam r.account = some r.height) := by
  obtain ⟨q, hq, h1, h2, h3⟩ := mem_endTransparentPass.1 hm
  rw [h1] at ha ⊢
  constructor
  · intro hp
    obtain ⟨x, hx, hxa, hxs⟩ := hd.heights.address q hq (h2 ▸ hp)
    have hmem := Database.mem_transparentAddressesToScan limit hx hxa (Or.inl hxs)
    rw [h3, if_pos ⟨ha, h2 ▸ hp, List.ne_nil_of_mem hmem⟩]
  · intro hp
    obtain ⟨S, hS, -, hall⟩ := rangeReady_seam h ha
    rw [h3, if_neg fun hc => hp (h2.trans hc.2.1), hall q hq rfl, hS]

variable (limit) in
omit [Inhabited H] in
theorem endTransparentPass_sound (hd : DbSound network db)
    (h : rangeReady network db ids start = true) (hle : start ≤ finish) :
    DbSound network (endTransparentPass db ids limit finish) := by
  refine hd.of_same endTransparentPass_same ?_ (endTransparentPass_heightRows hd.heights)
  intro a S' hS'
  by_cases ha : a ∈ ids
  · obtain ⟨S, hS, hstart, -⟩ := rangeReady_seam h ha
    have hshielded : ∀ r ∈ (endTransparentPass db ids limit finish).syncHeights.rows,
        r.account = a → r.pool ≠ 0 → r.height = S := by
      intro r hm hra hp
      have := (endTransparentPass_heights hd h hm (hra ▸ ha)).2 hp
      rw [hra, hS, Option.some.injEq] at this
      exact this.symm
    have htransparent : ∀ r ∈ (endTransparentPass db ids limit finish).syncHeights.rows,
        r.account = a → r.pool = 0 → S ≤ r.height := by
      intro r hm hra hp
      rw [(endTransparentPass_heights hd h hm (hra ▸ ha)).1 hp]
      omega
    rcases seam_cases (endTransparentPass_heightRows hd.heights)
      (fun n hn hp => (hd.pools n hn hp).1) hshielded htransparent hS' with rfl | hnone
    · exact hd.seam a S' hS
    · exact settled_of_no_notes hd.witness_note hnone S'
  · refine hd.seam a S' (accountSeam_congr ?_ hS')
    intro r hra
    rw [mem_endTransparentPass]
    constructor
    · rintro ⟨q, hq, h1, h2, h3⟩
      rw [if_neg fun hc => ha (hra ▸ h1 ▸ hc.1)] at h3
      have : r = q := by
        cases r
        cases q
        simp_all
      exact this ▸ hq
    · intro hr
      refine ⟨r, hr, rfl, rfl, ?_⟩
      rw [if_neg fun hc => ha (hra ▸ hc.1)]

theorem loadIronwood_ok {env : Env c} {accounts : List (ℕ × Bool)} {frontier : Frontier H}
    {o : Option (Synchronizer (ironwoodProtocol c))}
    (h : loadIronwood env db accounts start frontier = .ok o) :
    o.isSome = env.writer.network.nu6_3.isSome ∧ ∀ t ∈ o,
      Synchronizer.new db 3 start (loadKeys (P := ironwoodProtocol c)
        (fun a s => if db.hasPool a 3 then some (env.orchardKey a s) else none) accounts)
        frontier env.debug = .ok t := by
  unfold loadIronwood at h
  split at h
  · rename_i h3
    obtain ⟨t, ht, rfl⟩ := map_eq_ok.1 h
    refine ⟨h3.symm, ?_⟩
    rintro _ ⟨⟩
    exact ht
  · rename_i h3
    cases h
    exact ⟨by simpa using h3, by simp⟩

/-- A scan that is loaded at a ready range follows the database. -/
theorem load_live {env : Env c} {accounts : List (ℕ × Bool)} {fs : Frontiers H} {scan : Scan c}
    (hd : DbSound env.writer.network db)
    (h : rangeReady env.writer.network db (accounts.map Prod.fst) start = true)
    (hload : Scan.load env (endTransparentPass db (accounts.map Prod.fst) limit finish)
      accounts start finish fs = .ok scan) :
    Live env.writer.network (endTransparentPass db (accounts.map Prod.fst) limit finish) scan := by
  have hset : ∀ a ∈ accounts.map Prod.fst,
      Settled (endTransparentPass db (accounts.map Prod.fst) limit finish) a (start - 1) :=
    fun a ha => endTransparentPass_same.settled (rangeReady_settled hd h ha)
  obtain ⟨s, hs, hload⟩ := bind_eq_ok.1 hload
  obtain ⟨o, ho, hload⟩ := bind_eq_ok.1 hload
  obtain ⟨i, hi, hload⟩ := bind_eq_ok.1 hload
  rw [Except.ok.injEq] at hload
  subst hload
  refine ⟨new_syncLive hs (by decide) hset, new_syncLive ho (by decide) hset, ?_, ?_, ?_,
    fun n hn hacc => (hset _ hacc).notes n hn rfl, fun n hn hacc => (hset _ hacc).spends n hn rfl,
    fun w hw hacc => (hset _ hacc).witnesses w hw rfl,
    fun r hm hacc hp => ((endTransparentPass_heights hd h hm hacc).1 hp).ge⟩
  · exact fun t ht => new_syncLive ((loadIronwood_ok hi).2 t ht) (by decide) hset
  · exact (loadIronwood_ok hi).1
  · intro a ha
    obtain ⟨S, -, hstart, -⟩ := rangeReady_seam h ha
    change _ ≤ start - 1 + 1
    omega

end Range

end ZcashSdk.Wallet
