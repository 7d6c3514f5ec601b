import ZcashSdk.Discovery.OnChain
import ZcashSdk.Discovery.Certification
import ZcashSdk.Discovery.IndexWalk
import ZcashSdk.Lib.Books

set_option autoImplicit false

/-!
# Markers stand for what is stored

Windows of discovery walks, passes of the synchronization, trims, resets, rewinds, new birthdays
and deletions take turns. Against servers that answer from one chain a marker never covers what
is not stored, whatever fails and whatever is trimmed in between.
-/
namespace ZcashSdk.Discovery
open Tables Shielded Db Database Loops Runs

variable {H : Type} [DecidableEq H] {C : Chain} {derive : Derivation}

/-! ### Going back -/

section Back
variable {db d : Database H}

/-- Rows are deleted, but no note without the spends that name it, nor an address that has one. -/
theorem OnChain.cut (h : OnChain C db)
    (htx : ∀ t ∈ d.transactions.rows, t ∈ db.transactions.rows)
    (hnotes : ∀ n ∈ d.notes.rows, n ∈ db.notes.rows)
    (hspends : ∀ s ∈ d.spends.rows, s ∈ db.spends.rows)
    (hnamed : ∀ s ∈ d.spends.rows, ∀ n ∈ db.notes.rows, n.account = s.account →
      n.height ≤ s.height → n ∈ d.notes.rows)
    (hrows : ∀ n ∈ d.notes.rows, ∀ r ∈ db.addresses.rows, r.account = n.account →
      RowOf d r.account r.idTaddress r.address) : OnChain C d where
  transaction t ht := h.transaction t (htx t ht)
  note n hn o ho := by
    obtain ⟨r, hr, hacc, hid, hout⟩ := h.note n (hnotes n hn) o ho
    obtain ⟨r', hr', hid', hacc', haddr⟩ := hrows n hn r hr hacc
    exact ⟨r', hr', hacc'.trans hacc, by rw [hid, hid'], by rw [haddr]; exact hout⟩
  spend s hs := by
    obtain ⟨n, hn, hid, hacc, hle, hspent⟩ := h.spend s (hspends s hs)
    exact ⟨n, hnamed s hs n hn hacc hle, hid, hacc, hle, hspent⟩
  pool n hn := h.pool n (hnotes n hn)

theorem trim_face (db : Database H) (account height : ℕ) (r : AddressRow) :
    addressFace (clampMarker account height (db.reOwe account height r)) =
      addressFace (clampMarker account height r) := by
  unfold reOwe
  split
  · unfold clampMarker
    split <;> rfl
  · rfl

theorem mem_trim_address {account height : ℕ} {r' : AddressRow}
    (h : r' ∈ (db.trimSyncData account height).addresses.rows) :
    ∃ r ∈ db.addresses.rows, addressFace r' = addressFace (clampMarker account height r) := by
  obtain ⟨q, hq, rfl⟩ := List.mem_map.1 h
  obtain ⟨r, hr, rfl⟩ := List.mem_map.1 hq
  exact ⟨r, hr, trim_face db account height r⟩

theorem trim_address (account height : ℕ) {r : AddressRow} (hr : r ∈ db.addresses.rows) :
    ∃ r' ∈ (db.trimSyncData account height).addresses.rows,
      addressFace r' = addressFace (clampMarker account height r) :=
  ⟨_, List.mem_map_of_mem (List.mem_map_of_mem hr), trim_face db account height r⟩

theorem clampMarker_spec (account height : ℕ) (r : AddressRow) :
    (clampMarker account height r).idTaddress = r.idTaddress ∧
      (clampMarker account height r).account = r.account ∧
      (clampMarker account height r).scope = r.scope ∧
      (clampMarker account height r).dindex = r.dindex ∧
      (clampMarker account height r).address = r.address ∧
      ∀ m, (clampMarker account height r).backfilledHeight = some m →
        (∃ m', r.backfilledHeight = some m' ∧ m ≤ m') ∧ (r.account = account → m ≤ height) := by
  unfold clampMarker
  split
  · rename_i hcond
    obtain ⟨m', hm', hlt⟩ := (Option.any_eq_true _ _).1 hcond.2
    refine ⟨rfl, rfl, rfl, rfl, rfl, fun m hm => ?_⟩
    obtain rfl := Option.some.inj hm
    exact ⟨⟨m', hm', (of_decide_eq_true hlt).le⟩, fun _ => le_rfl⟩
  · rename_i hcond
    refine ⟨rfl, rfl, rfl, rfl, rfl, fun m hm => ⟨⟨m, hm, le_rfl⟩, fun hacc => ?_⟩⟩
    by_contra hlt
    exact hcond ⟨hacc, (Option.any_eq_true _ _).2 ⟨m, hm, decide_eq_true (by omega)⟩⟩

theorem trim_keeps (db : Database H) (account height a m : ℕ) (h : a = account → m ≤ height) :
    KeepsUpTo a m db (db.trimSyncData account height) := by
  have hkept (rowAccount rowHeight : ℕ) (hacc : rowAccount = a) (hle : rowHeight ≤ m) :
      above account height rowAccount rowHeight = false :=
    above_eq_false.2 fun heq => hle.trans (h (hacc.symm.trans heq))
  exact ⟨fun t ht hacc hle => ⟨t, Table.mem_deleteWhere.2 ⟨ht, hkept _ _ hacc hle⟩, rfl⟩,
    fun n hn hacc hle => Table.mem_deleteWhere.2 ⟨hn, hkept _ _ hacc hle⟩,
    fun s hs hacc hle => Table.mem_deleteWhere.2 ⟨hs, hkept _ _ hacc hle⟩⟩

theorem trim_markers (hs : MarkersSound C derive db) (account height : ℕ) :
    MarkersSound C derive (db.trimSyncData account height) where
  onChain := by
    refine hs.onChain.cut (fun t ht => (Table.mem_deleteWhere.1 ht).1)
      (fun n hn => (Table.mem_deleteWhere.1 hn).1) (fun s hs => (Table.mem_deleteWhere.1 hs).1)
      (fun s hs n hn hacc hle => ?_) fun n _ r hr _ => ?_
    · have hkept := above_eq_false.1 (Table.mem_deleteWhere.1 hs).2
      exact Table.mem_deleteWhere.2 ⟨hn, above_eq_false.2 fun heq =>
        hle.trans (hkept (hacc.symm.trans heq))⟩
    · obtain ⟨r', hr', hface⟩ := trim_address account height hr
      obtain ⟨hid, hacc, -, -, haddr, -⟩ := face_eq hface
      obtain ⟨hid', hacc', -, -, haddr', -⟩ := clampMarker_spec account height r
      exact ⟨r', hr', hid.trans hid', hacc.trans hacc', haddr.trans haddr'⟩
  keyed r' hr' acc hacc taddr htaddr := by
    obtain ⟨r, hr, hface⟩ := mem_trim_address hr'
    obtain ⟨-, h1, h2, h3, h4, -⟩ := face_eq hface
    obtain ⟨-, k1, k2, k3, k4, -⟩ := clampMarker_spec account height r
    rw [h1, k1] at hacc
    rw [h2, h3, k2, k3] at htaddr
    rw [h4, k4]
    exact hs.keyed r hr acc hacc taddr htaddr
  marked r' hr' m hm birth hb := by
    obtain ⟨r, hr, hface⟩ := mem_trim_address hr'
    obtain ⟨-, h1, -, -, h4, h5⟩ := face_eq hface
    obtain ⟨-, k1, -, -, k4, hmarker⟩ := clampMarker_spec account height r
    obtain ⟨⟨m', hm', hle⟩, hclamp⟩ := hmarker m (h5.symm.trans hm)
    rw [h1, k1] at hb ⊢
    rw [h4, k4]
    exact (hs.marked r hr m' hm' birth hb).keep hs.onChain hle
      (trim_keeps db account height r.account m hclamp)

theorem resetSync_markers {network : Network} {account : ℕ} (hs : MarkersSound C derive db)
    (h : db.resetSync network account = .ok d) : MarkersSound C derive d := by
  unfold resetSync at h
  split at h
  · cases h
  · cases h
    have hclear : SameRecord (db.trimSyncData account 0)
        ((db.trimSyncData account 0).clearCatchUpDebts account) := by
      refine sameRecord_update _ _ fun r => ?_
      split <;> rfl
    refine SameRecord.sound ?_ (hclear.sound (trim_markers hs account 0))
    exact ⟨rfl, rfl, rfl, rfl, rfl⟩

theorem rewindSync_markers {network : Network} {account height : ℕ}
    (hs : MarkersSound C derive db) (h : db.rewindSync network account height = .ok d) :
    MarkersSound C derive d := by
  unfold rewindSync at h
  obtain ⟨back, hback, h⟩ := bind_eq_ok.1 h
  cases h
  have hsame : SameRecord back { back with
      headers := back.headers.deleteWhere fun h => decide (height < h.height) } :=
    ⟨rfl, rfl, rfl, rfl, rfl⟩
  refine hsame.sound ?_
  unfold goBack at hback
  split at hback
  · rename_i prev _
    cases hback
    refine SameRecord.sound ?_ (trim_markers hs account prev)
    exact ⟨rfl, rfl, rfl, rfl, rfl⟩
  · exact resetSync_markers hs hback

theorem deleteAccount_accountRow {account a : ℕ} (ha : a ≠ account) :
    (db.deleteAccount account).accountRow a = db.accountRow a := by
  change (db.accounts.rows.filter fun r => !decide (r.idAccount = account)).find? _ = _
  rw [List.find?_filter]
  refine congrFun (congrArg List.find? (funext fun r => ?_)) _
  by_cases hr : r.idAccount = a
  · simp [hr, ha]
  · simp [hr]

theorem deleteAccount_markers (hs : MarkersSound C derive db) (account : ℕ) :
    MarkersSound C derive (db.deleteAccount account) := by
  have hmem {R : Type} [Row R] {t : Table R} {f : R → ℕ} {a : R} :
      a ∈ (t.deleteWhere fun r => decide (f r = account)).rows ↔ a ∈ t.rows ∧ f a ≠ account := by
    rw [Table.mem_deleteWhere, decide_eq_false_iff_not]
  refine ⟨?_, fun r hr acc hacc => ?_, fun r hr m hm birth hb => ?_⟩
  · refine hs.onChain.cut (fun t ht => (hmem.1 ht).1) (fun n hn => (hmem.1 hn).1)
      (fun s hs => (hmem.1 hs).1) (fun s hs n hn hacc _ => ?_) fun n hn r hr hacc => ?_
    · exact hmem.2 ⟨hn, hacc ▸ (hmem.1 hs).2⟩
    · exact ⟨r, hmem.2 ⟨hr, hacc ▸ (hmem.1 hn).2⟩, rfl, rfl, rfl⟩
  · obtain ⟨hmem', hne⟩ := hmem.1 hr
    rw [deleteAccount_accountRow hne] at hacc
    exact hs.keyed r hmem' acc hacc
  · obtain ⟨hmem', hne⟩ := hmem.1 hr
    rw [Database.getBirthHeight, deleteAccount_accountRow hne] at hb
    refine (hs.marked r hmem' m hm birth hb).keep hs.onChain le_rfl ?_
    exact ⟨fun t ht hacc _ => ⟨t, hmem.2 ⟨ht, hacc ▸ hne⟩, rfl⟩,
      fun n hn hacc _ => hmem.2 ⟨hn, hacc ▸ hne⟩, fun s hs hacc _ => hmem.2 ⟨hs, hacc ▸ hne⟩⟩

theorem updateBirth_accountRow (db : Database H) (account birth a : ℕ) :
    (updateBirth db account birth).accountRow a = (db.accountRow a).map
      fun r => if r.idAccount = account then { r with birth := birth } else r := by
  change (db.accounts.rows.map _).find? _ = _
  rw [List.find?_map]
  refine congrArg (Option.map _) (congrFun (congrArg List.find? (funext fun r => ?_)) _)
  simp only [Function.comp_apply]
  split <;> rfl

theorem updateBirth_markers (hs : MarkersSound C derive db) (account birth : ℕ) :
    MarkersSound C derive (updateBirth db account birth) := by
  have hmem {r' : AddressRow} (h : r' ∈ (updateBirth db account birth).addresses.rows) :
      ∃ r ∈ db.addresses.rows, r'.account = r.account ∧ r'.scope = r.scope ∧ r'.dindex = r.dindex ∧
        r'.address = r.address ∧ (r.account = account ∧ r'.backfilledHeight = none ∨
          r.account ≠ account ∧ r'.backfilledHeight = r.backfilledHeight) := by
    obtain ⟨r, hr, rfl⟩ := List.mem_map.1 h
    refine ⟨r, hr, ?_⟩
    split
    · rename_i hacc
      exact ⟨rfl, rfl, rfl, rfl, .inl ⟨hacc, rfl⟩⟩
    · rename_i hne
      exact ⟨rfl, rfl, rfl, rfl, .inr ⟨hne, rfl⟩⟩
  refine ⟨⟨hs.onChain.transaction, fun n hn o ho => ?_, hs.onChain.spend, hs.onChain.pool⟩,
    fun r' hr' acc hacc taddr htaddr => ?_, fun r' hr' m hm b hb => ?_⟩
  · obtain ⟨r, hr, hrest⟩ := hs.onChain.note n hn o ho
    refine ⟨_, List.mem_map_of_mem hr, ?_⟩
    split <;> exact hrest
  · obtain ⟨r, hr, haccount, hscope, hdindex, haddr, -⟩ := hmem hr'
    rw [haccount, updateBirth_accountRow] at hacc
    rw [hscope, hdindex] at htaddr
    obtain ⟨acc', hacc', rfl⟩ := Option.map_eq_some_iff.1 hacc
    have howner : ownerOf (if acc'.idAccount = account then { acc' with birth := birth } else acc') =
        ownerOf acc' := by
      split <;> rfl
    rw [howner] at htaddr
    exact haddr.trans (hs.keyed r hr acc' hacc' taddr htaddr)
  · obtain ⟨r, hr, haccount, -, -, haddr, ⟨-, hnone⟩ | ⟨hne, hsame⟩⟩ := hmem hr'
    · rw [hnone] at hm
      cases hm
    · rw [haccount] at hb ⊢
      rw [haddr]
      rw [Database.getBirthHeight, updateBirth_accountRow, Option.map_map] at hb
      have hbirth : db.getBirthHeight r.account = some b := by
        obtain ⟨acc, hacc, hbacc⟩ := Option.map_eq_some_iff.1 hb
        rw [Function.comp_apply, if_neg (accountRow_id hacc ▸ hne)] at hbacc
        exact Option.map_eq_some_iff.2 ⟨acc, hacc, hbacc⟩
      refine (hs.marked r hr m (hsame.symm.trans hm) b hbirth).keep hs.onChain le_rfl ?_
      exact ⟨fun t ht _ _ => ⟨t, ht, rfl⟩, fun _ hn _ _ => hn, fun _ hs _ _ => hs⟩

end Back

/-! ### Windows of a discovery walk -/

section Walks
variable {db d : Database H} {env : Env} {a : WalkArgs} {lo hi markerLo id : ℕ} {taddr : Bytes}

/-- Closed, a reply is what the chain has; without a first item it is closed and empty. -/
structure Fetched.Honest (C : Chain) (taddr : Bytes) (lo hi : ℕ) (f : Fetched) : Prop where
  items : f.ending = .closed → ∀ x, x ∈ f.first.toList ++ f.rest ↔ x ∈ C.window taddr lo hi
  empty : f.first = none → f.ending = .closed ∧ f.rest = []

theorem fetchWindow_honest (henv : env.Honest C) {seam : ℕ} {f : Fetched}
    (h : fetchWindow env taddr lo hi seam = .ok f) : f.Honest C taddr lo hi ∧ f.seam = seam := by
  unfold fetchWindow at h
  split at h
  · cases h
  · cases h
  · rename_i item items ending hreply
    cases h
    refine ⟨⟨fun hclosed => ?_, nofun⟩, rfl⟩
    dsimp only at hclosed
    subst hclosed
    exact henv taddr lo hi _ hreply
  · rename_i hreply
    cases h
    exact ⟨⟨fun _ => henv taddr lo hi _ hreply, fun _ => ⟨rfl, rfl⟩⟩, rfl⟩
  · cases h
  · cases h

theorem takeOrFetch_honest (henv : env.Honest C) {seam : ℕ} {first : Option Fetched} {f : Fetched}
    (hfirst : ∀ f, first = some f → f.Honest C a.taddr lo hi)
    (h : takeOrFetch env a lo hi seam first = .ok f) : f.Honest C a.taddr lo hi := by
  cases first with
  | none => exact (fetchWindow_honest henv h).1
  | some g =>
    simp only [takeOrFetch] at h
    split at h
    · cases h
      exact hfirst f rfl
    · exact (fetchWindow_honest henv h).1

theorem drain_closed {f : Fetched} {all : WindowRows}
    (h : drainTransparentWindow taddr f lo hi = .ok all) : f.ending = .closed := by
  obtain ⟨rows, -, h⟩ := bind_eq_ok.1 h
  split at h
  · assumption
  · cases h
  · cases h

theorem Fetched.Honest.nothing {f : Fetched} (h : f.Honest C taddr lo hi) (hnone : f.first = none)
    (x : ℕ × TransparentTx) : x ∉ C.window taddr lo hi := by
  obtain ⟨hclosed, hrest⟩ := h.empty hnone
  intro hx
  have hmem := (h.items hclosed x).2 hx
  rw [hnone, hrest] at hmem
  exact absurd hmem List.not_mem_nil

/-- The row of the candidate, with the address that was derived for it. -/
def WalkArgs.Stored (a : WalkArgs) (db : Database H) (id : ℕ) : Prop :=
  ∃ r ∈ db.addresses.rows, a.IsRow r ∧ r.idTaddress = id ∧ r.address = a.taddr

theorem WalkArgs.Stored.rowOf (h : a.Stored db id) : RowOf db a.account id a.taddr := by
  obtain ⟨r, hr, hrow, hid, haddr⟩ := h
  exact ⟨r, hr, hid, hrow.1, haddr⟩

theorem WalkArgs.Stored.grows (h : a.Stored db id) (hg : Grows db d) : a.Stored d id := by
  obtain ⟨r, hr, hrow, hid, haddr⟩ := h
  obtain ⟨r', hr', hface⟩ := exists_of_map_eq hg.addresses hr
  obtain ⟨hid', hacc, hscope, hdindex, haddr', -⟩ := face_eq hface
  exact ⟨r', hr', ⟨hacc.trans hrow.1, hscope.trans hrow.2.1, hdindex.trans hrow.2.2⟩,
    hid'.trans hid, haddr'.trans haddr⟩

theorem WalkArgs.Stored.address (h : a.Stored db id) : ∀ r ∈ db.addresses.rows,
    r.account = a.account → r.scope = a.scope → r.dindex = a.dindex → r.address = a.taddr := by
  obtain ⟨s, hs, hrow, -, haddr⟩ := h
  intro r hr hacc hscope hdindex
  obtain rfl := db.addresses.eq_of_clash hr hs (.inr ⟨hacc.trans hrow.1.symm,
    hscope.trans hrow.2.1.symm, hdindex.trans hrow.2.2.symm⟩)
  exact haddr

/-- The chain has nothing of the address between the start of what a marker would cover and the
    window. -/
def Quiet (C : Chain) (taddr : Bytes) (markerLo lo : ℕ) : Prop :=
  ∀ x ∈ C.txs, C.Touches taddr x → markerLo ≤ x.1 → lo ≤ x.1

theorem ingest_markers (env : Env) (seam : ℕ) (intact : Bool) (hs : MarkersSound C derive db)
    (hstored : a.Stored db id) (hb : db.getBirthHeight a.account = some a.birth) {f : Fetched}
    (hf : f.Honest C a.taddr lo hi) (hquiet : intact = true → Quiet C a.taddr markerLo lo) :
    MarkersSound C derive (ingestBackfillWindow env a db id markerLo lo hi seam f intact).1 ∧
      ∀ c, (ingestBackfillWindow env a db id markerLo lo hi seam f intact).2 = .ok c →
        c = intact := by
  unfold ingestBackfillWindow
  split
  · exact ⟨hs, nofun⟩
  · rename_i all hdrain
    dsimp only
    have hdelivers : Delivers (C.window a.taddr lo hi) a.taddr seam (all.atOrBelow seam) :=
      ⟨f, lo, hi, all, hdrain, rfl, hf.items (drain_closed hdrain)⟩
    obtain ⟨hw, hfiled⟩ := write_sound hs hstored.rowOf hdelivers (!all.transactions.isEmpty)
    have hgrown := write_grows db a.account id (all.atOrBelow seam) (!all.transactions.isEmpty)
    generalize writeTransparentWindow db a.account id (all.atOrBelow seam)
      (!all.transactions.isEmpty) = d at hw hfiled hgrown ⊢
    generalize ((all.transactions.map Prod.snd).filter fun h => decide (seam < h)).max? = owed
    have hraised : SameRecord d (raiseOwed d id owed) := sameRecord_raiseOwed id owed
    generalize raiseOwed d id owed = e at hraised ⊢
    have hfilled := hraised.trans (sameRecord_fillMissingBlockTimes env lo hi
      (env.setOrder (heightsOfTransactionsWithoutTime e a.account lo (min hi seam))) e)
    split
    · rename_i hfill
      rw [hfill] at hfilled
      exact ⟨hfilled.sound hw, nofun⟩
    · rename_i e' hfill
      rw [hfill] at hfilled
      split
      · rename_i hadvance
        refine ⟨advance_sound (hfilled.sound hw) ?_
          ((hstored.grows hgrown).grows hfilled.grows).address (hfiled.same hfilled)
          (hquiet hadvance.1), fun c hc => (Except.ok.inj hc).symm⟩
        rw [hfilled.grows.birthHeight, hgrown.birthHeight, hb]
      · exact ⟨hfilled.sound hw, fun c hc => (Except.ok.inj hc).symm⟩

theorem store_markers (hs : MarkersSound C derive db)
    (hkey : ∀ acc, db.accountRow a.account = some acc →
      derive (ownerOf acc) a.scope a.dindex = some a.taddr) :
    MarkersSound C derive
      (db.storeAccountTransparentAddr a.account a.scope a.dindex a.taddr) where
  onChain := by
    refine ⟨hs.onChain.transaction, fun n hn o ho => ?_, hs.onChain.spend, hs.onChain.pool⟩
    obtain ⟨r, hr, hrest⟩ := hs.onChain.note n hn o ho
    exact ⟨r, Table.mem_insertOrIgnore_of_mem hr, hrest⟩
  keyed r hr acc hacc taddr htaddr := by
    rcases Table.mem_insertOrIgnore.1 hr with hr | ⟨rfl, -⟩
    · exact hs.keyed r hr acc hacc taddr htaddr
    · exact Option.some.inj ((hkey acc hacc).symm.trans htaddr)
  marked r hr m hm birth hb := by
    rcases Table.mem_insertOrIgnore.1 hr with hr | ⟨rfl, -⟩
    · refine (hs.marked r hr m hm birth hb).keep hs.onChain le_rfl ?_
      exact ⟨fun t ht _ _ => ⟨t, ht, rfl⟩, fun _ hn _ _ => hn, fun _ hs _ _ => hs⟩
    · cases hm

/-- What a walk that was not replaced is entitled to, and what it read. -/
structure Entitled (derive : Derivation) (a : WalkArgs) (identity : AccountIdentity) : Prop where
  key : derive (identity.owner a.account) a.scope a.dindex = some a.taddr
  birth : a.birth = identity.birth

theorem Entitled.account {identity : AccountIdentity} (h : Entitled derive a identity)
    (hid : accountIdentity db a.account = some identity) :
    db.getBirthHeight a.account = some a.birth ∧
      ∀ acc, db.accountRow a.account = some acc →
        derive (ownerOf acc) a.scope a.dindex = some a.taddr := by
  obtain ⟨acc, hacc, rfl⟩ := Option.map_eq_some_iff.1 hid
  refine ⟨by rw [Database.getBirthHeight, hacc, Option.map_some, h.birth], fun acc' hacc' => ?_⟩
  obtain rfl := Option.some.inj (hacc.symm.trans hacc')
  rw [ownerOf, accountRow_id hacc]
  exact h.key

def WalkArgs.store (a : WalkArgs) (db : Database H) : Database H :=
  db.storeAccountTransparentAddr a.account a.scope a.dindex a.taddr

def WalkArgs.trimSeen (a : WalkArgs) (db : Database H) (p : Progress) : ℕ :=
  p.trim.getD (db.trimCounter a.account)

def WalkArgs.intact (a : WalkArgs) (db : Database H) (p : Progress) : Bool :=
  a.trimSeen db p = db.trimCounter a.account

/-- How a window is taken: its account was replaced, it fails, it finds nothing for an address that
    is not stored, or it is ingested into the row of the candidate, which may just have been
    stored. -/
inductive WindowTaken (env : Env) (a : WalkArgs) (identity : AccountIdentity) (db : Database H)
    (p : Progress) (markerLo lo hi : ℕ) (first : Option Fetched) : WindowOutcome H → Prop
  | replaced (hid : accountIdentity db a.account ≠ some identity) (progress : Progress)
      (message : String) :
      WindowTaken env a identity db p markerLo lo hi first ⟨db, progress, .error (.db message)⟩
  | failed (hid : accountIdentity db a.account = some identity) {d : Database H}
      (hd : d = db ∨ d = a.store db) (row : Option (ℕ × Bytes)) (used : Bool) (e : BackfillError) :
      WindowTaken env a identity db p markerLo lo hi first
        ⟨d, ⟨row, used, some (a.trimSeen db p)⟩, .error e⟩
  | nothing (hid : accountIdentity db a.account = some identity) {seam : ℕ} {f : Fetched}
      (hreply : takeOrFetch env a lo hi seam first = .ok f) (hnone : f.first = none)
      (row : Option (ℕ × Bytes)) (used : Bool) :
      WindowTaken env a identity db p markerLo lo hi first
        ⟨db, ⟨row, used, some (a.trimSeen db p)⟩, .ok none⟩
  | ingested (hid : accountIdentity db a.account = some identity) {seam : ℕ} {f : Fetched}
      (hreply : takeOrFetch env a lo hi seam first = .ok f) {d : Database H}
      (hd : d = db ∨ d = a.store db) {r : AddressRow} (hr : r ∈ d.addresses.rows)
      (hrow : a.IsRow r) (row : Option (ℕ × Bytes)) (used : Bool) :
      WindowTaken env a identity db p markerLo lo hi first
        ⟨(ingestBackfillWindow env a d r.idTaddress markerLo lo hi seam f (a.intact db p)).1,
          ⟨row, used, some (a.trimSeen db p)⟩,
          (ingestBackfillWindow env a d r.idTaddress markerLo lo hi seam f
            (a.intact db p)).2.map some⟩

theorem walkWindow_taken (env : Env) (a : WalkArgs) (identity : AccountIdentity) (db : Database H)
    (p : Progress) (markerLo lo hi : ℕ) (first : Option Fetched) :
    WindowTaken env a identity db p markerLo lo hi first
      (walkWindow env a identity db p markerLo lo hi first) := by
  unfold walkWindow
  split
  · rename_i hid
    exact .replaced hid p _
  · rename_i hid
    rw [not_not] at hid
    dsimp only
    split
    · exact .failed hid (.inl rfl) p.row p.used _
    · split
      · exact .failed hid (.inl rfl) _ p.used _
      · rename_i f hreply
        split
        · rename_i hnone
          simp only [Bool.and_eq_true, Bool.not_eq_true', Option.isSome_eq_false_iff,
            Option.isNone_iff_eq_none] at hnone
          exact .nothing hid hreply hnone.2 _ _
        · have hstored :
              (if (db.transparentAddressRow a.account a.scope a.dindex).isNone = true then
                db.storeAccountTransparentAddr a.account a.scope a.dindex a.taddr else db) = db ∨
              (if (db.transparentAddressRow a.account a.scope a.dindex).isNone = true then
                db.storeAccountTransparentAddr a.account a.scope a.dindex a.taddr else db) =
                a.store db := by
            split
            · exact .inr rfl
            · exact .inl rfl
          generalize (if (db.transparentAddressRow a.account a.scope a.dindex).isNone = true then
            db.storeAccountTransparentAddr a.account a.scope a.dindex a.taddr else db) = d
            at hstored ⊢
          split
          · exact .failed hid hstored none _ _
          · rename_i row hrow
            obtain ⟨r, hr, hkeyed, rfl⟩ := transparentAddressRow_iff.1 hrow
            exact .ingested hid hreply hstored hr hkeyed _ _

/-- A window keeps the markers true, and says what the walk may rely on afterwards. -/
structure WindowSound (C : Chain) (derive : Derivation) (a : WalkArgs)
    (identity : AccountIdentity) (db : Database H) (p : Progress) (lo hi : ℕ)
    (o : WindowOutcome H) : Prop where
  sound : MarkersSound C derive o.db
  same : accountIdentity db a.account ≠ some identity → ∃ m, o.result = .error (.db m)
  seen : accountIdentity db a.account = some identity →
    o.progress.trim = some (p.trim.getD (db.trimCounter a.account))
  nothing : o.result = .ok none → Quiet C a.taddr lo (hi + 1)
  certified : ∀ c, o.result = .ok (some c) →
    c = decide (p.trim.getD (db.trimCounter a.account) = db.trimCounter a.account)

theorem Entitled.stored {identity : AccountIdentity} (h : Entitled derive a identity)
    (hs : MarkersSound C derive db) (hid : accountIdentity db a.account = some identity)
    (hd : d = db ∨ d = a.store db) {r : AddressRow} (hr : r ∈ d.addresses.rows)
    (hrow : a.IsRow r) : MarkersSound C derive d ∧ a.Stored d r.idTaddress ∧
      d.getBirthHeight a.account = some a.birth := by
  obtain ⟨hbirth, hkey⟩ := h.account hid
  obtain ⟨acc, hacc, -⟩ := Option.map_eq_some_iff.1 hid
  have hsd : MarkersSound C derive d ∧ ∀ b, d.accountRow b = db.accountRow b := by
    rcases hd with rfl | rfl
    · exact ⟨hs, fun _ => rfl⟩
    · exact ⟨store_markers hs hkey, fun _ => rfl⟩
  have hderived : derive (ownerOf acc) r.scope r.dindex = some a.taddr := by
    rw [hrow.2.1, hrow.2.2]
    exact hkey acc hacc
  have haddr := hsd.1.keyed r hr acc (by rw [hrow.1, hsd.2, hacc]) a.taddr hderived
  refine ⟨hsd.1, ⟨r, hr, hrow, rfl, haddr⟩, ?_⟩
  rw [Database.getBirthHeight, hsd.2]
  exact hbirth

theorem Entitled.store {identity : AccountIdentity} (h : Entitled derive a identity)
    (hs : MarkersSound C derive db) (hid : accountIdentity db a.account = some identity)
    (hd : d = db ∨ d = a.store db) : MarkersSound C derive d := by
  rcases hd with rfl | rfl
  · exact hs
  · exact store_markers hs (h.account hid).2

theorem walkWindow_sound (hs : MarkersSound C derive db) {identity : AccountIdentity}
    (hent : Entitled derive a identity) (henv : env.Honest C) {p : Progress}
    {first : Option Fetched} (hfirst : ∀ f, first = some f → f.Honest C a.taddr lo hi)
    (hquiet : accountIdentity db a.account = some identity →
      a.trimSeen db p = db.trimCounter a.account → Quiet C a.taddr markerLo lo) :
    WindowSound C derive a identity db p lo hi
      (walkWindow env a identity db p markerLo lo hi first) := by
  have htaken := walkWindow_taken env a identity db p markerLo lo hi first
  generalize walkWindow env a identity db p markerLo lo hi first = o at htaken ⊢
  cases htaken with
  | replaced hid progress message =>
    exact ⟨hs, fun _ => ⟨message, rfl⟩, fun h => absurd h hid, nofun, nofun⟩
  | failed hid hd row used e =>
    exact ⟨hent.store hs hid hd, fun h => absurd hid h, fun _ => rfl, nofun, nofun⟩
  | nothing hid hreply hnone row used =>
    refine ⟨hs, fun h => absurd hid h, fun _ => rfl, fun _ x hx htouch hlo => ?_, nofun⟩
    by_contra hle
    exact (takeOrFetch_honest henv hfirst hreply).nothing hnone x ⟨hx, htouch, hlo, by omega⟩
  | @ingested hid seam f hreply d hd r hr hrow row used =>
    obtain ⟨hsd, hstored, hbirth⟩ := hent.stored hs hid hd hr hrow
    obtain ⟨hsound, hcert⟩ := ingest_markers env seam (a.intact db p) hsd hstored hbirth
      (takeOrFetch_honest henv hfirst hreply) fun h => hquiet hid (of_decide_eq_true h)
    generalize ingestBackfillWindow env a d r.idTaddress markerLo lo hi seam f (a.intact db p) = o
      at hsound hcert ⊢
    obtain ⟨d', result⟩ := o
    cases result with
    | error e => exact ⟨hsound, fun h => absurd hid h, fun _ => rfl, nofun, nofun⟩
    | ok c =>
      refine ⟨hsound, fun h => absurd hid h, fun _ => rfl, nofun, fun c' hc => ?_⟩
      cases hc
      exact hcert c rfl

end Walks

/-! ### Windows of a pass -/

section Passes
variable {db d e : Database H}

/-- Accounts, counters and addresses stay; a marker may only move up. -/
structure Carries (db d : Database H) : Prop where
  accounts : d.accounts = db.accounts
  unmarked : Unmarked db d
  rows : ∀ r ∈ db.addresses.rows, ∃ r' ∈ d.addresses.rows,
    (r'.idTaddress = r.idTaddress ∧ r'.account = r.account ∧ r'.scope = r.scope ∧
      r'.dindex = r.dindex ∧ r'.address = r.address) ∧
    ∀ m, r.backfilledHeight = some m → ∃ m', r'.backfilledHeight = some m' ∧ m ≤ m'

theorem Carries.trans (h : Carries db d) (h' : Carries d e) : Carries db e where
  accounts := h'.accounts.trans h.accounts
  unmarked := h.unmarked.trans h'.unmarked
  rows r hr := by
    obtain ⟨s, hs, ⟨h1, h2, h3, h4, h5⟩, hm⟩ := h.rows r hr
    obtain ⟨t, ht, ⟨k1, k2, k3, k4, k5⟩, hm'⟩ := h'.rows s hs
    refine ⟨t, ht, ⟨k1.trans h1, k2.trans h2, k3.trans h3, k4.trans h4, k5.trans h5⟩,
      fun m hrm => ?_⟩
    obtain ⟨m', hsm, hle⟩ := hm m hrm
    obtain ⟨m'', htm, hle'⟩ := hm' m' hsm
    exact ⟨m'', htm, hle.trans hle'⟩

theorem Carries.refl (db : Database H) : Carries db db :=
  ⟨rfl, .refl db, fun r hr => ⟨r, hr, ⟨rfl, rfl, rfl, rfl, rfl⟩, fun m hm => ⟨m, hm, le_rfl⟩⟩⟩

theorem Grows.carries (h : Grows db d) (hu : Unmarked db d) : Carries db d where
  accounts := h.accounts
  unmarked := hu
  rows r hr := by
    obtain ⟨r', hr', hface⟩ := exists_of_map_eq h.addresses hr
    obtain ⟨h1, h2, h3, h4, h5, h6⟩ := face_eq hface
    exact ⟨r', hr', ⟨h1, h2, h3, h4, h5⟩, fun m hm => ⟨m, h6.trans hm, le_rfl⟩⟩

theorem Carries.birthHeight (h : Carries db d) (account : ℕ) :
    d.getBirthHeight account = db.getBirthHeight account := by
  unfold Database.getBirthHeight accountRow
  rw [h.accounts]

def Visit.Stored (v : Visit) (db : Database H) : Prop := RowOf db v.account v.idTaddress v.taddr

theorem Visit.Stored.carries {v : Visit} (h : v.Stored db) (hc : Carries db d) : v.Stored d := by
  obtain ⟨r, hr, hid, hacc, haddr⟩ := h
  obtain ⟨r', hr', ⟨h1, h2, -, -, h5⟩, -⟩ := hc.rows r hr
  exact ⟨r', hr', h1.trans hid, h2.trans hacc, h5.trans haddr⟩

theorem atOrBelow_streamRows {taddr : Bytes} {items : List (ℕ × TransparentTx)} {hi : ℕ}
    (h : ∀ x ∈ items, x.1 ≤ hi) :
    (streamRows taddr items).atOrBelow hi = streamRows taddr items := by
  simp only [WindowRows.atOrBelow, streamRows, WindowRows.mk.injEq, List.filter_eq_self,
    decide_eq_true_eq]
  refine ⟨fun t ht => ?_, fun n hn => ?_, fun v hv => ?_⟩
  · obtain ⟨x, hx, rfl⟩ := List.mem_map.1 ht
    exact h x hx
  · obtain ⟨x, hx, hn⟩ := List.mem_flatMap.1 hn
    obtain ⟨out, k, -, -, rfl⟩ := mem_noteItems.1 hn
    exact h x hx
  · obtain ⟨x, hx, hv⟩ := List.mem_flatMap.1 hv
    obtain ⟨o, -, rfl⟩ := mem_vinItems.1 hv
    exact h x hx

/-- A window of a pass that succeeds has filed its heights; one that fails leaves the markers
    true. -/
theorem syncAddressWindow_sound {env : Env} (henv : env.Honest C) (hs : MarkersSound C derive db)
    {v : Visit} (hv : v.Stored db) (cancelled : Bool) (lo hi : ℕ) :
    let o := syncAddressWindow env cancelled db v.account v.idTaddress v.taddr lo hi
    MarkersSound C derive o.1 ∧ Carries db o.1 ∧
      (o.2 = .ok () → Filed C o.1 v.account v.taddr lo hi) := by
  unfold syncAddressWindow
  dsimp only
  split
  · exact ⟨hs, .refl db, nofun⟩
  · exact ⟨hs, .refl db, nofun⟩
  · rename_i items ending hreply
    split
    · exact ⟨hs, .refl db, nofun⟩
    · split
      · exact ⟨hs, .refl db, nofun⟩
      · rename_i rows hdrain
        have hclosed := drain_closed hdrain
        dsimp only at hclosed
        subst hclosed
        have hitems := henv v.taddr lo hi items hreply
        have hrows : rows = rows.atOrBelow hi := by
          rw [drain_ok hdrain]
          exact (atOrBelow_streamRows fun x hx => ((hitems x).1 hx).2.2.2).symm
        have hdelivers : Delivers (C.window v.taddr lo hi) v.taddr hi rows :=
          ⟨_, lo, hi, rows, hdrain, hrows, hitems⟩
        obtain ⟨hw, hfiled⟩ := write_sound hs hv hdelivers (!rows.transactions.isEmpty)
        have hgrown := (write_grows db v.account v.idTaddress rows
          (!rows.transactions.isEmpty)).carries (unmarked_writeTransparentWindow ..)
        generalize writeTransparentWindow db v.account v.idTaddress rows
          (!rows.transactions.isEmpty) = d at hw hfiled hgrown ⊢
        have hfilled := sameRecord_fillMissingBlockTimes env lo hi
          (env.setOrder (heightsOfTransactionsWithoutTime d v.account lo hi)) d
        have hcarries := hgrown.trans (hfilled.grows.carries
          (unmarked_fillMissingBlockTimes env lo hi _ d))
        rw [Nat.min_self] at hfiled
        split
        · rename_i hfill
          rw [hfill] at hfilled hcarries
          exact ⟨hfilled.sound hw, hcarries, nofun⟩
        · rename_i hfill
          rw [hfill] at hfilled hcarries
          exact ⟨hfilled.sound hw, hcarries, fun _ => hfiled.same hfilled⟩

theorem advanceAddressMarker_sound (hs : MarkersSound C derive db) {v : Visit} (hv : v.Stored db)
    {birth lo hi : ℕ} (hb : db.getBirthHeight v.account = some birth)
    (hfiled : Filed C db v.account v.taddr lo hi)
    (h : advanceAddressMarker db v.account birth v.idTaddress lo hi = .ok d) :
    MarkersSound C derive d ∧ Carries db d ∧
      ∀ r ∈ db.addresses.rows, r.idTaddress = v.idTaddress → ∀ m, r.backfilledHeight = some m →
        lo ≤ max (m + 1) birth → ∃ r' ∈ d.addresses.rows, r'.idTaddress = v.idTaddress ∧
          ∃ m', r'.backfilledHeight = some m' ∧ hi ≤ m' := by
  obtain ⟨r, hr, hid, hacc, haddr⟩ := hv
  have hfind : taddressScopeDindex db v.idTaddress = some (r.scope, r.dindex) := by
    unfold taddressScopeDindex
    rw [(db.addresses.find?_eq_some fun x hx y hy hpx hpy => ?_).2 ⟨hr, decide_eq_true hid⟩]
    · rfl
    · simp only [decide_eq_true_eq] at hpx hpy
      exact db.addresses.eq_of_clash hx hy (.inl (hpx.trans hpy.symm))
  unfold advanceAddressMarker at h
  rw [hfind] at h
  cases h
  have honly : ∀ s ∈ db.addresses.rows, s.account = v.account → s.scope = r.scope →
      s.dindex = r.dindex → s = r := fun s hs' h1 h2 h3 =>
    db.addresses.eq_of_clash hs' hr (.inr ⟨h1.trans hacc.symm, h2, h3⟩)
  refine ⟨advance_sound hs hb (fun s hs' h1 h2 h3 => ?_) hfiled fun _ _ _ hle => hle,
    ⟨rfl, ⟨rfl, rfl, rfl⟩, fun s hs' => ⟨_, List.mem_map_of_mem hs', ?_⟩⟩,
    fun s hs' hsid m hm hle => ⟨_, List.mem_map_of_mem hs', ?_⟩⟩
  · rw [honly s hs' h1 h2 h3, haddr]
  · split
    · rename_i hcond
      refine ⟨⟨rfl, rfl, rfl, rfl, rfl⟩, fun m hm => ⟨hi, rfl, ?_⟩⟩
      have hlt := hcond.2.2
      rw [hm, Option.all_some, decide_eq_true_eq] at hlt
      exact hlt.le
    · exact ⟨⟨rfl, rfl, rfl, rfl, rfl⟩, fun m hm => ⟨m, hm, le_rfl⟩⟩
  · obtain rfl : s = r := db.addresses.eq_of_clash hs' hr (.inl (hsid.trans hid.symm))
    split
    · exact ⟨hid, hi, rfl, le_rfl⟩
    · rename_i hcond
      refine ⟨hid, m, hm, ?_⟩
      by_contra hlt
      refine hcond ⟨⟨hacc, rfl, rfl⟩, ?_, ?_⟩
      · rw [hm, Option.map_some, Option.getD_some]
        exact hle
      · rw [hm, Option.all_some, decide_eq_true_eq]
        omega

def Reaches (v : Visit) (birth lo stop : ℕ) (db d : Database H) : Prop :=
  ∀ r ∈ db.addresses.rows, r.idTaddress = v.idTaddress → ∀ m, r.backfilledHeight = some m →
    lo ≤ max (m + 1) birth → ∃ r' ∈ d.addresses.rows, r'.idTaddress = v.idTaddress ∧
      ∃ m', r'.backfilledHeight = some m' ∧ stop ≤ m'

theorem Reaches.of_carries {v : Visit} {birth lo stop : ℕ} (hc : Carries db d)
    (h : Reaches v birth lo stop d e) : Reaches v birth lo stop db e := by
  intro r hr hid m hm hle
  obtain ⟨r', hr', ⟨hid', -⟩, hmarker⟩ := hc.rows r hr
  obtain ⟨m', hm', hmm⟩ := hmarker m hm
  exact h r' hr' (hid'.trans hid) m' hm' (by omega)

theorem Reaches.trans {v : Visit} {birth lo mid stop : ℕ} (h : Reaches v birth lo mid db d)
    (h' : Reaches v birth (mid + 1) stop d e) : Reaches v birth lo stop db e := by
  intro r hr hid m hm hle
  obtain ⟨r', hr', hid', m', hm', hmm⟩ := h r hr hid m hm hle
  exact h' r' hr' hid' m' hm' (by omega)

theorem window_then_marker {env : Env} (henv : env.Honest C) {cancelled : Bool} {v : Visit}
    {birth lo hi : ℕ} (hs : MarkersSound C derive db) (hv : v.Stored db)
    (hb : db.getBirthHeight v.account = some birth)
    (hwindow : syncAddressWindow env cancelled db v.account v.idTaddress v.taddr lo hi =
      (d, .ok ()))
    (hmarker : advanceAddressMarker d v.account birth v.idTaddress lo hi = .ok e) :
    MarkersSound C derive e ∧ Carries db e ∧ Reaches v birth lo hi db e := by
  obtain ⟨hsd, hcd, hfiled⟩ := syncAddressWindow_sound henv hs hv cancelled lo hi
  rw [hwindow] at hsd hcd hfiled
  obtain ⟨hse, hce, hreach⟩ := advanceAddressMarker_sound hsd (hv.carries hcd)
    (by rw [hcd.birthHeight, hb]) (hfiled rfl) hmarker
  exact ⟨hse, hcd.trans hce, .of_carries hcd hreach⟩

theorem passWindows_sound {b : Backend} (hbackend : ∀ id lo hi, (b.env id lo hi).Honest C)
    {v : Visit} {birth stop : ℕ} {lo markerLo : ℕ} (hmark : markerLo = lo) (window : ℕ)
    (hs : MarkersSound C derive db) (hv : v.Stored db)
    (hb : db.getBirthHeight v.account = some birth) :
    let o := passWindows b v birth stop lo markerLo window db
    MarkersSound C derive o.1 ∧ Carries db o.1 ∧
      (o.2 = .ok () → lo ≤ stop → Reaches v birth lo stop db o.1) := by
  fun_induction passWindows b v birth stop lo markerLo window db with
  | case1 lo markerLo window db hle hi d hwindow f hmarker =>
    obtain ⟨hsd, hcd, -⟩ := syncAddressWindow_sound (hbackend v.idTaddress lo hi) hs hv
      (b.cancelled v.idTaddress lo hi) lo hi
    rw [hwindow] at hsd hcd
    exact ⟨hsd, hcd, nofun⟩
  | case2 lo markerLo window db hle hi d hwindow e hmarker hend =>
    subst hmark
    obtain ⟨hse, hce, hreach⟩ :=
      window_then_marker (hbackend v.idTaddress _ hi) hs hv hb hwindow hmarker
    exact ⟨hse, hce, fun _ _ => hend ▸ hreach⟩
  | case3 lo markerLo window db hle hi d hwindow e hmarker hend ih =>
    subst hmark
    obtain ⟨hse, hce, hreach⟩ :=
      window_then_marker (hbackend v.idTaddress _ hi) hs hv hb hwindow hmarker
    obtain ⟨hs', hc', hreach'⟩ := ih rfl hse (hv.carries hce) (by rw [hce.birthHeight, hb])
    have hhi : hi ≤ stop := min_le_right _ _
    exact ⟨hs', hce.trans hc', fun hok _ => hreach.trans (hreach' hok (by omega))⟩
  | case4 lo markerLo window db hle hi d f hwindow hnarrow ih =>
    obtain ⟨hsd, hcd, -⟩ := syncAddressWindow_sound (hbackend v.idTaddress lo hi) hs hv
      (b.cancelled v.idTaddress lo hi) lo hi
    rw [hwindow] at hsd hcd
    obtain ⟨hs', hc', hreach⟩ := ih hmark hsd (hv.carries hcd) (by rw [hcd.birthHeight, hb])
    exact ⟨hs', hcd.trans hc', fun hok hle' => .of_carries hcd (hreach hok hle')⟩
  | case5 lo markerLo window db hle hi d f hwindow hnarrow =>
    obtain ⟨hsd, hcd, -⟩ := syncAddressWindow_sound (hbackend v.idTaddress lo hi) hs hv
      (b.cancelled v.idTaddress lo hi) lo hi
    rw [hwindow] at hsd hcd
    exact ⟨hsd, hcd, nofun⟩
  | case6 lo markerLo window db hle => exact ⟨hs, .refl db, fun _ h => absurd h hle⟩

theorem syncRange_sound {b : Backend} (hbackend : ∀ id lo hi, (b.env id lo hi).Honest C)
    {v : Visit} {birth : ℕ} (stop lo : ℕ) (hs : MarkersSound C derive db) (hv : v.Stored db)
    (hb : db.getBirthHeight v.account = some birth) :
    MarkersSound C derive (syncRange b v birth stop lo db).1 ∧
      Carries db (syncRange b v birth stop lo db).1 ∧
      ((syncRange b v birth stop lo db).2 = .ok () → lo ≤ stop →
        Reaches v birth lo stop db (syncRange b v birth stop lo db).1) :=
  passWindows_sound hbackend rfl (stop - lo + 1) hs hv hb

/-- The part below the seam is there as a whole or not at all. -/
theorem syncBelow_sound {b : Backend} (hbackend : ∀ id lo hi, (b.env id lo hi).Honest C)
    {v : Visit} {birth lo seam : ℕ} {anchor : Bytes} (hs : MarkersSound C derive db)
    (hv : v.Stored db) (hb : db.getBirthHeight v.account = some birth)
    (h : syncBelow b v birth lo seam anchor db = .ok d) :
    MarkersSound C derive d ∧ Carries db d ∧ (lo ≤ seam → Reaches v birth lo seam db d) ∧
      (¬ lo ≤ seam → d = db) := by
  unfold syncBelow at h
  split at h
  · rename_i hle
    obtain ⟨hsd, hcd, hreach⟩ := syncRange_sound hbackend seam lo hs hv hb
    split at h
    · cases h
    · rename_i e hranged
      rw [hranged] at hsd hcd hreach
      split at h
      · cases h
      · split at h
        · cases h
        · cases h
          exact ⟨hsd, hcd, fun _ => hreach rfl hle, fun hlt => absurd hle hlt⟩
  · rename_i hlt
    cases h
    exact ⟨hs, .refl _, fun hle => absurd hle hlt, fun _ => rfl⟩

/-- An address that a pass is done with: a marker it had reaches the end of the range, unless the
    account is younger. -/
def Done (v : Visit) (stop : ℕ) (db d : Database H) : Prop :=
  ∀ r ∈ db.addresses.rows, r.idTaddress = v.idTaddress → ∀ m, r.backfilledHeight = some m →
    ∀ birth, db.getBirthHeight v.account = some birth → birth ≤ stop →
      ∃ r' ∈ d.addresses.rows, r'.idTaddress = v.idTaddress ∧
        ∃ m', r'.backfilledHeight = some m' ∧ stop ≤ m'

theorem Done.of_carries {v : Visit} {stop : ℕ} (hc : Carries db d) (h : Done v stop d e) :
    Done v stop db e := by
  intro r hr hid m hm birth hb hle
  obtain ⟨r', hr', ⟨hid', -⟩, hmarker⟩ := hc.rows r hr
  obtain ⟨m', hm', -⟩ := hmarker m hm
  exact h r' hr' (hid'.trans hid) m' hm' birth (by rw [hc.birthHeight, hb]) hle

theorem Done.carries {v : Visit} {stop : ℕ} (h : Done v stop db d) (hc : Carries d e) :
    Done v stop db e := by
  intro r hr hid m hm birth hb hle
  obtain ⟨r', hr', hid', m', hm', hmm⟩ := h r hr hid m hm birth hb hle
  obtain ⟨s, hs, ⟨hsid, -⟩, hmarker⟩ := hc.rows r' hr'
  obtain ⟨m'', hm'', hmm'⟩ := hmarker m' hm'
  exact ⟨s, hs, hsid.trans hid', m'', hm'', hmm.trans hmm'⟩

theorem syncAddressRange_sound {b : Backend} (hbackend : ∀ id lo hi, (b.env id lo hi).Honest C)
    {v : Visit} (start stop : ℕ) (anchor : Bytes) (hs : MarkersSound C derive db)
    (hv : v.Stored db) :
    MarkersSound C derive (syncAddressRange b v start stop anchor db).1 ∧
      Carries db (syncAddressRange b v start stop anchor db).1 ∧
      ((syncAddressRange b v start stop anchor db).2 = .ok () →
        Done v stop db (syncAddressRange b v start stop anchor db).1) := by
  unfold syncAddressRange
  split
  · exact ⟨hs, .refl db, fun hok => by cases hok⟩
  · rename_i birth hb
    dsimp only
    split
    · exact ⟨hs, .refl db, fun hok => by cases hok⟩
    · rename_i seam hseam
      split
      · exact ⟨hs, .refl db, fun hok => by cases hok⟩
      · rename_i d hbelow
        obtain ⟨hsd, hcd, hreach, hsame⟩ := syncBelow_sound hbackend hs hv hb hbelow
        obtain ⟨hse, hce, hreach'⟩ := syncRange_sound hbackend stop
          (max (syncStart (db.transparentBackfilledHeight v.idTaddress) start birth) (seam + 1)) hsd
          (hv.carries hcd) (by rw [hcd.birthHeight, hb])
        refine ⟨hse, hcd.trans hce, fun hok r hr hid m hm birth' hb' hle => ?_⟩
        obtain rfl := Option.some.inj (hb'.symm.trans hb)
        have hstart : syncStart (db.transparentBackfilledHeight v.idTaddress) start birth' =
            max (min start (m + 1)) birth' := by
          rw [← hid, transparentBackfilledHeight_of_mem hr, hm]
          rfl
        rw [hstart] at hreach hsame
        generalize habove :
          max (syncStart (db.transparentBackfilledHeight v.idTaddress) start birth') (seam + 1) =
            above at hce hreach' hok ⊢
        rw [hstart] at habove
        -- a marker that is there already only has to be carried over the rest of the range
        have hcarried {m' : ℕ} {r' : AddressRow} (hr' : r' ∈ d.addresses.rows)
            (hid' : r'.idTaddress = v.idTaddress) (hm' : r'.backfilledHeight = some m')
            (hle' : stop ≤ m') : ∃ s ∈ (syncRange b v birth' stop above d).1.addresses.rows,
              s.idTaddress = v.idTaddress ∧ ∃ k, s.backfilledHeight = some k ∧ stop ≤ k := by
          obtain ⟨s, hs', ⟨hsid, -⟩, hmarker⟩ := hce.rows r' hr'
          obtain ⟨k, hk, hle''⟩ := hmarker m' hm'
          exact ⟨s, hs', hsid.trans hid', k, hk, hle'.trans hle''⟩
        by_cases hlo : max (min start (m + 1)) birth' ≤ seam
        · obtain rfl : seam + 1 = above := by omega
          by_cases hseam : seam + 1 ≤ stop
          · exact (hreach hlo).trans (hreach' hok hseam) r hr hid m hm (by omega)
          · obtain ⟨r', hr', hid', m', hm', hle'⟩ := hreach hlo r hr hid m hm (by omega)
            exact hcarried hr' hid' hm' (by omega)
        · obtain rfl := hsame hlo
          by_cases hstop : above ≤ stop
          · exact hreach' hok hstop r hr hid m hm (by omega)
          · exact hcarried hr hid hm (by omega)

theorem syncAddresses_sound {b : Backend} (hbackend : ∀ id lo hi, (b.env id lo hi).Honest C)
    (start stop : ℕ) (anchor : Bytes) {vs : List Visit} (hs : MarkersSound C derive db)
    (hvs : ∀ v ∈ vs, v.Stored db) :
    MarkersSound C derive (syncAddresses b start stop anchor vs db).1 ∧
      Carries db (syncAddresses b start stop anchor vs db).1 ∧
      ((syncAddresses b start stop anchor vs db).2 = .ok () →
        ∀ v ∈ vs, Done v stop db (syncAddresses b start stop anchor vs db).1) := by
  induction vs generalizing db with
  | nil => exact ⟨hs, .refl db, fun _ v hv => absurd hv List.not_mem_nil⟩
  | cons v vs ih =>
    obtain ⟨hsd, hcd, hdone⟩ :=
      syncAddressRange_sound hbackend start stop anchor hs (hvs v List.mem_cons_self)
    unfold syncAddresses
    split
    · rename_i d f hrange
      rw [hrange] at hsd hcd
      exact ⟨hsd, hcd, nofun⟩
    · rename_i d hrange
      rw [hrange] at hsd hcd hdone
      obtain ⟨hse, hce, hrest⟩ := ih hsd fun u hu =>
        (hvs u (List.mem_cons_of_mem v hu)).carries hcd
      refine ⟨hse, hcd.trans hce, fun hok => List.forall_mem_cons.2 ⟨?_, fun u hu => ?_⟩⟩
      · exact (hdone rfl).carries hce
      · exact (hrest hok u hu).of_carries hcd

theorem visits_stored {limit account : ℕ} {v : Visit} (hv : v ∈ visits db limit account) :
    v.account = account ∧ v.Stored db := by
  obtain ⟨row, hrow, rfl⟩ := List.mem_map.1 hv
  refine ⟨rfl, ?_⟩
  have hof (scope : ℕ) {r : AddressRow} (hr : r ∈ db.addressesOf account scope) :
      r ∈ db.addresses.rows ∧ r.account = account := by
    obtain ⟨hmem, hkey⟩ := List.mem_filter.1 hr
    exact ⟨hmem, (of_decide_eq_true hkey).1⟩
  have hscan {rows : List AddressRow} (order : AddressRow → ℕ)
      (hrows : ∀ r ∈ rows, r ∈ db.addresses.rows ∧ r.account = account) {s : ScanRow}
      (hs : s ∈ rows.map fun r => r.scanRow (order r)) :
      RowOf db account s.1 s.2.1 := by
    obtain ⟨r, hr, rfl⟩ := List.mem_map.1 hs
    obtain ⟨hmem, hacc⟩ := hrows r hr
    exact ⟨r, hmem, rfl, hacc, rfl⟩
  obtain ⟨s, hs, rfl⟩ := List.mem_map.1 hrow
  rw [List.mem_insertionSort, List.mem_dedup] at hs
  simp only [List.mem_append] at hs
  rcases hs with ((hs | hs) | hs) | hs
  · exact hscan _ (fun r hr => hof 0 hr) hs
  · refine hscan (fun _ => 2) (fun r hr => hof 1 ?_) hs
    exact (List.mem_insertionSort _).1 (List.mem_of_mem_take hr)
  · exact hscan (fun _ => 2) (fun r hr => hof 1 (List.mem_filter.1 hr).1) hs
  · exact hscan (fun _ => 2) (fun r hr => hof 1 (List.mem_filter.1 hr).1) hs

theorem finishAccount_same (stop account : ℕ) (db : Database H) :
    SameRecord db (finishAccount stop db account) ∧
      Unmarked db (finishAccount stop db account) := by
  refine ⟨⟨rfl, ?_, rfl, rfl, rfl⟩, ⟨rfl, rfl, rfl⟩⟩
  change (db.addresses.rows.map (payDebt account)).map addressFace = _
  rw [List.map_map]
  refine List.map_congr_left fun r _ => ?_
  simp only [Function.comp_apply, payDebt]
  split <;> rfl

theorem transparentSync_sound {b : Backend} (hbackend : ∀ id lo hi, (b.env id lo hi).Honest C)
    (accounts : List ℕ) (start stop limit : ℕ) (hs : MarkersSound C derive db) :
    MarkersSound C derive (transparentSync b accounts start stop limit db).1 ∧
      Carries db (transparentSync b accounts start stop limit db).1 ∧
      ((transparentSync b accounts start stop limit db).2 = .ok () →
        ∀ account ∈ accounts, ∀ v ∈ visits db limit account,
          Done v stop db (transparentSync b accounts start stop limit db).1) := by
  unfold transparentSync
  dsimp only
  split
  · rename_i hnone
    refine ⟨hs, .refl db, fun _ account ha v hv => ?_⟩
    rw [List.isEmpty_iff] at hnone
    have hmem : v ∈ accounts.flatMap (visits db limit) := List.mem_flatMap.2 ⟨account, ha, hv⟩
    rw [hnone] at hmem
    exact absurd hmem List.not_mem_nil
  · split
    · exact ⟨hs, .refl db, nofun⟩
    · rename_i anchor _
      obtain ⟨hsd, hcd, hdone⟩ := syncAddresses_sound hbackend start stop anchor hs
        fun v (hv : v ∈ accounts.flatMap (visits db limit)) => by
          obtain ⟨account, -, hv⟩ := List.mem_flatMap.1 hv
          exact (visits_stored hv).2
      split
      · rename_i hwalk
        rw [hwalk] at hsd hcd
        exact ⟨hsd, hcd, nofun⟩
      · rename_i d hwalk
        rw [hwalk] at hsd hcd hdone
        split
        · exact ⟨hsd, hcd, nofun⟩
        · split
          · exact ⟨hsd, hcd, nofun⟩
          · obtain ⟨hse, hce⟩ := foldl_inv (f := finishAccount (H := H) stop)
              (I := fun e => MarkersSound C derive e ∧ Carries d e)
              (l := accounts.filter fun account => !(visits db limit account).isEmpty)
              (fun e account _ he => by
                obtain ⟨hsame, hunmarked⟩ := finishAccount_same stop account e
                exact ⟨hsame.sound he.1, he.2.trans (hsame.grows.carries hunmarked)⟩)
              ⟨hsd, .refl d⟩
            exact ⟨hse, hcd.trans hce, fun _ account ha v hv =>
              (hdone rfl v (List.mem_flatMap.2 ⟨account, ha, hv⟩)).carries hce⟩

end Passes

end ZcashSdk.Discovery
