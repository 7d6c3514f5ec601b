import ZcashSdk.Discovery.Interleaved

set_option autoImplicit false

/-!
# Payments that were seen are not lost

A window of a walk may see a payment above the seam, where it stores nothing, and a trim deletes
payments that were stored. Either way the address is owed its history up to the payment until its
own marker gets there, and a pass visits every address that is owed.
-/
namespace ZcashSdk.Discovery
open Tables Shielded Db Database Loops Runs

variable {H : Type} [DecidableEq H] {C : Chain} {derive : Derivation}

/-! ### What is kept -/

/-- An address of an account is owed its history, up to a height at least. -/
def OwedAt (db : Database H) (account : ℕ) (taddr : Bytes) (height : ℕ) : Prop :=
  ∃ r ∈ db.addresses.rows, r.account = account ∧ r.address = taddr ∧
    ∃ through, r.catchUpOwedThrough = some through ∧ height ≤ through

def Kept (db : Database H) (account : ℕ) (taddr o : Bytes) (height : ℕ) : Prop :=
  (∃ n, HasNote db account o n) ∨ OwedAt db account taddr height

structure SameAddress (r r' : AddressRow) : Prop where
  idTaddress : r'.idTaddress = r.idTaddress
  account : r'.account = r.account
  scope : r'.scope = r.scope
  address : r'.address = r.address

/-- The row of the same address, owed no less. -/
structure OwedNoLess (r r' : AddressRow) : Prop extends SameAddress r r' where
  owed : ∀ through, r.catchUpOwedThrough = some through →
    ∃ through', r'.catchUpOwedThrough = some through' ∧ through ≤ through'

structure Retains (db d : Database H) : Prop where
  accounts : d.accounts = db.accounts
  notes : ∀ n ∈ db.notes.rows, n ∈ d.notes.rows
  rows : ∀ r ∈ db.addresses.rows, ∃ r' ∈ d.addresses.rows, OwedNoLess r r'

/-- No address is added. -/
structure Amends (db d : Database H) : Prop extends Retains db d where
  origin : ∀ r' ∈ d.addresses.rows, ∃ r ∈ db.addresses.rows, SameAddress r r'

section Keeping
variable {db d e : Database H} {account height : ℕ} {taddr o : Bytes}

theorem SameAddress.refl (r : AddressRow) : SameAddress r r := ⟨rfl, rfl, rfl, rfl⟩

theorem SameAddress.trans {r r' r'' : AddressRow} (h : SameAddress r r')
    (h' : SameAddress r' r'') : SameAddress r r'' :=
  ⟨h'.idTaddress.trans h.idTaddress, h'.account.trans h.account, h'.scope.trans h.scope,
    h'.address.trans h.address⟩

theorem OwedNoLess.refl (r : AddressRow) : OwedNoLess r r :=
  ⟨.refl r, fun through h => ⟨through, h, le_rfl⟩⟩

theorem OwedNoLess.of_same {r r' : AddressRow} (hsame : SameAddress r r')
    (howed : r'.catchUpOwedThrough = r.catchUpOwedThrough) : OwedNoLess r r' :=
  ⟨hsame, fun through h => ⟨through, howed.trans h, le_rfl⟩⟩

theorem OwedNoLess.raised {r r' : AddressRow} {m : ℕ} (hsame : SameAddress r r')
    (howed : r'.catchUpOwedThrough = some (max (r.catchUpOwedThrough.getD 0) m)) :
    OwedNoLess r r' := by
  refine ⟨hsame, fun through h => ⟨_, howed, ?_⟩⟩
  rw [h, Option.getD_some]
  exact le_max_left _ _

theorem OwedNoLess.trans {r r' r'' : AddressRow} (h : OwedNoLess r r') (h' : OwedNoLess r' r'') :
    OwedNoLess r r'' := by
  refine ⟨h.toSameAddress.trans h'.toSameAddress, fun through howed => ?_⟩
  obtain ⟨through', howed', hle⟩ := h.owed through howed
  obtain ⟨through'', howed'', hle'⟩ := h'.owed through' howed'
  exact ⟨through'', howed'', hle.trans hle'⟩

theorem Retains.trans (h : Retains db d) (h' : Retains d e) : Retains db e where
  accounts := h'.accounts.trans h.accounts
  notes n hn := h'.notes n (h.notes n hn)
  rows r hr := by
    obtain ⟨r', hr', hless⟩ := h.rows r hr
    obtain ⟨r'', hr'', hless'⟩ := h'.rows r' hr'
    exact ⟨r'', hr'', hless.trans hless'⟩

theorem Amends.of_addresses (haccounts : d.accounts = db.accounts) (hnotes : d.notes = db.notes)
    (haddresses : d.addresses = db.addresses) : Amends db d where
  accounts := haccounts
  notes _ hn := hnotes ▸ hn
  rows r hr := ⟨r, haddresses ▸ hr, .refl r⟩
  origin r hr := ⟨r, haddresses ▸ hr, .refl r⟩

theorem Amends.refl (db : Database H) : Amends db db := .of_addresses rfl rfl rfl

theorem Amends.trans (h : Amends db d) (h' : Amends d e) : Amends db e where
  toRetains := h.toRetains.trans h'.toRetains
  origin r'' hr'' := by
    obtain ⟨r', hr', hsame'⟩ := h'.origin r'' hr''
    obtain ⟨r, hr, hsame⟩ := h.origin r' hr'
    exact ⟨r, hr, hsame.trans hsame'⟩

theorem OwedAt.of_rows (h : OwedAt db account taddr height)
    (hrows : ∀ r ∈ db.addresses.rows, r.account = account →
      ∃ r' ∈ d.addresses.rows, OwedNoLess r r') : OwedAt d account taddr height := by
  obtain ⟨r, hr, hacc, haddr, through, howed, hle⟩ := h
  obtain ⟨r', hr', hless⟩ := hrows r hr hacc
  obtain ⟨through', howed', hle'⟩ := hless.owed through howed
  exact ⟨r', hr', hless.account.trans hacc, hless.address.trans haddr, through', howed',
    hle.trans hle'⟩

theorem Kept.of_rows (h : Kept db account taddr o height)
    (hnotes : ∀ n ∈ db.notes.rows, n.account = account → n ∈ d.notes.rows)
    (hrows : ∀ r ∈ db.addresses.rows, r.account = account →
      ∃ r' ∈ d.addresses.rows, OwedNoLess r r') : Kept d account taddr o height := by
  rcases h with ⟨n, hn⟩ | howed
  · exact .inl ⟨n, hnotes n hn.1 hn.2.1, hn.2⟩
  · exact .inr (howed.of_rows hrows)

theorem Retains.kept (h : Retains db d) (hkept : Kept db account taddr o height) :
    Kept d account taddr o height :=
  hkept.of_rows (fun n hn _ => h.notes n hn) fun r hr _ => h.rows r hr

theorem Retains.birthHeight (h : Retains db d) (account : ℕ) :
    d.getBirthHeight account = db.getBirthHeight account := by
  unfold Database.getBirthHeight accountRow
  rw [h.accounts]

/-! ### Windows of a walk -/

theorem amends_update (f : AddressRow → AddressRow)
    (hf : ∀ x y, Row.Clash (f x) (f y) → Row.Clash x y) (hless : ∀ r, OwedNoLess r (f r)) :
    Amends db { db with addresses := db.addresses.update f hf } where
  accounts := rfl
  notes _ hn := hn
  rows r hr := ⟨f r, List.mem_map_of_mem hr, hless r⟩
  origin _ hr' := by
    obtain ⟨r, hr, rfl⟩ := List.mem_map.1 hr'
    exact ⟨r, hr, (hless r).toSameAddress⟩

theorem amends_raiseOwed (id : ℕ) (owed : Option ℕ) :
    Amends db (raiseOwed db id owed) := by
  cases owed with
  | none => exact .refl db
  | some through =>
    refine amends_update _ _ fun r => ?_
    split
    · exact .raised ⟨rfl, rfl, rfl, rfl⟩ rfl
    · exact .refl r

theorem amends_advance (account birth scope dindex coveredFrom through : ℕ) :
    Amends db (db.advanceBackfilledHeight account birth scope dindex coveredFrom through) := by
  refine amends_update _ _ fun r => ?_
  split <;> exact .of_same ⟨rfl, rfl, rfl, rfl⟩ rfl

theorem amends_seenUsed (used : Bool) (id : ℕ) :
    Amends db (if used then markSeenUsed db id else db) := by
  split
  · refine amends_update _ _ fun r => ?_
    split <;> exact .of_same ⟨rfl, rfl, rfl, rfl⟩ rfl
  · exact .refl db

theorem amends_write (db : Database H) (account id : ℕ) (rows : WindowRows) (used : Bool) :
    Amends db (writeTransparentWindow db account id rows used) where
  accounts := (write_tables db account id rows used).1
  notes := by
    have hadds : Adds _ account db (writeTransparentWindow db account id rows used) :=
      adds_write db used
    exact hadds.keptNote
  rows := by
    rw [(write_tables db account id rows used).2]
    exact (amends_seenUsed used id).rows
  origin := by
    rw [(write_tables db account id rows used).2]
    exact (amends_seenUsed used id).origin

theorem amends_fill (env : Env) (lo hi : ℕ) (heights : List ℕ) (db : Database H) :
    Amends db (fillMissingBlockTimes env lo hi heights db).1 := by
  induction heights generalizing db with
  | nil => exact .refl db
  | cons h hs ih =>
    unfold fillMissingBlockTimes
    split
    · exact .refl db
    · exact .refl db
    · refine Amends.trans ?_ (ih _)
      exact .of_addresses rfl rfl rfl

theorem retains_store (account scope dindex : ℕ) (taddr : Bytes) :
    Retains db (db.storeAccountTransparentAddr account scope dindex taddr) :=
  ⟨rfl, fun _ hn => hn, fun r hr => ⟨r, Table.mem_insertOrIgnore_of_mem hr, .refl r⟩⟩

variable {env : Env} {a : WalkArgs} {lo hi markerLo id seam : ℕ} {f : Fetched} {intact : Bool}

/-- The highest transaction of a window that lies above the seam. -/
def WindowRows.owedThrough (all : WindowRows) (seam : ℕ) : Option ℕ :=
  ((all.transactions.map Prod.snd).filter fun h => seam < h).max?

theorem WindowRows.le_owedThrough {all : WindowRows} {x : Bytes × ℕ} (hx : x ∈ all.transactions)
    (hseam : seam < x.2) : ∃ through, all.owedThrough seam = some through ∧ x.2 ≤ through := by
  have hmem : x.2 ∈ (all.transactions.map Prod.snd).filter fun h => seam < h :=
    List.mem_filter.2 ⟨List.mem_map_of_mem hx, decide_eq_true hseam⟩
  obtain ⟨through, hthrough⟩ := Option.isSome_iff_exists.1 (List.isSome_max?_of_mem hmem)
  exact ⟨through, hthrough, (List.max?_eq_some_iff.1 hthrough).2 x.2 hmem⟩

theorem ingest_amends {all : WindowRows}
    (hdrain : drainTransparentWindow a.taddr f lo hi = .ok all) :
    Amends (raiseOwed (writeTransparentWindow db a.account id (all.atOrBelow seam)
      (!all.transactions.isEmpty)) id (all.owedThrough seam))
      (ingestBackfillWindow env a db id markerLo lo hi seam f intact).1 := by
  unfold ingestBackfillWindow
  rw [hdrain]
  dsimp only [WindowRows.owedThrough]
  generalize raiseOwed (writeTransparentWindow db a.account id (all.atOrBelow seam)
    (!all.transactions.isEmpty)) id _ = d
  have hfilled := amends_fill env lo hi
    (env.setOrder (heightsOfTransactionsWithoutTime d a.account lo (min hi seam))) d
  split
  · rename_i hfill
    rw [hfill] at hfilled
    exact hfilled
  · rename_i hfill
    rw [hfill] at hfilled
    split
    · exact hfilled.trans (amends_advance ..)
    · exact hfilled

theorem amends_ingest :
    Amends db (ingestBackfillWindow env a db id markerLo lo hi seam f intact).1 := by
  cases hdrain : drainTransparentWindow a.taddr f lo hi with
  | error e =>
    unfold ingestBackfillWindow
    rw [hdrain]
    exact .refl db
  | ok all =>
    exact ((amends_write ..).trans (amends_raiseOwed ..)).trans (ingest_amends hdrain)

theorem raiseOwed_row {r : AddressRow} (hr : r ∈ db.addresses.rows) (hid : r.idTaddress = id)
    (through : ℕ) : ∃ r' ∈ (raiseOwed db id (some through)).addresses.rows, SameAddress r r' ∧
      ∃ through', r'.catchUpOwedThrough = some through' ∧ through ≤ through' := by
  refine ⟨_, List.mem_map_of_mem hr, ?_⟩
  rw [if_pos hid]
  exact ⟨⟨rfl, rfl, rfl, rfl⟩, _, rfl, le_max_right _ _⟩

theorem owedAt_raiseOwed {through : ℕ} (hrow : RowOf db account id taddr) (hle : height ≤ through) :
    OwedAt (raiseOwed db id (some through)) account taddr height := by
  obtain ⟨r, hr, hid, hacc, haddr⟩ := hrow
  obtain ⟨r', hr', hsame, through', howed, hle'⟩ := raiseOwed_row hr hid through
  exact ⟨r', hr', hsame.account.trans hacc, hsame.address.trans haddr, through', howed,
    hle.trans hle'⟩

/-- A window that is ingested stores its payments up to the seam, and owes the others. -/
theorem ingest_keeps (hs : MarkersSound C derive db) (hstored : a.Stored db id)
    (hf : f.Honest C a.taddr lo hi) {c : Bool}
    (hres : (ingestBackfillWindow env a db id markerLo lo hi seam f intact).2 = .ok c) {value : ℤ}
    (ho : C.Output a.taddr o height value) (hlo : lo ≤ height) (hhi : height ≤ hi) :
    Kept (ingestBackfillWindow env a db id markerLo lo hi seam f intact).1 a.account a.taddr o
      height := by
  cases hdrain : drainTransparentWindow a.taddr f lo hi with
  | error e =>
    unfold ingestBackfillWindow at hres
    rw [hdrain] at hres
    cases hres
  | ok all =>
    refine (ingest_amends hdrain).kept ?_
    have hitems := hf.items (drain_closed hdrain)
    have hdelivers : Delivers (C.window a.taddr lo hi) a.taddr seam (all.atOrBelow seam) :=
      ⟨f, lo, hi, all, hdrain, rfl, hitems⟩
    by_cases hseam : height ≤ seam
    · refine (amends_raiseOwed ..).kept (.inl ?_)
      exact (write_sound hs hstored.rowOf hdelivers _).2.outputs o height value ho hlo
        (le_min hhi hseam)
    · obtain ⟨x, hx, htouch, rfl⟩ := ho.touches
      have hmem : (x.2.txid, x.1) ∈ all.transactions := by
        rw [drain_ok hdrain]
        exact List.mem_map.2 ⟨x, (hitems x).2 ⟨hx, htouch, hlo, hhi⟩, rfl⟩
      obtain ⟨through, hthrough, hle⟩ := WindowRows.le_owedThrough hmem (not_le.1 hseam)
      rw [hthrough]
      exact .inr (owedAt_raiseOwed (hstored.rowOf.of_face (write_face ..)) hle)

/-- A window stores the address of the walk at most. -/
theorem walkWindow_amends (env : Env) (a : WalkArgs) (identity : AccountIdentity)
    (db : Database H) (p : Progress) (markerLo lo hi : ℕ) (first : Option Fetched) :
    ∃ d, (d = db ∨ d = a.store db) ∧
      Amends d (walkWindow env a identity db p markerLo lo hi first).db := by
  have htaken := walkWindow_taken env a identity db p markerLo lo hi first
  generalize walkWindow env a identity db p markerLo lo hi first = o at htaken ⊢
  cases htaken with
  | replaced hid progress message => exact ⟨db, .inl rfl, .refl db⟩
  | @failed hid d hd row used e => exact ⟨d, hd, .refl d⟩
  | nothing hid hreply hnone row used => exact ⟨db, .inl rfl, .refl db⟩
  | @ingested hid seam f hreply d hd r hr hrow row used => exact ⟨d, hd, amends_ingest⟩

theorem retains_walkWindow (env : Env) (a : WalkArgs) (identity : AccountIdentity)
    (db : Database H) (p : Progress) (markerLo lo hi : ℕ) (first : Option Fetched) :
    Retains db (walkWindow env a identity db p markerLo lo hi first).db := by
  obtain ⟨d, rfl | rfl, hamends⟩ :=
    walkWindow_amends env a identity db p markerLo lo hi first
  · exact hamends.toRetains
  · exact (retains_store ..).trans hamends.toRetains

theorem walkWindow_keeps (hs : MarkersSound C derive db) {identity : AccountIdentity}
    (hent : Entitled derive a identity) (henv : env.Honest C) {p : Progress}
    {first : Option Fetched} (hfirst : ∀ f, first = some f → f.Honest C a.taddr lo hi)
    {found : Option Bool}
    (hres : (walkWindow env a identity db p markerLo lo hi first).result = .ok found) {value : ℤ}
    (ho : C.Output a.taddr o height value) (hlo : lo ≤ height) (hhi : height ≤ hi) :
    Kept (walkWindow env a identity db p markerLo lo hi first).db a.account a.taddr o height := by
  have htaken := walkWindow_taken env a identity db p markerLo lo hi first
  generalize walkWindow env a identity db p markerLo lo hi first = out at htaken hres ⊢
  cases htaken with
  | replaced hid progress message => cases hres
  | failed hid hd row used e => cases hres
  | nothing hid hreply hnone row used =>
    obtain ⟨x, hx, htouch, rfl⟩ := ho.touches
    exact absurd ⟨hx, htouch, hlo, hhi⟩
      ((takeOrFetch_honest henv hfirst hreply).nothing hnone x)
  | @ingested hid seam f hreply d hd r hr hrow row used =>
    obtain ⟨hsd, hstored, -⟩ := hent.stored hs hid hd hr hrow
    dsimp only at hres
    cases hingest : (ingestBackfillWindow env a d r.idTaddress markerLo lo hi seam f
      (a.intact db p)).2 with
    | error e =>
      rw [hingest] at hres
      cases hres
    | ok c =>
      exact ingest_keeps hsd hstored (takeOrFetch_honest henv hfirst hreply) hingest ho hlo hhi

/-! ### A pass -/

theorem amends_syncAddressWindow (env : Env) (cancelled : Bool) (db : Database H)
    (account id : ℕ) (taddr : Bytes) (lo hi : ℕ) :
    Amends db (syncAddressWindow env cancelled db account id taddr lo hi).1 := by
  unfold syncAddressWindow
  split
  · exact .refl db
  · exact .refl db
  · split
    · exact .refl db
    · split
      · exact .refl db
      · rename_i rows hdrain
        dsimp only
        have hwritten := amends_write db account id rows (!rows.transactions.isEmpty)
        generalize writeTransparentWindow db account id rows (!rows.transactions.isEmpty) = d
          at hwritten ⊢
        have hfilled := amends_fill env lo hi
          (env.setOrder (heightsOfTransactionsWithoutTime d account lo hi)) d
        split
        · rename_i hfill
          rw [hfill] at hfilled
          exact hwritten.trans hfilled
        · rename_i hfill
          rw [hfill] at hfilled
          exact hwritten.trans hfilled

theorem amends_advanceAddressMarker {birth coveredFrom through : ℕ}
    (h : advanceAddressMarker db account birth id coveredFrom through = .ok d) : Amends db d := by
  unfold advanceAddressMarker at h
  split at h
  · cases h
  · cases h
    exact amends_advance ..

theorem amends_passWindows (b : Backend) (v : Visit) (birth stop lo markerLo window : ℕ)
    (db : Database H) : Amends db (passWindows b v birth stop lo markerLo window db).1 := by
  have hwindow (lo hi : ℕ) (db : Database H) {d : Database H} {r : Except SyncFault Unit}
      (h : syncAddressWindow (b.env v.idTaddress lo hi) (b.cancelled v.idTaddress lo hi) db
        v.account v.idTaddress v.taddr lo hi = (d, r)) : Amends db d := by
    have hretains := amends_syncAddressWindow (b.env v.idTaddress lo hi)
      (b.cancelled v.idTaddress lo hi) db v.account v.idTaddress v.taddr lo hi
    rwa [h] at hretains
  fun_induction passWindows b v birth stop lo markerLo window db with
  | case1 lo markerLo window db hle hi d h f hmarker => exact hwindow lo hi db h
  | case2 lo markerLo window db hle hi d h e hmarker hend =>
    exact (hwindow lo hi db h).trans (amends_advanceAddressMarker hmarker)
  | case3 lo markerLo window db hle hi d h e hmarker hend ih =>
    exact ((hwindow lo hi db h).trans (amends_advanceAddressMarker hmarker)).trans ih
  | case4 lo markerLo window db hle hi d f h hnarrow ih => exact (hwindow lo hi db h).trans ih
  | case5 lo markerLo window db hle hi d f h hnarrow => exact hwindow lo hi db h
  | case6 lo markerLo window db hle => exact .refl db

theorem amends_syncBelow {b : Backend} {v : Visit} {birth lo : ℕ} {anchor : Bytes}
    (h : syncBelow b v birth lo seam anchor db = .ok d) : Amends db d := by
  unfold syncBelow at h
  split at h
  · split at h
    · cases h
    · rename_i e hrange
      have hretains := amends_passWindows b v birth seam lo lo (seam - lo + 1) db
      rw [← syncRange, hrange] at hretains
      split at h
      · cases h
      · split at h
        · cases h
        · cases h
          exact hretains
  · cases h
    exact .refl db

theorem amends_syncAddressRange (b : Backend) (v : Visit) (start stop : ℕ) (anchor : Bytes)
    (db : Database H) : Amends db (syncAddressRange b v start stop anchor db).1 := by
  unfold syncAddressRange
  split
  · exact .refl db
  · rename_i birth hbirth
    dsimp only
    split
    · exact .refl db
    · rename_i seam hseam
      split
      · exact .refl db
      · rename_i d hbelow
        exact (amends_syncBelow hbelow).trans (amends_passWindows ..)

theorem amends_syncAddresses (b : Backend) (start stop : ℕ) (anchor : Bytes) (vs : List Visit)
    (db : Database H) : Amends db (syncAddresses b start stop anchor vs db).1 := by
  induction vs generalizing db with
  | nil => exact .refl db
  | cons v vs ih =>
    have hfirst := amends_syncAddressRange b v start stop anchor db
    unfold syncAddresses
    split
    · rename_i d f hrange
      rw [hrange] at hfirst
      exact hfirst
    · rename_i d hrange
      rw [hrange] at hfirst
      exact hfirst.trans (ih d)

def BornBy (db : Database H) (account height : ℕ) : Prop :=
  ∃ birth, db.getBirthHeight account = some birth ∧ birth ≤ height

theorem Retains.bornBy (h : Retains db d) (hborn : BornBy db account height) :
    BornBy d account height := by
  obtain ⟨birth, hbirth, hle⟩ := hborn
  exact ⟨birth, (h.birthHeight account).trans hbirth, hle⟩

/-- A debt is paid only when the marker has reached it, so the payment is stored. -/
theorem finishAccount_keeps (hs : MarkersSound C derive db) {value : ℤ}
    (ho : C.Output taddr o height value) (hborn : BornBy db account height) (stop a : ℕ)
    (hkept : Kept db account taddr o height) :
    Kept (finishAccount stop db a) account taddr o height := by
  rcases hkept with hnote | ⟨r, hr, rfl, rfl, through, howed, hle⟩
  · exact .inl hnote
  · have hmem : payDebt a r ∈ (finishAccount stop db a).addresses.rows := List.mem_map_of_mem hr
    unfold payDebt at hmem
    split at hmem
    · rename_i hpaid
      obtain ⟨-, hany⟩ := hpaid
      rw [howed, Option.any_some, Option.any_eq_true] at hany
      obtain ⟨m, hm, hreached⟩ := hany
      obtain ⟨birth, hbirth, hbh⟩ := hborn
      have hthrough := of_decide_eq_true hreached
      exact .inl ((hs.marked r hr m hm birth hbirth).outputs o height value ho hbh
        (hle.trans hthrough))
    · exact .inr ⟨r, hmem, rfl, rfl, through, howed, hle⟩

/-- A pass keeps what was seen, whether it ends well or not. -/
theorem transparentSync_keeps {b : Backend} (hbackend : ∀ id lo hi, (b.env id lo hi).Honest C)
    (accounts : List ℕ) (start stop limit : ℕ) (hs : MarkersSound C derive db) {value : ℤ}
    (ho : C.Output taddr o height value) (hborn : BornBy db account height)
    (hkept : Kept db account taddr o height) :
    BornBy (transparentSync b accounts start stop limit db).1 account height ∧
      Kept (transparentSync b accounts start stop limit db).1 account taddr o height := by
  unfold transparentSync
  dsimp only
  split
  · exact ⟨hborn, hkept⟩
  · split
    · exact ⟨hborn, hkept⟩
    · rename_i anchor _
      obtain ⟨hsd, -, -⟩ := syncAddresses_sound hbackend start stop anchor hs
        fun v (hv : v ∈ accounts.flatMap (visits db limit)) => by
          obtain ⟨a, -, hv⟩ := List.mem_flatMap.1 hv
          exact (visits_stored hv).2
      have hretains := amends_syncAddresses b start stop anchor
        (accounts.flatMap (visits db limit)) db
      have hwalked : ∀ d r,
          syncAddresses b start stop anchor (accounts.flatMap (visits db limit)) db = (d, r) →
            MarkersSound C derive d ∧ BornBy d account height ∧
              Kept d account taddr o height := by
        intro d r hwalk
        rw [hwalk] at hsd hretains
        exact ⟨hsd, hretains.bornBy hborn, hretains.kept hkept⟩
      split
      · rename_i d f hwalk
        exact (hwalked d _ hwalk).2
      · rename_i d hwalk
        split
        · exact (hwalked d _ hwalk).2
        · split
          · exact (hwalked d _ hwalk).2
          · refine (foldl_inv (f := finishAccount (H := H) stop) (I := fun e =>
              MarkersSound C derive e ∧ BornBy e account height ∧ Kept e account taddr o height)
              (fun e a _ he => ?_) (hwalked d _ hwalk)).2
            exact ⟨(finishAccount_same stop a e).1.sound he.1, he.2.1,
              finishAccount_keeps he.1 ho he.2.1 stop a he.2.2⟩

/-! ### Going back -/

theorem owedNoLess_trim (db : Database H) (a h : ℕ) (r : AddressRow) :
    OwedNoLess r (clampMarker a h (db.reOwe a h r)) := by
  have howed : OwedNoLess r (db.reOwe a h r) := by
    unfold reOwe
    split
    · exact .raised ⟨rfl, rfl, rfl, rfl⟩ rfl
    · exact .refl r
  refine howed.trans ?_
  unfold clampMarker
  split <;> exact .of_same ⟨rfl, rfl, rfl, rfl⟩ rfl

theorem trim_owed {a h : ℕ} {r : AddressRow} (hloses : db.losesNote a h r.idTaddress = true) :
    (clampMarker a h (db.reOwe a h r)).catchUpOwedThrough = some (max (r.catchUpOwedThrough.getD 0)
      ((db.notesAbove r.idTaddress h).foldr max 0)) := by
  unfold reOwe
  rw [if_pos hloses]
  unfold clampMarker
  split <;> rfl

/-- A trim owes the row of an address the notes that it deletes. -/
theorem trim_raises {a h : ℕ} {r : AddressRow} {n : NoteRow H} (hn : n ∈ db.notes.rows)
    (hid : n.taddress = some r.idTaddress) (hpool : n.pool = 0)
    (hdeleted : above a h n.account n.height = true) :
    ∃ through, (clampMarker a h (db.reOwe a h r)).catchUpOwedThrough = some through ∧
      n.height ≤ through := by
  obtain ⟨habove, hacc⟩ := of_decide_eq_true hdeleted
  have hloses : db.losesNote a h r.idTaddress = true :=
    List.any_eq_true.2 ⟨n, hn, decide_eq_true ⟨habove, hacc, hpool, hid⟩⟩
  have hmem : n.height ∈ db.notesAbove r.idTaddress h :=
    List.mem_map_of_mem (List.mem_filter.2 ⟨hn, decide_eq_true ⟨hid, habove, hpool⟩⟩)
  exact ⟨_, trim_owed hloses, (List.le_max_of_le' 0 hmem le_rfl).trans (le_max_right _ _)⟩

theorem trim_owes (hs : OnChain C db) {a h : ℕ} {n : NoteRow H} (hn : HasNote db account o n)
    {value : ℤ} (ho : C.Output taddr o height value)
    (hdeleted : above a h n.account n.height = true) :
    OwedAt (db.trimSyncData a h) account taddr height := by
  obtain ⟨r, hr, hraccount, hid, hout⟩ := hs.note n hn.1 o hn.2.2
  obtain ⟨haddr, rfl, -⟩ := hout.unique ho
  obtain ⟨through, howed, hle⟩ :=
    trim_raises hn.1 hid (hs.pool n hn.1 o hn.2.2) hdeleted
  have hless := owedNoLess_trim db a h r
  exact ⟨_, List.mem_map_of_mem (List.mem_map_of_mem hr),
    hless.account.trans (hraccount.trans hn.2.1), hless.address.trans haddr, through, howed, hle⟩

theorem trim_keeps_payment (hs : OnChain C db) (a h : ℕ) {value : ℤ}
    (ho : C.Output taddr o height value) (hkept : Kept db account taddr o height) :
    Kept (db.trimSyncData a h) account taddr o height := by
  rcases hkept with ⟨n, hn⟩ | howed
  · cases hdeleted : above a h n.account n.height with
    | true => exact .inr (trim_owes hs hn ho hdeleted)
    | false => exact .inl ⟨n, Table.mem_deleteWhere.2 ⟨hn.1, hdeleted⟩, hn.2⟩
  · refine .inr (howed.of_rows fun r hr _ => ?_)
    exact ⟨_, List.mem_map_of_mem (List.mem_map_of_mem hr), owedNoLess_trim db a h r⟩

theorem reset_keeps {network : Network} {a : ℕ} (hne : a ≠ account) (hs : OnChain C db) {value : ℤ}
    (ho : C.Output taddr o height value) (hborn : BornBy db account height)
    (hkept : Kept db account taddr o height) (h : db.resetSync network a = .ok d) :
    BornBy d account height ∧ Kept d account taddr o height := by
  unfold resetSync at h
  split at h
  · cases h
  · cases h
    refine ⟨hborn, ?_⟩
    have hcleared : Kept ((db.trimSyncData a 0).clearCatchUpDebts a) account taddr o height := by
      refine (trim_keeps_payment hs a 0 ho hkept).of_rows (fun _ hn _ => hn) fun r hr hacc => ?_
      refine ⟨_, List.mem_map_of_mem hr, ?_⟩
      rw [if_neg fun h => hne (h.symm.trans hacc)]
      exact .refl r
    exact hcleared

theorem rewind_keeps {network : Network} {a h : ℕ}
    (hback : a = account → (db.checkpointBefore a h).isSome = true) (hs : OnChain C db) {value : ℤ}
    (ho : C.Output taddr o height value) (hborn : BornBy db account height)
    (hkept : Kept db account taddr o height) (hrewind : db.rewindSync network a h = .ok d) :
    BornBy d account height ∧ Kept d account taddr o height := by
  unfold rewindSync at hrewind
  obtain ⟨back, hgone, hrewind⟩ := bind_eq_ok.1 hrewind
  cases hrewind
  unfold goBack at hgone
  split at hgone
  · rename_i prev hprev
    cases hgone
    exact ⟨hborn, trim_keeps_payment hs a prev ho hkept⟩
  · rename_i hnone
    have hne : a ≠ account := fun h => by
      have hsome := hback h
      rw [hnone] at hsome
      cases hsome
    have hreset := reset_keeps hne hs ho hborn hkept hgone
    exact hreset

theorem delete_keeps {a : ℕ} (hne : a ≠ account) (hborn : BornBy db account height)
    (hkept : Kept db account taddr o height) :
    BornBy (db.deleteAccount a) account height ∧
      Kept (db.deleteAccount a) account taddr o height := by
  constructor
  · obtain ⟨birth, hbirth, hle⟩ := hborn
    refine ⟨birth, ?_, hle⟩
    rw [Database.getBirthHeight, deleteAccount_accountRow hne.symm]
    exact hbirth
  · refine hkept.of_rows (fun n hn hacc => ?_) fun r hr hacc => ⟨r, ?_, .refl r⟩
    · exact Table.mem_deleteWhere.2 ⟨hn, decide_eq_false fun h => hne (h.symm.trans hacc)⟩
    · exact Table.mem_deleteWhere.2 ⟨hr, decide_eq_false fun h => hne (h.symm.trans hacc)⟩

theorem birth_keeps {a birth : ℕ} (hle : a = account → birth ≤ height)
    (hborn : BornBy db account height) (hkept : Kept db account taddr o height) :
    BornBy (updateBirth db a birth) account height ∧
      Kept (updateBirth db a birth) account taddr o height := by
  constructor
  · obtain ⟨birth', hbirth, hle'⟩ := hborn
    obtain ⟨acc, hacc, rfl⟩ := Option.map_eq_some_iff.1 hbirth
    have hid := accountRow_id hacc
    rw [BornBy, Database.getBirthHeight, updateBirth_accountRow, hacc, Option.map_some,
      Option.map_some]
    refine ⟨_, rfl, ?_⟩
    split
    · rename_i heq
      exact hle (heq.symm.trans hid)
    · exact hle'
  · refine hkept.of_rows (fun _ hn _ => hn) fun r hr _ => ⟨_, List.mem_map_of_mem hr, ?_⟩
    split <;> exact .of_same ⟨rfl, rfl, rfl, rfl⟩ rfl

end Keeping

/-! ### Every run -/

/-- A reset, a deletion or a rewind to nothing starts an account over, and what was paid to it
    before a new birthday is given up. -/
def Edit.Spares (account height : ℕ) (db : Database H) : Edit → Prop
  | .trim _ _ => True
  | .reset _ a => a ≠ account
  | .rewind _ a h => a = account → (db.checkpointBefore a h).isSome = true
  | .delete a => a ≠ account
  | .birth a day => a = account → day ≤ height

def Move.Spares (account : ℕ) (taddr : Bytes) (height : ℕ) (s : Shared H) : Move H → Prop
  | .edit e => e.Spares account height s.db
  | .elsewhere d => (BornBy s.db account height → BornBy d account height) ∧
      (OwedAt s.db account taddr height → OwedAt d account taddr height)
  | _ => True

/-- A window of a walk of the address succeeds over a range that has the height. -/
def Move.Covers (account : ℕ) (taddr : Bytes) (height : ℕ) (s : Shared H) : Move H → Prop
  | .window w env => ∃ f found, s.crawls w = some f ∧ f.args.account = account ∧
      f.args.taddr = taddr ∧ f.lo ≤ height ∧ height ≤ f.hi ∧
      (f.outcome env s.db).result = .ok found
  | _ => False

section Moves
variable {s t u v : Shared H} {e : Move H} {es es' : List (Move H)} {g : Tally}
  {account height : ℕ} {taddr o : Bytes} {value : ℤ}

theorem edit_keeps {db d : Database H} (hs : OnChain C db) (ho : C.Output taddr o height value)
    {e : Edit} (hspares : e.Spares account height db) (h : e.apply db = some d)
    (hborn : BornBy db account height) (hkept : Kept db account taddr o height) :
    BornBy d account height ∧ Kept d account taddr o height := by
  cases e with
  | trim a h' =>
    cases h
    exact ⟨hborn, trim_keeps_payment hs a h' ho hkept⟩
  | reset network a => exact reset_keeps hspares hs ho hborn hkept (ok_of_toOption h)
  | rewind network a h' => exact rewind_keeps hspares hs ho hborn hkept (ok_of_toOption h)
  | delete a =>
    cases h
    exact delete_keeps hspares hborn hkept
  | birth a b =>
    cases h
    exact birth_keeps hspares hborn hkept

theorem Crawl.next_retains (f : Crawl) (env : Env) (db : Database H) :
    Retains db (f.next env db).1 := by
  unfold Crawl.next
  split
  · exact retains_walkWindow ..
  · exact (Amends.refl db).toRetains

theorem move_keeps (hs : MarkersSound C derive s.db) (hfaithful : e.Faithful C derive s)
    (hspares : e.Spares account taddr height s) (h : move s e = some t)
    (ho : C.Output taddr o height value) (hborn : BornBy s.db account height)
    (hkept : Kept s.db account taddr o height) :
    BornBy t.db account height ∧ Kept t.db account taddr o height := by
  cases e with
  | begin w a scope dindex taddr asked =>
    simp only [move] at h
    split at h
    · cases h
      exact ⟨hborn, hkept⟩
    · cases h
  | window w env =>
    obtain ⟨f, hf, rfl⟩ := Option.map_eq_some_iff.1 h
    have hretains := f.next_retains env s.db
    exact ⟨hretains.bornBy hborn, hretains.kept hkept⟩
  | abandon w =>
    cases h
    exact ⟨hborn, hkept⟩
  | pass b accounts start stop limit =>
    cases h
    exact transparentSync_keeps hfaithful accounts start stop limit hs ho hborn hkept
  | edit e =>
    obtain ⟨d, hd, rfl⟩ := Option.map_eq_some_iff.1 h
    exact edit_keeps hs.onChain ho hspares hd hborn hkept
  | elsewhere d =>
    cases h
    refine ⟨hspares.1 hborn, ?_⟩
    rcases hkept with ⟨n, hn⟩ | howed
    · exact .inl ⟨n, (hfaithful.keeps account n.height).notes n hn.1 hn.2.1 le_rfl, hn.2⟩
    · exact .inr (hspares.2 howed)

theorem covers_keeps (hs : SharedSound C derive s g) (hfaithful : e.Faithful C derive s)
    (hcovers : e.Covers account taddr height s) (h : move s e = some t)
    (ho : C.Output taddr o height value) : Kept t.db account taddr o height := by
  cases e with
  | window w env =>
    obtain ⟨f, found, hf, rfl, rfl, hlo, hhi, hres⟩ := hcovers
    obtain ⟨f', hf', rfl⟩ := Option.map_eq_some_iff.1 h
    obtain rfl := Option.some.inj (hf.symm.trans hf')
    have hcarried := (hs.crawls w f hf).carried
    have hstop : f.lo ≤ f.stop := hlo.trans (hhi.trans (min_le_right _ _))
    change Kept (f.next env s.db).1 _ _ _ _
    rw [Crawl.next_of_le hstop]
    exact walkWindow_keeps hs.sound hcarried.entitled hfaithful hcarried.first hres ho hlo hhi
  | _ => exact hcovers.elim

theorem run_keeps (hs : SharedSound C derive s g) (hrun : run move s es = some t)
    (hfaithful : AllSteps move (Move.Faithful C derive) s es)
    (hspares : AllSteps move (Move.Spares account taddr height) s es)
    (hfew : ∀ account, g.retired account + es.countP (Move.retires account) < 2 ^ 32)
    (ho : C.Output taddr o height value) (hborn : BornBy s.db account height)
    (hkept : Kept s.db account taddr o height) :
    SharedSound C derive t (Books.noted move tally s es g) ∧ BornBy t.db account height ∧
      Kept t.db account taddr o height := by
  refine ⟨shared_run hs hrun hfaithful (seldom_of_countP hfew), ?_⟩
  induction es generalizing s g with
  | nil =>
    rw [run_nil, Option.some.injEq] at hrun
    exact hrun ▸ ⟨hborn, hkept⟩
  | cons e es ih =>
    obtain ⟨u, hu, hr⟩ := (run_cons_some move).1 hrun
    obtain ⟨hborn', hkept'⟩ := move_keeps hs.sound hfaithful.1 hspares.1 hu ho hborn hkept
    have hstep : SharedSound C derive u (tally s e g) :=
      shared_step hs (Tally.seldom_of_lt fun a => (Nat.le_add_right _ _).trans_lt (hfew a)) hfaithful.1 hu
    refine ih hstep hr (hfaithful.2 u hu) (hspares.2 u hu) (fun a => ?_) hborn' hkept'
    have hcount := hfew a
    rw [List.countP_cons] at hcount
    simp only [tally]
    omega

/-- The row of a payment that is not stored: it is owed, every pass visits it, and a pass that
    succeeds and goes as far as the payment stores it, if the row has a marker. -/
structure Awaits (C : Chain) (db : Database H) (account : ℕ) (taddr o : Bytes) (height : ℕ)
    (value : ℤ) (r : AddressRow) : Prop where
  row : r ∈ db.addresses.rows ∧ r.account = account ∧ r.address = taddr
  owed : ∃ through, r.catchUpOwedThrough = some through ∧ height ≤ through
  visited : r.scope ≤ 1 → ∀ limit, ⟨account, r.idTaddress, taddr⟩ ∈ visits db limit account
  repaid : r.scope ≤ 1 → r.backfilledHeight ≠ none → ∀ (b : Backend) (accounts : List ℕ)
    (start stop limit : ℕ) (d : Database H), (∀ id lo hi, (b.env id lo hi).Honest C) →
      transparentSync b accounts start stop limit db = (d, .ok ()) → account ∈ accounts →
        height ≤ stop → ReceivedAt d account taddr o height value

theorem OwedAt.awaits {db : Database H} (hs : MarkersSound C derive db)
    (ho : C.Output taddr o height value) (hborn : BornBy db account height)
    (h : OwedAt db account taddr height) : ∃ r, Awaits C db account taddr o height value r := by
  obtain ⟨r, hr, rfl, rfl, through, howed, hle⟩ := h
  have hvisited (hscope : r.scope ≤ 1) (limit : ℕ) :
      ⟨r.account, r.idTaddress, r.address⟩ ∈ visits db limit r.account := by
    refine List.mem_map.2 ⟨(r.idTaddress, r.address), ?_, rfl⟩
    refine mem_transparentAddressesToScan limit hr rfl ?_
    rcases Nat.le_one_iff_eq_zero_or_eq_one.1 hscope with h | h
    · exact .inl h
    · exact .inr ⟨h, by rw [howed]; rfl⟩
  refine ⟨r, ⟨hr, rfl, rfl⟩, ⟨through, howed, hle⟩, hvisited, ?_⟩
  intro hscope hmarked b accounts start stop limit d hbackend hpass hacc hstop
  obtain ⟨birth, hbirth, hbh⟩ := hborn
  obtain ⟨m, hm, hexact⟩ := pass_known hs hbackend hpass hacc hbirth (hbh.trans hstop)
    (hvisited hscope limit) hr rfl hmarked
  exact (hexact.received o height value hbh (hstop.trans hm)).2 ho

/-- A payment that a window of a walk has covered, or that was stored once, is stored or awaited
    from then on, whatever comes between. -/
theorem payment_never_lost (hs : MarkersSound C derive s.db) (hnone : ∀ w, s.crawls w = none)
    (hrun : run move s es = some t) (hstep : move t e = some u) (hlater : run move u es' = some v)
    (hfaithful : AllSteps move (Move.Faithful C derive) s (es ++ e :: es'))
    (hfew : ∀ account, (es ++ e :: es').countP (Move.retires account) < 2 ^ 32)
    (ho : C.Output taddr o height value)
    (hseen : e.Covers account taddr height t ∨ ReceivedAt u.db account taddr o height value)
    (hborn : BornBy u.db account height)
    (hspares : AllSteps move (Move.Spares account taddr height) u es') :
    ReceivedAt v.db account taddr o height value ∨
      ∃ r, Awaits C v.db account taddr o height value r := by
  have hafter := hfaithful.suffix hrun
  have hcount (a : ℕ) : es.countP (Move.retires a) +
      ((if e.retires a then 1 else 0) + es'.countP (Move.retires a)) < 2 ^ 32 := by
    have hfew' := hfew a
    rw [List.countP_append, List.countP_cons] at hfew'
    omega
  have ht := shared_run (shared_start hs hnone) hrun hfaithful.append (seldom_of_countP fun a => by
    have hfew' := hcount a
    rw [Nat.zero_add]
    omega)
  have hretired (a : ℕ) : (Books.noted move tally s es ⟨fun _ => 0, fun _ => 0⟩).retired a =
      es.countP (Move.retires a) := (tally_retired a hrun).trans (Nat.zero_add _)
  have hu := shared_step ht (Tally.seldom_of_lt fun a => by
    have hfew' := hcount a
    rw [hretired]
    omega) hafter.1 hstep
  have hkept : Kept u.db account taddr o height := by
    rcases hseen with hcovers | ⟨n, hn, -⟩
    · exact covers_keeps ht hafter.1 hcovers hstep ho
    · exact .inl ⟨n, hn⟩
  obtain ⟨hv, hborn', hkept'⟩ := run_keeps hu hlater (hafter.2 u hstep) hspares (fun a => by
    have hfew' := hcount a
    simp only [tally]
    rw [hretired]
    omega) ho hborn hkept
  rcases hkept' with ⟨n, hn⟩ | howed
  · exact .inl (hv.sound.onChain.receivedAt hn ho)
  · exact .inr (howed.awaits hv.sound ho hborn')

end Moves

def probe : Move ℕ := .begin 0 ⟨1, 30, 20, ⟨none, 0, 5, none, 0⟩, 5⟩ 0 0 [5] none

theorem probe_owes : ∃ t u v, run move knownWallet [probe] = some t ∧
    move t (.window 0 spentEnv) = some u ∧ run move u [.edit (.trim 1 7)] = some v ∧
      (ReceivedAt v.db 1 [5] (outpoint (sampleTxid 1) 0) 10 7 ∨
        ∃ r, Awaits spentChain v.db 1 [5] (outpoint (sampleTxid 1) 0) 10 7 r) := by
  refine ⟨_, _, _, rfl, rfl, rfl, ?_⟩
  refine @payment_never_lost ℕ _ spentChain spentDerive knownWallet _ _ _ (.window 0 spentEnv)
    [probe] [.edit (.trim 1 7)] 1 10 [5] (outpoint (sampleTxid 1) 0) 7 knownWallet_sound
    (fun _ => rfl) rfl rfl rfl ?_ (fun _ => (List.countP_le_length ..).trans_lt (by decide)) ?_
    (.inl ⟨_, _, rfl, rfl, rfl, by decide, by decide, rfl⟩) ⟨5, rfl, by decide⟩
    ⟨trivial, fun _ _ => trivial⟩
  · exact ⟨⟨rfl, rfl, nofun⟩, fun _ _ => ⟨spentEnv_honest, fun _ _ =>
      ⟨trivial, fun _ _ => trivial⟩⟩⟩
  · exact ⟨(10, paying 1), List.mem_cons_self, ⟨some [5], 7⟩, 0, rfl, rfl, rfl, rfl, rfl⟩

end ZcashSdk.Discovery
