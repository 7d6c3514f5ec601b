import ZcashSdk.Discovery.Walk

set_option autoImplicit false

/-!
# A walk touches its own address only

What the walk of one candidate writes is bound to the row of that candidate, so it changes
nothing that is read when another index of the scope is planned.
-/
namespace ZcashSdk.Discovery
open Tables Shielded Db Database

variable {H : Type} [DecidableEq H] {a : WalkArgs} {db d : Database H}

def WalkArgs.IsRow (a : WalkArgs) (r : AddressRow) : Prop :=
  r.account = a.account ∧ r.scope = a.scope ∧ r.dindex = a.dindex

/-- Only the candidate's row changes, and new notes are bound to it. -/
structure Untouched (a : WalkArgs) (db d : Database H) : Prop where
  accounts : d.accounts = db.accounts
  syncHeights : d.syncHeights = db.syncHeights
  incarnation : d.incarnation = db.incarnation
  trimCounter : d.trimCounter = db.trimCounter
  others : ∀ r, ¬ a.IsRow r → (r ∈ d.addresses.rows ↔ r ∈ db.addresses.rows)
  kept : ∀ r ∈ db.addresses.rows, a.IsRow r →
    ∃ r' ∈ d.addresses.rows, a.IsRow r' ∧ r'.idTaddress = r.idTaddress
  address : ∀ r ∈ d.addresses.rows, a.IsRow r → r.address = a.taddr ∨
    ∃ r' ∈ db.addresses.rows, a.IsRow r' ∧ r'.address = r.address
  notes : ∀ n ∈ db.notes.rows, n ∈ d.notes.rows
  newNotes : ∀ n ∈ d.notes.rows, n ∈ db.notes.rows ∨
    n.pool = 0 ∧ ∃ r ∈ d.addresses.rows, a.IsRow r ∧ n.taddress = some r.idTaddress

theorem Untouched.trans {e : Database H} (h : Untouched a db d) (h' : Untouched a d e) :
    Untouched a db e where
  accounts := h'.accounts.trans h.accounts
  syncHeights := h'.syncHeights.trans h.syncHeights
  incarnation := h'.incarnation.trans h.incarnation
  trimCounter := h'.trimCounter.trans h.trimCounter
  others r hr := (h'.others r hr).trans (h.others r hr)
  kept r hr hrow := by
    obtain ⟨s, hs, hsrow, hid⟩ := h.kept r hr hrow
    obtain ⟨t, ht, htrow, hid'⟩ := h'.kept s hs hsrow
    exact ⟨t, ht, htrow, hid'.trans hid⟩
  address r hr hrow := by
    rcases h'.address r hr hrow with heq | ⟨s, hs, hsrow, heq⟩
    · exact Or.inl heq
    · rcases h.address s hs hsrow with heq' | ⟨t, ht, htrow, heq'⟩
      · exact Or.inl (heq.symm.trans heq')
      · exact Or.inr ⟨t, ht, htrow, heq'.trans heq⟩
  notes n hn := h'.notes n (h.notes n hn)
  newNotes n hn := by
    rcases h'.newNotes n hn with hn | hn
    · rcases h.newNotes n hn with hn | ⟨hpool, r, hr, hrow, hid⟩
      · exact Or.inl hn
      · obtain ⟨s, hs, hsrow, hsid⟩ := h'.kept r hr hrow
        exact Or.inr ⟨hpool, s, hs, hsrow, hid.trans (congrArg some hsid.symm)⟩
    · exact Or.inr hn

theorem Untouched.of_same (haddr : d.addresses = db.addresses) (hnotes : d.notes = db.notes)
    (hacc : d.accounts = db.accounts) (hsync : d.syncHeights = db.syncHeights)
    (hinc : d.incarnation = db.incarnation) (htrim : d.trimCounter = db.trimCounter) :
    Untouched a db d where
  accounts := hacc
  syncHeights := hsync
  incarnation := hinc
  trimCounter := htrim
  others r _ := by rw [haddr]
  kept r hr hrow := ⟨r, haddr ▸ hr, hrow, rfl⟩
  address r hr hrow := Or.inr ⟨r, haddr ▸ hr, hrow, rfl⟩
  notes n hn := hnotes ▸ hn
  newNotes n hn := Or.inl (hnotes ▸ hn)

theorem Untouched.refl (db : Database H) : Untouched a db db := .of_same rfl rfl rfl rfl rfl rfl

theorem untouched_update (f : AddressRow → AddressRow)
    (hf : ∀ x y, Row.Clash (f x) (f y) → Row.Clash x y)
    (hother : ∀ r ∈ db.addresses.rows, ¬ a.IsRow r → f r = r)
    (hsame : ∀ r, (f r).idTaddress = r.idTaddress ∧ (f r).account = r.account ∧
      (f r).scope = r.scope ∧ (f r).dindex = r.dindex ∧ (f r).address = r.address) :
    Untouched a db { db with addresses := db.addresses.update f hf } := by
  have hrow (r : AddressRow) : a.IsRow (f r) ↔ a.IsRow r := by
    obtain ⟨-, hacc, hscope, hdindex, -⟩ := hsame r
    simp only [WalkArgs.IsRow, hacc, hscope, hdindex]
  refine ⟨rfl, rfl, rfl, rfl, fun r hr => ?_, fun r hr h => ?_, fun r hr h => ?_, fun n hn => hn,
    fun n hn => Or.inl hn⟩
  · rw [Table.mem_update]
    constructor
    · rintro ⟨s, hs, rfl⟩
      rw [hrow] at hr
      rwa [hother s hs hr]
    · exact fun hmem => ⟨r, hmem, hother r hmem hr⟩
  · exact ⟨f r, List.mem_map_of_mem hr, (hrow r).2 h, (hsame r).1⟩
  · obtain ⟨s, hs, rfl⟩ := List.mem_map.1 hr
    exact Or.inr ⟨s, hs, (hrow s).1 h, (hsame s).2.2.2.2.symm⟩

def IsRowId (a : WalkArgs) (db : Database H) (id : ℕ) : Prop :=
  ∃ r ∈ db.addresses.rows, a.IsRow r ∧ r.idTaddress = id

theorem IsRowId.isRow {id : ℕ} (h : IsRowId a db id) {r : AddressRow}
    (hr : r ∈ db.addresses.rows) (hid : r.idTaddress = id) : a.IsRow r := by
  obtain ⟨s, hs, hrow, hsid⟩ := h
  obtain rfl := db.addresses.eq_of_clash hr hs (Or.inl (hid.trans hsid.symm))
  exact hrow

theorem IsRowId.kept {id : ℕ} (h : IsRowId a db id) (hu : Untouched a db d) : IsRowId a d id := by
  obtain ⟨r, hr, hrow, rfl⟩ := h
  exact hu.kept r hr hrow

theorem isRowId_of_row {row : ℕ × Bytes}
    (h : db.transparentAddressRow a.account a.scope a.dindex = some row) : IsRowId a db row.1 := by
  obtain ⟨r, hfind, rfl⟩ := Option.map_eq_some_iff.1 h
  have hkey := List.find?_some hfind
  rw [decide_eq_true_eq] at hkey
  exact ⟨r, List.mem_of_find?_eq_some hfind, hkey, rfl⟩

theorem untouched_markSeenUsed {id : ℕ} (h : IsRowId a db id) :
    Untouched a db (markSeenUsed db id) := by
  refine untouched_update _ _ (fun r hr hrow => ?_) fun r => ?_
  · rw [if_neg fun hid => hrow (h.isRow hr hid)]
  · split <;> exact ⟨rfl, rfl, rfl, rfl, rfl⟩

theorem untouched_raiseCatchUpDebt {id : ℕ} (h : IsRowId a db id) (through : ℕ) :
    Untouched a db (db.raiseCatchUpDebt id through) := by
  refine untouched_update _ _ (fun r hr hrow => ?_) fun r => ?_
  · rw [if_neg fun hid => hrow (h.isRow hr hid)]
  · split <;> exact ⟨rfl, rfl, rfl, rfl, rfl⟩

theorem untouched_advance (db : Database H) (markerLo through : ℕ) : Untouched a db
    (db.advanceBackfilledHeight a.account a.birth a.scope a.dindex markerLo through) := by
  refine untouched_update _ _ (fun r _ hrow => ?_) fun r => ?_
  · rw [if_neg fun h => hrow h.1]
  · split <;> exact ⟨rfl, rfl, rfl, rfl, rfl⟩

theorem untouched_foldl {α : Type} (f : Database H → α → Database H)
    (P : Database H → Prop) (hf : ∀ db x, P db → Untouched a db (f db x))
    (hP : ∀ db d, P db → Untouched a db d → P d) (xs : List α) (db : Database H) (h : P db) :
    Untouched a db (xs.foldl f db) := by
  induction xs generalizing db with
  | nil => exact .refl db
  | cons x xs ih =>
    have hx := hf db x h
    exact hx.trans (ih (f db x) (hP _ _ h hx))

theorem untouched_writeNote {id : ℕ} (h : IsRowId a db id) (account : ℕ) (n : NoteItem) :
    Untouched a db (writeNote account id db n) := by
  obtain ⟨r, hr, hrow, hid⟩ := h
  -- each insertion keeps the notes there are, and binds the new one to the row
  have hfold : ∀ (ts : List TransactionRow) (notes : Table (NoteRow H)),
      (∀ m ∈ notes.rows, m ∈ (ts.foldl
        (fun notes t => notes.insertNewOrIgnore NoteRow.idNote fun i =>
          { idNote := i, height := n.height, account := account, pool := 0, scope := none,
            nullifier := .outpoint n.nullifier, tx := t.idTx, value := n.value, cmx := none,
            taddress := some id, position := none, diversifier := none, rcm := none,
            rho := none, idAsset := none, diversifierIndex := none }) notes).rows) ∧
      ∀ m ∈ (ts.foldl
        (fun notes t => notes.insertNewOrIgnore NoteRow.idNote fun i =>
          { idNote := i, height := n.height, account := account, pool := 0, scope := none,
            nullifier := .outpoint n.nullifier, tx := t.idTx, value := n.value, cmx := none,
            taddress := some id, position := none, diversifier := none, rcm := none,
            rho := none, idAsset := none, diversifierIndex := none }) notes).rows,
        m ∈ notes.rows ∨ m.pool = 0 ∧ m.taddress = some id := by
    intro ts
    induction ts with
    | nil => exact fun notes => ⟨fun m hm => hm, fun m hm => Or.inl hm⟩
    | cons t ts ih =>
      intro notes
      rw [List.foldl_cons]
      refine ⟨fun m hm => (ih _).1 m (Table.mem_insertOrIgnore_of_mem hm), fun m hm => ?_⟩
      rcases (ih _).2 m hm with hm | hm
      · rcases Table.mem_insertOrIgnore.1 hm with hm | ⟨rfl, -⟩
        · exact Or.inl hm
        · exact Or.inr ⟨rfl, rfl⟩
      · exact Or.inr hm
  obtain ⟨hmono, hnew⟩ := hfold (db.transactionsOf account n.txid) db.notes
  refine ⟨rfl, rfl, rfl, rfl, fun r _ => Iff.rfl, fun r hr h => ⟨r, hr, h, rfl⟩,
    fun r hr h => Or.inr ⟨r, hr, h, rfl⟩, hmono, fun m hm => ?_⟩
  rcases hnew m hm with hm | ⟨hpool, htaddr⟩
  · exact Or.inl hm
  · exact Or.inr ⟨hpool, r, hr, hrow, hid ▸ htaddr⟩

theorem untouched_writeTransparentWindow {id : ℕ} (h : IsRowId a db id) (account : ℕ)
    (rows : WindowRows) (used : Bool) :
    Untouched a db (writeTransparentWindow db account id rows used) := by
  have hused : Untouched a db (if used then markSeenUsed db id else db) := by
    split
    · exact untouched_markSeenUsed h
    · exact .refl db
  have htxs (d : Database H) :
      Untouched a d (rows.transactions.foldl (writeTransaction account) d) := by
    refine untouched_foldl _ (fun _ => True) (fun d t _ => ?_) (fun _ _ _ _ => trivial) _ _ trivial
    exact .of_same rfl rfl rfl rfl rfl rfl
  have hnotes (d : Database H) (hd : IsRowId a d id) :
      Untouched a d (rows.notes.foldl (writeNote account id) d) :=
    untouched_foldl _ (IsRowId a · id) (fun _ _ hp => untouched_writeNote hp account _)
      (fun _ _ hp hu => hp.kept hu) _ _ hd
  have hvins (d : Database H) : Untouched a d (rows.vins.foldl (writeSpend account) d) := by
    refine untouched_foldl _ (fun _ => True) (fun d v _ => ?_) (fun _ _ _ _ => trivial) _ _ trivial
    unfold writeSpend
    split
    · exact .of_same rfl rfl rfl rfl rfl rfl
    · exact .refl d
  have hstored := hused.trans (htxs _)
  exact (hstored.trans (hnotes _ (h.kept hstored))).trans (hvins _)

theorem untouched_fillMissingBlockTimes (env : Env) (lo hi : ℕ) (heights : List ℕ)
    (db : Database H) : Untouched a db (fillMissingBlockTimes env lo hi heights db).1 := by
  induction heights generalizing db with
  | nil => exact .refl db
  | cons h hs ih =>
    unfold fillMissingBlockTimes
    split
    · exact .refl db
    · exact .refl db
    · refine Untouched.trans ?_ (ih _)
      exact .of_same rfl rfl rfl rfl rfl rfl

theorem untouched_ingest (env : Env) {id : ℕ} (h : IsRowId a db id) (markerLo lo hi seam : ℕ)
    (f : Fetched) (intact : Bool) :
    Untouched a db (ingestBackfillWindow env a db id markerLo lo hi seam f intact).1 := by
  unfold ingestBackfillWindow
  split
  · exact .refl db
  · rename_i all hall
    dsimp only
    have hwritten := untouched_writeTransparentWindow h a.account (all.atOrBelow seam)
      (!all.transactions.isEmpty)
    generalize writeTransparentWindow db a.account id (all.atOrBelow seam)
      (!all.transactions.isEmpty) = d at hwritten ⊢
    generalize ((all.transactions.map Prod.snd).filter fun h => decide (seam < h)).max? = owed
    have hraised : Untouched a d (raiseOwed d id owed) := by
      cases owed with
      | none => exact .refl d
      | some through => exact untouched_raiseCatchUpDebt (h.kept hwritten) through
    generalize raiseOwed d id owed = e at hraised ⊢
    have hfilled := untouched_fillMissingBlockTimes (a := a) env lo hi
      (env.setOrder (heightsOfTransactionsWithoutTime e a.account lo (min hi seam))) e
    have hstored := (hwritten.trans hraised).trans hfilled
    split
    · rename_i hfill
      rwa [hfill] at hstored
    · rename_i hfill
      rw [hfill] at hstored
      split
      · exact hstored.trans (untouched_advance _ _ _)
      · exact hstored

theorem untouched_store (db : Database H) : Untouched a db
    (db.storeAccountTransparentAddr a.account a.scope a.dindex a.taddr) := by
  have hmem (r : AddressRow) :
      r ∈ (db.storeAccountTransparentAddr a.account a.scope a.dindex a.taddr).addresses.rows ↔ _ :=
    Table.mem_insertOrIgnore
  refine ⟨rfl, rfl, rfl, rfl, fun r hrow => ?_, fun r hr hrow => ?_, fun r hr hrow => ?_,
    fun n hn => hn, fun n hn => Or.inl hn⟩
  · rw [hmem]
    refine ⟨fun h => h.elim id fun h => ?_, Or.inl⟩
    exact absurd ⟨by rw [h.1], by rw [h.1], by rw [h.1]⟩ hrow
  · exact ⟨r, (hmem r).2 (Or.inl hr), hrow, rfl⟩
  · rcases (hmem r).1 hr with hr | ⟨rfl, -⟩
    · exact Or.inr ⟨r, hr, hrow, rfl⟩
    · exact Or.inl rfl

theorem untouched_walkWindow (env : Env) (identity : AccountIdentity) (db : Database H)
    (p : Progress) (markerLo lo hi : ℕ) (first : Option Fetched) :
    Untouched a db (walkWindow env a identity db p markerLo lo hi first).db := by
  unfold walkWindow
  split
  · exact .refl db
  · dsimp only
    split
    · exact .refl db
    · split
      · exact .refl db
      · split
        · exact .refl db
        · have hstored : Untouched a db
              (if (db.transparentAddressRow a.account a.scope a.dindex).isNone = true then
                db.storeAccountTransparentAddr a.account a.scope a.dindex a.taddr else db) := by
            split
            · exact untouched_store db
            · exact .refl db
          split
          · exact hstored
          · rename_i row hrow
            exact hstored.trans (untouched_ingest env (isRowId_of_row hrow) _ _ _ _ _ _)

theorem untouched_walkWindows (env : Env) (identity : AccountIdentity) (backfillEnd : ℕ)
    (p : Progress) (markerLo lo window : ℕ) (first : Option Fetched) (db : Database H) :
    Untouched a db
      (walkWindows env a identity backfillEnd p markerLo lo window first db).1 := by
  fun_induction walkWindows env a identity backfillEnd p markerLo lo window first db with
  | case1 p markerLo lo window first db hlo hi o hres ih =>
    exact (untouched_walkWindow env identity db p markerLo lo hi first).trans ih
  | case2 p markerLo lo window first db hlo hi o certified hres ih =>
    exact (untouched_walkWindow env identity db p markerLo lo hi first).trans ih
  | case3 p markerLo lo window first db hlo hi o e hres hnarrow ih =>
    exact (untouched_walkWindow env identity db p markerLo lo hi first).trans ih
  | case4 p markerLo lo window first db hlo hi o e hres hnarrow =>
    exact untouched_walkWindow env identity db p markerLo lo hi first
  | case5 => exact .refl _

theorem untouched_walkCandidate (env : Env) (identity : AccountIdentity)
    (row : Option (ℕ × Bytes)) (lo backfillEnd : ℕ) (first : Option Fetched) (db : Database H) :
    Untouched a db (walkCandidate env a identity row lo backfillEnd first db).1 :=
  untouched_walkWindows env identity backfillEnd _ _ _ _ first db

end ZcashSdk.Discovery
