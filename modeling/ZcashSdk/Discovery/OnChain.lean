import ZcashSdk.Discovery.SyncPass

set_option autoImplicit false

/-!
# A chain and what is stored of it

A server answers from one chain. What the database says of the chain is true, and a marker says
how far the history of its address is complete: from the birth of the account up to the marker
nothing is missing, neither a transaction nor an output nor a spend.
-/
namespace ZcashSdk.Discovery
open Tables Shielded Db Database Loops

variable {H : Type} [DecidableEq H]

/-! ### A chain -/

def outpoint (txid : Bytes) (i : ℕ) : Bytes := txid ++ le32 i

/-- Transactions with their heights. An output is spent by one transaction, which is not below
    the one that has it. -/
structure Chain where
  txs : List (ℕ × TransparentTx)
  txid : ∀ x ∈ txs, x.2.txid.length = 32
  outs : ∀ x ∈ txs, x.2.outs.length ≤ 2 ^ 32
  once : ∀ x ∈ txs, ∀ y ∈ txs, x.2.txid = y.2.txid → x = y
  spentOnce : ∀ x ∈ txs, ∀ i < x.2.outs.length, ∀ y ∈ txs, ∀ z ∈ txs,
    outpoint x.2.txid i ∈ y.2.prevouts → outpoint x.2.txid i ∈ z.2.prevouts → y = z
  spentLater : ∀ x ∈ txs, ∀ i < x.2.outs.length, ∀ y ∈ txs,
    outpoint x.2.txid i ∈ y.2.prevouts → x.1 ≤ y.1

namespace Chain
variable (C : Chain)

def Output (taddr o : Bytes) (height : ℕ) (value : ℤ) : Prop :=
  ∃ x ∈ C.txs, ∃ out i, x.2.outs[i]? = some out ∧ out.recipient = some taddr ∧
    o = outpoint x.2.txid i ∧ height = x.1 ∧ value = asI64 out.value

def Spent (o : Bytes) (height : ℕ) : Prop := ∃ x ∈ C.txs, o ∈ x.2.prevouts ∧ height = x.1

/-- The transactions a server has for an address: they pay it, or spend what paid it. -/
def Touches (taddr : Bytes) (x : ℕ × TransparentTx) : Prop :=
  (∃ out ∈ x.2.outs, out.recipient = some taddr) ∨
    ∃ o ∈ x.2.prevouts, ∃ height value, C.Output taddr o height value

def window (taddr : Bytes) (lo hi : ℕ) : Set (ℕ × TransparentTx) :=
  {x | x ∈ C.txs ∧ C.Touches taddr x ∧ lo ≤ x.1 ∧ x.1 ≤ hi}

variable {C} {taddr taddr' o : Bytes} {height height' : ℕ} {value value' : ℤ}

theorem Output.unique (h : C.Output taddr o height value) (h' : C.Output taddr' o height' value') :
    taddr = taddr' ∧ height = height' ∧ value = value' := by
  obtain ⟨x, hx, out, i, hout, hpays, rfl, rfl, rfl⟩ := h
  obtain ⟨y, hy, out', j, hout', hpays', heq, rfl, rfl⟩ := h'
  obtain ⟨htxid, hle⟩ := List.append_inj heq ((C.txid x hx).trans (C.txid y hy).symm)
  obtain rfl := C.once x hx y hy htxid
  have hi := (List.getElem?_eq_some_iff.1 hout).1
  have hj := (List.getElem?_eq_some_iff.1 hout').1
  have hlen := C.outs x hx
  obtain rfl : i = j := le32_injective (by omega) (by omega) hle
  rw [hout, Option.some.injEq] at hout'
  subst hout'
  rw [hpays, Option.some.injEq] at hpays'
  exact ⟨hpays', rfl, rfl⟩

theorem Output.spent_unique (h : C.Output taddr o height value) {s s' : ℕ} (hs : C.Spent o s)
    (hs' : C.Spent o s') : s = s' := by
  obtain ⟨x, hx, out, i, hout, -, rfl, -, -⟩ := h
  obtain ⟨y, hy, hoy, rfl⟩ := hs
  obtain ⟨z, hz, hoz, rfl⟩ := hs'
  rw [C.spentOnce x hx i (List.getElem?_eq_some_iff.1 hout).1 y hy z hz hoy hoz]

theorem Output.le_spent (h : C.Output taddr o height value) {s : ℕ} (hs : C.Spent o s) :
    height ≤ s := by
  obtain ⟨x, hx, out, i, hout, -, rfl, rfl, -⟩ := h
  obtain ⟨y, hy, hoy, rfl⟩ := hs
  exact C.spentLater x hx i (List.getElem?_eq_some_iff.1 hout).1 y hy hoy

theorem Output.touches (h : C.Output taddr o height value) :
    ∃ x ∈ C.txs, C.Touches taddr x ∧ height = x.1 := by
  obtain ⟨x, hx, out, i, hout, hpays, -, rfl, -⟩ := h
  exact ⟨x, hx, .inl ⟨out, List.mem_of_getElem? hout, hpays⟩, rfl⟩

theorem Output.spent_touches (h : C.Output taddr o height value) {s : ℕ} (hs : C.Spent o s) :
    ∃ x ∈ C.txs, C.Touches taddr x ∧ o ∈ x.2.prevouts ∧ s = x.1 := by
  obtain ⟨x, hx, hox, rfl⟩ := hs
  exact ⟨x, hx, .inr ⟨o, hox, height, value, h⟩, hox, rfl⟩

end Chain

/-- A reply that is complete is the truth; one that is refused, stalls or breaks off may come at
    any time. -/
def Env.Honest (env : Env) (C : Chain) : Prop :=
  ∀ taddr lo hi items, env.taddressTxs taddr lo hi = .stream items .closed →
    ∀ x, x ∈ items ↔ x ∈ C.window taddr lo hi

/-! ### What the database has of it -/

/-- A row without what says nothing about the history of the address. -/
def addressFace (r : AddressRow) : AddressRow :=
  { r with seenUsed := false, catchUpOwedThrough := none }

def txFace (t : TransactionRow) : ℕ × Bytes × ℕ := (t.account, t.txid, t.height)

/-- Rows of the transparent side are as the chain has them, and belong to one another. -/
structure OnChain (C : Chain) (db : Database H) : Prop where
  transaction : ∀ t ∈ db.transactions.rows, ∀ x ∈ C.txs, t.txid = x.2.txid → t.height = x.1
  note : ∀ n ∈ db.notes.rows, ∀ o, n.nullifier = .outpoint o → ∃ r ∈ db.addresses.rows,
    r.account = n.account ∧ n.taddress = some r.idTaddress ∧ C.Output r.address o n.height n.value
  spend : ∀ s ∈ db.spends.rows, ∃ n ∈ db.notes.rows, n.idNote = s.idNote ∧
    n.account = s.account ∧ n.height ≤ s.height ∧
    ∀ o, n.nullifier = .outpoint o → C.Spent o s.height
  pool : ∀ n ∈ db.notes.rows, ∀ o, n.nullifier = .outpoint o → n.pool = 0

def HasNote (db : Database H) (account : ℕ) (o : Bytes) (n : NoteRow H) : Prop :=
  n ∈ db.notes.rows ∧ n.account = account ∧ n.nullifier = .outpoint o

/-- Everything about an address from one height to another is stored for the account. -/
structure Known (C : Chain) (db : Database H) (account : ℕ) (taddr : Bytes) (birth through : ℕ) :
    Prop where
  transactions : ∀ x ∈ C.txs, C.Touches taddr x → birth ≤ x.1 → x.1 ≤ through →
    ∃ t ∈ db.transactions.rows, txFace t = (account, x.2.txid, x.1)
  outputs : ∀ o height value, C.Output taddr o height value → birth ≤ height → height ≤ through →
    ∃ n, HasNote db account o n
  spends : ∀ o height value s, C.Output taddr o height value → birth ≤ height → C.Spent o s →
    s ≤ through → ∃ n, HasNote db account o n ∧ ∃ row ∈ db.spends.rows, row.idNote = n.idNote

/-- What the addresses of an account depend on: the key that is stored with it, or, for a hardware
    wallet, which stores none, the account itself. -/
structure Owner where
  account : ℕ
  seedFingerprint : Option Bytes
  aindex : ℕ
  xvk : Option Bytes

def ownerOf (r : AccountRow) : Owner := ⟨r.idAccount, r.seedFingerprint, r.aindex, r.xvk⟩

def AccountIdentity.owner (identity : AccountIdentity) (account : ℕ) : Owner :=
  ⟨account, identity.seedFingerprint, identity.aindex, identity.xvk⟩

abbrev Derivation := Owner → (scope dindex : ℕ) → Option Bytes

theorem accountRow_id {db : Database H} {account : ℕ} {acc : AccountRow}
    (h : db.accountRow account = some acc) : acc.idAccount = account := by
  have hid := List.find?_some h
  rwa [decide_eq_true_eq] at hid

/-- Stored addresses are those of their account. -/
def Keyed (derive : Derivation) (db : Database H) : Prop :=
  ∀ r ∈ db.addresses.rows, ∀ acc, db.accountRow r.account = some acc →
    ∀ taddr, derive (ownerOf acc) r.scope r.dindex = some taddr → r.address = taddr

/-- Markers tell the truth about the chain. -/
structure MarkersSound (C : Chain) (derive : Derivation) (db : Database H) : Prop where
  onChain : OnChain C db
  keyed : Keyed derive db
  marked : ∀ r ∈ db.addresses.rows, ∀ through, r.backfilledHeight = some through →
    ∀ birth, db.getBirthHeight r.account = some birth →
      Known C db r.account r.address birth through

theorem exists_of_map_eq {α β : Type} {f : α → β} {l l' : List α} (h : l'.map f = l.map f) {a : α}
    (ha : a ∈ l) : ∃ a' ∈ l', f a' = f a := by
  have hmem : f a ∈ l'.map f := h ▸ List.mem_map_of_mem ha
  exact List.mem_map.1 hmem

section Rows
variable {C : Chain} {derive : Derivation} {db d e : Database H}

theorem HasNote.unique {account : ℕ} {o : Bytes} {m n : NoteRow H} (hm : HasNote db account o m)
    (hn : HasNote db account o n) : m = n :=
  db.notes.eq_of_clash hm.1 hn.1 (.inr ⟨hm.2.1.trans hn.2.1.symm, hm.2.2.trans hn.2.2.symm⟩)

theorem OnChain.note_height (h : OnChain C db) {account height : ℕ} {taddr o : Bytes} {value : ℤ}
    {n : NoteRow H} (hn : HasNote db account o n) (ho : C.Output taddr o height value) :
    n.height = height ∧ n.value = value := by
  obtain ⟨r, -, -, -, hout⟩ := h.note n hn.1 o hn.2.2
  exact (hout.unique ho).2

theorem OnChain.spend_height (h : OnChain C db) {account height s : ℕ} {taddr o : Bytes}
    {value : ℤ} {n : NoteRow H} (hn : HasNote db account o n) (ho : C.Output taddr o height value)
    (hs : C.Spent o s) {row : SpendRow} (hrow : row ∈ db.spends.rows)
    (hid : row.idNote = n.idNote) :
    row.account = account ∧ row.height = s := by
  obtain ⟨m, hm, hmid, hacc, -, hspent⟩ := h.spend row hrow
  obtain rfl : m = n := db.notes.eq_of_clash hm hn.1 (.inl (hmid.trans hid))
  exact ⟨hacc.symm.trans hn.2.1, ho.spent_unique (hspent o hn.2.2) hs⟩

structure KeepsUpTo (account height : ℕ) (db d : Database H) : Prop where
  transactions : ∀ t ∈ db.transactions.rows, t.account = account → t.height ≤ height →
    ∃ t' ∈ d.transactions.rows, txFace t' = txFace t
  notes : ∀ n ∈ db.notes.rows, n.account = account → n.height ≤ height → n ∈ d.notes.rows
  spends : ∀ s ∈ db.spends.rows, s.account = account → s.height ≤ height → s ∈ d.spends.rows

theorem Known.keep (h : OnChain C db) {account birth through height : ℕ} {taddr : Bytes}
    (hk : Known C db account taddr birth through) (hle : height ≤ through)
    (hkeep : KeepsUpTo account height db d) : Known C d account taddr birth height where
  transactions x hx htouch hb hle' := by
    obtain ⟨t, ht, hface⟩ := hk.transactions x hx htouch hb (hle'.trans hle)
    simp only [txFace, Prod.mk.injEq] at hface
    obtain ⟨hacc, htxid, hheight⟩ := hface
    obtain ⟨t', ht', hsame⟩ := hkeep.transactions t ht hacc (by omega)
    exact ⟨t', ht', hsame.trans (by simp only [txFace, hacc, htxid, hheight])⟩
  outputs o height' value ho hb hle' := by
    obtain ⟨n, hn⟩ := hk.outputs o height' value ho hb (hle'.trans hle)
    have hnh := (h.note_height hn ho).1
    exact ⟨n, hkeep.notes n hn.1 hn.2.1 (by omega), hn.2⟩
  spends o height' value s ho hb hs hle' := by
    obtain ⟨n, hn, row, hrow, hid⟩ := hk.spends o height' value s ho hb hs (hle'.trans hle)
    have hnh := (h.note_height hn ho).1
    have hrs := h.spend_height hn ho hs hrow hid
    have hos := ho.le_spent hs
    exact ⟨n, ⟨hkeep.notes n hn.1 hn.2.1 (by omega), hn.2⟩, row,
      hkeep.spends row hrow hrs.1 (by omega), hid⟩

/-! ### Changes that leave the record -/

structure SameRecord (db d : Database H) : Prop where
  accounts : d.accounts = db.accounts
  addresses : d.addresses.rows.map addressFace = db.addresses.rows.map addressFace
  transactions : d.transactions.rows.map txFace =
    db.transactions.rows.map txFace
  notes : d.notes = db.notes
  spends : d.spends = db.spends

theorem SameRecord.refl (db : Database H) : SameRecord db db := ⟨rfl, rfl, rfl, rfl, rfl⟩

theorem SameRecord.trans (h : SameRecord db d) (h' : SameRecord d e) : SameRecord db e :=
  ⟨h'.accounts.trans h.accounts, h'.addresses.trans h.addresses,
    h'.transactions.trans h.transactions, h'.notes.trans h.notes, h'.spends.trans h.spends⟩

theorem SameRecord.symm (h : SameRecord db d) : SameRecord d db :=
  ⟨h.accounts.symm, h.addresses.symm, h.transactions.symm, h.notes.symm, h.spends.symm⟩

theorem SameRecord.address (h : SameRecord db d) {r : AddressRow} (hr : r ∈ db.addresses.rows) :
    ∃ r' ∈ d.addresses.rows, addressFace r' = addressFace r :=
  exists_of_map_eq h.addresses hr

theorem SameRecord.transaction (h : SameRecord db d) {t : TransactionRow}
    (ht : t ∈ db.transactions.rows) : ∃ t' ∈ d.transactions.rows, txFace t' = txFace t :=
  exists_of_map_eq h.transactions ht

theorem SameRecord.keepsUpTo (h : SameRecord db d) (account height : ℕ) :
    KeepsUpTo account height db d :=
  ⟨fun _ ht _ _ => h.transaction ht, fun _ hn _ _ => h.notes ▸ hn, fun _ hs _ _ => h.spends ▸ hs⟩

theorem face_eq {r r' : AddressRow} (h : addressFace r' = addressFace r) :
    r'.idTaddress = r.idTaddress ∧ r'.account = r.account ∧ r'.scope = r.scope ∧
      r'.dindex = r.dindex ∧ r'.address = r.address ∧
        r'.backfilledHeight = r.backfilledHeight := by
  simp only [addressFace, AddressRow.mk.injEq] at h
  exact ⟨h.1, h.2.1, h.2.2.1, h.2.2.2.1, h.2.2.2.2.1, h.2.2.2.2.2.1⟩

structure Grows (db d : Database H) : Prop where
  accounts : d.accounts = db.accounts
  addresses : d.addresses.rows.map addressFace = db.addresses.rows.map addressFace
  keeps : ∀ account height, KeepsUpTo account height db d

theorem SameRecord.grows (h : SameRecord db d) : Grows db d :=
  ⟨h.accounts, h.addresses, h.keepsUpTo⟩

theorem Grows.birthHeight (h : Grows db d) (account : ℕ) :
    d.getBirthHeight account = db.getBirthHeight account := by
  unfold Database.getBirthHeight accountRow
  rw [h.accounts]

theorem Grows.row (h : Grows db d) {r : AddressRow} (hr : r ∈ d.addresses.rows) :
    ∃ r' ∈ db.addresses.rows, addressFace r' = addressFace r :=
  exists_of_map_eq h.addresses.symm hr

theorem Grows.sound (h : Grows db d) (hs : MarkersSound C derive db) (hon : OnChain C d) :
    MarkersSound C derive d where
  onChain := hon
  keyed r hr acc hacc taddr htaddr := by
    obtain ⟨r', hr', hface⟩ := h.row hr
    obtain ⟨-, haccount, hscope, hdindex, haddr, -⟩ := face_eq hface
    rw [accountRow, h.accounts, ← haccount] at hacc
    rw [← hscope, ← hdindex] at htaddr
    exact haddr.symm.trans (hs.keyed r' hr' acc hacc taddr htaddr)
  marked r hr through hm birth hb := by
    obtain ⟨r', hr', hface⟩ := h.row hr
    obtain ⟨-, hacc, -, -, haddr, hmarker⟩ := face_eq hface
    rw [h.birthHeight, ← hacc] at hb
    rw [← hacc, ← haddr]
    exact (hs.marked r' hr' through (hmarker.trans hm) birth hb).keep hs.onChain le_rfl
      (h.keeps _ _)

theorem SameRecord.onChain (h : SameRecord db d) (hc : OnChain C db) : OnChain C d where
  transaction t ht x hx htxid := by
    obtain ⟨t', ht', hface⟩ := h.symm.transaction ht
    simp only [txFace, Prod.mk.injEq] at hface
    rw [← hface.2.2]
    exact hc.transaction t' ht' x hx (hface.2.1.trans htxid)
  note n hn o ho := by
    obtain ⟨r, hr, hacc, hid, hout⟩ := hc.note n (h.notes ▸ hn) o ho
    obtain ⟨r', hr', hface⟩ := h.address hr
    obtain ⟨hid', hacc', -, -, haddr, -⟩ := face_eq hface
    exact ⟨r', hr', hacc'.trans hacc, by rw [hid, hid'], by rw [haddr]; exact hout⟩
  spend s hs := by
    rw [h.notes]
    exact hc.spend s (h.spends ▸ hs)
  pool n hn := hc.pool n (h.notes ▸ hn)

theorem SameRecord.sound (h : SameRecord db d) (hs : MarkersSound C derive db) :
    MarkersSound C derive d :=
  h.grows.sound hs (h.onChain hs.onChain)

end Rows

/-! ### What a window writes -/

section Windows
variable {C : Chain} {derive : Derivation} {db d : Database H}

theorem sameRecord_update (f : AddressRow → AddressRow)
    (hf : ∀ x y, Row.Clash (f x) (f y) → Row.Clash x y)
    (hface : ∀ r, addressFace (f r) = addressFace r) :
    SameRecord db { db with addresses := db.addresses.update f hf } := by
  refine ⟨rfl, ?_, rfl, rfl, rfl⟩
  change (db.addresses.rows.map f).map addressFace = _
  rw [List.map_map]
  exact List.map_congr_left fun r _ => hface r

theorem sameRecord_markSeenUsed (id : ℕ) : SameRecord db (markSeenUsed db id) := by
  refine sameRecord_update _ _ fun r => ?_
  split <;> rfl

theorem sameRecord_raiseOwed (id : ℕ) (owed : Option ℕ) : SameRecord db (raiseOwed db id owed) := by
  cases owed with
  | none => exact .refl db
  | some through =>
    refine sameRecord_update _ _ fun r => ?_
    split <;> rfl

theorem sameRecord_fillMissingBlockTimes (env : Env) (lo hi : ℕ) (heights : List ℕ)
    (db : Database H) : SameRecord db (fillMissingBlockTimes env lo hi heights db).1 := by
  induction heights generalizing db with
  | nil => exact .refl db
  | cons h hs ih =>
    unfold fillMissingBlockTimes
    split
    · exact .refl db
    · exact .refl db
    · rename_i hash time _
      refine SameRecord.trans ?_ (ih _)
      refine ⟨rfl, rfl, ?_, rfl, rfl⟩
      change (db.transactions.rows.map (setBlockTime h time)).map txFace = _
      rw [List.map_map]
      refine List.map_congr_left fun t _ => ?_
      simp only [Function.comp_apply, setBlockTime]
      split <;> rfl

theorem write_tables (db : Database H) (account id : ℕ) (rows : WindowRows) (used : Bool) :
    (writeTransparentWindow db account id rows used).accounts = db.accounts ∧
      (writeTransparentWindow db account id rows used).addresses =
        (if used then markSeenUsed db id else db).addresses := by
  unfold writeTransparentWindow
  dsimp only
  generalize hused : (if used = true then markSeenUsed db id else db) = d₀
  have haccounts : d₀.accounts = db.accounts := by
    rw [← hused]
    split <;> rfl
  refine foldl_inv (f := writeSpend account) (I := fun e : Database H =>
    e.accounts = db.accounts ∧ e.addresses = d₀.addresses) (fun e v _ he => ?_) ?_
  · unfold writeSpend
    split <;> exact he
  · refine foldl_inv (f := writeNote account id) (I := fun e : Database H =>
      e.accounts = db.accounts ∧ e.addresses = d₀.addresses) (fun _ _ _ he => he) ?_
    exact foldl_inv (f := writeTransaction account) (I := fun e : Database H =>
      e.accounts = db.accounts ∧ e.addresses = d₀.addresses) (fun _ _ _ he => he) ⟨haccounts, rfl⟩

theorem write_face (db : Database H) (account id : ℕ) (rows : WindowRows) (used : Bool) :
    (writeTransparentWindow db account id rows used).addresses.rows.map addressFace =
      db.addresses.rows.map addressFace := by
  rw [(write_tables db account id rows used).2]
  split
  · exact (sameRecord_markSeenUsed id).addresses
  · rfl

def RowOf (db : Database H) (account id : ℕ) (taddr : Bytes) : Prop :=
  ∃ r ∈ db.addresses.rows, r.idTaddress = id ∧ r.account = account ∧ r.address = taddr

theorem RowOf.of_face {account id : ℕ} {taddr : Bytes} (h : RowOf db account id taddr)
    (hface : d.addresses.rows.map addressFace = db.addresses.rows.map addressFace) :
    RowOf d account id taddr := by
  obtain ⟨r, hr, hid, hacc, haddr⟩ := h
  obtain ⟨r', hr', heq⟩ := exists_of_map_eq hface hr
  obtain ⟨hid', hacc', -, -, haddr', -⟩ := face_eq heq
  exact ⟨r', hr', hid'.trans hid, hacc'.trans hacc, haddr'.trans haddr⟩

variable {account id lo hi cut : ℕ} {taddr : Bytes} {rows : WindowRows}

def Chain.below (C : Chain) (taddr : Bytes) (lo hi cut id : ℕ) : Delivered :=
  windowDelivered (C.window taddr lo hi) taddr cut id

theorem OnChain.written (h : OnChain C db) (hrow : RowOf db account id taddr)
    (hadds : Adds (C.below taddr lo hi cut id) account db d)
    (hface : d.addresses.rows.map addressFace = db.addresses.rows.map addressFace) :
    OnChain C d := by
  have hnote : ∀ n ∈ d.notes.rows, ∀ o, n.nullifier = .outpoint o → ∃ r ∈ d.addresses.rows,
      r.account = n.account ∧ n.taddress = some r.idTaddress ∧
        C.Output r.address o n.height n.value := by
    intro n hn o ho
    rcases hadds.newNote n hn with hold | ⟨m, ⟨hid, x, hx, -, hm⟩, t, -, -, -, hnm⟩
    · obtain ⟨r, hr, hacc, htaddr, hout⟩ := h.note n hold o ho
      obtain ⟨r', hr', heq⟩ := exists_of_map_eq hface hr
      obtain ⟨hid', hacc', -, -, haddr, -⟩ := face_eq heq
      exact ⟨r', hr', hacc'.trans hacc, by rw [htaddr, hid'], by rw [haddr]; exact hout⟩
    · obtain ⟨r, hr, hrid, hacc, haddr⟩ := hrow.of_face hface
      obtain ⟨out, k, hk, hpays, hitem⟩ := mem_noteItems.1 hm
      rw [hnm] at ho ⊢
      obtain rfl := NullifierKey.outpoint.inj ho
      refine ⟨r, hr, hacc, by rw [hrid]; exact congrArg some hid, ?_⟩
      rw [haddr]
      exact ⟨x, hx.1, out, k, hk, hpays, by rw [hitem]; rfl, by simp only [transparentNote, hitem],
        by simp only [transparentNote, hitem]⟩
  refine ⟨fun t ht y hy htxid => ?_, hnote, fun s hs => ?_, fun n hn o ho => ?_⟩
  · rcases hadds.newTx t ht with hold | ⟨p, ⟨x, hx, -, rfl⟩, hnew⟩
    · exact h.transaction t hold y hy htxid
    · rw [hnew] at htxid ⊢
      rw [← C.once x hx.1 y hy htxid]
  · rcases hadds.newSpend s hs with hold | ⟨v, ⟨x, hx, -, hv⟩, n, hn, hacc, hnf, t, -, -, -, rfl⟩
    · obtain ⟨n, hn, hrest⟩ := h.spend s hold
      exact ⟨n, hadds.keptNote n hn, hrest⟩
    · obtain ⟨o, ho, rfl⟩ := mem_vinItems.1 hv
      obtain ⟨r, -, -, -, hout⟩ := hnote n hn o hnf
      refine ⟨n, hn, rfl, hacc, hout.le_spent ⟨x, hx.1, ho, rfl⟩, fun o' ho' => ?_⟩
      obtain rfl := NullifierKey.outpoint.inj (ho'.symm.trans hnf)
      exact ⟨x, hx.1, ho, rfl⟩
  · rcases hadds.newNote n hn with hold | ⟨m, -, t, -, -, -, hnm⟩
    · exact h.pool n hold o ho
    · rw [hnm]
      rfl

/-- What a range of heights has of an address is stored; a note that was there before is spent
    where the range says so. -/
structure Filed (C : Chain) (db : Database H) (account : ℕ) (taddr : Bytes) (lo hi : ℕ) : Prop where
  transactions : ∀ x ∈ C.txs, C.Touches taddr x → lo ≤ x.1 → x.1 ≤ hi →
    ∃ t ∈ db.transactions.rows, txFace t = (account, x.2.txid, x.1)
  outputs : ∀ o height value, C.Output taddr o height value → lo ≤ height → height ≤ hi →
    ∃ n, HasNote db account o n
  spends : ∀ o height value s, C.Output taddr o height value → C.Spent o s → lo ≤ s → s ≤ hi →
    ∀ n, HasNote db account o n → ∃ row ∈ db.spends.rows, row.idNote = n.idNote

theorem Filed.of_stores (hon : OnChain C d)
    (h : Stores (C.below taddr lo hi cut id) account d) :
    Filed C d account taddr lo (min hi cut) where
  transactions x hx htouch hlo hle := by
    obtain ⟨t, ht, hacc, htxid⟩ := h.transactions (x.2.txid, x.1)
      ⟨x, ⟨hx, htouch, hlo, by omega⟩, by omega, rfl⟩
    have hheight := hon.transaction t ht x hx htxid
    dsimp only at htxid
    exact ⟨t, ht, by rw [txFace, hacc, htxid, hheight]⟩
  outputs o height value ho hlo hle := by
    obtain ⟨x, hx, out, k, hk, hpays, rfl, rfl, rfl⟩ := ho
    have htouch : C.Touches taddr x := .inl ⟨out, List.mem_of_getElem? hk, hpays⟩
    obtain ⟨n, hn, hacc, hnf⟩ := h.notes
      (id, ⟨x.2.txid, x.1, x.2.txid ++ le32 k, asI64 out.value⟩)
      ⟨rfl, x, ⟨hx, htouch, hlo, by omega⟩, by omega, mem_noteItems.2 ⟨out, k, hk, hpays, rfl⟩⟩
    exact ⟨n, hn, hacc, hnf⟩
  spends o height value s ho hs hlo hle n hn := by
    obtain ⟨x, hx, htouch, hox, rfl⟩ := ho.spent_touches hs
    exact h.spends ⟨x.2.txid, x.1, o⟩ ⟨x, ⟨hx, htouch, hlo, by omega⟩, by omega,
      mem_vinItems.2 ⟨o, hox, rfl⟩⟩ n hn.1 hn.2.1 hn.2.2

theorem write_grows (db : Database H) (account id : ℕ) (rows : WindowRows) (used : Bool) :
    Grows db (writeTransparentWindow db account id rows used) := by
  have hadds : Adds _ account db (writeTransparentWindow db account id rows used) :=
    adds_write db used
  exact ⟨(write_tables db account id rows used).1, write_face db account id rows used,
    fun _ _ => ⟨fun t ht _ _ => ⟨t, hadds.keptTx t ht, rfl⟩, fun n hn _ _ => hadds.keptNote n hn,
      fun s hs _ _ => hadds.keptSpend s hs⟩⟩

/-- A window of the chain is written: what it has is stored, and all markers stay true. -/
theorem write_sound (hs : MarkersSound C derive db) (hrow : RowOf db account id taddr)
    (hw : Delivers (C.window taddr lo hi) taddr cut rows) (used : Bool) :
    MarkersSound C derive (writeTransparentWindow db account id rows used) ∧
      Filed C (writeTransparentWindow db account id rows used) account taddr lo (min hi cut) := by
  have hadds : Adds (C.below taddr lo hi cut id) account db _ :=
    delivered_eq hw ▸ adds_write db used
  have hstores : Stores (C.below taddr lo hi cut id) account _ :=
    delivered_eq hw ▸ stores_write (closed_of_delivers hw) db used
  have hon := hs.onChain.written hrow hadds (write_face db account id rows used)
  exact ⟨(write_grows db account id rows used).sound hs hon, .of_stores hon hstores⟩

theorem Filed.same (h : Filed C db account taddr lo hi) (hsame : SameRecord db d) :
    Filed C d account taddr lo hi where
  transactions x hx htouch hlo hle := by
    obtain ⟨t, ht, hface⟩ := h.transactions x hx htouch hlo hle
    obtain ⟨t', ht', heq⟩ := hsame.transaction ht
    exact ⟨t', ht', heq.trans hface⟩
  outputs o height value ho hlo hle := by
    obtain ⟨n, hn⟩ := h.outputs o height value ho hlo hle
    exact ⟨n, hsame.notes ▸ hn.1, hn.2⟩
  spends o height value s ho hs hlo hle n hn := by
    obtain ⟨row, hrow, hid⟩ := h.spends o height value s ho hs hlo hle n ⟨hsame.notes ▸ hn.1, hn.2⟩
    exact ⟨row, hsame.spends ▸ hrow, hid⟩

theorem Known.extend {birth through : ℕ} (marker : Option ℕ)
    (hfiled : Filed C db account taddr lo through)
    (hknown : ∀ m, marker = some m → Known C db account taddr birth m)
    (hjoin : ∀ x ∈ C.txs, C.Touches taddr x → birth ≤ x.1 →
      (∃ m, marker = some m ∧ x.1 ≤ m) ∨ lo ≤ x.1) :
    Known C db account taddr birth through := by
  have houtputs : ∀ o height value, C.Output taddr o height value → birth ≤ height →
      height ≤ through → ∃ n, HasNote db account o n := by
    intro o height value ho hb hle
    obtain ⟨x, hx, htouch, rfl⟩ := ho.touches
    rcases hjoin x hx htouch hb with ⟨m, hm, hxm⟩ | hlo
    · exact (hknown m hm).outputs o x.1 value ho hb hxm
    · exact hfiled.outputs o x.1 value ho hlo hle
  refine ⟨fun x hx htouch hb hle => ?_, houtputs, fun o height value s ho hb hs hle => ?_⟩
  · rcases hjoin x hx htouch hb with ⟨m, hm, hxm⟩ | hlo
    · exact (hknown m hm).transactions x hx htouch hb hxm
    · exact hfiled.transactions x hx htouch hlo hle
  · have hos := ho.le_spent hs
    obtain ⟨x, hx, htouch, -, rfl⟩ := ho.spent_touches hs
    rcases hjoin x hx htouch (by omega) with ⟨m, hm, hxm⟩ | hlo
    · exact (hknown m hm).spends o height value x.1 ho hb hs hxm
    · obtain ⟨n, hn⟩ := houtputs o height value ho hb (by omega)
      obtain ⟨row, hrow, hid⟩ := hfiled.spends o height value x.1 ho hs hlo hle n hn
      exact ⟨n, hn, row, hrow, hid⟩

/-- The row of the index moves its marker if what was covered joins it; the others stay. -/
theorem mem_advance {account birth scope dindex coveredFrom through : ℕ} {r' : AddressRow}
    (h : r' ∈ (db.advanceBackfilledHeight account birth scope dindex coveredFrom
      through).addresses.rows) : ∃ r ∈ db.addresses.rows,
    r' = r ∨ r' = { r with backfilledHeight := some through } ∧
      (r.account = account ∧ r.scope = scope ∧ r.dindex = dindex) ∧
      coveredFrom ≤ max ((r.backfilledHeight.map (· + 1)).getD 0) birth := by
  obtain ⟨r, hr, rfl⟩ := List.mem_map.1 h
  refine ⟨r, hr, ?_⟩
  split
  · rename_i hcond
    exact .inr ⟨rfl, hcond.1, hcond.2.1⟩
  · exact .inl rfl

/-- A marker moves over heights that are filed; below them it was there already, or the chain has
    nothing of the address. -/
theorem advance_sound (hs : MarkersSound C derive db) {birth scope dindex coveredFrom through : ℕ}
    (hb : db.getBirthHeight account = some birth)
    (haddr : ∀ r ∈ db.addresses.rows, r.account = account → r.scope = scope → r.dindex = dindex →
      r.address = taddr)
    (hfiled : Filed C db account taddr lo through)
    (hquiet : ∀ x ∈ C.txs, C.Touches taddr x → coveredFrom ≤ x.1 → lo ≤ x.1) :
    MarkersSound C derive
      (db.advanceBackfilledHeight account birth scope dindex coveredFrom through) := by
  have hkeeps : ∀ a height, KeepsUpTo a height db
      (db.advanceBackfilledHeight account birth scope dindex coveredFrom through) :=
    fun _ _ => ⟨fun t ht _ _ => ⟨t, ht, rfl⟩, fun _ hn _ _ => hn, fun _ hs _ _ => hs⟩
  refine ⟨⟨hs.onChain.transaction, fun n hn o ho => ?_, hs.onChain.spend, hs.onChain.pool⟩,
    fun r' hr' acc hacc taddr' htaddr => ?_, fun r' hr' m hm birth' hb' => ?_⟩
  · obtain ⟨r, hr, hacc, hid, hout⟩ := hs.onChain.note n hn o ho
    refine ⟨_, List.mem_map_of_mem hr, ?_⟩
    split <;> exact ⟨hacc, hid, hout⟩
  · obtain ⟨r, hr, rfl | ⟨rfl, -⟩⟩ := mem_advance hr'
    · exact hs.keyed r' hr acc hacc taddr' htaddr
    · exact hs.keyed r hr acc hacc taddr' htaddr
  · obtain ⟨r, hr, rfl | ⟨rfl, hkey, hfrom⟩⟩ := mem_advance hr'
    · exact (hs.marked r' hr m hm birth' hb').keep hs.onChain le_rfl (hkeeps _ _)
    · obtain rfl := Option.some.inj hm
      obtain rfl := haddr r hr hkey.1 hkey.2.1 hkey.2.2
      obtain rfl := hkey.1
      obtain rfl : birth' = birth := Option.some.inj (hb'.symm.trans hb)
      have hfiled' : Filed C (db.advanceBackfilledHeight r.account birth' scope dindex coveredFrom
          through) r.account r.address lo through :=
        ⟨hfiled.transactions, hfiled.outputs, hfiled.spends⟩
      refine Known.extend r.backfilledHeight hfiled' (fun m hm => ?_) fun x hx htouch hbx => ?_
      · exact (hs.marked r hr m hm birth' hb).keep hs.onChain le_rfl (hkeeps _ _)
      · cases hmk : r.backfilledHeight with
        | none =>
          rw [hmk, Option.map_none, Option.getD_none] at hfrom
          exact .inr (hquiet x hx htouch (by omega))
        | some m =>
          rw [hmk, Option.map_some, Option.getD_some] at hfrom
          by_cases hxm : x.1 ≤ m
          · exact .inl ⟨m, rfl, hxm⟩
          · exact .inr (hquiet x hx htouch (by omega))

end Windows

end ZcashSdk.Discovery
