import ZcashSdk.History.Queries

set_option autoImplicit false

/-!
# What the history repeats

A row of the history comes back as often as the rows it is joined with match. The joins on
primary keys match once at most; the others are what the history depends on.
-/
namespace ZcashSdk.History
open Tables Joins

variable {H : Type} [DecidableEq H] {db : Database H} {account idTx : ℕ}

/-! ### What is to be shown -/

/-- Every transaction once, and with each every note, output and spend once. -/
structure HistoryExact (db : Database H) (account : ℕ) : Prop where
  txs : ((db.fetchTxs account).map fun tx => tx.id).Perm
    ((db.transactionsOf account).map fun t => t.idTx)
  details : ∀ t ∈ db.transactionsOf account, ∃ d, db.getTxDetails account t.idTx = .ok d ∧
    (d.notes.map TxNote.id).Perm ((db.notesOf account t.idTx).map Db.NoteRow.idNote) ∧
    (d.outputs.map TxOutput.id).Perm ((db.outputsOf account t.idTx).map OutputRow.idOutput) ∧
    (d.spends.map TxSpend.id).Perm ((db.spendsOf account t.idTx).map Db.SpendRow.idNote)

/-- An output of the transaction, of whatever account, goes to a receiver of the contact. -/
def PaysContact (db : Database H) (t : TransactionRow) (c : Contacts.ContactRow) : Prop :=
  ∃ o ∈ db.outputs.rows, o.tx = t.idTx ∧ ∃ a ∈ db.contacts.addresses.rows,
    o.address = a.receiver ∧ o.pool = a.pool ∧ a.contactId = c.idContact

/-- Nothing that is joined other than by its primary key is there twice, and no spend lacks its
    note. -/
structure SingleMatches (db : Database H) (account : ℕ) : Prop where
  contact : ∀ t ∈ db.transactionsOf account, ∀ c ∈ db.contacts.contacts.rows,
    ∀ c' ∈ db.contacts.contacts.rows, PaysContact db t c → PaysContact db t c' → c = c'
  memo : ∀ t ∈ db.transactionsOf account, ∀ n ∈ db.notesOf account t.idTx, ∀ m ∈ db.memos.rows,
    ∀ m' ∈ db.memos.rows, m.note = some n.idNote → m'.note = some n.idNote → m = m'
  address : ∀ t ∈ db.transactionsOf account, ∀ o ∈ db.outputsOf account t.idTx,
    ∀ a ∈ db.contacts.addresses.rows, ∀ a' ∈ db.contacts.addresses.rows,
    o.address = a.receiver ∧ o.pool = a.pool → o.address = a'.receiver ∧ o.pool = a'.pool → a = a'
  note : ∀ t ∈ db.transactionsOf account, ∀ s ∈ db.spendsOf account t.idTx,
    ∃ n ∈ db.notes.rows, s.idNote = n.idNote

/-! ### Primary keys -/

theorem matching_of_clash {α R : Type} [Row R] (t : Table R) (p : α → R → Bool)
    (hp : ∀ x a b, p x a = true → p x b = true → Row.Clash a b) (x : α) :
    (matching p t.rows x).length ≤ 1 :=
  (length_filter_le_one_iff t.nodup (p x)).2 fun a ha b hb hpa hpb =>
    t.eq_of_clash ha hb (hp x a b hpa hpb)

theorem matching_le_one_iff {α R : Type} [Row R] (t : Table R) (p : α → R → Bool) (x : α) :
    (matching p t.rows x).length ≤ 1 ↔
      ∀ a ∈ t.rows, ∀ b ∈ t.rows, p x a = true → p x b = true → a = b :=
  length_filter_le_one_iff t.nodup (p x)

theorem hasCategory_clash (t : TransactionRow) (a b : CategoryRow)
    (ha : Database.hasCategory t a = true) (hb : Database.hasCategory t b = true) :
    Row.Clash a b := by
  rw [Database.hasCategory, decide_eq_true_eq] at ha hb
  exact Or.inl (Option.some.inj (ha.symm.trans hb))

theorem hasAsset_clash (idAsset : Option ℕ) (a b : AssetRow)
    (ha : Database.hasAsset idAsset a = true) (hb : Database.hasAsset idAsset b = true) :
    Row.Clash a b := by
  rw [Database.hasAsset, decide_eq_true_eq] at ha hb
  exact Or.inl (Option.some.inj (ha.symm.trans hb))

theorem hasUserMemo_clash (t : TransactionRow) (a b : Db.UserMemoRow)
    (ha : Database.hasUserMemo t a = true) (hb : Database.hasUserMemo t b = true) :
    Row.Clash a b := by
  rw [Database.hasUserMemo, decide_eq_true_eq] at ha hb
  exact ⟨ha.2.trans hb.2.symm, ha.1.trans hb.1.symm⟩

theorem isOwner_clash (r : Option Contacts.ContactAddressRow) (a b : Contacts.ContactRow)
    (ha : Database.isOwner r a = true) (hb : Database.isOwner r b = true) : Row.Clash a b := by
  rw [Database.isOwner, decide_eq_true_eq] at ha hb
  exact Or.inl (Option.some.inj (ha.symm.trans hb))

theorem spendsNote_clash (s : Db.SpendRow) (a b : Db.NoteRow H)
    (ha : Database.spendsNote s a = true) (hb : Database.spendsNote s b = true) :
    Row.Clash a b := by
  rw [Database.spendsNote, decide_eq_true_eq] at ha hb
  exact Or.inl (ha.symm.trans hb)

/-- A join on a key changes nothing in the rows it starts from. -/
theorem leftJoin_table_map {α γ R : Type} [Row R] (t : Table R) {p : α → R → Bool}
    (hp : ∀ x a b, p x a = true → p x b = true → Row.Clash a b) (as : List α) (f : α → γ) :
    (leftJoin p as t.rows).map (fun r => f r.1) = as.map f := by
  have hfst := leftJoin_map_fst fun a (_ : a ∈ as) => matching_of_clash t p hp a
  have hmap := congrArg (List.map f) hfst
  rwa [List.map_map] at hmap

/-! ### The list -/

theorem withMemo_map (db : Database H) (account : ℕ) :
    (db.withMemo account).map Database.MemoRecord.tx = db.transactionsOf account := by
  have hcategory := leftJoin_table_map db.categories hasCategory_clash
    (db.transactionsOf account) id
  have hasset := leftJoin_table_map db.assets
    (fun r : TransactionRow × Option CategoryRow => hasAsset_clash r.1.summary.assetId)
    (leftJoin Database.hasCategory (db.transactionsOf account) db.categories.rows) fun r => r.1
  have hmemo := leftJoin_table_map db.userMemos
    (fun r : (TransactionRow × Option CategoryRow) × Option AssetRow => hasUserMemo_clash r.1.1)
    (leftJoin (fun r : TransactionRow × Option CategoryRow =>
        Database.hasAsset r.1.summary.assetId)
      (leftJoin Database.hasCategory (db.transactionsOf account) db.categories.rows)
      db.assets.rows) fun r => r.1.1
  exact ((hmemo.trans hasset).trans hcategory).trans (List.map_id _)

theorem mem_contactedTxs {oc : ℕ × String} {t : TransactionRow} (ht : oc.1 = t.idTx) :
    oc ∈ db.contactedTxs ↔ ∃ c ∈ db.contacts.contacts.rows, c.name = oc.2 ∧ PaysContact db t c := by
  simp only [Database.contactedTxs, List.mem_dedup, List.mem_map, mem_innerJoin, Database.paysTo,
    Database.isOwner, Option.map_some, Option.some.injEq, decide_eq_true_eq]
  constructor
  · rintro ⟨⟨⟨o, a⟩, c⟩, ⟨⟨ho, ha, hpays⟩, hc, howner⟩, rfl⟩
    exact ⟨c, hc, rfl, o, ho, ht, a, ha, hpays.1, hpays.2, howner⟩
  · rintro ⟨c, hc, hname, o, ho, htx, a, ha, haddress, hpool, howner⟩
    refine ⟨((o, a), c), ⟨⟨ho, ha, haddress, hpool⟩, hc, howner⟩, ?_⟩
    exact Prod.ext (htx.trans ht.symm) hname

theorem contacted_le_one_iff (db : Database H) (t : TransactionRow) :
    (matching Database.isContacted db.contactedTxs t).length ≤ 1 ↔
      ∀ c ∈ db.contacts.contacts.rows, ∀ c' ∈ db.contacts.contacts.rows,
        PaysContact db t c → PaysContact db t c' → c = c' := by
  refine (length_filter_le_one_iff (List.nodup_dedup _) (Database.isContacted t)).trans ?_
  constructor
  · intro h c hc c' hc' hpays hpays'
    have hmem : (t.idTx, c.name) ∈ db.contactedTxs :=
      (mem_contactedTxs rfl).2 ⟨c, hc, rfl, hpays⟩
    have hmem' : (t.idTx, c'.name) ∈ db.contactedTxs :=
      (mem_contactedTxs rfl).2 ⟨c', hc', rfl, hpays'⟩
    have hsame := h _ hmem _ hmem' (decide_eq_true rfl) (decide_eq_true rfl)
    exact db.contacts.contacts.eq_of_clash hc hc' (Or.inr (Prod.ext_iff.1 hsame).2)
  · intro h oc hoc oc' hoc' htx htx'
    have ht := of_decide_eq_true htx
    have ht' := of_decide_eq_true htx'
    obtain ⟨c, hc, hname, hpays⟩ := (mem_contactedTxs ht).1 hoc
    obtain ⟨c', hc', hname', hpays'⟩ := (mem_contactedTxs ht').1 hoc'
    obtain rfl := h c hc c' hc' hpays hpays'
    exact Prod.ext (ht.trans ht'.symm) (hname.symm.trans hname')

theorem fetchTxs_perm_iff (db : Database H) (account : ℕ) :
    ((db.fetchTxs account).map fun tx => tx.id).Perm
        ((db.transactionsOf account).map fun t => t.idTx) ↔
      ∀ t ∈ db.transactionsOf account, ∀ c ∈ db.contacts.contacts.rows,
        ∀ c' ∈ db.contacts.contacts.rows, PaysContact db t c → PaysContact db t c' → c = c' := by
  have hids : ((db.fetchTxs account).map fun tx => tx.id).Perm
      ((db.txRecords account).map fun r => (Database.MemoRecord.tx r.1).idTx) := by
    rw [Database.fetchTxs, List.map_map]
    exact (List.perm_insertionSort _ _).map _
  have hjoin : ((db.txRecords account).map fun r => (Database.MemoRecord.tx r.1).idTx).Perm
      ((db.withMemo account).map fun r => (Database.MemoRecord.tx r).idTx) ↔ _ :=
    leftJoin_perm_iff fun r => (Database.MemoRecord.tx r).idTx
  have htxs : ((db.withMemo account).map fun r => (Database.MemoRecord.tx r).idTx) =
      (db.transactionsOf account).map fun t => t.idTx := by
    rw [← withMemo_map, List.map_map]
    rfl
  rw [hids.congr_left, ← htxs, hjoin, ← withMemo_map, List.forall_mem_map]
  exact forall₂_congr fun r _ => contacted_le_one_iff db (Database.MemoRecord.tx r)

/-! ### The details -/

theorem txNotes_perm_iff (db : Database H) (account idTx : ℕ) :
    ((db.txNotes account idTx).map TxNote.id).Perm
        ((db.notesOf account idTx).map Db.NoteRow.idNote) ↔
      ∀ n ∈ db.notesOf account idTx, ∀ m ∈ db.memos.rows, ∀ m' ∈ db.memos.rows,
        m.note = some n.idNote → m'.note = some n.idNote → m = m' := by
  have hids : (db.txNotes account idTx).map TxNote.id =
      (leftJoin Database.hasMemo (db.notesOf account idTx) db.memos.rows).map
        fun r => r.1.idNote := by
    rw [Database.txNotes, List.map_map]
    exact leftJoin_table_map db.assets
      (fun r : Db.NoteRow H × Option MemoRow => hasAsset_clash r.1.idAsset)
      (leftJoin Database.hasMemo (db.notesOf account idTx) db.memos.rows) fun r => r.1.idNote
  rw [hids]
  refine (leftJoin_perm_iff Db.NoteRow.idNote).trans ?_
  refine forall₂_congr fun n _ => (matching_le_one_iff db.memos Database.hasMemo n).trans ?_
  simp only [Database.hasMemo, decide_eq_true_eq]

theorem txOutputs_perm_iff (db : Database H) (account idTx : ℕ) :
    ((db.txOutputs account idTx).map TxOutput.id).Perm
        ((db.outputsOf account idTx).map OutputRow.idOutput) ↔
      ∀ o ∈ db.outputsOf account idTx, ∀ a ∈ db.contacts.addresses.rows,
        ∀ a' ∈ db.contacts.addresses.rows, o.address = a.receiver ∧ o.pool = a.pool →
          o.address = a'.receiver ∧ o.pool = a'.pool → a = a' := by
  have hids : (db.txOutputs account idTx).map TxOutput.id =
      (leftJoin Database.paysTo (db.outputsOf account idTx) db.contacts.addresses.rows).map
        fun r => r.1.idOutput := by
    rw [Database.txOutputs, List.map_map]
    exact leftJoin_table_map db.contacts.contacts
      (fun r : OutputRow × Option Contacts.ContactAddressRow => isOwner_clash r.2)
      (leftJoin Database.paysTo (db.outputsOf account idTx) db.contacts.addresses.rows)
      fun r => r.1.idOutput
  rw [hids]
  refine (leftJoin_perm_iff OutputRow.idOutput).trans ?_
  refine forall₂_congr fun o _ =>
    (matching_le_one_iff db.contacts.addresses Database.paysTo o).trans ?_
  simp only [Database.paysTo, decide_eq_true_eq]

/-- A note is one row, so a spend is repeated by no note. -/
theorem txSpends_perm_iff (db : Database H) (account idTx : ℕ) :
    ((db.txSpends account idTx).map TxSpend.id).Perm
        ((db.spendsOf account idTx).map Db.SpendRow.idNote) ↔
      ∀ s ∈ db.spendsOf account idTx, ∃ n ∈ db.notes.rows, s.idNote = n.idNote := by
  have hids : (db.txSpends account idTx).map TxSpend.id =
      (innerJoin Database.spendsNote (db.spendsOf account idTx) db.notes.rows).map
        fun r => r.1.idNote := by
    rw [Database.txSpends, List.map_map]
    exact leftJoin_table_map db.assets
      (fun r : Db.SpendRow × Db.NoteRow H => hasAsset_clash r.2.idAsset)
      (innerJoin Database.spendsNote (db.spendsOf account idTx) db.notes.rows)
      fun r => r.1.idNote
  rw [hids]
  refine (innerJoin_perm_iff Db.SpendRow.idNote fun s _ =>
    matching_of_clash db.notes _ spendsNote_clash s).trans ?_
  simp only [Database.spendsNote, decide_eq_true_eq]

theorem getTxDetails_of_mem {t : TransactionRow} (ht : t ∈ db.transactionsOf account) :
    ∃ d, db.getTxDetails account t.idTx = .ok d ∧ d.notes = db.txNotes account t.idTx ∧
      d.outputs = db.txOutputs account t.idTx ∧ d.spends = db.txSpends account t.idTx := by
  obtain ⟨hmem, haccount⟩ := List.mem_filter.1 ht
  have hfind := (db.transactions.find?_eq_some
    (p := fun u => decide (u.account = account ∧ u.idTx = t.idTx)) (r := t) ?_).2
    ⟨hmem, by simpa using haccount⟩
  · unfold Database.getTxDetails
    rw [hfind]
    exact ⟨_, rfl, rfl, rfl, rfl⟩
  · intro a ha b hb hpa hpb
    have hkey := (of_decide_eq_true hpa).2.trans (of_decide_eq_true hpb).2.symm
    exact db.transactions.eq_of_clash ha hb (Or.inl hkey)

def twoContacts : Database ℕ where
  transactions := ⟨[⟨⟨7, [1], 100, 1, 1000, {}⟩, none⟩], List.pairwise_singleton _ _⟩
  notes := .empty
  spends := .empty
  outputs := ⟨[⟨⟨⟨1, 100, 7, 1, 0⟩, 500, "zs1alice"⟩, 1⟩, ⟨⟨⟨1, 100, 7, 1, 1⟩, 600, "zs1bob"⟩, 2⟩],
    by decide⟩
  memos := .empty
  userMemos := .empty
  assets := .empty
  categories := .empty
  contacts :=
    { contacts := ⟨[⟨1, "Alice", ""⟩, ⟨2, "Bob", ""⟩], by decide⟩
      addresses := ⟨[⟨1, 1, "zs1alice", "zs1alice", 1, 0⟩, ⟨2, 2, "zs1bob", "zs1bob", 1, 0⟩],
        by decide⟩
      owned := by decide }

end ZcashSdk.History
