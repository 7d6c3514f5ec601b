import ZcashSdk.Db.Messages

set_option autoImplicit false

/-!
# What a message does to the tables

One lemma for each kind of message that can fail says exactly when it is accepted and
what it inserts. From them: the messages of a scan only add rows, and every row that a
batch adds comes from one of its messages.
-/
namespace ZcashSdk.Db
open Tables Shielded Loops

variable {H : Type} [DecidableEq H]

theorem execute_eq_ok {α : Type} {o : Option α} {a : α} : execute o = .ok a ↔ o = some a := by
  cases o <;> simp [execute]

theorem assertOne_eq_ok {n : ℕ} : assertOne n = .ok () ↔ n = 1 := by
  unfold assertOne
  split <;> simp_all

/-- A statement that inserts what a query selects, followed by the assertion on its count. -/
theorem insertSelect_eq_ok {α β γ : Type} {rows : List α} {insert : List α → Option β}
    {f : β → γ} {c : γ} :
    (do
      let b ← execute (insert rows)
      assertOne rows.length
      .ok (f b) : Except Fault γ) = .ok c ↔
    ∃ a b, rows = [a] ∧ insert [a] = some b ∧ f b = c := by
  simp only [bind_eq_ok, execute_eq_ok, Except.ok.injEq]
  constructor
  · rintro ⟨b, hb, u, hu, hc⟩
    obtain ⟨a, rfl⟩ := List.length_eq_one_iff.1 (assertOne_eq_ok.1 hu)
    exact ⟨a, b, rfl, hb, hc⟩
  · rintro ⟨a, b, rfl, hb, hc⟩
    exact ⟨b, hb, (), rfl, hc⟩

namespace Database

theorem flatMap_map_eq_singleton {α β γ : Type} {l : List α} {m : List β} {f : α → β → γ} {c : γ} :
    (l.flatMap fun a => m.map (f a)) = [c] ↔ ∃ a b, l = [a] ∧ m = [b] ∧ f a b = c := by
  constructor
  · intro h
    have hlen : l.length * m.length = 1 := by
      have := congrArg List.length h
      simpa [List.length_flatMap] using this
    obtain ⟨hl, hm⟩ := mul_eq_one.1 hlen
    obtain ⟨a, rfl⟩ := List.length_eq_one_iff.1 hl
    obtain ⟨b, rfl⟩ := List.length_eq_one_iff.1 hm
    exact ⟨a, b, rfl, rfl, by simpa using h⟩
  · rintro ⟨a, b, rfl, rfl, rfl⟩
    rfl

theorem handleNote_eq_ok {env : WriterEnv} {db db' : Database H} {n : Note H} :
    db.handleNote env n = .ok db' ↔
      ∃ t a ns, (db.registerAsset n).transactionsOf n.account n.txid = [t] ∧
        (db.registerAsset n).assetsOf n.assetBase = [a] ∧
        (db.registerAsset n).notes.insertNew? NoteRow.idNote (noteRow env n t a) = some ns ∧
        { db.registerAsset n with notes := ns } = db' := by
  unfold handleNote
  simp only [insertSelect_eq_ok, Table.insertAllNew?_singleton]
  constructor
  · rintro ⟨mk, ns, hrows, hns, hdb⟩
    obtain ⟨t, a, ht, ha, rfl⟩ := flatMap_map_eq_singleton.1 hrows
    exact ⟨t, a, ns, ht, ha, hns, hdb⟩
  · rintro ⟨t, a, ns, ht, ha, hns, hdb⟩
    exact ⟨_, ns, flatMap_map_eq_singleton.2 ⟨t, a, ht, ha, rfl⟩, hns, hdb⟩

theorem handleWitness_eq_ok {db db' : Database H} {account height : ℕ} {cmx : H} {w : Witness H} :
    db.handleWitness account height cmx w = .ok db' ↔
      ∃ n ws, db.notesOf account cmx = [n] ∧
        db.witnesses.insertNew? WitnessRow.idWitness
          (fun i => ⟨i, account, n.idNote, height, w⟩) = some ws ∧
        { db with witnesses := ws } = db' := by
  unfold handleWitness
  simp only [insertSelect_eq_ok, Table.insertAllNew?_singleton]
  constructor
  · rintro ⟨mk, ws, hrows, hws, hdb⟩
    obtain ⟨n, hn, rfl⟩ := List.map_eq_singleton_iff.1 hrows
    exact ⟨n, ws, hn, hws, hdb⟩
  · rintro ⟨n, ws, hn, hws, hdb⟩
    exact ⟨_, ws, List.map_eq_singleton_iff.2 ⟨n, hn, rfl⟩, hws, hdb⟩

def spendRow (u : UTXO H) (n : NoteRow H) (t : TransactionRow) : SpendRow :=
  ⟨n.idNote, t.height, u.account, u.pool, t.idTx, -asI64 u.value⟩

theorem handleSpend_eq_ok {db db' : Database H} {u : UTXO H} :
    db.handleSpend u = .ok db' ↔
      ∃ n t ss, db.notesOf u.account u.cmx = [n] ∧ db.transactionsOf u.account u.txid = [t] ∧
        db.spends.insert? (spendRow u n t) = some ss ∧ { db with spends := ss } = db' := by
  unfold handleSpend
  simp only [insertSelect_eq_ok, Table.insertAll?_singleton]
  constructor
  · rintro ⟨r, ss, hrows, hss, hdb⟩
    obtain ⟨n, t, hn, ht, rfl⟩ := flatMap_map_eq_singleton.1 hrows
    exact ⟨n, t, ss, hn, ht, hss, hdb⟩
  · rintro ⟨n, t, ss, hn, ht, hss, hdb⟩
    exact ⟨_, ss, flatMap_map_eq_singleton.2 ⟨n, t, hn, ht, rfl⟩, hss, hdb⟩

theorem checkpoint_frame {pool height : ℕ} {accounts : List ℕ} {db db' : Database H}
    (h : accounts.foldlM (checkpointAccount pool height) db = .ok db') :
    { db with syncHeights := db'.syncHeights } = db' := by
  refine foldlM_inv (checkpointAccount pool height)
    (fun d => { db with syncHeights := d.syncHeights } = d) ?_ accounts db db' rfl h
  intro d a d' hd hstep
  unfold checkpointAccount at hstep
  split at hstep
  · split at hstep
    · rw [Except.ok.injEq] at hstep
      subst hstep
      rw [← hd]
    · rw [Except.ok.injEq] at hstep
      exact hstep ▸ hd
  · cases hstep

@[simp] theorem registerAsset_notes (db : Database H) (n : Note H) :
    (db.registerAsset n).notes = db.notes := by
  unfold registerAsset
  split <;> rfl

@[simp] theorem registerAsset_transactions (db : Database H) (n : Note H) :
    (db.registerAsset n).transactions = db.transactions := by
  unfold registerAsset
  split <;> rfl

@[simp] theorem registerAsset_spends (db : Database H) (n : Note H) :
    (db.registerAsset n).spends = db.spends := by
  unfold registerAsset
  split <;> rfl

@[simp] theorem registerAsset_witnesses (db : Database H) (n : Note H) :
    (db.registerAsset n).witnesses = db.witnesses := by
  unfold registerAsset
  split <;> rfl

@[simp] theorem registerAsset_syncHeights (db : Database H) (n : Note H) :
    (db.registerAsset n).syncHeights = db.syncHeights := by
  unfold registerAsset
  split <;> rfl

theorem mem_transactionsOf {db : Database H} {account : ℕ} {txid : Bytes} {t : TransactionRow} :
    t ∈ db.transactionsOf account txid ↔
      t ∈ db.transactions.rows ∧ t.account = account ∧ t.txid = txid := by
  simp [transactionsOf]

theorem mem_notesOf {db : Database H} {account : ℕ} {cmx : H} {n : NoteRow H} :
    n ∈ db.notesOf account cmx ↔
      n ∈ db.notes.rows ∧ n.account = account ∧ n.cmx = some cmx := by
  simp [notesOf]

end Database

def isScan : WarpSyncMessage H → Bool
  | .rewind _ _ => false
  | _ => true

section Step
open Database
variable {env : WriterEnv} {db db' : Database H} {m : WarpSyncMessage H}

theorem mem_checkpoint {pool height : ℕ} {accounts : List ℕ} {d d' : Database H}
    (h : accounts.foldlM (checkpointAccount pool height) d = .ok d') {r : SyncHeightRow} :
    r ∈ d'.syncHeights.rows ↔
      (r.account ∈ accounts ∧ d.hasPool r.account pool = true ∧ r.pool = pool ∧
        r.height = height) ∨
      (r ∈ d.syncHeights.rows ∧
        ¬ (r.account ∈ accounts ∧ d.hasPool r.account pool = true ∧ r.pool = pool)) := by
  induction accounts generalizing d with
  | nil =>
    simp only [List.foldlM_nil, pure, Except.pure, Except.ok.injEq] at h
    subst h
    simp
  | cons a accounts ih =>
    rw [List.foldlM_cons] at h
    obtain ⟨e, he, h⟩ := bind_eq_ok.1 h
    rw [ih h]
    unfold checkpointAccount at he
    split at he
    · split at he
      · rename_i hp
        rw [Except.ok.injEq] at he
        subst he
        have hpool : ∀ b, Database.hasPool
            { d with syncHeights := d.syncHeights.insertOrReplace ⟨a, pool, height⟩ } b pool =
              d.hasPool b pool := fun b => rfl
        simp only [hpool, Table.mem_insertOrReplace, List.mem_cons, Row.Clash]
        constructor
        · rintro (⟨h1, h2⟩ | ⟨rfl | ⟨h1, h2⟩, h3⟩)
          · exact Or.inl ⟨Or.inr h1, h2⟩
          · exact Or.inl ⟨Or.inl rfl, hp, rfl, rfl⟩
          · refine Or.inr ⟨h1, ?_⟩
            rintro ⟨h4 | h4, h5, h6⟩
            · exact h2 ⟨h4, h6⟩
            · exact h3 ⟨h4, h5, h6⟩
        · rintro (⟨h1 | h1, h2, h3, h4⟩ | ⟨h1, h2⟩)
          · by_cases hm : r.account ∈ accounts
            · exact Or.inl ⟨hm, h2, h3, h4⟩
            · refine Or.inr ⟨Or.inl ?_, fun h => hm h.1⟩
              cases r
              simp_all
          · exact Or.inl ⟨h1, h2, h3, h4⟩
          · refine Or.inr ⟨Or.inr ⟨h1, fun h => h2 ⟨Or.inl h.1, ?_, h.2⟩⟩, ?_⟩
            · rw [h.1]; exact hp
            · exact fun h => h2 ⟨Or.inr h.1, h.2⟩
      · rename_i hp
        rw [Except.ok.injEq] at he
        subst he
        simp only [List.mem_cons]
        constructor
        · rintro (⟨h1, h2⟩ | ⟨h1, h2⟩)
          · exact Or.inl ⟨Or.inr h1, h2⟩
          · refine Or.inr ⟨h1, ?_⟩
            rintro ⟨h3 | h3, h4⟩
            · rw [h3] at h4
              exact hp h4.1
            · exact h2 ⟨h3, h4⟩
        · rintro (⟨h1 | h1, h2, h3⟩ | ⟨h1, h2⟩)
          · rw [h1] at h2
            exact absurd h2 hp
          · exact Or.inl ⟨h1, h2, h3⟩
          · exact Or.inr ⟨h1, fun h => h2 ⟨Or.inr h.1, h.2⟩⟩
    · cases he

theorem handleIssuance_frame (db : Database H) (iss : Issuance) :
    { db with assets := (db.handleIssuance iss).assets } = db.handleIssuance iss := by
  unfold handleIssuance
  dsimp only
  split <;> rfl

/-- What an accepted message of a chunk does. -/
inductive Effect (env : WriterEnv) (db : Database H) : WarpSyncMessage H → Database H → Prop
  | note (n : Note H) (t : TransactionRow) (a : Option ℕ) (ns : Table (NoteRow H))
      (tx : db.transactionsOf n.account n.txid = [t])
      (insert : db.notes.insertNew? NoteRow.idNote (noteRow env n t a) = some ns) :
      Effect env db (.note n) { db.registerAsset n with notes := ns }
  | witness (account height : ℕ) (cmx : H) (w : Witness H) (n : NoteRow H)
      (ws : Table (WitnessRow H)) (found : db.notesOf account cmx = [n])
      (insert : db.witnesses.insertNew? WitnessRow.idWitness
        (fun i => ⟨i, account, n.idNote, height, w⟩) = some ws) :
      Effect env db (.witness account height cmx w) { db with witnesses := ws }
  | spend (u : UTXO H) (n : NoteRow H) (t : TransactionRow) (ss : Table SpendRow)
      (found : db.notesOf u.account u.cmx = [n]) (tx : db.transactionsOf u.account u.txid = [t])
      (insert : db.spends.insert? (spendRow u n t) = some ss) :
      Effect env db (.spend u) { db with spends := ss }
  | transaction (tx : Transaction) : Effect env db (.transaction tx) (db.handleTransaction tx)
  | blockHeader (bh : BlockHeader) : Effect env db (.blockHeader bh) (db.handleBlockHeader bh)
  | checkpoint (accounts : List ℕ) (pool height : ℕ) (hs : Table SyncHeightRow)
      (run : accounts.foldlM (checkpointAccount pool height) db = .ok { db with syncHeights := hs }) :
      Effect env db (.checkpoint accounts pool height) { db with syncHeights := hs }
  | issuance (iss : Issuance) (assets : Table AssetRow) :
      Effect env db (.issuance iss) { db with assets := assets }
  | commit : Effect env db .commit db

theorem effect_of_ok (h : handleMessage env db m = .ok db') (hm : isScan m = true) :
    Effect env db m db' := by
  cases m with
  | note n =>
    obtain ⟨t, a, ns, ht, -, hns, rfl⟩ := handleNote_eq_ok.1 h
    rw [registerAsset_notes] at hns
    refine Effect.note n t a ns ?_ hns
    rw [← ht]
    simp [transactionsOf]
  | issuance iss =>
    simp only [handleMessage, Except.ok.injEq] at h
    rw [← h, ← handleIssuance_frame]
    exact Effect.issuance iss _
  | transaction tx =>
    simp only [handleMessage, Except.ok.injEq] at h
    exact h ▸ Effect.transaction tx
  | witness a ht c w =>
    obtain ⟨n, ws, hn, hws, rfl⟩ := handleWitness_eq_ok.1 h
    exact Effect.witness a ht c w n ws hn hws
  | spend u =>
    obtain ⟨n, t, ss, hn, ht, hss, rfl⟩ := handleSpend_eq_ok.1 h
    exact Effect.spend u n t ss hn ht hss
  | checkpoint as p ht =>
    have hframe := checkpoint_frame h
    rw [← hframe] at h ⊢
    exact Effect.checkpoint as p ht _ h
  | blockHeader bh =>
    simp only [handleMessage, Except.ok.injEq] at h
    exact h ▸ Effect.blockHeader bh
  | commit =>
    simp only [handleMessage, Except.ok.injEq] at h
    exact h ▸ Effect.commit
  | rewind as ht => simp [isScan] at hm
  | error e => simp [handleMessage] at h

def TransactionRow.Same (t t' : TransactionRow) : Prop :=
  t'.idTx = t.idTx ∧ t'.account = t.account ∧ t'.txid = t.txid ∧ t'.height = t.height

theorem TransactionRow.Same.refl (t : TransactionRow) : t.Same t := ⟨rfl, rfl, rfl, rfl⟩

theorem TransactionRow.Same.trans {t u v : TransactionRow} (h : t.Same u) (h' : u.Same v) :
    t.Same v :=
  ⟨h'.1.trans h.1, h'.2.1.trans h.2.1, h'.2.2.1.trans h.2.2.1, h'.2.2.2.trans h.2.2.2⟩

theorem same_setTime (bh : BlockHeader) (t : TransactionRow) : t.Same (setTime bh t) := by
  unfold setTime
  split <;> exact .refl _

structure Grows (db db' : Database H) : Prop where
  notes : ∀ n ∈ db.notes.rows, n ∈ db'.notes.rows
  spends : ∀ s ∈ db.spends.rows, s ∈ db'.spends.rows
  witnesses : ∀ w ∈ db.witnesses.rows, w ∈ db'.witnesses.rows
  transactions : ∀ t ∈ db.transactions.rows, ∃ t' ∈ db'.transactions.rows, t.Same t'

theorem Grows.refl (db : Database H) : Grows db db :=
  ⟨fun _ => id, fun _ => id, fun _ => id, fun t ht => ⟨t, ht, .refl t⟩⟩

theorem Grows.trans {db db' db'' : Database H} (h : Grows db db') (h' : Grows db' db'') :
    Grows db db'' where
  notes n hn := h'.notes n (h.notes n hn)
  spends s hs := h'.spends s (h.spends s hs)
  witnesses w hw := h'.witnesses w (h.witnesses w hw)
  transactions t ht := by
    obtain ⟨u, hu, htu⟩ := h.transactions t ht
    obtain ⟨v, hv, huv⟩ := h'.transactions u hu
    exact ⟨v, hv, htu.trans huv⟩

theorem Effect.grows (h : Effect env db m db') : Grows db db' := by
  cases h with
  | note n t a ns tx insert =>
    refine ⟨fun r hr => ?_, fun s hs => by simpa using hs, fun w hw => by simpa using hw,
      fun t ht => ⟨t, by simpa using ht, .refl t⟩⟩
    rw [(Table.insert?_eq_some.1 insert).2]
    exact List.mem_append_left _ hr
  | witness a ht c w n ws found insert =>
    refine ⟨fun _ => id, fun _ => id, fun r hr => ?_, fun t ht => ⟨t, ht, .refl t⟩⟩
    rw [(Table.insert?_eq_some.1 insert).2]
    exact List.mem_append_left _ hr
  | spend u n t ss found tx insert =>
    refine ⟨fun _ => id, fun r hr => ?_, fun _ => id, fun t ht => ⟨t, ht, .refl t⟩⟩
    rw [(Table.insert?_eq_some.1 insert).2]
    exact List.mem_append_left _ hr
  | transaction tx =>
    exact ⟨fun _ => id, fun _ => id, fun _ => id,
      fun t ht => ⟨t, Table.mem_insertOrIgnore_of_mem ht, .refl t⟩⟩
  | blockHeader bh =>
    exact ⟨fun _ => id, fun _ => id, fun _ => id,
      fun t ht => ⟨setTime bh t, List.mem_map_of_mem ht, same_setTime bh t⟩⟩
  | checkpoint as p ht hs run =>
    exact ⟨fun _ => id, fun _ => id, fun _ => id, fun t ht => ⟨t, ht, .refl t⟩⟩
  | issuance iss assets =>
    exact ⟨fun _ => id, fun _ => id, fun _ => id, fun t ht => ⟨t, ht, .refl t⟩⟩
  | commit => exact Grows.refl db

structure SameAccounts (db db' : Database H) : Prop where
  accounts : db'.accounts = db.accounts
  addresses : db'.addresses = db.addresses

theorem SameAccounts.refl (db : Database H) : SameAccounts db db := ⟨rfl, rfl⟩

theorem SameAccounts.trans {db db' db'' : Database H} (h : SameAccounts db db')
    (h' : SameAccounts db' db'') : SameAccounts db db'' :=
  ⟨h'.accounts.trans h.accounts, h'.addresses.trans h.addresses⟩

theorem SameAccounts.hasPool {db db' : Database H} (h : SameAccounts db db') (account pool : ℕ) :
    db'.hasPool account pool = db.hasPool account pool := by
  simp only [Database.hasPool, Database.accountRow, h.accounts]

theorem SameAccounts.getBirthHeight {db db' : Database H} (h : SameAccounts db db') (account : ℕ) :
    db'.getBirthHeight account = db.getBirthHeight account := by
  simp only [Database.getBirthHeight, Database.accountRow, h.accounts]

theorem registerAsset_sameAccounts (db : Database H) (n : Note H) :
    SameAccounts db (db.registerAsset n) := by
  unfold registerAsset
  split <;> exact ⟨rfl, rfl⟩

theorem Effect.sameAccounts (h : Effect env db m db') : SameAccounts db db' := by
  cases h with
  | note n t a ns tx insert =>
    exact ⟨(registerAsset_sameAccounts db n).accounts, (registerAsset_sameAccounts db n).addresses⟩
  | _ => exact ⟨rfl, rfl⟩

theorem Effect.userMemos (h : Effect env db m db') : db'.userMemos = db.userMemos := by
  cases h with
  | note n t a ns tx insert =>
    change (db.registerAsset n).userMemos = _
    unfold registerAsset
    split <;> rfl
  | _ => rfl

theorem Effect.pendingInputs (h : Effect env db m db') : db'.pendingInputs = db.pendingInputs := by
  cases h with
  | note n t a ns tx insert =>
    change (db.registerAsset n).pendingInputs = _
    unfold registerAsset
    split <;> rfl
  | _ => rfl

/-- Heights are only moved by a checkpoint. -/
theorem Effect.syncHeights (h : Effect env db m db')
    (hm : ∀ accounts pool height, m ≠ .checkpoint accounts pool height) :
    db'.syncHeights = db.syncHeights := by
  cases h with
  | note n t a ns tx insert => exact registerAsset_syncHeights db n
  | checkpoint as p ht hs run => exact absurd rfl (hm as p ht)
  | _ => rfl

/-! ### Where a row comes from -/

theorem Effect.note_from (h : Effect env db m db') {r : NoteRow H} (hr : r ∈ db'.notes.rows) :
    r ∈ db.notes.rows ∨ ∃ n t a i, m = .note n ∧ t.account = n.account ∧ r = noteRow env n t a i := by
  cases h with
  | note n t a ns tx insert =>
    rw [(Table.insert?_eq_some.1 insert).2] at hr
    rcases List.mem_append.1 hr with hr | hr
    · exact Or.inl hr
    · have ht : t ∈ db.transactionsOf n.account n.txid := by rw [tx]; exact List.mem_singleton_self t
      exact Or.inr ⟨n, t, a, _, rfl, (mem_transactionsOf.1 ht).2.1, List.mem_singleton.1 hr⟩
  | _ => exact Or.inl hr

theorem Effect.witness_from (h : Effect env db m db') {r : WitnessRow H}
    (hr : r ∈ db'.witnesses.rows) :
    r ∈ db.witnesses.rows ∨ ∃ n ∈ db.notes.rows, n.idNote = r.note ∧ n.account = r.account ∧
      ∃ cmx, n.cmx = some cmx ∧ m = .witness r.account r.height cmx r.witness := by
  cases h with
  | witness account height cmx w n ws found insert =>
    rw [(Table.insert?_eq_some.1 insert).2] at hr
    rcases List.mem_append.1 hr with hr | hr
    · exact Or.inl hr
    · have hn : n ∈ db.notesOf account cmx := by rw [found]; exact List.mem_singleton_self n
      obtain ⟨hn, hacc, hcmx⟩ := mem_notesOf.1 hn
      rw [List.mem_singleton] at hr
      subst hr
      exact Or.inr ⟨n, hn, rfl, hacc, cmx, hcmx, rfl⟩
  | note n t a ns tx insert => exact Or.inl (by simpa using hr)
  | _ => exact Or.inl hr

theorem Effect.spend_from (h : Effect env db m db') {r : SpendRow} (hr : r ∈ db'.spends.rows) :
    r ∈ db.spends.rows ∨ ∃ u n t, m = .spend u ∧ db.notesOf u.account u.cmx = [n] ∧
      db.transactionsOf u.account u.txid = [t] ∧ r = spendRow u n t := by
  cases h with
  | spend u n t ss found tx insert =>
    rw [(Table.insert?_eq_some.1 insert).2] at hr
    rcases List.mem_append.1 hr with hr | hr
    · exact Or.inl hr
    · exact Or.inr ⟨u, n, t, rfl, found, tx, List.mem_singleton.1 hr⟩
  | note n t a ns tx insert => exact Or.inl (by simpa using hr)
  | _ => exact Or.inl hr

theorem Effect.transaction_from (h : Effect env db m db') {r : TransactionRow}
    (hr : r ∈ db'.transactions.rows) :
    (∃ t ∈ db.transactions.rows, t.Same r) ∨
      m = .transaction ⟨r.account, r.height, r.time, r.txid⟩ := by
  cases h with
  | transaction tx =>
    rcases Table.mem_insertOrIgnore.1 hr with hr | ⟨hr, -⟩
    · exact Or.inl ⟨r, hr, .refl r⟩
    · subst hr
      exact Or.inr rfl
  | blockHeader bh =>
    obtain ⟨t, ht, hr⟩ := List.mem_map.1 hr
    exact Or.inl ⟨t, ht, hr ▸ same_setTime bh t⟩
  | note n t a ns tx insert => exact Or.inl ⟨r, by simpa using hr, .refl r⟩
  | _ => exact Or.inl ⟨r, hr, .refl r⟩

end Step

/-! ### Batches -/

section Batch
open Database
variable {env : WriterEnv} {db db' : Database H} {ms : List (WarpSyncMessage H)}

theorem commit_cons_ok {m : WarpSyncMessage H} :
    commitWarpMessages env db (m :: ms) = .ok db' ↔
      ∃ d, handleMessage env db m = .ok d ∧ commitWarpMessages env d ms = .ok db' := by
  unfold commitWarpMessages
  rw [List.foldlM_cons]
  exact bind_eq_ok

theorem commit_append_ok {ns : List (WarpSyncMessage H)} :
    commitWarpMessages env db (ms ++ ns) = .ok db' ↔
      ∃ d, commitWarpMessages env db ms = .ok d ∧ commitWarpMessages env d ns = .ok db' := by
  unfold commitWarpMessages
  rw [List.foldlM_append]
  exact bind_eq_ok

theorem commit_nil_ok : commitWarpMessages env db [] = .ok db' ↔ db = db' := by
  simp [commitWarpMessages, pure, Except.pure]

/-- A property of the tables that the effect of every message keeps. -/
theorem commit_inv (Inv : Database H → Prop) (hs : ∀ m ∈ ms, isScan m = true)
    (hstep : ∀ m ∈ ms, ∀ d d', Inv d → Effect env d m d' → Inv d')
    (h : commitWarpMessages env db ms = .ok db') (hdb : Inv db) : Inv db' := by
  induction ms generalizing db with
  | nil => exact commit_nil_ok.1 h ▸ hdb
  | cons m ms ih =>
    obtain ⟨d, hd, h⟩ := commit_cons_ok.1 h
    rw [List.forall_mem_cons] at hs hstep
    exact ih hs.2 hstep.2 h (hstep.1 db d hdb (effect_of_ok hd hs.1))

theorem commit_grows (hs : ∀ m ∈ ms, isScan m = true)
    (h : commitWarpMessages env db ms = .ok db') : Grows db db' :=
  commit_inv (fun d => Grows db d) hs (fun _ _ _ _ hd he => hd.trans he.grows) h
    (Grows.refl db)

/-- A batch, opened at one of its messages. -/
theorem commit_at {m : WarpSyncMessage H} (hs : ∀ m ∈ ms, isScan m = true) (hm : m ∈ ms)
    (h : commitWarpMessages env db ms = .ok db') :
    ∃ d d', Grows db d ∧ Effect env d m d' ∧ Grows d' db' := by
  obtain ⟨pre, post, rfl⟩ := List.append_of_mem hm
  rw [List.forall_mem_append, List.forall_mem_cons] at hs
  obtain ⟨d, hd, h⟩ := commit_append_ok.1 h
  obtain ⟨d', hd', h⟩ := commit_cons_ok.1 h
  exact ⟨d, d', commit_grows hs.1 hd, effect_of_ok hd' hs.2.1, commit_grows hs.2.2 h⟩

theorem note_of_mem (hs : ∀ m ∈ ms, isScan m = true)
    (h : commitWarpMessages env db ms = .ok db') {n : Note H} (hm : .note n ∈ ms) :
    ∃ t a i, t.account = n.account ∧ noteRow env n t a i ∈ db'.notes.rows := by
  obtain ⟨d, d', hd, he, hd'⟩ := commit_at hs hm h
  cases he with
  | note _ t a ns tx insert =>
    have ht : t ∈ d.transactionsOf n.account n.txid := by rw [tx]; exact List.mem_singleton_self t
    refine ⟨t, a, nextId (d.notes.rows.map NoteRow.idNote), (mem_transactionsOf.1 ht).2.1,
      hd'.notes _ ?_⟩
    dsimp only
    rw [(Table.insert?_eq_some.1 insert).2]
    exact List.mem_append_right _ (List.mem_singleton_self _)

theorem witness_of_mem (hs : ∀ m ∈ ms, isScan m = true)
    (h : commitWarpMessages env db ms = .ok db') {account height : ℕ} {cmx : H} {w : Witness H}
    (hm : .witness account height cmx w ∈ ms) {n : NoteRow H} (hn : n ∈ db.notes.rows)
    (hacc : n.account = account) (hcmx : n.cmx = some cmx) :
    ∃ r ∈ db'.witnesses.rows, r.account = account ∧ r.note = n.idNote ∧ r.height = height ∧
      r.witness = w := by
  obtain ⟨d, d', hd, he, hd'⟩ := commit_at hs hm h
  cases he with
  | witness _ _ _ _ n' ws found insert =>
    have hmem : n ∈ d.notesOf account cmx := mem_notesOf.2 ⟨hd.notes n hn, hacc, hcmx⟩
    rw [found, List.mem_singleton] at hmem
    subst hmem
    refine ⟨⟨nextId (d.witnesses.rows.map WitnessRow.idWitness), account, n.idNote, height, w⟩,
      hd'.witnesses _ ?_, rfl, rfl, rfl, rfl⟩
    dsimp only
    rw [(Table.insert?_eq_some.1 insert).2]
    exact List.mem_append_right _ (List.mem_singleton_self _)

theorem spend_of_mem (hs : ∀ m ∈ ms, isScan m = true)
    (h : commitWarpMessages env db ms = .ok db') {u : UTXO H} (hm : .spend u ∈ ms)
    {n : NoteRow H} (hn : n ∈ db.notes.rows) (hacc : n.account = u.account)
    (hcmx : n.cmx = some u.cmx) :
    ∃ s ∈ db'.spends.rows, s.idNote = n.idNote ∧ s.account = u.account ∧
      ∃ t ∈ db'.transactions.rows, t.account = u.account ∧ t.txid = u.txid ∧
        s.height = t.height := by
  obtain ⟨d, d', hd, he, hd'⟩ := commit_at hs hm h
  cases he with
  | spend _ n' t ss found tx insert =>
    have hmem : n ∈ d.notesOf u.account u.cmx := mem_notesOf.2 ⟨hd.notes n hn, hacc, hcmx⟩
    rw [found, List.mem_singleton] at hmem
    subst hmem
    have ht : t ∈ d.transactionsOf u.account u.txid := by rw [tx]; exact List.mem_singleton_self t
    obtain ⟨ht, htacc, httx⟩ := mem_transactionsOf.1 ht
    obtain ⟨t', ht', hsame⟩ := hd'.transactions t ht
    refine ⟨spendRow u n t, hd'.spends _ ?_, rfl, rfl, t', ht', hsame.2.1.trans htacc,
      hsame.2.2.1.trans httx, hsame.2.2.2.symm⟩
    dsimp only
    rw [(Table.insert?_eq_some.1 insert).2]
    exact List.mem_append_right _ (List.mem_singleton_self _)

theorem note_from (hs : ∀ m ∈ ms, isScan m = true)
    (h : commitWarpMessages env db ms = .ok db') {r : NoteRow H} (hr : r ∈ db'.notes.rows) :
    r ∈ db.notes.rows ∨ ∃ n t a i, .note n ∈ ms ∧ t.account = n.account ∧
      r = noteRow env n t a i := by
  refine commit_inv (fun d => ∀ r ∈ d.notes.rows, r ∈ db.notes.rows ∨ ∃ n t a i,
    .note n ∈ ms ∧ t.account = n.account ∧ r = noteRow env n t a i) hs ?_ h
    (fun r hr => Or.inl hr) r hr
  intro m hm d d' hd he r hr
  rcases he.note_from hr with hr | ⟨n, t, a, i, rfl, ht, rfl⟩
  · exact hd r hr
  · exact Or.inr ⟨n, t, a, i, hm, ht, rfl⟩

theorem witness_from (hs : ∀ m ∈ ms, isScan m = true)
    (h : commitWarpMessages env db ms = .ok db') {r : WitnessRow H}
    (hr : r ∈ db'.witnesses.rows) :
    r ∈ db.witnesses.rows ∨ ∃ n ∈ db'.notes.rows, n.idNote = r.note ∧ n.account = r.account ∧
      ∃ cmx, n.cmx = some cmx ∧ .witness r.account r.height cmx r.witness ∈ ms := by
  refine (commit_inv (fun d => ∀ r ∈ d.witnesses.rows, r ∈ db.witnesses.rows ∨
    ∃ n ∈ d.notes.rows, n.idNote = r.note ∧ n.account = r.account ∧
      ∃ cmx, n.cmx = some cmx ∧ .witness r.account r.height cmx r.witness ∈ ms) hs ?_ h
    (fun r hr => Or.inl hr)) r hr
  intro m hm d d' hd he r hr
  rcases he.witness_from hr with hr | ⟨n, hn, hid, hacc, cmx, hcmx, rfl⟩
  · rcases hd r hr with hr | ⟨n, hn, hrest⟩
    · exact Or.inl hr
    · exact Or.inr ⟨n, he.grows.notes n hn, hrest⟩
  · exact Or.inr ⟨n, he.grows.notes n hn, hid, hacc, cmx, hcmx, hm⟩

/-- A spend that is new was written for a message, for the one note that has its commitment. -/
theorem spend_written (hs : ∀ m ∈ ms, isScan m = true)
    (h : commitWarpMessages env db ms = .ok db') {r : SpendRow} (hr : r ∈ db'.spends.rows) :
    r ∈ db.spends.rows ∨ ∃ u n t, .spend u ∈ ms ∧ n ∈ db'.notes.rows ∧
      (∀ m ∈ db.notes.rows, m.account = u.account → m.cmx = some u.cmx → m = n) ∧
      n.account = u.account ∧ t.account = u.account ∧ t.txid = u.txid ∧
      (∃ t' ∈ db'.transactions.rows, t.Same t') ∧ r = spendRow u n t := by
  induction ms generalizing db with
  | nil => exact Or.inl (commit_nil_ok.1 h ▸ hr)
  | cons m ms ih =>
    obtain ⟨d, hd, htail⟩ := commit_cons_ok.1 h
    rw [List.forall_mem_cons] at hs
    have he := effect_of_ok hd hs.1
    rcases ih hs.2 htail with hr | ⟨u, n, t, hu, hn, huniq, hrest⟩
    · rcases he.spend_from hr with hr | ⟨u, n, t, rfl, hn, ht, rfl⟩
      · exact Or.inl hr
      · have hg := he.grows.trans (commit_grows hs.2 htail)
        have hmn : n ∈ db.notesOf u.account u.cmx := by rw [hn]; exact List.mem_singleton_self n
        have hmt : t ∈ db.transactionsOf u.account u.txid := by
          rw [ht]; exact List.mem_singleton_self t
        obtain ⟨hmt, htacc, httx⟩ := mem_transactionsOf.1 hmt
        refine Or.inr ⟨u, n, t, by simp, hg.notes n (mem_notesOf.1 hmn).1, ?_,
          (mem_notesOf.1 hmn).2.1, htacc, httx, hg.transactions t hmt, rfl⟩
        intro m hm hacc hcmx
        have := mem_notesOf.2 ⟨hm, hacc, hcmx⟩
        rwa [hn, List.mem_singleton] at this
    · refine Or.inr ⟨u, n, t, by simp [hu], hn, ?_, hrest⟩
      exact fun m hm => huniq m (he.grows.notes m hm)

theorem spend_from (hs : ∀ m ∈ ms, isScan m = true)
    (h : commitWarpMessages env db ms = .ok db') {r : SpendRow} (hr : r ∈ db'.spends.rows) :
    r ∈ db.spends.rows ∨ ∃ u n t, .spend u ∈ ms ∧ n ∈ db'.notes.rows ∧
      (∀ m ∈ db.notes.rows, m.account = u.account → m.cmx = some u.cmx → m = n) ∧
      t ∈ db'.transactions.rows ∧ t.account = u.account ∧ t.txid = u.txid ∧
      n.account = u.account ∧ r.idNote = n.idNote ∧ r.account = u.account ∧
      r.height = t.height := by
  rcases spend_written hs h hr with hr | ⟨u, n, t, hu, hn, huniq, hna, hta, htx, ⟨t', ht', hsame⟩, rfl⟩
  · exact Or.inl hr
  · exact Or.inr ⟨u, n, t', hu, hn, huniq, ht', hsame.2.1.trans hta, hsame.2.2.1.trans htx, hna,
      rfl, rfl, hsame.2.2.2.symm⟩

theorem commit_sameAccounts (hs : ∀ m ∈ ms, isScan m = true)
    (h : commitWarpMessages env db ms = .ok db') : SameAccounts db db' :=
  commit_inv (fun d => SameAccounts db d) hs
    (fun _ _ _ _ hd he => hd.trans he.sameAccounts) h (.refl db)

theorem commit_syncHeights (hs : ∀ m ∈ ms, isScan m = true)
    (hc : ∀ m ∈ ms, ∀ accounts pool height, m ≠ .checkpoint accounts pool height)
    (h : commitWarpMessages env db ms = .ok db') : db'.syncHeights = db.syncHeights :=
  commit_inv (fun d => d.syncHeights = db.syncHeights) hs
    (fun m hm _ _ hd he => (he.syncHeights (hc m hm)).trans hd) h rfl

theorem transaction_from (hs : ∀ m ∈ ms, isScan m = true)
    (h : commitWarpMessages env db ms = .ok db') {r : TransactionRow}
    (hr : r ∈ db'.transactions.rows) :
    (∃ t ∈ db.transactions.rows, t.Same r) ∨ ∃ tx : Transaction, .transaction tx ∈ ms ∧
      r.account = tx.account ∧ r.txid = tx.txid ∧ r.height = tx.height := by
  refine commit_inv (fun d => ∀ r ∈ d.transactions.rows,
    (∃ t ∈ db.transactions.rows, t.Same r) ∨ ∃ tx : Transaction, .transaction tx ∈ ms ∧
      r.account = tx.account ∧ r.txid = tx.txid ∧ r.height = tx.height) hs ?_ h
    (fun r hr => Or.inl ⟨r, hr, .refl r⟩) r hr
  intro m hm d d' hd he r hr
  rcases he.transaction_from hr with ⟨t, ht, hsame⟩ | rfl
  · rcases hd t ht with ⟨t', ht', hsame'⟩ | ⟨tx, htx, hacc, hid, hh⟩
    · exact Or.inl ⟨t', ht', hsame'.trans hsame⟩
    · exact Or.inr ⟨tx, htx, hsame.2.1.trans hacc, hsame.2.2.1.trans hid, hsame.2.2.2.trans hh⟩
  · exact Or.inr ⟨_, hm, rfl, rfl, rfl⟩

end Batch

end ZcashSdk.Db
