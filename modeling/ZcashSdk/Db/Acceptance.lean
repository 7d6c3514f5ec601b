import ZcashSdk.Db.MessageEffects
import ZcashSdk.Shielded.Receipts
import ZcashSdk.Shielded.Tracked

set_option autoImplicit false

/-!
# What the writer accepts

Headers, issuances, transactions and checkpoints are always accepted. A note is accepted when
its account does not have its nullifier yet, and a witness or a spend when one row has the
commitment it names.
-/
namespace ZcashSdk.Db
open Tables Shielded Loops Database

variable {H : Type} [DecidableEq H] {env : WriterEnv} {db d : Database H}

def Accepts (env : WriterEnv) (db : Database H) (ms : List (WarpSyncMessage H)) : Prop :=
  ∃ db', commitWarpMessages env db ms = .ok db'

theorem accepts_nil : Accepts env db [] := ⟨db, commit_nil_ok.2 rfl⟩

theorem accepts_cons {m : WarpSyncMessage H} {ms : List (WarpSyncMessage H)} :
    Accepts env db (m :: ms) ↔ ∃ d, handleMessage env db m = .ok d ∧ Accepts env d ms := by
  simp only [Accepts, commit_cons_ok]
  exact ⟨fun ⟨db', d, hd, h⟩ => ⟨d, hd, db', h⟩, fun ⟨d, hd, db', h⟩ => ⟨db', d, hd, h⟩⟩

theorem accepts_append {ms ns : List (WarpSyncMessage H)} :
    Accepts env db (ms ++ ns) ↔ ∃ d, commitWarpMessages env db ms = .ok d ∧ Accepts env d ns := by
  simp only [Accepts, commit_append_ok]
  exact ⟨fun ⟨db', d, hd, h⟩ => ⟨d, hd, db', h⟩, fun ⟨d, hd, db', h⟩ => ⟨db', d, hd, h⟩⟩

/-! ### Notes -/

/-- Asset bases are unique. -/
theorem exists_assetsOf (db : Database H) (base : Bytes) : ∃ a, db.assetsOf base = [a] := by
  unfold assetsOf
  cases hf : db.assets.rows.filter fun a => decide (a.assetBase = base) with
  | nil => exact ⟨none, rfl⟩
  | cons a as =>
    have ha : a ∈ db.assets.rows.filter fun a => decide (a.assetBase = base) := by
      rw [hf]
      exact List.mem_cons_self
    obtain ⟨hmem, hbase⟩ := List.mem_filter.1 ha
    rw [decide_eq_true_eq] at hbase
    have hone := db.assets.filter_eq_singleton (p := fun a => decide (a.assetBase = base)) hmem
      (by simpa using hbase) fun b hb hbb => db.assets.eq_of_clash hb hmem
        (.inr (.inr ((by simpa using hbb : b.assetBase = base).trans hbase.symm)))
    rw [hone, List.cons.injEq] at hf
    rw [← hf.2]
    exact ⟨some a.idAsset, rfl⟩

theorem exists_transactionsOf (db : Database H) (tx : Transaction) :
    ∃ t, (db.handleTransaction tx).transactionsOf tx.account tx.txid = [t] := by
  obtain ⟨t, ht, hacc, hid⟩ : ∃ t ∈ (db.handleTransaction tx).transactions.rows,
      t.account = tx.account ∧ t.txid = tx.txid :=
    db.transactions.exists_insertNewOrIgnore (fun _ => ⟨rfl, rfl⟩) fun _ _ hc => hc
  refine ⟨t, Table.filter_eq_singleton _ ht (by simp [hacc, hid]) fun b hb hbb => ?_⟩
  obtain ⟨hbacc, hbid⟩ := of_decide_eq_true hbb
  exact Table.eq_of_clash _ hb ht (.inr ⟨hbacc.trans hacc.symm, hbid.trans hid.symm⟩)

/-- The account does not have the note's nullifier. -/
def Unstored (db : Database H) (n : Note H) : Prop :=
  ∀ r ∈ db.notes.rows, r.account = n.account → r.nullifier ≠ .shielded n.nf

variable (env) in
theorem insert_note {t : TransactionRow} {n : Note H} {a : Option ℕ}
    (hacc : t.account = n.account) :
    (∃ ns, db.notes.insertNew? NoteRow.idNote (noteRow env n t a) = some ns) ↔ Unstored db n := by
  unfold Table.insertNew?
  rw [Table.exists_insert?]
  constructor
  · exact fun h r hr hra hrn => h r hr (.inr ⟨hra.trans hacc.symm, hrn⟩)
  · rintro h r hr (hid | ⟨hra, hrn⟩)
    · exact (lt_nextId (List.mem_map_of_mem hr)).ne hid
    · exact h r hr (hra.trans hacc) hrn

theorem commit_noteMessages {t : TxAt H} {n : Note H} :
    commitWarpMessages env db (noteMessages t n) = .ok d ↔
      (db.handleTransaction (txOf t n.account)).handleNote env n = .ok d := by
  rw [noteMessages, commit_cons_ok]
  simp only [commit_cons_ok, commit_nil_ok, handleMessage, Except.ok.injEq, exists_eq_left',
    exists_eq_right]

variable (env) in
/-- A note comes after its transaction, so only its own nullifier can keep it out. -/
theorem accepts_note {t : TxAt H} {n : Note H} (hid : n.txid = t.tx.hash) :
    Accepts env db (noteMessages t n) ↔ Unstored db n := by
  simp only [Accepts, commit_noteMessages, handleNote_eq_ok]
  constructor
  · rintro ⟨d, x, a, ns, hx, -, hns, -⟩
    have hacc := (mem_transactionsOf.1 (hx ▸ List.mem_singleton_self x)).2.1
    rw [registerAsset_notes] at hns
    exact (insert_note env hacc).1 ⟨ns, hns⟩
  · intro h
    obtain ⟨x, hx⟩ := exists_transactionsOf db (txOf t n.account)
    obtain ⟨a, ha⟩ := exists_assetsOf ((db.handleTransaction (txOf t n.account)).registerAsset n)
      n.assetBase
    have hacc := (mem_transactionsOf.1 (hx ▸ List.mem_singleton_self x)).2.1
    obtain ⟨ns, hns⟩ := (insert_note env (a := a) hacc).2 h
    refine ⟨_, x, a, ns, ?_, ha, ?_, rfl⟩
    · rw [hid, transactionsOf, registerAsset_transactions]
      exact hx
    · rw [registerAsset_notes]
      exact hns

theorem note_rows {t : TxAt H} {n : Note H}
    (h : commitWarpMessages env db (noteMessages t n) = .ok d) :
    ∃ x a i, x.account = n.account ∧ d.notes.rows = db.notes.rows ++ [noteRow env n x a i] := by
  obtain ⟨x, a, ns, hx, -, hns, rfl⟩ := handleNote_eq_ok.1 (commit_noteMessages.1 h)
  rw [registerAsset_notes] at hns
  exact ⟨x, a, _, (mem_transactionsOf.1 (hx ▸ List.mem_singleton_self x)).2.1,
    (Table.insert?_eq_some.1 hns).2⟩

/-- No nullifier of the notes is stored for its account, nor occurs twice among them. -/
def NewNullifiers (db : Database H) (ns : List (Note H)) : Prop :=
  (∀ n ∈ ns, Unstored db n) ∧ ns.Pairwise fun m n => m.account = n.account → m.nf ≠ n.nf

theorem accepts_notes {ps : List (TxAt H × Note H)} (hid : ∀ p ∈ ps, p.2.txid = p.1.tx.hash) :
    Accepts env db (ps.flatMap fun p => noteMessages p.1 p.2) ↔
      NewNullifiers db (ps.map Prod.snd) := by
  induction ps generalizing db with
  | nil => simp [NewNullifiers, accepts_nil]
  | cons p ps ih =>
    rw [List.forall_mem_cons] at hid
    rw [List.flatMap_cons, accepts_append]
    simp only [ih hid.2, NewNullifiers, List.map_cons, List.forall_mem_cons, List.pairwise_cons]
    -- the row of the first note is in the way of those after it that share its nullifier
    have hrow : ∀ d, commitWarpMessages env db (noteMessages p.1 p.2) = .ok d → ∀ n : Note H,
        Unstored d n ↔ Unstored db n ∧ (p.2.account = n.account → p.2.nf ≠ n.nf) := by
      intro d hd n
      obtain ⟨x, a, i, hacc, hrows⟩ := note_rows hd
      simp only [Unstored, hrows, List.forall_mem_append, List.forall_mem_singleton, noteRow, hacc,
        ne_eq, NullifierKey.shielded.injEq]
    constructor
    · rintro ⟨d, hd, hstored, hpair⟩
      refine ⟨⟨(accepts_note env hid.1).1 ⟨d, hd⟩, fun n hn => ?_⟩, fun n hn => ?_, hpair⟩
      · exact ((hrow d hd n).1 (hstored n hn)).1
      · exact ((hrow d hd n).1 (hstored n hn)).2
    · rintro ⟨⟨hfirst, hstored⟩, hdiffer, hpair⟩
      obtain ⟨d, hd⟩ := (accepts_note env hid.1).2 hfirst
      exact ⟨d, hd, fun n hn => (hrow d hd n).2 ⟨hstored n hn, hdiffer n hn⟩, hpair⟩

/-! ### Witnesses and spends -/

/-- The one row a message about the note finds. -/
def Finds (db : Database H) (u : UTXO H) (n : NoteRow H) : Prop :=
  db.notesOf u.account u.cmx = [n]

theorem Finds.mem {u : UTXO H} {n : NoteRow H} (h : Finds db u n) :
    n ∈ db.notes.rows ∧ n.account = u.account ∧ n.cmx = some u.cmx :=
  mem_notesOf.1 (h ▸ List.mem_singleton_self n)

theorem commit_witnesses {us : List (UTXO H)} {height : ℕ}
    (h : commitWarpMessages env db (us.map (witnessMessage height)) = .ok d) :
    d.notes = db.notes ∧ d.spends = db.spends ∧ ∀ u ∈ us, ∃ n, Finds db u n := by
  induction us generalizing db with
  | nil =>
    obtain rfl := commit_nil_ok.1 h
    exact ⟨rfl, rfl, by simp⟩
  | cons u us ih =>
    obtain ⟨e, he, h⟩ := commit_cons_ok.1 h
    obtain ⟨n, ws, hn, -, rfl⟩ := handleWitness_eq_ok.1 he
    obtain ⟨hnotes, hspends, hall⟩ := ih h
    exact ⟨hnotes, hspends, List.forall_mem_cons.2 ⟨⟨n, hn⟩, hall⟩⟩

/-- Messages about notes with different rows. -/
def Apart (u v : UTXO H) : Prop := u.account = v.account → u.cmx ≠ v.cmx

theorem Finds.ne {u v : UTXO H} {m n : NoteRow H} (hu : Finds db u m) (hv : Finds db v n)
    (h : Apart u v) : m.idNote ≠ n.idNote := by
  intro hid
  obtain rfl := db.notes.eq_of_clash hu.mem.1 hv.mem.1 (.inl hid)
  exact h (hu.mem.2.1.symm.trans hv.mem.2.1) (Option.some.inj (hu.mem.2.2.symm.trans hv.mem.2.2))

theorem accepts_witnesses {us : List (UTXO H)} {height : ℕ} (hapart : us.Pairwise Apart)
    (hfinds : ∀ u ∈ us, ∃ n, Finds db u n ∧
      ∀ w ∈ db.witnesses.rows, w.note = n.idNote → w.height ≠ height) :
    Accepts env db (us.map (witnessMessage height)) := by
  induction us generalizing db with
  | nil => exact accepts_nil
  | cons u us ih =>
    rw [List.pairwise_cons] at hapart
    rw [List.forall_mem_cons] at hfinds
    obtain ⟨⟨n, hn, hnone⟩, hrest⟩ := hfinds
    obtain ⟨ws, hws⟩ : ∃ ws, db.witnesses.insertNew? WitnessRow.idWitness
        (fun i => ⟨i, u.account, n.idNote, height, u.witness⟩) = some ws := by
      refine Table.exists_insert?.2 ?_
      rintro w hw (hid | ⟨hnote, hheight⟩)
      · exact (lt_nextId (List.mem_map_of_mem hw)).ne hid
      · exact hnone w hw hnote hheight
    refine accepts_cons.2 ⟨_, handleWitness_eq_ok.2 ⟨n, ws, hn, hws, rfl⟩, ih hapart.2 ?_⟩
    intro v hv
    obtain ⟨m, hm, hmnone⟩ := hrest v hv
    refine ⟨m, hm, fun w hw hnote => ?_⟩
    change w ∈ ws.rows at hw
    rw [(Table.insert?_eq_some.1 hws).2, List.mem_append, List.mem_singleton] at hw
    rcases hw with hw | rfl
    · exact hmnone w hw hnote
    · exact absurd hnote (hn.ne hm (hapart.1 v hv))

/-- A note is spent once, for it is no longer tracked then. -/
theorem accepts_spends {m : List (UTXO H)} {es : List (TxAt H × (ℕ × H))}
    (hapart : ∀ u ∈ m, ∀ v ∈ m, u.key ≠ v.key → Apart u v)
    (hfinds : ∀ u ∈ m, ∃ n, Finds db u n ∧ ∀ s ∈ db.spends.rows, s.idNote ≠ n.idNote) :
    Accepts env db (spendMessages m es) := by
  induction es generalizing db m with
  | nil => exact accepts_nil
  | cons e es ih =>
    have hsub : ∀ v ∈ m.filter (fun u => u.key ≠ e.2), v ∈ m ∧ v.key ≠ e.2 := fun v hv =>
      ⟨(List.mem_filter.1 hv).1, by simpa using (List.mem_filter.1 hv).2⟩
    have hapart' : ∀ u ∈ m.filter (fun u => u.key ≠ e.2), ∀ v ∈ m.filter (fun u => u.key ≠ e.2),
        u.key ≠ v.key → Apart u v :=
      fun u hu v hv => hapart u (hsub u hu).1 v (hsub v hv).1
    rw [spendMessages, accepts_append, eventMessages]
    cases hf : m.find? fun v => v.key = e.2 with
    | none => exact ⟨db, commit_nil_ok.2 rfl, ih hapart' fun v hv => hfinds v (hsub v hv).1⟩
    | some u =>
      have hu := List.mem_of_find?_eq_some hf
      have hkey : u.key = e.2 := by simpa using List.find?_some hf
      obtain ⟨n, hn, hnone⟩ := hfinds u hu
      obtain ⟨t, ht⟩ := exists_transactionsOf db (txOf e.1 u.account)
      obtain ⟨ss, hss⟩ := Table.exists_insert? (t := db.spends)
        (r := spendRow { u with txid := e.1.tx.hash } n t) |>.2 fun s hs hc => hnone s hs hc
      refine ⟨{ db.handleTransaction (txOf e.1 u.account) with spends := ss },
        commit_cons_ok.2 ⟨_, rfl, commit_cons_ok.2 ⟨_, handleSpend_eq_ok.2
          ⟨n, t, ss, hn, ht, hss, rfl⟩, commit_nil_ok.2 rfl⟩⟩, ih hapart' fun v hv => ?_⟩
      obtain ⟨k, hk, hknone⟩ := hfinds v (hsub v hv).1
      refine ⟨k, hk, fun s hs => ?_⟩
      change s ∈ ss.rows at hs
      rw [(Table.insert?_eq_some.1 hss).2, List.mem_append, List.mem_singleton] at hs
      rcases hs with hs | rfl
      · exact hknone s hs
      · exact hn.ne hk (hapart u hu v (hsub v hv).1 fun h => (hsub v hv).2 (h ▸ hkey))

/-! ### The rest -/

theorem accepts_checkpoint {accounts : List ℕ} {pool height : ℕ} (hp : isPool pool = true) :
    Accepts env db [.checkpoint accounts pool height] := by
  suffices h : ∃ d, accounts.foldlM (checkpointAccount pool height) db = .ok d by
    obtain ⟨d, hd⟩ := h
    exact ⟨d, commit_cons_ok.2 ⟨d, hd, commit_nil_ok.2 rfl⟩⟩
  induction accounts generalizing db with
  | nil => exact ⟨db, rfl⟩
  | cons a accounts ih =>
    have hstep : ∃ d, checkpointAccount pool height db a = .ok d := by
      unfold checkpointAccount
      rw [if_pos hp]
      split <;> exact ⟨_, rfl⟩
    obtain ⟨d, hd⟩ := hstep
    obtain ⟨d', hd'⟩ := @ih d
    exact ⟨d', by rw [List.foldlM_cons, hd]; exact hd'⟩

end ZcashSdk.Db
