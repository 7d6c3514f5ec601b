import ZcashSdk.Discovery.Window
import ZcashSdk.Db.MessageEffects

set_option autoImplicit false

/-!
# Windows in any order

The rows of a window are inserted unless they clash, under the next number of their table,
and a note or a spend names the rows it belongs to by their numbers. The tables that a set
of windows leaves are described here without the numbers, and two outcomes that fit the
description differ in the numbers of the added rows only.
-/
namespace ZcashSdk.Discovery
open Tables Shielded Db Database Loops

variable {H : Type} [DecidableEq H]

/-! ### What windows write -/

/-- What was delivered for an account; a note comes with the row of its address. -/
structure Delivered where
  transactions : Set (Bytes × ℕ)
  notes : Set (ℕ × NoteItem)
  vins : Set VinItem

def transparentNote (account idTaddress : ℕ) (x : NoteItem) (tx i : ℕ) : NoteRow H :=
  { idNote := i, height := x.height, account := account, pool := 0, scope := none,
    nullifier := .outpoint x.nullifier, tx := tx, value := x.value, cmx := none,
    taddress := some idTaddress, position := none, diversifier := none, rcm := none,
    rho := none, idAsset := none, diversifierIndex := none }

section Adds
variable (S : Delivered) (account : ℕ) (d : Database H)

def NewTx (t : TransactionRow) : Prop :=
  ∃ x ∈ S.transactions, t = ⟨t.idTx, x.1, x.2, account, 0, {}⟩

def NewNote (n : NoteRow H) : Prop :=
  ∃ x ∈ S.notes, ∃ t ∈ d.transactions.rows, t.account = account ∧ t.txid = x.2.txid ∧
    n = transparentNote account x.1 x.2 t.idTx n.idNote

def NewSpend (s : SpendRow) : Prop :=
  ∃ v ∈ S.vins, ∃ n ∈ d.notes.rows, n.account = account ∧ n.nullifier = .outpoint v.outpoint ∧
    ∃ t ∈ d.transactions.rows, t.account = account ∧ t.txid = v.txid ∧
      s = ⟨n.idNote, v.height, account, 0, t.idTx, -n.value⟩

structure Adds (db d : Database H) : Prop where
  keptTx : ∀ t ∈ db.transactions.rows, t ∈ d.transactions.rows
  keptNote : ∀ n ∈ db.notes.rows, n ∈ d.notes.rows
  keptSpend : ∀ s ∈ db.spends.rows, s ∈ d.spends.rows
  newTx : ∀ t ∈ d.transactions.rows, t ∈ db.transactions.rows ∨ NewTx S account t
  newNote : ∀ n ∈ d.notes.rows, n ∈ db.notes.rows ∨ NewNote S account d n
  newSpend : ∀ s ∈ d.spends.rows, s ∈ db.spends.rows ∨ NewSpend S account d s

structure Stores : Prop where
  transactions : ∀ x ∈ S.transactions, ∃ t ∈ d.transactions.rows, t.account = account ∧ t.txid = x.1
  notes : ∀ x ∈ S.notes, ∃ n ∈ d.notes.rows, n.account = account ∧
    n.nullifier = .outpoint x.2.nullifier
  spends : ∀ v ∈ S.vins, ∀ n ∈ d.notes.rows, n.account = account →
    n.nullifier = .outpoint v.outpoint → ∃ s ∈ d.spends.rows, s.idNote = n.idNote

end Adds

section Steps
variable {S : Delivered} {account : ℕ} {db d d' : Database H}

theorem NewNote.mono {n : NoteRow H} (h : NewNote S account d n)
    (ht : ∀ t ∈ d.transactions.rows, t ∈ d'.transactions.rows) : NewNote S account d' n := by
  obtain ⟨x, hx, t, htx, hrest⟩ := h
  exact ⟨x, hx, t, ht t htx, hrest⟩

theorem NewSpend.mono {s : SpendRow} (h : NewSpend S account d s)
    (ht : ∀ t ∈ d.transactions.rows, t ∈ d'.transactions.rows)
    (hn : ∀ n ∈ d.notes.rows, n ∈ d'.notes.rows) : NewSpend S account d' s := by
  obtain ⟨v, hv, n, hnm, hacc, hnf, t, htm, hrest⟩ := h
  exact ⟨v, hv, n, hn n hnm, hacc, hnf, t, ht t htm, hrest⟩

theorem Adds.refl (db : Database H) : Adds S account db db :=
  ⟨fun _ => id, fun _ => id, fun _ => id, fun _ => Or.inl, fun _ => Or.inl, fun _ => Or.inl⟩

theorem Adds.trans (h : Adds S account db d) (h' : Adds S account d d') : Adds S account db d' where
  keptTx t ht := h'.keptTx t (h.keptTx t ht)
  keptNote n hn := h'.keptNote n (h.keptNote n hn)
  keptSpend s hs := h'.keptSpend s (h.keptSpend s hs)
  newTx t ht := by
    rcases h'.newTx t ht with ht | ht
    · exact h.newTx t ht
    · exact Or.inr ht
  newNote n hn := by
    rcases h'.newNote n hn with hn | hn
    · exact (h.newNote n hn).imp id fun hn => hn.mono h'.keptTx
    · exact Or.inr hn
  newSpend s hs := by
    rcases h'.newSpend s hs with hs | hs
    · exact (h.newSpend s hs).imp id fun hs => hs.mono h'.keptTx h'.keptNote
    · exact Or.inr hs

theorem adds_markSeenUsed (idTaddress : ℕ) : Adds S account d (markSeenUsed d idTaddress) :=
  ⟨fun _ => id, fun _ => id, fun _ => id, fun _ => Or.inl, fun _ => Or.inl, fun _ => Or.inl⟩

theorem adds_writeTransaction {x : Bytes × ℕ} (hx : x ∈ S.transactions) :
    Adds S account d (writeTransaction account d x) where
  keptTx t ht := Table.mem_insertOrIgnore_of_mem ht
  keptNote _ := id
  keptSpend _ := id
  newTx t ht := by
    rcases Table.mem_insertOrIgnore.1 ht with ht | ⟨rfl, -⟩
    · exact Or.inl ht
    · exact Or.inr ⟨x, hx, rfl⟩
  newNote _ := Or.inl
  newSpend _ := Or.inl

theorem adds_writeNote {x : ℕ × NoteItem} (hx : x ∈ S.notes) :
    Adds S account d (writeNote account x.1 d x.2) := by
  have hfold := foldl_inv (l := d.transactionsOf account x.2.txid)
    (f := fun (notes : Table (NoteRow H)) t =>
      notes.insertNewOrIgnore NoteRow.idNote (transparentNote account x.1 x.2 t.idTx))
    (I := fun notes => (∀ n ∈ d.notes.rows, n ∈ notes.rows) ∧
      ∀ n ∈ notes.rows, n ∈ d.notes.rows ∨ NewNote S account d n) (by
      rintro notes t ht ⟨hkept, hnew⟩
      refine ⟨fun n hn => Table.mem_insertOrIgnore_of_mem (hkept n hn), fun n hn => ?_⟩
      rcases Table.mem_insertOrIgnore.1 hn with hn | ⟨rfl, -⟩
      · exact hnew n hn
      · obtain ⟨htm, hacc, htxid⟩ := mem_transactionsOf.1 ht
        exact Or.inr ⟨x, hx, t, htm, hacc, htxid, rfl⟩) ⟨fun _ => id, fun _ => Or.inl⟩
  exact ⟨fun _ => id, hfold.1, fun _ => id, fun _ => Or.inl, hfold.2, fun _ => Or.inl⟩

theorem adds_writeSpend {v : VinItem} (hv : v ∈ S.vins) :
    Adds S account d (writeSpend account d v) := by
  unfold writeSpend
  split
  · rename_i n hfind
    have hkey := List.find?_some hfind
    rw [decide_eq_true_eq] at hkey
    have hfold := foldl_inv (l := d.transactionsOf account v.txid)
      (f := fun (spends : Table SpendRow) t =>
        spends.insertOrIgnore ⟨n.idNote, v.height, account, 0, t.idTx, -n.value⟩)
      (I := fun spends => (∀ s ∈ d.spends.rows, s ∈ spends.rows) ∧
        ∀ s ∈ spends.rows, s ∈ d.spends.rows ∨ NewSpend S account d s) (by
        rintro spends t ht ⟨hkept, hnew⟩
        refine ⟨fun s hs => Table.mem_insertOrIgnore_of_mem (hkept s hs), fun s hs => ?_⟩
        rcases Table.mem_insertOrIgnore.1 hs with hs | ⟨rfl, -⟩
        · exact hnew s hs
        · obtain ⟨htm, hacc, htxid⟩ := mem_transactionsOf.1 ht
          exact Or.inr ⟨v, hv, n, List.mem_of_find?_eq_some hfind, hkey.1, hkey.2, t, htm, hacc,
            htxid, rfl⟩) ⟨fun _ => id, fun _ => Or.inl⟩
    exact ⟨fun _ => id, fun _ => id, hfold.1, fun _ => Or.inl, fun _ => Or.inl, hfold.2⟩
  · exact .refl d

theorem exists_writeTransaction (x : Bytes × ℕ) :
    ∃ t ∈ (writeTransaction account d x).transactions.rows, t.account = account ∧ t.txid = x.1 := by
  refine d.transactions.exists_insertNewOrIgnore (K := fun t => t.account = account ∧ t.txid = x.1)
    (fun i => ⟨rfl, rfl⟩) (fun t i hc => ?_)
  exact hc

theorem exists_writeNote {x : ℕ × NoteItem}
    (ht : ∃ t ∈ d.transactions.rows, t.account = account ∧ t.txid = x.2.txid) :
    ∃ n ∈ (writeNote account x.1 d x.2).notes.rows, n.account = account ∧
      n.nullifier = .outpoint x.2.nullifier := by
  obtain ⟨t, ht, hkey⟩ := ht
  refine foldl_reach (I := fun _ => True) (P := fun _ (notes : Table (NoteRow H)) =>
      ∃ n ∈ notes.rows, n.account = account ∧ n.nullifier = .outpoint x.2.nullifier)
    (fun _ _ _ _ => trivial) (fun notes u _ _ => ?_) (fun notes u _ _ _ hn => ?_) trivial t
    (mem_transactionsOf.2 ⟨ht, hkey⟩)
  · exact notes.exists_insertNewOrIgnore
      (K := fun n => n.account = account ∧ n.nullifier = .outpoint x.2.nullifier)
      (fun i => ⟨rfl, rfl⟩) (fun n i hc => hc)
  · obtain ⟨n, hn, hrest⟩ := hn
    exact ⟨n, Table.mem_insertOrIgnore_of_mem hn, hrest⟩

theorem find?_outpoint {n : NoteRow H} {outpoint : Bytes} (hn : n ∈ d.notes.rows)
    (hacc : n.account = account) (hnf : n.nullifier = .outpoint outpoint) :
    (d.notes.rows.find? fun n => n.account = account ∧ n.nullifier = .outpoint outpoint) =
      some n := by
  rw [d.notes.find?_eq_some fun a ha b hb hpa hpb => ?_]
  · exact ⟨hn, by simp [hacc, hnf]⟩
  · rw [decide_eq_true_eq] at hpa hpb
    exact d.notes.eq_of_clash ha hb
      (Or.inr ⟨hpa.1.trans hpb.1.symm, hpa.2.trans hpb.2.symm⟩)

theorem exists_writeSpend {v : VinItem} {n : NoteRow H}
    (ht : ∃ t ∈ d.transactions.rows, t.account = account ∧ t.txid = v.txid)
    (hn : n ∈ d.notes.rows) (hacc : n.account = account) (hnf : n.nullifier = .outpoint v.outpoint) :
    ∃ s ∈ (writeSpend account d v).spends.rows, s.idNote = n.idNote := by
  obtain ⟨t, ht, hkey⟩ := ht
  rw [writeSpend, find?_outpoint hn hacc hnf]
  refine foldl_reach (I := fun _ => True) (P := fun _ (spends : Table SpendRow) =>
      ∃ s ∈ spends.rows, s.idNote = n.idNote)
    (fun _ _ _ _ => trivial) (fun spends u _ _ => ?_) (fun spends u _ _ _ hs => ?_) trivial t
    (mem_transactionsOf.2 ⟨ht, hkey⟩)
  · exact spends.exists_clash_insertOrIgnore _
  · obtain ⟨s, hs, hid⟩ := hs
    exact ⟨s, Table.mem_insertOrIgnore_of_mem hs, hid⟩

@[simp] theorem writeNote_transactions (idTaddress : ℕ) (x : NoteItem) :
    (writeNote account idTaddress d x).transactions = d.transactions := rfl

@[simp] theorem writeSpend_transactions (v : VinItem) :
    (writeSpend account d v).transactions = d.transactions := by
  unfold writeSpend
  split <;> rfl

@[simp] theorem writeSpend_notes (v : VinItem) : (writeSpend account d v).notes = d.notes := by
  unfold writeSpend
  split <;> rfl

end Steps

/-! ### One window -/

def WindowRows.delivered (rows : WindowRows) (idTaddress : ℕ) : Delivered where
  transactions := {x | x ∈ rows.transactions}
  notes := {x | x.1 = idTaddress ∧ x.2 ∈ rows.notes}
  vins := {v | v ∈ rows.vins}

/-- The transaction of each note and of each input is in the window. -/
structure WindowRows.Closed (rows : WindowRows) : Prop where
  notes : ∀ x ∈ rows.notes, ∃ t ∈ rows.transactions, t.1 = x.txid
  vins : ∀ v ∈ rows.vins, ∃ t ∈ rows.transactions, t.1 = v.txid

section Window
variable {rows : WindowRows} {account idTaddress : ℕ} {d : Database H}

theorem adds_write (d : Database H) (used : Bool) :
    Adds (rows.delivered idTaddress) account d
      (writeTransparentWindow d account idTaddress rows used) := by
  have hused : Adds (rows.delivered idTaddress) account d
      (if used then markSeenUsed d idTaddress else d) := by
    split
    · exact adds_markSeenUsed idTaddress
    · exact .refl d
  refine foldl_inv (fun e v hv he => he.trans (adds_writeSpend hv)) ?_
  refine foldl_inv (fun e x hx he => he.trans (adds_writeNote (x := (idTaddress, x)) ⟨rfl, hx⟩)) ?_
  exact foldl_inv (fun e x hx he => he.trans (adds_writeTransaction hx)) hused

variable (rows account idTaddress)

theorem stores_transactions (d : Database H) : ∀ x ∈ rows.transactions,
    ∃ t ∈ (rows.transactions.foldl (writeTransaction account) d).transactions.rows,
      t.account = account ∧ t.txid = x.1 := by
  refine foldl_reach (I := fun _ => True) (P := fun (x : Bytes × ℕ) (e : Database H) =>
      ∃ t ∈ e.transactions.rows, t.account = account ∧ t.txid = x.1) (fun _ _ _ _ => trivial)
    (fun e x _ _ => exists_writeTransaction x) (fun e x _ y _ ht => ?_) trivial
  obtain ⟨t, ht, hkey⟩ := ht
  exact ⟨t, Table.mem_insertOrIgnore_of_mem ht, hkey⟩

theorem foldl_writeNote_transactions (xs : List NoteItem) (d : Database H) :
    (xs.foldl (writeNote account idTaddress) d).transactions = d.transactions :=
  foldl_inv (f := writeNote account idTaddress)
    (I := fun e : Database H => e.transactions = d.transactions) (fun _ _ _ he => he) rfl

theorem stores_notes (hrows : ∀ x ∈ rows.notes, ∃ t ∈ d.transactions.rows,
      t.account = account ∧ t.txid = x.txid) : ∀ x ∈ rows.notes,
    ∃ n ∈ (rows.notes.foldl (writeNote account idTaddress) d).notes.rows,
      n.account = account ∧ n.nullifier = .outpoint x.nullifier := by
  refine foldl_reach (f := writeNote account idTaddress)
    (I := fun e : Database H => e.transactions = d.transactions)
    (P := fun (x : NoteItem) (e : Database H) => ∃ n ∈ e.notes.rows, n.account = account ∧
      n.nullifier = .outpoint x.nullifier)
    (fun (e : Database H) x _ he => he) (fun e x hx he => ?_) (fun e x hx y _ hn => ?_) rfl
  · have ht := hrows x hx
    rw [← he] at ht
    exact exists_writeNote (x := (idTaddress, x)) ht
  · obtain ⟨n, hn, hkey⟩ := hn
    have hadd : Adds ⟨∅, {y | y = (idTaddress, x)}, ∅⟩ account e (writeNote account idTaddress e x) :=
      adds_writeNote (x := (idTaddress, x)) rfl
    exact ⟨n, hadd.keptNote n hn, hkey⟩

theorem stores_spends (hrows : ∀ v ∈ rows.vins, ∃ t ∈ d.transactions.rows,
      t.account = account ∧ t.txid = v.txid) : ∀ v ∈ rows.vins, ∀ n ∈ d.notes.rows,
    n.account = account → n.nullifier = .outpoint v.outpoint →
      ∃ s ∈ (rows.vins.foldl (writeSpend account) d).spends.rows, s.idNote = n.idNote := by
  refine foldl_reach
    (I := fun e : Database H => e.transactions = d.transactions ∧ e.notes = d.notes)
    (P := fun (v : VinItem) (e : Database H) => ∀ n ∈ d.notes.rows, n.account = account →
      n.nullifier = .outpoint v.outpoint → ∃ s ∈ e.spends.rows, s.idNote = n.idNote)
    (fun e v _ he => by simpa using he) (fun e v hv he n hn hacc hnf => ?_)
    (fun e v hv w _ hs n hn hacc hnf => ?_) ⟨rfl, rfl⟩
  · have ht := hrows v hv
    rw [← he.1] at ht
    exact exists_writeSpend ht (he.2 ▸ hn) hacc hnf
  · obtain ⟨s, hs, hid⟩ := hs n hn hacc hnf
    have hadd : Adds ⟨∅, ∅, {y | y = v}⟩ account e (writeSpend account e v) := adds_writeSpend rfl
    exact ⟨s, hadd.keptSpend s hs, hid⟩

theorem foldl_writeSpend_same (vs : List VinItem) (d : Database H) :
    (vs.foldl (writeSpend account) d).transactions = d.transactions ∧
      (vs.foldl (writeSpend account) d).notes = d.notes :=
  foldl_inv (I := fun e : Database H => e.transactions = d.transactions ∧ e.notes = d.notes)
    (fun e v _ he => by simpa using he) ⟨rfl, rfl⟩

variable {rows account idTaddress}

theorem stores_write (hrows : rows.Closed) (d : Database H) (used : Bool) :
    Stores (rows.delivered idTaddress) account
      (writeTransparentWindow d account idTaddress rows used) := by
  unfold writeTransparentWindow
  generalize (if used then markSeenUsed d idTaddress else d) = d₀
  -- each loop establishes its part and leaves the tables of the loops before it
  dsimp only
  have htxs := stores_transactions rows account d₀
  generalize rows.transactions.foldl (writeTransaction account) d₀ = d₁ at htxs ⊢
  have hfor : ∀ txid, (∃ t ∈ rows.transactions, t.1 = txid) →
      ∃ t ∈ d₁.transactions.rows, t.account = account ∧ t.txid = txid := by
    rintro txid ⟨x, hx, rfl⟩
    exact htxs x hx
  have hnotes := stores_notes rows account idTaddress fun x hx => hfor x.txid (hrows.notes x hx)
  have hsame := foldl_writeNote_transactions account idTaddress rows.notes d₁
  generalize rows.notes.foldl (writeNote account idTaddress) d₁ = d₂ at hnotes hsame ⊢
  have hspends := stores_spends rows account (d := d₂)
    fun v hv => hsame ▸ hfor v.txid (hrows.vins v hv)
  obtain ⟨htx, hn⟩ := foldl_writeSpend_same account rows.vins d₂
  generalize rows.vins.foldl (writeSpend account) d₂ = d₃ at hspends htx hn ⊢
  refine ⟨fun x hx => ?_, fun x hx => ?_, fun v hv n hmem => hspends v hv n (hn ▸ hmem)⟩
  · rw [htx, hsame]
    exact htxs x hx
  · rw [hn]
    exact hnotes x.2 hx.2

end Window

/-! ### The same up to numbers -/

/-- The tables hold the rows of `old`, and the rows added to them are renamed by `f`. -/
def AddedAlike {R : Type} [Row R] (old : Table R) (f : R → R) (t u : Table R) : Prop :=
  (∀ r ∈ old.rows, r ∈ t.rows) ∧
    ∀ r, r ∈ u.rows ↔ r ∈ old.rows ∨ ∃ x ∈ t.rows, x ∉ old.rows ∧ r = f x

/-- `ρ` renumbers transactions and `ν` notes, also where other rows name them. -/
structure Renumbers (db d e : Database H) (ρ ν : ℕ → ℕ) : Prop where
  transactions : AddedAlike db.transactions (fun t => { t with idTx := ρ t.idTx })
    d.transactions e.transactions
  notes : AddedAlike db.notes (fun n => { n with idNote := ν n.idNote, tx := ρ n.tx })
    d.notes e.notes
  spends : AddedAlike db.spends (fun s => { s with idNote := ν s.idNote, tx := ρ s.tx })
    d.spends e.spends
  oldTx : ∀ t ∈ db.transactions.rows, ρ t.idTx = t.idTx
  oldNote : ∀ n ∈ db.notes.rows, ν n.idNote = n.idNote
  injTx : ∀ t ∈ d.transactions.rows, ∀ u ∈ d.transactions.rows, ρ t.idTx = ρ u.idTx → t = u
  injNote : ∀ m ∈ d.notes.rows, ∀ n ∈ d.notes.rows, ν m.idNote = ν n.idNote → m = n

/-- Two outcomes of writing to `db` have the same transactions, notes and spends up to the
    numbers of the rows they added. -/
def SameUpToIds (db d e : Database H) : Prop := ∃ ρ ν, Renumbers db d e ρ ν

/-- A transaction has one height, an output one row, and only one input spends it. -/
structure Delivered.Consistent (S : Delivered) : Prop where
  height : ∀ x ∈ S.transactions, ∀ y ∈ S.transactions, x.1 = y.1 → x = y
  note : ∀ x ∈ S.notes, ∀ y ∈ S.notes, x.2.nullifier = y.2.nullifier → x = y
  spend : ∀ v ∈ S.vins, ∀ w ∈ S.vins, v.outpoint = w.outpoint → v = w

/-- Every spend is of a stored note. -/
def SpendsRefer (db : Database H) : Prop :=
  ∀ s ∈ db.spends.rows, ∃ n ∈ db.notes.rows, n.idNote = s.idNote

theorem Adds.spendsRefer {S : Delivered} {account : ℕ} {db d : Database H}
    (h : Adds S account db d) (hdb : SpendsRefer db) : SpendsRefer d := by
  intro s hs
  rcases h.newSpend s hs with hold | ⟨v, -, n, hn, -, -, t, -, -, -, hsv⟩
  · obtain ⟨n, hn, hid⟩ := hdb s hold
    exact ⟨n, h.keptNote n hn, hid⟩
  · exact ⟨n, hn, by rw [hsv]⟩

def txKey (t : TransactionRow) : ℕ × Bytes := (t.account, t.txid)

def noteKey (n : NoteRow H) : ℕ × NullifierKey H := (n.account, n.nullifier)

theorem tx_clash {t u : TransactionRow} (h : txKey t = txKey u) : Row.Clash t u :=
  Or.inr (Prod.mk.inj h)

theorem note_clash {m n : NoteRow H} (h : noteKey m = noteKey n) : Row.Clash m n :=
  Or.inr (Prod.mk.inj h)

section Counterpart
variable {S : Delivered} {account : ℕ} {db d e : Database H}

theorem tx_counterpart (hS : S.Consistent) (h : Adds S account db d) (h' : Adds S account db e)
    (hc : Stores S account e) {t : TransactionRow} (ht : t ∈ d.transactions.rows) :
    ∃ u ∈ e.transactions.rows, txKey t = txKey u ∧ u = { t with idTx := u.idTx } ∧
      (t ∈ db.transactions.rows ↔ u ∈ db.transactions.rows) := by
  rcases h.newTx t ht with hold | ⟨x, hx, htx⟩
  · exact ⟨t, h'.keptTx t hold, rfl, rfl, Iff.rfl⟩
  · obtain ⟨u, hu, hacc, htxid⟩ := hc.transactions x hx
    have hkey : txKey t = txKey u := by
      rw [htx]
      exact Prod.ext hacc.symm htxid.symm
    rcases h'.newTx u hu with hold | ⟨y, hy, huy⟩
    · obtain rfl := d.transactions.eq_of_clash ht (h.keptTx u hold) (tx_clash hkey)
      exact ⟨t, hu, rfl, rfl, Iff.rfl⟩
    · have hxy : x = y := hS.height x hx y hy (by rw [← htxid, huy])
      refine ⟨u, hu, hkey, ?_, fun hold => ?_, fun hold => ?_⟩
      · rw [htx, huy, hxy]
      · obtain rfl := e.transactions.eq_of_clash hu (h'.keptTx t hold) (tx_clash hkey.symm)
        exact hold
      · obtain rfl := d.transactions.eq_of_clash ht (h.keptTx u hold) (tx_clash hkey)
        exact hold

theorem note_counterpart (hS : S.Consistent) (h : Adds S account db d) (h' : Adds S account db e)
    (hc : Stores S account e) {n : NoteRow H} (hn : n ∈ d.notes.rows) :
    ∃ m ∈ e.notes.rows, noteKey n = noteKey m ∧ m.value = n.value ∧
      (n ∈ db.notes.rows ↔ m ∈ db.notes.rows) ∧
      (n ∉ db.notes.rows → ∃ t ∈ d.transactions.rows, ∃ u ∈ e.transactions.rows,
        txKey t = txKey u ∧ n.tx = t.idTx ∧ m = { n with idNote := m.idNote, tx := u.idTx }) := by
  rcases h.newNote n hn with hold | ⟨x, hx, t, ht, htacc, httxid, hnx⟩
  · exact ⟨n, h'.keptNote n hold, rfl, rfl, Iff.rfl, fun hnew => absurd hold hnew⟩
  · obtain ⟨m, hm, hacc, hnf⟩ := hc.notes x hx
    have hkey : noteKey n = noteKey m := by
      rw [hnx]
      exact Prod.ext hacc.symm hnf.symm
    have hiff : n ∈ db.notes.rows ↔ m ∈ db.notes.rows := by
      constructor
      · intro hold
        obtain rfl := e.notes.eq_of_clash hm (h'.keptNote n hold) (note_clash hkey.symm)
        exact hold
      · intro hold
        obtain rfl := d.notes.eq_of_clash hn (h.keptNote m hold) (note_clash hkey)
        exact hold
    rcases h'.newNote m hm with hold | ⟨y, hy, u, hu, huacc, hutxid, hmy⟩
    · obtain rfl := d.notes.eq_of_clash hn (h.keptNote m hold) (note_clash hkey)
      exact ⟨n, hm, rfl, rfl, Iff.rfl, fun hnew => absurd hold hnew⟩
    · have hxy : x = y := by
        refine hS.note x hx y hy ?_
        rw [hmy] at hnf
        exact (NullifierKey.outpoint.inj hnf).symm
      subst hxy
      refine ⟨m, hm, hkey, ?_, hiff, fun _ => ⟨t, ht, u, hu, ?_, ?_, ?_⟩⟩
      · rw [hnx, hmy]
        rfl
      · exact Prod.ext (htacc.trans huacc.symm) (httxid.trans hutxid.symm)
      · rw [hnx]
        rfl
      · rw [hnx, hmy]
        rfl

/-- A spend that was added has its like: were it kept out by an old one, that one would be of
    an old note, which has the same number in both outcomes. -/
theorem spend_counterpart (hS : S.Consistent) (hdb : SpendsRefer db) (h : Adds S account db d)
    (h' : Adds S account db e) (hc : Stores S account e) {s : SpendRow} (hs : s ∈ d.spends.rows)
    (hnew : s ∉ db.spends.rows) :
    ∃ r ∈ e.spends.rows, r ∉ db.spends.rows ∧
      ∃ n ∈ d.notes.rows, ∃ m ∈ e.notes.rows, noteKey n = noteKey m ∧ s.idNote = n.idNote ∧
      ∃ t ∈ d.transactions.rows, ∃ u ∈ e.transactions.rows, txKey t = txKey u ∧ s.tx = t.idTx ∧
        r = { s with idNote := m.idNote, tx := u.idTx } := by
  obtain ⟨v, hv, n, hn, hacc, hnf, t, ht, htacc, httxid, hsv⟩ := (h.newSpend s hs).resolve_left hnew
  obtain ⟨m, hm, hkey, hvalue, hiff, -⟩ := note_counterpart hS h h' hc hn
  obtain ⟨hmacc, hmnf⟩ := Prod.mk.inj hkey
  obtain ⟨r, hr, hid⟩ := hc.spends v hv m hm (hmacc.symm.trans hacc) (hmnf.symm.trans hnf)
  have hadded : r ∉ db.spends.rows := by
    intro hold
    obtain ⟨k, hk, hkid⟩ := hdb r hold
    obtain rfl := e.notes.eq_of_clash (h'.keptNote k hk) hm (Or.inl (hkid.trans hid))
    obtain rfl := d.notes.eq_of_clash (h.keptNote k hk) hn (note_clash hkey.symm)
    obtain rfl : s = r := d.spends.eq_of_clash hs (h.keptSpend r hold) (by
      change s.idNote = r.idNote
      rw [hid, hsv])
    exact hnew hold
  obtain ⟨w, hw, k, hk, hkacc, hknf, u, hu, huacc, hutxid, hrw⟩ :=
    (h'.newSpend r hr).resolve_left hadded
  obtain rfl : k = m := e.notes.eq_of_clash hk hm (Or.inl (by rw [← hid, hrw]))
  have hvw : v = w := by
    refine hS.spend v hv w hw (NullifierKey.outpoint.inj (H := H) ?_)
    rw [← hnf, hmnf, hknf]
  subst hvw
  refine ⟨r, hr, hadded, n, hn, k, hm, hkey, by rw [hsv], t, ht, u, hu,
    Prod.ext (htacc.trans huacc.symm) (httxid.trans hutxid.symm), by rw [hsv], ?_⟩
  rw [hsv, hrw, hvalue]

/-- What a consistent delivery leaves is determined up to numbers. -/
theorem sameUpToIds (hS : S.Consistent) (hdb : SpendsRefer db) (h : Adds S account db d)
    (hc : Stores S account d) (h' : Adds S account db e) (hc' : Stores S account e) :
    SameUpToIds db d e := by
  obtain ⟨ρ, hρ⟩ := d.transactions.exists_renumbering e.transactions TransactionRow.idTx txKey
    (fun _ _ => Or.inl) (fun _ _ => tx_clash)
  obtain ⟨ν, hν⟩ := d.notes.exists_renumbering e.notes NoteRow.idNote noteKey
    (fun _ _ => Or.inl) (fun _ _ => note_clash)
  refine ⟨ρ, ν, ⟨h.keptTx, fun r => ?_⟩, ⟨h.keptNote, fun r => ?_⟩, ⟨h.keptSpend, fun r => ?_⟩,
    fun t ht => hρ t (h.keptTx t ht) t (h'.keptTx t ht) rfl,
    fun n hn => hν n (h.keptNote n hn) n (h'.keptNote n hn) rfl, ?_, ?_⟩
  · constructor
    · intro hr
      obtain ⟨t, ht, hkey, htr, hiff⟩ := tx_counterpart hS h' h hc hr
      by_cases hold : r ∈ db.transactions.rows
      · exact Or.inl hold
      · refine Or.inr ⟨t, ht, fun ht => hold (hiff.2 ht), ?_⟩
        dsimp only
        rw [hρ t ht r hr hkey.symm, htr]
    · rintro (hr | ⟨t, ht, -, rfl⟩)
      · exact h'.keptTx r hr
      · obtain ⟨u, hu, hkey, hut, -⟩ := tx_counterpart hS h h' hc' ht
        dsimp only
        rw [hρ t ht u hu hkey, ← hut]
        exact hu
  · constructor
    · intro hr
      obtain ⟨n, hn, hkey, -, hiff, hadded⟩ := note_counterpart hS h' h hc hr
      by_cases hold : r ∈ db.notes.rows
      · exact Or.inl hold
      · obtain ⟨u, hu, t, ht, htx, hru, hnr⟩ := hadded hold
        refine Or.inr ⟨n, hn, fun hn => hold (hiff.2 hn), ?_⟩
        have hnt : n.tx = t.idTx := by rw [hnr]
        dsimp only
        rw [hν n hn r hr hkey.symm, hnt, hρ t ht u hu htx.symm, ← hru, hnr]
    · rintro (hr | ⟨n, hn, hnew, rfl⟩)
      · exact h'.keptNote r hr
      · obtain ⟨m, hm, hkey, -, -, hadded⟩ := note_counterpart hS h h' hc' hn
        obtain ⟨t, ht, u, hu, htx, hnt, hmn⟩ := hadded hnew
        dsimp only
        rw [hν n hn m hm hkey, hnt, hρ t ht u hu htx, ← hmn]
        exact hm
  · constructor
    · intro hr
      by_cases hold : r ∈ db.spends.rows
      · exact Or.inl hold
      · obtain ⟨s, hs, hsnew, m, hm, n, hn, hkey, hrm, u, hu, t, ht, htx, hru, hsr⟩ :=
          spend_counterpart hS hdb h' h hc hr hold
        refine Or.inr ⟨s, hs, hsnew, ?_⟩
        rw [hsr]
        dsimp only
        rw [hν n hn m hm hkey.symm, hρ t ht u hu htx.symm, ← hrm, ← hru]
    · rintro (hr | ⟨s, hs, hnew, rfl⟩)
      · exact h'.keptSpend r hr
      · obtain ⟨r, hr, -, n, hn, m, hm, hkey, hsn, t, ht, u, hu, htx, hst, hrs⟩ :=
          spend_counterpart hS hdb h h' hc' hs hnew
        dsimp only
        rw [hsn, hst, hν n hn m hm hkey, hρ t ht u hu htx, ← hrs]
        exact hr
  · intro t ht u hu heq
    obtain ⟨t', ht', hkt, -⟩ := tx_counterpart hS h h' hc' ht
    obtain ⟨u', hu', hku, -⟩ := tx_counterpart hS h h' hc' hu
    rw [hρ t ht t' ht' hkt, hρ u hu u' hu' hku] at heq
    obtain rfl := e.transactions.eq_of_clash ht' hu' (Or.inl heq)
    exact d.transactions.eq_of_clash ht hu (tx_clash (hkt.trans hku.symm))
  · intro m hm n hn heq
    obtain ⟨m', hm', hkm, -⟩ := note_counterpart hS h h' hc' hm
    obtain ⟨n', hn', hkn, -⟩ := note_counterpart hS h h' hc' hn
    rw [hν m hm m' hm' hkm, hν n hn n' hn' hkn] at heq
    obtain rfl := e.notes.eq_of_clash hm' hn' (Or.inl heq)
    exact d.notes.eq_of_clash hm hn (note_clash (hkm.trans hkn.symm))

end Counterpart

/-! ### Windows of several addresses -/

/-- A window that was delivered: the row of its address, its rows and whether the address is
    used. -/
structure Delivery where
  idTaddress : ℕ
  rows : WindowRows
  used : Bool

def Delivery.delivered (w : Delivery) : Delivered := w.rows.delivered w.idTaddress

def writeDeliveries (account : ℕ) (db : Database H) (ws : List Delivery) : Database H :=
  ws.foldl (fun d w => writeTransparentWindow d account w.idTaddress w.rows w.used) db

def Delivered.union (Ss : Set Delivered) : Delivered where
  transactions := {x | ∃ S ∈ Ss, x ∈ S.transactions}
  notes := {x | ∃ S ∈ Ss, x ∈ S.notes}
  vins := {v | ∃ S ∈ Ss, v ∈ S.vins}

/-- An answer carries all inputs that spend its outputs, so far as any answer does. -/
def Answers (Ss : Set Delivered) : Prop :=
  ∀ S ∈ Ss, ∀ T ∈ Ss, ∀ x ∈ S.notes, ∀ v ∈ T.vins, v.outpoint = x.2.nullifier → v ∈ S.vins

section Deliveries
variable {Ss : Set Delivered} {S W : Delivered} {account : ℕ} {db d e : Database H}
  {ws : List Delivery}

theorem Adds.mono (h : Adds S account db d) (hS : S ∈ Ss) :
    Adds (Delivered.union Ss) account db d where
  keptTx := h.keptTx
  keptNote := h.keptNote
  keptSpend := h.keptSpend
  newTx t ht := (h.newTx t ht).imp id fun ⟨x, hx, hrest⟩ => ⟨x, ⟨S, hS, hx⟩, hrest⟩
  newNote n hn := (h.newNote n hn).imp id fun ⟨x, hx, hrest⟩ => ⟨x, ⟨S, hS, hx⟩, hrest⟩
  newSpend s hs := (h.newSpend s hs).imp id fun ⟨v, hv, hrest⟩ => ⟨v, ⟨S, hS, hv⟩, hrest⟩

/-- What was stored stays so when another window is written: a note it adds comes with the
    inputs that spend it. -/
theorem Stores.keep (h : Stores S account d) (hadd : Adds W account d e) (hW : Stores W account e)
    (hans : ∀ x ∈ W.notes, ∀ v ∈ S.vins, v.outpoint = x.2.nullifier → v ∈ W.vins) :
    Stores S account e where
  transactions x hx := by
    obtain ⟨t, ht, hkey⟩ := h.transactions x hx
    exact ⟨t, hadd.keptTx t ht, hkey⟩
  notes x hx := by
    obtain ⟨n, hn, hkey⟩ := h.notes x hx
    exact ⟨n, hadd.keptNote n hn, hkey⟩
  spends v hv n hn hacc hnf := by
    rcases hadd.newNote n hn with hold | ⟨x, hx, t, -, -, -, hnx⟩
    · obtain ⟨s, hs, hid⟩ := h.spends v hv n hold hacc hnf
      exact ⟨s, hadd.keptSpend s hs, hid⟩
    · refine hW.spends v (hans x hx v hv ?_) n hn hacc hnf
      rw [hnx] at hnf
      exact (NullifierKey.outpoint.inj hnf).symm

theorem Stores.union (h : ∀ S ∈ Ss, Stores S account d) : Stores (Delivered.union Ss) account d where
  transactions := fun x ⟨S, hS, hx⟩ => (h S hS).transactions x hx
  notes := fun x ⟨S, hS, hx⟩ => (h S hS).notes x hx
  spends := fun v ⟨S, hS, hv⟩ => (h S hS).spends v hv

theorem adds_writeDeliveries (hws : ∀ w ∈ ws, w.delivered ∈ Ss) :
    Adds (Delivered.union Ss) account db (writeDeliveries account db ws) :=
  foldl_inv (fun d w hw hd => hd.trans ((adds_write d w.used).mono (hws w hw))) (.refl db)

theorem stores_writeDeliveries (hans : Answers Ss)
    (hws : ∀ w ∈ ws, w.rows.Closed ∧ w.delivered ∈ Ss) (hall : ∀ S ∈ Ss, ∃ w ∈ ws, w.delivered = S) :
    Stores (Delivered.union Ss) account (writeDeliveries account db ws) := by
  have hreach : ∀ w ∈ ws, Stores w.delivered account (writeDeliveries account db ws) ∧
      w.delivered ∈ Ss := by
    refine foldl_reach (I := fun _ => True)
      (P := fun (w : Delivery) (d : Database H) => Stores w.delivered account d ∧ w.delivered ∈ Ss)
      (fun _ _ _ _ => trivial)
      (fun d w hw _ => ⟨stores_write (hws w hw).1 d w.used, (hws w hw).2⟩)
      (fun d w hw v _ hv => ⟨?_, hv.2⟩) trivial
    exact hv.1.keep (adds_write d w.used) (stores_write (hws w hw).1 d w.used)
      fun x hx u hu => hans _ (hws w hw).2 _ hv.2 x hx u hu
  refine .union fun S hS => ?_
  obtain ⟨w, hw, rfl⟩ := hall S hS
  exact (hreach w hw).1

/-- Any two ways to deliver the same windows, each at least once, come to the same. -/
theorem deliveries_converge {vs : List Delivery} (hS : (Delivered.union Ss).Consistent)
    (hans : Answers Ss) (hdb : SpendsRefer db)
    (hws : ∀ w ∈ ws, w.rows.Closed ∧ w.delivered ∈ Ss) (hall : ∀ S ∈ Ss, ∃ w ∈ ws, w.delivered = S)
    (hvs : ∀ v ∈ vs, v.rows.Closed ∧ v.delivered ∈ Ss)
    (hall' : ∀ S ∈ Ss, ∃ v ∈ vs, v.delivered = S) :
    SameUpToIds db (writeDeliveries account db ws) (writeDeliveries account db vs) :=
  sameUpToIds hS hdb (adds_writeDeliveries fun w hw => (hws w hw).2)
    (stores_writeDeliveries hans hws hall) (adds_writeDeliveries fun v hv => (hvs v hv).2)
    (stores_writeDeliveries hans hvs hall')

end Deliveries

/-! ### The rows of a stream -/

section Stream
variable {address : Bytes} {lo hi : ℕ}

def noteItem (address txid : Bytes) (height : ℕ) (out : TransparentOut × ℕ) : Option NoteItem :=
  if out.1.recipient = some address then
    some ⟨txid, height, txid ++ le32 out.2, asI64 out.1.value⟩
  else none

def noteItems (address : Bytes) (x : ℕ × TransparentTx) : List NoteItem :=
  x.2.outs.zipIdx.filterMap (noteItem address x.2.txid x.1)

def vinItems (x : ℕ × TransparentTx) : List VinItem :=
  x.2.prevouts.map fun o => ⟨x.2.txid, x.1, o⟩

def streamRows (address : Bytes) (items : List (ℕ × TransparentTx)) : WindowRows where
  transactions := items.map fun x => (x.2.txid, x.1)
  notes := items.flatMap (noteItems address)
  vins := items.flatMap vinItems

theorem drainVins_ok {txid : Bytes} {height : ℕ} {prevouts : List Bytes} {rows rows' : WindowRows}
    (h : prevouts.foldlM (drainVin txid height) rows = .ok rows') :
    rows' = { rows with vins := rows.vins ++ prevouts.map fun o => ⟨txid, height, o⟩ } := by
  induction prevouts generalizing rows with
  | nil =>
    cases h
    simp
  | cons o os ih =>
    rw [List.foldlM_cons] at h
    obtain ⟨r, hr, h⟩ := bind_eq_ok.1 h
    unfold drainVin at hr
    dsimp only at hr
    split at hr
    · cases hr
    · cases hr
      rw [ih h]
      simp

theorem drainOuts_ok {txid : Bytes} {height : ℕ} {outs : List (TransparentOut × ℕ)}
    {rows rows' : WindowRows} (h : outs.foldlM (drainOut address txid height) rows = .ok rows') :
    rows' = { rows with
      notes := rows.notes ++ outs.filterMap (noteItem address txid height) } := by
  induction outs generalizing rows with
  | nil =>
    cases h
    simp
  | cons o os ih =>
    rw [List.foldlM_cons] at h
    obtain ⟨r, hr, h⟩ := bind_eq_ok.1 h
    unfold drainOut at hr
    split at hr
    · rename_i hmine
      dsimp only at hr
      split at hr
      · cases hr
      · cases hr
        rw [ih h]
        simp [noteItem, hmine]
    · rename_i hother
      cases hr
      rw [ih h]
      simp [noteItem, hother]

theorem drainItems_ok {items : List (ℕ × TransparentTx)} {rows rows' : WindowRows}
    (h : items.foldlM (drainItem address lo hi) rows = .ok rows') :
    rows'.transactions = rows.transactions ++ (streamRows address items).transactions ∧
      rows'.notes = rows.notes ++ (streamRows address items).notes ∧
      rows'.vins = rows.vins ++ (streamRows address items).vins := by
  induction items generalizing rows with
  | nil =>
    cases h
    simp [streamRows]
  | cons x xs ih =>
    rw [List.foldlM_cons] at h
    obtain ⟨r, hr, h⟩ := bind_eq_ok.1 h
    obtain ⟨h1, h2, h3⟩ := ih h
    unfold drainItem at hr
    dsimp only at hr
    split at hr
    · cases hr
    · split at hr
      · cases hr
      · obtain ⟨q, hq, hr⟩ := bind_eq_ok.1 hr
        rw [drainVins_ok hq] at hr
        rw [h1, h2, h3, drainOuts_ok hr]
        simp [streamRows, noteItems, vinItems]

theorem drain_ok {f : Fetched} {all : WindowRows}
    (h : drainTransparentWindow address f lo hi = .ok all) :
    all = streamRows address (f.first.toList ++ f.rest) := by
  obtain ⟨rows, hrows, h⟩ := bind_eq_ok.1 h
  obtain ⟨h1, h2, h3⟩ := drainItems_ok hrows
  have hall : rows = all := by
    split at h <;> cases h
    rfl
  subst hall
  cases rows
  simp_all

end Stream

/-! ### One window in any order -/

/-- The transactions of a window as a chain has them: one height each, and no output spent by
    two of them. A transaction id has 32 bytes, an output index four. -/
structure OfChain (window : Set (ℕ × TransparentTx)) : Prop where
  txid : ∀ x ∈ window, x.2.txid.length = 32
  outs : ∀ x ∈ window, x.2.outs.length ≤ 2 ^ 32
  once : ∀ x ∈ window, ∀ y ∈ window, x.2.txid = y.2.txid → x = y
  spent : ∀ x ∈ window, ∀ y ∈ window, ∀ o ∈ x.2.prevouts, o ∈ y.2.prevouts → x = y

/-- The rows of a stream that carried the window in some order, each transaction once or more;
    those above the seam are dropped. -/
def Delivers (window : Set (ℕ × TransparentTx)) (address : Bytes) (seam : ℕ) (rows : WindowRows) :
    Prop :=
  ∃ f lo hi all, drainTransparentWindow address f lo hi = .ok all ∧ rows = all.atOrBelow seam ∧
    ∀ x, x ∈ f.first.toList ++ f.rest ↔ x ∈ window

def windowDelivered (window : Set (ℕ × TransparentTx)) (address : Bytes) (seam idTaddress : ℕ) :
    Delivered where
  transactions := {t | ∃ x ∈ window, x.1 ≤ seam ∧ t = (x.2.txid, x.1)}
  notes := {n | n.1 = idTaddress ∧ ∃ x ∈ window, x.1 ≤ seam ∧ n.2 ∈ noteItems address x}
  vins := {v | ∃ x ∈ window, x.1 ≤ seam ∧ v ∈ vinItems x}

section OneWindow
variable {window : Set (ℕ × TransparentTx)} {address : Bytes} {seam idTaddress account : ℕ}
  {rows : WindowRows} {db : Database H}

theorem mem_noteItems {x : ℕ × TransparentTx} {n : NoteItem} :
    n ∈ noteItems address x ↔ ∃ out k, x.2.outs[k]? = some out ∧ out.recipient = some address ∧
      n = ⟨x.2.txid, x.1, x.2.txid ++ le32 k, asI64 out.value⟩ := by
  simp only [noteItems, List.mem_filterMap, Prod.exists, List.mem_zipIdx_iff_getElem?, noteItem,
    Option.ite_none_right_eq_some, Option.some.injEq]
  constructor
  · rintro ⟨out, k, hk, hmine, rfl⟩
    exact ⟨out, k, hk, hmine, rfl⟩
  · rintro ⟨out, k, hk, hmine, rfl⟩
    exact ⟨out, k, hk, hmine, rfl⟩

theorem mem_vinItems {x : ℕ × TransparentTx} {v : VinItem} :
    v ∈ vinItems x ↔ ∃ o ∈ x.2.prevouts, v = ⟨x.2.txid, x.1, o⟩ := by
  simp only [vinItems, List.mem_map, eq_comm]

theorem windowDelivered_consistent (hw : OfChain window) :
    (windowDelivered window address seam idTaddress).Consistent where
  height := by
    rintro _ ⟨x, hx, -, rfl⟩ _ ⟨y, hy, -, rfl⟩ heq
    rw [hw.once x hx y hy heq]
  note := by
    rintro ⟨i, m⟩ ⟨hi, x, hx, -, hm⟩ ⟨j, n⟩ ⟨hj, y, hy, -, hn⟩ heq
    obtain ⟨out, k, hk, -, hmeq⟩ := mem_noteItems.1 hm
    obtain ⟨out', l, hl, -, hneq⟩ := mem_noteItems.1 hn
    dsimp only at hi hj heq hmeq hneq
    subst hmeq hneq
    obtain ⟨htxid, hle⟩ := List.append_inj heq ((hw.txid x hx).trans (hw.txid y hy).symm)
    obtain rfl := hw.once x hx y hy htxid
    have hkl : k = l := by
      have hk' := (List.getElem?_eq_some_iff.1 hk).1
      have hl' := (List.getElem?_eq_some_iff.1 hl).1
      have hlen := hw.outs x hx
      exact le32_injective (by omega) (by omega) hle
    subst hkl
    rw [hk, Option.some.injEq] at hl
    rw [hi, hj, hl]
  spend := by
    rintro v ⟨x, hx, -, hv⟩ w ⟨y, hy, -, hw'⟩ heq
    obtain ⟨o, ho, rfl⟩ := mem_vinItems.1 hv
    obtain ⟨p, hp, rfl⟩ := mem_vinItems.1 hw'
    dsimp only at heq
    subst heq
    rw [hw.spent x hx y hy o ho hp]

theorem delivered_eq (h : Delivers window address seam rows) :
    rows.delivered idTaddress = windowDelivered window address seam idTaddress := by
  obtain ⟨f, lo, hi, all, hdrain, rfl, hwindow⟩ := h
  rw [drain_ok hdrain]
  simp only [WindowRows.delivered, WindowRows.atOrBelow, streamRows, windowDelivered,
    Delivered.mk.injEq]
  refine ⟨Set.ext fun t => ?_, Set.ext fun n => ?_, Set.ext fun v => ?_⟩
  · simp only [Set.mem_ofPred_eq, List.mem_filter, List.mem_map, hwindow, decide_eq_true_eq]
    constructor
    · rintro ⟨⟨x, hx, rfl⟩, hle⟩
      exact ⟨x, hx, hle, rfl⟩
    · rintro ⟨x, hx, hle, rfl⟩
      exact ⟨⟨x, hx, rfl⟩, hle⟩
  · simp only [Set.mem_ofPred_eq, List.mem_filter, List.mem_flatMap, hwindow, decide_eq_true_eq]
    refine and_congr_right fun _ => ?_
    constructor
    · rintro ⟨⟨x, hx, hn⟩, hle⟩
      obtain ⟨out, k, -, -, hneq⟩ := mem_noteItems.1 hn
      rw [hneq] at hle
      exact ⟨x, hx, hle, hn⟩
    · rintro ⟨x, hx, hle, hn⟩
      refine ⟨⟨x, hx, hn⟩, ?_⟩
      obtain ⟨out, k, -, -, hneq⟩ := mem_noteItems.1 hn
      rw [hneq]
      exact hle
  · simp only [Set.mem_ofPred_eq, List.mem_filter, List.mem_flatMap, hwindow, decide_eq_true_eq]
    constructor
    · rintro ⟨⟨x, hx, hv⟩, hle⟩
      obtain ⟨o, -, hveq⟩ := mem_vinItems.1 hv
      rw [hveq] at hle
      exact ⟨x, hx, hle, hv⟩
    · rintro ⟨x, hx, hle, hv⟩
      refine ⟨⟨x, hx, hv⟩, ?_⟩
      obtain ⟨o, -, hveq⟩ := mem_vinItems.1 hv
      rw [hveq]
      exact hle

theorem closed_of_delivers (h : Delivers window address seam rows) : rows.Closed := by
  have heq := @delivered_eq _ _ _ 0 _ h
  have htx : ∀ x ∈ window, x.1 ≤ seam → ∃ t ∈ rows.transactions, t.1 = x.2.txid := by
    intro x hx hle
    have : (x.2.txid, x.1) ∈ (rows.delivered 0).transactions := by
      rw [heq]
      exact ⟨x, hx, hle, rfl⟩
    exact ⟨_, this, rfl⟩
  constructor
  · intro n hn
    have : (0, n) ∈ (rows.delivered 0).notes := ⟨rfl, hn⟩
    rw [heq] at this
    obtain ⟨-, x, hx, hle, hmem⟩ := this
    obtain ⟨out, k, -, -, hneq⟩ := mem_noteItems.1 hmem
    dsimp only at hneq
    rw [hneq]
    exact htx x hx hle
  · intro v hv
    have : v ∈ (rows.delivered 0).vins := hv
    rw [heq] at this
    obtain ⟨x, hx, hle, hmem⟩ := this
    obtain ⟨o, -, hveq⟩ := mem_vinItems.1 hmem
    rw [hveq]
    exact htx x hx hle

/-- No output and no spend of the window is lost. A spend that was there before is kept. -/
structure Recorded (window : Set (ℕ × TransparentTx)) (address : Bytes) (seam account : ℕ)
    (db d : Database H) : Prop where
  outputs : ∀ x ∈ window, x.1 ≤ seam → ∀ n ∈ noteItems address x,
    ∃ r ∈ d.notes.rows, r.account = account ∧ r.nullifier = .outpoint n.nullifier
  spends : ∀ x ∈ window, x.1 ≤ seam → ∀ o ∈ x.2.prevouts, ∀ n ∈ d.notes.rows,
    n.account = account → n.nullifier = .outpoint o → ∃ s ∈ d.spends.rows, s.idNote = n.idNote ∧
      (s ∈ db.spends.rows ∨ s.height = x.1 ∧ s.value = -n.value ∧
        ∃ t ∈ d.transactions.rows, t.account = account ∧ t.txid = x.2.txid ∧ s.tx = t.idTx)

theorem recorded {d : Database H} (hw : OfChain window)
    (h : Adds (windowDelivered window address seam idTaddress) account db d)
    (hc : Stores (windowDelivered window address seam idTaddress) account d) :
    Recorded window address seam account db d where
  outputs x hx hle n hn := hc.notes (idTaddress, n) ⟨rfl, x, hx, hle, hn⟩
  spends x hx hle o ho n hn hacc hnf := by
    have hv : (⟨x.2.txid, x.1, o⟩ : VinItem) ∈
        (windowDelivered window address seam idTaddress).vins :=
      ⟨x, hx, hle, mem_vinItems.2 ⟨o, ho, rfl⟩⟩
    obtain ⟨s, hs, hid⟩ := hc.spends _ hv n hn hacc hnf
    refine ⟨s, hs, hid, ?_⟩
    rcases h.newSpend s hs with hold | ⟨v, hv', m, hm, hmacc, hmnf, t, ht, htacc, httxid, hsv⟩
    · exact Or.inl hold
    · obtain rfl : m = n := d.notes.eq_of_clash hm hn (Or.inl (by rw [← hid, hsv]))
      have hveq := (windowDelivered_consistent hw).spend _ hv v hv'
        (NullifierKey.outpoint.inj (hnf.symm.trans hmnf))
      subst hveq
      rw [hsv]
      exact Or.inr ⟨rfl, rfl, t, ht, htacc, httxid, rfl⟩

/-- However often and in whatever order the transactions of a window are delivered, the tables
    are the same up to the numbers of the added rows, and nothing is lost. -/
theorem window_converges (hw : OfChain window) (hdb : SpendsRefer db) {ws vs : List Delivery}
    (hne : ws ≠ []) (hne' : vs ≠ [])
    (hws : ∀ w ∈ ws, w.idTaddress = idTaddress ∧ Delivers window address seam w.rows)
    (hvs : ∀ v ∈ vs, v.idTaddress = idTaddress ∧ Delivers window address seam v.rows) :
    SameUpToIds db (writeDeliveries account db ws) (writeDeliveries account db vs) ∧
      Recorded window address seam account db (writeDeliveries account db ws) := by
  have hdelivered : ∀ w : Delivery, w.idTaddress = idTaddress ∧ Delivers window address seam w.rows →
      w.rows.Closed ∧ w.delivered ∈ ({windowDelivered window address seam idTaddress} : Set Delivered) := by
    rintro w ⟨rfl, hd⟩
    exact ⟨closed_of_delivers hd, delivered_eq hd⟩
  have hans : Answers ({windowDelivered window address seam idTaddress} : Set Delivered) := by
    rintro _ rfl _ rfl x hx v hv -
    exact hv
  have hunion : Delivered.union {windowDelivered window address seam idTaddress} =
      windowDelivered window address seam idTaddress := by
    simp only [Delivered.union, Set.mem_singleton_iff, exists_eq_left]
    rfl
  have hall : ∀ us : List Delivery, us ≠ [] →
      (∀ u ∈ us, u.idTaddress = idTaddress ∧ Delivers window address seam u.rows) →
      ∀ S ∈ ({windowDelivered window address seam idTaddress} : Set Delivered),
        ∃ u ∈ us, u.delivered = S := by
    rintro us hus hu _ rfl
    obtain ⟨u, hmem⟩ := List.exists_mem_of_ne_nil us hus
    exact ⟨u, hmem, (hdelivered u (hu u hmem)).2⟩
  have hS : (Delivered.union {windowDelivered window address seam idTaddress}).Consistent := by
    rw [hunion]
    exact windowDelivered_consistent hw
  constructor
  · exact deliveries_converge hS hans hdb (fun w hw => hdelivered w (hws w hw))
      (hall ws hne hws) (fun v hv => hdelivered v (hvs v hv)) (hall vs hne' hvs)
  · have hadds : Adds _ account db (writeDeliveries account db ws) :=
      adds_writeDeliveries fun w hw => (hdelivered w (hws w hw)).2
    have hstores : Stores _ account (writeDeliveries account db ws) :=
      stores_writeDeliveries hans (fun w hw => hdelivered w (hws w hw)) (hall ws hne hws)
    rw [hunion] at hadds hstores
    exact recorded hw hadds hstores

end OneWindow

/-! ### Samples -/

def sampleTxid (n : UInt8) : Bytes := List.replicate 32 n

/-- Pays 7 to the address `[5]`. -/
def paying (n : UInt8) : TransparentTx := ⟨sampleTxid n, [], [⟨some [5], 7⟩]⟩

def spending (n : UInt8) (spent : List UInt8) : TransparentTx :=
  ⟨sampleTxid n, spent.map fun m => sampleTxid m ++ le32 0, []⟩

def sampleDelivery (items : List (ℕ × TransparentTx)) : Delivery :=
  ⟨1, (streamRows [5] items).atOrBelow 100, true⟩

theorem sampleDelivery_delivers {items : List (ℕ × TransparentTx)} {window : Set (ℕ × TransparentTx)}
    (hdrain : drainTransparentWindow [5] ⟨100, none, items, .closed⟩ 0 100 =
      .ok (streamRows [5] items)) (hmem : ∀ x, x ∈ items ↔ x ∈ window) :
    Delivers window [5] 100 (sampleDelivery items).rows :=
  ⟨⟨100, none, items, .closed⟩, 0, 100, streamRows [5] items, hdrain, rfl, hmem⟩

/-- The spend comes first, and twice, or last. -/
theorem spend_before_output :
    SameUpToIds Database.empty
      (writeDeliveries 1 (Database.empty : Database ℕ)
        [sampleDelivery [(20, spending 2 [1]), (10, paying 1), (20, spending 2 [1])]])
      (writeDeliveries 1 Database.empty
        [sampleDelivery [(10, paying 1), (20, spending 2 [1])],
          sampleDelivery [(20, spending 2 [1]), (10, paying 1)]]) ∧
    Recorded {(10, paying 1), (20, spending 2 [1])} [5] 100 1 Database.empty
      (writeDeliveries 1 (Database.empty : Database ℕ)
        [sampleDelivery [(20, spending 2 [1]), (10, paying 1), (20, spending 2 [1])]]) := by
  refine @window_converges ℕ _ _ [5] 100 1 1 _ ?_ (fun s hs => absurd hs List.not_mem_nil) _ _
    (by simp) (by simp) ?_ ?_
  · constructor
    · rintro x (rfl | rfl) <;> rfl
    · rintro x (rfl | rfl) <;> decide
    · rintro x (rfl | rfl) y (rfl | rfl) h
      · rfl
      · exact absurd h (by decide)
      · exact absurd h (by decide)
      · rfl
    · rintro x (rfl | rfl) y (rfl | rfl) o hx hy
      · rfl
      · exact absurd hx List.not_mem_nil
      · exact absurd hy List.not_mem_nil
      · rfl
  · intro w hw
    rw [List.mem_singleton] at hw
    subst hw
    refine ⟨rfl, sampleDelivery_delivers rfl fun x => ?_⟩
    simp only [List.mem_cons, List.not_mem_nil, or_false, Set.mem_insert_iff, Set.mem_singleton_iff]
    tauto
  · intro v hv
    simp only [List.mem_cons, List.not_mem_nil, or_false] at hv
    rcases hv with rfl | rfl
    · refine ⟨rfl, sampleDelivery_delivers rfl fun x => ?_⟩
      simp only [List.mem_cons, List.not_mem_nil, or_false, Set.mem_insert_iff, Set.mem_singleton_iff]
    · refine ⟨rfl, sampleDelivery_delivers rfl fun x => ?_⟩
      simp only [List.mem_cons, List.not_mem_nil, or_false, Set.mem_insert_iff, Set.mem_singleton_iff]
      tauto

section Renumbered
variable {db d e : Database H}

def spenders (d : Database H) : List Bytes :=
  d.spends.rows.flatMap fun s => (d.transactions.rows.filter fun t => t.idTx = s.tx).map
    TransactionRow.txid

theorem SameUpToIds.spenders (h : SameUpToIds db d e) (hdb : db.spends.rows = [])
    {txid : Bytes} (hmem : txid ∈ spenders d) : txid ∈ spenders e := by
  obtain ⟨ρ, ν, hr⟩ := h
  obtain ⟨s, hs, hmem⟩ := List.mem_flatMap.1 hmem
  obtain ⟨t, ht, rfl⟩ := List.mem_map.1 hmem
  rw [List.mem_filter, decide_eq_true_eq] at ht
  have hs' := (hr.spends.2 _).2 (Or.inr ⟨s, hs, by simp [hdb], rfl⟩)
  have ht' : { t with idTx := ρ t.idTx } ∈ e.transactions.rows := by
    by_cases hold : t ∈ db.transactions.rows
    · rw [hr.oldTx t hold]
      exact (hr.transactions.2 t).2 (Or.inl hold)
    · exact (hr.transactions.2 _).2 (Or.inr ⟨t, ht.1, hold, rfl⟩)
  refine List.mem_flatMap.2 ⟨_, hs', List.mem_map.2 ⟨_, List.mem_filter.2 ⟨ht', ?_⟩, rfl⟩⟩
  simp [ht.2]

theorem SameUpToIds.heights (h : SameUpToIds db d e) {t : TransactionRow}
    (ht : t ∈ d.transactions.rows) : t.height ∈ e.transactions.rows.map TransactionRow.height := by
  obtain ⟨ρ, ν, hr⟩ := h
  by_cases hold : t ∈ db.transactions.rows
  · exact List.mem_map_of_mem ((hr.transactions.2 t).2 (Or.inl hold))
  · exact List.mem_map.2 ⟨_, (hr.transactions.2 _).2 (Or.inr ⟨t, ht, hold, rfl⟩), rfl⟩

theorem SameUpToIds.values (h : SameUpToIds db d e) {s : SpendRow} (hs : s ∈ d.spends.rows) :
    s.value ∈ e.spends.rows.map SpendRow.value := by
  obtain ⟨ρ, ν, hr⟩ := h
  by_cases hold : s ∈ db.spends.rows
  · exact List.mem_map_of_mem ((hr.spends.2 s).2 (Or.inl hold))
  · exact List.mem_map.2 ⟨_, (hr.spends.2 _).2 (Or.inr ⟨s, hs, hold, rfl⟩), rfl⟩

end Renumbered

/-- Two deliveries of the same transactions that differ by more than numbers. -/
def Diverge (db : Database ℕ) (items items' : List (ℕ × TransparentTx)) : Prop :=
  ∃ window, Delivers window [5] 100 (sampleDelivery items).rows ∧
    Delivers window [5] 100 (sampleDelivery items').rows ∧
    ¬ SameUpToIds db (writeDeliveries 1 db [sampleDelivery items])
      (writeDeliveries 1 db [sampleDelivery items'])

theorem diverge_of_perm {db : Database ℕ} {items items' : List (ℕ × TransparentTx)}
    (hdrain : drainTransparentWindow [5] ⟨100, none, items, .closed⟩ 0 100 =
      .ok (streamRows [5] items))
    (hdrain' : drainTransparentWindow [5] ⟨100, none, items', .closed⟩ 0 100 =
      .ok (streamRows [5] items')) (hperm : items.Perm items')
    (h : ¬ SameUpToIds db (writeDeliveries 1 db [sampleDelivery items])
      (writeDeliveries 1 db [sampleDelivery items'])) : Diverge db items items' :=
  ⟨{x | x ∈ items}, sampleDelivery_delivers hdrain fun _ => Iff.rfl,
    sampleDelivery_delivers hdrain' fun _ => hperm.symm.mem_iff, h⟩

/-- The first spend of a note is kept, and so is the first height of a transaction; and a spend
    row whose note is gone keeps out the spend of whichever note gets its number. -/
theorem delivery_order_matters :
    Diverge Database.empty [(10, paying 1), (20, spending 2 [1]), (20, spending 3 [1])]
      [(10, paying 1), (20, spending 3 [1]), (20, spending 2 [1])] ∧
    Diverge Database.empty [(10, paying 1), (11, paying 1)] [(11, paying 1), (10, paying 1)] ∧
    Diverge { Database.empty with spends := Table.empty.insertOrIgnore ⟨1, 5, 1, 0, 9, 0⟩ }
      [(10, paying 1), (10, ⟨sampleTxid 2, [], [⟨some [5], 8⟩]⟩), (20, spending 3 [1, 2])]
      [(10, ⟨sampleTxid 2, [], [⟨some [5], 8⟩]⟩), (10, paying 1), (20, spending 3 [1, 2])] := by
  refine ⟨diverge_of_perm rfl rfl ?_ fun h => ?_, diverge_of_perm rfl rfl ?_ fun h => ?_,
    diverge_of_perm rfl rfl ?_ fun h => ?_⟩
  · exact (List.Perm.swap _ _ _).cons _
  · have hmem : sampleTxid 2 ∈ spenders _ := h.spenders rfl (by decide +kernel)
    exact absurd hmem (by decide +kernel)
  · exact List.Perm.swap _ _ _
  · have hmem := h.heights (t := ⟨1, sampleTxid 1, 10, 1, 0, {}⟩) (by decide +kernel)
    exact absurd hmem (by decide +kernel)
  · exact List.Perm.swap _ _ _
  · have hmem := h.values (s := ⟨2, 20, 1, 0, 3, -8⟩) (by decide +kernel)
    exact absurd hmem (by decide +kernel)

end ZcashSdk.Discovery
