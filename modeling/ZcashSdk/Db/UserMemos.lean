import ZcashSdk.Lib.Runs
import ZcashSdk.Db.MessageEffects

set_option autoImplicit false

/-!
# Memos of the user

A memo is kept under the number of a transaction's row. Trims delete rows, and a
rescan numbers the rows it stores again from the largest in use, so the memo follows
the number and not the transaction.
-/
namespace ZcashSdk.Db
open Tables Shielded Runs

variable {H : Type} [DecidableEq H]

/-! ### The list of transactions -/

structure Tx where
  id : ℕ
  txid : Bytes
  height : ℕ
  time : ℕ
  summary : TxSummary
  memo : Option String
  isUserMemo : Bool
  contactName : Option String
  totalReceived : ℤ
  isChange : Bool
  recipient : Option String
  deriving DecidableEq

structure ContactAddress where
  contactName : String
  receiver : String
  pool : ℕ
  deriving DecidableEq

namespace Database

/-- `ORDER BY pool, vout LIMIT 1`. -/
def firstMemo (ms : List MemoRow) : Option MemoRow :=
  (ms.insertionSort fun a b => a.pool < b.pool ∨ a.pool = b.pool ∧ a.vout ≤ b.vout).head?

def chainMemo (db : Database H) (t : TransactionRow) : Option String :=
  (firstMemo (db.memos.filter fun m =>
    m.account = t.account ∧ m.tx = t.idTx ∧ m.memoText ≠ none)).bind MemoRow.memoText

/-- `LEFT JOIN user_memos`, where an empty memo is none. -/
def userMemoOf (db : Database H) (t : TransactionRow) : Option String :=
  (db.userMemos.rows.find? fun m => m.idTx = t.idTx ∧ m.account = t.account).bind fun m =>
    if m.userMemo = "" then none else some m.userMemo

def receivedBy (db : Database H) (t : TransactionRow) : List (NoteRow H) :=
  db.notes.rows.filter fun n => n.account = t.account ∧ n.tx = t.idTx ∧ n.idAsset = none

/-- The largest output that did not come back as a note. -/
def recipientOf (db : Database H) (t : TransactionRow) : Option String :=
  (((db.outputs.filter fun o => o.account = t.account ∧ o.tx = t.idTx ∧
    db.notes.rows.all fun n => ¬ (n.account = o.account ∧ n.tx = o.tx ∧ n.pool = o.pool ∧
      n.value = o.value)).insertionSort fun a b => b.value ≤ a.value).head?).map
    OutputRow.address

/-- The names of the contacts a transaction pays: one row each, or one row without. -/
def contactsOf (contacts : List ContactAddress) (db : Database H) (t : TransactionRow) :
    List (Option String) :=
  match ((db.outputs.filter fun o => o.tx = t.idTx).flatMap fun o =>
    (contacts.filter fun c => c.receiver = o.address ∧ c.pool = o.pool).map
      ContactAddress.contactName).dedup with
  | [] => [none]
  | names => names.map some

def txOf (contacts : List ContactAddress) (db : Database H) (t : TransactionRow) : List Tx :=
  (db.contactsOf contacts t).map fun name =>
    { id := t.idTx, txid := t.txid, height := t.height, time := t.time, summary := t.summary,
      memo := (db.userMemoOf t).or (db.chainMemo t), isUserMemo := (db.userMemoOf t).isSome,
      contactName := name, totalReceived := ((db.receivedBy t).map NoteRow.value).sum,
      isChange := !(db.receivedBy t).isEmpty && (db.receivedBy t).all fun n => n.scope = some 1,
      recipient := db.recipientOf t }

def fetchTxs (contacts : List ContactAddress) (db : Database H) (account : ℕ) : List Tx :=
  ((db.transactions.rows.filter fun t => t.account = account).insertionSort fun a b =>
    b.height ≤ a.height).flatMap (db.txOf contacts)

/-- An empty memo deletes the row. -/
def setUserMemo (db : Database H) (account idTx : ℕ) (memo : Option String) : Database H :=
  match memo with
  | some memo =>
    if memo = "" then
      { db with userMemos := db.userMemos.deleteWhere fun m =>
          decide (m.account = account ∧ m.idTx = idTx) }
    else { db with userMemos := db.userMemos.insertOrReplace ⟨account, idTx, memo⟩ }
  | none =>
    { db with userMemos := db.userMemos.deleteWhere fun m =>
        decide (m.account = account ∧ m.idTx = idTx) }

theorem mem_fetchTxs {contacts : List ContactAddress} {db : Database H} {account : ℕ} {tx : Tx} :
    tx ∈ db.fetchTxs contacts account ↔
      ∃ t ∈ db.transactions.rows, t.account = account ∧ tx ∈ db.txOf contacts t := by
  simp only [fetchTxs, List.mem_flatMap, List.mem_insertionSort, List.mem_filter,
    decide_eq_true_eq, and_assoc]

theorem mem_setUserMemo {db : Database H} {account idTx : ℕ} {memo : Option String}
    {m : UserMemoRow} :
    m ∈ (db.setUserMemo account idTx memo).userMemos.rows ↔
      (∃ text, memo.filter (· ≠ "") = some text ∧ m = ⟨account, idTx, text⟩) ∨
        m ∈ db.userMemos.rows ∧ ¬ (m.account = account ∧ m.idTx = idTx) := by
  cases memo with
  | none => simp [setUserMemo]
  | some memo =>
    by_cases h : memo = ""
    · simp [setUserMemo, h]
    · simp only [setUserMemo, h, if_false, Table.mem_insertOrReplace]
      simp [Option.filter, h, Row.Clash]

theorem setUserMemo_transactions (db : Database H) (account idTx : ℕ) (memo : Option String) :
    (db.setUserMemo account idTx memo).transactions = db.transactions := by
  unfold setUserMemo
  split
  · split <;> rfl
  · rfl

theorem userMemoOf_eq_some {db : Database H} {t : TransactionRow} {memo : String}
    (h : db.userMemoOf t = some memo) : ⟨t.account, t.idTx, memo⟩ ∈ db.userMemos.rows := by
  obtain ⟨m, hm, h⟩ := Option.bind_eq_some_iff.1 h
  have hmem := List.mem_of_find?_eq_some hm
  have hkey := List.find?_some hm
  simp only [decide_eq_true_eq] at hkey
  split_ifs at h
  rw [Option.some.injEq] at h
  rw [← hkey.1, ← hkey.2, ← h]
  exact hmem

end Database

/-! ### Histories -/

/-- What happens to memos and to the transactions they are about. -/
inductive MemoEvent (H : Type) where
  | setUserMemo (account idTx : ℕ) (memo : Option String)
  | trim (account height : ℕ)
  | rewind (account height : ℕ)
  | reset (account : ℕ)
  /-- A rescan stores what it finds. -/
  | scan (m : WarpSyncMessage H)

/-- The database, and the memo last set for each transaction of an account. -/
structure MemoState (H : Type) [DecidableEq H] where
  db : Database H
  lastSet : ℕ → Bytes → Option String

namespace MemoState
open Database

def record (s : MemoState H) (account idTx : ℕ) (memo : Option String) :
    ℕ → Bytes → Option String :=
  match s.db.transactions.rows.find? fun t => t.account = account ∧ t.idTx = idTx with
  | some t => fun a txid =>
    if a = account ∧ txid = t.txid then memo.filter (· ≠ "") else s.lastSet a txid
  | none => s.lastSet

/-- A statement that fails is rolled back. -/
def attempt (db : Database H) : Except Fault (Database H) → Database H
  | .ok db' => db'
  | .error _ => db

def step (env : WriterEnv) (s : MemoState H) (e : MemoEvent H) : Option (MemoState H) :=
  match e with
  | .setUserMemo account idTx memo =>
    some ⟨s.db.setUserMemo account idTx memo, s.record account idTx memo⟩
  | .trim account height => some { s with db := s.db.trimSyncData account height }
  | .rewind account height =>
    some { s with db := attempt s.db (s.db.rewindSync env.network account height) }
  | .reset account => some { s with db := attempt s.db (s.db.resetSync env.network account) }
  | .scan m =>
    if isScan m then some { s with db := attempt s.db (handleMessage env s.db m) } else none

/-- A memo shown as the user's is the one last set for the transaction. -/
def Faithful (s : MemoState H) : Prop :=
  ∀ contacts account, ∀ tx ∈ s.db.fetchTxs contacts account, tx.isUserMemo = true →
    tx.memo = s.lastSet account tx.txid

def BareAbove (db : Database H) (account height : ℕ) : Prop :=
  ∀ t ∈ db.transactions.rows, t.account = account → height < t.height →
    ∀ m ∈ db.userMemos.rows, ¬ (m.account = account ∧ m.idTx = t.idTx)

/-- Memos are set for transactions that are stored, and what goes back deletes none that has
    one. -/
def KeepsMemos (s : MemoState H) : MemoEvent H → Prop
  | .setUserMemo account idTx _ =>
    ∃ t ∈ s.db.transactions.rows, t.account = account ∧ t.idTx = idTx
  | .trim account height => BareAbove s.db account height
  | .rewind account height => BareAbove s.db account ((s.db.checkpointBefore account height).getD 0)
  | .reset account => BareAbove s.db account 0
  | .scan _ => True

/-! ### The invariant -/

/-- Each memo is that of a stored transaction, for which it was last set. -/
def Anchored (s : MemoState H) : Prop :=
  ∀ m ∈ s.db.userMemos.rows, ∃ t ∈ s.db.transactions.rows, t.account = m.account ∧
    t.idTx = m.idTx ∧ s.lastSet t.account t.txid = some m.userMemo

theorem Anchored.faithful {s : MemoState H} (h : s.Anchored) : s.Faithful := by
  intro contacts account tx htx huser
  obtain ⟨t, ht, rfl, hshown⟩ := mem_fetchTxs.1 htx
  obtain ⟨name, -, rfl⟩ := List.mem_map.1 hshown
  obtain ⟨memo, hmemo⟩ := Option.isSome_iff_exists.1 huser
  obtain ⟨u, hu, hacc, hid, hlast⟩ := h _ (userMemoOf_eq_some hmemo)
  obtain rfl := s.db.transactions.eq_of_clash hu ht (Or.inl hid)
  change (s.db.userMemoOf u).or _ = _
  rw [hmemo, hlast]
  rfl

theorem Anchored.of_kept {s : MemoState H} {db : Database H} (h : s.Anchored)
    (hm : db.userMemos = s.db.userMemos)
    (ht : ∀ m ∈ s.db.userMemos.rows, ∀ t ∈ s.db.transactions.rows, t.account = m.account →
      t.idTx = m.idTx → ∃ t' ∈ db.transactions.rows, t.Same t') :
    Anchored { s with db := db } := by
  intro m hmem
  change m ∈ db.userMemos.rows at hmem
  rw [hm] at hmem
  obtain ⟨t, hmt, hacc, hid, hlast⟩ := h m hmem
  obtain ⟨t', hmt', hsame⟩ := ht m hmem t hmt hacc hid
  refine ⟨t', hmt', hsame.2.1.trans hacc, hsame.1.trans hid, ?_⟩
  rw [hsame.2.1, hsame.2.2.1]
  exact hlast

theorem Anchored.trim {s : MemoState H} {account height : ℕ} (h : s.Anchored)
    (hb : BareAbove s.db account height) (f : Database H → Database H)
    (hf : ∀ db, (f db).userMemos = db.userMemos ∧ (f db).transactions = db.transactions) :
    Anchored { s with db := f (s.db.trimSyncData account height) } := by
  refine h.of_kept ((hf _).1.trans rfl) ?_
  intro m hm t ht hacc hid
  refine ⟨t, ?_, .refl t⟩
  rw [(hf _).2]
  refine Table.mem_deleteWhere.2 ⟨ht, above_eq_false.2 fun ha => ?_⟩
  by_contra hlt
  exact hb t ht ha (by omega) m hm ⟨hacc.symm.trans ha, hid.symm⟩

theorem find?_stored {db : Database H} {account idTx : ℕ} {t : TransactionRow}
    (ht : t ∈ db.transactions.rows) (hacc : t.account = account) (hid : t.idTx = idTx) :
    (db.transactions.rows.find? fun t => t.account = account ∧ t.idTx = idTx) = some t := by
  cases hfind : db.transactions.rows.find? fun t => t.account = account ∧ t.idTx = idTx with
  | none =>
    have := List.find?_eq_none.1 hfind t ht
    simp [hacc, hid] at this
  | some u =>
    have hu := List.find?_some hfind
    simp only [decide_eq_true_eq] at hu
    rw [db.transactions.eq_of_clash (List.mem_of_find?_eq_some hfind) ht
      (Or.inl (hu.2.trans hid.symm))]

theorem Anchored.setUserMemo {s : MemoState H} {account idTx : ℕ} (memo : Option String)
    (h : s.Anchored) (hk : s.KeepsMemos (.setUserMemo account idTx memo)) :
    Anchored ⟨s.db.setUserMemo account idTx memo, s.record account idTx memo⟩ := by
  obtain ⟨t, ht, hacc, hid⟩ := hk
  intro m hm
  simp only [setUserMemo_transactions, record, find?_stored ht hacc hid]
  rcases mem_setUserMemo.1 hm with ⟨text, htext, rfl⟩ | ⟨hm, hne⟩
  · exact ⟨t, ht, hacc, hid, by rw [if_pos ⟨hacc, rfl⟩, htext]⟩
  · obtain ⟨u, hu, hua, hui, hlast⟩ := h m hm
    refine ⟨u, hu, hua, hui, ?_⟩
    rw [if_neg, hlast]
    -- the transaction whose memo is set has another number
    rintro ⟨hsame, htxid⟩
    obtain rfl := s.db.transactions.eq_of_clash hu ht (Or.inr ⟨hsame.trans hacc.symm, htxid⟩)
    exact hne ⟨hua.symm.trans hacc, hui.symm.trans hid⟩

theorem Anchored.goBack {env : WriterEnv} {s : MemoState H} {account height : ℕ} {db : Database H}
    (h : s.Anchored)
    (hb : BareAbove s.db account ((s.db.checkpointBefore account height).getD 0))
    (hback : s.db.goBack env.network account height = .ok db) : Anchored { s with db := db } := by
  unfold Database.goBack at hback
  split at hback
  · rename_i prev hprev
    rw [hprev] at hb
    cases hback
    exact h.trim hb (fun d => d.retireTransparentWalks account) fun _ => ⟨rfl, rfl⟩
  · rename_i hprev
    rw [hprev] at hb
    unfold resetSync at hback
    split at hback
    · cases hback
    · rename_i birth hbirth
      cases hback
      exact h.trim hb (fun d => ((d.clearCatchUpDebts account).retireTransparentWalks
        account).initSyncHeights env.network account birth) fun _ => ⟨rfl, rfl⟩

theorem Anchored.step {env : WriterEnv} {s t : MemoState H} {e : MemoEvent H} (h : s.Anchored)
    (hk : s.KeepsMemos e) (hstep : s.step env e = some t) : t.Anchored := by
  cases e with
  | setUserMemo account idTx memo =>
    cases hstep
    exact h.setUserMemo memo hk
  | trim account height =>
    cases hstep
    exact h.trim hk id fun _ => ⟨rfl, rfl⟩
  | rewind account height =>
    cases hstep
    unfold Database.rewindSync
    cases hback : s.db.goBack env.network account height with
    | error f => exact h
    | ok db => exact (h.goBack hk hback).of_kept rfl fun m _ t ht _ _ => ⟨t, ht, .refl t⟩
  | reset account =>
    cases hstep
    cases hreset : s.db.resetSync env.network account with
    | error f => exact h
    | ok db =>
      unfold resetSync at hreset
      split at hreset
      · cases hreset
      · rename_i birth hbirth
        cases hreset
        exact h.trim hk (fun d => ((d.clearCatchUpDebts account).retireTransparentWalks
          account).initSyncHeights env.network account birth) fun _ => ⟨rfl, rfl⟩
  | scan m =>
    simp only [MemoState.step] at hstep
    split_ifs at hstep with hscan
    cases hstep
    cases hm : handleMessage env s.db m with
    | error f => exact h
    | ok db =>
      have heff := effect_of_ok hm hscan
      exact h.of_kept heff.userMemos fun _ _ t ht _ _ => heff.grows.transactions t ht

/-- Along every history in which memos are set for stored transactions and nothing that has
    one is deleted, each memo stays with its transaction. -/
theorem userMemos_faithful (env : WriterEnv) (db : Database H) (es : List (MemoEvent H))
    {s : MemoState H} (hnone : db.userMemos.rows = [])
    (hrun : run (step env) ⟨db, fun _ _ => none⟩ es = some s)
    (hkeep : AllSteps (step env) KeepsMemos ⟨db, fun _ _ => none⟩ es) : s.Faithful := by
  refine Anchored.faithful (run_inv_of_allSteps (step env) (fun s e t h hk hs => h.step hk hs)
    ?_ hkeep hrun)
  intro m hm
  change m ∈ db.userMemos.rows at hm
  rw [hnone] at hm
  cases hm

/-! ### A memo that moves -/

def sampleWriter : WriterEnv := ⟨⟨1, 1, none⟩, fun _ _ _ _ => none, fun _ => ""⟩

/-- Two payments are found at height 100, and the first gets a memo. -/
def sampleHistory : List (MemoEvent ℕ) :=
  [.scan (.transaction ⟨1, 100, 0, [1]⟩), .scan (.transaction ⟨1, 100, 0, [2]⟩),
    .setUserMemo 1 1 (some "rent")]

theorem sampleHistory_faithful :
    ∃ s, run (step sampleWriter) ⟨.empty, fun _ _ => none⟩ sampleHistory = some s ∧
      s.Faithful := by
  refine ⟨_, rfl, userMemos_faithful sampleWriter .empty sampleHistory rfl rfl ?_⟩
  refine ⟨trivial, fun t ht => ⟨trivial, fun u hu => ⟨?_, fun _ _ => trivial⟩⟩⟩
  cases ht
  cases hu
  exact ⟨⟨1, [1], 100, 1, 0, {}⟩, by decide, rfl, rfl⟩

/-- After a rewind the rescan finds the second payment first; it takes the number and the
    memo of the other. -/
theorem rescan_moves_memo :
    ∃ s, run (step sampleWriter) ⟨.empty, fun _ _ => none⟩
        (sampleHistory ++ [.trim 1 99, .scan (.transaction ⟨1, 100, 0, [2]⟩)]) = some s ∧
      ¬ s.Faithful := by
  refine ⟨_, rfl, fun h => ?_⟩
  have := h [] 1 ⟨1, [2], 100, 0, {}, some "rent", true, none, 0, false, none⟩ ?_ rfl
  · cases this
  · decide

end MemoState

end ZcashSdk.Db
