import ZcashSdk.Db.UserMemos
import ZcashSdk.Pay.Reservations

set_option autoImplicit false

/-!
# What is left of a deleted account

Numbers of accounts and transactions are given out again. What the wallet answers about
an account is compared with its answers in a database that never had the account deleted
before it.
-/
namespace ZcashSdk.Wallet
open Tables Shielded Db Pay Loops Database

variable {H : Type} [DecidableEq H]

/-! ### The life of accounts -/

def newAccountId (db : Database H) : ℕ := nextId (db.accounts.rows.map AccountRow.idAccount)

def storeAccountMetadata (db : Database H) (fingerprint : Option Bytes) (birth : ℕ) : Database H :=
  { db with
    accounts := db.accounts.insertNewOrIgnore AccountRow.idAccount
      fun i => ⟨i, fingerprint, 0, 0, birth, false, none, false, false⟩ }

def updateAccount (db : Database H) (account : ℕ) (f : AccountRow → AccountRow)
    (hf : ∀ r, (f r).idAccount = r.idAccount) : Database H :=
  { db with
    accounts := db.accounts.update (fun r => if r.idAccount = account then f r else r) (by
      have hsame (r : AccountRow) : (if r.idAccount = account then f r else r).idAccount =
          r.idAccount := by
        split
        · exact hf r
        · rfl
      intro a b hc
      exact (hsame a).symm.trans (Eq.trans hc (hsame b))) }

/-- The three ways to start a pool differ in the flag they set and in the upgrade they wait for. -/
def initAccountPool (network : Network) (db : Database H) (account pool birth : ℕ)
    (f : AccountRow → AccountRow) (hf : ∀ r, (f r).idAccount = r.idAccount) : Database H :=
  { updateAccount db account f hf with
    syncHeights := db.syncHeights.insertOrReplace
      ⟨account, pool, max birth (activationHeight network pool)⟩ }

def initAccountTransparent (network : Network) (db : Database H) (account birth : ℕ) :
    Database H :=
  initAccountPool network db account 0 birth (fun r => { r with transparent := true }) fun _ => rfl

def initAccountSapling (network : Network) (db : Database H) (account birth : ℕ) : Database H :=
  initAccountPool network db account 1 birth (fun r => { r with sapling := true }) fun _ => rfl

def initAccountOrchard (network : Network) (db : Database H) (account birth : ℕ) : Database H :=
  initAccountPool network db account 2 birth (fun r => { r with orchard := true }) fun _ => rfl

def storeAccountSeedFingerprint (db : Database H) (account : ℕ) (fingerprint : Bytes)
    (aindex : ℕ) : Database H :=
  updateAccount db account
    (fun r => { r with seedFingerprint := some fingerprint, aindex := aindex }) fun _ => rfl

def updateDindex (db : Database H) (account dindex : ℕ) : Database H :=
  updateAccount db account (fun r => { r with dindex := dindex }) fun _ => rfl

def lockNote (db : Database H) (account idNote : ℕ) (locked : Bool) : Database H :=
  { db with
    notes := db.notes.update
      (fun n => if n.account = account ∧ n.idNote = idNote then { n with locked := locked } else n)
      (by intro a b; simp only [Row.Clash]; split <;> split <;> exact id) }

inductive LifeEvent (H : Type) where
  | storeAccountMetadata (fingerprint : Option Bytes) (birth : ℕ)
  | initAccountTransparent (account birth : ℕ)
  | initAccountSapling (account birth : ℕ)
  | initAccountOrchard (account birth : ℕ)
  | storeAccountSeedFingerprint (account : ℕ) (fingerprint : Bytes) (aindex : ℕ)
  | updateDindex (account dindex : ℕ)
  | storeAccountTransparentAddr (account scope dindex : ℕ) (address : Bytes)
  | deleteAccount (account : ℕ)
  | setUserMemo (account idTx : ℕ) (memo : Option String)
  | lockNote (account idNote : ℕ) (locked : Bool)
  | storeSyncedHeight (account pool height : ℕ)
  | writeTransparentCoverage (account gap : ℕ)
  | trim (account height : ℕ)
  | rewind (account height : ℕ)
  | reset (account : ℕ)
  | prune (account height : ℕ)
  | reserve (account : ℕ) (parsed : ParsedTransaction H) (own : OwnInputs)
  | message (m : WarpSyncMessage H)

/-- A statement that fails is rolled back. -/
def orElseKeep {ε : Type} (db : Database H) : Except ε (Database H) → Database H
  | .ok db' => db'
  | .error _ => db

def lifeStep (env : WriterEnv) (db : Database H) : LifeEvent H → Database H
  | .storeAccountMetadata fingerprint birth => storeAccountMetadata db fingerprint birth
  | .initAccountTransparent account birth => initAccountTransparent env.network db account birth
  | .initAccountSapling account birth => initAccountSapling env.network db account birth
  | .initAccountOrchard account birth => initAccountOrchard env.network db account birth
  | .storeAccountSeedFingerprint account fingerprint aindex =>
    storeAccountSeedFingerprint db account fingerprint aindex
  | .updateDindex account dindex => updateDindex db account dindex
  | .storeAccountTransparentAddr account scope dindex address =>
    db.storeAccountTransparentAddr account scope dindex address
  | .deleteAccount account => db.deleteAccount account
  | .setUserMemo account idTx memo => db.setUserMemo account idTx memo
  | .lockNote account idNote locked => lockNote db account idNote locked
  | .storeSyncedHeight account pool height =>
    { db with syncHeights := db.syncHeights.insertOrReplace ⟨account, pool, height⟩ }
  | .writeTransparentCoverage account gap => db.writeTransparentCoverage account gap
  | .trim account height => db.trimSyncData account height
  | .rewind account height => orElseKeep db (db.rewindSync env.network account height)
  | .reset account => orElseKeep db (db.resetSync env.network account)
  | .prune account height => db.pruneOldCheckpoints account height
  | .reserve account parsed own => orElseKeep db (reserveParsedTransaction db account parsed own)
  | .message m => orElseKeep db (handleMessage env db m)

def live (env : WriterEnv) (db : Database H) (es : List (LifeEvent H)) : Database H :=
  es.foldl (lifeStep env) db

/-! ### What is asked about an account -/

structure AccountAnswers (H : Type) where
  row : Option AccountRow
  balance : ℕ → ℕ → ℤ
  breakdown : ℕ → ℕ → Balance
  unspent : List InputNote
  txs : List ContactAddress → List Tx
  addresses : List AddressRow
  toScan : ℕ → List (ℕ × Bytes)
  coverage : TransparentCoverage
  syncHeights : List SyncHeightRow
  reservations : List (PendingInputRow H)
  pendingTxs : List PendingTxRow

def answers (db : Database H) (account : ℕ) : AccountAnswers H where
  row := db.accountRow account
  balance := db.calculateBalance account
  breakdown := db.calculateBalanceBreakdown account
  unspent := db.fetchUnspentNotes account
  txs contacts := db.fetchTxs contacts account
  addresses := db.addresses.rows.filter fun r => r.account = account
  toScan := db.transparentAddressesToScan account
  coverage := db.readTransparentCoverage account
  syncHeights := db.syncHeights.rows.filter fun r => r.account = account
  reservations := db.activePendingSpendInputs.filter fun p => p.account = account
  pendingTxs := db.pendingTxs.rows.filter fun p => p.account = account

/-! ### Erasure -/

def withoutAccount (db : Database H) (account : ℕ) : Database H where
  notes := db.notes.deleteWhere fun r => decide (r.account = account)
  spends := db.spends.deleteWhere fun r => decide (r.account = account)
  transactions := db.transactions.deleteWhere fun r => decide (r.account = account)
  witnesses := db.witnesses.deleteWhere fun r => decide (r.account = account)
  outputs := db.outputs.filter fun r => decide (r.account ≠ account)
  memos := db.memos.filter fun r => decide (r.account ≠ account)
  userMemos := db.userMemos.deleteWhere fun r => decide (r.account = account)
  pendingInputs := db.pendingInputs.deleteWhere fun r => decide (r.account = account)
  pendingTxs := db.pendingTxs.deleteWhere fun r => decide (r.account = account)
  frost := db.frost.filter fun r => decide (r.account ≠ account)
  headers := db.headers
  assets := db.assets
  syncHeights := db.syncHeights.deleteWhere fun r => decide (r.account = account)
  accounts := db.accounts.deleteWhere fun r => decide (r.idAccount = account)
  addresses := db.addresses.deleteWhere fun r => decide (r.account = account)
  trimCounter := Function.update db.trimCounter account 0
  certified := Function.update db.certified account none
  incarnation := Function.update db.incarnation account 0

/-- Whatever happens next, an account that gets the number of the deleted one is like a first
    one, and all else in the database is as it was. -/
structure Erased (env : WriterEnv) (db : Database H) (account : ℕ) : Prop where
  fresh : ∀ es fingerprint birth fs,
    newAccountId (live env (db.deleteAccount account) es) = account →
      answers (live env (db.deleteAccount account)
        (es ++ .storeAccountMetadata fingerprint birth :: fs)) account =
      answers (live env (withoutAccount db account)
        (es ++ .storeAccountMetadata fingerprint birth :: fs)) account
  others : withoutAccount (db.deleteAccount account) account = withoutAccount db account

/-! ### What the deletion leaves -/

section Leftovers
variable {db d w : Database H} {account : ℕ}

def forget (db : Database H) : Database H :=
  { db with userMemos := .empty, incarnation := fun _ => 0 }

theorem forget_deleteAccount (db : Database H) (account : ℕ) :
    forget (db.deleteAccount account) = forget (withoutAccount db account) := rfl

theorem eq_of_forget (h : forget d = forget w) :
    d = { w with userMemos := d.userMemos, incarnation := d.incarnation } := by
  have hd : d = { forget d with userMemos := d.userMemos, incarnation := d.incarnation } := rfl
  rw [h] at hd
  exact hd

theorem deleteAccount_others (db : Database H) (account : ℕ) :
    withoutAccount (db.deleteAccount account) account = withoutAccount db account := by
  have htwice {R : Type} [Row R] (t : Table R) (p : R → Bool) :
      (t.deleteWhere p).deleteWhere p = t.deleteWhere p := by
    refine Table.deleteWhere_eq_self fun a ha => ?_
    exact (Table.mem_deleteWhere.1 ha).2
  have hfilter {R : Type} (l : List R) (p : R → Bool) : (l.filter p).filter p = l.filter p := by
    rw [List.filter_filter]
    simp
  unfold withoutAccount deleteAccount clearTransparentCoverage retireTransparentWalks
  simp only [htwice, hfilter, Function.update_idem]

/-! ### Steps that look at neither -/

/-- A statement that has the same effect, or fails in the same way, whatever is forgotten. -/
def Blind {ε : Type} (f : Database H → Except ε (Database H)) : Prop :=
  ∀ w us inc, (f { w with userMemos := us, incarnation := inc }).map forget = (f w).map forget

theorem Blind.forget_eq {ε : Type} {f : Database H → Except ε (Database H)} (hf : Blind f)
    (h : forget d = forget w) : forget (orElseKeep d (f d)) = forget (orElseKeep w (f w)) := by
  have hmap : (f d).map forget = (f w).map forget := by
    rw [eq_of_forget h]
    exact hf w _ _
  cases hd : f d <;> cases hw : f w <;> rw [hd, hw] at hmap
  · exact h
  · cases hmap
  · cases hmap
  · exact Except.ok.inj hmap

theorem Blind.foldlM {ε α : Type} {f : Database H → α → Except ε (Database H)}
    (hf : ∀ a, Blind fun db => f db a) (as : List α) : Blind fun db => as.foldlM f db := by
  induction as with
  | nil => exact fun _ _ _ => rfl
  | cons a as ih =>
    intro w us inc
    have ha : (f { w with userMemos := us, incarnation := inc } a).map forget =
      (f w a).map forget := hf a w us inc
    simp only [List.foldlM_cons]
    cases hd : f { w with userMemos := us, incarnation := inc } a <;> cases hw : f w a <;>
      rw [hd, hw] at ha
    · cases ha
      rfl
    · cases ha
    · cases ha
    · rename_i d' w'
      have h' := eq_of_forget (Except.ok.inj ha)
      rw [ok_bind, ok_bind, h']
      exact ih w' _ _

theorem blind_rewindSync (network : Network) (account height : ℕ) :
    Blind fun db : Database H => db.rewindSync network account height := by
  intro w us inc
  simp only [rewindSync, goBack, resetSync, checkpointBefore, getBirthHeight, accountRow]
  split
  · rfl
  · split <;> rfl

theorem blind_resetSync (network : Network) (account : ℕ) :
    Blind fun db : Database H => db.resetSync network account := by
  intro w us inc
  simp only [resetSync, getBirthHeight, accountRow]
  split <;> rfl

theorem blind_checkpointAccount (pool height account : ℕ) :
    Blind fun db : Database H => checkpointAccount pool height db account := by
  intro w us inc
  have hpool : ({ w with userMemos := us, incarnation := inc } : Database H).hasPool account pool =
    w.hasPool account pool := rfl
  simp only [checkpointAccount, hpool]
  generalize isPool pool = known
  generalize w.hasPool account pool = has
  cases known <;> cases has <;> rfl

theorem blind_handleMessage (env : WriterEnv) (m : WarpSyncMessage H) :
    Blind fun db => handleMessage env db m := by
  cases m with
  | note n =>
    intro w us inc
    simp only [handleMessage, handleNote, registerAsset, insertAsset, transactionsOf, assetsOf]
    split
    all_goals
      dsimp only
      generalize execute _ = notes
      generalize assertOne _ = one
      cases notes <;> cases one <;> rfl
  | witness account height cmx wit =>
    intro w us inc
    simp only [handleMessage, handleWitness, Database.notesOf]
    generalize execute _ = rows
    generalize assertOne _ = one
    cases rows <;> cases one <;> rfl
  | spend u =>
    intro w us inc
    simp only [handleMessage, handleSpend, Database.notesOf, transactionsOf]
    generalize execute _ = rows
    generalize assertOne _ = one
    cases rows <;> cases one <;> rfl
  | issuance iss =>
    intro w us inc
    simp only [handleMessage, handleIssuance, insertAsset]
    split <;> rfl
  | checkpoint accounts pool height => exact .foldlM (blind_checkpointAccount pool height) accounts
  | rewind accounts height =>
    exact .foldlM (fun account => blind_rewindSync env.network account height) accounts
  | _ => exact fun _ _ _ => rfl

theorem blind_claimInput (account : ℕ) (parsed : ParsedTransaction H) (input : NullifierKey H) :
    Blind fun db => claimInput db account parsed input := by
  intro w us inc
  have hact (p : PendingInputRow H) : ({ w with userMemos := us, incarnation := inc } :
    Database H).isActive p = w.isActive p := rfl
  simp only [claimInput]
  split
  · rename_i p hp
    rw [hact]
    by_cases hfree : p.ownerTxid = parsed.txid ∨ w.isActive p = false
    · rw [if_pos hfree, if_pos hfree]
      rfl
    · rw [if_neg hfree, if_neg hfree]
  · rfl

theorem blind_reserve (account : ℕ) (parsed : ParsedTransaction H) (own : OwnInputs) :
    Blind fun db => reserveParsedTransaction db account parsed own := by
  intro w us inc
  have hseam : ({ w with userMemos := us, incarnation := inc } : Database H).accountSeam account =
    w.accountSeam account := rfl
  have hvalid : validateOwnedInputs { w with userMemos := us, incarnation := inc } account parsed =
    validateOwnedInputs w account parsed := rfl
  have hother : reservedByAnotherTransaction { w with userMemos := us, incarnation := inc } account
    parsed = reservedByAnotherTransaction w account parsed := rfl
  simp only [reserveParsedTransaction, hseam, hvalid, hother]
  generalize ensure _ _ = alive
  cases alive with
  | error m => rfl
  | ok _ =>
    cases validateOwnedInputs w account parsed with
    | error m => rfl
    | ok owned =>
      simp only [ok_bind]
      split
      · generalize ensure _ _ = optional
        generalize ensure _ _ = free
        cases optional <;> cases free <;> rfl
      · have hclaims : (claimInputs { w with userMemos := us, incarnation := inc } account parsed
            owned).map forget = (claimInputs w account parsed owned).map forget :=
          Blind.foldlM (blind_claimInput account parsed) owned w us inc
        cases hd : claimInputs { w with userMemos := us, incarnation := inc } account parsed owned <;>
          cases hw : claimInputs w account parsed owned <;> rw [hd, hw] at hclaims
        · cases hclaims
          rfl
        · cases hclaims
        · cases hclaims
        · rw [ok_bind, ok_bind, eq_of_forget (Except.ok.inj hclaims)]
          rfl

/-- No step looks at what the deletion leaves. -/
theorem forget_lifeStep (env : WriterEnv) (e : LifeEvent H) (h : forget d = forget w) :
    forget (lifeStep env d e) = forget (lifeStep env w e) := by
  cases e with
  | rewind account height => exact (blind_rewindSync env.network account height).forget_eq h
  | reset account => exact (blind_resetSync env.network account).forget_eq h
  | reserve account parsed own => exact (blind_reserve account parsed own).forget_eq h
  | message m => exact (blind_handleMessage env m).forget_eq h
  | setUserMemo account idTx memo =>
    have hmemos (db : Database H) : forget (db.setUserMemo account idTx memo) = forget db := by
      unfold setUserMemo
      split
      · split <;> rfl
      · rfl
    simp only [lifeStep, hmemos, h]
  | prune account height =>
    rw [eq_of_forget h]
    simp only [lifeStep, pruneOldCheckpoints, checkpointBefore]
    split <;> rfl
  | _ =>
    rw [eq_of_forget h]
    rfl

theorem forget_live (env : WriterEnv) (es : List (LifeEvent H)) (h : forget d = forget w) :
    forget (live env d es) = forget (live env w es) := by
  induction es generalizing d w with
  | nil => exact h
  | cons e es ih => exact ih (forget_lifeStep env e h)

/-! ### Memos and numbers -/

/-- Nothing but the user changes memos, and numbers are given out from one. -/
structure Wordless (db d : Database H) : Prop where
  userMemos : d.userMemos = db.userMemos
  numbers : ∀ t ∈ d.transactions.rows, 0 < t.idTx ∨
    ∃ u ∈ db.transactions.rows, u.account = t.account ∧ u.idTx = t.idTx

theorem Wordless.of_kept (hm : d.userMemos = w.userMemos)
    (ht : ∀ t ∈ d.transactions.rows, t ∈ w.transactions.rows) : Wordless w d :=
  ⟨hm, fun t h => Or.inr ⟨t, ht t h, rfl, rfl⟩⟩

theorem Wordless.refl (db : Database H) : Wordless db db := .of_kept rfl fun _ => id

theorem Wordless.trans {d' : Database H} (h : Wordless w d) (h' : Wordless d d') : Wordless w d' := by
  refine ⟨h'.userMemos.trans h.userMemos, fun t ht => ?_⟩
  rcases h'.numbers t ht with hpos | ⟨u, hu, hacc, hid⟩
  · exact Or.inl hpos
  · rcases h.numbers u hu with hpos | ⟨v, hv, hacc', hid'⟩
    · exact Or.inl (hid ▸ hpos)
    · exact Or.inr ⟨v, hv, hacc'.trans hacc, hid'.trans hid⟩

theorem wordless_rewindSync {network : Network} {account height : ℕ}
    (h : w.rewindSync network account height = .ok d) : Wordless w d := by
  obtain ⟨back, hback, h⟩ := bind_eq_ok.1 h
  cases h
  unfold goBack resetSync at hback
  split at hback
  · cases hback
    exact .of_kept rfl fun t ht => (Table.mem_deleteWhere.1 ht).1
  · split at hback
    · cases hback
    · cases hback
      exact .of_kept rfl fun t ht => (Table.mem_deleteWhere.1 ht).1

theorem wordless_resetSync {network : Network} {account : ℕ}
    (h : w.resetSync network account = .ok d) : Wordless w d := by
  unfold resetSync at h
  split at h
  · cases h
  · cases h
    exact .of_kept rfl fun t ht => (Table.mem_deleteWhere.1 ht).1

theorem wordless_handleMessage {env : WriterEnv} {m : WarpSyncMessage H}
    (h : handleMessage env w m = .ok d) : Wordless w d := by
  by_cases hscan : isScan m = true
  · have heff := effect_of_ok h hscan
    refine ⟨heff.userMemos, fun t ht => ?_⟩
    cases heff with
    | transaction tx =>
      rcases Table.mem_insertOrIgnore.1 ht with ht | ⟨rfl, -⟩
      · exact Or.inr ⟨t, ht, rfl, rfl⟩
      · exact Or.inl (nextId_pos _)
    | blockHeader bh =>
      obtain ⟨u, hu, rfl⟩ := List.mem_map.1 ht
      exact Or.inr ⟨u, hu, (same_setTime bh u).2.1.symm, (same_setTime bh u).1.symm⟩
    | note n t a ns tx insert => exact Or.inr ⟨_, by simpa using ht, rfl, rfl⟩
    | _ => exact Or.inr ⟨t, ht, rfl, rfl⟩
  · cases m with
    | rewind accounts height =>
      exact foldlM_inv _ (Wordless w) (fun _ _ _ hs hr => hs.trans (wordless_rewindSync hr)) accounts w d
        (.refl w) h
    | error e => cases h
    | _ => exact absurd rfl hscan

theorem wordless_reserve {account : ℕ} {parsed : ParsedTransaction H} {own : OwnInputs}
    (h : reserveParsedTransaction w account parsed own = .ok d) : Wordless w d := by
  obtain ⟨hsame, -⟩ := reserve_holds h
  exact .of_kept hsame.userMemos fun t ht => hsame.transactions ▸ ht

theorem Wordless.orElseKeep {ε : Type} {r : Except ε (Database H)}
    (h : ∀ d, r = .ok d → Wordless w d) : Wordless w (orElseKeep w r) := by
  cases r with
  | error m => exact .refl w
  | ok d => exact h d rfl

theorem wordless_lifeStep (env : WriterEnv) (w : Database H) (e : LifeEvent H)
    (he : ∀ account idTx memo, e ≠ .setUserMemo account idTx memo) : Wordless w (lifeStep env w e) := by
  cases e with
  | rewind account height => exact .orElseKeep fun d h => wordless_rewindSync h
  | reset account => exact .orElseKeep fun d h => wordless_resetSync h
  | reserve account parsed own => exact .orElseKeep fun d h => wordless_reserve h
  | message m => exact .orElseKeep fun d h => wordless_handleMessage h
  | setUserMemo account idTx memo => exact absurd rfl (he account idTx memo)
  | prune account height =>
    simp only [lifeStep, pruneOldCheckpoints]
    split <;> exact .of_kept rfl fun _ => id
  | deleteAccount account => exact .of_kept rfl fun t ht => (Table.mem_deleteWhere.1 ht).1
  | trim account height => exact .of_kept rfl fun t ht => (Table.mem_deleteWhere.1 ht).1
  | _ => exact .of_kept rfl fun _ => id

/-- The memos that could be shown for a transaction of the account are the same. -/
def MemosAgree (d w : Database H) (account : ℕ) : Prop :=
  ∀ m : UserMemoRow, m.account = account → 0 < m.idTx → m.userMemo ≠ "" →
    (m ∈ d.userMemos.rows ↔ m ∈ w.userMemos.rows)

structure Alike (d w : Database H) (account : ℕ) : Prop where
  forget_eq : forget d = forget w
  memos : MemosAgree d w account
  numbered : ∀ t ∈ w.transactions.rows, t.account = account → 0 < t.idTx

theorem Alike.step {env : WriterEnv} (h : Alike d w account) (e : LifeEvent H) :
    Alike (lifeStep env d e) (lifeStep env w e) account := by
  refine ⟨forget_lifeStep env e h.forget_eq, ?_, ?_⟩
  · by_cases he : ∃ a idTx memo, e = .setUserMemo a idTx memo
    · obtain ⟨a, idTx, memo, rfl⟩ := he
      intro m hacc hpos hne
      simp only [lifeStep, mem_setUserMemo, h.memos m hacc hpos hne]
    · have hd := wordless_lifeStep env d e fun a i m hm => he ⟨a, i, m, hm⟩
      have hw := wordless_lifeStep env w e fun a i m hm => he ⟨a, i, m, hm⟩
      intro m hacc hpos hne
      rw [hd.userMemos, hw.userMemos]
      exact h.memos m hacc hpos hne
  · by_cases he : ∃ a idTx memo, e = .setUserMemo a idTx memo
    · obtain ⟨a, idTx, memo, rfl⟩ := he
      simpa only [lifeStep, setUserMemo_transactions] using h.numbered
    · intro t ht hacc
      rcases (wordless_lifeStep env w e fun a i m hm => he ⟨a, i, m, hm⟩).numbers t ht with
        hpos | ⟨u, hu, hua, hui⟩
      · exact hpos
      · exact hui ▸ h.numbered u hu (hua.trans hacc)

theorem Alike.live {env : WriterEnv} (h : Alike d w account) (es : List (LifeEvent H)) :
    Alike (live env d es) (live env w es) account := by
  induction es generalizing d w with
  | nil => exact h
  | cons e es ih => exact ih (h.step e)

theorem userMemoOf_iff {t : TransactionRow} {memo : String} :
    d.userMemoOf t = some memo ↔ ⟨t.account, t.idTx, memo⟩ ∈ d.userMemos.rows ∧ memo ≠ "" := by
  constructor
  · intro h
    refine ⟨userMemoOf_eq_some h, ?_⟩
    obtain ⟨m, -, h⟩ := Option.bind_eq_some_iff.1 h
    split_ifs at h with hne
    rw [← Option.some.inj h]
    exact hne
  · rintro ⟨hmem, hne⟩
    unfold userMemoOf
    cases hfind : d.userMemos.rows.find? fun m => m.idTx = t.idTx ∧ m.account = t.account with
    | none =>
      have := List.find?_eq_none.1 hfind _ hmem
      simp at this
    | some m =>
      have hkey := List.find?_some hfind
      simp only [decide_eq_true_eq] at hkey
      obtain rfl := d.userMemos.eq_of_clash (List.mem_of_find?_eq_some hfind) hmem
        ⟨hkey.2, hkey.1⟩
      exact if_neg hne

theorem Alike.fetchTxs (h : Alike d w account) (contacts : List ContactAddress) :
    d.fetchTxs contacts account = w.fetchTxs contacts account := by
  have hd := eq_of_forget h.forget_eq
  have hrows : d.transactions = w.transactions := by rw [hd]
  unfold Database.fetchTxs
  rw [hrows]
  refine List.flatMap_congr fun t ht => ?_
  rw [List.mem_insertionSort, List.mem_filter, decide_eq_true_eq] at ht
  have hmemo : d.userMemoOf t = w.userMemoOf t := by
    refine Option.ext fun memo => ?_
    rw [userMemoOf_iff, userMemoOf_iff]
    refine and_congr_left fun hne => h.memos _ ht.2 (h.numbered t ht.1 ht.2) hne
  unfold Database.txOf
  rw [hmemo, hd]
  rfl

theorem Alike.answers_eq (h : Alike d w account) : answers d account = answers w account := by
  have htxs : (fun contacts => d.fetchTxs contacts account) =
      fun contacts => w.fetchTxs contacts account := funext h.fetchTxs
  unfold answers
  rw [htxs, eq_of_forget h.forget_eq]
  rfl

/-- No memo is kept for a transaction of the account; numbers start at one. -/
def NoUserMemo (db : Database H) (account : ℕ) : Prop :=
  ∀ m ∈ db.userMemos.rows, m.account = account → 0 < account → 0 < m.idTx → m.userMemo = ""

theorem alike_of_noUserMemo {db : Database H} (h : NoUserMemo db account) (hpos : 0 < account) :
    Alike (db.deleteAccount account) (withoutAccount db account) account := by
  refine ⟨forget_deleteAccount db account, fun m hacc hnum hne => ?_, fun t ht hacc => ?_⟩
  · constructor
    · exact fun hm => absurd (h m hm hacc hpos hnum) hne
    · exact fun hm => absurd hacc (of_decide_eq_false (Table.mem_deleteWhere.1 hm).2)
  · exact absurd hacc (of_decide_eq_false (Table.mem_deleteWhere.1 ht).2)

theorem erased_of_noUserMemo (env : WriterEnv) {db : Database H} (h : NoUserMemo db account) :
    Erased env db account := by
  refine ⟨fun es fingerprint birth fs hid => ?_, deleteAccount_others db account⟩
  have hpos : 0 < account := hid ▸ nextId_pos _
  exact ((alike_of_noUserMemo h hpos).live _).answers_eq

/-! ### How the numbers come back -/

theorem live_append (env : WriterEnv) (db : Database H) (es fs : List (LifeEvent H)) :
    live env db (es ++ fs) = live env (live env db es) fs := List.foldl_append ..

theorem live_userMemos (env : WriterEnv) (es : List (LifeEvent H))
    (hes : ∀ e ∈ es, ∀ account idTx memo, e ≠ .setUserMemo account idTx memo) :
    (live env d es).userMemos = d.userMemos := by
  induction es generalizing d with
  | nil => rfl
  | cons e es ih =>
    refine (ih fun f hf => hes f (List.mem_cons_of_mem e hf)).trans ?_
    exact (wordless_lifeStep env d e (hes e (List.mem_cons_self ..))).userMemos

theorem live_deleteAccounts (env : WriterEnv) (as : List ℕ) :
    (∀ r ∈ (live env d (as.map .deleteAccount)).accounts.rows,
      r ∈ d.accounts.rows ∧ r.idAccount ∉ as) ∧
    ∀ t ∈ (live env d (as.map .deleteAccount)).transactions.rows,
      t ∈ d.transactions.rows ∧ t.account ∉ as := by
  induction as generalizing d with
  | nil => exact ⟨fun r hr => ⟨hr, List.not_mem_nil⟩, fun t ht => ⟨ht, List.not_mem_nil⟩⟩
  | cons a as ih =>
    obtain ⟨hacc, htx⟩ := ih (d := d.deleteAccount a)
    refine ⟨fun r hr => ?_, fun t ht => ?_⟩
    · obtain ⟨hr, hnot⟩ := hacc r hr
      obtain ⟨hr, hne⟩ := Table.mem_deleteWhere.1 hr
      exact ⟨hr, fun h => (List.mem_cons.1 h).elim (of_decide_eq_false hne) hnot⟩
    · obtain ⟨ht, hnot⟩ := htx t ht
      obtain ⟨ht, hne⟩ := Table.mem_deleteWhere.1 ht
      exact ⟨ht, fun h => (List.mem_cons.1 h).elim (of_decide_eq_false hne) hnot⟩

theorem newAccountId_live (env : WriterEnv) (hnone : d.accounts.rows = []) (k : ℕ) :
    newAccountId (live env d (List.replicate k (.storeAccountMetadata none 0))) = k + 1 ∧
      (live env d (List.replicate k (.storeAccountMetadata none 0))).transactions =
        d.transactions := by
  have hids : let rows := (live env d (List.replicate k (.storeAccountMetadata none 0))).accounts.rows
      (∀ r ∈ rows, r.idAccount ≤ k) ∧ (k = 0 ∨ ∃ r ∈ rows, r.idAccount = k) ∧
      (live env d (List.replicate k (.storeAccountMetadata none 0))).transactions =
        d.transactions := by
    induction k with
    | zero =>
      dsimp only
      rw [List.replicate_zero, show live env d [] = d from rfl, hnone]
      exact ⟨fun r hr => absurd hr List.not_mem_nil, Or.inl rfl, rfl⟩
    | succ k ih =>
      rw [List.replicate_succ', live_append]
      generalize live env d (List.replicate k (.storeAccountMetadata none 0)) = c at ih ⊢
      obtain ⟨hle, hk, htx⟩ := ih
      have hnext : nextId (c.accounts.rows.map AccountRow.idAccount) = k + 1 := by
        refine nextId_eq (List.forall_mem_map.2 hle) ?_
        rw [List.mem_map]
        exact hk
      have hrows (r : AccountRow) : r ∈ (storeAccountMetadata c none 0).accounts.rows ↔
          r ∈ c.accounts.rows ∨ r = ⟨k + 1, none, 0, 0, 0, false, none, false, false⟩ := by
        refine (Table.mem_insertOrIgnore (t := c.accounts)).trans ?_
        rw [hnext]
        refine or_congr_right (and_iff_left ?_)
        intro x hx hclash
        have := hle x hx
        change x.idAccount = k + 1 at hclash
        omega
      refine ⟨fun r hr => ?_, Or.inr ⟨_, (hrows _).2 (Or.inr rfl), rfl⟩, htx⟩
      rcases (hrows r).1 hr with hr | rfl
      · exact Nat.le_succ_of_le (hle r hr)
      · exact le_refl _
  obtain ⟨hle, hk, htx⟩ := hids
  refine ⟨nextId_eq (List.forall_mem_map.2 hle) ?_, htx⟩
  rw [List.mem_map]
  exact hk

def newTransactions (account k : ℕ) : List (LifeEvent H) :=
  (List.range k).map fun j => .message (.transaction ⟨account, 0, 0, List.replicate j 0⟩)

theorem exists_transaction_live (env : WriterEnv) (hnone : d.transactions.rows = []) (a k : ℕ) :
    (∀ t ∈ (live env d (newTransactions a k)).transactions.rows,
      t.idTx ≤ k ∧ ∃ j < k, t.txid = List.replicate j 0) ∧
    (k = 0 ∨ ∃ t ∈ (live env d (newTransactions a k)).transactions.rows,
      t.idTx = k ∧ t.account = a) := by
  induction k with
  | zero =>
    rw [newTransactions, List.range_zero, List.map_nil, show live env d [] = d from rfl, hnone]
    exact ⟨fun t ht => absurd ht List.not_mem_nil, Or.inl rfl⟩
  | succ k ih =>
    have happend : live env d (newTransactions a (k + 1)) =
        (live env d (newTransactions a k)).handleTransaction ⟨a, 0, 0, List.replicate k 0⟩ := by
      rw [newTransactions, List.range_succ, List.map_append, live_append]
      rfl
    rw [happend]
    generalize live env d (newTransactions a k) = c at ih ⊢
    obtain ⟨hle, hk⟩ := ih
    have hnext : nextId (c.transactions.rows.map TransactionRow.idTx) = k + 1 := by
      refine nextId_eq (List.forall_mem_map.2 fun t ht => (hle t ht).1) ?_
      rw [List.mem_map]
      exact hk.imp_right fun ⟨t, ht, hid, _⟩ => ⟨t, ht, hid⟩
    have hrows (t : TransactionRow) :
        t ∈ (c.handleTransaction ⟨a, 0, 0, List.replicate k 0⟩).transactions.rows ↔
          t ∈ c.transactions.rows ∨ t = ⟨k + 1, List.replicate k 0, 0, a, 0, {}⟩ := by
      refine (Table.mem_insertOrIgnore (t := c.transactions)).trans ?_
      rw [hnext]
      refine or_congr_right (and_iff_left ?_)
      rintro x hx (hid | ⟨-, htxid⟩)
      · have := (hle x hx).1
        change x.idTx = k + 1 at hid
        omega
      · obtain ⟨j, hj, hx⟩ := (hle x hx).2
        rw [hx] at htxid
        have := congrArg List.length htxid
        rw [List.length_replicate, List.length_replicate] at this
        omega
    refine ⟨fun t ht => ?_, Or.inr ⟨_, (hrows _).2 (Or.inr rfl), rfl, rfl⟩⟩
    rcases (hrows t).1 ht with ht | rfl
    · obtain ⟨hid, j, hj, htxid⟩ := hle t ht
      exact ⟨Nat.le_succ_of_le hid, j, Nat.lt_succ_of_lt hj, htxid⟩
    · exact ⟨le_refl _, k, Nat.lt_succ_self k, rfl⟩

/-- Empties the wallet and makes accounts until the next gets the number. -/
def untilNumber (db : Database H) (account : ℕ) : List (LifeEvent H) :=
  ((db.accounts.rows.map AccountRow.idAccount ++
    db.transactions.rows.map TransactionRow.account).map .deleteAccount) ++
      List.replicate (account - 1) (.storeAccountMetadata none 0)

theorem newAccountId_untilNumber (env : WriterEnv) (db : Database H) (hpos : 0 < account) :
    newAccountId (live env db (untilNumber db account)) = account ∧
      (live env db (untilNumber db account)).transactions.rows = [] := by
  unfold untilNumber
  obtain ⟨hacc, htx⟩ := live_deleteAccounts (d := db) env (db.accounts.rows.map AccountRow.idAccount ++
    db.transactions.rows.map TransactionRow.account)
  rw [live_append]
  have hempty := newAccountId_live env (List.eq_nil_iff_forall_not_mem.2 fun r hr => (hacc r hr).2
    (List.mem_append_left _ (List.mem_map_of_mem (hacc r hr).1))) (account - 1)
  refine ⟨hempty.1.trans (Nat.sub_add_cancel hpos), ?_⟩
  rw [hempty.2]
  exact List.eq_nil_iff_forall_not_mem.2 fun t ht => (htx t ht).2
    (List.mem_append_right _ (List.mem_map_of_mem (htx t ht).1))

theorem exists_shown {t : TransactionRow} {memo : String} (ht : t ∈ d.transactions.rows)
    (hacc : t.account = account) (hmemo : d.userMemoOf t = some memo)
    (contacts : List ContactAddress) :
    ∃ tx ∈ d.fetchTxs contacts account, tx.isUserMemo = true := by
  obtain ⟨name, hname⟩ : ∃ name, name ∈ d.contactsOf contacts t := by
    unfold contactsOf
    split
    · exact ⟨none, List.mem_singleton_self none⟩
    · rename_i names hne
      obtain ⟨n, hn⟩ := List.exists_mem_of_ne_nil _ hne
      exact ⟨some n, List.mem_map_of_mem hn⟩
  refine ⟨_, mem_fetchTxs.2 ⟨t, ht, hacc, List.mem_map_of_mem hname⟩, ?_⟩
  simp [hmemo]

theorem erased_iff_noUserMemo (env : WriterEnv) (db : Database H) (account : ℕ) :
    Erased env db account ↔ NoUserMemo db account := by
  refine ⟨fun h m hm hacc hpos hnum => ?_, erased_of_noUserMemo env⟩
  by_contra hne
  set d := db.deleteAccount account with hd
  set es := untilNumber d account with hes
  obtain ⟨hid, hnone⟩ := newAccountId_untilNumber env d hpos
  have heq := congrArg (fun a => a.txs []) (h.fresh es none 0 (newTransactions account m.idTx) hid)
  have hquiet : ∀ e ∈ es ++ .storeAccountMetadata none 0 :: newTransactions account m.idTx,
      ∀ a i memo, e ≠ .setUserMemo a i memo := by
    rw [hes]
    simp only [untilNumber, newTransactions, List.mem_append, List.mem_cons, List.mem_map,
      List.mem_replicate]
    rintro e ((⟨a, -, rfl⟩ | ⟨-, rfl⟩) | rfl | ⟨j, -, rfl⟩) a i memo <;> exact nofun
  -- the new account has a transaction of the memo's number
  obtain ⟨t, ht, htid, htacc⟩ : ∃ t ∈ (live env d (es ++ .storeAccountMetadata none 0 ::
      newTransactions account m.idTx)).transactions.rows, t.idTx = m.idTx ∧ t.account = account := by
    have hstored := (exists_transaction_live env (d := storeAccountMetadata (live env d es) none 0)
      hnone account m.idTx).2.resolve_left (by omega)
    rw [live_append]
    exact hstored
  have hmemo : (live env d (es ++ .storeAccountMetadata none 0 ::
      newTransactions account m.idTx)).userMemoOf t = some m.userMemo := by
    rw [userMemoOf_iff, live_userMemos env _ hquiet, htid, htacc, ← hacc]
    exact ⟨hm, hne⟩
  obtain ⟨tx, htx, huser⟩ := exists_shown ht htacc hmemo []
  -- without the account no memo of it is kept
  change (live env d _).fetchTxs [] account = (live env _ _).fetchTxs [] account at heq
  rw [heq] at htx
  obtain ⟨u, -, hua, hu⟩ := mem_fetchTxs.1 htx
  obtain ⟨name, -, rfl⟩ := List.mem_map.1 hu
  obtain ⟨memo, hsome⟩ := Option.isSome_iff_exists.1 huser
  rw [userMemoOf_iff, live_userMemos env _ hquiet] at hsome
  exact of_decide_eq_false (Table.mem_deleteWhere.1 hsome.1).2 hua

/-! ### A memo of a deleted account -/

/-- One account with one transaction, for which the user wrote a memo. -/
def rentPaid : Database ℕ :=
  { (Database.empty : Database ℕ) with
    accounts := ⟨[⟨1, none, 0, 0, 0, false, none, true, true⟩], List.pairwise_singleton _ _⟩
    transactions := ⟨[⟨1, [7], 100, 1, 0, {}⟩], List.pairwise_singleton _ _⟩
    userMemos := ⟨[⟨1, 1, "rent"⟩], List.pairwise_singleton _ _⟩ }

/-- The account that gets its number shows the memo for a payment of its own. -/
theorem memo_outlives_account : ¬ Erased MemoState.sampleWriter rentPaid 1 := by
  intro h
  have heq := congrArg (fun a => (a.txs []).map Tx.memo)
    (h.fresh [] none 0 [.message (.transaction ⟨1, 200, 0, [9]⟩)] rfl)
  exact absurd heq (by decide)

end Leftovers

end ZcashSdk.Wallet
