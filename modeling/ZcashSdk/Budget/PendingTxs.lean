import ZcashSdk.Lib.Table
import ZcashSdk.Shielded.Types

set_option autoImplicit false

/-!
# Prices and categories of transactions on their way

The price and the category of a payment are kept with its pending row until the transaction
is found in a block. `π` and `κ` are the types of prices and categories; nothing depends on
what they are.
-/
namespace ZcashSdk.Budget
open Tables
open Shielded (Bytes)

section Rows
variable (π κ : Type)

structure TransactionRow where
  idTx : ℕ
  txid : Bytes
  account : ℕ
  price : Option π
  category : Option κ

structure PendingTxRow where
  account : ℕ
  txid : Bytes
  height : ℕ
  price : Option π
  category : Option κ
  expiryHeight : Option ℕ

end Rows

section Database
variable {π κ : Type}

instance : Row (TransactionRow π κ) where
  Clash a b := a.idTx = b.idTx ∨ a.account = b.account ∧ a.txid = b.txid
  clash_refl _ := Or.inl rfl
  clash_symm h := h.imp Eq.symm fun h => ⟨h.1.symm, h.2.symm⟩
  decClash _ _ := inferInstanceAs (Decidable (_ ∨ _))

instance : Row (PendingTxRow π κ) where
  Clash a b := a.account = b.account ∧ a.txid = b.txid
  clash_refl _ := ⟨rfl, rfl⟩
  clash_symm h := ⟨h.1.symm, h.2.symm⟩
  decClash _ _ := inferInstanceAs (Decidable (_ ∧ _))

end Database

structure Database (π κ : Type) where
  transactions : Table (TransactionRow π κ)
  pendingTxs : Table (PendingTxRow π κ)

variable {π κ : Type}

/-! ### What writes prices and categories -/

/-- `ON CONFLICT(account, txid) DO UPDATE`. -/
def upsertPending (db : Database π κ) (row : PendingTxRow π κ)
    (onConflict : PendingTxRow π κ → PendingTxRow π κ)
    (hkey : ∀ p, (onConflict p).account = p.account ∧ (onConflict p).txid = p.txid) :
    Database π κ :=
  { db with
    pendingTxs := (db.pendingTxs.update
      (fun p => if p.account = row.account ∧ p.txid = row.txid then onConflict p else p) (by
        intro a b
        simp only [Row.Clash]
        split <;> split <;> simp [hkey])).insertOrIgnore row }

/-- A transaction whose inputs are reserved: what was entered for it stays. -/
def recordPendingTx (db : Database π κ) (account : ℕ) (txid : Bytes) (expiryHeight : ℕ)
    (scannedHeight : Option ℕ) : Database π κ :=
  upsertPending db ⟨account, txid, scannedHeight.getD 0, none, none, some expiryHeight⟩
    (fun p => { p with height := scannedHeight.getD 0, expiryHeight := some expiryHeight })
    fun _ => ⟨rfl, rfl⟩

/-- `UPDATE transactions … WHERE id_tx = ?`. -/
def setTx (db : Database π κ) (id : ℕ) (set : TransactionRow π κ → TransactionRow π κ)
    (hkey : ∀ t, (set t).idTx = t.idTx ∧ (set t).account = t.account ∧ (set t).txid = t.txid) :
    Database π κ :=
  { db with
    transactions := db.transactions.update (fun t => if t.idTx = id then set t else t) (by
      intro a b
      simp only [Row.Clash]
      split <;> split <;> simp [hkey]) }

def setTxPrice (db : Database π κ) (id : ℕ) (price : Option π) : Database π κ :=
  setTx db id (fun t => { t with price }) fun _ => ⟨rfl, rfl, rfl⟩

def setTxCategory (db : Database π κ) (id : ℕ) (category : Option κ) : Database π κ :=
  setTx db id (fun t => { t with category }) fun _ => ⟨rfl, rfl, rfl⟩

/-! ### The merge -/

/-- One of several rows that match, which one is not specified. -/
def pick {α : Type} (choice : ℕ) (l : List α) : Option α := l[choice % l.length]?

/-- The rows of `upd`: a transaction of the account and a pending row with its `txid`. -/
def upd (db : Database π κ) (account : ℕ) : List (ℕ × Option π × Option κ) :=
  (db.transactions.rows.filter fun t => decide (t.account = account)).flatMap fun t =>
    (db.pendingTxs.rows.filter fun p => decide (p.txid = t.txid)).map fun p =>
      (t.idTx, p.price, p.category)

/-- `choice` tells which of several rows updates a transaction. -/
def updated (upd : List (ℕ × Option π × Option κ)) (choice : ℕ → ℕ) (t : TransactionRow π κ) :
    TransactionRow π κ :=
  match pick (choice t.idTx) (upd.filter fun u => decide (u.1 = t.idTx)) with
  | some (_, price, category) => { t with price, category }
  | none => t

theorem updated_key (upd : List (ℕ × Option π × Option κ)) (choice : ℕ → ℕ)
    (t : TransactionRow π κ) : (updated upd choice t).idTx = t.idTx ∧
      (updated upd choice t).account = t.account ∧ (updated upd choice t).txid = t.txid := by
  unfold updated
  split <;> exact ⟨rfl, rfl, rfl⟩

def mergePendingTxs (choice : ℕ → ℕ) (db : Database π κ) (account height : ℕ) : Database π κ where
  transactions := db.transactions.update (updated (upd db account) choice) (by
    intro a b
    simp only [Row.Clash, updated_key]
    exact id)
  pendingTxs := db.pendingTxs.deleteWhere fun p =>
    decide (p.account = account ∧ p.height < height - 100)

/-! ### What one transaction becomes -/

theorem pick_eq_none {α : Type} {choice : ℕ} {l : List α} : pick choice l = none ↔ l = [] := by
  rw [pick, List.getElem?_eq_none_iff]
  constructor
  · intro h
    by_contra hne
    have := Nat.mod_lt choice (List.length_pos_iff.2 hne)
    omega
  · rintro rfl
    exact Nat.zero_le _

theorem mem_of_pick {α : Type} {choice : ℕ} {l : List α} {a : α} (h : pick choice l = some a) :
    a ∈ l := List.mem_of_getElem? h

theorem exists_pick {α : Type} {l : List α} {a : α} (h : a ∈ l) :
    ∃ choice, pick choice l = some a := by
  obtain ⟨i, hi, rfl⟩ := List.getElem_of_mem h
  exact ⟨i, by rw [pick, Nat.mod_eq_of_lt hi, List.getElem?_eq_getElem hi]⟩

def Matches (db : Database π κ) (account : ℕ) (t : TransactionRow π κ) (p : PendingTxRow π κ) :
    Prop := t.account = account ∧ p ∈ db.pendingTxs.rows ∧ p.txid = t.txid

theorem mem_upd {db : Database π κ} {account : ℕ} {t : TransactionRow π κ}
    (ht : t ∈ db.transactions.rows) {u : ℕ × Option π × Option κ} :
    u ∈ (upd db account).filter (fun u => decide (u.1 = t.idTx)) ↔
      ∃ p, Matches db account t p ∧ u = (t.idTx, p.price, p.category) := by
  simp only [upd, List.mem_filter, List.mem_flatMap, List.mem_map, decide_eq_true_eq]
  constructor
  · rintro ⟨⟨s, ⟨hs, hsa⟩, p, ⟨hp, hpt⟩, rfl⟩, hid⟩
    have hst : s = t := db.transactions.eq_of_clash hs ht (Or.inl hid)
    subst hst
    exact ⟨p, ⟨hsa, hp, hpt⟩, rfl⟩
  · rintro ⟨p, ⟨hta, hp, hpt⟩, rfl⟩
    exact ⟨⟨t, ⟨ht, hta⟩, p, ⟨hp, hpt⟩, rfl⟩, rfl⟩

theorem updated_of_not_matches {db : Database π κ} {account : ℕ} {t : TransactionRow π κ}
    (ht : t ∈ db.transactions.rows) (h : ∀ p, ¬ Matches db account t p) (choice : ℕ → ℕ) :
    updated (upd db account) choice t = t := by
  have hnil : (upd db account).filter (fun u => decide (u.1 = t.idTx)) = [] := by
    apply List.eq_nil_iff_forall_not_mem.2
    intro u hu
    obtain ⟨p, hp, -⟩ := (mem_upd ht).1 hu
    exact h p hp
  rw [updated, hnil]
  rfl

theorem updated_of_matches {db : Database π κ} {account : ℕ} {t : TransactionRow π κ}
    (ht : t ∈ db.transactions.rows) (h : ∃ p, Matches db account t p) (choice : ℕ → ℕ) :
    ∃ p, Matches db account t p ∧
      updated (upd db account) choice t = { t with price := p.price, category := p.category } := by
  obtain ⟨p₀, hp₀⟩ := h
  cases hpick : pick (choice t.idTx)
      ((upd db account).filter fun u => decide (u.1 = t.idTx)) with
  | none =>
    have hmem := (mem_upd ht).2 ⟨p₀, hp₀, rfl⟩
    rw [pick_eq_none.1 hpick] at hmem
    exact absurd hmem List.not_mem_nil
  | some u =>
    obtain ⟨p, hp, rfl⟩ := (mem_upd ht).1 (mem_of_pick hpick)
    exact ⟨p, hp, by rw [updated, hpick]⟩

theorem exists_updated {db : Database π κ} {account : ℕ} {t : TransactionRow π κ}
    (ht : t ∈ db.transactions.rows) {p : PendingTxRow π κ} (hp : Matches db account t p) :
    ∃ n, ∀ choice : ℕ → ℕ, choice t.idTx = n →
      updated (upd db account) choice t = { t with price := p.price, category := p.category } := by
  obtain ⟨n, hn⟩ := exists_pick ((mem_upd ht).2 ⟨p, hp, rfl⟩)
  exact ⟨n, fun choice hc => by rw [updated, hc, hn]⟩

/-! ### Safety -/

section Safety
variable (priceSetAt : π → ℕ) (categorySetAt : κ → ℕ)

/-- A value is not replaced by none or by one that was set before it. -/
def Kept {α : Type} (setAt : α → ℕ) (old new : Option α) : Prop :=
  ∀ v, old = some v → ∃ w, new = some w ∧ setAt v ≤ setAt w

structure SafeMerge (db : Database π κ) (account height : ℕ) : Prop where
  otherTransactions : ∀ choice,
    (mergePendingTxs choice db account height).transactions.rows.filter (·.account != account) =
      db.transactions.rows.filter (·.account != account)
  otherPending : ∀ choice,
    (mergePendingTxs choice db account height).pendingTxs.rows.filter (·.account != account) =
      db.pendingTxs.rows.filter (·.account != account)
  kept : ∀ choice, ∀ t ∈ db.transactions.rows,
    ∀ t' ∈ (mergePendingTxs choice db account height).transactions.rows, t'.idTx = t.idTx →
      Kept priceSetAt t.price t'.price ∧ Kept categorySetAt t.category t'.category
  again : ∀ choice choice',
    mergePendingTxs choice' (mergePendingTxs choice db account height) account height =
      mergePendingTxs choice db account height

def Expired (account height : ℕ) (p : PendingTxRow π κ) : Prop :=
  p.account = account ∧ p.height < height - 100

structure Mergeable (db : Database π κ) (account height : ℕ) : Prop where
  kept : ∀ t ∈ db.transactions.rows, ∀ p, Matches db account t p →
    Kept priceSetAt t.price p.price ∧ Kept categorySetAt t.category p.category
  agree : ∀ t ∈ db.transactions.rows, ∀ p q, Matches db account t p → Matches db account t q →
    ¬ Expired account height q → p.price = q.price ∧ p.category = q.category

variable {db : Database π κ} {account height : ℕ}

omit priceSetAt categorySetAt in
theorem merge_otherTransactions (choice : ℕ → ℕ) :
    (mergePendingTxs choice db account height).transactions.rows.filter (·.account != account) =
      db.transactions.rows.filter (·.account != account) := by
  change (db.transactions.rows.map (updated (upd db account) choice)).filter _ = _
  rw [List.filter_map]
  have hsame : ∀ t ∈ db.transactions.rows.filter (·.account != account),
      updated (upd db account) choice t = id t := by
    intro t ht
    obtain ⟨ht, hne⟩ := List.mem_filter.1 ht
    refine updated_of_not_matches ht (fun p hp => ?_) choice
    simp [hp.1] at hne
  have hfilter : (fun t : TransactionRow π κ => t.account != account) ∘
      updated (upd db account) choice = fun t => t.account != account := by
    funext t
    simp only [Function.comp, updated_key]
  rw [hfilter, List.map_congr_left hsame, List.map_id]

theorem merge_otherPending (choice : ℕ → ℕ) :
    (mergePendingTxs choice db account height).pendingTxs.rows.filter (·.account != account) =
      db.pendingTxs.rows.filter (·.account != account) := by
  change (db.pendingTxs.rows.filter _).filter _ = _
  rw [List.filter_filter]
  apply List.filter_congr
  intro p _
  by_cases h : p.account = account <;> simp [h]

theorem Kept.refl {α : Type} {setAt : α → ℕ} (old : Option α) : Kept setAt old old :=
  fun v hv => ⟨v, hv, le_rfl⟩

theorem merge_kept_iff :
    (∀ choice, ∀ t ∈ db.transactions.rows,
      ∀ t' ∈ (mergePendingTxs choice db account height).transactions.rows, t'.idTx = t.idTx →
        Kept priceSetAt t.price t'.price ∧ Kept categorySetAt t.category t'.category) ↔
    ∀ t ∈ db.transactions.rows, ∀ p, Matches db account t p →
      Kept priceSetAt t.price p.price ∧ Kept categorySetAt t.category p.category := by
  constructor
  · intro h t ht p hp
    obtain ⟨n, hn⟩ := exists_updated ht hp
    have hkept := h (fun _ => n) t ht (updated (upd db account) (fun _ => n) t)
      (List.mem_map_of_mem ht) (updated_key ..).1
    rwa [hn _ rfl] at hkept
  · intro h choice t ht t' ht' hid
    obtain ⟨s, hs, rfl⟩ := List.mem_map.1 ht'
    rw [(updated_key ..).1] at hid
    have hst : s = t := db.transactions.eq_of_clash hs ht (Or.inl hid)
    subst hst
    by_cases hm : ∃ p, Matches db account s p
    · obtain ⟨p, hp, heq⟩ := updated_of_matches ht hm choice
      rw [heq]
      exact h s ht p hp
    · rw [updated_of_not_matches ht (not_exists.1 hm)]
      exact ⟨Kept.refl _, Kept.refl _⟩

/-- A second merge sees the pending rows that the first did not delete. -/
theorem matches_merge {choice : ℕ → ℕ} {t : TransactionRow π κ} {q : PendingTxRow π κ} :
    Matches (mergePendingTxs choice db account height) account
        (updated (upd db account) choice t) q ↔
      Matches db account t q ∧ ¬ Expired account height q := by
  have hpending : (mergePendingTxs choice db account height).pendingTxs =
      db.pendingTxs.deleteWhere fun p =>
        decide (p.account = account ∧ p.height < height - 100) := rfl
  simp only [Matches, updated_key, hpending, Table.mem_deleteWhere, Expired, decide_eq_false_iff_not]
  tauto

theorem merge_eq_self {d : Database π κ} {choice : ℕ → ℕ}
    (ht : ∀ t ∈ d.transactions.rows, updated (upd d account) choice t = t)
    (hp : ∀ p ∈ d.pendingTxs.rows, ¬ Expired account height p) :
    mergePendingTxs choice d account height = d := by
  have hpending : d.pendingTxs.deleteWhere (fun p =>
      decide (p.account = account ∧ p.height < height - 100)) = d.pendingTxs :=
    Table.deleteWhere_eq_self fun p hmem => decide_eq_false_iff_not.2 (hp p hmem)
  rw [mergePendingTxs, Table.update_eq_self ht, hpending]

theorem merge_again_eq_iff {choice choice' : ℕ → ℕ} :
    mergePendingTxs choice' (mergePendingTxs choice db account height) account height =
        mergePendingTxs choice db account height ↔
      ∀ t ∈ db.transactions.rows,
        updated (upd (mergePendingTxs choice db account height) account) choice'
          (updated (upd db account) choice t) = updated (upd db account) choice t := by
  constructor
  · intro h t ht
    have hrows : (mergePendingTxs choice db account height).transactions.rows.map
        (updated (upd (mergePendingTxs choice db account height) account) choice') =
        (mergePendingTxs choice db account height).transactions.rows.map id := by
      rw [List.map_id]
      exact congrArg (fun d => d.transactions.rows) h
    exact List.map_inj_left.1 hrows _ (List.mem_map_of_mem ht)
  · intro h
    refine merge_eq_self (fun t' ht' => ?_) fun p hp => ?_
    · obtain ⟨t, ht, rfl⟩ := List.mem_map.1 ht'
      exact h t ht
    · exact decide_eq_false_iff_not.1 (Table.mem_deleteWhere.1 hp).2

theorem merge_again_iff :
    (∀ choice choice', mergePendingTxs choice' (mergePendingTxs choice db account height)
        account height = mergePendingTxs choice db account height) ↔
    ∀ t ∈ db.transactions.rows, ∀ p q, Matches db account t p → Matches db account t q →
      ¬ Expired account height q → p.price = q.price ∧ p.category = q.category := by
  simp only [merge_again_eq_iff]
  have hrow : ∀ choice, ∀ t ∈ db.transactions.rows, updated (upd db account) choice t ∈
      (mergePendingTxs choice db account height).transactions.rows :=
    fun choice t ht => List.mem_map_of_mem ht
  constructor
  · intro h t ht p q hp hq hlive
    obtain ⟨n, hn⟩ := exists_updated ht hp
    obtain ⟨n', hn'⟩ := exists_updated (hrow (fun _ => n) t ht) (matches_merge.2 ⟨hq, hlive⟩)
    have hsame := h (fun _ => n) (fun _ => n') t ht
    rw [hn' _ rfl, hn _ rfl, TransactionRow.mk.injEq] at hsame
    exact ⟨hsame.2.2.2.1.symm, hsame.2.2.2.2.symm⟩
  · intro h choice choice' t ht
    by_cases hm : ∃ q, Matches (mergePendingTxs choice db account height) account
        (updated (upd db account) choice t) q
    · obtain ⟨q, hq, heq⟩ := updated_of_matches (hrow choice t ht) hm choice'
      obtain ⟨hq, hlive⟩ := matches_merge.1 hq
      obtain ⟨p, hp, hfirst⟩ := updated_of_matches ht ⟨q, hq⟩ choice
      obtain ⟨hprice, hcategory⟩ := h t ht p q hp hq hlive
      rw [heq, hfirst, hprice, hcategory]
    · exact updated_of_not_matches (hrow choice t ht) (not_exists.1 hm) choice'

/-- Only the account's rows change; and nothing is lost and a second merge changes nothing exactly
    when each pending row of a transaction has its values or later ones, and the rows that
    stay pending agree with all of them. -/
theorem safeMerge_iff : SafeMerge priceSetAt categorySetAt db account height ↔
    Mergeable priceSetAt categorySetAt db account height := by
  constructor
  · rintro ⟨-, -, hkept, hagain⟩
    exact ⟨(merge_kept_iff ..).1 hkept, merge_again_iff.1 hagain⟩
  · rintro ⟨hkept, hagree⟩
    exact ⟨merge_otherTransactions, merge_otherPending, (merge_kept_iff ..).2 hkept,
      merge_again_iff.2 hagree⟩

end Safety

/-! ### A reserved transaction -/

def mined : Database ℕ ℕ where
  transactions := ⟨[⟨1, [7], 1, none, none⟩], List.pairwise_singleton _ _⟩
  pendingTxs := .empty

/-- Its inputs are reserved, then the user sets a price and a category. -/
def priced : Database ℕ ℕ :=
  setTxCategory (setTxPrice (recordPendingTx mined 1 [7] 140 (some 100)) 1 (some 25)) 1 (some 3)

/-- The merge takes the price and the category away. -/
theorem priced_erased :
    priced.transactions.rows = [⟨1, [7], 1, some 25, some 3⟩] ∧
      (mergePendingTxs (fun _ => 0) priced 1 101).transactions.rows =
        [⟨1, [7], 1, none, none⟩] ∧
      ¬ SafeMerge id id priced 1 101 := by
  have hbefore : priced.transactions.rows = [⟨1, [7], 1, some 25, some 3⟩] := rfl
  have hafter : (mergePendingTxs (fun _ => 0) priced 1 101).transactions.rows =
      [⟨1, [7], 1, none, none⟩] := rfl
  refine ⟨hbefore, hafter, fun h => ?_⟩
  have hkept := h.kept (fun _ => 0) ⟨1, [7], 1, some 25, some 3⟩ (by rw [hbefore]; simp)
    ⟨1, [7], 1, none, none⟩ (by rw [hafter]; simp) rfl
  obtain ⟨w, hw, -⟩ := hkept.1 25 rfl
  cases hw

end ZcashSdk.Budget
