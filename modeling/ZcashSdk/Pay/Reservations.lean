import ZcashSdk.Pay.OwnInputs

set_option autoImplicit false

/-!
# A reservation holds

While a reservation is active nothing takes it over, a note it holds is neither offered
to the planner nor counted as available, and making it again changes nothing.
-/
namespace ZcashSdk.Pay
open Tables Shielded Db Runs Loops Database

variable {H : Type} [DecidableEq H]

/-! ### Claims -/

section Claim
variable {db d : Database H} {account : ℕ} {parsed : ParsedTransaction H} {input : NullifierKey H}

structure SameChain (db d : Database H) : Prop where
  notes : d.notes = db.notes
  spends : d.spends = db.spends
  transactions : d.transactions = db.transactions
  syncHeights : d.syncHeights = db.syncHeights
  userMemos : d.userMemos = db.userMemos

theorem SameChain.refl (db : Database H) : SameChain db db := ⟨rfl, rfl, rfl, rfl, rfl⟩

theorem SameChain.of_claims (h : d = { db with pendingInputs := d.pendingInputs }) :
    SameChain db d := by
  rw [h]
  exact ⟨rfl, rfl, rfl, rfl, rfl⟩

theorem SameChain.accountSeam (h : SameChain db d) (a : ℕ) : d.accountSeam a = db.accountSeam a := by
  simp only [Database.accountSeam, Database.heights, h.syncHeights]

theorem SameChain.isActive (h : SameChain db d) (p : PendingInputRow H) :
    d.isActive p = db.isActive p := by
  rw [Bool.eq_iff_iff, isActive_iff, isActive_iff, Database.scannedHeight, Database.scannedHeight,
    h.accountSeam]

theorem claimInput_ok (h : claimInput db account parsed input = .ok d) :
    d = { db with pendingInputs := d.pendingInputs } ∧
      (∀ q, q ∈ d.pendingInputs.rows ↔
        q = ⟨account, input, parsed.txid, parsed.expiryHeight⟩ ∨
          q ∈ db.pendingInputs.rows ∧ ¬ (q.account = account ∧ q.nullifier = input)) ∧
      ∀ p ∈ db.pendingInputs.rows, p.account = account → p.nullifier = input →
        p.ownerTxid = parsed.txid ∨ db.isActive p = false := by
  unfold claimInput at h
  split at h
  · rename_i p hfind
    have hp := List.mem_of_find?_eq_some hfind
    have hkey := List.find?_some hfind
    simp only [decide_eq_true_eq] at hkey
    split_ifs at h with hfree
    cases h
    have huniq : ∀ q ∈ db.pendingInputs.rows, q.account = account → q.nullifier = input → q = p :=
      fun q hq ha hn => db.pendingInputs.eq_of_clash hq hp ⟨ha.trans hkey.1.symm, hn.trans hkey.2.symm⟩
    refine ⟨rfl, fun q => ?_, fun q hq ha hn => huniq q hq ha hn ▸ hfree⟩
    simp only [Table.mem_update, claimedRow]
    constructor
    · rintro ⟨r, hr, rfl⟩
      split
      · rename_i hk
        exact Or.inl (by rw [hk.1, hk.2])
      · rename_i hk
        exact Or.inr ⟨hr, hk⟩
    · rintro (rfl | ⟨hq, hk⟩)
      · exact ⟨p, hp, by rw [if_pos hkey, hkey.1, hkey.2]⟩
      · exact ⟨q, hq, if_neg hk⟩
  · rename_i hfind
    cases h
    have hnone : ∀ q ∈ db.pendingInputs.rows, ¬ (q.account = account ∧ q.nullifier = input) := by
      intro q hq
      simpa using List.find?_eq_none.1 hfind q hq
    refine ⟨rfl, fun q => ?_, fun q hq ha hn => absurd ⟨ha, hn⟩ (hnone q hq)⟩
    rw [Table.mem_insertOrIgnore]
    constructor
    · rintro (hq | ⟨rfl, -⟩)
      · exact Or.inr ⟨hq, hnone q hq⟩
      · exact Or.inl rfl
    · rintro (rfl | ⟨hq, -⟩)
      · exact Or.inr ⟨rfl, fun q hq hc => hnone q hq hc⟩
      · exact Or.inl hq

theorem claimInput_self
    (h : ⟨account, input, parsed.txid, parsed.expiryHeight⟩ ∈ db.pendingInputs.rows) :
    claimInput db account parsed input = .ok db := by
  have huniq : ∀ q ∈ db.pendingInputs.rows, q.account = account ∧ q.nullifier = input →
      q = ⟨account, input, parsed.txid, parsed.expiryHeight⟩ :=
    fun q hq hk => db.pendingInputs.eq_of_clash hq h hk
  unfold claimInput
  split
  · rename_i p hfind
    have hkey := List.find?_some hfind
    simp only [decide_eq_true_eq] at hkey
    obtain rfl := huniq p (List.mem_of_find?_eq_some hfind) hkey
    rw [if_pos (Or.inl rfl), Table.update_eq_self]
    intro q hq
    unfold claimedRow
    split
    · rename_i hk
      rw [huniq q hq hk]
    · rfl
  · rename_i hfind
    have := List.find?_eq_none.1 hfind _ h
    simp at this

/-- Active reservations are still there, of the same owners and active. -/
def Holds (db d : Database H) : Prop :=
  ∀ p ∈ db.pendingInputs.rows, db.isActive p = true → ∃ q ∈ d.pendingInputs.rows,
    q.account = p.account ∧ q.nullifier = p.nullifier ∧ q.ownerTxid = p.ownerTxid ∧
      db.isActive q = true

theorem claimInput_holds (hlive : parsed.expiryHeight = 0 ∨ db.scannedHeight account <
    parsed.expiryHeight) (h : claimInput db account parsed input = .ok d) : Holds db d := by
  obtain ⟨-, hrows, hfree⟩ := claimInput_ok h
  intro p hp hact
  by_cases hk : p.account = account ∧ p.nullifier = input
  · have hown := (hfree p hp hk.1 hk.2).resolve_right (by rw [hact]; exact Bool.noConfusion)
    refine ⟨_, (hrows _).2 (Or.inl rfl), hk.1.symm, hk.2.symm, hown.symm, ?_⟩
    exact isActive_iff.2 hlive
  · exact ⟨p, (hrows p).2 (Or.inr ⟨hp, hk⟩), rfl, rfl, rfl, hact⟩

theorem claimInputs_cons_ok {owned : List (NullifierKey H)} :
    claimInputs db account parsed (input :: owned) = .ok d ↔
      ∃ d', claimInput db account parsed input = .ok d' ∧
        claimInputs d' account parsed owned = .ok d := by
  unfold claimInputs
  rw [List.foldlM_cons, bind_eq_ok]

theorem claimInputs_holds {owned : List (NullifierKey H)}
    (hlive : parsed.expiryHeight = 0 ∨ db.scannedHeight account < parsed.expiryHeight)
    (h : claimInputs db account parsed owned = .ok d) : Holds db d := by
  induction owned generalizing db with
  | nil =>
    cases h
    exact fun p hp hact => ⟨p, hp, rfl, rfl, rfl, hact⟩
  | cons input owned ih =>
    obtain ⟨d1, h1, h2⟩ := claimInputs_cons_ok.1 h
    have hsame := SameChain.of_claims (claimInput_ok h1).1
    have hlive1 : parsed.expiryHeight = 0 ∨ d1.scannedHeight account < parsed.expiryHeight := by
      simpa only [scannedHeight, hsame.accountSeam] using hlive
    intro p hp hact
    obtain ⟨q, hq, h1a, h1n, h1o, h1act⟩ := claimInput_holds hlive h1 p hp hact
    obtain ⟨r, hr, h2a, h2n, h2o, h2act⟩ := ih hlive1 h2 q hq (by rw [hsame.isActive]; exact h1act)
    exact ⟨r, hr, h2a.trans h1a, h2n.trans h1n, h2o.trans h1o, by rw [← hsame.isActive]; exact h2act⟩

theorem claimInputs_rows {owned : List (NullifierKey H)}
    (h : claimInputs db account parsed owned = .ok d) :
    d = { db with pendingInputs := d.pendingInputs } ∧ ∀ q, q ∈ d.pendingInputs.rows ↔
      (q.nullifier ∈ owned ∧ q = ⟨account, q.nullifier, parsed.txid, parsed.expiryHeight⟩) ∨
        (q ∈ db.pendingInputs.rows ∧ ¬ (q.account = account ∧ q.nullifier ∈ owned)) := by
  induction owned generalizing db with
  | nil =>
    cases h
    exact ⟨rfl, fun q => by simp⟩
  | cons input owned ih =>
    obtain ⟨d1, h1, h2⟩ := claimInputs_cons_ok.1 h
    obtain ⟨hrest1, hrows1, -⟩ := claimInput_ok h1
    obtain ⟨hrest, hrows⟩ := ih h2
    refine ⟨by rw [hrest, hrest1], fun q => ?_⟩
    rw [hrows, hrows1, List.mem_cons]
    constructor
    · rintro (⟨hmem, hq⟩ | ⟨hq | ⟨hq, hkey⟩, hnot⟩)
      · exact Or.inl ⟨Or.inr hmem, hq⟩
      · subst hq
        exact Or.inl ⟨Or.inl rfl, rfl⟩
      · exact Or.inr ⟨hq, fun h => h.2.elim (fun hi => hkey ⟨h.1, hi⟩) fun hi => hnot ⟨h.1, hi⟩⟩
    · rintro (⟨hmem, hq⟩ | ⟨hq, hnot⟩)
      · by_cases howned : q.nullifier ∈ owned
        · exact Or.inl ⟨howned, hq⟩
        · obtain hi := hmem.resolve_right howned
          rw [hi] at hq
          exact Or.inr ⟨Or.inl hq, fun h => howned h.2⟩
      · exact Or.inr ⟨Or.inr ⟨hq, fun h => hnot ⟨h.1, Or.inl h.2⟩⟩,
          fun h => hnot ⟨h.1, Or.inr h.2⟩⟩

theorem claimInputs_self {owned : List (NullifierKey H)}
    (h : ∀ i ∈ owned, ⟨account, i, parsed.txid, parsed.expiryHeight⟩ ∈ db.pendingInputs.rows) :
    claimInputs db account parsed owned = .ok db := by
  induction owned with
  | nil => rfl
  | cons input owned ih =>
    unfold claimInputs at ih ⊢
    rw [List.foldlM_cons, claimInput_self (h input (List.mem_cons_self ..)), ok_bind]
    exact ih fun i hi => h i (List.mem_cons_of_mem _ hi)

end Claim

/-! ### The call -/

section Reserve
variable {db d : Database H} {account : ℕ} {parsed : ParsedTransaction H} {own : OwnInputs}

/-- A call that succeeds has found nothing to claim, or claims all that is the account's. -/
theorem reserve_ok (h : reserveParsedTransaction db account parsed own = .ok d) :
    (parsed.expiryHeight = 0 ∨ db.scannedHeight account < parsed.expiryHeight) ∧
      ∃ owned, validateOwnedInputs db account parsed = .ok owned ∧
        (owned = [] ∧ d = db ∨ owned ≠ [] ∧ ∃ c, claimInputs db account parsed owned = .ok c ∧
          d = recordPendingTx c account parsed (db.accountSeam account)) := by
  obtain ⟨⟨⟩, hexp, h⟩ := bind_eq_ok.1 h
  obtain ⟨owned, howned, h⟩ := bind_eq_ok.1 h
  refine ⟨?_, owned, howned, ?_⟩
  · have hlive := ensure_eq_ok.1 hexp
    unfold scannedHeight
    cases hseam : db.accountSeam account with
    | none =>
      change _ ∨ 0 < _
      omega
    | some seam =>
      rw [hseam] at hlive
      simpa using hlive
  · split_ifs at h with hempty
    · obtain ⟨-, -, h⟩ := bind_eq_ok.1 h
      obtain ⟨-, -, h⟩ := bind_eq_ok.1 h
      cases h
      exact Or.inl ⟨hempty, rfl⟩
    · obtain ⟨c, hc, h⟩ := bind_eq_ok.1 h
      cases h
      exact Or.inr ⟨hempty, c, hc, rfl⟩

theorem reserve_holds (h : reserveParsedTransaction db account parsed own = .ok d) :
    SameChain db d ∧ Holds db d := by
  obtain ⟨hlive, owned, -, ⟨-, rfl⟩ | ⟨-, c, hc, rfl⟩⟩ := reserve_ok h
  · exact ⟨.refl d, fun p hp hact => ⟨p, hp, rfl, rfl, rfl, hact⟩⟩
  · have hsame := SameChain.of_claims (claimInputs_rows hc).1
    have hholds : Holds db c := claimInputs_holds hlive hc
    exact ⟨⟨hsame.notes, hsame.spends, hsame.transactions, hsame.syncHeights, hsame.userMemos⟩,
      hholds⟩

theorem validateOwnedInputs_congr (h : SameChain db d) :
    validateOwnedInputs d account parsed = validateOwnedInputs db account parsed := by
  have hcheck : checkOwned d account parsed = checkOwned db account parsed := by
    funext owned n
    have hspent : d.isSpent n.idNote = db.isSpent n.idNote := by
      rw [isSpent, isSpent, h.spends]
    have htxid : spendTxid d n = spendTxid db n := by
      rw [spendTxid, spendTxid, h.spends, h.transactions]
    rw [checkOwned, checkOwned, hspent, htxid]
  simp only [validateOwnedInputs, hcheck, h.notes]

/-- Recording a second time finds the row as it wrote it. -/
theorem recordPendingTx_twice (db : Database H) (account : ℕ) (parsed : ParsedTransaction H)
    (scanned : Option ℕ) :
    recordPendingTx (recordPendingTx db account parsed scanned) account parsed scanned =
      recordPendingTx db account parsed scanned := by
  unfold recordPendingTx
  dsimp only
  generalize hrow : (⟨account, parsed.txid, scanned.getD 0, some parsed.expiryHeight⟩ :
    PendingTxRow) = row
  congr 1
  have hrecorded : ∀ p : PendingTxRow, p.account = row.account ∧ p.txid = row.txid →
      recordedRow row p = row := by
    rintro ⟨a, t, h, e⟩ hk
    rw [recordedRow, if_pos hk]
    cases row
    simp_all
  have hself : ∀ p ∈ ((db.pendingTxs.update (recordedRow row)
      (recordedRow_clash row)).insertOrIgnore row).rows, recordedRow row p = p := by
    intro p hp
    by_cases hk : p.account = row.account ∧ p.txid = row.txid
    · rcases Table.mem_insertOrIgnore.1 hp with hp | ⟨rfl, -⟩
      · obtain ⟨q, -, rfl⟩ := Table.mem_update.1 hp
        have hq : q.account = row.account ∧ q.txid = row.txid := by
          unfold recordedRow at hk
          split at hk <;> exact hk
        rw [hrecorded q hq, hrecorded row ⟨rfl, rfl⟩]
      · exact hrecorded p hk
    · rw [recordedRow, if_neg hk]
  rw [Table.update_eq_self hself]
  obtain ⟨p, hp, hc⟩ := Table.exists_clash_insertOrIgnore
    (db.pendingTxs.update (recordedRow row) (recordedRow_clash row)) row
  exact Table.insertOrIgnore_eq_self hp hc

theorem reserve_again (h : reserveParsedTransaction db account parsed own = .ok d) :
    reserveParsedTransaction d account parsed own = .ok d := by
  obtain ⟨hsame, -⟩ := reserve_holds h
  obtain ⟨-, owned, howned, ⟨-, rfl⟩ | ⟨hne, c, hc, rfl⟩⟩ := reserve_ok h
  · exact h
  · obtain ⟨⟨⟩, hexp, -⟩ := bind_eq_ok.1 h
    have hclaimed : claimInputs (recordPendingTx c account parsed (db.accountSeam account))
        account parsed owned = .ok _ :=
      claimInputs_self fun i hi => ((claimInputs_rows hc).2 _).2 (.inl ⟨hi, rfl⟩)
    unfold reserveParsedTransaction
    rw [hsame.accountSeam]
    dsimp only
    rw [hexp, ok_bind, validateOwnedInputs_congr hsame, howned, ok_bind, if_neg hne, hclaimed,
      ok_bind, recordPendingTx_twice]

/-- When the transaction has inputs of its own it is recorded, with the height that is scanned
    to and with its expiry; the other records are as before. -/
def Recorded (db d : Database H) (account : ℕ) (parsed : ParsedTransaction H) : Prop :=
  ∀ r, r ∈ d.pendingTxs.rows ↔
    ((∃ i, IsOwn db parsed i) ∧
      r = ⟨account, parsed.txid, db.scannedHeight account, some parsed.expiryHeight⟩) ∨
    (r ∈ db.pendingTxs.rows ∧
      ¬ ((∃ i, IsOwn db parsed i) ∧ r.account = account ∧ r.txid = parsed.txid))

/-- What a call leaves: a reservation of each of the transaction's own inputs, its record, and
    all else as before. -/
structure Reserved (db d : Database H) (account : ℕ) (parsed : ParsedTransaction H) : Prop where
  rest : d = { db with pendingInputs := d.pendingInputs, pendingTxs := d.pendingTxs }
  owner : ∀ n ∈ db.notes.rows, n.nullifier ∈ parsed.inputs → n.account = account
  inputs : ∀ q, q ∈ d.pendingInputs.rows ↔
    (IsOwn db parsed q.nullifier ∧
      q = ⟨account, q.nullifier, parsed.txid, parsed.expiryHeight⟩) ∨
    (q ∈ db.pendingInputs.rows ∧ ¬ (q.account = account ∧ IsOwn db parsed q.nullifier))
  records : Recorded db d account parsed

theorem mem_recordPendingTx {scanned : Option ℕ} {r : PendingTxRow} :
    r ∈ (recordPendingTx db account parsed scanned).pendingTxs.rows ↔
      r = ⟨account, parsed.txid, scanned.getD 0, some parsed.expiryHeight⟩ ∨
        r ∈ db.pendingTxs.rows ∧ ¬ (r.account = account ∧ r.txid = parsed.txid) := by
  unfold recordPendingTx
  dsimp only
  generalize hrow : (⟨account, parsed.txid, scanned.getD 0, some parsed.expiryHeight⟩ :
    PendingTxRow) = row
  have hacc : account = row.account := by rw [← hrow]
  have htxid : parsed.txid = row.txid := by rw [← hrow]
  have hclaimed (p : PendingTxRow) (hk : p.account = row.account ∧ p.txid = row.txid) :
      recordedRow row p = row := by
    rw [recordedRow, if_pos hk, hk.1, hk.2, ← hrow]
  rw [Table.mem_insertOrIgnore, Table.mem_update, hacc, htxid]
  constructor
  · rintro (⟨p, hp, rfl⟩ | ⟨rfl, -⟩)
    · by_cases hk : p.account = row.account ∧ p.txid = row.txid
      · exact Or.inl (hclaimed p hk)
      · rw [recordedRow, if_neg hk]
        exact Or.inr ⟨hp, hk⟩
    · exact Or.inl rfl
  · rintro (rfl | ⟨hr, hk⟩)
    · by_cases hold : ∃ p ∈ db.pendingTxs.rows, p.account = r.account ∧ p.txid = r.txid
      · obtain ⟨p, hp, hk⟩ := hold
        exact Or.inl ⟨p, hp, hclaimed p hk⟩
      · refine Or.inr ⟨rfl, fun q hq hc => hold ?_⟩
        obtain ⟨p, hp, rfl⟩ := Table.mem_update.1 hq
        have hkey : (recordedRow r p).account = p.account ∧ (recordedRow r p).txid = p.txid := by
          unfold recordedRow
          split <;> exact ⟨rfl, rfl⟩
        exact ⟨p, hp, hkey.1 ▸ hc.1, hkey.2 ▸ hc.2⟩
    · exact Or.inl ⟨r, hr, by rw [recordedRow, if_neg hk]⟩

theorem reserve_reserved (h : reserveParsedTransaction db account parsed own = .ok d) :
    Reserved db d account parsed := by
  obtain ⟨-, owned, howned, hcase⟩ := reserve_ok h
  have hmem (i : NullifierKey H) : i ∈ owned ↔ IsOwn db parsed i := mem_validateOwnedInputs howned
  have hpass := validateOwnedInputs_ok_iff.1 ⟨owned, howned⟩
  have howner : ∀ n ∈ db.notes.rows, n.nullifier ∈ parsed.inputs → n.account = account :=
    fun n hn hin => (hpass n hn hin).1
  rcases hcase with ⟨rfl, rfl⟩ | ⟨hne, c, hc, rfl⟩
  · have hnone (i : NullifierKey H) : ¬ IsOwn d parsed i := fun hi =>
      absurd ((hmem i).2 hi) List.not_mem_nil
    exact ⟨rfl, howner, fun q => by simp [hnone], fun r => by simp [hnone]⟩
  · obtain ⟨hrest, hrows⟩ := claimInputs_rows hc
    have hsome : ∃ i, IsOwn db parsed i := by
      obtain ⟨i, hi⟩ := List.exists_mem_of_ne_nil owned hne
      exact ⟨i, (hmem i).1 hi⟩
    have htxs : c.pendingTxs = db.pendingTxs := by rw [hrest]
    refine ⟨?_, howner, fun q => ?_, fun r => ?_⟩
    · rw [hrest]
      rfl
    · rw [← hmem]
      exact hrows q
    · rw [mem_recordPendingTx, htxs]
      simp only [hsome, true_and]
      rfl

def HoldsInputs (db : Database H) (account : ℕ) (parsed : ParsedTransaction H) : Prop :=
  ∀ i, IsOwn db parsed i → ⟨account, i, parsed.txid, parsed.expiryHeight⟩ ∈ db.pendingInputs.rows

/-- At any later time too a transaction that holds its inputs only has its record renewed. -/
theorem reserve_held (hheld : HoldsInputs db account parsed)
    (h : reserveParsedTransaction db account parsed own = .ok d) :
    d = { db with pendingTxs := d.pendingTxs } ∧ Recorded db d account parsed := by
  refine ⟨?_, (reserve_reserved h).records⟩
  obtain ⟨-, owned, howned, ⟨-, rfl⟩ | ⟨-, c, hc, rfl⟩⟩ := reserve_ok h
  · rfl
  · have hself := claimInputs_self fun i hi => hheld i ((mem_validateOwnedInputs howned).1 hi)
    rw [hself] at hc
    cases hc
    rfl

end Reserve

/-! ### What the balances and the planner see -/

section Accounts
variable {db : Database H} {account confirmations pool : ℕ}

omit [DecidableEq H] in
theorem sumWhere_perm {ms ns : List (NoteRow H)} (h : ms.Perm ns) (p : NoteRow H → Bool) :
    sumWhere ms p = sumWhere ns p :=
  (h.map _).sum_eq

theorem total_eq_sum (db : Database H) (account confirmations pool : ℕ) :
    (db.calculateBalanceBreakdown account confirmations pool).total =
      (((db.ownedUnspentZecNotes account).filter fun n => n.pool = pool).map NoteRow.value).sum := by
  simp only [calculateBalanceBreakdown, Balance.total, sumWhere, ← List.sum_map_add]
  congr 1
  refine List.map_congr_left fun n _ => ?_
  by_cases hc : n.height ≤ db.confirmedHeight account confirmations
  · by_cases hl : n.locked = true <;> by_cases hr : db.isReserved n = true <;>
      simp [availableNote, hc, hl, hr, Nat.not_lt.2 hc]
  · by_cases hs : n.scope = some 1 <;> simp [availableNote, hc, hs, Nat.not_le.1 hc]

def withoutNote (db : Database H) (n : NoteRow H) : Database H :=
  { db with notes := db.notes.deleteWhere fun m => decide (m.idNote = n.idNote) }

theorem sumWhere_withoutNote {n : NoteRow H} (hn : n ∈ db.notes.rows) (hacc : n.account = account)
    (hz : n.idAsset = none) (hu : db.isSpent n.idNote = false) (hp : n.pool = pool)
    (p : NoteRow H → Bool) :
    sumWhere ((db.ownedUnspentZecNotes account).filter fun m => m.pool = pool) p =
      sumWhere (((withoutNote db n).ownedUnspentZecNotes account).filter fun m => m.pool = pool) p +
        if p n then n.value else 0 := by
  set ns := (db.ownedUnspentZecNotes account).filter fun m => m.pool = pool with hns
  have hmem : n ∈ ns := by
    rw [hns, List.mem_filter, ownedUnspentZecNotes, List.mem_filter]
    simp [hn, hacc, hz, hu, hp]
  have hnodup : ns.Nodup := (db.notes.nodup.filter _).filter _
  have herase : ((withoutNote db n).ownedUnspentZecNotes account).filter (fun m => m.pool = pool) =
      ns.erase n := by
    rw [hnodup.erase_eq_filter, hns]
    unfold ownedUnspentZecNotes withoutNote
    simp only [Table.deleteWhere, List.filter_filter]
    refine List.filter_congr fun m hm => ?_
    have hne : m.idNote = n.idNote ↔ m = n :=
      ⟨fun h => db.notes.eq_of_clash hm hn (Or.inl h), fun h => h ▸ rfl⟩
    by_cases h : m = n
    · simp [h]
    · simp [h, hne, isSpent, Bool.and_comm]
  rw [herase, sumWhere_perm (List.perm_cons_erase hmem)]
  unfold sumWhere
  rw [List.map_cons, List.sum_cons, add_comm]

/-- Where the value of a reserved note is counted: locked when it is confirmed, else with what
    is still to come. -/
def countReserved (cutoff : ℕ) (n : NoteRow H) (b : Balance) : Balance :=
  if n.height ≤ cutoff then { b with locked := b.locked + n.value }
  else if n.scope = some 1 then { b with changePending := b.changePending + n.value }
  else { b with valuePending := b.valuePending + n.value }

theorem breakdown_reserved {n : NoteRow H} (hn : n ∈ db.notes.rows) (hr : db.isReserved n = true)
    (hz : n.idAsset = none) (hu : db.isSpent n.idNote = false) (confirmations : ℕ) :
    db.calculateBalanceBreakdown n.account confirmations n.pool =
      countReserved (db.confirmedHeight n.account confirmations) n
        ((withoutNote db n).calculateBalanceBreakdown n.account confirmations n.pool) := by
  have hsum := sumWhere_withoutNote hn rfl hz hu rfl
  have havail : db.availableNote (db.confirmedHeight n.account confirmations) n = false := by
    simp [availableNote, hr]
  unfold calculateBalanceBreakdown
  dsimp only
  simp only [hsum, havail, hr]
  unfold countReserved
  by_cases hc : n.height ≤ db.confirmedHeight n.account confirmations
  · rw [if_pos hc]
    simp [hc, Nat.not_lt.2 hc]
    exact ⟨rfl, rfl, rfl, rfl⟩
  · rw [if_neg hc]
    by_cases hs : n.scope = some 1
    · rw [if_pos hs]
      simp [hc, hs, Nat.not_le.1 hc]
      exact ⟨rfl, rfl, rfl, rfl⟩
    · rw [if_neg hs]
      simp [hc, hs, Nat.not_le.1 hc]
      exact ⟨rfl, rfl, rfl, rfl⟩

theorem fetchUnspentNotes_unreserved {n : NoteRow H} (hn : n ∈ db.notes.rows)
    (hr : db.isReserved n = true) : ∀ x ∈ db.fetchUnspentNotes account, x.id ≠ n.idNote := by
  intro x hx hid
  obtain ⟨m, hm, rfl⟩ := List.mem_map.1 hx
  obtain ⟨hm, hfree⟩ := List.mem_filter.1 hm
  obtain rfl := db.notes.eq_of_clash hm hn (Or.inl hid)
  simp [hr] at hfree

/-- A reservation moves value between the parts of a pool's balance and adds none. -/
theorem total_of_sameChain {d : Database H} (h : SameChain db d)
    (account confirmations pool : ℕ) :
    (d.calculateBalanceBreakdown account confirmations pool).total =
      (db.calculateBalanceBreakdown account confirmations pool).total := by
  have hspent : d.isSpent = db.isSpent := by
    funext n
    rw [isSpent, isSpent, h.spends]
  rw [total_eq_sum, total_eq_sum, ownedUnspentZecNotes, ownedUnspentZecNotes, h.notes, hspent]

end Accounts

/-! ### Histories -/

/-- What happens to reservations, to the notes they are about and to the heights they expire
    at. -/
inductive PayEvent (H : Type) where
  | reserve (account : ℕ) (raw : Bytes) (own : OwnInputs)
  | storeSyncedHeight (account pool height : ℕ)
  | trim (account height : ℕ)
  | rewind (account height : ℕ)
  | reset (account : ℕ)
  | scan (m : WarpSyncMessage H)

structure PayEnv (H : Type) where
  writer : WriterEnv
  parse : Bytes → Except String (ParsedTransaction H)

def attempt {ε : Type} (db : Database H) : Except ε (Database H) → Database H
  | .ok db' => db'
  | .error _ => db

section Histories
variable (env : PayEnv H)

def payStep (db : Database H) (e : PayEvent H) : Option (Database H) :=
  match e with
  | .reserve account raw own => some (attempt db (reserveTransaction env.parse db account raw own))
  | .storeSyncedHeight account pool height =>
    some { db with syncHeights := db.syncHeights.insertOrReplace ⟨account, pool, height⟩ }
  | .trim account height => some (db.trimSyncData account height)
  | .rewind account height => some (attempt db (db.rewindSync env.writer.network account height))
  | .reset account => some (attempt db (db.resetSync env.writer.network account))
  | .scan m => if isScan m then some (attempt db (handleMessage env.writer db m)) else none

def Owned (db : Database H) (account : ℕ) (input : NullifierKey H) (txid : Bytes) : Prop :=
  ∃ p ∈ db.pendingInputs.rows, p.account = account ∧ p.nullifier = input ∧ p.ownerTxid = txid

def ActiveFor (db : Database H) (account : ℕ) (input : NullifierKey H) : Prop :=
  ∃ p ∈ db.pendingInputs.rows, db.isActive p = true ∧ p.account = account ∧ p.nullifier = input

variable {env} {db d : Database H} {account : ℕ} {input : NullifierKey H} {txid : Bytes}

theorem Owned.of_rows (h : Owned db account input txid)
    (hd : d.pendingInputs = db.pendingInputs) : Owned d account input txid := by
  unfold Owned
  rw [hd]
  exact h

theorem reserveTransaction_ok {raw : Bytes} {own : OwnInputs} :
    reserveTransaction env.parse db account raw own = .ok d ↔
      ∃ parsed, env.parse raw = .ok parsed ∧ reserveParsedTransaction db account parsed own = .ok d :=
  bind_eq_ok

theorem goBack_pendingInputs {network : Network} {account height : ℕ}
    (h : db.goBack network account height = .ok d) : d.pendingInputs = db.pendingInputs := by
  unfold goBack resetSync at h
  split at h
  · cases h
    rfl
  · split at h
    · cases h
    · cases h
      rfl

theorem payStep_owned {e : PayEvent H} (hown : Owned db account input txid)
    (hact : ActiveFor db account input) (h : payStep env db e = some d) :
    Owned d account input txid := by
  cases e with
  | reserve a raw own =>
    cases h
    cases hres : reserveTransaction env.parse db a raw own with
    | error m => exact hown
    | ok d =>
      obtain ⟨parsed, -, hres⟩ := reserveTransaction_ok.1 hres
      obtain ⟨p, hp, hact, hpa, hpn⟩ := hact
      obtain ⟨q, hq, hqa, hqn, hqo⟩ := hown
      obtain rfl := db.pendingInputs.eq_of_clash hp hq ⟨hpa.trans hqa.symm, hpn.trans hqn.symm⟩
      obtain ⟨r, hr, hra, hrn, hro, -⟩ := (reserve_holds hres).2 p hp hact
      exact ⟨r, hr, hra.trans hpa, hrn.trans hpn, hro.trans hqo⟩
  | storeSyncedHeight a pool height =>
    cases h
    exact hown
  | trim a height =>
    cases h
    exact hown
  | rewind a height =>
    cases h
    unfold rewindSync
    cases hback : db.goBack env.writer.network a height with
    | error f => exact hown
    | ok back =>
      have hrows := goBack_pendingInputs hback
      exact hown.of_rows hrows
  | reset a =>
    cases h
    cases hreset : db.resetSync env.writer.network a with
    | error f => exact hown
    | ok back =>
      unfold resetSync at hreset
      split at hreset
      · cases hreset
      · cases hreset
        exact hown
  | scan m =>
    simp only [payStep] at h
    split_ifs at h with hscan
    cases h
    cases hm : handleMessage env.writer db m with
    | error f => exact hown
    | ok db' => exact hown.of_rows (effect_of_ok hm hscan).pendingInputs

theorem run_owned {es : List (PayEvent H)} (hown : Owned db account input txid)
    (hact : AllSteps (payStep env) (fun s _ => ActiveFor s account input) db es)
    (hrun : run (payStep env) db es = some d) : Owned d account input txid :=
  run_inv_of_allSteps (payStep env) (fun _ _ _ h ha hs => payStep_owned h ha hs) hown hact hrun

/-- What reservations do in a state: a call that fails leaves the database; one that is made
    again changes nothing, or the record of the transaction only when it is made later; a
    reserved note is not offered, and counted as locked or as still to come; no pool's total
    changes. -/
structure Lawful (env : PayEnv H) (db : Database H) : Prop where
  failed : ∀ account raw own m, reserveTransaction env.parse db account raw own = .error m →
    payStep env db (.reserve account raw own) = some db
  again : ∀ account raw own d, reserveTransaction env.parse db account raw own = .ok d →
    reserveTransaction env.parse d account raw own = .ok d
  reserved : ∀ account raw own parsed d, env.parse raw = .ok parsed →
    reserveTransaction env.parse db account raw own = .ok d → Reserved db d account parsed
  later : ∀ account raw own parsed d, env.parse raw = .ok parsed → HoldsInputs db account parsed →
    reserveTransaction env.parse db account raw own = .ok d →
      d = { db with pendingTxs := d.pendingTxs } ∧ Recorded db d account parsed
  notOffered : ∀ n ∈ db.notes.rows, db.isReserved n = true → ∀ account,
    ∀ x ∈ db.fetchUnspentNotes account, x.id ≠ n.idNote
  counted : ∀ n ∈ db.notes.rows, db.isReserved n = true → n.idAsset = none →
    db.isSpent n.idNote = false → ∀ confirmations,
      db.calculateBalanceBreakdown n.account confirmations n.pool =
        countReserved (db.confirmedHeight n.account confirmations) n
          ((withoutNote db n).calculateBalanceBreakdown n.account confirmations n.pool)
  total : ∀ account raw own d, reserveTransaction env.parse db account raw own = .ok d →
    ∀ a confirmations pool, (d.calculateBalanceBreakdown a confirmations pool).total =
      (db.calculateBalanceBreakdown a confirmations pool).total

theorem lawful (env : PayEnv H) (db : Database H) : Lawful env db where
  failed account raw own m h := by rw [payStep, h, attempt]
  again account raw own d h := by
    obtain ⟨parsed, hparse, hres⟩ := reserveTransaction_ok.1 h
    exact reserveTransaction_ok.2 ⟨parsed, hparse, reserve_again hres⟩
  reserved account raw own parsed d hparse h := by
    obtain ⟨parsed', hparse', hres⟩ := reserveTransaction_ok.1 h
    rw [hparse, Except.ok.injEq] at hparse'
    subst hparse'
    exact reserve_reserved hres
  later account raw own parsed d hparse hheld h := by
    obtain ⟨parsed', hparse', hres⟩ := reserveTransaction_ok.1 h
    rw [hparse, Except.ok.injEq] at hparse'
    subst hparse'
    exact reserve_held hheld hres
  notOffered n hn hr account := fetchUnspentNotes_unreserved hn hr
  counted n hn hr hz hu confirmations := breakdown_reserved hn hr hz hu confirmations
  total account raw own d h a confirmations pool := by
    obtain ⟨parsed, -, hres⟩ := reserveTransaction_ok.1 h
    exact total_of_sameChain (reserve_holds hres).1 a confirmations pool

/-- Over every history, an input that one transaction holds is not taken over while the
    reservation is active, and every state that is reached is lawful. -/
theorem reservations_exclusive (env : PayEnv H) (db : Database H) (es : List (PayEvent H))
    {s : Database H} (hrun : run (payStep env) db es = some s) :
    Lawful env s ∧ ∀ account input txid, Owned db account input txid →
      AllSteps (payStep env) (fun t _ => ActiveFor t account input) db es →
        Owned s account input txid :=
  ⟨lawful env s, fun _ _ _ hown hact => run_owned hown hact hrun⟩

end Histories

/-! ### A payment on its way -/

def sampleEnv : PayEnv ℕ where
  writer := ⟨⟨1, 1, none⟩, fun _ _ _ _ => none, fun _ => ""⟩
  parse raw := if raw = [1] then .ok ⟨[7], 140, [.shielded 5]⟩ else .error "unexpected end of file"

/-- An account scanned to height 100 with a note found at height 90. -/
def sampleAccount : Database ℕ :=
  { (Database.empty : Database ℕ) with
    notes := ⟨[⟨1, 90, 1, 2, some 0, .shielded 5, 1, 1000, none, none, none, none, none, none, none,
      none, false⟩], List.pairwise_singleton _ _⟩
    syncHeights := ⟨[⟨1, 2, 100⟩], List.pairwise_singleton _ _⟩ }

/-- The same account when the payment holds the note, and another is on its way. -/
def sampleReserved : Database ℕ :=
  { sampleAccount with
    pendingInputs := ⟨[⟨1, .shielded 5, [7], 140⟩], List.pairwise_singleton _ _⟩
    pendingTxs := ⟨[⟨1, [9], 80, none⟩], List.pairwise_singleton _ _⟩ }

/-- The payment takes the note. While it reserves it again and the scan moves on it keeps it, and
    a later call writes its record next to the other. -/
theorem sampleReserved_exclusive :
    (∃ d, reserveTransaction sampleEnv.parse sampleAccount 1 [1] .required = .ok d ∧
      ⟨1, .shielded 5, [7], 140⟩ ∈ d.pendingInputs.rows) ∧
    ∃ s, run (payStep sampleEnv) sampleReserved
        [.reserve 1 [1] .required, .storeSyncedHeight 1 2 101] = some s ∧
      Lawful sampleEnv s ∧ Owned s 1 (.shielded 5) [7] ∧
      ∃ d, reserveTransaction sampleEnv.parse s 1 [1] .required = .ok d ∧
      d = { s with pendingTxs := d.pendingTxs } ∧ ⟨1, [9], 80, none⟩ ∈ d.pendingTxs.rows ∧
      ⟨1, [7], 101, some 140⟩ ∈ d.pendingTxs.rows := by
  have hown : IsOwn sampleAccount ⟨[7], 140, [.shielded 5]⟩ (.shielded 5) :=
    ⟨_, List.mem_singleton_self _, List.mem_singleton_self _, rfl⟩
  have hfirst := (reservations_exclusive sampleEnv sampleAccount [] rfl).1.reserved 1 [1] .required
    _ _ rfl rfl
  refine ⟨⟨_, rfl, (hfirst.inputs _).2 (.inl ⟨hown, rfl⟩)⟩, _, rfl, ?_⟩
  have h := reservations_exclusive sampleEnv sampleReserved
    [.reserve 1 [1] .required, .storeSyncedHeight 1 2 101] rfl
  refine ⟨h.1, h.2 1 (.shielded 5) [7] ⟨_, List.mem_singleton_self _, rfl, rfl, rfl⟩ ?_, _, rfl, ?_⟩
  · refine ⟨⟨_, List.mem_singleton_self _, by decide, rfl, rfl⟩, fun t ht => ?_⟩
    cases ht
    exact ⟨⟨_, List.mem_singleton_self _, by decide, rfl, rfl⟩, fun _ _ => trivial⟩
  · obtain ⟨hrest, hrecords⟩ := h.1.later 1 [1] .required _ _ rfl (by
      rintro i ⟨n, hn, hin, rfl⟩
      obtain rfl := List.mem_singleton.1 hn
      exact List.mem_singleton_self _) rfl
    exact ⟨hrest, (hrecords _).2 (.inr ⟨by decide, fun h => absurd h.2.2 (by decide)⟩),
      (hrecords _).2 (.inl ⟨⟨_, hown⟩, rfl⟩)⟩

/-- Asked for more confirmations than the note has, its value is pending and not locked; and
    reserving again after the scan moved renews the height in the record. -/
theorem reserved_is_pending_and_renewed :
    (∃ s, run (payStep sampleEnv) sampleAccount [.reserve 1 [1] .required] = some s ∧
      (∃ n ∈ s.notes.rows, n.account = 1 ∧ n.pool = 2 ∧ s.isReserved n = true) ∧
        s.calculateBalanceBreakdown 1 20 2 = ⟨0, 0, 0, 1000⟩) ∧
    ∃ s t, run (payStep sampleEnv) sampleAccount
        [.reserve 1 [1] .required, .storeSyncedHeight 1 2 101] = some s ∧
      payStep sampleEnv s (.reserve 1 [1] .required) = some t ∧
        s.pendingTxs.rows = [⟨1, [7], 100, some 140⟩] ∧
          t.pendingTxs.rows = [⟨1, [7], 101, some 140⟩] :=
  ⟨⟨_, rfl, by decide, by decide⟩, _, _, rfl, rfl, by decide, by decide⟩

end ZcashSdk.Pay
