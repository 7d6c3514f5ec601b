import ZcashSdk.Pay.Reservations

set_option autoImplicit false

/-!
# Which transactions can be reserved

The checks are spread over several queries, and notes of all accounts are joined. Together
they accept one set of transactions, which this file names.
-/
namespace ZcashSdk.Pay
open Tables Shielded Db Database Loops

variable {H : Type} [DecidableEq H]

/-! ### The condition -/

section Condition
variable (db : Database H) (account : ℕ) (parsed : ParsedTransaction H)

/-- Known to be scanned below the height at which the transaction expires. -/
def NotExpired : Prop :=
  ∀ h, db.accountSeam account = some h → parsed.expiryHeight = 0 ∨ h < parsed.expiryHeight

def ReservedByAnother (input : NullifierKey H) : Prop :=
  ∃ p ∈ db.pendingInputs.rows, db.isActive p = true ∧ p.account = account ∧ p.nullifier = input ∧
    p.ownerTxid ≠ parsed.txid

structure Claimable (n : NoteRow H) : Prop where
  unlocked : n.locked = false
  unspent : ¬ SpentByAnother db parsed n
  unreserved : ¬ ReservedByAnother db account parsed n.nullifier

/-- What is reserved: the inputs are notes of no other account, those of this one can be had,
    and when there are none the caller does not ask for one and nobody holds an input. -/
structure Reservable (own : OwnInputs) : Prop where
  live : NotExpired db account parsed
  owned : ∀ n ∈ db.notes.rows, n.nullifier ∈ parsed.inputs → n.account = account
  claimable : ∀ n ∈ db.notes.rows, n.nullifier ∈ parsed.inputs → Claimable db account parsed n
  foreign : (∀ n ∈ db.notes.rows, n.nullifier ∉ parsed.inputs) →
    own = .optional ∧ ∀ input ∈ parsed.inputs, ¬ ReservedByAnother db account parsed input

/-- The same for an account that looks at its own notes alone, and at others only where it has
    none. -/
structure ReservableAlone : Prop where
  live : NotExpired db account parsed
  claimable : ∀ n ∈ db.notes.rows, n.account = account → n.nullifier ∈ parsed.inputs →
    Claimable db account parsed n
  shared : ∀ n ∈ db.notes.rows, n.nullifier ∈ parsed.inputs →
    ∃ m ∈ db.notes.rows, m.account = account ∧ m.nullifier = n.nullifier

end Condition

/-! ### The claims -/

section Claims
variable {db d : Database H} {account : ℕ} {parsed : ParsedTransaction H}

theorem claimInput_ok_iff {input : NullifierKey H} :
    (∃ d, claimInput db account parsed input = .ok d) ↔
      ¬ ReservedByAnother db account parsed input := by
  constructor
  · rintro ⟨d, h⟩ ⟨p, hp, hact, hacc, hnf, hother⟩
    rcases (claimInput_ok h).2.2 p hp hacc hnf with hsame | hidle
    · exact hother hsame
    · rw [hact] at hidle
      cases hidle
  · intro hfree
    unfold claimInput
    split
    · rename_i p hfind
      have hkey : p.account = account ∧ p.nullifier = input := by simpa using List.find?_some hfind
      rw [if_pos]
      · exact ⟨_, rfl⟩
      · by_contra hnot
        rw [not_or, Bool.not_eq_false] at hnot
        exact hfree ⟨p, List.mem_of_find?_eq_some hfind, hnot.2, hkey.1, hkey.2, hnot.1⟩
    · exact ⟨_, rfl⟩

/-- A claim frees or takes nothing but its own input. -/
theorem reservedByAnother_claimed {input i : NullifierKey H}
    (h : claimInput db account parsed input = .ok d) :
    ReservedByAnother d account parsed i ↔ ReservedByAnother db account parsed i := by
  obtain ⟨hrest, hrows, hfree⟩ := claimInput_ok h
  have hsame := SameChain.of_claims hrest
  unfold ReservedByAnother
  constructor
  · rintro ⟨p, hp, hact, hacc, hnf, hother⟩
    rcases (hrows p).1 hp with rfl | ⟨hp, -⟩
    · exact absurd rfl hother
    · exact ⟨p, hp, hsame.isActive p ▸ hact, hacc, hnf, hother⟩
  · rintro ⟨p, hp, hact, hacc, hnf, hother⟩
    refine ⟨p, (hrows p).2 (Or.inr ⟨hp, fun hkey => ?_⟩), (hsame.isActive p).symm ▸ hact, hacc, hnf,
      hother⟩
    rcases hfree p hp hkey.1 hkey.2 with hsame | hidle
    · exact hother hsame
    · rw [hact] at hidle
      cases hidle

theorem claimInputs_ok_iff {owned : List (NullifierKey H)} :
    (∃ d, claimInputs db account parsed owned = .ok d) ↔
      ∀ i ∈ owned, ¬ ReservedByAnother db account parsed i := by
  induction owned generalizing db with
  | nil => exact iff_of_true ⟨db, rfl⟩ fun i hi => absurd hi List.not_mem_nil
  | cons input owned ih =>
    rw [List.forall_mem_cons, ← claimInput_ok_iff]
    constructor
    · rintro ⟨d, h⟩
      obtain ⟨d', h1, h2⟩ := claimInputs_cons_ok.1 h
      refine ⟨⟨d', h1⟩, fun i hi => ?_⟩
      rw [← reservedByAnother_claimed h1]
      exact ih.1 ⟨d, h2⟩ i hi
    · rintro ⟨⟨d', h1⟩, hfree⟩
      obtain ⟨d, h2⟩ := (@ih d').2 fun i hi => by
        rw [reservedByAnother_claimed h1]
        exact hfree i hi
      exact ⟨d, claimInputs_cons_ok.2 ⟨d', h1, h2⟩⟩

theorem reservedByAnotherTransaction_iff :
    reservedByAnotherTransaction db account parsed = true ↔
      ∃ input ∈ parsed.inputs, ReservedByAnother db account parsed input := by
  simp only [reservedByAnotherTransaction, activePendingSpendInputs, ReservedByAnother,
    List.any_eq_true, List.mem_filter, decide_eq_true_eq, and_assoc]

end Claims

/-! ### The call -/

section Call
variable {db : Database H} {account : ℕ} {parsed : ParsedTransaction H} {own : OwnInputs}

theorem notExpired_iff : (db.accountSeam account).all (fun h =>
    decide (parsed.expiryHeight = 0 ∨ h < parsed.expiryHeight)) = true ↔
      NotExpired db account parsed := by
  unfold NotExpired
  cases db.accountSeam account <;> simp

/-- What the stages of the call ask, one after the other. -/
theorem reserveParsedTransaction_ok_iff :
    (∃ d, reserveParsedTransaction db account parsed own = .ok d) ↔ NotExpired db account parsed ∧
      ∃ owned, validateOwnedInputs db account parsed = .ok owned ∧
        (owned = [] → own = .optional ∧ reservedByAnotherTransaction db account parsed = false) ∧
        ∀ i ∈ owned, ¬ ReservedByAnother db account parsed i := by
  unfold reserveParsedTransaction
  simp only [ensure_bind_ok, notExpired_iff, exists_and_left]
  refine and_congr_right fun _ => ?_
  simp only [bind_eq_ok]
  constructor
  · rintro ⟨d, owned, howned, hrest⟩
    refine ⟨owned, howned, ?_⟩
    split_ifs at hrest with hempty
    · rw [ensure_bind_ok, ensure_bind_ok, decide_eq_true_eq, Bool.not_eq_true'] at hrest
      refine ⟨fun _ => ⟨hrest.1, hrest.2.1⟩, fun i hi => ?_⟩
      rw [hempty] at hi
      exact absurd hi List.not_mem_nil
    · obtain ⟨c, hc, -⟩ := bind_eq_ok.1 hrest
      exact ⟨fun h => absurd h hempty, claimInputs_ok_iff.1 ⟨c, hc⟩⟩
  · rintro ⟨owned, howned, hforeign, hfree⟩
    by_cases hempty : owned = []
    · refine ⟨db, owned, howned, ?_⟩
      rw [if_pos hempty, ensure_bind_ok, ensure_bind_ok, decide_eq_true_eq, Bool.not_eq_true']
      exact ⟨(hforeign hempty).1, (hforeign hempty).2, rfl⟩
    · obtain ⟨c, hc⟩ := claimInputs_ok_iff.2 hfree
      refine ⟨recordPendingTx c account parsed (db.accountSeam account), owned, howned, ?_⟩
      rw [if_neg hempty, hc]
      rfl

theorem reservable_iff : (∃ d, reserveParsedTransaction db account parsed own = .ok d) ↔
    Reservable db account parsed own := by
  rw [reserveParsedTransaction_ok_iff]
  constructor
  · rintro ⟨hlive, owned, howned, hforeign, hfree⟩
    have hpass := validateOwnedInputs_ok_iff.1 ⟨owned, howned⟩
    refine ⟨hlive, fun n hn hin => (hpass n hn hin).1, fun n hn hin => ?_, fun hnone => ?_⟩
    · obtain ⟨-, hunlocked, hunspent⟩ := hpass n hn hin
      exact ⟨hunlocked, hunspent, hfree _ ((mem_validateOwnedInputs howned).2 ⟨n, hn, hin, rfl⟩)⟩
    · have hempty : owned = [] := List.eq_nil_iff_forall_not_mem.2 fun i hi => by
        obtain ⟨n, hn, hin, -⟩ := (mem_validateOwnedInputs howned).1 hi
        exact hnone n hn hin
      obtain ⟨hoptional, hreserved⟩ := hforeign hempty
      refine ⟨hoptional, fun input hin hother => ?_⟩
      rw [reservedByAnotherTransaction_iff.2 ⟨input, hin, hother⟩] at hreserved
      cases hreserved
  · intro h
    obtain ⟨owned, howned⟩ := (@validateOwnedInputs_ok_iff H _ db account
      parsed).2 fun n hn hin =>
        ⟨h.owned n hn hin, (h.claimable n hn hin).unlocked, (h.claimable n hn hin).unspent⟩
    refine ⟨h.live, owned, howned, fun hempty => ?_, fun i hi => ?_⟩
    · obtain ⟨hoptional, hnone⟩ := h.foreign fun n hn hin => by
        have hmem := (mem_validateOwnedInputs howned).2 ⟨n, hn, hin, rfl⟩
        rw [hempty] at hmem
        exact absurd hmem List.not_mem_nil
      refine ⟨hoptional, Bool.eq_false_iff.2 fun hreserved => ?_⟩
      obtain ⟨input, hin, hother⟩ := reservedByAnotherTransaction_iff.1 hreserved
      exact hnone input hin hother
    · obtain ⟨n, hn, hin, rfl⟩ := (mem_validateOwnedInputs howned).1 hi
      exact (h.claimable n hn hin).unreserved

end Call

/-- The bytes are a transaction, and it can be reserved. -/
theorem reserveTransaction_accepts (parse : Bytes → Except String (ParsedTransaction H))
    (db : Database H) (account : ℕ) (raw : Bytes) (own : OwnInputs) :
    (∃ d, reserveTransaction parse db account raw own = .ok d) ↔
      ∃ parsed, parse raw = .ok parsed ∧ Reservable db account parsed own := by
  simp only [reserveTransaction, bind_eq_ok, ← reservable_iff]
  constructor
  · rintro ⟨d, parsed, hparse, hreserve⟩
    exact ⟨parsed, hparse, d, hreserve⟩
  · rintro ⟨parsed, hparse, d, hreserve⟩
    exact ⟨d, parsed, hparse, hreserve⟩

def sharedNote : Database ℕ :=
  { Database.empty with
    notes := ⟨[
      { idNote := 1, height := 80, account := 1, pool := 1, scope := some 0,
        nullifier := .shielded 7, tx := 1, value := 50, cmx := none, taddress := none,
        position := none, diversifier := none, rcm := none, rho := none, idAsset := none,
        diversifierIndex := none },
      { idNote := 2, height := 80, account := 2, pool := 1, scope := some 0,
        nullifier := .shielded 7, tx := 2, value := 50, cmx := none, taddress := none,
        position := none, diversifier := none, rcm := none, rho := none, idAsset := none,
        diversifierIndex := none }], by decide⟩
    syncHeights := ⟨[⟨1, 1, 100⟩, ⟨2, 1, 100⟩], by decide⟩ }

def spendsNote (nf : ℕ) : ParsedTransaction ℕ := ⟨[1], 120, [.shielded nf]⟩

theorem sharedNote_claimable {n : NoteRow ℕ} (hn : n ∈ sharedNote.notes.rows) (nf : ℕ) :
    Claimable sharedNote 1 (spendsNote nf) n := by
  refine ⟨?_, ?_, ?_⟩
  · have hall : ∀ m ∈ sharedNote.notes.rows, m.locked = false := by decide
    exact hall n hn
  · rintro ⟨s, hs, -⟩
    exact absurd hs List.not_mem_nil
  · rintro ⟨p, hp, -⟩
    exact absurd hp List.not_mem_nil

theorem sharedNote_reservableAlone (nf : ℕ) :
    ReservableAlone sharedNote 1 (spendsNote nf) := by
  refine ⟨fun h hseam => ?_, fun n hn _ _ => sharedNote_claimable hn nf, fun n hn _ => ?_⟩
  · obtain rfl : 100 = h := Option.some.inj ((by decide : some 100 = _).trans hseam)
    exact Or.inr (by decide : 100 < 120)
  · have hall : ∀ m ∈ sharedNote.notes.rows, ∃ m' ∈ sharedNote.notes.rows,
        m'.account = 1 ∧ m'.nullifier = m.nullifier := by decide
    exact hall n hn

/-- A note of the account is refused when another tracks it too, and a transaction that spends
    none of the account's where one is asked for. -/
theorem sharedNote_refused :
    (ReservableAlone sharedNote 1 (spendsNote 7) ∧
      reserveTransaction (fun _ => .ok (spendsNote 7)) sharedNote 1 [] .required =
        .error "Transaction spends an input from another account") ∧
    ReservableAlone sharedNote 1 (spendsNote 9) ∧
      reserveTransaction (fun _ => .ok (spendsNote 9)) sharedNote 1 [] .required =
        .error "Transaction does not spend an input owned by account 1" :=
  ⟨⟨sharedNote_reservableAlone 7, rfl⟩, sharedNote_reservableAlone 9, rfl⟩

end ZcashSdk.Pay
