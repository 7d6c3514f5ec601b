import ZcashSdk.Pay.Reserve

set_option autoImplicit false

/-!
# The inputs that are the account's

A transaction names its inputs by their nullifiers. Every stored note that one of them names
is checked, and the inputs that name one are the transaction's own.
-/
namespace ZcashSdk.Pay
open Tables Shielded Db Database Loops

variable {H : Type} [DecidableEq H]

theorem ensure_eq_ok {cond : Bool} {message : String} :
    ensure cond message = .ok () ↔ cond = true := by
  unfold ensure
  split <;> simp_all

/-- A spend of the note is stored, and not as one of this transaction. -/
def SpentByAnother (db : Database H) (parsed : ParsedTransaction H) (n : NoteRow H) : Prop :=
  ∃ s ∈ db.spends.rows, s.idNote = n.idNote ∧
    ∀ t ∈ db.transactions.rows, t.idTx = s.tx → t.account = s.account → t.txid ≠ parsed.txid

section Validate
variable {db : Database H} {account : ℕ} {parsed : ParsedTransaction H}

def Passes (db : Database H) (account : ℕ) (parsed : ParsedTransaction H) (n : NoteRow H) : Prop :=
  n.account = account ∧ n.locked = false ∧ ¬ SpentByAnother db parsed n

theorem spentBy_iff {n : NoteRow H} :
    (!db.isSpent n.idNote || decide (spendTxid db n = some parsed.txid)) = true ↔
      ¬ SpentByAnother db parsed n := by
  unfold spendTxid
  cases hfind : db.spends.rows.find? fun s => s.idNote = n.idNote with
  | none =>
    have hno := List.find?_eq_none.1 hfind
    have hunspent : db.isSpent n.idNote = false := List.any_eq_false.2 hno
    rw [hunspent]
    refine iff_of_true rfl ?_
    rintro ⟨s, hs, hid, -⟩
    exact hno s hs (decide_eq_true hid)
  | some s =>
    have hs := List.mem_of_find?_eq_some hfind
    have hid : s.idNote = n.idNote := by simpa using List.find?_some hfind
    have hspent : db.isSpent n.idNote = true := List.any_eq_true.2 ⟨s, hs, decide_eq_true hid⟩
    rw [hspent, Bool.not_true, Bool.false_or, decide_eq_true_eq, Option.bind_some,
      Option.map_eq_some_iff]
    constructor
    · rintro ⟨t, ht, htxid⟩ ⟨s', hs', hid', hother⟩
      obtain rfl := db.spends.eq_of_clash hs' hs (hid'.trans hid.symm)
      have hkey : t.idTx = s'.tx ∧ t.account = s'.account := by simpa using List.find?_some ht
      exact hother t (List.mem_of_find?_eq_some ht) hkey.1 hkey.2 htxid
    · intro hnot
      by_contra hnone
      refine hnot ⟨s, hs, hid, fun t ht htx hacc htxid => hnone ⟨t, ?_, htxid⟩⟩
      refine (db.transactions.find?_eq_some fun x hx y hy hpx hpy => ?_).2
        ⟨ht, decide_eq_true ⟨htx, hacc⟩⟩
      have hx' := of_decide_eq_true hpx
      have hy' := of_decide_eq_true hpy
      exact db.transactions.eq_of_clash hx hy (Or.inl (hx'.1.trans hy'.1.symm))

theorem ensure_bind_ok {α : Type} {cond : Bool} {message : String} {f : Unit → Except String α}
    {b : α} : (ensure cond message >>= f) = .ok b ↔ cond = true ∧ f () = .ok b := by
  rw [bind_eq_ok]
  constructor
  · rintro ⟨u, hu, hf⟩
    exact ⟨ensure_eq_ok.1 hu, hf⟩
  · rintro ⟨hcond, hf⟩
    exact ⟨(), ensure_eq_ok.2 hcond, hf⟩

theorem checkOwned_ok_iff {owned after : List (NullifierKey H)} {n : NoteRow H} :
    checkOwned db account parsed owned n = .ok after ↔ Passes db account parsed n ∧
      (if n.nullifier ∈ owned then owned else owned ++ [n.nullifier]) = after := by
  unfold checkOwned Passes
  rw [ensure_bind_ok, ensure_bind_ok, ensure_bind_ok, spentBy_iff, decide_eq_true_eq,
    Bool.not_eq_true', Except.ok.injEq, and_assoc, and_assoc]

/-- Rows are taken as long as each one passes, and their nullifiers are collected. -/
theorem foldlM_checkOwned {ns : List (NoteRow H)} {owned : List (NullifierKey H)} :
    (∀ after, ns.foldlM (checkOwned db account parsed) owned = .ok after →
      ∀ i, i ∈ after ↔ i ∈ owned ∨ ∃ n ∈ ns, n.nullifier = i) ∧
    ((∃ after, ns.foldlM (checkOwned db account parsed) owned = .ok after) ↔
      ∀ n ∈ ns, Passes db account parsed n) := by
  induction ns generalizing owned with
  | nil =>
    refine ⟨fun after h i => ?_, iff_of_true ⟨owned, rfl⟩ fun n hn => absurd hn List.not_mem_nil⟩
    cases h
    simp
  | cons n ns ih =>
    simp only [List.foldlM_cons, bind_eq_ok, checkOwned_ok_iff]
    have hpush (i : NullifierKey H) : i ∈ (if n.nullifier ∈ owned then owned else
        owned ++ [n.nullifier]) ↔ i ∈ owned ∨ n.nullifier = i := by
      split
      · rename_i hmem
        exact ⟨Or.inl, fun h => h.elim id fun h => h ▸ hmem⟩
      · rw [List.mem_append, List.mem_singleton, eq_comm (a := i)]
    constructor
    · rintro after ⟨mid, ⟨-, rfl⟩, hrest⟩ i
      rw [(ih.1 after hrest i), hpush, or_assoc, List.exists_mem_cons_iff]
    · rw [List.forall_mem_cons, ← (@ih (if n.nullifier ∈ owned then owned else
        owned ++ [n.nullifier])).2]
      constructor
      · rintro ⟨after, mid, ⟨hpass, rfl⟩, hrest⟩
        exact ⟨hpass, after, hrest⟩
      · rintro ⟨hpass, after, hrest⟩
        exact ⟨after, _, ⟨hpass, rfl⟩, hrest⟩

def namedRows (db : Database H) (parsed : ParsedTransaction H) : List (NoteRow H) :=
  parsed.inputs.flatMap fun input => db.notes.rows.filter fun n => n.nullifier = input

theorem mem_namedRows {n : NoteRow H} :
    n ∈ namedRows db parsed ↔ n ∈ db.notes.rows ∧ n.nullifier ∈ parsed.inputs := by
  simp only [namedRows, List.mem_flatMap, List.mem_filter, decide_eq_true_eq]
  constructor
  · rintro ⟨input, hinput, hn, rfl⟩
    exact ⟨hn, hinput⟩
  · rintro ⟨hn, hinput⟩
    exact ⟨_, hinput, hn, rfl⟩

theorem validateOwnedInputs_eq : validateOwnedInputs db account parsed =
    (namedRows db parsed).foldlM (checkOwned db account parsed) [] := by
  have hfold (inputs : List (NullifierKey H)) (owned : List (NullifierKey H)) :
      inputs.foldlM (fun owned input => (db.notes.rows.filter fun n => n.nullifier = input).foldlM
        (checkOwned db account parsed) owned) owned =
      (inputs.flatMap fun input => db.notes.rows.filter fun n => n.nullifier = input).foldlM
        (checkOwned db account parsed) owned := by
    induction inputs generalizing owned with
    | nil => rfl
    | cons input inputs ih => simp only [List.foldlM_cons, List.flatMap_cons, List.foldlM_append, ih]
  exact hfold parsed.inputs []

theorem validateOwnedInputs_ok_iff :
    (∃ owned, validateOwnedInputs db account parsed = .ok owned) ↔
      ∀ n ∈ db.notes.rows, n.nullifier ∈ parsed.inputs → Passes db account parsed n := by
  rw [validateOwnedInputs_eq, foldlM_checkOwned.2]
  simp only [mem_namedRows, and_imp]

def IsOwn (db : Database H) (parsed : ParsedTransaction H) (input : NullifierKey H) : Prop :=
  ∃ n ∈ db.notes.rows, n.nullifier ∈ parsed.inputs ∧ n.nullifier = input

theorem mem_validateOwnedInputs {owned : List (NullifierKey H)}
    (h : validateOwnedInputs db account parsed = .ok owned) {input : NullifierKey H} :
    input ∈ owned ↔ IsOwn db parsed input := by
  rw [validateOwnedInputs_eq] at h
  rw [foldlM_checkOwned.1 owned h input, IsOwn]
  simp only [List.not_mem_nil, false_or, mem_namedRows, and_assoc]

end Validate

end ZcashSdk.Pay
