import ZcashSdk.Pay.Plan
import ZcashSdk.Pay.Reservations

set_option autoImplicit false

/-!
# The views of a balance

The total subtracts spends from notes, the breakdown sorts unspent notes, and the planner
collects what it may spend. On a database whose spends belong to their notes the three
agree.
-/
namespace ZcashSdk.Pay
open Tables Shielded Db Database

variable {H : Type} [DecidableEq H]

/-! ### Spends and their notes -/

/-- A spend has the account and the pool of its note, and takes away what the note is worth. -/
def SpendsMatch (db : Database H) : Prop :=
  ∀ s ∈ db.spends.rows, ∀ n ∈ db.notes.rows, n.idNote = s.idNote →
    s.account = n.account ∧ s.pool = n.pool ∧ s.value = -n.value

/-- Heights are stored as `u32`. -/
structure HeightsFit (db : Database H) : Prop where
  notes : ∀ n ∈ db.notes.rows, n.height < 2 ^ 32
  spends : ∀ s ∈ db.spends.rows, s.height < 2 ^ 32

/-- `u32::MAX`, which stands for no height. -/
def anyHeight : ℕ := 2 ^ 32 - 1

def zecNotes (db : Database H) (account pool : ℕ) : List (NoteRow H) :=
  db.notes.rows.filter fun n => n.account = account ∧ n.idAsset = none ∧ n.pool = pool

def zecSpends (db : Database H) (account pool : ℕ) : List SpendRow :=
  db.spends.rows.filter fun s => s.account = account ∧ s.pool = pool ∧
    db.notes.rows.any fun n => n.idNote = s.idNote ∧ n.idAsset = none

section Totals
variable {db : Database H} {account pool : ℕ}

theorem calculateBalance_eq (hfit : HeightsFit db) :
    db.calculateBalance account anyHeight pool =
      ((zecNotes db account pool).map NoteRow.value).sum +
        ((zecSpends db account pool).map SpendRow.value).sum := by
  have hnotes : (db.notes.rows.filter fun n => n.account = account ∧ n.idAsset = none ∧
      n.height ≤ anyHeight ∧ n.pool = pool) = zecNotes db account pool := by
    refine List.filter_congr fun n hn => decide_eq_decide.2 ?_
    have hle : n.height ≤ anyHeight := Nat.le_sub_one_of_lt (hfit.notes n hn)
    simp only [hle, true_and]
  have hspends : (db.spends.rows.filter fun s => s.account = account ∧ s.height ≤ anyHeight ∧
      s.pool = pool ∧ db.notes.rows.any fun n => n.idNote = s.idNote ∧ n.idAsset = none) =
        zecSpends db account pool := by
    refine List.filter_congr fun s hs => decide_eq_decide.2 ?_
    have hle : s.height ≤ anyHeight := Nat.le_sub_one_of_lt (hfit.spends s hs)
    simp only [hle, true_and]
  unfold calculateBalance
  rw [hnotes, hspends]

theorem spent_ids_perm (hmatch : SpendsMatch db) :
    (((zecNotes db account pool).filter fun n => db.isSpent n.idNote).map NoteRow.idNote).Perm
      ((zecSpends db account pool).map SpendRow.idNote) := by
  refine (List.perm_ext_iff_of_nodup ?_ ?_).2 fun i => ?_
  · refine List.Nodup.map_on (fun n hn m hm h => ?_) ((db.notes.nodup.filter _).filter _)
    exact db.notes.eq_of_clash (List.mem_of_mem_filter (List.mem_of_mem_filter hn))
      (List.mem_of_mem_filter (List.mem_of_mem_filter hm)) (Or.inl h)
  · refine List.Nodup.map_on (fun s hs t ht h => ?_) (db.spends.nodup.filter _)
    exact db.spends.eq_of_clash (List.mem_of_mem_filter hs) (List.mem_of_mem_filter ht) h
  · rw [List.mem_map, List.mem_map]
    constructor
    · rintro ⟨n, hn, rfl⟩
      obtain ⟨hn, hspent⟩ := List.mem_filter.1 hn
      obtain ⟨hn, hzec⟩ := List.mem_filter.1 hn
      obtain ⟨hacc, hasset, hpool⟩ := of_decide_eq_true hzec
      obtain ⟨s, hs, hid⟩ := List.any_eq_true.1 hspent
      have hid' : s.idNote = n.idNote := of_decide_eq_true hid
      obtain ⟨hsacc, hspool, -⟩ := hmatch s hs n hn hid'.symm
      refine ⟨s, List.mem_filter.2 ⟨hs, decide_eq_true ⟨hsacc.trans hacc, hspool.trans hpool, ?_⟩⟩,
        hid'⟩
      exact List.any_eq_true.2 ⟨n, hn, decide_eq_true ⟨hid'.symm, hasset⟩⟩
    · rintro ⟨s, hs, rfl⟩
      obtain ⟨hs, hkey⟩ := List.mem_filter.1 hs
      obtain ⟨hacc, hpool, hnote⟩ := of_decide_eq_true hkey
      obtain ⟨n, hn, hzec⟩ := List.any_eq_true.1 hnote
      obtain ⟨hid, hasset⟩ := of_decide_eq_true hzec
      obtain ⟨hsacc, hspool, -⟩ := hmatch s hs n hn hid
      refine ⟨n, List.mem_filter.2 ⟨List.mem_filter.2 ⟨hn, decide_eq_true ?_⟩, ?_⟩, hid⟩
      · exact ⟨hsacc.symm.trans hacc, hasset, hspool.symm.trans hpool⟩
      · exact List.any_eq_true.2 ⟨s, hs, decide_eq_true hid.symm⟩

def valueOfNote (db : Database H) (i : ℕ) : ℤ :=
  ((db.notes.rows.find? fun n => n.idNote = i).map NoteRow.value).getD 0

theorem valueOfNote_eq {n : NoteRow H} (hn : n ∈ db.notes.rows) :
    valueOfNote db n.idNote = n.value := by
  have hfind : (db.notes.rows.find? fun m => m.idNote = n.idNote) = some n := by
    refine (db.notes.find?_eq_some fun x hx y hy hpx hpy => ?_).2 ⟨hn, decide_eq_true rfl⟩
    exact db.notes.eq_of_clash hx hy
      (Or.inl ((of_decide_eq_true hpx).trans (of_decide_eq_true hpy).symm))
  rw [valueOfNote, hfind]
  rfl

theorem spends_sum (hmatch : SpendsMatch db) :
    ((zecSpends db account pool).map SpendRow.value).sum =
      -(((zecNotes db account pool).filter fun n => db.isSpent n.idNote).map NoteRow.value).sum := by
  have hnotes : ((zecNotes db account pool).filter fun n => db.isSpent n.idNote).map NoteRow.value =
      (((zecNotes db account pool).filter fun n => db.isSpent n.idNote).map NoteRow.idNote).map
        (valueOfNote db) := by
    rw [List.map_map]
    refine List.map_congr_left fun n hn => ?_
    exact (valueOfNote_eq (List.mem_of_mem_filter (List.mem_of_mem_filter hn))).symm
  have hspends : (zecSpends db account pool).map SpendRow.value =
      ((zecSpends db account pool).map SpendRow.idNote).map fun i => -valueOfNote db i := by
    rw [List.map_map]
    refine List.map_congr_left fun s hs => ?_
    obtain ⟨hs, hkey⟩ := List.mem_filter.1 hs
    obtain ⟨n, hn, hzec⟩ := List.any_eq_true.1 (of_decide_eq_true hkey).2.2
    have hid := (of_decide_eq_true hzec).1
    rw [Function.comp_apply, ← hid, valueOfNote_eq hn]
    exact (hmatch s hs n hn hid).2.2
  rw [hnotes, hspends, ((spent_ids_perm hmatch).map _).sum_eq]
  rw [List.sum_neg, List.map_map, List.map_map, List.map_map]
  rfl

/-- Notes less spends are the unspent notes. -/
theorem calculateBalance_unspent (hmatch : SpendsMatch db) (hfit : HeightsFit db) :
    db.calculateBalance account anyHeight pool =
      (((db.ownedUnspentZecNotes account).filter fun n => n.pool = pool).map NoteRow.value).sum := by
  have hunspent : (db.ownedUnspentZecNotes account).filter (fun n => n.pool = pool) =
      (zecNotes db account pool).filter fun n => !db.isSpent n.idNote := by
    unfold ownedUnspentZecNotes zecNotes
    rw [List.filter_filter, List.filter_filter]
    refine List.filter_congr fun n _ => Bool.eq_iff_iff.2 ?_
    simp only [Bool.and_eq_true, decide_eq_true_eq, Bool.not_eq_true']
    tauto
  have hsplit := (List.filter_append_perm (fun n => db.isSpent n.idNote)
    (zecNotes db account pool)).map NoteRow.value |>.sum_eq
  rw [List.map_append, List.sum_append] at hsplit
  rw [calculateBalance_eq hfit, spends_sum hmatch, hunspent, ← hsplit]
  omega

end Totals

/-! ### What the planner accepts -/

section Planner
variable {db : Database H} {account confirmations pool srcPools : ℕ}
  {inputPools : List (List InputNote)}

def acceptedZec (inputPools : List (List InputNote)) (srcPools maxHeight pool : ℕ) :
    List InputNote :=
  (((restrictToSourcePools inputPools srcPools maxHeight)[pool]?).getD []).filter
    fun n => n.idAsset = none

/-- A sum of `i64` read as `u64` is the sum of the `u64`, which wraps. -/
theorem asU64_sum_mod (l : List ℤ) : asU64 l.sum = (l.map asU64).sum % 2 ^ 64 := by
  induction l with
  | nil => rfl
  | cons v l ih =>
    rw [List.sum_cons, List.map_cons, List.sum_cons]
    unfold asU64 at ih ⊢
    omega

theorem restricted_pool (hfetch : db.fetchUnspentNotesByPool account = .ok inputPools)
    (hmask : hasPool srcPools pool = true) (maxHeight : ℕ) :
    ((restrictToSourcePools inputPools srcPools maxHeight)[pool]?).getD [] =
      ((db.fetchUnspentNotes account).filter fun n => n.pool = pool).filter
        fun n => n.height ≤ maxHeight := by
  unfold fetchUnspentNotesByPool at hfetch
  split at hfetch
  · cases hfetch
  · rename_i hknown
    cases hfetch
    by_cases hpool : pool < numPools
    · simp [restrictToSourcePools, List.getElem?_zipIdx, List.getElem?_range hpool, hmask]
    · have hnone : (db.fetchUnspentNotes account).filter (fun n => n.pool = pool) = [] := by
        refine List.filter_eq_nil_iff.2 fun n hn heq => List.find?_eq_none.1 hknown n hn ?_
        rw [of_decide_eq_true heq, decide_eq_true_eq]
        omega
      have hlength : (List.range numPools)[pool]? = none :=
        List.getElem?_eq_none (by rw [List.length_range]; omega)
      simp [restrictToSourcePools, List.getElem?_zipIdx, hlength, hnone]

theorem acceptedZec_amounts (hfetch : db.fetchUnspentNotesByPool account = .ok inputPools)
    (hmask : hasPool srcPools pool = true) (cutoff : ℕ) :
    (acceptedZec inputPools srcPools cutoff pool).map InputNote.amount =
      ((((db.ownedUnspentZecNotes account).filter fun n => n.pool = pool).filter
        (db.availableNote cutoff)).map NoteRow.value).map asU64 := by
  unfold acceptedZec
  rw [restricted_pool hfetch hmask]
  unfold fetchUnspentNotes spendableRows ownedUnspentZecNotes
  simp only [List.filter_map, List.map_map, List.filter_filter]
  refine congrArg (List.map _) (List.filter_congr fun n _ => Bool.eq_iff_iff.2 ?_)
  simp only [Function.comp_apply, inputNote, availableNote, Bool.and_eq_true, decide_eq_true_eq]
  constructor
  · rintro ⟨hasset, hheight, hpool, hacc, hunspent, hlocked, hfree⟩
    exact ⟨⟨of_decide_eq_true hheight, hlocked, hfree⟩, of_decide_eq_true hpool, hacc,
      of_decide_eq_true hasset, hunspent⟩
  · rintro ⟨⟨hheight, hlocked, hfree⟩, hpool, hacc, hasset, hunspent⟩
    exact ⟨decide_eq_true hasset, decide_eq_true hheight, decide_eq_true hpool, hacc, hunspent,
      hlocked, hfree⟩

omit [DecidableEq H] in
theorem sumWhere_eq_filter (ns : List (NoteRow H)) (p : NoteRow H → Bool) :
    sumWhere ns p = ((ns.filter p).map NoteRow.value).sum := by
  unfold sumWhere
  induction ns with
  | nil => rfl
  | cons n ns ih => cases hp : p n <;> simp [hp, ih]

end Planner

/-- The parts of a pool's balance make up its total, and the available part is what the planner
    accepts of it, read as `u64` both. -/
theorem balance_views_agree (db : Database H) (hmatch : SpendsMatch db) (hfit : HeightsFit db)
    (account confirmations pool : ℕ) :
    (db.calculateBalanceBreakdown account confirmations pool).total =
        db.calculateBalance account anyHeight pool ∧
      ∀ inputPools srcPools, db.fetchUnspentNotesByPool account = .ok inputPools →
        hasPool srcPools pool = true →
          asU64 (db.calculateBalanceBreakdown account confirmations pool).available =
            ((acceptedZec inputPools srcPools (db.confirmedHeight account confirmations) pool).map
              InputNote.amount).sum % 2 ^ 64 := by
  refine ⟨?_, fun inputPools srcPools hfetch hmask => ?_⟩
  · rw [total_eq_sum, calculateBalance_unspent hmatch hfit]
  · rw [acceptedZec_amounts hfetch hmask, ← asU64_sum_mod, ← sumWhere_eq_filter]
    rfl

/-- A confirmed note of 100 that is spent, one of 30 that is not, and change of 7 to come. -/
def spentAndChange (spender : ℕ) : Database ℕ :=
  { Database.empty with
    notes := ⟨[
      { idNote := 1, height := 80, account := 1, pool := 1, scope := some 0,
        nullifier := .shielded 1, tx := 1, value := 100, cmx := none, taddress := none,
        position := none, diversifier := none, rcm := none, rho := none, idAsset := none,
        diversifierIndex := none },
      { idNote := 2, height := 80, account := 1, pool := 1, scope := some 0,
        nullifier := .shielded 2, tx := 1, value := 30, cmx := none, taddress := none,
        position := none, diversifier := none, rcm := none, rho := none, idAsset := none,
        diversifierIndex := none },
      { idNote := 3, height := 98, account := 1, pool := 1, scope := some 1,
        nullifier := .shielded 3, tx := 2, value := 7, cmx := none, taddress := none,
        position := none, diversifier := none, rcm := none, rho := none, idAsset := none,
        diversifierIndex := none }], by decide⟩
    spends := ⟨[⟨1, 98, spender, 1, 2, -100⟩], List.pairwise_singleton _ _⟩
    syncHeights := ⟨[⟨1, 1, 100⟩], List.pairwise_singleton _ _⟩ }

theorem spentAndChange_agree :
    ((spentAndChange 1).calculateBalanceBreakdown 1 10 1).total =
        (spentAndChange 1).calculateBalance 1 anyHeight 1 ∧
      (spentAndChange 1).calculateBalance 1 anyHeight 1 = 37 ∧
      ∃ inputPools, (spentAndChange 1).fetchUnspentNotesByPool 1 = .ok inputPools ∧
        ((acceptedZec inputPools 2 ((spentAndChange 1).confirmedHeight 1 10) 1).map
          InputNote.amount).sum % 2 ^ 64 = 30 := by
  have hmatch : SpendsMatch (spentAndChange 1) := by
    unfold SpendsMatch
    decide
  have hagree := balance_views_agree (spentAndChange 1) hmatch ⟨by decide, by decide⟩ 1 10 1
  have havailable : asU64 ((spentAndChange 1).calculateBalanceBreakdown 1 10 1).available = 30 := by
    decide
  exact ⟨hagree.1, by decide, _, rfl, (hagree.2 _ 2 rfl rfl).symm.trans havailable⟩

/-- Each spend's value is that of its note negated, but the spend is another account's. -/
theorem foreignSpend_disagrees :
    (∀ s ∈ (spentAndChange 2).spends.rows, ∀ n ∈ (spentAndChange 2).notes.rows, n.idNote = s.idNote →
      s.value = -n.value) ∧
    ((spentAndChange 2).calculateBalanceBreakdown 1 10 1).total = 37 ∧
      (spentAndChange 2).calculateBalance 1 anyHeight 1 = 137 := by
  decide

end ZcashSdk.Pay
