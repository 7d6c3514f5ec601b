import ZcashSdk.Discovery.Certification

set_option autoImplicit false

/-!
# The coverage record

A record certifies what the walk that wrote it left in order, and its gap is the widest of the
walks that were recorded. Both hold through any interleaving in which the 32 bits of an
incarnation do not run through while a walk is under way.
-/
namespace ZcashSdk.Discovery
open Tables Shielded Db Database Runs Stamps

variable {H : Type} [DecidableEq H]

/-! ### The widest gap -/

section Gap
variable {s t : World H} {es : List (Turn H)} {account : ℕ}

def recordedGap (account : ℕ) (s : World H) : ℕ := (s.db.readTransparentCoverage account).gap

theorem recordedGap_eq : recordedGap account s =
    ((s.db.certified account).map Prod.snd).getD 0 := by
  unfold recordedGap readTransparentCoverage
  cases s.db.certified account <;> rfl

/-- A walk with this gap limit was recorded for the account, and the record was not cleared since. -/
def RecordedWith (account : ℕ) (s : World H) (es : List (Turn H)) (gapLimit : ℕ) : Prop :=
  ∃ before w post v f d, es = before ++ .finish w :: post ∧ run turn s before = some v ∧
    v.walks w = some f ∧ f.args.account = account ∧ f.args.gapLimit = gapLimit ∧
      certify f.args f.trimAtStart v.db f.covered = .ok d ∧ ∀ e ∈ post, clears account e = false

theorem turn_gap {e : Turn H} (h : turn s e = some t) (hkept : clears account e = false) :
    recordedGap account s ≤ recordedGap account t := by
  rw [recordedGap_eq, recordedGap_eq]
  rcases (turn_marks account h).certified hkept with hsame | ⟨w, f, -, -, rfl, hcertify⟩
  · rw [hsame]
  · rw [certify_record hcertify]
    exact le_max_left _ _

theorem run_gap (hrun : run turn s es = some t) (hkept : ∀ e ∈ es, clears account e = false) :
    recordedGap account s ≤ recordedGap account t := by
  induction es generalizing s with
  | nil =>
    rw [run_nil, Option.some.injEq] at hrun
    rw [hrun]
  | cons e es ih =>
    obtain ⟨u, hu, hr⟩ := (run_cons_some turn).1 hrun
    rw [List.forall_mem_cons] at hkept
    exact (turn_gap hu hkept.1).trans (ih hr hkept.2)

theorem recordedGap_isGreatest (hnone : s.db.certified account = none)
    (hrun : run turn s es = some t) {r : ℕ × ℕ} (hr : t.db.certified account = some r) :
    IsGreatest {g | RecordedWith account s es g} r.2 := by
  refine ⟨?_, ?_⟩
  · obtain ⟨before, post, w, f, v, x, hrec⟩ :=
      exists_recording (Q := fun q => q.2 = r.2) hnone hrun ⟨r, hr, rfl⟩
    obtain ⟨q, hq, hgap⟩ := hrec.record
    obtain rfl := hrec.owner
    have hwritten := certify_record hrec.certify
    rw [hq, Option.some.injEq] at hwritten
    refine ⟨before, w, post, v, f, x.db, hrec.turns, hrec.before, hrec.flight, rfl, ?_,
      hrec.certify, hrec.kept.forall_mem hrec.since⟩
    -- had the gap been as wide before, the record would not have begun here
    rw [hwritten] at hgap
    dsimp only at hgap
    cases hold : v.db.certified f.args.account with
    | none =>
      rw [hold, Option.map_none, Option.getD_none, Nat.zero_max] at hgap
      exact hgap
    | some p =>
      have hnew := hrec.fresh p hold
      rw [hold, Option.map_some, Option.getD_some] at hgap
      omega
  · rintro g ⟨before, w, post, v, f, d, rfl, hbefore, hf, rfl, rfl, hcertify, hkept⟩
    obtain ⟨v', hv', hafter⟩ := (run_append turn).1 hrun
    obtain rfl := Option.some.inj (hbefore.symm.trans hv')
    obtain ⟨x, hx, hpost⟩ := (run_cons_some turn).1 hafter
    have hxdb : x.db = d := by
      rw [turn, hf, Option.map_some, Option.some.injEq, World.finishWalk, hcertify] at hx
      exact hx ▸ rfl
    have hle := run_gap hpost hkept
    rw [recordedGap_eq, recordedGap_eq, hr, hxdb, certify_record hcertify] at hle
    exact (le_max_right _ _).trans hle

end Gap

/-! ### The record and the walks -/

/-- What a record stands for after a run, and whose rows walks wrote in it. -/
structure CoverageSound (account : ℕ) (s t : World H) (es : List (Turn H)) : Prop where
  certified : (t.db.readTransparentCoverage account).certified = true →
    ∃ pre mid post w endHeight gapLimit,
      WalkRecorded account s t es pre mid post w endHeight gapLimit ∧
        .delete account ∉ mid ∧ .delete account ∉ post
  gap : ∀ r, t.db.certified account = some r →
    IsGreatest {g | RecordedWith account s es g} (t.db.readTransparentCoverage account).gap
  highWater : ∀ before after u, es = before ++ after → run turn s before = some u →
    (∀ e ∈ after, clears account e = false) →
      (u.db.readTransparentCoverage account).gap ≤ (t.db.readTransparentCoverage account).gap
  own : ∀ before after u x w env a p markerLo lo hi first,
    es = before ++ .window w env a p markerLo lo hi first :: after → a.account = account →
      run turn s before = some u → turn u (.window w env a p markerLo lo hi first) = some x →
        x.db ≠ u.db → ∃ pre mid endHeight gapLimit,
          before = pre ++ .begin w account endHeight gapLimit :: mid ∧
            ∀ e ∈ mid, retires account e = false

section Sound
variable {s t : World H} {es : List (Turn H)} {account : ℕ}

theorem WalkRecorded.not_deleted {pre mid post : List (Turn H)} {w endHeight gapLimit : ℕ}
    (h : WalkRecorded account s t es pre mid post w endHeight gapLimit) :
    .delete account ∉ mid ∧ .delete account ∉ post := by
  obtain ⟨u, v, x, f, -, hsince, -, hpost, hundisturbed, hkept, -⟩ := h.states
  have hdelete : retires account (.delete account : Turn H) = true := decide_eq_true rfl
  have hclear : clears account (.delete account : Turn H) = true := decide_eq_true rfl
  constructor
  · intro hmem
    have hquiet := (hundisturbed.imp (fun _ _ _ _ h => h.1) hsince).forall_mem hsince
    have hfalse := hquiet _ (List.mem_cons_of_mem _ hmem)
    rw [hdelete] at hfalse
    cases hfalse
  · intro hmem
    have hfalse := (hkept.imp (fun _ _ _ _ h => h.1) hpost).forall_mem hpost _ hmem
    rw [hclear] at hfalse
    cases hfalse

end Sound

/-! ### What a record does not say -/

def idleWindow (w scope dindex lo : ℕ) : Turn ℕ :=
  .window w quietEnv ⟨1, 10, scope, dindex, [UInt8.ofNat (10 * scope + dindex + 1)]⟩
    ⟨none, false, none⟩ lo lo 120 none

/-- A walk that finds nothing: the address that is stored is asked for above its marker, and in
    both scopes come as many others as the gap limit wants. -/
def sweep (w gapLimit marker : ℕ) : List (Turn ℕ) :=
  .begin w 1 120 gapLimit :: idleWindow w 0 0 (marker + 1) :: .cover w 0 0 ::
    ((List.range (gapLimit + 1)).map (fun i => idleWindow w 0 (i + 1) 10) ++
      (List.range (gapLimit + 1)).map (fun i => idleWindow w 1 i 10) ++ [.finish w])

/-- A wide walk, a trim and a narrow walk. -/
def twoSweeps : List (Turn ℕ) := sweep 0 1 100 ++ .trim 1 50 :: sweep 1 0 50

theorem twoSweeps_run : (run turn walkedWorld twoSweeps).map
    (fun t => t.db.readTransparentCoverage 1) = some ⟨true, 1, 1⟩ := by
  rfl

/-- The account, as it is once it was restored. -/
def restoredWallet : Database ℕ :=
  { (Database.empty : Database ℕ) with
    accounts := .singleton ⟨1, none, 0, 0, 10, true, none, false, false⟩
    addresses := .singleton ⟨2, 1, 0, 0, [1], none, false, none⟩
    syncHeights := .singleton ⟨1, 0, 10⟩ }

def restore : Elsewhere ℕ where
  write db := { db with
    accounts := restoredWallet.accounts
    addresses := restoredWallet.addresses
    syncHeights := restoredWallet.syncHeights }
  unmarked _ := ⟨rfl, rfl, rfl⟩

def resetNetwork : Network := ⟨1, 1, none⟩

/-- The restored account after some resets, with a walk of the deleted one in flight. -/
def resetWorld (n : ℕ) : World ℕ where
  db := { restoredWallet with
    incarnation := Function.update restoredWallet.incarnation 1 (u32 (n + 1))
    trimCounter := Function.update restoredWallet.trimCounter 1 0
    certified := Function.update restoredWallet.certified 1 none }
  walks := Function.update (fun _ => none) 0
    (some ⟨⟨1, 120, 20, ⟨none, 0, 10, none, 0⟩, 10⟩, 0, []⟩)

theorem resetWorld_reset (n : ℕ) :
    turn (resetWorld n) (.reset resetNetwork 1) = some (resetWorld (n + 1)) := by
  unfold resetWorld
  rw [← update_incarnation]
  rfl

/-- Deleted, restored and then reset until its incarnation is what it was. -/
def replacedTurns : List (Turn ℕ) :=
  [.begin 0 1 120 20, .delete 1, .elsewhere restore] ++
    List.replicate (2 ^ 32 - 1) (.reset resetNetwork 1)

theorem replacedTurns_run : run turn walkedWorld replacedTurns = some (resetWorld (2 ^ 32 - 1)) :=
  (run_append turn).2 ⟨resetWorld 0, rfl, run_replicate turn resetWorld_reset _⟩

def payingTx : TransparentTx := ⟨List.replicate 32 1, [], [⟨some [2], 7⟩]⟩

def payingEnv : Env where
  derive _ _ := none
  taddressTxs _ _ _ := .stream [(10, payingTx)] .closed
  block height := .block [1] height
  setOrder := id

theorem resetWorld_window : ∃ x, turn (resetWorld (2 ^ 32 - 1))
    (.window 0 payingEnv ⟨1, 10, 0, 1, [2]⟩ ⟨none, false, none⟩ 10 10 120 none) = some x ∧
      x.db.transactions.rows.map TransactionRow.account = [1] := by
  unfold resetWorld
  rw [u32_wraps]
  exact ⟨_, rfl, rfl⟩

end ZcashSdk.Discovery
