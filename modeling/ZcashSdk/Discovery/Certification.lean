import ZcashSdk.Discovery.Walk
import ZcashSdk.Lib.Stamps

set_option autoImplicit false

/-!
# What a certified walk stands for

Walks, synchronizations and edits of accounts take turns under one lock. A walk carries what it
read in its first turn, and the turn that records it compares the incarnation of the account
and the counter of trims with what they were then. So whatever else happened meanwhile, a
record that certifies was written for the account that is there, and nothing it rests on has
been trimmed since its walk began.
-/
namespace ZcashSdk.Discovery
open Tables Shielded Db Database Runs Stamps

variable {H : Type} [DecidableEq H]

/-! ### Turns -/

structure Flight where
  args : DiscoveryArgs
  trimAtStart : ℕ
  covered : List (ℕ × ℕ)

structure World (H : Type) [DecidableEq H] where
  db : Database H
  walks : ℕ → Option Flight

structure Unmarked (db d : Database H) : Prop where
  trimCounter : d.trimCounter = db.trimCounter
  certified : d.certified = db.certified
  incarnation : d.incarnation = db.incarnation

/-- Everything else that writes to the database: synchronizing above the seam, new accounts. -/
structure Elsewhere (H : Type) [DecidableEq H] where
  write : Database H → Database H
  unmarked : ∀ db, Unmarked db (write db)

/-- `update_account` with a birthday: markers and the record fall with the old one. -/
def updateBirth (db : Database H) (account birth : ℕ) : Database H :=
  { db with
    accounts := db.accounts.update
      (fun r => if r.idAccount = account then { r with birth := birth } else r)
      (by intro a b; simp only [Row.Clash]; split <;> split <;> exact id)
    addresses := db.addresses.update
      (fun r => if r.account = account then { r with backfilledHeight := none } else r)
      (by intro a b; simp only [Row.Clash]; split <;> split <;> exact id)
  }.clearTransparentCoverage account

/-- A walk has a number; its windows are those of any candidate. -/
inductive Turn (H : Type) [DecidableEq H] where
  | begin (w account endHeight gapLimit : ℕ)
  | window (w : ℕ) (env : Env) (a : WalkArgs) (p : Progress) (markerLo lo hi : ℕ)
      (first : Option Fetched)
  | cover (w scope dindex : ℕ)
  | finish (w : ℕ)
  | abandon (w : ℕ)
  | trim (account height : ℕ)
  | reset (network : Network) (account : ℕ)
  | rewind (network : Network) (account height : ℕ)
  | delete (account : ℕ)
  | birth (account birth : ℕ)
  | elsewhere (e : Elsewhere H)

def World.setWalk (s : World H) (w : ℕ) (f : Option Flight) : World H :=
  { s with walks := Function.update s.walks w f }

/-- The last turn of a walk; its record is written if everything is as it was. -/
def World.finishWalk (s : World H) (w : ℕ) (f : Flight) : World H :=
  match certify f.args f.trimAtStart s.db f.covered with
  | .ok d => { s.setWalk w none with db := d }
  | .error _ => s.setWalk w none

/-- A turn; none where it has no account or walk to take it. -/
def turn (s : World H) : Turn H → Option (World H)
  | .begin w account endHeight gapLimit =>
    match s.walks w, readArgs s.db account endHeight gapLimit with
    | none, .ok args => some (s.setWalk w (some ⟨args, s.db.trimCounter account, []⟩))
    | _, _ => none
  | .window w env a p markerLo lo hi first =>
    match s.walks w with
    | some f =>
      if a.account = f.args.account then
        some { s with db := (walkWindow env a f.args.identity s.db p markerLo lo hi first).db }
      else none
    | none => none
  | .cover w scope dindex =>
    (s.walks w).map fun f => s.setWalk w (some { f with covered := f.covered ++ [(scope, dindex)] })
  | .finish w => (s.walks w).map (s.finishWalk w)
  | .abandon w => some (s.setWalk w none)
  | .trim account height => some { s with db := s.db.trimSyncData account height }
  | .reset network account =>
    match s.db.resetSync network account with
    | .ok d => some { s with db := d }
    | .error _ => none
  | .rewind network account height =>
    match s.db.rewindSync network account height with
    | .ok d => some { s with db := d }
    | .error _ => none
  | .delete account => some { s with db := s.db.deleteAccount account }
  | .birth account birth => some { s with db := updateBirth s.db account birth }
  | .elsewhere e => some { s with db := e.write s.db }

/-! ### Windows write no record -/

section Windows
variable {db d e : Database H}

theorem Unmarked.refl (db : Database H) : Unmarked db db := ⟨rfl, rfl, rfl⟩

theorem Unmarked.trans (h : Unmarked db d) (h' : Unmarked d e) : Unmarked db e :=
  ⟨h'.trimCounter.trans h.trimCounter, h'.certified.trans h.certified,
    h'.incarnation.trans h.incarnation⟩

theorem unmarked_foldl {α : Type} (f : Database H → α → Database H)
    (hf : ∀ db x, Unmarked db (f db x)) (xs : List α) (db : Database H) :
    Unmarked db (xs.foldl f db) := by
  induction xs generalizing db with
  | nil => exact .refl db
  | cons x xs ih => exact (hf db x).trans (ih (f db x))

theorem unmarked_writeTransparentWindow (db : Database H) (account id : ℕ) (rows : WindowRows)
    (used : Bool) : Unmarked db (writeTransparentWindow db account id rows used) := by
  have hused : Unmarked db (if used then markSeenUsed db id else db) := by
    split
    · exact ⟨rfl, rfl, rfl⟩
    · exact .refl db
  have htxs := hused.trans (unmarked_foldl (writeTransaction account) (fun _ _ => ⟨rfl, rfl, rfl⟩)
    rows.transactions _)
  have hnotes := htxs.trans (unmarked_foldl (writeNote account id) (fun _ _ => ⟨rfl, rfl, rfl⟩)
    rows.notes _)
  refine hnotes.trans (unmarked_foldl (writeSpend account) (fun d v => ?_) rows.vins _)
  unfold writeSpend
  split
  · exact ⟨rfl, rfl, rfl⟩
  · exact .refl d

theorem unmarked_fillMissingBlockTimes (env : Env) (lo hi : ℕ) (heights : List ℕ)
    (db : Database H) : Unmarked db (fillMissingBlockTimes env lo hi heights db).1 := by
  induction heights generalizing db with
  | nil => exact .refl db
  | cons h hs ih =>
    unfold fillMissingBlockTimes
    split
    · exact .refl db
    · exact .refl db
    · refine Unmarked.trans ?_ (ih _)
      exact ⟨rfl, rfl, rfl⟩

theorem unmarked_ingest (env : Env) (a : WalkArgs) (db : Database H) (id markerLo lo hi seam : ℕ)
    (f : Fetched) (intact : Bool) :
    Unmarked db (ingestBackfillWindow env a db id markerLo lo hi seam f intact).1 := by
  unfold ingestBackfillWindow
  split
  · exact .refl db
  · rename_i all hall
    dsimp only
    have hwritten := unmarked_writeTransparentWindow db a.account id (all.atOrBelow seam)
      (!all.transactions.isEmpty)
    generalize writeTransparentWindow db a.account id (all.atOrBelow seam)
      (!all.transactions.isEmpty) = d at hwritten ⊢
    generalize ((all.transactions.map Prod.snd).filter fun h => decide (seam < h)).max? = owed
    have hraised : Unmarked d (raiseOwed d id owed) := by
      cases owed with
      | none => exact .refl d
      | some through => exact ⟨rfl, rfl, rfl⟩
    generalize raiseOwed d id owed = e at hraised ⊢
    have hfilled := unmarked_fillMissingBlockTimes env lo hi
      (env.setOrder (heightsOfTransactionsWithoutTime e a.account lo (min hi seam))) e
    have hstored := (hwritten.trans hraised).trans hfilled
    split
    · rename_i hfill
      rwa [hfill] at hstored
    · rename_i hfill
      rw [hfill] at hstored
      split
      · exact hstored.trans ⟨rfl, rfl, rfl⟩
      · exact hstored

theorem unmarked_walkWindow (env : Env) (a : WalkArgs) (identity : AccountIdentity)
    (db : Database H) (p : Progress) (markerLo lo hi : ℕ) (first : Option Fetched) :
    Unmarked db (walkWindow env a identity db p markerLo lo hi first).db := by
  unfold walkWindow
  split
  · exact .refl db
  · dsimp only
    split
    · exact .refl db
    · split
      · exact .refl db
      · split
        · exact .refl db
        · have hstored : Unmarked db
              (if (db.transparentAddressRow a.account a.scope a.dindex).isNone = true then
                db.storeAccountTransparentAddr a.account a.scope a.dindex a.taddr else db) := by
            split
            · exact ⟨rfl, rfl, rfl⟩
            · exact .refl db
          split
          · exact hstored
          · exact hstored.trans (unmarked_ingest env a _ _ _ _ _ _ _ _)

end Windows

/-! ### What a turn does to the record -/

section Turns
variable {s t : World H} {e : Turn H} {account : ℕ}

def retires (account : ℕ) : Turn H → Bool
  | .reset _ a | .rewind _ a _ | .delete a | .birth a _ => a = account
  | _ => false

def clears (account : ℕ) : Turn H → Bool
  | .delete a | .birth a _ => a = account
  | _ => false

def trimHeight (account : ℕ) (db : Database H) : Turn H → Option ℕ
  | .trim a height => if a = account then some height else none
  | .reset _ a => if a = account then some 0 else none
  | .rewind _ a height => if a = account then some ((db.checkpointBefore a height).getD 0) else none
  | _ => none

def trimming (account : ℕ) (s : World H) (e : Turn H) : Bool :=
  (trimHeight account s.db e).any (s.db.trims account)

def records (account : ℕ) (s : World H) (e : Turn H) (d : Database H) : Prop :=
  ∃ w f, e = .finish w ∧ s.walks w = some f ∧ f.args.account = account ∧
    certify f.args f.trimAtStart s.db f.covered = .ok d

/-- What a turn does to the counters and the record of an account. -/
structure Marks (account : ℕ) (s : World H) (e : Turn H) (t : World H) : Prop where
  incarnation : t.db.incarnation account =
    if retires account e then u32 (s.db.incarnation account + 1) else s.db.incarnation account
  trimCounter : clears account e = false → t.db.trimCounter account =
    s.db.trimCounter account + if trimming account s e then 1 else 0
  cleared : clears account e = true → t.db.certified account = none
  certified : clears account e = false →
    t.db.certified account = s.db.certified account ∨ records account s e t.db

theorem marks_of_unmarked (h : Unmarked s.db t.db) (hretires : retires account e = false)
    (hclears : clears account e = false) (htrim : trimming account s e = false) :
    Marks account s e t := by
  refine ⟨?_, fun _ => ?_, fun hc => ?_, fun _ => .inl ?_⟩
  · rw [h.incarnation, hretires, if_neg Bool.false_ne_true]
  · rw [h.trimCounter, htrim, if_neg Bool.false_ne_true, Nat.add_zero]
  · rw [hclears] at hc
    cases hc
  · rw [h.certified]

theorem certify_ok {a : DiscoveryArgs} {trimAtStart : ℕ} {db d : Database H}
    {covered : List (ℕ × ℕ)} (h : certify a trimAtStart db covered = .ok d) :
    accountIdentity db a.account = some a.identity ∧ db.trimCounter a.account = trimAtStart ∧
      (∃ seam, db.accountSeam a.account = some seam ∧
        incomplete db a.account seam covered = .ok 0) ∧
      d = db.writeTransparentCoverage a.account a.gapLimit := by
  unfold certify at h
  split at h
  · cases h
  · rename_i hidentity
    split at h
    · cases h
    · rename_i seam hseam
      split at h
      · cases h
      · rename_i hnone
        split at h
        · cases h
        · rename_i htrim
          cases h
          exact ⟨not_not.1 hidentity, not_not.1 htrim, ⟨seam, hseam, hnone⟩, rfl⟩
      · cases h

theorem certify_record {a : DiscoveryArgs} {trimAtStart : ℕ} {db d : Database H}
    {covered : List (ℕ × ℕ)} (h : certify a trimAtStart db covered = .ok d) :
    d.certified a.account = some (db.trimCounter a.account,
      max (((db.certified a.account).map Prod.snd).getD 0) a.gapLimit) := by
  obtain ⟨-, -, -, rfl⟩ := certify_ok h
  exact Function.update_self ..

theorem trimSyncData_counter (db : Database H) (account a height : ℕ) :
    (db.trimSyncData a height).trimCounter account = db.trimCounter account +
      if (if a = account then some height else none).any (db.trims account) then 1 else 0 := by
  unfold trimSyncData
  dsimp only
  by_cases ha : a = account
  · subst ha
    rw [if_pos rfl, Option.any_some]
    split
    · exact Function.update_self ..
    · exact (Nat.add_zero _).symm
  · rw [if_neg ha, Option.any_none, if_neg Bool.false_ne_true, Nat.add_zero]
    split
    · exact Function.update_of_ne (Ne.symm ha) ..
    · rfl

theorem retire_incarnation (db : Database H) (account a : ℕ) :
    (db.retireTransparentWalks a).incarnation account =
      if decide (a = account) then u32 (db.incarnation account + 1) else db.incarnation account := by
  unfold retireTransparentWalks
  dsimp only
  by_cases ha : a = account
  · subst ha
    rw [decide_eq_true rfl, if_pos rfl, Function.update_self]
  · rw [decide_eq_false ha, if_neg Bool.false_ne_true, Function.update_of_ne (Ne.symm ha)]

theorem update_incarnation (f : ℕ → ℕ) (account n : ℕ) :
    Function.update (Function.update f account (u32 (n + 1))) account (u32 (u32 (n + 1) + 1)) =
      Function.update f account (u32 (n + 1 + 1)) := by
  rw [Function.update_idem, u32, u32, u32, Nat.mod_add_mod]

theorem u32_wraps : u32 (2 ^ 32 - 1 + 1) = 0 := by norm_num [u32]

theorem resetSync_ok {network : Network} {db d : Database H} {a : ℕ}
    (h : db.resetSync network a = .ok d) : Unmarked ((db.trimSyncData a 0).retireTransparentWalks a) d := by
  unfold resetSync at h
  split at h
  · cases h
  · cases h
    exact ⟨rfl, rfl, rfl⟩

theorem rewindSync_ok {network : Network} {db d : Database H} {a height : ℕ}
    (h : db.rewindSync network a height = .ok d) :
    Unmarked ((db.trimSyncData a ((db.checkpointBefore a height).getD 0)).retireTransparentWalks a)
      d := by
  unfold rewindSync at h
  cases hback : db.goBack network a height with
  | error f =>
    rw [hback] at h
    cases h
  | ok back =>
    rw [hback] at h
    cases h
    unfold goBack at hback
    split at hback
    · rename_i prev hprev
      cases hback
      rw [hprev]
      exact ⟨rfl, rfl, rfl⟩
    · rename_i hnone
      rw [hnone]
      have hreset := resetSync_ok hback
      exact ⟨hreset.trimCounter, hreset.certified, hreset.incarnation⟩

theorem marks_of_trim {a height : ℕ}
    (h : Unmarked ((s.db.trimSyncData a height).retireTransparentWalks a) t.db)
    (hretires : retires account e = decide (a = account)) (hclears : clears account e = false)
    (hheight : trimHeight account s.db e = if a = account then some height else none) :
    Marks account s e t := by
  refine ⟨?_, fun _ => ?_, fun hc => ?_, fun _ => .inl ?_⟩
  · rw [h.incarnation, retire_incarnation, hretires]
    rfl
  · rw [h.trimCounter, trimming, hheight]
    exact trimSyncData_counter s.db account a height
  · rw [hclears] at hc
    cases hc
  · rw [h.certified]
    rfl

theorem marks_of_clear {a : ℕ} (hinc : t.db.incarnation = (s.db.retireTransparentWalks a).incarnation)
    (hcounter : t.db.trimCounter = Function.update s.db.trimCounter a 0)
    (hrecord : t.db.certified = Function.update s.db.certified a none)
    (hretires : retires account e = decide (a = account))
    (hclears : clears account e = decide (a = account)) (htrim : trimming account s e = false) :
    Marks account s e t := by
  refine ⟨by rw [hinc, hretires, retire_incarnation], fun hc => ?_, fun hc => ?_,
    fun hc => .inl ?_⟩
  · rw [hclears, decide_eq_false_iff_not] at hc
    rw [hcounter, Function.update_of_ne (Ne.symm hc), htrim, if_neg Bool.false_ne_true,
      Nat.add_zero]
  · rw [hclears, decide_eq_true_eq] at hc
    rw [hrecord, hc, Function.update_self]
  · rw [hclears, decide_eq_false_iff_not] at hc
    rw [hrecord, Function.update_of_ne (Ne.symm hc)]

theorem turn_marks (account : ℕ) (h : turn s e = some t) : Marks account s e t := by
  cases e with
  | begin w a endHeight gapLimit =>
    simp only [turn] at h
    split at h
    · cases h
      exact marks_of_unmarked (.refl _) rfl rfl rfl
    · cases h
  | window w env a p markerLo lo hi first =>
    simp only [turn] at h
    split at h
    · split at h
      · cases h
        exact marks_of_unmarked (unmarked_walkWindow ..) rfl rfl rfl
      · cases h
    · cases h
  | cover w scope dindex =>
    obtain ⟨f, -, rfl⟩ := Option.map_eq_some_iff.1 h
    exact marks_of_unmarked (.refl _) rfl rfl rfl
  | finish w =>
    obtain ⟨f, hf, rfl⟩ := Option.map_eq_some_iff.1 h
    unfold World.finishWalk
    split
    · rename_i d hd
      obtain ⟨-, -, -, hwritten⟩ := certify_ok hd
      refine ⟨by rw [hwritten]; rfl, fun _ => by rw [hwritten]; rfl, nofun, fun _ => ?_⟩
      by_cases ha : f.args.account = account
      · exact .inr ⟨w, f, rfl, hf, ha, hd⟩
      · rw [hwritten]
        exact .inl (Function.update_of_ne (Ne.symm ha) ..)
    · exact marks_of_unmarked (.refl _) rfl rfl rfl
  | abandon w =>
    cases h
    exact marks_of_unmarked (.refl _) rfl rfl rfl
  | trim a height =>
    cases h
    exact ⟨rfl, fun _ => trimSyncData_counter s.db account a height, nofun, fun _ => .inl rfl⟩
  | reset network a =>
    simp only [turn] at h
    split at h
    · rename_i d hd
      cases h
      exact marks_of_trim (resetSync_ok hd) rfl rfl rfl
    · cases h
  | rewind network a height =>
    simp only [turn] at h
    split at h
    · rename_i d hd
      cases h
      exact marks_of_trim (rewindSync_ok hd) rfl rfl rfl
    · cases h
  | delete a =>
    cases h
    exact marks_of_clear rfl rfl rfl rfl rfl rfl
  | birth a b =>
    cases h
    exact marks_of_clear rfl rfl rfl rfl rfl rfl
  | elsewhere e =>
    cases h
    exact marks_of_unmarked (e.unmarked s.db) rfl rfl rfl

theorem incarnation_counts (account : ℕ) : Counts (turn (H := H)) (fun _ _ => True)
    (fun _ e => retires account e) (fun s => s.db.incarnation account) (2 ^ 32) := by
  intro s e t _ h
  dsimp only
  rw [(turn_marks account h).incarnation]
  split
  · exact Nat.mod_modEq _ _
  · exact Nat.ModEq.refl _

theorem trimCounter_counts (account : ℕ) : Counts (turn (H := H))
    (fun _ e => clears account e = false) (trimming account) (fun s => s.db.trimCounter account) 0 := by
  intro s e t hclears h
  dsimp only
  rw [(turn_marks account h).trimCounter hclears]

theorem retires_of_clears (h : clears account e = true) : retires account e = true := by
  cases e <;> first | exact h | cases h

theorem walks_setWalk {w w' : ℕ} {f : Option Flight} {g : Flight}
    (h : (s.setWalk w' f).walks w = some g) : w = w' ∧ f = some g ∨ s.walks w = some g := by
  change Function.update s.walks w' f w = some g at h
  by_cases heq : w = w'
  · rw [heq, Function.update_self] at h
    exact .inl ⟨heq, h⟩
  · rw [Function.update_of_ne heq] at h
    exact .inr h

theorem walks_finishWalk {w w' : ℕ} {f g : Flight} (h : (s.finishWalk w' f).walks w = some g) :
    s.walks w = some g := by
  have hset : (s.setWalk w' none).walks w = some g := by
    unfold World.finishWalk at h
    split at h <;> exact h
  rcases walks_setWalk hset with ⟨-, hnone⟩ | hsame
  · cases hnone
  · exact hsame

theorem flight_of_turn {w : ℕ} {g : Flight} (h : turn s e = some t) (hg : t.walks w = some g) :
    (∃ f, s.walks w = some f ∧ f.args = g.args ∧ f.trimAtStart = g.trimAtStart) ∨
    ∃ a endHeight gapLimit, e = .begin w a endHeight gapLimit ∧
      readArgs s.db a endHeight gapLimit = .ok g.args ∧ g.trimAtStart = s.db.trimCounter a := by
  have hsame (hkept : s.walks w = some g) :
      ∃ f, s.walks w = some f ∧ f.args = g.args ∧ f.trimAtStart = g.trimAtStart :=
    ⟨g, hkept, rfl, rfl⟩
  cases e with
  | begin w' a endHeight gapLimit =>
    simp only [turn] at h
    split at h
    · rename_i args hnone hargs
      cases h
      rcases walks_setWalk hg with ⟨rfl, hflight⟩ | hkept
      · cases hflight
        exact .inr ⟨a, endHeight, gapLimit, rfl, hargs, rfl⟩
      · exact .inl (hsame hkept)
    · cases h
  | window w' env a p markerLo lo hi first =>
    simp only [turn] at h
    split at h
    · split at h
      · cases h
        exact .inl (hsame hg)
      · cases h
    · cases h
  | cover w' scope dindex =>
    obtain ⟨f, hf, rfl⟩ := Option.map_eq_some_iff.1 h
    rcases walks_setWalk hg with ⟨rfl, hflight⟩ | hkept
    · cases hflight
      exact .inl ⟨f, hf, rfl, rfl⟩
    · exact .inl (hsame hkept)
  | finish w' =>
    obtain ⟨f, -, rfl⟩ := Option.map_eq_some_iff.1 h
    exact .inl (hsame (walks_finishWalk hg))
  | abandon w' =>
    cases h
    rcases walks_setWalk hg with ⟨-, hnone⟩ | hkept
    · cases hnone
    · exact .inl (hsame hkept)
  | reset network a =>
    simp only [turn] at h
    split at h
    · cases h
      exact .inl (hsame hg)
    · cases h
  | rewind network a height =>
    simp only [turn] at h
    split at h
    · cases h
      exact .inl (hsame hg)
    · cases h
  | trim a height =>
    cases h
    exact .inl (hsame hg)
  | delete a =>
    cases h
    exact .inl (hsame hg)
  | birth a b =>
    cases h
    exact .inl (hsame hg)
  | elsewhere e =>
    cases h
    exact .inl (hsame hg)

theorem readArgs_identity {db : Database H} {a endHeight gapLimit : ℕ} {args : DiscoveryArgs}
    (h : readArgs db a endHeight gapLimit = .ok args) :
    args.account = a ∧ args.gapLimit = gapLimit ∧ accountIdentity db a = some args.identity := by
  unfold readArgs at h
  split at h
  · cases h
  · rename_i identity hidentity
    cases h
    exact ⟨rfl, rfl, hidentity⟩

theorem identity_incarnation {db : Database H} {a : ℕ} {identity : AccountIdentity}
    (h : accountIdentity db a = some identity) : db.incarnation a = identity.incarnation := by
  obtain ⟨r, -, rfl⟩ := Option.map_eq_some_iff.1 h
  rfl

end Turns

/-! ### A walk beside a trim of another account -/

def walkedWallet : Database ℕ :=
  { (Database.empty : Database ℕ) with
    accounts := .singleton ⟨1, none, 0, 0, 10, true, none, false, false⟩
    addresses := .singleton ⟨1, 1, 0, 0, [1], some 100, false, none⟩
    syncHeights := .singleton ⟨1, 0, 100⟩ }

def walkedWorld : World ℕ := ⟨walkedWallet, fun _ => none⟩

def walkedTurns : List (Turn ℕ) := [.begin 0 1 120 20, .cover 0 0 0, .trim 2 50, .finish 0]

/-! ### Whole runs -/

section Histories
variable {s t : World H} {es : List (Turn H)} {account : ℕ}

/-- A walk in flight at the end of a run, from the turn it began with. -/
structure Begun (s t : World H) (es : List (Turn H)) (w : ℕ) (f : Flight) (pre : List (Turn H))
    (endHeight : ℕ) (mid : List (Turn H)) (u : World H) : Prop where
  turns : es = pre ++ .begin w f.args.account endHeight f.args.gapLimit :: mid
  before : run turn s pre = some u
  since : run turn u (.begin w f.args.account endHeight f.args.gapLimit :: mid) = some t
  identity : accountIdentity u.db f.args.account = some f.args.identity
  trim : f.trimAtStart = u.db.trimCounter f.args.account

theorem walks_ended {w : ℕ} {e : Turn H} (he : e = .finish w ∨ e = .abandon w) (h : turn s e = some t) :
    t.walks w = none := by
  rcases he with rfl | rfl
  · obtain ⟨f, -, rfl⟩ := Option.map_eq_some_iff.1 h
    unfold World.finishWalk
    split <;> exact Function.update_self ..
  · cases h
    exact Function.update_self ..

/-- A walk that is in flight began in a turn, and was neither finished nor abandoned since. -/
theorem begun_of_flight {w : ℕ} {f : Flight} (hwalks : s.walks w = none)
    (hrun : run turn s es = some t) (hf : t.walks w = some f) :
    ∃ pre endHeight mid u, Begun s t es w f pre endHeight mid u ∧ .finish w ∉ mid ∧
      .abandon w ∉ mid := by
  have hnone : ¬ ∃ g, s.walks w = some g ∧ g.args = f.args ∧ g.trimAtStart = f.trimAtStart := by
    rintro ⟨g, hg, -⟩
    rw [hwalks] at hg
    cases hg
  obtain ⟨pre, e, mid, u, v, rfl, hpre, hu, hstep, ⟨g, hg, hargs, htrim⟩, hmid, hkept⟩ :=
    exists_start (P := fun x : World H => ∃ g, x.walks w = some g ∧ g.args = f.args ∧
      g.trimAtStart = f.trimAtStart) hnone hrun ⟨f, hf, rfl, rfl⟩
  have hflying : ∀ e ∈ mid, ¬ (e = .finish w ∨ e = .abandon w) := by
    refine AllSteps.forall_mem hmid (hkept.imp (fun x e y hturn hflies he => ?_) hmid)
    obtain ⟨g, hg, -⟩ := hflies y hturn
    rw [walks_ended he hturn] at hg
    cases hg
  rcases flight_of_turn hstep hg with ⟨g', hg', hargs', htrim'⟩ |
    ⟨a, endHeight, gapLimit, rfl, hread, htrim'⟩
  · exact absurd ⟨g', hg', hargs'.trans hargs, htrim'.trans htrim⟩ hu
  · obtain ⟨haccount, hgap, hidentity⟩ := readArgs_identity hread
    rw [hargs] at haccount hgap hidentity
    subst haccount hgap
    exact ⟨pre, endHeight, mid, u, ⟨rfl, hpre, (run_cons_some turn).2 ⟨v, hstep, hmid⟩, hidentity,
      htrim.symm.trans htrim'⟩, fun h => hflying _ h (.inl rfl), fun h => hflying _ h (.inr rfl)⟩

/-- No trim that deletes something, and nothing that starts the account over. -/
def Undisturbed (account : ℕ) (s : World H) (e : Turn H) : Prop :=
  retires account e = false ∧ trimming account s e = false

theorem none_retired (hrun : run turn s es = some t) (hfew : es.countP (retires account) < 2 ^ 32)
    (hsame : t.db.incarnation account = s.db.incarnation account) :
    AllSteps turn (fun _ e => retires account e = false) s es := by
  refine (incarnation_counts account).none_missed (allSteps_of_forall (fun _ _ => trivial) s es)
    hrun hsame (.inr ?_)
  rw [marks_eq_countP hrun]
  exact hfew

theorem none_trimmed (hrun : run turn s es = some t)
    (hclears : AllSteps turn (fun _ e => clears account e = false) s es)
    (hsame : t.db.trimCounter account = s.db.trimCounter account) :
    AllSteps turn (fun s e => trimming account s e = false) s es :=
  (trimCounter_counts account).none_missed hclears hrun hsame (.inl rfl)

theorem not_clears {e : Turn H} (h : retires account e = false) : clears account e = false := by
  by_contra hc
  rw [Bool.not_eq_false] at hc
  rw [retires_of_clears hc] at h
  cases h

/-- The account is retired fewer than 2^32 times while a walk of it is under way. -/
def FewRetired (account : ℕ) (es : List (Turn H)) : Prop :=
  ∀ pre w endHeight gapLimit mid post,
    es = pre ++ .begin w account endHeight gapLimit :: (mid ++ post) →
      .finish w ∉ mid → .abandon w ∉ mid → mid.countP (retires account) < 2 ^ 32

theorem FewRetired.of_countP (h : es.countP (retires account) < 2 ^ 32) :
    FewRetired account es := by
  rintro pre w endHeight gapLimit mid post rfl - -
  rw [List.countP_append, List.countP_cons, List.countP_append] at h
  omega

theorem Begun.few {w : ℕ} {f : Flight} {pre mid post : List (Turn H)} {endHeight : ℕ}
    {u : World H} (h : Begun s t es w f pre endHeight mid u)
    (hfew : FewRetired f.args.account (es ++ post)) (hfinish : .finish w ∉ mid)
    (habandon : .abandon w ∉ mid) :
    (.begin w f.args.account endHeight f.args.gapLimit :: mid).countP (retires f.args.account) <
      2 ^ 32 :=
  hfew pre w endHeight f.args.gapLimit mid post
    (by rw [h.turns, List.append_assoc, List.cons_append]) hfinish habandon

/-- The last check of a walk finds out everything that happened to its account. -/
theorem Begun.undisturbed {w : ℕ} {f : Flight} {pre mid : List (Turn H)} {endHeight : ℕ}
    {u : World H} (h : Begun s t es w f pre endHeight mid u)
    (hfew : (.begin w f.args.account endHeight f.args.gapLimit :: mid).countP
      (retires f.args.account) < 2 ^ 32)
    (hidentity : accountIdentity t.db f.args.account = some f.args.identity)
    (htrim : t.db.trimCounter f.args.account = f.trimAtStart) :
    AllSteps turn (Undisturbed f.args.account) u
      (.begin w f.args.account endHeight f.args.gapLimit :: mid) := by
  have hinc := (identity_incarnation hidentity).trans (identity_incarnation h.identity).symm
  have hretired := none_retired h.since hfew hinc
  exact hretired.and (none_trimmed h.since
    (hretired.imp (fun _ _ _ _ => not_clears) h.since)
    (htrim.trans h.trim))

/-- Every covered address has its row, with a marker that reaches the seam. -/
def Covered (db : Database H) (account : ℕ) (covered : List (ℕ × ℕ)) : Prop :=
  ∃ seam, db.accountSeam account = some seam ∧ ∀ c ∈ covered, ∃ row,
    db.transparentAddressRow account c.1 c.2 = some row ∧
      ∃ h, db.transparentBackfilledHeight row.1 = some h ∧ seam ≤ h

/-- A count that is zero at the end never went up. -/
theorem foldlM_zero {α : Type} {good : α → Prop} {f : ℕ → α → Except Failure ℕ}
    (hf : ∀ n a m, f n a = .ok m → m = n ∧ good a ∨ m = n + 1) (as : List α) (n : ℕ)
    (h : as.foldlM f n = .ok 0) : n = 0 ∧ ∀ a ∈ as, good a := by
  induction as generalizing n with
  | nil => exact ⟨Except.ok.inj h, by simp⟩
  | cons a as ih =>
    rw [List.foldlM_cons] at h
    obtain ⟨m, hm, h⟩ := Loops.bind_eq_ok.1 h
    obtain ⟨rfl, hrest⟩ := ih m h
    rcases hf n a 0 hm with ⟨rfl, hgood⟩ | hbad
    · exact ⟨rfl, List.forall_mem_cons.2 ⟨hgood, hrest⟩⟩
    · cases hbad

theorem covered_of_incomplete {db : Database H} {seam : ℕ} {covered : List (ℕ × ℕ)}
    (hseam : db.accountSeam account = some seam)
    (h : incomplete db account seam covered = .ok 0) : Covered db account covered := by
  refine ⟨seam, hseam, (foldlM_zero (fun n c m hm => ?_) covered 0 h).2⟩
  split at hm
  · cases hm
  · rename_i row hrow
    rw [Except.ok.injEq] at hm
    split at hm
    · rename_i hmarker
      obtain ⟨marker, hmem, hle⟩ := (Option.any_eq_true _ _).1 hmarker
      exact .inl ⟨hm.symm, row, hrow, marker, hmem, of_decide_eq_true hle⟩
    · exact .inr hm.symm

/-- Where the record of an account comes from: the walk with this number, and what lies between the
    turn it began with, the one it was recorded in, and the end of the run. -/
structure WalkRecorded (account : ℕ) (s t : World H) (es pre mid post : List (Turn H))
    (w endHeight gapLimit : ℕ) : Prop where
  turns : es = pre ++ .begin w account endHeight gapLimit :: (mid ++ .finish w :: post)
  gap : gapLimit ≤ (t.db.readTransparentCoverage account).gap
  states : ∃ u v x f, run turn s pre = some u ∧
    run turn u (.begin w account endHeight gapLimit :: mid) = some v ∧
    turn v (.finish w) = some x ∧ run turn x post = some t ∧
    AllSteps turn (Undisturbed account) u (.begin w account endHeight gapLimit :: mid) ∧
    AllSteps turn (fun s e => clears account e = false ∧ trimming account s e = false) x post ∧
    v.walks w = some f ∧ Covered v.db account f.covered

/-- Where a record that has some property comes from: a walk that was recorded gave it to the
    account, and the record stood since. -/
structure Recording (account : ℕ) (Q : ℕ × ℕ → Prop) (s t : World H) (es before post : List (Turn H))
    (w : ℕ) (f : Flight) (v x : World H) : Prop where
  turns : es = before ++ .finish w :: post
  before : run turn s before = some v
  finish : turn v (.finish w) = some x
  since : run turn x post = some t
  flight : v.walks w = some f
  owner : f.args.account = account
  certify : certify f.args f.trimAtStart v.db f.covered = .ok x.db
  fresh : ∀ r, v.db.certified account = some r → ¬ Q r
  record : ∃ r, x.db.certified account = some r ∧ Q r
  kept : AllSteps turn (fun _ e => clears account e = false) x post

theorem exists_recording {Q : ℕ × ℕ → Prop} (hnone : s.db.certified account = none)
    (hrun : run turn s es = some t) (hrecord : ∃ r, t.db.certified account = some r ∧ Q r) :
    ∃ before post w f v x, Recording account Q s t es before post w f v x := by
  have hkeeps {y z : World H} {e : Turn H} (hturn : turn y e = some z)
      (hz : ∃ r, z.db.certified account = some r ∧ Q r) : clears account e = false := by
    obtain ⟨r, hr, -⟩ := hz
    by_contra hc
    rw [Bool.not_eq_false] at hc
    rw [(turn_marks account hturn).cleared hc] at hr
    cases hr
  obtain ⟨before, e, post, v, x, rfl, hbefore, hv, hfinish, hx, hpost, hkept⟩ :=
    exists_start (P := fun y : World H => ∃ r, y.db.certified account = some r ∧ Q r)
      (by rw [hnone]; rintro ⟨r, hr, -⟩; cases hr) hrun hrecord
  rcases (turn_marks account hfinish).certified (hkeeps hfinish hx) with
    hsame | ⟨w, f, rfl, hf, haccount, hcertify⟩
  · exact absurd (hsame ▸ hx) hv
  · exact ⟨before, post, w, f, v, x, rfl, hbefore, hfinish, hpost, hf, haccount, hcertify,
      fun r hr hQ => hv ⟨r, hr, hQ⟩, hx,
      hkept.imp (fun y e z hturn hP => hkeeps hturn (hP z hturn)) hpost⟩

theorem recorded_by_walk (hwalks : ∀ w, s.walks w = none) (hnone : s.db.certified account = none)
    (hrun : run turn s es = some t) (hfew : FewRetired account es)
    (hcert : (t.db.readTransparentCoverage account).certified = true) :
    ∃ pre mid post w endHeight gapLimit,
      WalkRecorded account s t es pre mid post w endHeight gapLimit := by
  obtain ⟨trim, gap, hrecord⟩ : ∃ trim gap, t.db.certified account = some (trim, gap) := by
    unfold readTransparentCoverage at hcert
    split at hcert
    · rename_i trim gap hrecord
      exact ⟨trim, gap, hrecord⟩
    · cases hcert
  have hread : t.db.readTransparentCoverage account =
      ⟨trim = t.db.trimCounter account, gap, t.db.trimCounter account⟩ := by
    unfold readTransparentCoverage
    rw [hrecord]
  rw [hread, decide_eq_true_eq] at hcert
  obtain ⟨before, post, w, f, v, x, hrec⟩ := exists_recording (Q := fun r => r = (trim, gap)) hnone
    hrun ⟨_, hrecord, rfl⟩
  obtain rfl := hrec.owner
  obtain ⟨hidentity, htrim, ⟨seam, hseam, hzero⟩, hwritten⟩ := certify_ok hrec.certify
  obtain ⟨pre, endHeight, mid, u, hbegun, hends⟩ :=
    begun_of_flight (hwalks w) hrec.before hrec.flight
  obtain ⟨r, hx, rfl⟩ := hrec.record
  have hx' := certify_record hrec.certify
  rw [hx, Option.some.injEq, Prod.mk.injEq] at hx'
  have hcounter : x.db.trimCounter f.args.account = v.db.trimCounter f.args.account := by
    rw [hwritten]
    rfl
  refine ⟨pre, mid, post, w, endHeight, f.args.gapLimit, ?_, ?_, u, v, x, f, hbegun.before,
    hbegun.since, hrec.finish, hrec.since, hbegun.undisturbed
      (hbegun.few (hrec.turns ▸ hfew) hends.1 hends.2) hidentity htrim, ?_, hrec.flight,
    covered_of_incomplete hseam hzero⟩
  · rw [hrec.turns, hbegun.turns, List.append_assoc]
    rfl
  · rw [hread, hx'.2]
    exact le_max_right _ _
  · refine hrec.kept.and (none_trimmed hrec.since hrec.kept ?_)
    rw [hcounter, ← hx'.1, hcert]

/-- A record that certifies an account was written by a walk of that account. Since the walk began
    no trim deleted anything of the account, until it was recorded nothing started the account
    over, and every address it covered had a marker at the seam. -/
theorem certified_by_walk (hwalks : ∀ w, s.walks w = none) (hnone : s.db.certified account = none)
    (hrun : run turn s es = some t) (hfew : es.countP (retires account) < 2 ^ 32)
    (hcert : (t.db.readTransparentCoverage account).certified = true) :
    ∃ pre mid post w endHeight gapLimit,
      WalkRecorded account s t es pre mid post w endHeight gapLimit :=
  recorded_by_walk hwalks hnone hrun (.of_countP hfew) hcert

theorem walked_certified : ∃ t, run turn walkedWorld walkedTurns = some t ∧
    ∃ pre mid post w endHeight gapLimit,
      WalkRecorded 1 walkedWorld t walkedTurns pre mid post w endHeight gapLimit :=
  ⟨_, rfl, certified_by_walk (fun _ => rfl) rfl rfl (by decide) rfl⟩

theorem own_window {w : ℕ} {env : Env} {a : WalkArgs} {p : Progress} {markerLo lo hi : ℕ}
    {first : Option Fetched} {x : World H} (post : List (Turn H)) (hwalks : ∀ w, s.walks w = none)
    (hrun : run turn s es = some t) (hfew : FewRetired a.account (es ++ post))
    (hturn : turn t (.window w env a p markerLo lo hi first) = some x) (hchanged : x.db ≠ t.db) :
    ∃ pre mid endHeight gapLimit, es = pre ++ .begin w a.account endHeight gapLimit :: mid ∧
      ∀ e ∈ mid, retires a.account e = false := by
  simp only [turn] at hturn
  split at hturn
  · rename_i f hf
    split at hturn
    · rename_i haccount
      cases hturn
      obtain ⟨pre, endHeight, mid, u, hbegun, hends⟩ := begun_of_flight (hwalks w) hrun hf
      have hidentity : accountIdentity t.db f.args.account = some f.args.identity := by
        by_contra hne
        refine hchanged ?_
        unfold walkWindow
        rw [haccount, if_pos hne]
      rw [haccount] at hfew ⊢
      have hinc := (identity_incarnation hidentity).trans
        (identity_incarnation hbegun.identity).symm
      have hretired := none_retired hbegun.since (hbegun.few hfew hends.1 hends.2) hinc
      exact ⟨pre, mid, endHeight, f.args.gapLimit, hbegun.turns,
        (List.forall_mem_cons.1 (hretired.forall_mem hbegun.since)).2⟩
    · cases hturn
  · cases hturn

/-- After an account was deleted, reset, rewound or given another birthday, nothing is written that
    a walk of before finds. -/
theorem walk_writes_own_account {w : ℕ} {env : Env} {a : WalkArgs} {p : Progress}
    {markerLo lo hi : ℕ} {first : Option Fetched} {x : World H} (hwalks : ∀ w, s.walks w = none)
    (hrun : run turn s es = some t) (hfew : es.countP (retires a.account) < 2 ^ 32)
    (hturn : turn t (.window w env a p markerLo lo hi first) = some x) (hchanged : x.db ≠ t.db) :
    ∃ pre mid endHeight gapLimit, es = pre ++ .begin w a.account endHeight gapLimit :: mid ∧
      ∀ e ∈ mid, retires a.account e = false :=
  own_window [] hwalks hrun (by rw [List.append_nil]; exact .of_countP hfew) hturn hchanged

def quietEnv : Env := ⟨fun _ _ => none, fun _ _ _ => .stream [] .closed, fun _ => .stalled, id⟩

def askingWorld : World ℕ :=
  { walkedWorld with db := { walkedWallet with
      addresses := .singleton ⟨1, 1, 0, 0, [1], none, false, none⟩ } }

theorem askingWorld_writes : ∃ pre mid endHeight gapLimit,
    [Turn.begin (H := ℕ) 0 1 120 20] = pre ++ .begin 0 1 endHeight gapLimit :: mid ∧
      ∀ e ∈ mid, retires 1 e = false :=
  @walk_writes_own_account ℕ _ askingWorld _ _ 0 quietEnv ⟨1, 10, 0, 0, [1]⟩ ⟨none, false, none⟩ 10
    10 120 none _ (fun _ => rfl) rfl (by decide) rfl
    fun h => absurd (congrArg (fun d => d.addresses.rows) h) (by decide)

end Histories

end ZcashSdk.Discovery
