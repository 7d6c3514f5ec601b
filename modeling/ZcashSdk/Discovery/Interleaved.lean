import ZcashSdk.Discovery.Markers

set_option autoImplicit false

/-!
# Markers in every interleaving

A walk takes the lock for each of its windows, a pass for the whole of it, and everything else
for one change. The walk of a candidate is the loop of `walkWindows`, taken one window at a time.
-/
namespace ZcashSdk.Discovery
open Tables Shielded Db Database Runs

variable {H : Type} [DecidableEq H] {C : Chain} {derive : Derivation}

/-! ### Moves -/

structure Crawl where
  args : WalkArgs
  identity : AccountIdentity
  progress : Progress
  markerLo : ℕ
  lo : ℕ
  window : ℕ
  stop : ℕ
  first : Option Fetched

def Crawl.hi (f : Crawl) : ℕ := min (f.lo + (f.window - 1)) f.stop

def Crawl.outcome (f : Crawl) (env : Env) (db : Database H) : WindowOutcome H :=
  walkWindow env f.args f.identity db f.progress f.markerLo f.lo f.hi f.first

def Crawl.rest (f : Crawl) (o : WindowOutcome H) : Option Crawl :=
  match o.result with
  | .ok none => some { f with progress := o.progress, first := none, lo := f.hi + 1 }
  | .ok (some certified) =>
    some { f with
      progress := o.progress
      first := none
      lo := f.hi + 1
      markerLo := if certified then f.hi + 1 else f.markerLo }
  | .error e =>
    if e.narrows ∧ minBackfillWindow < f.window then
      some { f with
        progress := o.progress
        first := none
        window := max (f.window / 2) minBackfillWindow }
    else none

def Crawl.next (f : Crawl) (env : Env) (db : Database H) : Database H × Option Crawl :=
  if f.lo ≤ f.stop then ((f.outcome env db).db, f.rest (f.outcome env db)) else (db, none)

structure Shared (H : Type) [DecidableEq H] where
  db : Database H
  crawls : ℕ → Option Crawl

def Shared.setCrawl (s : Shared H) (w : ℕ) (f : Option Crawl) : Shared H :=
  { s with crawls := Function.update s.crawls w f }

inductive Edit where
  | trim (account height : ℕ)
  | reset (network : Network) (account : ℕ)
  | rewind (network : Network) (account height : ℕ)
  | delete (account : ℕ)
  | birth (account height : ℕ)

def Edit.apply (db : Database H) : Edit → Option (Database H)
  | .trim account height => some (db.trimSyncData account height)
  | .reset network account => (db.resetSync network account).toOption
  | .rewind network account height => (db.rewindSync network account height).toOption
  | .delete account => some (db.deleteAccount account)
  | .birth account height => some (updateBirth db account height)

/-- The candidate of a walk may have been asked for ahead, under the seam there was then. -/
inductive Move (H : Type) [DecidableEq H] where
  | begin (w : ℕ) (a : DiscoveryArgs) (scope dindex : ℕ) (taddr : Bytes) (asked : Option (Env × ℕ))
  | window (w : ℕ) (env : Env)
  | abandon (w : ℕ)
  | pass (b : Backend) (accounts : List ℕ) (start stop limit : ℕ)
  | edit (e : Edit)
  | elsewhere (d : Database H)

/-- A candidate that has to be asked for, from where it starts to the end of the walk. -/
def Crawl.of (a : DiscoveryArgs) (scope dindex : ℕ) (taddr : Bytes) (asked : Option (Env × ℕ))
    (row : Option (ℕ × Bytes)) (lo : ℕ) : Crawl where
  args := walkArgs a scope dindex taddr
  identity := a.identity
  progress := ⟨row, false, none⟩
  markerLo := lo
  lo := lo
  window := a.endHeight - lo + 1
  stop := a.endHeight
  first := asked.bind fun q => (fetchWindow q.1 taddr lo a.endHeight q.2).toOption

def move (s : Shared H) : Move H → Option (Shared H)
  | .begin w a scope dindex taddr asked =>
    match s.crawls w, candidateStart a s.db scope dindex taddr with
    | none, .ok (some (row, lo)) =>
      some (s.setCrawl w (some (.of a scope dindex taddr asked row lo)))
    | _, _ => none
  | .window w env => (s.crawls w).map fun f =>
    { (s.setCrawl w (f.next env s.db).2) with db := (f.next env s.db).1 }
  | .abandon w => some (s.setCrawl w none)
  | .pass b accounts start stop limit =>
    some { s with db := (transparentSync b accounts start stop limit s.db).1 }
  | .edit e => (e.apply s.db).map fun d => { s with db := d }
  | .elsewhere d => some { s with db := d }

theorem ok_of_toOption {ε α : Type} {r : Except ε α} {a : α} (h : r.toOption = some a) :
    r = .ok a := by
  cases r with
  | error e => cases h
  | ok b => exact congrArg Except.ok (Option.some.inj h)

/-! ### A walk left alone is the loop -/

section Loop
variable {f : Crawl} {env : Env} {db : Database H}

theorem Crawl.next_of_le (hle : f.lo ≤ f.stop) :
    f.next env db = ((f.outcome env db).db, f.rest (f.outcome env db)) := if_pos hle

theorem Crawl.next_of_lt (hlt : ¬ f.lo ≤ f.stop) : f.next env db = (db, none) := if_neg hlt

theorem Crawl.rest_nothing {o : WindowOutcome H} (h : o.result = .ok none) :
    f.rest o = some { f with progress := o.progress, first := none, lo := f.hi + 1 } := by
  rw [Crawl.rest, h]

theorem Crawl.rest_ingested {o : WindowOutcome H} {certified : Bool}
    (h : o.result = .ok (some certified)) :
    f.rest o = some { f with
      progress := o.progress
      first := none
      lo := f.hi + 1
      markerLo := if certified then f.hi + 1 else f.markerLo } := by
  rw [Crawl.rest, h]

theorem Crawl.rest_narrower {o : WindowOutcome H} {e : BackfillError} (h : o.result = .error e)
    (hnarrow : e.narrows ∧ minBackfillWindow < f.window) :
    f.rest o = some { f with
      progress := o.progress
      first := none
      window := max (f.window / 2) minBackfillWindow } := by
  rw [Crawl.rest, h]
  exact if_pos hnarrow

theorem Crawl.rest_failed {o : WindowOutcome H} {e : BackfillError} (h : o.result = .error e)
    (hnarrow : ¬ (e.narrows ∧ minBackfillWindow < f.window)) : f.rest o = none := by
  rw [Crawl.rest, h]
  exact if_neg hnarrow

theorem move_window {s : Shared H} {w : ℕ} (hf : s.crawls w = some f) (env : Env) :
    move s (.window w env) =
      some { (s.setCrawl w (f.next env s.db).2) with db := (f.next env s.db).1 } := by
  rw [move, hf, Option.map_some]

def Leaves (env : Env) (w : ℕ) (s : Shared H) (d : Database H) : Prop :=
  ∃ n t, run move s (List.replicate n (.window w env)) = some t ∧ t.crawls w = none ∧ t.db = d

theorem Leaves.more {g : Crawl} {d e : Database H} {s : Shared H} {w : ℕ}
    (hf : s.crawls w = some f) (hnext : f.next env s.db = (d, some g))
    (hrest : ∀ {u : Shared H}, u.db = d → u.crawls w = some g → Leaves env w u e) :
    Leaves env w s e := by
  obtain ⟨n, t, hrun, ht⟩ := hrest (u := { (s.setCrawl w (some g)) with db := d }) rfl
    (Function.update_self ..)
  refine ⟨n + 1, t, (run_cons_some move).2 ⟨_, move_window hf env, ?_⟩, ht⟩
  rw [hnext]
  exact hrun

theorem Leaves.last {d : Database H} {s : Shared H} {w : ℕ} (hf : s.crawls w = some f)
    (hnext : f.next env s.db = (d, none)) : Leaves env w s d := by
  refine ⟨1, _, (run_singleton move).trans (move_window hf env), ?_⟩
  rw [hnext]
  exact ⟨Function.update_self .., rfl⟩

/-- When nothing comes between its windows, a walk does what `walkWindows` does. -/
theorem leaves_walkWindows (env : Env) (a : WalkArgs) (identity : AccountIdentity) (stop : ℕ)
    (p : Progress) (markerLo lo window : ℕ) (first : Option Fetched) (db : Database H)
    {s : Shared H} (hdb : s.db = db) {w : ℕ}
    (hf : s.crawls w = some ⟨a, identity, p, markerLo, lo, window, stop, first⟩) :
    Leaves env w s (walkWindows env a identity stop p markerLo lo window first db).1 := by
  fun_induction walkWindows env a identity stop p markerLo lo window first db generalizing s with
  | case1 p markerLo lo window first db hle hi o hres =>
    rename_i ih
    subst hdb
    exact .more hf ((Crawl.next_of_le hle).trans (Prod.ext rfl (Crawl.rest_nothing hres))) ih
  | case2 p markerLo lo window first db hle hi o certified hres =>
    rename_i ih
    subst hdb
    exact .more hf ((Crawl.next_of_le hle).trans (Prod.ext rfl (Crawl.rest_ingested hres))) ih
  | case3 p markerLo lo window first db hle hi o e hres hnarrow =>
    rename_i ih
    subst hdb
    exact .more hf
      ((Crawl.next_of_le hle).trans (Prod.ext rfl (Crawl.rest_narrower hres hnarrow))) ih
  | case4 p markerLo lo window first db hle hi o e hres =>
    rename_i hnarrow
    subst hdb
    exact .last hf ((Crawl.next_of_le hle).trans (Prod.ext rfl (Crawl.rest_failed hres hnarrow)))
  | case5 p markerLo lo window first db hle =>
    subst hdb
    exact .last hf (Crawl.next_of_lt hle)

end Loop

/-! ### What the moves are trusted with -/

/-- Whatever else writes tells the truth about the chain too, deletes nothing, moves no marker and
    leaves the counters and the birthdays of accounts that have markers. -/
structure Beside (C : Chain) (derive : Derivation) (db d : Database H) : Prop where
  trimCounter : d.trimCounter = db.trimCounter
  incarnation : d.incarnation = db.incarnation
  onChain : OnChain C d
  keyed : Keyed derive d
  marked : ∀ r ∈ d.addresses.rows, r.backfilledHeight ≠ none →
    ∃ r' ∈ db.addresses.rows, addressFace r' = addressFace r ∧
      d.getBirthHeight r.account = db.getBirthHeight r.account
  keeps : ∀ account height, KeepsUpTo account height db d

theorem Beside.sound {db d : Database H} (h : Beside C derive db d)
    (hs : MarkersSound C derive db) : MarkersSound C derive d where
  onChain := h.onChain
  keyed := h.keyed
  marked r hr m hm birth hb := by
    obtain ⟨r', hr', hface, hbirth⟩ := h.marked r hr (by rw [hm]; nofun)
    obtain ⟨-, hacc, -, -, haddr, hmarker⟩ := face_eq hface
    rw [hbirth, ← hacc] at hb
    rw [← hacc, ← haddr]
    exact (hs.marked r' hr' m (hmarker.trans hm) birth hb).keep hs.onChain le_rfl (h.keeps _ _)

/-- Replies come from the chain, addresses from the account that is walked. -/
def Move.Faithful (C : Chain) (derive : Derivation) (s : Shared H) : Move H → Prop
  | .begin _ a scope dindex taddr asked =>
    derive (a.identity.owner a.account) scope dindex = some taddr ∧ a.birth = a.identity.birth ∧
      ∀ q, asked = some q → q.1.Honest C
  | .window _ env => env.Honest C
  | .pass b _ _ _ _ => ∀ id lo hi, (b.env id lo hi).Honest C
  | .elsewhere d => Beside C derive s.db d
  | _ => True

/-! ### One move -/

theorem Edit.sound {db d : Database H} (hs : MarkersSound C derive db) {e : Edit}
    (h : e.apply db = some d) : MarkersSound C derive d := by
  cases e with
  | trim account height =>
    cases h
    exact trim_markers hs account height
  | reset network account => exact resetSync_markers hs (ok_of_toOption h)
  | rewind network account height => exact rewindSync_markers hs (ok_of_toOption h)
  | delete account =>
    cases h
    exact deleteAccount_markers hs account
  | birth account height =>
    cases h
    exact updateBirth_markers hs account height

def Edit.turn : Edit → Turn H
  | .trim account height => .trim account height
  | .reset network account => .reset network account
  | .rewind network account height => .rewind network account height
  | .delete account => .delete account
  | .birth account height => .birth account height

theorem Edit.turn_apply {db d : Database H} {e : Edit} (h : e.apply db = some d) :
    Discovery.turn ⟨db, fun _ => none⟩ e.turn = some ⟨d, fun _ => none⟩ := by
  cases e with
  | trim account height =>
    cases h
    rfl
  | reset network account =>
    simp only [Edit.turn, Discovery.turn]
    rw [ok_of_toOption h]
  | rewind network account height =>
    simp only [Edit.turn, Discovery.turn]
    rw [ok_of_toOption h]
  | delete account =>
    cases h
    rfl
  | birth account height =>
    cases h
    rfl

def Move.retires (account : ℕ) : Move H → Bool
  | .edit e => Discovery.retires account (e.turn : Turn H)
  | _ => false

structure Counters (account : ℕ) (e : Move H) (db d : Database H) : Prop where
  incarnation : d.incarnation account =
    if e.retires account then u32 (db.incarnation account + 1) else db.incarnation account
  trimCounter : e.retires account = false → db.trimCounter account ≤ d.trimCounter account

theorem Counters.of_unmarked {account : ℕ} {e : Move H} {db d : Database H} (h : Unmarked db d)
    (hr : e.retires account = false) : Counters account e db d :=
  ⟨by rw [h.incarnation, hr, if_neg Bool.false_ne_true], fun _ => by rw [h.trimCounter]⟩

theorem Edit.counters {db d : Database H} {e : Edit} (h : e.apply db = some d) (account : ℕ) :
    Counters account (.edit e) db d := by
  have hmarks := turn_marks account (Edit.turn_apply h)
  refine ⟨hmarks.incarnation, fun hr => ?_⟩
  rw [hmarks.trimCounter (not_clears hr)]
  exact Nat.le_add_right _ _

/-- A move keeps markers true and counters honest. -/
theorem move_sound {s t : Shared H} {e : Move H} (hs : MarkersSound C derive s.db)
    (hfaithful : e.Faithful C derive s) (h : move s e = some t)
    (hcrawl : ∀ w env f, e = .window w env → s.crawls w = some f →
      MarkersSound C derive (f.next env s.db).1) :
    MarkersSound C derive t.db ∧ ∀ account, Counters account e s.db t.db := by
  cases e with
  | begin w a scope dindex taddr asked =>
    simp only [move] at h
    split at h
    · cases h
      exact ⟨hs, fun account => .of_unmarked (.refl _) rfl⟩
    · cases h
  | window w env =>
    obtain ⟨f, hf, rfl⟩ := Option.map_eq_some_iff.1 h
    refine ⟨hcrawl w env f rfl hf, fun account => .of_unmarked ?_ rfl⟩
    change Unmarked s.db (f.next env s.db).1
    unfold Crawl.next
    split
    · exact unmarked_walkWindow ..
    · exact .refl _
  | abandon w =>
    cases h
    exact ⟨hs, fun account => .of_unmarked (.refl _) rfl⟩
  | pass b accounts start stop limit =>
    cases h
    obtain ⟨hsound, hcarries, -⟩ :=
      transparentSync_sound hfaithful accounts start stop limit hs
    exact ⟨hsound, fun account => .of_unmarked hcarries.unmarked rfl⟩
  | edit e =>
    obtain ⟨d, hd, rfl⟩ := Option.map_eq_some_iff.1 h
    exact ⟨Edit.sound hs hd, Edit.counters hd⟩
  | elsewhere d =>
    cases h
    exact ⟨hfaithful.sound hs, fun account =>
      ⟨by rw [hfaithful.incarnation]; rfl, fun _ => by rw [hfaithful.trimCounter]⟩⟩

/-! ### Walks in flight -/

structure Crawl.Carried (C : Chain) (derive : Derivation) (f : Crawl) : Prop where
  entitled : Entitled derive f.args f.identity
  first : ∀ g, f.first = some g → g.Honest C f.args.taddr f.lo f.hi

/-- What it may rely on as long as its account is the one it began with: what its next marker would
    cover was ingested, or the chain has nothing of the address there, unless there was a trim. -/
structure Crawl.Reliable (C : Chain) (db : Database H) (f : Crawl) : Prop where
  trim : ∀ t, f.progress.trim = some t → t ≤ db.trimCounter f.args.account
  quiet : f.progress.trim.getD (db.trimCounter f.args.account) = db.trimCounter f.args.account →
    Quiet C f.args.taddr f.markerLo f.lo

section Flight
variable {f g : Crawl} {env : Env} {db d : Database H}

theorem Crawl.Reliable.later (h : f.Reliable C db)
    (hle : db.trimCounter f.args.account ≤ d.trimCounter f.args.account) : f.Reliable C d where
  trim t ht := (h.trim t ht).trans hle
  quiet hsame := by
    refine h.quiet ?_
    cases ht : f.progress.trim with
    | none => rfl
    | some t =>
      have := h.trim t ht
      rw [ht, Option.getD_some] at hsame
      rw [Option.getD_some]
      omega

theorem Crawl.next_sound (hs : MarkersSound C derive db) (hf : f.Carried C derive)
    (hrely : accountIdentity db f.args.account = some f.identity → f.Reliable C db)
    (henv : env.Honest C) :
    MarkersSound C derive (f.next env db).1 ∧ ∀ g, (f.next env db).2 = some g →
      g.args = f.args ∧ g.identity = f.identity ∧ g.Carried C derive ∧
        accountIdentity db f.args.account = some f.identity ∧ g.Reliable C (f.next env db).1 := by
  by_cases hle : f.lo ≤ f.stop
  · have hwindow : WindowSound C derive f.args f.identity db f.progress f.lo f.hi
        (f.outcome env db) :=
      walkWindow_sound hs hf.entitled henv hf.first fun hid => (hrely hid).quiet
    have hcounter : (f.outcome env db).db.trimCounter = db.trimCounter :=
      (unmarked_walkWindow ..).trimCounter
    rw [Crawl.next_of_le hle]
    refine ⟨hwindow.sound, fun g hg => ?_⟩
    dsimp only at hg ⊢
    generalize f.outcome env db = o at hwindow hcounter hg ⊢
    by_cases hid : accountIdentity db f.args.account = some f.identity
    · have hold := hrely hid
      have hseen := hwindow.seen hid
      -- the counter that was seen first is not above the one there is now
      have htrim : ∀ t, o.progress.trim = some t → t ≤ o.db.trimCounter f.args.account := by
        intro t ht
        obtain rfl := Option.some.inj (hseen.symm.trans ht)
        rw [hcounter]
        cases hp : f.progress.trim with
        | none => exact le_rfl
        | some t => exact hold.trim t hp
      have hquiet (h : o.progress.trim.getD (o.db.trimCounter f.args.account) =
          o.db.trimCounter f.args.account) : f.progress.trim.getD
            (db.trimCounter f.args.account) = db.trimCounter f.args.account := by
        rwa [hseen, Option.getD_some, hcounter] at h
      cases hres : o.result with
      | ok found =>
        cases found with
        | none =>
          rw [Crawl.rest_nothing hres] at hg
          cases hg
          refine ⟨rfl, rfl, ⟨hf.entitled, nofun⟩, hid, htrim, fun h x hx htouch hlo => ?_⟩
          exact hwindow.nothing hres x hx htouch (hold.quiet (hquiet h) x hx htouch hlo)
        | some certified =>
          rw [Crawl.rest_ingested hres] at hg
          cases hg
          refine ⟨rfl, rfl, ⟨hf.entitled, nofun⟩, hid, htrim, fun h x hx htouch hlo => ?_⟩
          have hcert := hwindow.certified certified hres
          rw [decide_eq_true (hquiet h)] at hcert
          subst hcert
          exact hlo
      | error e =>
        by_cases hnarrow : e.narrows ∧ minBackfillWindow < f.window
        · rw [Crawl.rest_narrower hres hnarrow] at hg
          cases hg
          exact ⟨rfl, rfl, ⟨hf.entitled, nofun⟩, hid, htrim, fun h => hold.quiet (hquiet h)⟩
        · rw [Crawl.rest_failed hres hnarrow] at hg
          cases hg
    · obtain ⟨m, hm⟩ := hwindow.same hid
      rw [Crawl.rest_failed hm fun h => Bool.false_ne_true h.1] at hg
      cases hg
  · rw [Crawl.next_of_lt hle]
    exact ⟨hs, nofun⟩

theorem Crawl.rest_args {g : Crawl} {o : WindowOutcome H} (h : f.rest o = some g) :
    g.args = f.args := by
  unfold Crawl.rest at h
  split at h
  · cases h
    rfl
  · cases h
    rfl
  · split at h
    · cases h
      rfl
    · cases h

theorem Crawl.next_args {g : Crawl} (h : (f.next env db).2 = some g) : g.args = f.args := by
  unfold Crawl.next at h
  split at h
  · exact rest_args h
  · cases h

end Flight

/-! ### Every run -/

/-- How often each account was retired, and had been when each walk began. -/
structure Tally where
  retired : ℕ → ℕ
  began : ℕ → ℕ

def tally (_ : Shared H) (e : Move H) (g : Tally) : Tally where
  retired account := g.retired account + if e.retires account then 1 else 0
  began :=
    match e with
    | .begin w a _ _ _ _ => Function.update g.began w (g.retired a.account)
    | _ => g.began

/-- No account was retired 2^32 times since a walk of it that is in flight began. -/
def Tally.Seldom (g : Tally) (s : Shared H) : Prop :=
  ∀ w f, s.crawls w = some f → g.retired f.args.account < g.began w + 2 ^ 32

theorem Tally.seldom_of_lt {g : Tally} {s : Shared H} (h : ∀ account, g.retired account < 2 ^ 32) :
    g.Seldom s :=
  fun _ f _ => (h f.args.account).trans_le (Nat.le_add_left _ _)

structure Crawl.InFlight (C : Chain) (derive : Derivation)
    (db : Database H) (retired began : ℕ) (f : Crawl) : Prop where
  carried : f.Carried C derive
  le : began ≤ retired
  incarnation : db.incarnation f.args.account ≡
    f.identity.incarnation + (retired - began) [MOD 2 ^ 32]
  reliable : retired = began → f.Reliable C db

structure SharedSound (C : Chain) (derive : Derivation) (s : Shared H)
    (g : Tally) : Prop where
  sound : MarkersSound C derive s.db
  crawls : ∀ w f, s.crawls w = some f →
    f.InFlight C derive s.db (g.retired f.args.account) (g.began w)

/-- A walk whose account looks the same is right about that, unless it was retired 2^32 times. -/
theorem Crawl.InFlight.reliable_of_identity {db : Database H} {retired began : ℕ} {f : Crawl}
    (h : f.InFlight C derive db retired began) (hfew : retired < began + 2 ^ 32)
    (hid : accountIdentity db f.args.account = some f.identity) : f.Reliable C db := by
  refine h.reliable ?_
  have hmod := h.incarnation
  rw [identity_incarnation hid] at hmod
  have hzero : 0 ≡ retired - began [MOD 2 ^ 32] :=
    Nat.ModEq.add_left_cancel' f.identity.incarnation hmod
  have heq := Nat.ModEq.eq_of_lt_of_lt hzero (by omega) (by omega)
  have := h.le
  omega

theorem Crawl.InFlight.later {db d : Database H} {retired began : ℕ} {f : Crawl} {e : Move H}
    (h : f.InFlight C derive db retired began) (hc : Counters f.args.account e db d) :
    f.InFlight C derive d (retired + if e.retires f.args.account then 1 else 0) began where
  carried := h.carried
  le := h.le.trans (Nat.le_add_right _ _)
  incarnation := by
    have hle := h.le
    rw [hc.incarnation]
    split
    · rw [show retired + 1 - began = retired - began + 1 by omega, ← Nat.add_assoc]
      exact (Nat.mod_modEq _ _).trans (h.incarnation.add_right 1)
    · exact h.incarnation
  reliable heq := by
    have hle := h.le
    cases hr : e.retires f.args.account with
    | true =>
      rw [hr, if_pos rfl] at heq
      omega
    | false =>
      rw [hr, if_neg Bool.false_ne_true, Nat.add_zero] at heq
      exact (h.reliable heq).later (hc.trimCounter hr)

theorem setCrawl_crawls {s : Shared H} {w w' : ℕ} {f : Option Crawl} {g : Crawl}
    (h : (s.setCrawl w' f).crawls w = some g) :
    w = w' ∧ f = some g ∨ w ≠ w' ∧ s.crawls w = some g := by
  change Function.update s.crawls w' f w = some g at h
  by_cases heq : w = w'
  · rw [heq, Function.update_self] at h
    exact .inl ⟨heq, h⟩
  · rw [Function.update_of_ne heq] at h
    exact .inr ⟨heq, h⟩

theorem candidateStart_identity {a : DiscoveryArgs} {db : Database H} {scope dindex : ℕ}
    {taddr : Bytes} {r : Option (Option (ℕ × Bytes) × ℕ)}
    (h : candidateStart a db scope dindex taddr = .ok r) :
    accountIdentity db a.account = some a.identity := by
  unfold candidateStart at h
  split at h
  · cases h
  · rename_i hid
    exact not_not.1 hid

theorem crawl_of_carried {a : DiscoveryArgs} {scope dindex : ℕ} {taddr : Bytes}
    {asked : Option (Env × ℕ)} (hkey : derive (a.identity.owner a.account) scope dindex = some taddr)
    (hbirth : a.birth = a.identity.birth) (hasked : ∀ q, asked = some q → q.1.Honest C)
    (row : Option (ℕ × Bytes)) (lo : ℕ) :
    (Crawl.of a scope dindex taddr asked row lo).Carried C derive := by
  refine ⟨⟨hkey, hbirth⟩, fun g hg => ?_⟩
  obtain ⟨q, hq, hfetch⟩ := Option.bind_eq_some_iff.1 hg
  have hhi : (Crawl.of a scope dindex taddr asked row lo).hi = a.endHeight := by
    change min (lo + (a.endHeight - lo + 1 - 1)) a.endHeight = _
    omega
  rw [hhi]
  exact (fetchWindow_honest (hasked q hq) (ok_of_toOption hfetch)).1

theorem shared_step {s t : Shared H} {e : Move H} {g : Tally} (hs : SharedSound C derive s g)
    (hfew : g.Seldom s) (hfaithful : e.Faithful C derive s) (h : move s e = some t) :
    SharedSound C derive t (tally s e g) := by
  have hrely {w : ℕ} {f : Crawl} (hf : s.crawls w = some f) :=
    (hs.crawls w f hf).reliable_of_identity (hfew w f hf)
  have hcrawl : ∀ w env f, e = .window w env → s.crawls w = some f →
      MarkersSound C derive (f.next env s.db).1 := by
    rintro w env f rfl hf
    exact (Crawl.next_sound hs.sound (hs.crawls w f hf).carried (hrely hf) hfaithful).1
  obtain ⟨hsound, hcounters⟩ := move_sound hs.sound hfaithful h hcrawl
  have hkept {w : ℕ} {f : Crawl} (hf : s.crawls w = some f) :=
    (hs.crawls w f hf).later (hcounters f.args.account)
  refine ⟨hsound, fun w f hf => ?_⟩
  cases e with
  | begin w' a scope dindex taddr asked =>
    simp only [move] at h
    split at h
    · rename_i row lo hnone hstart
      cases h
      rcases setCrawl_crawls hf with ⟨rfl, hnew⟩ | ⟨hne, hold⟩
      · cases hnew
        have hid := candidateStart_identity hstart
        have hbegan : (tally s (.begin w a scope dindex taddr asked) g).began w =
            g.retired a.account := Function.update_self ..
        rw [hbegan]
        refine ⟨crawl_of_carried hfaithful.1 hfaithful.2.1 hfaithful.2.2 row lo, le_rfl, ?_,
          fun _ => ⟨nofun, fun _ x _ _ hle => hle⟩⟩
        change s.db.incarnation a.account ≡ a.identity.incarnation +
          (g.retired a.account + 0 - g.retired a.account) [MOD 2 ^ 32]
        rw [identity_incarnation hid, Nat.add_zero, Nat.sub_self, Nat.add_zero]
      · have hbegan : (tally s (.begin w' a scope dindex taddr asked) g).began w = g.began w :=
          Function.update_of_ne hne ..
        rw [hbegan]
        exact hkept hold
    · cases h
  | window w' env =>
    obtain ⟨f', hf', rfl⟩ := Option.map_eq_some_iff.1 h
    rcases setCrawl_crawls hf with ⟨rfl, hnew⟩ | ⟨-, hold⟩
    · obtain ⟨hargs, hidentity, hcarried, -, hreliable⟩ :=
        (Crawl.next_sound hs.sound (hs.crawls w f' hf').carried (hrely hf') hfaithful).2 f hnew
      have hbefore := hkept hf'
      rw [hargs]
      refine ⟨hcarried, hbefore.le, ?_, fun _ => hreliable⟩
      rw [hargs, hidentity]
      exact hbefore.incarnation
    · exact hkept hold
  | abandon w' =>
    cases h
    rcases setCrawl_crawls hf with ⟨-, hnew⟩ | ⟨-, hold⟩
    · cases hnew
    · exact hkept hold
  | pass b accounts start stop limit =>
    cases h
    exact hkept hf
  | edit e =>
    obtain ⟨d, -, rfl⟩ := Option.map_eq_some_iff.1 h
    exact hkept hf
  | elsewhere d =>
    cases h
    exact hkept hf

theorem tally_retired {s t : Shared H} {es : List (Move H)} {g : Tally} (account : ℕ)
    (hrun : run move s es = some t) : (Books.noted move tally s es g).retired account =
      g.retired account + es.countP (Move.retires account) := by
  induction es generalizing s g with
  | nil => rfl
  | cons e es ih =>
    obtain ⟨u, hu, hr⟩ := (run_cons_some move).1 hrun
    rw [Books.noted, hu]
    dsimp only
    rw [ih hr, List.countP_cons]
    simp only [tally]
    omega

theorem shared_run {s t : Shared H} {es : List (Move H)} {g : Tally} (hs : SharedSound C derive s g)
    (hrun : run move s es = some t) (hfaithful : AllSteps move (Move.Faithful C derive) s es)
    (hfew : ∀ fs gs u, es = fs ++ gs → run move s fs = some u →
      (Books.noted move tally s fs g).Seldom u) :
    SharedSound C derive t (Books.noted move tally s es g) := by
  induction es generalizing s g with
  | nil =>
    rw [run_nil, Option.some.injEq] at hrun
    exact hrun ▸ hs
  | cons e es ih =>
    obtain ⟨u, hu, hr⟩ := (run_cons_some move).1 hrun
    rw [Books.noted, hu]
    refine ih (shared_step hs (hfew [] (e :: es) s rfl rfl) hfaithful.1 hu) hr (hfaithful.2 u hu) ?_
    rintro fs gs v rfl hv
    have hlater := hfew (e :: fs) gs v rfl ((run_cons_some move).2 ⟨u, hu, hv⟩)
    rwa [Books.noted, hu] at hlater

theorem seldom_of_countP {s : Shared H} {es : List (Move H)} {g : Tally}
    (hfew : ∀ account, g.retired account + es.countP (Move.retires account) < 2 ^ 32)
    (fs gs : List (Move H)) (u : Shared H) (he : es = fs ++ gs) (hrun : run move s fs = some u) :
    (Books.noted move tally s fs g).Seldom u := by
  refine Tally.seldom_of_lt fun account => ?_
  have hcount := hfew account
  rw [he, List.countP_append] at hcount
  rw [tally_retired account hrun]
  omega

theorem shared_start {s : Shared H} (hs : MarkersSound C derive s.db)
    (hnone : ∀ w, s.crawls w = none) : SharedSound C derive s ⟨fun _ => 0, fun _ => 0⟩ := by
  refine ⟨hs, fun w f hf => ?_⟩
  rw [hnone w] at hf
  cases hf

theorem markers_run {s t : Shared H} {es : List (Move H)} (hs : MarkersSound C derive s.db)
    (hnone : ∀ w, s.crawls w = none) (hrun : run move s es = some t)
    (hfaithful : AllSteps move (Move.Faithful C derive) s es)
    (hfew : ∀ account, es.countP (Move.retires account) < 2 ^ 32) : MarkersSound C derive t.db := by
  refine (shared_run (shared_start hs hnone) hrun hfaithful (seldom_of_countP fun a => ?_)).sound
  rw [Nat.zero_add]
  exact hfew a

/-! ### The history of an address -/

def ReceivedAt (db : Database H) (account : ℕ) (taddr o : Bytes) (height : ℕ) (value : ℤ) : Prop :=
  ∃ n, HasNote db account o n ∧ n.height = height ∧ n.value = value ∧
    ∃ id, n.taddress = some id ∧ RowOf db account id taddr

def SpentAt (db : Database H) (account : ℕ) (o : Bytes) (height : ℕ) : Prop :=
  ∃ n, HasNote db account o n ∧ ∃ row ∈ db.spends.rows, row.idNote = n.idNote ∧ row.height = height

/-- What is stored of an address from one height to another is exactly what the chain has. -/
structure HistoryExact (C : Chain) (db : Database H) (account : ℕ) (taddr : Bytes)
    (birth through : ℕ) : Prop where
  transactions : ∀ x ∈ C.txs, C.Touches taddr x → birth ≤ x.1 → x.1 ≤ through →
    ∃ t ∈ db.transactions.rows, t.account = account ∧ t.txid = x.2.txid ∧ t.height = x.1
  received : ∀ o height value, birth ≤ height → height ≤ through →
    (ReceivedAt db account taddr o height value ↔ C.Output taddr o height value)
  spent : ∀ o height value s, C.Output taddr o height value → birth ≤ height → s ≤ through →
    (SpentAt db account o s ↔ C.Spent o s)

theorem OnChain.receivedAt {db : Database H} (h : OnChain C db) {account height : ℕ}
    {taddr o : Bytes} {value : ℤ} {n : NoteRow H} (hn : HasNote db account o n)
    (ho : C.Output taddr o height value) : ReceivedAt db account taddr o height value := by
  obtain ⟨hnh, hnv⟩ := h.note_height hn ho
  obtain ⟨q, hq, hacc, hqid, hout⟩ := h.note n hn.1 o hn.2.2
  exact ⟨n, hn, hnh, hnv, q.idTaddress, hqid, q, hq, rfl, hacc.trans hn.2.1, (hout.unique ho).1⟩

theorem MarkersSound.historyExact {db : Database H} (hs : MarkersSound C derive db)
    {r : AddressRow} (hr : r ∈ db.addresses.rows) {through birth : ℕ}
    (hm : r.backfilledHeight = some through) (hb : db.getBirthHeight r.account = some birth) :
    HistoryExact C db r.account r.address birth through := by
  have hknown := hs.marked r hr through hm birth hb
  refine ⟨fun x hx htouch hbx hle => ?_, fun o height value hbh hle => ⟨?_, fun ho => ?_⟩,
    fun o height value s ho hbh hle => ⟨?_, fun hspent => ?_⟩⟩
  · obtain ⟨t, ht, hface⟩ := hknown.transactions x hx htouch hbx hle
    simp only [txFace, Prod.mk.injEq] at hface
    exact ⟨t, ht, hface⟩
  · rintro ⟨n, hn, rfl, rfl, id, hid, r', hr', rfl, -, haddr⟩
    obtain ⟨q, hq, -, hqid, hout⟩ := hs.onChain.note n hn.1 o hn.2.2
    obtain rfl := db.addresses.eq_of_clash hq hr' (.inl (Option.some.inj (hqid.symm.trans hid)))
    rwa [haddr] at hout
  · obtain ⟨n, hn⟩ := hknown.outputs o height value ho hbh hle
    exact hs.onChain.receivedAt hn ho
  · rintro ⟨n, hn, row, hrow, hid, rfl⟩
    obtain ⟨m, hm', hmid, -, -, hspent⟩ := hs.onChain.spend row hrow
    obtain rfl := db.notes.eq_of_clash hm' hn.1 (.inl (hmid.trans hid))
    exact hspent o hn.2.2
  · obtain ⟨n, hn, row, hrow, hid⟩ := hknown.spends o height value s ho hbh hspent hle
    exact ⟨n, hn, row, hrow, hid, (hs.onChain.spend_height hn ho hspent hrow hid).2⟩

theorem onChain_of_nothing {db : Database H} (hnotes : db.notes.rows = [])
    (hspends : db.spends.rows = []) (htx : db.transactions.rows = []) : OnChain C db where
  transaction t ht := by
    rw [htx] at ht
    exact absurd ht List.not_mem_nil
  note n hn := by
    rw [hnotes] at hn
    exact absurd hn List.not_mem_nil
  spend s hs := by
    rw [hspends] at hs
    exact absurd hs List.not_mem_nil
  pool n hn := by
    rw [hnotes] at hn
    exact absurd hn List.not_mem_nil

theorem fresh_sound {db : Database H} (hnotes : db.notes.rows = []) (hspends : db.spends.rows = [])
    (htx : db.transactions.rows = []) (hmarker : ∀ r ∈ db.addresses.rows, r.backfilledHeight = none)
    (hkeyed : Keyed derive db) : MarkersSound C derive db where
  onChain := onChain_of_nothing hnotes hspends htx
  keyed := hkeyed
  marked r hr m hm := by
    rw [hmarker r hr] at hm
    cases hm

/-! ### A payment that is spent above a trim -/

/-- The address `[5]` is paid at 10 and spent from at 20. -/
def spentChain : Chain where
  txs := [(10, paying 1), (20, spending 2 [1])]
  txid := by decide
  outs := by decide
  once x hx y hy h := by
    rcases List.mem_pair.1 hx with rfl | rfl <;> rcases List.mem_pair.1 hy with rfl | rfl
    · rfl
    · exact absurd h (by decide)
    · exact absurd h (by decide)
    · rfl
  spentOnce x hx i hi y hy z hz hoy hoz := by
    rcases List.mem_pair.1 hy with rfl | rfl
    · exact absurd hoy List.not_mem_nil
    · rcases List.mem_pair.1 hz with rfl | rfl
      · exact absurd hoz List.not_mem_nil
      · rfl
  spentLater := by decide

def spentEnv : Env where
  derive := fun _ _ => none
  taddressTxs taddr lo hi :=
    .stream (if taddr = [5] then spentChain.txs.filter fun x => lo ≤ x.1 ∧ x.1 ≤ hi else []) .closed
  block := fun height => .block [1] (1000 + height)
  setOrder := id

theorem spentChain_output {taddr o : Bytes} {height : ℕ} {value : ℤ}
    (h : spentChain.Output taddr o height value) : taddr = [5] := by
  obtain ⟨x, hx, out, i, hout, hpays, -⟩ := h
  rcases List.mem_pair.1 hx with rfl | rfl
  · have hmem := List.mem_of_getElem? hout
    rw [List.mem_singleton.1 hmem, Option.some.injEq] at hpays
    exact hpays.symm
  · exact absurd (List.mem_of_getElem? hout) List.not_mem_nil

theorem spentChain_touches {taddr : Bytes} {x : ℕ × TransparentTx} (hx : x ∈ spentChain.txs) :
    spentChain.Touches taddr x ↔ taddr = [5] := by
  constructor
  · rintro (⟨out, hout, hpays⟩ | ⟨o, -, height, value, ho⟩)
    · obtain ⟨i, hi⟩ := List.getElem?_of_mem hout
      exact spentChain_output ⟨x, hx, out, i, hi, hpays, rfl, rfl, rfl⟩
    · exact spentChain_output ho
  · rintro rfl
    rcases List.mem_pair.1 hx with rfl | rfl
    · exact .inl ⟨⟨some [5], 7⟩, List.mem_singleton.2 rfl, rfl⟩
    · exact .inr ⟨outpoint (sampleTxid 1) 0, List.mem_singleton.2 rfl, 10, 7,
        (10, paying 1), List.mem_cons_self, ⟨some [5], 7⟩, 0, rfl, rfl, rfl, rfl, rfl⟩

theorem spentEnv_honest : spentEnv.Honest spentChain := by
  intro taddr lo hi items hreply x
  obtain rfl := (Reply.stream.inj hreply).1
  split
  · rename_i heq
    simp only [List.mem_filter, decide_eq_true_eq, Chain.window, Set.mem_ofPred_eq]
    refine and_congr_right fun hx => ?_
    rw [spentChain_touches hx]
    exact ⟨fun h => ⟨heq, h⟩, fun h => h.2⟩
  · rename_i hne
    refine ⟨fun h => absurd h List.not_mem_nil, fun h => absurd ?_ hne⟩
    exact (spentChain_touches h.1).1 h.2.1

def spentDerive (_ : Owner) (scope dindex : ℕ) : Option Bytes :=
  if scope = 0 ∧ dindex = 0 then some [5] else none

def spentWallet : Shared ℕ where
  db := { (Database.empty : Database ℕ) with
    accounts := .singleton ⟨1, none, 0, 0, 5, true, none, false, false⟩
    addresses := .singleton ⟨1, 1, 0, 0, [5], none, false, none⟩
    syncHeights := .singleton ⟨1, 0, 30⟩ }
  crawls := fun _ => none

theorem spentWallet_sound : MarkersSound spentChain spentDerive spentWallet.db := by
  refine fresh_sound rfl rfl rfl (by decide) fun r hr acc hacc taddr htaddr => ?_
  obtain rfl := List.mem_singleton.1 hr
  exact Option.some.inj htaddr

def spentMoves : List (Move ℕ) :=
  [.begin 0 ⟨1, 30, 20, ⟨none, 0, 5, none, 0⟩, 5⟩ 0 0 [5] none, .window 0 spentEnv,
    .edit (.trim 1 15)]

theorem spentMoves_faithful :
    AllSteps move (Move.Faithful spentChain spentDerive) spentWallet spentMoves :=
  ⟨⟨rfl, rfl, nofun⟩, fun _ _ => ⟨spentEnv_honest, fun _ _ => ⟨trivial, fun _ _ => trivial⟩⟩⟩

theorem spentMoves_few (account : ℕ) : spentMoves.countP (Move.retires account) < 2 ^ 32 :=
  (List.countP_le_length ..).trans_lt (by decide)

/-- Whatever comes between, an address is known exactly from the birth of its account to its
    marker. -/
theorem marker_history_exact {s t : Shared H} {es : List (Move H)}
    (hs : MarkersSound C derive s.db) (hnone : ∀ w, s.crawls w = none)
    (hrun : run move s es = some t) (hfaithful : AllSteps move (Move.Faithful C derive) s es)
    (hfew : ∀ account, es.countP (Move.retires account) < 2 ^ 32) {r : AddressRow}
    (hr : r ∈ t.db.addresses.rows) {through birth : ℕ} (hm : r.backfilledHeight = some through)
    (hb : t.db.getBirthHeight r.account = some birth) :
    HistoryExact C t.db r.account r.address birth through :=
  (markers_run hs hnone hrun hfaithful hfew).historyExact hr hm hb

theorem spentMoves_run : (run move spentWallet spentMoves).map
    (fun t => (t.db.addresses.rows, t.db.getBirthHeight 1)) =
      some ([⟨1, 1, 0, 0, [5], some 15, true, none⟩], some 5) := rfl

theorem spentMoves_exact : ∃ t, run move spentWallet spentMoves = some t ∧
    HistoryExact spentChain t.db 1 [5] 5 15 := by
  obtain ⟨t, hrun, hfinal⟩ := Option.map_eq_some_iff.1 spentMoves_run
  obtain ⟨hrows, hbirth⟩ := Prod.mk.inj hfinal
  exact ⟨t, hrun, @marker_history_exact ℕ _ spentChain spentDerive spentWallet t spentMoves
    spentWallet_sound (fun _ => rfl) hrun spentMoves_faithful spentMoves_few
    ⟨1, 1, 0, 0, [5], some 15, true, none⟩ (hrows ▸ List.mem_singleton.2 rfl) 15 5 rfl hbirth⟩

theorem pass_known {db d : Database H} (hs : MarkersSound C derive db) {b : Backend}
    (hbackend : ∀ id lo hi, (b.env id lo hi).Honest C) {accounts : List ℕ} {start stop limit : ℕ}
    (hpass : transparentSync b accounts start stop limit db = (d, .ok ())) {account birth : ℕ}
    (hacc : account ∈ accounts) (hb : db.getBirthHeight account = some birth)
    (hbirth : birth ≤ stop) {v : Visit} (hv : v ∈ visits db limit account) {r : AddressRow}
    (hr : r ∈ db.addresses.rows) (hid : r.idTaddress = v.idTaddress)
    (hmarked : r.backfilledHeight ≠ none) :
    ∃ through, stop ≤ through ∧ HistoryExact C d account r.address birth through := by
  obtain ⟨hsound, hcarries, hdone⟩ := transparentSync_sound hbackend accounts start stop limit hs
  rw [hpass] at hsound hcarries hdone
  obtain ⟨hvacc, hstored⟩ := visits_stored hv
  obtain ⟨m, hm⟩ := Option.ne_none_iff_exists'.1 hmarked
  obtain ⟨r', hr', hid', m', hm', hle⟩ :=
    hdone rfl account hacc v hv r hr hid m hm birth (hvacc ▸ hb) hbirth
  obtain ⟨q, hq, ⟨hqid, hqacc, -, -, hqaddr⟩, -⟩ := hcarries.rows r hr
  obtain rfl := d.addresses.eq_of_clash hr' hq (.inl (hid'.trans (hid.symm.trans hqid.symm)))
  have hracc : r.account = account := by
    obtain ⟨p, hp, hpid, hpacc, -⟩ := hstored
    obtain rfl := db.addresses.eq_of_clash hr hp (.inl (hid.trans hpid.symm))
    exact hpacc.trans hvacc
  refine ⟨m', hle, ?_⟩
  rw [← hracc, ← hqacc, ← hqaddr]
  refine hsound.historyExact hr' hm' ?_
  rw [hcarries.birthHeight, hqacc, hracc, hb]

/-- A pass that succeeds leaves every address it visited known exactly up to its end, if the
    address had a marker. -/
theorem pass_completes {s t : Shared H} {es : List (Move H)} (hs : MarkersSound C derive s.db)
    (hnone : ∀ w, s.crawls w = none) (hrun : run move s es = some t)
    (hfaithful : AllSteps move (Move.Faithful C derive) s es)
    (hfew : ∀ account, es.countP (Move.retires account) < 2 ^ 32) {b : Backend}
    (hbackend : ∀ id lo hi, (b.env id lo hi).Honest C) {accounts : List ℕ} {start stop limit : ℕ}
    {d : Database H} (hpass : transparentSync b accounts start stop limit t.db = (d, .ok ()))
    {account birth : ℕ} (hacc : account ∈ accounts)
    (hb : t.db.getBirthHeight account = some birth) (hbirth : birth ≤ stop) {v : Visit}
    (hv : v ∈ visits t.db limit account) {r : AddressRow} (hr : r ∈ t.db.addresses.rows)
    (hid : r.idTaddress = v.idTaddress) (hmarked : r.backfilledHeight ≠ none) :
    ∃ through, stop ≤ through ∧ HistoryExact C d account r.address birth through :=
  pass_known (markers_run hs hnone hrun hfaithful hfew) hbackend hpass hacc hb hbirth hv hr hid
    hmarked

def knownWallet : Shared ℕ where
  db := { spentWallet.db with
    addresses := .singleton ⟨1, 1, 0, 0, [5], some 8, false, none⟩
    syncHeights := .singleton ⟨1, 0, 8⟩ }
  crawls := fun _ => none

theorem knownWallet_sound : MarkersSound spentChain spentDerive knownWallet.db where
  onChain := onChain_of_nothing rfl rfl rfl
  keyed r hr acc hacc taddr htaddr := by
    obtain rfl := List.mem_singleton.1 hr
    exact Option.some.inj htaddr
  marked r hr m hm birth hb := by
    obtain rfl := List.mem_singleton.1 hr
    obtain rfl := Option.some.inj hm
    -- everything on the chain is above 8
    have hlow {x : ℕ × TransparentTx} (hx : x ∈ spentChain.txs) : ¬ x.1 ≤ 8 := by
      rcases List.mem_pair.1 hx with rfl | rfl <;> decide
    refine ⟨fun x hx _ _ hle => absurd hle (hlow hx), fun o height value ho _ hle => ?_,
      fun o height value s _ _ hs hle => ?_⟩
    · obtain ⟨x, hx, -, rfl⟩ := ho.touches
      exact absurd hle (hlow hx)
    · obtain ⟨x, hx, -, rfl⟩ := hs
      exact absurd hle (hlow hx)

def spentBackend : Backend := ⟨fun _ _ _ => spentEnv, fun _ _ _ => false, fun _ => .ok [7]⟩

theorem spentBackend_ok :
    ∃ d, transparentSync spentBackend [1] 9 30 100 knownWallet.db = (d, .ok ()) := by
  have haddresses : [1].flatMap (visits knownWallet.db 100) = [⟨1, 1, [5]⟩] := rfl
  have hanchor (r : AnchorRead) : spentBackend.anchor r = .ok [7] := rfl
  have hwindows : ∃ d, passWindows spentBackend ⟨1, 1, [5]⟩ 5 30 9 9 22 knownWallet.db =
      (d, .ok ()) := by
    rw [passWindows]
    exact ⟨_, rfl⟩
  obtain ⟨d, hd⟩ := hwindows
  have hrange :
      syncAddressRange spentBackend ⟨1, 1, [5]⟩ 9 30 [7] knownWallet.db = (d, .ok ()) := hd
  have hall : syncAddresses spentBackend 9 30 [7] [⟨1, 1, [5]⟩] knownWallet.db = (d, .ok ()) := by
    rw [syncAddresses, hrange]
    rfl
  refine ⟨finishAccount 30 d 1, ?_⟩
  simp only [transparentSync, haddresses, List.isEmpty_cons, Bool.false_eq_true, if_false, hanchor,
    hall, ne_eq, not_true_eq_false]
  rfl

theorem spentBackend_completes : ∃ d,
    transparentSync spentBackend [1] 9 30 100 knownWallet.db = (d, .ok ()) ∧
      ∃ through, 30 ≤ through ∧ HistoryExact spentChain d 1 [5] 5 through := by
  obtain ⟨d, hd⟩ := spentBackend_ok
  exact ⟨d, hd, @pass_completes ℕ _ spentChain spentDerive knownWallet knownWallet []
    knownWallet_sound (fun _ => rfl) rfl trivial (fun _ => Nat.two_pow_pos 32) spentBackend
    (fun _ _ _ => spentEnv_honest) [1] 9 30 100 d hd 1 5 List.mem_cons_self rfl (by decide)
    ⟨1, 1, [5]⟩ (List.mem_singleton.2 rfl) ⟨1, 1, 0, 0, [5], some 8, false, none⟩
    (List.mem_singleton.2 rfl) rfl nofun⟩

end ZcashSdk.Discovery
