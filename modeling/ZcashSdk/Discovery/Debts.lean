import ZcashSdk.Discovery.Owed

set_option autoImplicit false

/-!
# Debts stay open until they are paid

What a window of a walk sees above the seam is dropped, and a trim deletes notes. The row of the
address owes its history up to there until its own marker gets there, and is visited by every
pass as long as it owes something. Only an account that is started over owes nothing: it is
walked again from its birth.
-/
namespace ZcashSdk.Discovery
open Tables Shielded Db Database Loops Runs

variable {H : Type} [DecidableEq H]

/-! ### What is dropped -/

def WalkArgs.rowId (a : WalkArgs) (db : Database H) : Option (ℕ × Bytes) :=
  db.transparentAddressRow a.account a.scope a.dindex

def WalkArgs.withRow (a : WalkArgs) (db : Database H) : Database H :=
  if (a.rowId db).isNone then a.store db else db

/-- The window is ingested into the row, and its reply has a transaction above the seam. -/
def Crawl.Drops (f : Crawl) (env : Env) (db : Database H) (id height : ℕ) : Prop :=
  f.lo ≤ f.stop ∧ accountIdentity db f.args.account = some f.identity ∧
    ∃ seam reply taddr all, db.accountSeam f.args.account = some seam ∧
      takeOrFetch env f.args f.lo f.hi seam f.first = .ok reply ∧
      ((f.args.rowId db).isSome = true ∨ reply.first.isSome = true) ∧
      f.args.rowId (f.args.withRow db) = some (id, taddr) ∧
      drainTransparentWindow f.args.taddr reply f.lo f.hi = .ok all ∧
      ∃ x ∈ all.transactions, x.2 = height ∧ seam < height

/-- The account that is trimmed, and the height; a rewind to a checkpoint is a trim too. -/
def Edit.trimmed (db : Database H) : Edit → Option (ℕ × ℕ)
  | .trim a h => some (a, h)
  | .rewind _ a h => (db.checkpointBefore a h).map fun prev => (a, prev)
  | _ => none

/-- The move drops something of the address with this row at a height: a transaction that lies above
    the seam, or a note that a trim deletes. -/
def Move.Drops (s : Shared H) (id height : ℕ) : Move H → Prop
  | .window w env => ∃ f, s.crawls w = some f ∧ f.Drops env s.db id height
  | .edit e => ∃ q r n, e.trimmed s.db = some q ∧ r ∈ s.db.addresses.rows ∧ r.idTaddress = id ∧
      n ∈ s.db.notes.rows ∧ n.taddress = some id ∧ n.pool = 0 ∧ n.height = height ∧
        above q.1 q.2 n.account n.height = true
  | _ => False

/-- Scopes are those of payments and of change. -/
def ScopesKnown (db : Database H) : Prop := ∀ r ∈ db.addresses.rows, r.scope ≤ 1

/-- Walks go over the two scopes, and no other address is stored. -/
def Move.Scoped : Move H → Prop
  | .begin _ _ scope _ _ _ => scope ≤ 1
  | .elsewhere d => ScopesKnown d
  | _ => True

/-- The account is reset, also for want of a checkpoint to go back to, or deleted. -/
def Edit.StartsOver (db : Database H) (account : ℕ) : Edit → Prop
  | .reset _ a => a = account
  | .rewind _ a h => a = account ∧ db.checkpointBefore a h = none
  | .delete a => a = account
  | _ => False

/-- The account of the row is not started over. Whatever else is written leaves the rows of
    addresses as they are. -/
def Move.SparesRow (id : ℕ) (s : Shared H) : Move H → Prop
  | .edit e => ∀ r ∈ s.db.addresses.rows, r.idTaddress = id → ¬ e.StartsOver s.db r.account
  | .elsewhere d => ∀ r ∈ s.db.addresses.rows, r ∈ d.addresses.rows
  | _ => True

/-! ### What becomes of a row -/

def Owes (db : Database H) (id height : ℕ) : Prop :=
  ∃ r ∈ db.addresses.rows, r.idTaddress = id ∧
    ∃ through, r.catchUpOwedThrough = some through ∧ height ≤ through

def CaughtUp (db : Database H) (id height : ℕ) : Prop :=
  ∃ r ∈ db.addresses.rows, r.idTaddress = id ∧ ∃ m, r.backfilledHeight = some m ∧ height ≤ m

/-- The row owes no less, or its marker has reached what it owed. -/
structure Served (r r' : AddressRow) : Prop extends SameAddress r r' where
  owed : ∀ through, r.catchUpOwedThrough = some through →
    (∃ through', r'.catchUpOwedThrough = some through' ∧ through ≤ through') ∨
      ∃ m, r'.backfilledHeight = some m ∧ through ≤ m

section Rows
variable {db d : Database H} {id height : ℕ}

theorem OwedNoLess.served {r r' : AddressRow} (h : OwedNoLess r r') : Served r r' :=
  ⟨h.toSameAddress, fun through howed => .inl (h.owed through howed)⟩

def Serves (id : ℕ) (db d : Database H) : Prop :=
  ∀ r ∈ db.addresses.rows, r.idTaddress = id → ∃ r' ∈ d.addresses.rows, Served r r'

theorem Retains.serves (h : Retains db d) (id : ℕ) : Serves id db d := fun r hr _ => by
  obtain ⟨r', hr', hless⟩ := h.rows r hr
  exact ⟨r', hr', hless.served⟩

theorem Amends.scopes (h : Amends db d) (hknown : ScopesKnown db) : ScopesKnown d :=
  fun r' hr' => by
    obtain ⟨r, hr, hsame⟩ := h.origin r' hr'
    exact hsame.scope.symm ▸ hknown r hr

theorem Retains.owes (h : Retains db d) (howes : Owes db id height) : Owes d id height := by
  obtain ⟨r, hr, rfl, through, howed, hle⟩ := howes
  obtain ⟨r', hr', hless⟩ := h.rows r hr
  obtain ⟨through', howed', hle'⟩ := hless.owed through howed
  exact ⟨r', hr', hless.idTaddress, through', howed', hle.trans hle'⟩

theorem Serves.owes (h : Serves id db d) (howes : Owes db id height) :
    Owes d id height ∨ CaughtUp d id height := by
  obtain ⟨r, hr, rfl, through, howed, hle⟩ := howes
  obtain ⟨r', hr', hserved⟩ := h r hr rfl
  rcases hserved.owed through howed with ⟨through', howed', hle'⟩ | ⟨m, hm, hle'⟩
  · exact .inl ⟨r', hr', hserved.idTaddress, through', howed', hle.trans hle'⟩
  · exact .inr ⟨r', hr', hserved.idTaddress, m, hm, hle.trans hle'⟩

/-- Settling debts at the end of a pass moves no marker. -/
theorem finished_rows (stop : ℕ) (accounts : List ℕ) (db : Database H) :
    ∀ r ∈ db.addresses.rows, ∃ r' ∈ (accounts.foldl (finishAccount stop) db).addresses.rows,
      SameAddress r r' ∧ r'.backfilledHeight = r.backfilledHeight ∧
        (r'.catchUpOwedThrough = r.catchUpOwedThrough ∨ ∃ through m,
          r.catchUpOwedThrough = some through ∧ r.backfilledHeight = some m ∧ through ≤ m) := by
  induction accounts generalizing db with
  | nil => exact fun r hr => ⟨r, hr, .refl r, rfl, .inl rfl⟩
  | cons a accounts ih =>
    intro r hr
    have hpaid : payDebt a r ∈ (finishAccount stop db a).addresses.rows := List.mem_map_of_mem hr
    obtain ⟨r', hr', hsame, hmarker, howed⟩ := ih (finishAccount stop db a) _ hpaid
    refine ⟨r', hr', ?_⟩
    by_cases h : r.account = a ∧ r.catchUpOwedThrough.any (fun through =>
        r.backfilledHeight.any fun m => through ≤ m)
    · rw [payDebt, if_pos h] at hsame hmarker
      obtain ⟨through, hthrough, hany⟩ := (Option.any_eq_true ..).1 h.2
      obtain ⟨m, hm, hle⟩ := (Option.any_eq_true ..).1 hany
      exact ⟨⟨hsame.1, hsame.2, hsame.3, hsame.4⟩, hmarker,
        .inr ⟨through, m, hthrough, hm, of_decide_eq_true hle⟩⟩
    · rw [payDebt, if_neg h] at hsame hmarker howed
      exact ⟨hsame, hmarker, howed⟩

theorem finished_scopes (stop : ℕ) (accounts : List ℕ) (hknown : ScopesKnown db) :
    ScopesKnown (accounts.foldl (finishAccount stop) db) := by
  refine foldl_inv (f := finishAccount (H := H) stop) (I := ScopesKnown) (fun d a _ hd r' hr' => ?_)
    hknown
  obtain ⟨r, hr, rfl⟩ := List.mem_map.1 hr'
  unfold payDebt
  split <;> exact hd r hr

/-- A pass amends, and then settles debts if it went well. -/
theorem transparentSync_settles (b : Backend) (accounts : List ℕ) (start stop limit : ℕ)
    (db : Database H) : ∃ (d : Database H) (settled : List ℕ), Amends db d ∧
      (transparentSync b accounts start stop limit db).1 = settled.foldl (finishAccount stop) d := by
  unfold transparentSync
  dsimp only
  split
  · exact ⟨db, [], .refl db, rfl⟩
  · split
    · exact ⟨db, [], .refl db, rfl⟩
    · rename_i anchor _
      have hamends := amends_syncAddresses b start stop anchor
        (accounts.flatMap (visits db limit)) db
      split
      · rename_i d f hwalk
        rw [hwalk] at hamends
        exact ⟨d, [], hamends, rfl⟩
      · rename_i d hwalk
        rw [hwalk] at hamends
        split
        · exact ⟨d, [], hamends, rfl⟩
        · split
          · exact ⟨d, [], hamends, rfl⟩
          · exact ⟨d, _, hamends, rfl⟩

theorem transparentSync_serves (b : Backend) (accounts : List ℕ) (start stop limit : ℕ)
    (db : Database H) : Serves id db (transparentSync b accounts start stop limit db).1 := by
  intro r hr _
  obtain ⟨d, settled, hamends, heq⟩ := transparentSync_settles b accounts start stop limit db
  rw [heq]
  obtain ⟨r₁, hr₁, hless⟩ := hamends.rows r hr
  obtain ⟨r₂, hr₂, hsame, hmarker, howed⟩ := finished_rows stop settled d r₁ hr₁
  refine ⟨r₂, hr₂, hless.toSameAddress.trans hsame, fun through hthrough => ?_⟩
  obtain ⟨through₁, hthrough₁, hle⟩ := hless.owed through hthrough
  rcases howed with howed | ⟨through₂, m, hthrough₂, hm, hreached⟩
  · exact .inl ⟨through₁, howed.trans hthrough₁, hle⟩
  · obtain rfl : through₁ = through₂ := Option.some.inj (hthrough₁.symm.trans hthrough₂)
    exact .inr ⟨m, hmarker.trans hm, hle.trans hreached⟩

theorem transparentSync_scopes (b : Backend) (accounts : List ℕ) (start stop limit : ℕ)
    (hknown : ScopesKnown db) :
    ScopesKnown (transparentSync b accounts start stop limit db).1 := by
  obtain ⟨d, settled, hamends, heq⟩ := transparentSync_settles b accounts start stop limit db
  rw [heq]
  exact finished_scopes stop settled (hamends.scopes hknown)

/-! ### Going back -/

theorem trim_row (a h : ℕ) {r : AddressRow} (hr : r ∈ db.addresses.rows) :
    ∃ r' ∈ (db.trimSyncData a h).addresses.rows, OwedNoLess r r' :=
  ⟨_, List.mem_map_of_mem (List.mem_map_of_mem hr), owedNoLess_trim db a h r⟩

theorem trim_scopes (a h : ℕ) (hknown : ScopesKnown db) : ScopesKnown (db.trimSyncData a h) := by
  intro r' hr'
  obtain ⟨q, hq, rfl⟩ := List.mem_map.1 hr'
  obtain ⟨r, hr, rfl⟩ := List.mem_map.1 hq
  exact (owedNoLess_trim db a h r).scope.symm ▸ hknown r hr

/-- A reset forgets the debts of the account that is reset, and no others. -/
theorem reset_row {network : Network} {a : ℕ} (h : db.resetSync network a = .ok d) {r : AddressRow}
    (hr : r ∈ db.addresses.rows) (hne : a ≠ r.account) :
    ∃ r' ∈ d.addresses.rows, OwedNoLess r r' := by
  unfold resetSync at h
  split at h
  · cases h
  · cases h
    obtain ⟨r', hr', hless⟩ := trim_row a 0 hr
    refine ⟨r', ?_, hless⟩
    have hcleared : (if r'.account = a then { r' with catchUpOwedThrough := none } else r') ∈
        ((db.trimSyncData a 0).clearCatchUpDebts a).addresses.rows := List.mem_map_of_mem hr'
    rwa [if_neg fun heq => hne (heq.symm.trans hless.account)] at hcleared

theorem reset_scopes {network : Network} {a : ℕ} (h : db.resetSync network a = .ok d)
    (hknown : ScopesKnown db) : ScopesKnown d := by
  unfold resetSync at h
  split at h
  · cases h
  · cases h
    intro r' hr'
    obtain ⟨r, hr, rfl⟩ := List.mem_map.1 hr'
    split <;> exact trim_scopes a 0 hknown r hr

/-- A rewind goes back to a checkpoint as a trim does, or resets the account. -/
theorem rewind_addresses {network : Network} {a h : ℕ} (hrewind : db.rewindSync network a h = .ok d) :
    (∃ prev, db.checkpointBefore a h = some prev ∧
      d.addresses = (db.trimSyncData a prev).addresses) ∨
    db.checkpointBefore a h = none ∧
      ∃ back, db.resetSync network a = .ok back ∧ d.addresses = back.addresses := by
  unfold rewindSync at hrewind
  obtain ⟨back, hgone, hback⟩ := bind_eq_ok.1 hrewind
  cases hback
  unfold goBack at hgone
  split at hgone
  · rename_i prev hprev
    cases hgone
    exact .inl ⟨prev, hprev, rfl⟩
  · rename_i hnone
    exact .inr ⟨hnone, back, hgone, rfl⟩

theorem edit_row {e : Edit} (h : e.apply db = some d) {r : AddressRow} (hr : r ∈ db.addresses.rows)
    (hspares : ¬ e.StartsOver db r.account) : ∃ r' ∈ d.addresses.rows, OwedNoLess r r' := by
  cases e with
  | trim a h' =>
    cases h
    exact trim_row a h' hr
  | reset network a => exact reset_row (ok_of_toOption h) hr hspares
  | rewind network a h' =>
    rcases rewind_addresses (ok_of_toOption h) with ⟨prev, -, heq⟩ | ⟨hnone, back, hreset, heq⟩
    · rw [heq]
      exact trim_row a prev hr
    · rw [heq]
      exact reset_row hreset hr fun hacc => hspares ⟨hacc, hnone⟩
  | delete a =>
    cases h
    exact ⟨r, Table.mem_deleteWhere.2 ⟨hr, decide_eq_false (Ne.symm hspares)⟩, .refl r⟩
  | birth a b =>
    cases h
    refine ⟨_, List.mem_map_of_mem hr, ?_⟩
    split <;> exact .of_same ⟨rfl, rfl, rfl, rfl⟩ rfl

theorem edit_scopes {e : Edit} (h : e.apply db = some d) (hknown : ScopesKnown db) :
    ScopesKnown d := by
  cases e with
  | trim a h' =>
    cases h
    exact trim_scopes a h' hknown
  | reset network a => exact reset_scopes (ok_of_toOption h) hknown
  | rewind network a h' =>
    unfold ScopesKnown
    rcases rewind_addresses (ok_of_toOption h) with ⟨prev, -, heq⟩ | ⟨-, back, hreset, heq⟩
    · rw [heq]
      exact trim_scopes a prev hknown
    · rw [heq]
      exact reset_scopes hreset hknown
  | delete a =>
    cases h
    exact fun r hr => hknown r (Table.mem_deleteWhere.1 hr).1
  | birth a b =>
    cases h
    intro r' hr'
    obtain ⟨r, hr, rfl⟩ := List.mem_map.1 hr'
    split <;> exact hknown r hr

theorem trimmed_addresses {e : Edit} {q : ℕ × ℕ} (hq : e.trimmed db = some q)
    (h : e.apply db = some d) : d.addresses = (db.trimSyncData q.1 q.2).addresses := by
  cases e with
  | trim a h' =>
    cases hq
    cases h
    rfl
  | rewind network a h' =>
    obtain ⟨prev, hprev, rfl⟩ := Option.map_eq_some_iff.1 hq
    rcases rewind_addresses (ok_of_toOption h) with ⟨prev', hprev', heq⟩ | ⟨hnone, -⟩
    · obtain rfl := Option.some.inj (hprev.symm.trans hprev')
      exact heq
    · rw [hprev] at hnone
      cases hnone
  | reset network a => cases hq
  | delete a => cases hq
  | birth a b => cases hq

/-! ### What a window drops -/

variable {f : Crawl} {env : Env} {p : Progress} {a : WalkArgs}

theorem store_scopes (hscope : a.scope ≤ 1) (hknown : ScopesKnown db) : ScopesKnown (a.store db) :=
  fun r hr => by
    rcases Table.mem_insertOrIgnore.1 hr with hr | ⟨rfl, -⟩
    · exact hknown r hr
    · exact hscope

theorem Crawl.next_scopes (hscope : f.args.scope ≤ 1) (env : Env) (hknown : ScopesKnown db) :
    ScopesKnown (f.next env db).1 := by
  unfold Crawl.next
  split
  · obtain ⟨d, rfl | rfl, hamends⟩ :=
      walkWindow_amends env f.args f.identity db f.progress f.markerLo f.lo f.hi f.first
    · exact hamends.scopes hknown
    · exact hamends.scopes (store_scopes hscope hknown)
  · exact hknown

/-- A window that drops something is ingested into the row of its candidate. -/
theorem Crawl.Drops.ingested (h : f.Drops env db id height) :
    ∃ (d : Database H) (r : AddressRow) (seam : ℕ) (reply : Fetched) (all : WindowRows),
      r ∈ d.addresses.rows ∧ r.idTaddress = id ∧
        drainTransparentWindow f.args.taddr reply f.lo f.hi = .ok all ∧
        (∃ x ∈ all.transactions, x.2 = height ∧ seam < height) ∧
        (f.next env db).1 = (ingestBackfillWindow env f.args d id f.markerLo f.lo f.hi seam reply
          (f.args.intact db f.progress)).1 := by
  obtain ⟨hle, hid, seam, reply, taddr, all, hseam, hreply, hfound, hrow, hdrain, habove⟩ := h
  obtain ⟨r, hr, -, heq⟩ := transparentAddressRow_iff.1 hrow
  refine ⟨f.args.withRow db, r, seam, reply, all, hr, (Prod.mk.inj heq).1, hdrain, habove, ?_⟩
  rw [Crawl.next_of_le hle]
  unfold WalkArgs.rowId at hrow hfound
  unfold WalkArgs.withRow WalkArgs.rowId WalkArgs.store at hrow ⊢
  have hasked : ¬ ((db.transparentAddressRow f.args.account f.args.scope f.args.dindex).isNone &&
      !reply.first.isSome) = true := by
    simp only [Bool.and_eq_true, Bool.not_eq_true', Option.isNone_iff_eq_none]
    rintro ⟨hnone, hempty⟩
    rcases hfound with hfound | hfound
    · rw [hnone] at hfound
      cases hfound
    · rw [hempty] at hfound
      cases hfound
  unfold Crawl.outcome walkWindow
  simp only [hid, hseam, hreply, hrow, ne_eq, not_true_eq_false, if_false, if_neg hasked]
  rfl

theorem Crawl.Drops.owes (h : f.Drops env db id height) : Owes (f.next env db).1 id height := by
  obtain ⟨d, r, seam, reply, all, hr, hid, hdrain, ⟨x, hx, rfl, habove⟩, hnext⟩ := h.ingested
  rw [hnext]
  refine (ingest_amends hdrain).owes ?_
  obtain ⟨through, hthrough, hle⟩ := WindowRows.le_owedThrough hx habove
  obtain ⟨r₁, hr₁, hless⟩ := (amends_write d f.args.account id (all.atOrBelow seam)
    (!all.transactions.isEmpty)).rows r hr
  have hid₁ : r₁.idTaddress = id := hless.idTaddress.trans hid
  obtain ⟨r₂, hr₂, hsame, through', howed, hle'⟩ := raiseOwed_row hr₁ hid₁ through
  rw [hthrough]
  exact ⟨r₂, hr₂, hsame.idTaddress.trans hid₁, through', howed, hle.trans hle'⟩

end Rows

/-! ### Every run -/

structure ScopesHeld (s : Shared H) : Prop where
  rows : ScopesKnown s.db
  crawls : ∀ w f, s.crawls w = some f → f.args.scope ≤ 1

section Moves
variable {s t u v : Shared H} {e : Move H} {es es' : List (Move H)} {id height : ℕ}

theorem move_serves (hspares : e.SparesRow id s) (h : move s e = some t) :
    Serves id s.db t.db := by
  cases e with
  | begin w a scope dindex taddr asked =>
    simp only [move] at h
    split at h
    · cases h
      exact (Amends.refl s.db).serves id
    · cases h
  | window w env =>
    obtain ⟨f, hf, rfl⟩ := Option.map_eq_some_iff.1 h
    exact (f.next_retains env s.db).serves id
  | abandon w =>
    cases h
    exact (Amends.refl s.db).serves id
  | pass b accounts start stop limit =>
    cases h
    exact transparentSync_serves b accounts start stop limit s.db
  | edit e =>
    obtain ⟨d, hd, rfl⟩ := Option.map_eq_some_iff.1 h
    intro r hr hid
    obtain ⟨r', hr', hless⟩ := edit_row hd hr (hspares r hr hid)
    exact ⟨r', hr', hless.served⟩
  | elsewhere d =>
    cases h
    exact fun r hr _ => ⟨r, hspares r hr, (OwedNoLess.refl r).served⟩

theorem move_scopes (hs : ScopesHeld s) (hscoped : e.Scoped) (h : move s e = some t) :
    ScopesHeld t := by
  cases e with
  | begin w' a scope dindex taddr asked =>
    simp only [move] at h
    split at h
    · cases h
      refine ⟨hs.rows, fun w f hf => ?_⟩
      rcases setCrawl_crawls hf with ⟨-, hf⟩ | ⟨-, hf⟩
      · cases hf
        exact hscoped
      · exact hs.crawls w f hf
    · cases h
  | window w' env =>
    obtain ⟨g, hg, rfl⟩ := Option.map_eq_some_iff.1 h
    have hscope := hs.crawls w' g hg
    refine ⟨Crawl.next_scopes hscope env hs.rows, fun w f hf => ?_⟩
    rcases setCrawl_crawls hf with ⟨-, hf⟩ | ⟨-, hf⟩
    · exact (Crawl.next_args hf).symm ▸ hscope
    · exact hs.crawls w f hf
  | abandon w' =>
    cases h
    refine ⟨hs.rows, fun w f hf => ?_⟩
    rcases setCrawl_crawls hf with ⟨-, hf⟩ | ⟨-, hf⟩
    · cases hf
    · exact hs.crawls w f hf
  | pass b accounts start stop limit =>
    cases h
    exact ⟨transparentSync_scopes b accounts start stop limit hs.rows, hs.crawls⟩
  | edit e =>
    obtain ⟨d, hd, rfl⟩ := Option.map_eq_some_iff.1 h
    exact ⟨edit_scopes hd hs.rows, hs.crawls⟩
  | elsewhere d =>
    cases h
    exact ⟨hscoped, hs.crawls⟩

/-- What a move drops, it owes. -/
theorem move_drops (hdrops : e.Drops s id height) (h : move s e = some t) :
    Owes t.db id height := by
  cases e with
  | window w env =>
    obtain ⟨f, hf, hdrops⟩ := hdrops
    obtain ⟨f', hf', rfl⟩ := Option.map_eq_some_iff.1 h
    obtain rfl := Option.some.inj (hf.symm.trans hf')
    exact hdrops.owes
  | edit e =>
    obtain ⟨q, r, n, hq, hr, rfl, hn, hid, hpool, rfl, hdeleted⟩ := hdrops
    obtain ⟨d, hd, rfl⟩ := Option.map_eq_some_iff.1 h
    obtain ⟨through, howed, hle⟩ := trim_raises hn hid hpool hdeleted
    refine ⟨_, ?_, (owedNoLess_trim s.db q.1 q.2 r).idTaddress, through, howed, hle⟩
    change _ ∈ d.addresses.rows
    rw [trimmed_addresses hq hd]
    exact List.mem_map_of_mem (List.mem_map_of_mem hr)
  | _ => exact hdrops.elim

theorem run_scopes (hs : ScopesHeld s) (hrun : run move s es = some t)
    (hscoped : ∀ m ∈ es, m.Scoped) : ScopesHeld t := by
  induction es generalizing s with
  | nil =>
    rw [run_nil, Option.some.injEq] at hrun
    exact hrun ▸ hs
  | cons e es ih =>
    obtain ⟨u, hu, hr⟩ := (run_cons_some move).1 hrun
    exact ih (move_scopes hs (hscoped e List.mem_cons_self) hu) hr
      fun m hm => hscoped m (List.mem_cons_of_mem e hm)

/-- A pass asks for the address as long as it owes something. -/
theorem owing_visited {db : Database H} (hknown : ScopesKnown db) {r : AddressRow}
    (hr : r ∈ db.addresses.rows) (howes : r.catchUpOwedThrough ≠ none) (limit : ℕ) :
    (r.idTaddress, r.address) ∈ db.transparentAddressesToScan r.account limit := by
  refine mem_transparentAddressesToScan limit hr rfl ?_
  rcases Nat.le_one_iff_eq_zero_or_eq_one.1 (hknown r hr) with hscope | hscope
  · exact .inl hscope
  · exact .inr ⟨hscope, Option.isSome_iff_ne_none.2 howes⟩

/-- What is dropped is owed until the marker of the address has got there, as long as its account is
    not started over, and addresses that owe something are asked for. -/
theorem debt_never_lost (hs : ScopesHeld s) (hrun : run move s es = some t)
    (hstep : move t e = some u) (hdrops : e.Drops t id height) (hlater : run move u es' = some v)
    (hscoped : ∀ m ∈ es ++ e :: es', m.Scoped)
    (hspares : AllSteps move (Move.SparesRow id) u es') :
    (Owes v.db id height ∨ ∃ fs gs w, es' = fs ++ gs ∧ run move u fs = some w ∧
      CaughtUp w.db id height) ∧
    ∀ r ∈ v.db.addresses.rows, r.catchUpOwedThrough ≠ none → ∀ limit,
      (r.idTaddress, r.address) ∈ v.db.transparentAddressesToScan r.account limit := by
  have hwhole : run move s (es ++ e :: es') = some v :=
    (run_append move).2 ⟨t, hrun, (run_cons_some move).2 ⟨u, hstep, hlater⟩⟩
  have hv := run_scopes hs hwhole hscoped
  refine ⟨?_, fun r hr howes limit => owing_visited hv.rows hr howes limit⟩
  exact run_until move (fun _ _ _ howes hspares h => (move_serves hspares h).owes howes)
    (move_drops hdrops hstep) hspares hlater

end Moves

theorem probe_drops {t : Shared ℕ} (h : run move knownWallet [probe] = some t) :
    (Move.window 0 spentEnv).Drops t 1 10 := by
  cases h
  refine ⟨_, rfl, by decide, rfl, 8, _, [5], _, rfl, rfl, .inl rfl, rfl, rfl, (sampleTxid 1, 10),
    List.mem_cons_self, rfl, by decide⟩

theorem probe_debt : ∃ t u v, run move knownWallet [probe] = some t ∧
    move t (.window 0 spentEnv) = some u ∧ run move u [.edit (.trim 1 7)] = some v ∧
      (Owes v.db 1 10 ∨ ∃ fs gs w, [.edit (.trim 1 7)] = fs ++ gs ∧ run move u fs = some w ∧
        CaughtUp w.db 1 10) ∧
      ∀ r ∈ v.db.addresses.rows, r.catchUpOwedThrough ≠ none → ∀ limit,
        (r.idTaddress, r.address) ∈ v.db.transparentAddressesToScan r.account limit := by
  refine ⟨_, _, _, rfl, rfl, rfl, ?_⟩
  refine @debt_never_lost ℕ _ knownWallet _ _ _ (.window 0 spentEnv) [probe] [.edit (.trim 1 7)] 1
    10 ⟨?_, nofun⟩ rfl rfl (probe_drops rfl) rfl ?_ ⟨fun _ _ _ => id, fun _ _ => trivial⟩
  · intro r hr
    obtain rfl := List.mem_singleton.1 hr
    exact Nat.zero_le 1
  · intro m hm
    fin_cases hm
    · exact Nat.zero_le 1
    · trivial
    · trivial

/-- A rewind that finds no checkpoint resets the account: the debt is gone, and the marker is not
    there. -/
theorem rewind_forgets : ∃ t u v, run move knownWallet [probe] = some t ∧
    (Move.window 0 spentEnv).Drops t 1 10 ∧ move t (.window 0 spentEnv) = some u ∧
      Owes u.db 1 10 ∧ move u (.edit (.rewind ⟨0, 0, none⟩ 1 6)) = some v ∧
        ¬ Owes v.db 1 10 ∧ ¬ CaughtUp u.db 1 10 ∧ ¬ CaughtUp v.db 1 10 := by
  refine ⟨_, _, _, rfl, probe_drops rfl, rfl, move_drops (probe_drops rfl) rfl, rfl, ?_, ?_, ?_⟩
  · rintro ⟨r, hr, -, through, howed, -⟩
    obtain rfl := List.mem_singleton.1 hr
    cases howed
  · rintro ⟨r, hr, -, m, hm, hle⟩
    obtain rfl := List.mem_singleton.1 hr
    obtain rfl := Option.some.inj hm
    exact absurd hle (by decide)
  · rintro ⟨r, hr, -, m, hm, hle⟩
    obtain rfl := List.mem_singleton.1 hr
    obtain rfl := Option.some.inj hm
    exact absurd hle (by decide)

end ZcashSdk.Discovery
