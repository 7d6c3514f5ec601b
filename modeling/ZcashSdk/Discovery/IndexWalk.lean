import ZcashSdk.Discovery.Frame

set_option autoImplicit false

/-!
# One index at a time

The walk as it is meant: each index is planned, asked for and ingested before the next is
looked at. A batch does the same steps, since planning an index reads nothing that the
walk of another index changes.
-/
namespace ZcashSdk.Discovery
open Tables Shielded Db Database

variable {H : Type} [DecidableEq H]

/-! ### What planning reads -/

/-- Addresses are stored under the index they are derived from, and the notes of addresses are
    transparent. -/
structure Derived (env : Env) (account : ℕ) (db : Database H) : Prop where
  address : ∀ r ∈ db.addresses.rows, r.account = account →
    ∀ j, env.derive r.scope j = some r.address → r.dindex = j
  transparent : ∀ n ∈ db.notes.rows, n.taddress ≠ none → n.pool = 0

/-- Different indexes have different addresses, and there are `2 ^ 31` of them. -/
structure Env.Lawful (env : Env) : Prop where
  injective : ∀ scope i j taddr, env.derive scope i = some taddr →
    env.derive scope j = some taddr → i = j
  bound : ∀ scope i, 2 ^ 31 ≤ i → env.derive scope i = none

section Frame
variable {env : Env} {w : WalkArgs} {db d : Database H}

theorem Derived.kept (hlaw : env.Lawful) (h : Derived env w.account db) (hu : Untouched w db d)
    (htaddr : env.derive w.scope w.dindex = some w.taddr) : Derived env w.account d where
  address r hr hacc j hj := by
    by_cases hrow : w.IsRow r
    · rcases hu.address r hr hrow with heq | ⟨s, hs, hsrow, heq⟩
      · rw [hrow.2.1, heq] at hj
        exact hrow.2.2.trans (hlaw.injective _ _ _ _ htaddr hj)
      · rw [← heq, hrow.2.1, ← hsrow.2.1] at hj
        rw [hrow.2.2, ← hsrow.2.2]
        exact h.address s hs hsrow.1 j hj
    · exact h.address r ((hu.others r hrow).1 hr) hacc j hj
  transparent n hn hne := by
    rcases hu.newNotes n hn with hn | ⟨hpool, -⟩
    · exact h.transparent n hn hne
    · exact hpool

theorem accountIdentity_kept (hu : Untouched w db d) (account : ℕ) :
    accountIdentity d account = accountIdentity db account := by
  simp only [accountIdentity, accountRow, hu.accounts, hu.incarnation]

theorem accountSeam_kept (hu : Untouched w db d) (account : ℕ) :
    d.accountSeam account = db.accountSeam account := by
  simp only [accountSeam, heights, hu.syncHeights]

theorem transparentBackfilledHeight_of_mem {r : AddressRow} (hr : r ∈ db.addresses.rows) :
    db.transparentBackfilledHeight r.idTaddress = r.backfilledHeight := by
  unfold transparentBackfilledHeight
  rw [(db.addresses.find?_eq_some fun x hx y hy hpx hpy => ?_).2 ⟨hr, decide_eq_true rfl⟩]
  · rfl
  · simp only [decide_eq_true_eq] at hpx hpy
    exact db.addresses.eq_of_clash hx hy (Or.inl (hpx.trans hpy.symm))

/-- The notes alone say whether an address is used; a spend only adds that of a note. -/
theorem transparentAddressIsUsed_iff {account : ℕ} (h : Derived env account db) {taddr : Bytes} :
    db.transparentAddressIsUsed account taddr = true ↔ ∃ r ∈ db.addresses.rows,
      (r.account = account ∧ r.address = taddr) ∧ (r.seenUsed = true ∨
        ∃ n ∈ db.notes.rows, n.account = r.account ∧ n.taddress = some r.idTaddress) := by
  simp only [transparentAddressIsUsed, List.any_eq_true, decide_eq_true_eq, and_assoc]
  refine exists_congr fun r => and_congr_right fun hr => and_congr_right fun hacc =>
    and_congr_right fun haddr => or_congr_right ?_
  constructor
  · rintro (⟨n, hn, -, hna, hnt⟩ | ⟨s, -, -, n, hn, -, -, hna, hnt⟩)
    · exact ⟨n, hn, hna, hnt⟩
    · exact ⟨n, hn, hna, hnt⟩
  · rintro ⟨n, hn, hna, hnt⟩
    exact Or.inl ⟨n, hn, h.transparent n hn (by rw [hnt]; exact Option.some_ne_none _), hna, hnt⟩

theorem transparentAddressIsUsed_kept (h : Derived env w.account db) (hd : Derived env w.account d)
    (hu : Untouched w db d) {taddr : Bytes}
    (hother : ∀ r, (r ∈ db.addresses.rows ∨ r ∈ d.addresses.rows) → w.IsRow r → r.address ≠ taddr) :
    d.transparentAddressIsUsed w.account taddr = db.transparentAddressIsUsed w.account taddr := by
  rw [Bool.eq_iff_iff, transparentAddressIsUsed_iff h, transparentAddressIsUsed_iff hd]
  constructor
  · rintro ⟨r, hr, hkey, hused⟩
    have hrow : ¬ w.IsRow r := fun hrow => hother r (Or.inr hr) hrow hkey.2
    refine ⟨r, (hu.others r hrow).1 hr, hkey, hused.imp_right ?_⟩
    rintro ⟨n, hn, hna, hnt⟩
    rcases hu.newNotes n hn with hn | ⟨-, s, hs, hsrow, hsid⟩
    · exact ⟨n, hn, hna, hnt⟩
    · -- a new note is bound to the walked row
      have hid : r.idTaddress = s.idTaddress := Option.some.inj (hnt.symm.trans hsid)
      exact absurd (d.addresses.eq_of_clash hr hs (Or.inl hid) ▸ hsrow) hrow
  · rintro ⟨r, hr, hkey, hused⟩
    have hrow : ¬ w.IsRow r := fun hrow => hother r (Or.inl hr) hrow hkey.2
    refine ⟨r, (hu.others r hrow).2 hr, hkey, hused.imp_right ?_⟩
    rintro ⟨n, hn, hna, hnt⟩
    exact ⟨n, hu.notes n hn, hna, hnt⟩

theorem candidateStart_kept (a : DiscoveryArgs) (hacc : w.account = a.account)
    (h : Derived env a.account db) (hd : Derived env a.account d) (hu : Untouched w db d) {j : ℕ}
    (hj : j ≠ w.dindex) {taddr : Bytes} (htaddr : env.derive w.scope j = some taddr) :
    candidateStart a d w.scope j taddr = candidateStart a db w.scope j taddr := by
  have hrow : d.transparentAddressRow a.account w.scope j =
      db.transparentAddressRow a.account w.scope j := by
    refine Option.ext fun row => ?_
    rw [transparentAddressRow_iff, transparentAddressRow_iff]
    refine exists_congr fun r => ?_
    constructor
    · rintro ⟨hr, hkey, heq⟩
      exact ⟨(hu.others r fun hrow => hj (hkey.2.2.symm.trans hrow.2.2)).1 hr, hkey, heq⟩
    · rintro ⟨hr, hkey, heq⟩
      exact ⟨(hu.others r fun hrow => hj (hkey.2.2.symm.trans hrow.2.2)).2 hr, hkey, heq⟩
  have hused : d.transparentAddressIsUsed a.account taddr =
      db.transparentAddressIsUsed a.account taddr := by
    rw [← hacc] at h hd ⊢
    refine transparentAddressIsUsed_kept h hd hu ?_
    rintro r (hr | hr) hrow heq
    · refine hj (Eq.trans ?_ hrow.2.2)
      exact (h.address r hr hrow.1 j (by rw [hrow.2.1, heq]; exact htaddr)).symm
    · refine hj (Eq.trans ?_ hrow.2.2)
      exact (hd.address r hr hrow.1 j (by rw [hrow.2.1, heq]; exact htaddr)).symm
  unfold candidateStart
  rw [accountIdentity_kept hu, accountSeam_kept hu, hrow, hused]
  split
  · rfl
  · split
    · rfl
    · split
      · rename_i row hfound
        obtain ⟨r, hr, hkey, rfl⟩ := transparentAddressRow_iff.1 hfound
        have hr' := (hu.others r fun hrow => hj (hkey.2.2.symm.trans hrow.2.2)).2 hr
        rw [transparentBackfilledHeight_of_mem hr, transparentBackfilledHeight_of_mem hr']
      · rfl

end Frame

/-! ### A reply asked for ahead -/

section First
variable {env : Env} {w : WalkArgs} {identity : AccountIdentity} {db : Database H}

theorem walkWindow_first {p : Progress} {markerLo lo hi seam : ℕ} {f : Fetched}
    (hseam : db.accountSeam w.account = some seam)
    (hf : fetchWindow env w.taddr lo hi seam = .ok f) :
    walkWindow env w identity db p markerLo lo hi (some f) =
      walkWindow env w identity db p markerLo lo hi none := by
  have htake : takeOrFetch env w lo hi seam (some f) = takeOrFetch env w lo hi seam none := by
    unfold takeOrFetch
    dsimp only
    rw [hf, ite_self]
  unfold walkWindow
  simp only [hseam, htake]

theorem walkCandidate_first {row : Option (ℕ × Bytes)} {lo backfillEnd seam : ℕ} {f : Fetched}
    (hlo : lo ≤ backfillEnd) (hseam : db.accountSeam w.account = some seam)
    (hf : fetchWindow env w.taddr lo backfillEnd seam = .ok f) :
    walkCandidate env w identity row lo backfillEnd (some f) db =
      walkCandidate env w identity row lo backfillEnd none db := by
  have hhi : min (lo + (backfillEnd - lo + 1 - 1)) backfillEnd = backfillEnd := by omega
  unfold walkCandidate
  rw [walkWindows, walkWindows, if_pos hlo, if_pos hlo, hhi]
  dsimp only
  rw [walkWindow_first hseam hf]

end First

/-! ### The walk index by index -/

section Index
variable (env : Env) (a : DiscoveryArgs) (scope : ℕ) (storedThrough : Option ℕ)

def walkIndex (s : WalkState H) : Outcome (WalkState H) H :=
  match planEntry env a scope s.db s.dindex with
  | .error f => (.error f, s.db)
  | .ok entry => ingestEntry env a scope s entry none

inductive IndexSteps : ℕ → WalkState H → WalkState H → Prop
  | refl (s : WalkState H) : IndexSteps 0 s s
  | next (n : ℕ) (s u t : WalkState H) (d : Database H)
      (h : continues a storedThrough s.gap s.dindex = true)
      (step : walkIndex env a scope s = (.ok u, d)) (rest : IndexSteps n u t) :
      IndexSteps (n + 1) s t

/-- Where the loop ends: it goes on to no index, or to one that fails. -/
inductive Ends (t : WalkState H) : Outcome (WalkState H) H → Prop
  | stop (h : continues a storedThrough t.gap t.dindex = false) : Ends t (.ok t, t.db)
  | fail (f : Failure) (d : Database H) (h : continues a storedThrough t.gap t.dindex = true)
      (step : walkIndex env a scope t = (.error f, d)) : Ends t (.error f, d)

def IndexWalk (n : ℕ) (s : WalkState H) (o : Outcome (WalkState H) H) : Prop :=
  ∃ t, IndexSteps env a scope storedThrough n s t ∧ Ends env a scope storedThrough t o

end Index

section Facts
variable {env : Env} {a : DiscoveryArgs} {scope : ℕ} {storedThrough : Option ℕ}
  {s t u : WalkState H} {o o' : Outcome (WalkState H) H} {n m : ℕ}

theorem IndexSteps.trans (h : IndexSteps env a scope storedThrough n s t)
    (h' : IndexSteps env a scope storedThrough m t u) :
    IndexSteps env a scope storedThrough (n + m) s u := by
  induction h with
  | refl s => rwa [Nat.zero_add]
  | next n s v t d hc step rest ih =>
    rw [Nat.succ_add]
    exact .next _ s v u d hc step (ih h')

theorem Ends.det (h : Ends env a scope storedThrough t o) (h' : Ends env a scope storedThrough t o') :
    o = o' := by
  cases h with
  | stop hc =>
    cases h' with
    | stop hc' => rfl
    | fail f d hc' step =>
      rw [hc] at hc'
      cases hc'
  | fail f d hc step =>
    cases h' with
    | stop hc' =>
      rw [hc] at hc'
      cases hc'
    | fail f' d' hc' step' =>
      rw [step] at step'
      cases step'
      rfl

/-- The loop is deterministic: it passes through every state it can reach. -/
theorem IndexSteps.split (h : IndexSteps env a scope storedThrough n s t)
    (hw : IndexWalk env a scope storedThrough m s o) :
    n ≤ m ∧ IndexWalk env a scope storedThrough (m - n) t o := by
  induction h generalizing m with
  | refl s => exact ⟨Nat.zero_le m, hw⟩
  | next n s v t d hc step rest ih =>
    obtain ⟨e, hsteps, hend⟩ := hw
    cases hsteps with
    | refl =>
      cases hend with
      | stop hc' =>
        rw [hc] at hc'
        cases hc'
      | fail f d' hc' step' =>
        rw [step] at step'
        cases step'
    | next m _ v' _ d' hc' step' rest' =>
      rw [step] at step'
      cases step'
      obtain ⟨hle, hw'⟩ := ih ⟨e, rest', hend⟩
      exact ⟨Nat.succ_le_succ hle, by rwa [Nat.succ_sub_succ]⟩

theorem continues_of_certain {gap dindex : ℕ} (h : 0 < certain a storedThrough gap dindex) :
    continues a storedThrough gap dindex = true := by
  unfold certain satAdd at h
  unfold continues
  rw [decide_eq_true_eq]
  rcases storedThrough with _ | last
  · left
    simp only [Option.map_none, Option.getD_none] at h
    omega
  · simp only [Option.map_some, Option.getD_some] at h
    simp only [Option.any_some, decide_eq_true_eq]
    omega

/-- Short of the last index the loop goes on exactly when the next index is certain. -/
theorem certain_of_continues {gap dindex : ℕ} (hgap : gap ≤ 2 ^ 31) (hd : dindex ≤ 2 ^ 31)
    (h : continues a storedThrough gap dindex = true) : 0 < certain a storedThrough gap dindex := by
  unfold continues at h
  rw [decide_eq_true_eq] at h
  unfold certain satAdd
  rcases storedThrough with _ | last
  · simp only [Option.any_none, Bool.false_eq_true, or_false] at h
    omega
  · simp only [Option.any_some, decide_eq_true_eq] at h
    simp only [Option.map_some, Option.getD_some]
    omega

theorem certain_step (a : DiscoveryArgs) (storedThrough : Option ℕ) (dindex : ℕ) {gap gap' : ℕ} (h : gap' ≤ gap + 1) :
    certain a storedThrough gap dindex ≤ certain a storedThrough gap' (dindex + 1) + 1 := by
  unfold certain
  rcases storedThrough with _ | last
  · simp only [Option.map_none, Option.getD_none]
    omega
  · simp only [Option.map_some, Option.getD_some]
    omega

structure Walking (env : Env) (a : DiscoveryArgs) (s : WalkState H) : Prop where
  derived : Derived env a.account s.db
  gap : s.gap ≤ s.dindex
  dindex : s.dindex ≤ 2 ^ 31

structure Stepped (a : DiscoveryArgs) (w : WalkArgs) (s t : WalkState H) : Prop where
  untouched : Untouched w s.db t.db
  dindex : t.dindex = s.dindex + 1
  gap : t.gap ≤ s.gap + 1

theorem planEntry_ok {db : Database H} {i : ℕ} {e : BatchEntry}
    (h : planEntry env a scope db i = .ok e) : ∃ taddr, env.derive scope i = some taddr ∧
      e.dindex = i ∧ ∃ start, candidateStart a db scope i taddr = .ok start ∧
        e.candidate = start.map fun s => ⟨s.1, s.2, taddr⟩ := by
  unfold planEntry at h
  split at h
  · cases h
  · rename_i taddr htaddr
    obtain ⟨start, hstart, rfl⟩ := Loops.map_eq_ok.1 h
    exact ⟨taddr, htaddr, rfl, start, hstart, rfl⟩

theorem ingestEntry_ok {e : BatchEntry} {first : Option Fetched} {d : Database H}
    {taddr : Bytes} (hd : e.dindex = s.dindex)
    (htaddr : ∀ c, e.candidate = some c → c.taddr = taddr)
    (h : ingestEntry env a scope s e first = (.ok t, d)) :
    d = t.db ∧ Stepped a (walkArgs a scope s.dindex taddr) s t := by
  unfold ingestEntry at h
  cases hc : e.candidate with
  | none =>
    rw [hc] at h
    dsimp only at h
    cases h
    exact ⟨rfl, .refl s.db, by rw [hd], Nat.zero_le _⟩
  | some c =>
    rw [hc] at h
    dsimp only at h
    have hu := untouched_walkCandidate (a := walkArgs a scope e.dindex c.taddr) env a.identity
      c.existing c.lo a.endHeight first s.db
    rw [hd, htaddr c hc] at h hu
    split at h
    · cases h
    · rename_i db row used hwalk
      rw [hwalk] at hu
      cases h
      refine ⟨rfl, hu, ?_, ?_⟩
      · simp only [settleCandidate]
      · simp only [settleCandidate]
        split <;> omega

theorem walkIndex_ok {d : Database H} (h : walkIndex env a scope s = (.ok t, d)) :
    d = t.db ∧ ∃ taddr, env.derive scope s.dindex = some taddr ∧
      Stepped a (walkArgs a scope s.dindex taddr) s t := by
  unfold walkIndex at h
  split at h
  · cases h
  · rename_i e he
    obtain ⟨taddr, htaddr, hd, start, -, hcand⟩ := planEntry_ok he
    have haddr : ∀ c, e.candidate = some c → c.taddr = taddr := by
      intro c hc
      rw [hcand] at hc
      obtain ⟨x, -, rfl⟩ := Option.map_eq_some_iff.1 hc
      rfl
    obtain ⟨hdb, hstep⟩ := ingestEntry_ok hd haddr h
    exact ⟨hdb, taddr, htaddr, hstep⟩

theorem Walking.step (hlaw : env.Lawful) (h : Walking env a s) {taddr : Bytes}
    (htaddr : env.derive scope s.dindex = some taddr)
    (hstep : Stepped a (walkArgs a scope s.dindex taddr) s t) : Walking env a t := by
  refine ⟨h.derived.kept hlaw hstep.untouched htaddr, ?_, ?_⟩
  · have := h.gap
    have := hstep.gap
    rw [hstep.dindex]
    omega
  · by_contra hlt
    have hbound := hlaw.bound scope s.dindex (by rw [hstep.dindex] at hlt; omega)
    rw [hbound] at htaddr
    cases htaddr

end Facts

end ZcashSdk.Discovery
