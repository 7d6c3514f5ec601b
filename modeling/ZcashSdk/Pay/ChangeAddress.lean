import ZcashSdk.Account.NextAddress
import ZcashSdk.Lib.Runs
import ZcashSdk.Pay.Plan

set_option autoImplicit false

/-!
# The change addresses of plans

Plans are made next to each other; between two statements of one, others go on. An index
is taken by two statements, one that looks for the highest and one that stores the next,
and the second fails when another call was faster.
-/
namespace ZcashSdk.Pay
open Tables Db Database Shielded Runs Account

variable {H : Type} [DecidableEq H]

/-! ### One allocation -/

/-- Retries of an index lost to a concurrent allocation before giving up. -/
def addressAllocationAttempts : ℕ := 8

/-- `generate_next_transparent_address` between two statements, with the attempts left. -/
inductive Allocation where
  | select (left : ℕ)
  | insert (left dindex : ℕ) (address : Bytes)

def Allocation.start : Allocation := .select addressAllocationAttempts

/-- Where it is after one more statement, or what it returns. -/
abbrev Turn := Allocation ⊕ Except AddressError (ℕ × Bytes)

def generateNextTransparentAddress (derive : DeriveAddress) (xvk : Bytes) (account scope : ℕ)
    (db : Database H) : Allocation → Turn × Database H
  | .select 0 => (.inr (.error (.couldNotAllocate account scope)), db)
  | .select (left + 1) =>
    let dindex := u32 (afterHighest db account scope)
    match derive xvk scope dindex with
    | none => (.inr (.error (.invalidChildIndex dindex)), db)
    | some address => (.inl (.insert left dindex address), db)
  | .insert left dindex address =>
    match db.addresses.insertNew? AddressRow.idTaddress
        fun i => ⟨i, account, scope, dindex, address, none, false, none⟩ with
    | some addresses => (.inr (.ok (dindex, address)), { db with addresses := addresses })
    | none => (.inl (.select left), db)

def generateNextChangeAddress (derive : DeriveAddress) (xvk : Bytes) (account : ℕ)
    (db : Database H) (a : Allocation) : Turn × Database H :=
  generateNextTransparentAddress derive xvk account 1 db a

/-! ### One plan -/

structure ChangeOutput where
  pool : ℕ
  amount : ℕ
  address : Bytes

/-- `plan_transaction` from the settled plan on. What is asked of the network and of the
    builder in between may fail. -/
inductive Phase where
  | planned (plan : Plan)
  | fetching (plan : Plan) (xvk : Bytes) (a : Allocation)
  | building (plan : Plan)
  | paying (plan : Plan) (xvk : Bytes) (a : Allocation)
  | closing (plan : Plan) (change : Option ChangeOutput)
  | finished (plan : Plan) (change : Option ChangeOutput)
  | failed

def Phase.Ended : Phase → Prop
  | .finished _ _ => True
  | .failed => True
  | _ => False

instance : DecidablePred Phase.Ended := fun p => by
  cases p <;> unfold Phase.Ended <;> infer_instance

/-- `consumed` are the change indexes that the call has stored. -/
structure Call where
  account : ℕ
  tkeys : Option Bytes
  phase : Phase
  consumed : List ℕ

structure PlanEnv where
  receiver : String → Except String ℕ
  budget : Solve.Budget
  derive : DeriveAddress
  fullAddress : ℕ → Bytes

section Advance
variable (env : PlanEnv) (db : Database H) (c : Call)

/-- The account's address for change, unless the change is transparent and has one of its own. -/
def fetchChangeAddress (plan : Plan) : Call :=
  let tkeys := getTransparentKeys db c.account
  let phase := match tkeys with
    | some xvk => if plan.changePool = 0 then .fetching plan xvk .start else .building plan
    | none => .building plan
  { c with tkeys := tkeys, phase := phase }

def addChangeOutput (plan : Plan) : Phase :=
  let output : ChangeOutput := ⟨plan.changePool, plan.change, env.fullAddress c.account⟩
  if 0 < plan.change then
    match c.tkeys with
    | some xvk => if plan.changePool = 0 then .paying plan xvk .start else .closing plan output
    | none => .closing plan output
  else .closing plan none

def advanceCall : Call × Database H :=
  match c.phase with
  | .planned plan => (fetchChangeAddress db c plan, db)
  | .fetching plan xvk a =>
    match generateNextChangeAddress env.derive xvk c.account db a with
    | (.inl a, d) => ({ c with phase := .fetching plan xvk a }, d)
    | (.inr (.error _), d) => ({ c with phase := .failed }, d)
    | (.inr (.ok (dindex, _)), d) =>
      ({ c with phase := .building plan, consumed := c.consumed ++ [dindex] }, d)
  | .building plan => ({ c with phase := addChangeOutput env c plan }, db)
  | .paying plan xvk a =>
    match generateNextChangeAddress env.derive xvk c.account db a with
    | (.inl a, d) => ({ c with phase := .paying plan xvk a }, d)
    | (.inr (.error _), d) => ({ c with phase := .failed }, d)
    | (.inr (.ok (dindex, address)), d) =>
      let output : ChangeOutput := ⟨plan.changePool, plan.change, address⟩
      ({ c with phase := .closing plan output, consumed := c.consumed ++ [dindex] }, d)
  | .closing plan change => ({ c with phase := .finished plan change }, db)
  | .finished plan change => ({ c with phase := .finished plan change }, db)
  | .failed => ({ c with phase := .failed }, db)

end Advance

/-! ### Plans next to each other -/

structure System (H : Type) [DecidableEq H] where
  db : Database H
  calls : ℕ → Option Call

inductive PlanEvent where
  | start (i : ℕ) (source : Source) (args : PlanArgs)
  | advance (i : ℕ)
  | fail (i : ℕ)

def System.idle (db : Database H) : System H := ⟨db, fun _ => none⟩

def System.taken (s : System H) (i : ℕ) : List (ℕ × ℕ) :=
  match s.calls i with
  | none => []
  | some c => c.consumed.map fun k => (c.account, k)

def startCall (env : PlanEnv) (db : Database H) (source : Source) (args : PlanArgs) : Call :=
  ⟨source.account, none, match draftAccount env.receiver env.budget db source args with
    | .ok plan => .planned plan
    | .error _ => .failed, []⟩

/-- A call begins under a new number, and goes on or fails until it has ended. -/
def planStep (env : PlanEnv) (s : System H) : PlanEvent → Option (System H)
  | .start i source args =>
    match s.calls i with
    | none => some ⟨s.db, Function.update s.calls i (some (startCall env s.db source args))⟩
    | some _ => none
  | .advance i =>
    match s.calls i with
    | none => none
    | some c =>
      if c.phase.Ended then none
      else
        let (after, db) := advanceCall env s.db c
        some ⟨db, Function.update s.calls i (some after)⟩
  | .fail i =>
    match s.calls i with
    | none => none
    | some c =>
      if c.phase.Ended then none
      else some ⟨s.db, Function.update s.calls i (some { c with phase := .failed })⟩

/-! ### What a statement takes -/

def HasChangeIndex (db : Database H) (account k : ℕ) : Prop :=
  ∃ r ∈ db.addresses.rows, r.account = account ∧ r.scope = 1 ∧ r.dindex = k

/-- What a statement does to the indexes of change: nothing, or it takes one that was free. -/
def Takes (db d : Database H) (account : ℕ) (before after : List ℕ) : Prop :=
  (d = db ∧ after = before) ∨ ∃ k, after = before ++ [k] ∧ ¬ HasChangeIndex db account k ∧
    ∀ b j, HasChangeIndex d b j ↔ HasChangeIndex db b j ∨ b = account ∧ j = k

section Turns
variable {derive : DeriveAddress} {xvk : Bytes} {account : ℕ} {db d : Database H}
  {a : Allocation} {turn : Turn}

theorem hasChangeIndex_inserted {k : ℕ} {address : Bytes} {addresses : Table AddressRow}
    (h : db.addresses.insertNew? AddressRow.idTaddress
      (fun i => ⟨i, account, 1, k, address, none, false, none⟩) = some addresses) :
    ¬ HasChangeIndex db account k ∧ ∀ b j, HasChangeIndex { db with addresses := addresses } b j ↔
      HasChangeIndex db b j ∨ b = account ∧ j = k := by
  obtain ⟨hfree, hrows⟩ := Table.insert?_eq_some.1 h
  refine ⟨fun hhas => ?_, fun b j => ?_⟩
  · obtain ⟨r, hr, hacc, hscope, hindex⟩ := hhas
    exact hfree r hr (Or.inr ⟨hacc, hscope, hindex⟩)
  · unfold HasChangeIndex
    dsimp only
    rw [hrows]
    constructor
    · rintro ⟨r, hr, hacc, hscope, hindex⟩
      rcases List.mem_append.1 hr with hr | hr
      · exact Or.inl ⟨r, hr, hacc, hscope, hindex⟩
      · obtain rfl := List.mem_singleton.1 hr
        exact Or.inr ⟨hacc.symm, hindex.symm⟩
    · rintro (⟨r, hr, hkey⟩ | ⟨rfl, rfl⟩)
      · exact ⟨r, List.mem_append_left _ hr, hkey⟩
      · exact ⟨_, List.mem_append_right _ (List.mem_singleton_self _), rfl, rfl, rfl⟩

/-- An index is stored when the allocation returns it, and only then. -/
theorem generateNextChangeAddress_cases
    (h : generateNextChangeAddress derive xvk account db a = (turn, d)) :
    (d = db ∧ ∀ r, turn ≠ .inr (.ok r)) ∨
      ∃ k address, turn = .inr (.ok (k, address)) ∧ ¬ HasChangeIndex db account k ∧
        ∀ b j, HasChangeIndex d b j ↔ HasChangeIndex db b j ∨ b = account ∧ j = k := by
  cases a with
  | select left =>
    refine Or.inl ?_
    cases left with
    | zero =>
      cases h
      exact ⟨rfl, fun r hr => by cases hr⟩
    | succ left =>
      dsimp only [generateNextChangeAddress, generateNextTransparentAddress] at h
      split at h <;> cases h <;> exact ⟨rfl, fun r hr => by cases hr⟩
  | insert left k address =>
    dsimp only [generateNextChangeAddress, generateNextTransparentAddress] at h
    split at h
    · rename_i addresses hins
      cases h
      exact Or.inr ⟨k, address, rfl, hasChangeIndex_inserted hins⟩
    · cases h
      exact Or.inl ⟨rfl, fun r hr => by cases hr⟩

end Turns

theorem advanceCall_cases (env : PlanEnv) (db : Database H) (c : Call) :
    (advanceCall env db c).1.account = c.account ∧
      Takes db (advanceCall env db c).2 c.account c.consumed (advanceCall env db c).1.consumed := by
  have hsame : Takes db db c.account c.consumed c.consumed := Or.inl ⟨rfl, rfl⟩
  unfold advanceCall
  split
  · exact ⟨rfl, hsame⟩
  · rename_i plan xvk a hphase
    rcases hturn : generateNextChangeAddress env.derive xvk c.account db a with ⟨turn, d⟩
    rcases generateNextChangeAddress_cases hturn with ⟨rfl, hno⟩ | ⟨k, address, rfl, hnew, hhas⟩
    · rcases turn with a | _ | r
      · exact ⟨rfl, hsame⟩
      · exact ⟨rfl, hsame⟩
      · exact absurd rfl (hno r)
    · exact ⟨rfl, Or.inr ⟨k, rfl, hnew, hhas⟩⟩
  · exact ⟨rfl, hsame⟩
  · rename_i plan xvk a hphase
    rcases hturn : generateNextChangeAddress env.derive xvk c.account db a with ⟨turn, d⟩
    rcases generateNextChangeAddress_cases hturn with ⟨rfl, hno⟩ | ⟨k, address, rfl, hnew, hhas⟩
    · rcases turn with a | _ | r
      · exact ⟨rfl, hsame⟩
      · exact ⟨rfl, hsame⟩
      · exact absurd rfl (hno r)
    · exact ⟨rfl, Or.inr ⟨k, rfl, hnew, hhas⟩⟩
  · exact ⟨rfl, hsame⟩
  · exact ⟨rfl, hsame⟩
  · exact ⟨rfl, hsame⟩

/-! ### No two calls have one index -/

section Steps
variable {env : PlanEnv} {s t : System H} {e : PlanEvent}

/-- A step takes nothing, or one call takes an index that nobody had. -/
theorem planStep_takes (h : planStep env s e = some t) :
    (t.db = s.db ∧ t.taken = s.taken) ∨ ∃ i account k,
      t.taken = Function.update s.taken i (s.taken i ++ [(account, k)]) ∧
      ¬ HasChangeIndex s.db account k ∧
      ∀ b j, HasChangeIndex t.db b j ↔ HasChangeIndex s.db b j ∨ b = account ∧ j = k := by
  have htaken {i : ℕ} {after : Call} (hcalls : t.calls = Function.update s.calls i (some after)) :
      t.taken = Function.update s.taken i (after.consumed.map fun k => (after.account, k)) := by
    funext j
    by_cases hj : j = i
    · rw [hj, Function.update_self, System.taken, hcalls, Function.update_self]
    · rw [Function.update_of_ne hj, System.taken, hcalls, Function.update_of_ne hj, System.taken]
  have hkept {i : ℕ} {c : Call} (hc : s.calls i = some c) :
      s.taken i = c.consumed.map fun k => (c.account, k) := by
    rw [System.taken, hc]
  cases e with
  | start i source args =>
    dsimp only [planStep] at h
    split at h
    · rename_i hnone
      cases h
      refine Or.inl ⟨rfl, (htaken rfl).trans ?_⟩
      exact Function.update_eq_self_iff.2 (by rw [System.taken, hnone]; rfl)
    · cases h
  | advance i =>
    dsimp only [planStep] at h
    split at h
    · cases h
    · rename_i c hc
      obtain ⟨hacc, htakes⟩ := advanceCall_cases env s.db c
      split at h <;> cases h
      rcases htakes with ⟨hdb, hsame⟩ | ⟨k, hnew, hfree, hhas⟩
      · refine Or.inl ⟨hdb, (htaken rfl).trans ?_⟩
        rw [hacc, hsame, ← hkept hc, Function.update_eq_self]
      · refine Or.inr ⟨i, c.account, k, (htaken rfl).trans ?_, hfree, hhas⟩
        rw [hacc, hnew, hkept hc, List.map_append, List.map_singleton]
  | fail i =>
    dsimp only [planStep] at h
    split at h
    · cases h
    · rename_i c hc
      split at h <;> cases h
      refine Or.inl ⟨rfl, (htaken rfl).trans ?_⟩
      rw [← hkept hc, Function.update_eq_self]

structure Apart (s : System H) : Prop where
  stored : ∀ i, ∀ x ∈ s.taken i, HasChangeIndex s.db x.1 x.2
  nodup : ∀ i, (s.taken i).Nodup
  apart : ∀ i j, i ≠ j → (s.taken i).Disjoint (s.taken j)

theorem Apart.idle (db : Database H) : Apart (System.idle db) where
  stored _ _ hx := absurd hx List.not_mem_nil
  nodup _ := List.nodup_nil
  apart _ _ _ := List.disjoint_nil_left _

theorem Apart.step (hs : Apart s) (h : planStep env s e = some t) : Apart t := by
  rcases planStep_takes h with ⟨hdb, htaken⟩ | ⟨i, account, k, htaken, hfree, hhas⟩
  · exact ⟨htaken ▸ hdb ▸ hs.stored, htaken ▸ hs.nodup, htaken ▸ hs.apart⟩
  · -- the new pair is in no list, since all of them are stored
    have hnew (j : ℕ) : (account, k) ∉ s.taken j := fun hmem => hfree (hs.stored j _ hmem)
    refine ⟨fun j x hx => ?_, fun j => ?_, fun j l hne => ?_⟩
    · rw [hhas]
      rw [htaken] at hx
      by_cases hj : j = i
      · rw [hj, Function.update_self, List.mem_append, List.mem_singleton] at hx
        rcases hx with hx | rfl
        · exact Or.inl (hs.stored i x hx)
        · exact Or.inr ⟨rfl, rfl⟩
      · rw [Function.update_of_ne hj] at hx
        exact Or.inl (hs.stored j x hx)
    · rw [htaken]
      by_cases hj : j = i
      · rw [hj, Function.update_self]
        exact (hs.nodup i).concat (hnew i) |> fun hn => by rwa [List.concat_eq_append] at hn
      · rw [Function.update_of_ne hj]
        exact hs.nodup j
    · rw [htaken]
      by_cases hj : j = i
      · have hl : l ≠ i := fun heq => hne (hj.trans heq.symm)
        rw [hj, Function.update_self, Function.update_of_ne hl, List.disjoint_append_left,
          List.singleton_disjoint]
        exact ⟨hs.apart i l (Ne.symm hl), hnew l⟩
      · rw [Function.update_of_ne hj]
        by_cases hl : l = i
        · rw [hl, Function.update_self, List.disjoint_append_right, List.disjoint_singleton]
          exact ⟨hs.apart j i hj, hnew j⟩
        · rw [Function.update_of_ne hl]
          exact hs.apart j l hne

theorem run_apart {es : List PlanEvent} (hs : Apart s) (hrun : run (planStep env) s es = some t) :
    Apart t :=
  run_inv (planStep env) Apart (fun _ _ _ h hstep => h.step hstep) hs hrun

end Steps

/-! ### When an index is taken -/

/-- The index belongs to the transparent change output of the call's plan. -/
def PaidBy (derive : DeriveAddress) (c : Call) (k : ℕ) : Prop :=
  ∃ plan change xvk, c.phase = .finished plan (some change) ∧ change.pool = 0 ∧
    c.tkeys = some xvk ∧ derive xvk 1 k = some change.address

/-- Every call takes at most one index, for a change output that it pays to, and no two calls
    have one index. -/
structure ChangeIndexes (derive : DeriveAddress) (s : System H) : Prop where
  once : ∀ i c, s.calls i = some c → c.consumed.length ≤ 1
  paid : ∀ i c, s.calls i = some c → c.phase.Ended → ∀ k ∈ c.consumed, PaidBy derive c k
  apart : ∀ i j, i ≠ j → (s.taken i).Disjoint (s.taken j)

theorem ChangeIndexes.length_taken {derive : DeriveAddress} {s : System H}
    (h : ChangeIndexes derive s) (i : ℕ) : (s.taken i).length ≤ 1 := by
  unfold System.taken
  split
  · exact Nat.zero_le 1
  · rename_i c hc
    rw [List.length_map]
    exact h.once i c hc

/-- A call goes on to an address of its own for transparent change. -/
def AsksForAddress (s : System H) : PlanEvent → Prop
  | .advance i => ∃ c plan, s.calls i = some c ∧ c.phase = .planned plan ∧
      plan.changePool = 0 ∧ (getTransparentKeys s.db c.account).isSome = true
  | _ => False

/-- The change is transparent, and the account can derive an address for it. -/
def Call.OwnChange (c : Call) (plan : Plan) : Prop :=
  plan.changePool = 0 ∧ c.tkeys.isSome = true

def Call.Idle (c : Call) : Prop :=
  c.consumed = [] ∧ match c.phase with
    | .fetching _ _ _ => False
    | .building plan => ¬ c.OwnChange plan
    | .paying _ _ _ => False
    | _ => True

/-- What a call has taken by each phase; the two allocations are one after the other. -/
def Call.Spent (c : Call) : Prop :=
  match c.phase with
  | .planned _ => c.consumed.length = 0
  | .fetching plan _ _ => c.OwnChange plan ∧ c.consumed.length = 0
  | .building plan => (c.OwnChange plan ∧ c.consumed.length = 1) ∨
      ¬ c.OwnChange plan ∧ c.consumed.length = 0
  | .paying plan _ _ => c.OwnChange plan ∧ c.consumed.length = 1
  | .closing plan change => (c.OwnChange plan ∧ c.consumed.length = 2) ∨
      (c.OwnChange plan ∧ c.consumed.length = 1 ∧ change = none) ∨
      ¬ c.OwnChange plan ∧ c.consumed.length = 0
  | .finished plan change => (c.OwnChange plan ∧ c.consumed.length = 2) ∨
      (c.OwnChange plan ∧ c.consumed.length = 1 ∧ change = none) ∨
      ¬ c.OwnChange plan ∧ c.consumed.length = 0
  | .failed => True

section Phases
variable {env : PlanEnv} {db : Database H} {c : Call}

theorem startCall_cases (env : PlanEnv) (db : Database H) (source : Source) (args : PlanArgs) :
    (∃ plan, (startCall env db source args).phase = .planned plan) ∨
      (startCall env db source args).phase = .failed := by
  unfold startCall
  split
  · exact Or.inl ⟨_, rfl⟩
  · exact Or.inr rfl

theorem fetchChangeAddress_own {plan : Plan} {xvk : Bytes} (hpool : plan.changePool = 0)
    (hkey : getTransparentKeys db c.account = some xvk) : fetchChangeAddress db c plan =
      { c with tkeys := some xvk, phase := .fetching plan xvk .start } := by
  simp [fetchChangeAddress, hkey, hpool]

theorem fetchChangeAddress_other {plan : Plan} (hno : ¬ (plan.changePool = 0 ∧
    (getTransparentKeys db c.account).isSome = true)) : fetchChangeAddress db c plan =
      { c with tkeys := getTransparentKeys db c.account, phase := .building plan } := by
  unfold fetchChangeAddress
  dsimp only
  split
  · rename_i xvk hkey
    rw [if_neg fun hpool => hno ⟨hpool, by rw [hkey]; rfl⟩, hkey]
  · rename_i hkey
    rw [hkey]

theorem addChangeOutput_own {plan : Plan} (hown : c.OwnChange plan) (hchange : 0 < plan.change) :
    ∃ xvk, addChangeOutput env c plan = .paying plan xvk .start := by
  obtain ⟨xvk, hkey⟩ := Option.isSome_iff_exists.1 hown.2
  exact ⟨xvk, by simp [addChangeOutput, hchange, hkey, hown.1]⟩

theorem addChangeOutput_other {plan : Plan} (hown : ¬ c.OwnChange plan) :
    ∃ change, addChangeOutput env c plan = .closing plan change := by
  unfold addChangeOutput
  dsimp only
  split
  · split
    · rename_i xvk hkey
      rw [if_neg fun hpool => hown ⟨hpool, by rw [hkey]; rfl⟩]
      exact ⟨_, rfl⟩
    · exact ⟨_, rfl⟩
  · exact ⟨none, rfl⟩

theorem fetchChangeAddress_spent {plan : Plan} (h : c.consumed.length = 0) :
    (fetchChangeAddress db c plan).Spent := by
  by_cases hown : plan.changePool = 0 ∧ (getTransparentKeys db c.account).isSome = true
  · obtain ⟨xvk, hkey⟩ := Option.isSome_iff_exists.1 hown.2
    rw [fetchChangeAddress_own hown.1 hkey]
    exact ⟨⟨hown.1, rfl⟩, h⟩
  · rw [fetchChangeAddress_other hown]
    exact Or.inr ⟨hown, h⟩

theorem addChangeOutput_spent {plan : Plan} (h : (c.OwnChange plan ∧ c.consumed.length = 1) ∨
    ¬ c.OwnChange plan ∧ c.consumed.length = 0) :
    Call.Spent { c with phase := addChangeOutput env c plan } := by
  rcases h with ⟨hown, hlen⟩ | ⟨hown, hlen⟩
  · by_cases hchange : 0 < plan.change
    · obtain ⟨xvk, hpay⟩ := @addChangeOutput_own env _ _ hown hchange
      rw [hpay]
      exact ⟨hown, hlen⟩
    · rw [addChangeOutput, if_neg hchange]
      exact Or.inr (Or.inl ⟨hown, hlen, rfl⟩)
  · obtain ⟨change, hclose⟩ := @addChangeOutput_other env _ _ hown
    rw [hclose]
    exact Or.inr (Or.inr ⟨hown, hlen⟩)

theorem advanceCall_spent (h : c.Spent) : (advanceCall env db c).1.Spent := by
  obtain ⟨account, tkeys, phase, consumed⟩ := c
  cases phase with
  | planned plan => exact fetchChangeAddress_spent h
  | fetching plan xvk a =>
    obtain ⟨hown, hlen⟩ := h
    dsimp only [advanceCall]
    rcases generateNextChangeAddress env.derive xvk account db a with ⟨turn | _ | r, d⟩
    · exact ⟨hown, hlen⟩
    · exact trivial
    · exact Or.inl ⟨hown, by rw [List.length_append, hlen, List.length_singleton]⟩
  | building plan => exact addChangeOutput_spent h
  | paying plan xvk a =>
    obtain ⟨hown, hlen⟩ := h
    dsimp only [advanceCall]
    rcases generateNextChangeAddress env.derive xvk account db a with ⟨turn | _ | r, d⟩
    · exact ⟨hown, hlen⟩
    · exact trivial
    · exact Or.inl ⟨hown, by rw [List.length_append, hlen, List.length_singleton]⟩
  | closing plan change => exact h
  | finished plan change => exact h
  | failed => exact trivial

theorem advanceCall_idle (h : c.Idle) (hask : ∀ plan, c.phase = .planned plan →
    ¬ (plan.changePool = 0 ∧ (getTransparentKeys db c.account).isSome = true)) :
    (advanceCall env db c).1.Idle := by
  obtain ⟨account, tkeys, phase, consumed⟩ := c
  obtain ⟨hempty, hphase⟩ := h
  cases phase with
  | planned plan =>
    have hother := fetchChangeAddress_other (hask plan rfl)
    dsimp only [advanceCall]
    rw [hother]
    exact ⟨hempty, hask plan rfl⟩
  | fetching plan xvk a => exact hphase.elim
  | building plan =>
    obtain ⟨change, hclose⟩ := @addChangeOutput_other env _ _ hphase
    dsimp only [advanceCall]
    rw [hclose]
    exact ⟨hempty, trivial⟩
  | paying plan xvk a => exact hphase.elim
  | closing plan change => exact ⟨hempty, trivial⟩
  | finished plan change => exact ⟨hempty, trivial⟩
  | failed => exact ⟨hempty, trivial⟩

theorem startCall_spent (source : Source) (args : PlanArgs) :
    (startCall env db source args).Spent := by
  rcases startCall_cases env db source args with ⟨plan, hphase⟩ | hphase
  · rw [Call.Spent, hphase]
    rfl
  · rw [Call.Spent, hphase]
    trivial

theorem startCall_idle (source : Source) (args : PlanArgs) :
    (startCall env db source args).Idle := by
  refine ⟨rfl, ?_⟩
  rcases startCall_cases env db source args with ⟨plan, hphase⟩ | hphase <;> rw [hphase] <;> trivial

end Phases

/-! ### Runs -/

section Runs
variable {env : PlanEnv} {s t : System H} {e : PlanEvent} {es : List PlanEvent}

/-- What holds of a call when it begins, after a statement and when it fails, holds of all. -/
theorem planStep_calls {P : Call → Prop}
    (hstart : ∀ source args, P (startCall env s.db source args))
    (hadvance : ∀ i c, e = .advance i → s.calls i = some c → P c → P (advanceCall env s.db c).1)
    (hfail : ∀ c, P c → P { c with phase := .failed }) (hs : ∀ i c, s.calls i = some c → P c)
    (h : planStep env s e = some t) : ∀ i c, t.calls i = some c → P c := by
  have hupdate {i : ℕ} {after : Call} (hafter : P after)
      (hcalls : t.calls = Function.update s.calls i (some after)) :
      ∀ j c, t.calls j = some c → P c := by
    intro j c hc
    rw [hcalls] at hc
    by_cases hj : j = i
    · rw [hj, Function.update_self] at hc
      exact Option.some.inj hc ▸ hafter
    · rw [Function.update_of_ne hj] at hc
      exact hs j c hc
  cases e with
  | start i source args =>
    dsimp only [planStep] at h
    split at h <;> cases h
    exact hupdate (hstart source args) rfl
  | advance i =>
    dsimp only [planStep] at h
    split at h
    · cases h
    · rename_i c hc
      split at h <;> cases h
      exact hupdate (hadvance i c rfl hc (hs i c hc)) rfl
  | fail i =>
    dsimp only [planStep] at h
    split at h
    · cases h
    · rename_i c hc
      split at h <;> cases h
      exact hupdate (hfail c (hs i c hc)) rfl

theorem run_spent (hs : ∀ i c, s.calls i = some c → c.Spent)
    (hrun : run (planStep env) s es = some t) : ∀ i c, t.calls i = some c → c.Spent :=
  run_inv (planStep env) (fun s => ∀ i c, s.calls i = some c → c.Spent)
    (fun _ _ _ hspent hstep => planStep_calls startCall_spent
      (fun _ _ _ _ => advanceCall_spent) (fun _ _ => trivial) hspent hstep) hs hrun

/-- A plan that is finished has kept to its one index unless its change is transparent. -/
theorem finished_iff (db : Database H) (hrun : run (planStep env) (System.idle db) es = some t)
    {i : ℕ} {c : Call} {plan : Plan} {change : Option ChangeOutput} (hc : t.calls i = some c)
    (hphase : c.phase = .finished plan change) :
    (c.consumed.length ≤ 1 ∧ ∀ k ∈ c.consumed, PaidBy env.derive c k) ↔ ¬ c.OwnChange plan := by
  have hspent := run_spent (fun _ _ hnone => by cases hnone) hrun i c hc
  rw [Call.Spent, hphase] at hspent
  constructor
  · rintro ⟨honce, hpaid⟩ hown
    rcases hspent with ⟨-, hlen⟩ | ⟨-, hlen, rfl⟩ | ⟨hno, -⟩
    · omega
    · obtain ⟨k, hk⟩ := List.length_eq_one_iff.1 hlen
      obtain ⟨_, _, _, hpays, -⟩ := hpaid k (by rw [hk]; exact List.mem_singleton_self k)
      rw [hphase] at hpays
      cases hpays
    · exact hno hown
  · intro hno
    have hlen : c.consumed.length = 0 := by
      rcases hspent with ⟨hown, -⟩ | ⟨hown, -⟩ | ⟨-, hlen⟩
      · exact absurd hown hno
      · exact absurd hown hno
      · exact hlen
    refine ⟨by omega, fun k hk => ?_⟩
    rw [List.length_eq_zero_iff.1 hlen] at hk
    exact absurd hk List.not_mem_nil

theorem run_changeIndexes (db : Database H)
    (hok : AllSteps (planStep env) (fun s e => ¬ AsksForAddress s e) (System.idle db) es)
    (hrun : run (planStep env) (System.idle db) es = some t) : ChangeIndexes env.derive t := by
  have hkeep (s : System H) (e : PlanEvent) (u : System H)
      (hidle : ∀ i c, s.calls i = some c → c.Idle) (hno : ¬ AsksForAddress s e)
      (hstep : planStep env s e = some u) : ∀ i c, u.calls i = some c → c.Idle := by
    refine planStep_calls startCall_idle (fun i c he hc hi => ?_) (fun c hi => ⟨hi.1, trivial⟩)
      hidle hstep
    refine advanceCall_idle hi fun plan hphase hown => hno ?_
    rw [he]
    exact ⟨c, plan, hc, hphase, hown⟩
  have hidle := run_inv_of_allSteps (planStep env) hkeep (fun _ _ hnone => by cases hnone) hok hrun
  refine ⟨fun i c hc => ?_, fun i c hc _ k hk => ?_, (run_apart (Apart.idle db) hrun).apart⟩
  · rw [(hidle i c hc).1]
    exact Nat.zero_le 1
  · rw [(hidle i c hc).1] at hk
    exact absurd hk List.not_mem_nil

/-- Whatever the order of the statements, no two calls have one index. As long as no call goes on
    to a transparent change address of its own, every index is taken once and for an output that
    pays to it; a finished plan that did has taken one too many. -/
theorem change_indexes (env : PlanEnv) (db : Database H) (es : List PlanEvent) (t : System H)
    (hrun : run (planStep env) (System.idle db) es = some t) :
    (∀ i j, i ≠ j → (t.taken i).Disjoint (t.taken j)) ∧
    (AllSteps (planStep env) (fun s e => ¬ AsksForAddress s e) (System.idle db) es →
      ChangeIndexes env.derive t) ∧
    ∀ i c plan change, t.calls i = some c → c.phase = .finished plan change →
      ((c.consumed.length ≤ 1 ∧ ∀ k ∈ c.consumed, PaidBy env.derive c k) ↔ ¬ c.OwnChange plan) :=
  ⟨(run_apart (Apart.idle db) hrun).apart, fun hok => run_changeIndexes db hok hrun,
    fun _ _ _ _ hc hphase => finished_iff db hrun hc hphase⟩

end Runs

/-! ### An account with a transparent note -/

def payerEnv : PlanEnv := ⟨fun _ => .ok 0, ⟨100000, 24, fun _ => false⟩, sampleDerive, fun _ => [9]⟩

/-- The account holds 100000; `xvk` is its transparent viewing key, if it has one. -/
def payerWallet (xvk : Option Bytes) : Database ℕ :=
  { Database.empty with
    accounts := .singleton ⟨1, none, 0, 0, 100, true, xvk, false, false⟩
    notes := .singleton
      { idNote := 1, height := 10, account := 1, pool := 0, scope := some 0,
        nullifier := .outpoint [1], tx := 1, value := 100000, cmx := none, taddress := some 1,
        position := none, diversifier := none, rcm := none, rho := none, idAsset := none,
        diversifierIndex := none }
    syncHeights := .singleton ⟨1, 0, 90⟩ }

/-- Call `i` pays 20000 from whatever the account holds. -/
def pays (i : ℕ) : PlanEvent :=
  .start i ⟨1, 15, 1, none, none⟩ ⟨[⟨"b", 20000, none, []⟩], false, false, false, none⟩

/-- A wallet with no key for change addresses, and two plans that take theirs in turn. -/
theorem payerWallet_change_indexes :
    (∃ t, run (planStep payerEnv) (System.idle (payerWallet none)) [pays 0, .advance 0] = some t ∧
      ChangeIndexes payerEnv.derive t) ∧
    ∃ t, run (planStep payerEnv) (System.idle (payerWallet (some [7])))
        ([pays 0, pays 1] ++ (List.replicate 8 [.advance 0, .advance 1]).flatten) = some t ∧
      t.taken 0 = [(1, 0), (1, 2)] ∧ t.taken 1 = [(1, 1)] ∧ (t.taken 0).Disjoint (t.taken 1) := by
  constructor
  · refine ⟨_, rfl, (change_indexes payerEnv (payerWallet none) [pays 0, .advance 0] _ rfl).2.1 ?_⟩
    refine ⟨id, fun t ht => ⟨?_, fun u _ => trivial⟩⟩
    cases ht
    rintro ⟨c, plan, hc, -, -, hkey⟩
    obtain rfl := Option.some.inj hc
    cases hkey
  · have hrun : (run (planStep payerEnv) (System.idle (payerWallet (some [7])))
        ([pays 0, pays 1] ++ (List.replicate 8 [.advance 0, .advance 1]).flatten)).map
          (fun t => (t.taken 0, t.taken 1)) = some ([(1, 0), (1, 2)], [(1, 1)]) := by
      decide +kernel
    obtain ⟨t, ht, htaken⟩ := Option.map_eq_some_iff.1 hrun
    rw [Prod.mk.injEq] at htaken
    exact ⟨t, ht, htaken.1, htaken.2,
      (change_indexes payerEnv (payerWallet (some [7])) _ t ht).1 0 1 (by decide)⟩

/-- The address fetched first is never paid to. -/
theorem transparentChange_takes_two :
    ∃ t, run (planStep payerEnv) (System.idle (payerWallet (some [7])))
        (pays 0 :: List.replicate 7 (.advance 0)) = some t ∧
      t.taken 0 = [(1, 0), (1, 1)] ∧ ¬ ChangeIndexes payerEnv.derive t := by
  have hrun : (run (planStep payerEnv) (System.idle (payerWallet (some [7])))
      (pays 0 :: List.replicate 7 (.advance 0))).map (fun t => t.taken 0) =
        some [(1, 0), (1, 1)] := by decide +kernel
  obtain ⟨t, ht, htaken⟩ := Option.map_eq_some_iff.1 hrun
  refine ⟨t, ht, htaken, fun hindexes => ?_⟩
  have hle := hindexes.length_taken 0
  rw [htaken] at hle
  exact absurd hle (by decide)

end ZcashSdk.Pay
