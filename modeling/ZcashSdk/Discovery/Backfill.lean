import ZcashSdk.Discovery.Interleaved

set_option autoImplicit false

/-!
# What a backfill marker says

Up to its marker nothing of an address is missing, whatever takes turns with the walks, as long
as the 32 bits of an incarnation do not run through while a walk is under way.
-/
namespace ZcashSdk.Discovery
open Tables Shielded Db Database Runs

variable {H : Type} [DecidableEq H] {C : Chain} {derive : Derivation}

/-! ### Retirements while a walk is under way -/

def Move.begins (w : ℕ) : Move H → Prop
  | .begin w' _ _ _ _ _ => w' = w
  | _ => False

/-- No account is retired 2^32 times between the start of a walk of it and a turn in which that walk
    is still in flight. -/
def SeldomRetired (s : Shared H) (es : List (Move H)) : Prop :=
  ∀ pre w a scope dindex taddr asked mid post u f,
    es = pre ++ .begin w a scope dindex taddr asked :: (mid ++ post) →
      run move s (pre ++ .begin w a scope dindex taddr asked :: mid) = some u →
        u.crawls w = some f → (∀ e ∈ mid, ¬ e.begins w) →
          mid.countP (Move.retires a.account) < 2 ^ 32

theorem SeldomRetired.of_countP {s : Shared H} {es : List (Move H)}
    (h : ∀ account, es.countP (Move.retires account) < 2 ^ 32) : SeldomRetired s es := by
  rintro pre w a scope dindex taddr asked mid post u f rfl - - -
  have hcount := h a.account
  rw [List.countP_append, List.countP_cons, List.countP_append] at hcount
  omega

section Seldom
variable {s t u : Shared H} {es : List (Move H)} {e : Move H} {w : ℕ} {f : Crawl}

/-- A walk in flight was in flight before, unless it has just begun. -/
theorem crawl_of_move (h : move s e = some t) (hf : t.crawls w = some f) :
    (¬ e.begins w ∧ ∃ f', s.crawls w = some f' ∧ f'.args = f.args) ∨
      ∃ a scope dindex taddr asked, e = .begin w a scope dindex taddr asked ∧
        f.args.account = a.account := by
  cases e with
  | begin w' a scope dindex taddr asked =>
    simp only [move] at h
    split at h
    · cases h
      rcases setCrawl_crawls hf with ⟨rfl, hnew⟩ | ⟨hne, hold⟩
      · cases hnew
        exact .inr ⟨a, scope, dindex, taddr, asked, rfl, rfl⟩
      · exact .inl ⟨fun h => hne h.symm, f, hold, rfl⟩
    · cases h
  | window w' env =>
    obtain ⟨f', hf', rfl⟩ := Option.map_eq_some_iff.1 h
    rcases setCrawl_crawls hf with ⟨rfl, hnew⟩ | ⟨-, hold⟩
    · exact .inl ⟨not_false, f', hf', (Crawl.next_args hnew).symm⟩
    · exact .inl ⟨not_false, f, hold, rfl⟩
  | abandon w' =>
    cases h
    rcases setCrawl_crawls hf with ⟨-, hnew⟩ | ⟨-, hold⟩
    · cases hnew
    · exact .inl ⟨not_false, f, hold, rfl⟩
  | pass b accounts start stop limit =>
    cases h
    exact .inl ⟨not_false, f, hf, rfl⟩
  | edit e =>
    obtain ⟨d, -, rfl⟩ := Option.map_eq_some_iff.1 h
    exact .inl ⟨not_false, f, hf, rfl⟩
  | elsewhere d =>
    cases h
    exact .inl ⟨not_false, f, hf, rfl⟩

theorem tally_began {g : Tally} (h : ¬ e.begins w) : (tally s e g).began w = g.began w := by
  cases e with
  | begin w' a scope dindex taddr asked => exact Function.update_of_ne (fun heq => h heq.symm) ..
  | _ => rfl

/-- A walk in flight began in a move, and the notes hold how often its account was retired by
    then. -/
theorem crawl_began {g : Tally} (hnone : ∀ w, s.crawls w = none) (hrun : run move s es = some t)
    (hf : t.crawls w = some f) : ∃ pre a scope dindex taddr asked mid,
      es = pre ++ .begin w a scope dindex taddr asked :: mid ∧ (∀ e ∈ mid, ¬ e.begins w) ∧
        a.account = f.args.account ∧ (Books.noted move tally s es g).retired f.args.account =
          (Books.noted move tally s es g).began w + mid.countP (Move.retires f.args.account) := by
  induction es using List.reverseRecOn generalizing t f with
  | nil =>
    rw [run_nil, Option.some.injEq] at hrun
    rw [← hrun, hnone w] at hf
    cases hf
  | append_singleton es e ih =>
    obtain ⟨v, hv, hstep⟩ := run_snoc.1 hrun
    have hnoted : Books.noted move tally s (es ++ [e]) g =
        tally v e (Books.noted move tally s es g) := by
      rw [Books.noted_append move tally hv, Books.noted, hstep]
      rfl
    rw [hnoted]
    rcases crawl_of_move hstep hf with ⟨hother, f', hf', hargs⟩ |
      ⟨a, scope, dindex, taddr, asked, rfl, haccount⟩
    · obtain ⟨pre, a, scope, dindex, taddr, asked, mid, hes, hmid, haccount, hcount⟩ := ih hv hf'
      rw [hargs] at haccount hcount
      refine ⟨pre, a, scope, dindex, taddr, asked, mid ++ [e], by rw [hes]; simp, ?_, haccount, ?_⟩
      · intro b hb
        rcases List.mem_append.1 hb with hb | hb
        · exact hmid b hb
        · exact List.mem_singleton.1 hb ▸ hother
      · rw [tally_began hother, List.countP_append, List.countP_singleton, ← Nat.add_assoc, ← hcount]
        rfl
    · refine ⟨es, a, scope, dindex, taddr, asked, [], rfl, by simp, haccount.symm, ?_⟩
      have hbegan : (tally v (.begin w a scope dindex taddr asked)
          (Books.noted move tally s es g)).began w =
            (Books.noted move tally s es g).retired a.account := Function.update_self ..
      rw [hbegan, haccount]
      rfl

theorem SeldomRetired.seldom {g : Tally} (h : SeldomRetired s es) (hnone : ∀ w, s.crawls w = none)
    (fs gs : List (Move H)) (u : Shared H) (he : es = fs ++ gs) (hrun : run move s fs = some u) :
    (Books.noted move tally s fs g).Seldom u := by
  intro w f hf
  obtain ⟨pre, a, scope, dindex, taddr, asked, mid, rfl, hmid, haccount, hcount⟩ :=
    crawl_began (g := g) hnone hrun hf
  have hfew := h pre w a scope dindex taddr asked mid gs u f (by rw [he]; simp) hrun hf hmid
  rw [haccount] at hfew
  omega

end Seldom

/-- Whatever comes between, a marker leaves no transaction of its address out, from the birth of the
    account on. -/
theorem markers_cover {s t : Shared H} {es : List (Move H)} (hs : MarkersSound C derive s.db)
    (hnone : ∀ w, s.crawls w = none) (hrun : run move s es = some t)
    (hfaithful : AllSteps move (Move.Faithful C derive) s es) (hfew : SeldomRetired s es)
    {r : AddressRow} (hr : r ∈ t.db.addresses.rows) {through birth : ℕ}
    (hm : r.backfilledHeight = some through) (hb : t.db.getBirthHeight r.account = some birth) :
    ∀ x ∈ C.txs, C.Touches r.address x → birth ≤ x.1 → x.1 ≤ through →
      ∃ row ∈ t.db.transactions.rows,
        row.account = r.account ∧ row.txid = x.2.txid ∧ row.height = x.1 :=
  ((shared_run (shared_start hs hnone) hrun hfaithful (hfew.seldom hnone)).sound.historyExact hr hm
    hb).transactions

theorem spentMoves_covered : ∃ t, run move spentWallet spentMoves = some t ∧
    ∀ x ∈ spentChain.txs, spentChain.Touches [5] x → 5 ≤ x.1 → x.1 ≤ 15 →
      ∃ row ∈ t.db.transactions.rows,
        row.account = 1 ∧ row.txid = x.2.txid ∧ row.height = x.1 := by
  obtain ⟨t, hrun, hfinal⟩ := Option.map_eq_some_iff.1 spentMoves_run
  obtain ⟨hrows, hbirth⟩ := Prod.mk.inj hfinal
  exact ⟨t, hrun, @markers_cover ℕ _ spentChain spentDerive spentWallet t spentMoves
    spentWallet_sound (fun _ => rfl) hrun spentMoves_faithful (.of_countP spentMoves_few)
    ⟨1, 1, 0, 0, [5], some 15, true, none⟩ (hrows ▸ List.mem_singleton.2 rfl) 15 5 rfl hbirth⟩

/-! ### An incarnation that comes back -/

/-- The address `[5]` is paid twice. -/
def farChain : Chain where
  txs := [(1010, paying 1), (2005, paying 2)]
  txid := by decide
  outs := by decide
  once x hx y hy h := by
    rcases List.mem_pair.1 hx with rfl | rfl <;> rcases List.mem_pair.1 hy with rfl | rfl
    · rfl
    · exact absurd h (by decide)
    · exact absurd h (by decide)
    · rfl
  spentOnce x hx i hi y hy z hz hoy hoz := by
    rcases List.mem_pair.1 hy with rfl | rfl <;> exact absurd hoy List.not_mem_nil
  spentLater := by decide

def farEnv : Env where
  derive := fun _ _ => none
  taddressTxs taddr lo hi :=
    .stream (if taddr = [5] then farChain.txs.filter fun x => lo ≤ x.1 ∧ x.1 ≤ hi else []) .closed
  block := fun height => .block [1] (1000 + height)
  setOrder := id

def refusingEnv : Env := { farEnv with taddressTxs := fun _ _ _ => .refused "busy" }

def farDerive (_ : Owner) (scope dindex : ℕ) : Option Bytes :=
  if scope = 0 ∧ dindex = 0 then some [6] else if scope = 0 ∧ dindex = 1 then some [5] else none

def farNetwork : Network := ⟨1, 1, none⟩

def farWallet : Shared ℕ where
  db := { (Database.empty : Database ℕ) with
    accounts := .singleton ⟨1, none, 0, 0, 5, true, none, false, false⟩
    addresses := .singleton ⟨1, 1, 0, 0, [6], some 2005, false, none⟩
    syncHeights := .singleton ⟨1, 0, 2005⟩ }
  crawls := fun _ => none

/-- A walk of the second address: the server is busy, then there is nothing, then a payment, which
    is ingested after a trim. -/
def farWalk : List (Move ℕ) :=
  [.begin 0 ⟨1, 2005, 20, ⟨none, 0, 5, none, 0⟩, 5⟩ 0 1 [5] none, .window 0 refusingEnv,
    .window 0 farEnv, .edit (.trim 1 2000), .window 0 farEnv, .edit (.delete 1)]

def farDeleted : Shared ℕ := (run move farWallet farWalk).getD farWallet

/-- The account comes back under its number, with the address it began with. -/
def farRestored : Database ℕ :=
  { farDeleted.db with
    accounts := farWallet.db.accounts
    addresses := .singleton ⟨1, 1, 0, 0, [6], none, false, none⟩
    syncHeights := .singleton ⟨1, 0, 5⟩ }

def farReset (n : ℕ) : Shared ℕ where
  db := { farRestored with
    incarnation := Function.update farRestored.incarnation 1 (u32 (n + 1)) }
  crawls := farDeleted.crawls

theorem farReset_reset (n : ℕ) :
    move (farReset n) (.edit (.reset farNetwork 1)) = some (farReset (n + 1)) := by
  unfold farReset
  rw [← update_incarnation]
  rfl

theorem farReset_zero : farReset 0 = ⟨farRestored, farDeleted.crawls⟩ := by
  have hlife : Function.update farRestored.incarnation 1 (u32 (0 + 1)) = farRestored.incarnation :=
    Function.update_eq_self 1 farRestored.incarnation
  unfold farReset
  rw [hlife]

/-- The synchronization finds nothing of it. -/
def farSynced (n : ℕ) : Database ℕ :=
  { (farReset n).db with syncHeights := .singleton ⟨1, 0, 2005⟩ }

def farResets : List (Move ℕ) :=
  .elsewhere farRestored :: List.replicate (2 ^ 32 - 1) (.edit (.reset farNetwork 1))

def farMoves : List (Move ℕ) :=
  farWalk ++ (farResets ++ [.elsewhere (farSynced (2 ^ 32 - 1)), .window 0 farEnv])

theorem farWalk_run : run move farWallet farWalk = some farDeleted := rfl

theorem farResets_run : run move farDeleted farResets = some (farReset (2 ^ 32 - 1)) := by
  refine (run_cons_some move).2 ⟨⟨farRestored, farDeleted.crawls⟩, rfl, ?_⟩
  rw [← farReset_zero]
  exact run_replicate move farReset_reset _

/-- The incarnation is what it was when the walk began. -/
theorem farSynced_window : ∃ t,
    run move (farReset (2 ^ 32 - 1)) [.elsewhere (farSynced (2 ^ 32 - 1)), .window 0 farEnv] =
      some t ∧ t.db.addresses.rows = [⟨1, 1, 0, 0, [6], none, false, none⟩,
        ⟨2, 1, 0, 1, [5], some 2005, true, none⟩] ∧ t.db.getBirthHeight 1 = some 5 ∧
          t.db.transactions.rows.map TransactionRow.txid = [sampleTxid 2] := by
  unfold farSynced farReset
  rw [u32_wraps]
  exact ⟨_, rfl, rfl, rfl, rfl⟩

theorem farChain_touches {taddr : Bytes} {x : ℕ × TransparentTx} (hx : x ∈ farChain.txs) :
    farChain.Touches taddr x ↔ taddr = [5] := by
  have houts : x.2.outs = [⟨some [5], 7⟩] ∧ x.2.prevouts = [] := by
    rcases List.mem_pair.1 hx with rfl | rfl <;> exact ⟨rfl, rfl⟩
  unfold Chain.Touches
  rw [houts.1, houts.2]
  simp [eq_comm]

theorem farEnv_honest : farEnv.Honest farChain := by
  intro taddr lo hi items hreply x
  obtain rfl := (Reply.stream.inj hreply).1
  split
  · rename_i heq
    simp only [List.mem_filter, decide_eq_true_eq, Chain.window, Set.mem_ofPred_eq]
    refine and_congr_right fun hx => ?_
    rw [farChain_touches hx]
    exact ⟨fun h => ⟨heq, h⟩, fun h => h.2⟩
  · rename_i hne
    refine ⟨fun h => absurd h List.not_mem_nil, fun h => absurd ?_ hne⟩
    exact (farChain_touches h.1).1 h.2.1

theorem farWallet_sound : MarkersSound farChain farDerive farWallet.db where
  onChain := onChain_of_nothing rfl rfl rfl
  keyed r hr acc _ taddr htaddr := by
    obtain rfl := List.mem_singleton.1 hr
    exact Option.some.inj htaddr
  marked r hr m _ birth _ := by
    obtain rfl := List.mem_singleton.1 hr
    -- nothing touches the address
    have hnone {x : ℕ × TransparentTx} (hx : x ∈ farChain.txs) : ¬ farChain.Touches [6] x := by
      rw [farChain_touches hx]
      decide
    refine ⟨fun x hx htouch => absurd htouch (hnone hx), fun o height value ho => ?_,
      fun o height value s ho => ?_⟩
    · obtain ⟨x, hx, htouch, -⟩ := ho.touches
      exact absurd htouch (hnone hx)
    · obtain ⟨x, hx, htouch, -⟩ := ho.touches
      exact absurd htouch (hnone hx)

/-- Nothing is stored of the chain, and no address has a marker. -/
theorem beside_of_nothing {db d : Database H} (hcounter : d.trimCounter = db.trimCounter)
    (hlife : d.incarnation = db.incarnation) (hnotes : d.notes.rows = [] ∧ db.notes.rows = [])
    (hspends : d.spends.rows = [] ∧ db.spends.rows = [])
    (htx : d.transactions.rows = [] ∧ db.transactions.rows = []) (hkeyed : Keyed derive d)
    (hmarker : ∀ r ∈ d.addresses.rows, r.backfilledHeight = none) : Beside C derive db d where
  trimCounter := hcounter
  incarnation := hlife
  onChain := onChain_of_nothing hnotes.1 hspends.1 htx.1
  keyed := hkeyed
  marked r hr hm := absurd (hmarker r hr) hm
  keeps _ _ := by
    refine ⟨fun t ht => ?_, fun n hn => ?_, fun s hs => ?_⟩
    · rw [htx.2] at ht
      cases ht
    · rw [hnotes.2] at hn
      cases hn
    · rw [hspends.2] at hs
      cases hs

theorem farRestored_keyed : Keyed farDerive farRestored := by
  intro r hr acc _ taddr htaddr
  obtain rfl := List.mem_singleton.1 hr
  exact Option.some.inj htaddr

theorem farMoves_faithful : AllSteps move (Move.Faithful farChain farDerive) farWallet farMoves := by
  have hrefused : refusingEnv.Honest farChain := nofun
  have hwalk : AllSteps move (Move.Faithful farChain farDerive) farWallet farWalk :=
    ⟨⟨rfl, rfl, nofun⟩, fun _ _ => ⟨hrefused, fun _ _ => ⟨farEnv_honest, fun _ _ => ⟨trivial,
      fun _ _ => ⟨farEnv_honest, fun _ _ => ⟨trivial, fun _ _ => trivial⟩⟩⟩⟩⟩⟩
  have hrestored : Beside farChain farDerive farDeleted.db farRestored :=
    beside_of_nothing rfl rfl ⟨rfl, rfl⟩ ⟨rfl, rfl⟩ ⟨rfl, rfl⟩ farRestored_keyed (by decide)
  have hresets : AllSteps move (Move.Faithful farChain farDerive) farDeleted farResets := by
    refine ⟨hrestored, fun t _ => allSteps_of_mem move (fun _ e he => ?_) t⟩
    rw [List.eq_of_mem_replicate he]
    trivial
  have hsynced (n : ℕ) : Beside farChain farDerive (farReset n).db (farSynced n) :=
    beside_of_nothing rfl rfl ⟨rfl, rfl⟩ ⟨rfl, rfl⟩ ⟨rfl, rfl⟩ farRestored_keyed fun r hr => by
      obtain rfl := List.mem_singleton.1 hr
      rfl
  have hlast : AllSteps move (Move.Faithful farChain farDerive) (farReset (2 ^ 32 - 1))
      [.elsewhere (farSynced (2 ^ 32 - 1)), .window 0 farEnv] :=
    ⟨hsynced _, fun _ _ => ⟨farEnv_honest, fun _ _ => trivial⟩⟩
  exact hwalk.join move farWalk_run (hresets.join move farResets_run hlast)

/-- After 2^32 retirements a walk takes the account for the one it began with, and its next marker
    stands for what was trimmed and deleted meanwhile. -/
theorem marker_above_hole : ∃ t, run move farWallet farMoves = some t ∧
    MarkersSound farChain farDerive farWallet.db ∧ (∀ w, farWallet.crawls w = none) ∧
      AllSteps move (Move.Faithful farChain farDerive) farWallet farMoves ∧
        ∃ r ∈ t.db.addresses.rows, r.backfilledHeight = some 2005 ∧
          t.db.getBirthHeight r.account = some 5 ∧ ∃ x ∈ farChain.txs,
            farChain.Touches r.address x ∧ 5 ≤ x.1 ∧ x.1 ≤ 2005 ∧
              ∀ row ∈ t.db.transactions.rows, row.txid ≠ x.2.txid := by
  obtain ⟨t, ht, hrows, hbirth, htxids⟩ := farSynced_window
  have hrun : run move farWallet farMoves = some t :=
    (run_append move).2 ⟨farDeleted, farWalk_run,
      (run_append move).2 ⟨farReset (2 ^ 32 - 1), farResets_run, ht⟩⟩
  refine ⟨t, hrun, farWallet_sound, fun _ => rfl, farMoves_faithful,
    ⟨2, 1, 0, 1, [5], some 2005, true, none⟩, by rw [hrows]; simp, rfl, hbirth, (1010, paying 1),
    List.mem_cons_self, (farChain_touches List.mem_cons_self).2 rfl, by decide, by decide,
    fun row hrow heq => ?_⟩
  have hmem := List.mem_map_of_mem (f := TransactionRow.txid) hrow
  rw [htxids, List.mem_singleton, heq] at hmem
  exact absurd hmem (by decide)

end ZcashSdk.Discovery
