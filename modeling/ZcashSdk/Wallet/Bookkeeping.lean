import ZcashSdk.Db.Balance
import ZcashSdk.Wallet.Mirror

set_option autoImplicit false

/-!
# The books of a wallet

Beside the database a book is kept for every account: the notes that the account's keys open
in the blocks of the chunks that were committed, and the nullifiers these blocks reveal, less
what lies above the heights the account went back to. Whatever a wallet does, the shielded
rows of an account are the notes of its book, and a note is stored as spent by a height
exactly when its book says so. So what the database reads off as a balance at some height is
what the books hold there.
-/
namespace ZcashSdk.Wallet
open Tables Shielded Db Loops Runs Books

variable {H : Type} [DecidableEq H]

abbrev WalletBooks (H : Type) := Ledger ℕ (Note H) (ℕ × H)

structure Mirrors (env : WriterEnv) (db : Database H) (a : ℕ) (b : Page H) : Prop where
  filed : ∀ e ∈ b.received, e.1 = e.2.height ∧ e.2.account = a ∧ e.2.pool ≠ 0 ∧
    e.2.value < 2 ^ 64
  stored : ∀ e ∈ b.received, ∃ n ∈ db.notes.rows, Shows env e.2 n
  notes : ∀ n ∈ db.notes.rows, n.account = a → n.pool ≠ 0 → ∃ e ∈ b.received, Shows env e.2 n
  spends : ∀ n ∈ db.notes.rows, n.account = a → n.pool ≠ 0 →
    ∀ s ∈ db.spends.rows, s.idNote = n.idNote → SpendOf b s n
  pools : ∀ n ∈ db.notes.rows, n.account = a → ∀ s ∈ db.spends.rows, s.idNote = n.idNote →
    s.pool = n.pool
  spent : ∀ n ∈ db.notes.rows, n.account = a → n.pool ≠ 0 → ∀ nf h, n.nullifier = .shielded nf →
    (h, n.pool, nf) ∈ b.usedUp → n.height ≤ h → SpentBy db n h
  seam : ∀ S, db.accountSeam a = some S → ∀ r ∈ b.usedUp, r.1 ≤ S

section Operations
variable {network : Network} {env : WriterEnv} {db db' : Database H} {a x p : ℕ} {b : Page H}
  {L : WalletBooks H}

theorem SpentBy.of_spends {n : NoteRow H} {h : ℕ} (hs : SpentBy db n h)
    (hsub : ∀ s ∈ db.spends.rows, s.idNote = n.idNote → s.height ≤ h → s ∈ db'.spends.rows) :
    SpentBy db' n h := by
  obtain ⟨s, hm, hid, hle⟩ := hs
  exact ⟨s, hsub s hm hid hle, hid, hle⟩

theorem SpentBy.mono {n : NoteRow H} {h k : ℕ} (hs : SpentBy db n h) (hle : h ≤ k) :
    SpentBy db n k := by
  obtain ⟨s, hm, hid, hsh⟩ := hs
  exact ⟨s, hm, hid, hsh.trans hle⟩

theorem Mirrors.of_tables (h : Mirrors env db a b) (hn : db'.notes = db.notes)
    (hs : db'.spends = db.spends)
    (hseam : ∀ S', db'.accountSeam a = some S' → ∃ S ≤ S', db.accountSeam a = some S) :
    Mirrors env db' a b where
  filed := h.filed
  stored := hn ▸ h.stored
  notes := hn ▸ h.notes
  spends := by
    rw [hn, hs]
    exact h.spends
  pools := by
    rw [hn, hs]
    exact h.pools
  spent n hm hacc hp nf k hnf hr hle := by
    rw [hn] at hm
    exact (h.spent n hm hacc hp nf k hnf hr hle).of_spends fun s hs' _ _ => hs ▸ hs'
  seam S' hS' r hr := by
    obtain ⟨S, hle, hS⟩ := hseam S' hS'
    exact (h.seam S hS r hr).trans hle

theorem Mirrors.of_heights (h : Mirrors env db a b) (hn : db'.notes = db.notes)
    (hs : db'.spends = db.spends) (hh : db'.syncHeights = db.syncHeights) :
    Mirrors env db' a b := by
  refine h.of_tables hn hs fun S hS => ⟨S, le_rfl, ?_⟩
  rwa [Database.accountSeam, Database.heights, hh] at hS

theorem Mirrors.of_no_notes (h : ∀ n ∈ db.notes.rows, n.account = a → n.pool = 0)
    (hpools : ∀ n ∈ db.notes.rows, n.account = a → ∀ s ∈ db.spends.rows, s.idNote = n.idNote →
      s.pool = n.pool) :
    Mirrors env db a Book.empty where
  filed e he := absurd he (by simp)
  stored e he := absurd he (by simp)
  notes n hn hacc hp := absurd (h n hn hacc) hp
  spends n hn hacc hp := absurd (h n hn hacc) hp
  pools := hpools
  spent n hn hacc hp := absurd (h n hn hacc) hp
  seam S _ r hr := absurd hr (by simp)

theorem Mirrors.trim (h : Mirrors env db a b) (p : ℕ) :
    Mirrors env (db.trimSyncData a p) a (b.upTo p) where
  filed e he := h.filed e (Book.mem_received_upTo.1 he).1
  stored e he := by
    obtain ⟨he, hle⟩ := Book.mem_received_upTo.1 he
    obtain ⟨n, hn, hshows⟩ := h.stored e he
    refine ⟨n, mem_trim_notes.2 ⟨hn, fun _ => ?_⟩, hshows⟩
    rw [hshows.fields.2.2.2.1, ← (h.filed e he).1]
    exact hle
  notes n hn hacc hp := by
    obtain ⟨hn, hkeep⟩ := mem_trim_notes.1 hn
    obtain ⟨e, he, hshows⟩ := h.notes n hn hacc hp
    refine ⟨e, Book.mem_received_upTo.2 ⟨he, ?_⟩, hshows⟩
    rw [(h.filed e he).1, ← hshows.fields.2.2.2.1]
    exact hkeep hacc
  spends n hn hacc hp s hs hid := by
    obtain ⟨hn, -⟩ := mem_trim_notes.1 hn
    obtain ⟨hs, hkeep⟩ := mem_trim_spends.1 hs
    have hof := h.spends n hn hacc hp s hs hid
    obtain ⟨nf, hnf, hr⟩ := hof.revealed
    exact { hof with
      revealed := ⟨nf, hnf, Book.mem_usedUp_upTo.2 ⟨hr, hkeep (hof.account.trans hacc)⟩⟩ }
  pools n hn hacc s hs := h.pools n (mem_trim_notes.1 hn).1 hacc s (mem_trim_spends.1 hs).1
  spent n hn hacc hp nf k hnf hr hle := by
    obtain ⟨hr, hk⟩ := Book.mem_usedUp_upTo.1 hr
    refine (h.spent n (mem_trim_notes.1 hn).1 hacc hp nf k hnf hr hle).of_spends ?_
    exact fun s hs _ hsk => mem_trim_spends.2 ⟨hs, fun _ => hsk.trans hk⟩
  seam S hS r hr := by
    obtain ⟨q, hq, hqa, rfl⟩ := accountSeam_mem hS
    rcases mem_trim_heights.1 hq with ⟨hne, -⟩ | ⟨hh, -⟩
    · exact absurd hqa hne
    · rw [hh]
      exact (Book.mem_usedUp_upTo.1 hr).2

theorem Mirrors.trim_other (h : Mirrors env db a b) (hd : DbSound network db) (hne : a ≠ x) :
    Mirrors env (db.trimSyncData x p) a b where
  filed := h.filed
  stored e he := by
    obtain ⟨n, hn, hshows⟩ := h.stored e he
    refine ⟨n, mem_trim_notes.2 ⟨hn, fun hx => ?_⟩, hshows⟩
    rw [hshows.fields.1, (h.filed e he).2.1] at hx
    exact absurd hx hne
  notes n hn := h.notes n (mem_trim_notes.1 hn).1
  spends n hn hacc hp s hs := h.spends n (mem_trim_notes.1 hn).1 hacc hp s (mem_trim_spends.1 hs).1
  pools n hn hacc s hs := h.pools n (mem_trim_notes.1 hn).1 hacc s (mem_trim_spends.1 hs).1
  spent n hn hacc hp nf k hnf hr hle := by
    obtain ⟨hn, -⟩ := mem_trim_notes.1 hn
    refine (h.spent n hn hacc hp nf k hnf hr hle).of_spends fun s hs hid _ => ?_
    refine mem_trim_spends.2 ⟨hs, fun hx => ?_⟩
    rw [hd.spend_account hs hn hid, hacc] at hx
    exact absurd hx hne
  seam S hS := by
    refine h.seam S (accountSeam_congr (fun r hra => ?_) hS)
    rw [mem_trim_heights]
    constructor
    · rintro (⟨-, hr⟩ | ⟨-, q, -, -, hrx, -⟩)
      · exact hr
      · exact absurd (hra.symm.trans hrx) hne
    · exact fun hr => Or.inl ⟨fun hrx => hne (hra.symm.trans hrx), hr⟩

/-- Between scans nothing of an account is above its seam, so nothing is lost there. -/
theorem Mirrors.trim_seam (h : Mirrors env db a b) (hd : DbSound network db) {S : ℕ}
    (hS : db.accountSeam a = some S) : Mirrors env (db.trimSyncData a S) a b := by
  have hb : b.upTo S = b := by
    refine Book.upTo_eq_self (fun e he => ?_) (h.seam S hS)
    obtain ⟨n, hn, hshows⟩ := h.stored e he
    obtain ⟨hacc, hpool, -, hheight, -⟩ := hshows.fields
    obtain ⟨heq, hea, hep, -⟩ := h.filed e he
    rw [heq, ← hheight]
    exact (hd.seam a S hS).notes n hn (hacc.trans hea) (hpool ▸ hep)
  have := h.trim S
  rwa [hb] at this

theorem recover_mirrors {accounts : List ℕ} (hd : DbSound network db)
    (h : ∀ a, Mirrors env db a (L a)) (a : ℕ) :
    Mirrors env (db.recoverFromPartialSync accounts).1 a (L a) := by
  induction accounts generalizing db with
  | nil => exact h a
  | cons x accounts ih =>
    unfold Database.recoverFromPartialSync
    cases hS : db.accountSeam x with
    | none => exact h a
    | some S =>
      refine ih (trim_sound hd (hd.seam x S hS).complete) fun y => ?_
      by_cases hy : y = x
      · subst hy
        exact (h y).trim_seam hd hS
      · exact (h y).trim_other hd hy

theorem reset_mirrors (hd : DbSound network db) (h : ∀ a, Mirrors env db a (L a))
    (hr : db.resetSync network x = .ok db') (a : ℕ) : Mirrors env db' a (L.forget x a) := by
  unfold Database.resetSync at hr
  split at hr
  · cases hr
  · rename_i birth _
    rw [Except.ok.injEq] at hr
    by_cases ha : a = x
    · subst ha
      rw [Ledger.forget_self]
      have hnotes : db'.notes = (db.trimSyncData a 0).notes := by subst hr; rfl
      have hspends : db'.spends = (db.trimSyncData a 0).spends := by subst hr; rfl
      refine Mirrors.of_no_notes (fun n hn hacc => ?_) ?_
      · rw [hnotes] at hn
        obtain ⟨hn, hkeep⟩ := mem_trim_notes.1 hn
        by_contra hp
        have hpos := (hd.floor n hn hp).1
        have hle := hkeep hacc
        omega
      · rw [hnotes, hspends]
        exact ((h a).trim 0).pools
    · rw [Ledger.forget_of_ne ha]
      refine ((h a).trim_other (x := x) (p := 0) hd ha).of_tables (by subst hr; rfl)
        (by subst hr; rfl) fun S hS => ⟨S, le_rfl, accountSeam_congr (fun r hra => ?_) hS⟩
      have hmem : r ∈ db'.syncHeights.rows ↔
          r ∈ ((db.trimSyncData x 0).initSyncHeights network x birth).syncHeights.rows := by
        subst hr
        exact Iff.rfl
      rw [hmem, mem_initSyncHeights]
      constructor
      · rintro ⟨q, hq, h1, -, h3, -⟩
        rw [h3 fun hqx => ha (hra.symm.trans (h1.trans hqx))]
        exact hq
      · intro hr'
        exact ⟨r, hr', rfl, rfl, fun _ => rfl, by rw [if_neg fun hc => ha (hra.symm.trans hc.1)]⟩

/-- A rewind goes back to a checkpoint of the account, or to nothing. -/
def bookRewind (db : Database H) (a h : ℕ) (L : WalletBooks H) : WalletBooks H :=
  match db.checkpointBefore a h with
  | some p => L.goBack a p
  | none => L.forget a

theorem bookRewind_some {h : ℕ} (hp : db.checkpointBefore a h = some p) :
    bookRewind db a h L = L.goBack a p := by
  rw [bookRewind, hp]

theorem bookRewind_none {h : ℕ} (hp : db.checkpointBefore a h = none) :
    bookRewind db a h L = L.forget a := by
  rw [bookRewind, hp]

theorem rewind_mirrors {h : ℕ} (hd : DbSound network db) (hm : ∀ a, Mirrors env db a (L a))
    (hr : db.rewindSync network x h = .ok db') (a : ℕ) :
    Mirrors env db' a (bookRewind db x h L a) := by
  obtain ⟨back, hback, hr⟩ := bind_eq_ok.1 hr
  rw [Except.ok.injEq] at hr
  subst hr
  have hmir : Mirrors env back a (bookRewind db x h L a) := by
    unfold Database.goBack at hback
    cases hp : db.checkpointBefore x h with
    | none =>
      rw [hp] at hback
      rw [bookRewind_none hp]
      exact reset_mirrors hd hm hback a
    | some p =>
      rw [hp] at hback
      simp only [Except.ok.injEq] at hback
      subst hback
      rw [bookRewind_some hp]
      by_cases ha : a = x
      · subst ha
        rw [Ledger.goBack_self]
        exact ((hm a).trim p).of_heights rfl rfl rfl
      · rw [Ledger.goBack_of_ne ha]
        exact ((hm a).trim_other (x := x) (p := p) hd ha).of_heights rfl rfl rfl
  exact hmir.of_heights rfl rfl rfl

def booksRewind (network : Network) (h : ℕ) :
    List ℕ → Database H → WalletBooks H → WalletBooks H
  | [], _, L => L
  | a :: accounts, db, L =>
    match db.rewindSync network a h with
    | .ok db' => booksRewind network h accounts db' (bookRewind db a h L)
    | .error _ => L

theorem rewinds_mirrors {accounts : List ℕ} {h : ℕ} (hd : DbSound network db)
    (hm : ∀ a, Mirrors env db a (L a))
    (hr : accounts.foldlM (fun db a => db.rewindSync network a h) db = .ok db') (a : ℕ) :
    Mirrors env db' a (booksRewind network h accounts db L a) := by
  induction accounts generalizing db L with
  | nil =>
    cases hr
    exact hm a
  | cons x accounts ih =>
    rw [List.foldlM_cons] at hr
    obtain ⟨d, hx, hr⟩ := bind_eq_ok.1 hr
    rw [booksRewind, hx]
    exact ih (rewind_sound hd hx) (rewind_mirrors hd hm hx) hr

end Operations

/-! ### Chunks -/

section Chunks
variable [Inhabited H] {network : Network} {env : WriterEnv} {db db' : Database H} {a : ℕ}
  {b page : Page H} {accounts : List ℕ} {h₀ height : ℕ}

omit [Inhabited H] in
theorem Mirrors.valuesFit (h : ∀ a, ∃ b, Mirrors env db a b) : ValuesFit db := by
  intro n hn hp
  obtain ⟨b, hb⟩ := h n.account
  obtain ⟨e, he, hshows⟩ := hb.notes n hn rfl hp
  rw [hshows.fields.2.2.2.2]
  exact asI64_asU64 (hb.filed e he).2.2.2

omit [Inhabited H] in
theorem Mirrors.chunk_other (h : Mirrors env db a b)
    (hw : Whole network db db' accounts h₀ height) (hacc : a ∉ accounts) :
    Mirrors env db' a b := by
  have hold : ∀ n ∈ db'.notes.rows, n.account = a → n ∈ db.notes.rows := by
    intro n hn hna
    rcases hw.notes n hn with hn | ⟨hmem, -⟩
    · exact hn
    · exact absurd (hna ▸ hmem) hacc
  have hspends : ∀ n ∈ db'.notes.rows, n.account = a → ∀ s ∈ db'.spends.rows,
      s.idNote = n.idNote → s ∈ db.spends.rows := by
    intro n hn hna s hs hid
    rcases hw.spends s hs with hs | ⟨-, hmem, m, hm, hmid, hma, -⟩
    · exact hs
    · obtain rfl := db'.notes.eq_of_clash hm hn (Or.inl (hmid.trans hid))
      exact absurd (hna ▸ hma ▸ hmem) hacc
  refine ⟨h.filed, ?_, ?_, ?_, ?_, ?_, ?_⟩
  · intro e he
    obtain ⟨n, hn, hshows⟩ := h.stored e he
    exact ⟨n, hw.grows.notes n hn, hshows⟩
  · exact fun n hn hna => h.notes n (hold n hn hna) hna
  · exact fun n hn hna hp s hs hid =>
      h.spends n (hold n hn hna) hna hp s (hspends n hn hna s hs hid) hid
  · exact fun n hn hna s hs hid => h.pools n (hold n hn hna) hna s (hspends n hn hna s hs hid) hid
  · intro n hn hna hp nf k hnf hr hle
    exact (h.spent n (hold n hn hna) hna hp nf k hnf hr hle).grows hw.grows le_rfl
  · intro S hS
    refine h.seam S (accountSeam_congr (fun r hra => ?_) hS)
    rw [hw.heights]
    constructor
    · rintro (⟨hmem, -⟩ | ⟨hr, -⟩)
      · exact absurd (hra ▸ hmem) hacc
      · exact hr
    · exact fun hr => Or.inr ⟨hr, fun hc => hacc (hra ▸ hc.1)⟩

omit [Inhabited H] in
theorem Mirrors.chunk (h : Mirrors env db a b) (hd : DbSound network db)
    (hw : Whole network db db' accounts h₀ height)
    (hwr : Writes env db db' accounts (scanPools network) h₀ height page)
    (hvalues : ∀ m ∈ page.received, m.2.value < 2 ^ 64)
    (hacc : a ∈ accounts) (hbelow : ∀ r ∈ b.usedUp, r.1 ≤ h₀) (h0 : h₀ ≤ height)
    (htransparent : ∀ r ∈ db'.syncHeights.rows, r.account ∈ accounts → r.pool = 0 →
      height ≤ r.height) :
    Mirrors env db' a (b ++ page.ownedBy fun m => m.account = a) where
  filed e he := by
    rcases List.mem_append.1 he with he | he
    · exact h.filed e he
    · obtain ⟨he, hown⟩ := Book.mem_received_ownedBy.1 he
      obtain ⟨hpool, heq⟩ := hwr.filed e he
      refine ⟨heq, of_decide_eq_true hown, ?_, hvalues e he⟩
      rw [mem_scanPools] at hpool
      omega
  stored e he := by
    rcases List.mem_append.1 he with he | he
    · obtain ⟨n, hn, hshows⟩ := h.stored e he
      exact ⟨n, hw.grows.notes n hn, hshows⟩
    · exact hwr.stored e (Book.mem_received_ownedBy.1 he).1
  notes n hn hna hp := by
    rcases hwr.notes n hn with hn | ⟨m, hm, hshows⟩
    · obtain ⟨e, he, hshows⟩ := h.notes n hn hna hp
      exact ⟨e, List.mem_append_left _ he, hshows⟩
    · have hown := hshows.fields.1.symm.trans hna
      exact ⟨m, List.mem_append_right _ (Book.mem_received_ownedBy.2 ⟨hm, decide_eq_true hown⟩),
        hshows⟩
  spends n hn hna hp s hs hid := by
    rcases hwr.spends s hs with hs | ⟨m, hm, hof⟩
    · -- a spend that was stored before is of a note that was stored before
      obtain ⟨m, hm, hmid, -, -⟩ := hd.spendRef s hs
      obtain rfl := db'.notes.eq_of_clash (hw.grows.notes m hm) hn (Or.inl (hmid.trans hid))
      exact (h.spends m hm hna hp s hs hid).mono fun r => List.mem_append_left _
    · obtain rfl := db'.notes.eq_of_clash hm hn (Or.inl (hof.id.trans hid))
      exact hof.mono fun r hr => List.mem_append_right _ hr
  pools n hn hna s hs hid := by
    rcases hwr.spends s hs with hs | ⟨m, hm, hof⟩
    · obtain ⟨m, hm, hmid, -, -⟩ := hd.spendRef s hs
      obtain rfl := db'.notes.eq_of_clash (hw.grows.notes m hm) hn (Or.inl (hmid.trans hid))
      exact h.pools m hm hna s hs hid
    · obtain rfl := db'.notes.eq_of_clash hm hn (Or.inl (hof.id.trans hid))
      exact hof.pool
  spent n hn hna hp nf k hnf hr hle := by
    rcases List.mem_append.1 hr with hr | hr
    · rcases hw.notes n hn with hn | ⟨-, -, -, hlt, -⟩
      · exact (h.spent n hn hna hp nf k hnf hr hle).grows hw.grows le_rfl
      · have := hbelow _ hr
        omega
    · obtain ⟨hpool, hhas⟩ := advance_notes hw hd hn hp
      exact hwr.spent n hn (hna ▸ hacc) hpool hhas nf k hnf hr
  seam S hS r hr := by
    have hle : height ≤ S := by
      obtain ⟨q, hq, hqa, rfl⟩ := accountSeam_mem hS
      by_cases hp : q.pool = 0
      · exact htransparent q hq (hqa ▸ hacc) hp
      · exact (advance_heights hw hd.heights hq (hqa ▸ hacc) hp).ge
    rcases List.mem_append.1 hr with hr | hr
    · exact (hbelow r hr).trans (h0.trans hle)
    · exact (hwr.revealedIn r hr).2.2.trans hle

end Chunks

/-! ### The books along a run -/

section Run
variable [Inhabited H] {c : ZcashCrypto H} {env : Env c} {w w' : State c} {e : Event H}
  {L : WalletBooks H}

/-- What a step of the wallet does to the books: a chunk that is committed adds its page, and
    an account goes back where its rows do. -/
def keepBooks (env : Env c) (w : State c) (e : Event H) (L : WalletBooks H) : WalletBooks H :=
  match e, w.scan with
  | .chunk headers blocks, some scan =>
    match (commitChunk env w.db scan headers blocks).scan with
    | some _ => L.extend scan.accounts Note.account (scan.page env blocks)
    | none => L
  | .reorg height, some scan =>
    match commitWarpMessages env.writer w.db [.rewind scan.accounts height] with
    | .ok _ => booksRewind env.writer.network height scan.accounts w.db L
    | .error _ => L
  | .rewind account height, none =>
    match w.db.rewindSync env.writer.network account height with
    | .ok _ => bookRewind w.db account height L
    | .error _ => L
  | .reset account, none =>
    match w.db.resetSync env.writer.network account with
    | .ok _ => L.forget account
    | .error _ => L
  | _, _ => L

/-- The values of the notes in a chunk are `u64`. -/
def ValuesU64 (env : Env c) (w : State c) : Event H → Prop
  | .chunk _ blocks => ∀ scan ∈ w.scan, ∀ m ∈ (scan.page env blocks).received, m.2.value < 2 ^ 64
  | _ => True

instance (w : State c) : ∀ e : Event H, Decidable (ValuesU64 env w e)
  | .chunk _ blocks => inferInstanceAs
      (Decidable (∀ scan ∈ w.scan, ∀ m ∈ (scan.page env blocks).received, m.2.value < 2 ^ 64))
  | .prune _ _ | .recover _ | .range _ _ _ _ _ | .reorg _ | .done _ | .stop | .rewind _ _
  | .reset _ => isTrue trivial

/-- The wallet and its books; a scan under way tracks what the rows say, and what it scans is
    above the books. -/
structure Booked (env : Env c) (w : State c) (L : WalletBooks H) : Prop where
  sound : Sound env w
  mirrors : ∀ a, Mirrors env.writer w.db a (L a)
  copies : ∀ scan ∈ w.scan, ScanCopies w.db scan
  below : ∀ scan ∈ w.scan, ∀ a ∈ scan.accounts, ∀ r ∈ (L a).usedUp, r.1 ≤ scan.height

theorem Booked.idle {db : Database H} (hd : DbSound env.writer.network db)
    (hm : ∀ a, Mirrors env.writer db a (L a)) : Booked env ⟨db, none⟩ L :=
  ⟨.idle hd, hm, by simp, by simp⟩

theorem Booked.valuesFit (h : Booked env w L) : ValuesFit w.db :=
  Mirrors.valuesFit fun a => ⟨L a, h.mirrors a⟩

omit [Inhabited H] in
theorem exists_accountSeam {db : Database H} {q : SyncHeightRow} (hq : q ∈ db.syncHeights.rows) :
    ∃ S ≤ q.height, db.accountSeam q.account = some S := by
  cases hS : db.accountSeam q.account with
  | some S => exact ⟨S, accountSeam_le hS hq rfl, rfl⟩
  | none =>
    have hnil := List.min?_eq_none_iff.1 hS
    have hmem := mem_heights.2 ⟨q, hq, rfl, rfl⟩
    rw [hnil] at hmem
    exact absurd hmem (by simp)

omit [Inhabited H] in
theorem endTransparentPass_seam {network : Network} {db : Database H} {ids : List ℕ}
    {limit start finish a S' : ℕ} (h : rangeReady network db ids start = true)
    (hle : start ≤ finish)
    (hS' : (endTransparentPass db ids limit finish).accountSeam a = some S') :
    ∃ S ≤ S', db.accountSeam a = some S := by
  obtain ⟨r, hr, hra, rfl⟩ := accountSeam_mem hS'
  obtain ⟨q, hq, hqa, -, hh⟩ := mem_endTransparentPass.1 hr
  obtain ⟨S, hSq, hS⟩ := exists_accountSeam hq
  refine ⟨S, ?_, by rw [← hra, hqa, hS]⟩
  rw [hh]
  split
  · rename_i hc
    obtain ⟨T, hT, hstart, -⟩ := rangeReady_seam h hc.1
    rw [hS, Option.some.injEq] at hT
    omega
  · exact hSq

theorem range_booked {db : Database H} {accounts : List (ℕ × Bool)} {limit start finish : ℕ}
    {fs : Frontiers H} (hb : Booked env ⟨db, none⟩ L)
    (h : step env ⟨db, none⟩ (.range accounts limit start finish fs) = some w') :
    Booked env w' L := by
  have hs := range_sound hb.sound.db h
  simp only [step] at h
  split at h
  · rename_i hready
    have hm : ∀ a, Mirrors env.writer
        (endTransparentPass db (accounts.map Prod.fst) limit finish) a (L a) := fun a =>
      (hb.mirrors a).of_tables rfl rfl fun S hS => endTransparentPass_seam hready.1 hready.2 hS
    split at h
    · rename_i scan hload
      cases h
      refine ⟨hs, hm, ?_, ?_⟩
      · rintro _ ⟨⟩
        exact load_copies hload (Mirrors.valuesFit fun a => ⟨L a, hm a⟩)
      · rintro _ ⟨⟩ a ha r hr
        obtain ⟨s, -, hload⟩ := bind_eq_ok.1 hload
        obtain ⟨o, -, hload⟩ := bind_eq_ok.1 hload
        obtain ⟨i, -, hload⟩ := bind_eq_ok.1 hload
        rw [Except.ok.injEq] at hload
        subst hload
        obtain ⟨S, hS, hstart, -⟩ := rangeReady_seam hready.1 ha
        have := (hb.mirrors a).seam S hS r hr
        change r.1 ≤ start - 1
        omega
    · cases h
      exact ⟨hs, hm, by simp, by simp⟩
  · cases h

/-- A chunk is committed whole, or ends the scan. -/
theorem commitChunk_cases (env : Env c) (db : Database H) (scan : Scan c)
    (headers : List BlockHeader) (blocks : List (CompactBlock H)) :
    commitChunk env db scan headers blocks = ⟨db, none⟩ ∨ ∃ scan' msgs db',
      scan.process env blocks = .ok (scan', msgs) ∧
      commitWarpMessages env.writer db (headers.map .blockHeader ++ msgs) = .ok db' ∧
      commitChunk env db scan headers blocks = ⟨db', some scan'⟩ := by
  unfold commitChunk
  cases hp : scan.process env blocks with
  | error f => exact Or.inl rfl
  | ok r =>
    obtain ⟨scan', msgs⟩ := r
    dsimp only
    cases hc : commitWarpMessages env.writer db (headers.map .blockHeader ++ msgs) with
    | error f => exact Or.inl rfl
    | ok db' => exact Or.inr ⟨scan', msgs, db', rfl, hc, rfl⟩

theorem keepBooks_committed {db db' : Database H} {scan scan' : Scan c}
    {headers : List BlockHeader} {blocks : List (CompactBlock H)}
    (h : commitChunk env db scan headers blocks = ⟨db', some scan'⟩) :
    keepBooks env ⟨db, some scan⟩ (.chunk headers blocks) L =
      L.extend scan.accounts Note.account (scan.page env blocks) := by
  unfold keepBooks
  dsimp only
  rw [h]

theorem keepBooks_failed {db : Database H} {scan : Scan c} {headers : List BlockHeader}
    {blocks : List (CompactBlock H)} (h : commitChunk env db scan headers blocks = ⟨db, none⟩) :
    keepBooks env ⟨db, some scan⟩ (.chunk headers blocks) L = L := by
  unfold keepBooks
  dsimp only
  rw [h]

theorem chunk_booked {db : Database H} {scan : Scan c} {headers : List BlockHeader}
    {blocks : List (CompactBlock H)} (hb : Booked env ⟨db, some scan⟩ L)
    (hr : chunkReady scan blocks = true) (hok : ChunkOk env db scan blocks)
    (hvalues : ∀ m ∈ (scan.page env blocks).received, m.2.value < 2 ^ 64) :
    Booked env (commitChunk env db scan headers blocks)
      (keepBooks env ⟨db, some scan⟩ (.chunk headers blocks) L) := by
  have hd := hb.sound.db
  have hl := hb.sound.scan scan rfl
  have hs : Sound env (commitChunk env db scan headers blocks) :=
    commitChunk_sound hd hl hr hok
  rcases commitChunk_cases env db scan headers blocks with
    heq | ⟨scan', msgs, db', hp, hc, heq⟩
  · rw [keepBooks_failed heq, heq]
    exact .idle hd hb.mirrors
  · rw [keepBooks_committed heq, heq]
    rw [heq] at hs
    obtain ⟨hw, hwr, hcopies⟩ := process_writes hp hc hr hok hl (hb.copies scan rfl)
    obtain ⟨last, iss, s, o, i, hlast, -, -, -, -, rfl, -⟩ := process_cases hp
    have hlow : ∀ b ∈ blocks, scan.height < b.height := by
      simp only [chunkReady, Bool.and_eq_true, decide_eq_true_eq, List.all_eq_true] at hr
      exact hr.2
    have h0 : scan.height ≤ last.height := (hlow last (List.mem_of_getLast? hlast)).le
    have hfin : last.height ≤ scan.finish := hok.within last (List.mem_of_getLast? hlast)
    have hbelow := hb.below scan rfl
    refine ⟨hs, fun a => ?_, ?_, ?_⟩
    · by_cases ha : a ∈ scan.accounts
      · rw [Ledger.extend_of_mem ha]
        refine (hb.mirrors a).chunk hd hw hwr hvalues ha (hbelow a ha) h0 fun r hr' hra hp' => ?_
        exact hfin.trans (hl.transparent r (advance_transparent hw hr' hp') hra hp')
      · rw [Ledger.extend_of_not_mem ha]
        exact (hb.mirrors a).chunk_other hw ha
    · rintro _ ⟨⟩
      exact hcopies
    · rintro _ ⟨⟩ a ha r hr'
      change a ∈ scan.accounts at ha
      change r.1 ≤ last.height
      rw [Ledger.extend_of_mem ha] at hr'
      rcases List.mem_append.1 hr' with hr' | hr'
      · exact (hbelow a ha r hr').trans h0
      · exact (hwr.revealedIn r hr').2.2

omit [Inhabited H] in
theorem orKeep_mirrors {env : WriterEnv} {db : Database H} {r : Except Fault (Database H)}
    {L' : WalletBooks H} (hm : ∀ a, Mirrors env db a (L a))
    (hok : ∀ db', r = .ok db' → ∀ a, Mirrors env db' a (L' a)) (a : ℕ) :
    Mirrors env (orKeep db r) a ((match r with | .ok _ => L' | .error _ => L) a) := by
  cases r with
  | error f => exact hm a
  | ok db' => exact hok db' rfl a

theorem step_booked (hb : Booked env w L) (hok : OnChain env w e ∧ ValuesU64 env w e)
    (h : step env w e = some w') : Booked env w' (keepBooks env w e L) := by
  have hs := step_sound hb.sound hok.1 h
  obtain ⟨db, scan⟩ := w
  have hd := hb.sound.db
  have hm := hb.mirrors
  cases e with
  | prune account height =>
    cases scan <;> cases h
    refine .idle hs.db fun a => (hm a).of_heights ?_ ?_ ?_ <;>
      exact (prune_frame db account height) ▸ rfl
  | recover accounts =>
    cases scan <;> cases h
    exact .idle hs.db (recover_mirrors hd hm)
  | range accounts limit start finish fs =>
    cases scan with
    | none => exact range_booked hb h
    | some s => cases h
  | chunk headers blocks =>
    cases scan with
    | none => cases h
    | some s =>
      simp only [step] at h
      split at h
      · rename_i hready
        cases h
        exact chunk_booked hb hready (hok.1 s rfl) (hok.2 s rfl)
      · cases h
  | reorg height =>
    cases scan <;> cases h
    refine .idle hs.db (orKeep_mirrors hm fun db' hr => ?_)
    obtain ⟨d, hrewinds, hnil⟩ := commit_cons_ok.1 hr
    rw [commit_nil_ok] at hnil
    subst hnil
    exact rewinds_mirrors hd hm hrewinds
  | done headers =>
    cases scan <;> cases h
    refine .idle hs.db fun a => ?_
    change Mirrors env.writer
      (orKeep db (commitWarpMessages env.writer db (headers.map .blockHeader))) a (L a)
    cases hr : commitWarpMessages env.writer db (headers.map .blockHeader) with
    | error f => exact hm a
    | ok db' =>
      have hq := commit_quiet (isQuiet_headers headers) hr
      exact (hm a).of_heights hq.notes hq.spends hq.syncHeights
  | stop =>
    cases scan <;> cases h
    exact .idle hd hm
  | rewind account height =>
    cases scan <;> cases h
    exact .idle hs.db (orKeep_mirrors hm fun db' hr => rewind_mirrors hd hm hr)
  | reset account =>
    cases scan <;> cases h
    exact .idle hs.db (orKeep_mirrors hm fun db' hr => reset_mirrors hd hm hr)

end Run

/-! ### What the books hold -/

section Held
variable {env : WriterEnv} {db : Database H} {a k : ℕ} {b : Page H}

def OpenAt (db : Database H) (k : ℕ) (n : NoteRow H) : Prop := n.height ≤ k ∧ ¬ SpentBy db n k

theorem Mirrors.row_of_held (h : Mirrors env db a b) {m : Note H}
    (hm : b.HeldAt nullifierOf k m) : ∃ n ∈ db.notes.rows, Shows env m n ∧ OpenAt db k n := by
  obtain ⟨r, hr, hle, hfree⟩ := hm
  obtain ⟨heq, hma, hmp, -⟩ := h.filed _ hr
  obtain ⟨n, hn, hshows⟩ := h.stored _ hr
  obtain ⟨hacc, hpool, hnf, hheight, -⟩ := hshows.fields
  have hrn : r = n.height := heq.trans hheight.symm
  refine ⟨n, hn, hshows, hrn ▸ hle, ?_⟩
  rintro ⟨s, hs, hid, hsk⟩
  -- the spend was revealed after the note, and not by the height
  have hof := h.spends n hn (hacc.trans hma) (hpool ▸ hmp) s hs hid
  obtain ⟨nf, hnf', hrevealed⟩ := hof.revealed
  rw [hnf, NullifierKey.shielded.injEq] at hnf'
  rw [← hnf', hpool] at hrevealed
  have := hfree s.height hrevealed (hrn ▸ hof.after)
  omega

theorem Mirrors.held_of_row (h : Mirrors env db a b) {n : NoteRow H} (hn : n ∈ db.notes.rows)
    (hacc : n.account = a) (hp : n.pool ≠ 0) (hopen : OpenAt db k n) :
    ∃ m, Shows env m n ∧ b.HeldAt nullifierOf k m := by
  obtain ⟨⟨r, m⟩, he, hshows⟩ := h.notes n hn hacc hp
  obtain ⟨-, hpool, hnf, hheight, -⟩ := hshows.fields
  have hrn : r = n.height := (h.filed _ he).1.trans hheight.symm
  refine ⟨m, hshows, r, he, hrn ▸ hopen.1, fun u hu hru => ?_⟩
  by_contra hle
  have hspent := h.spent n hn hacc hp m.nf u hnf (hpool ▸ hu) (hrn ▸ hru)
  exact hopen.2 (hspent.mono (Nat.le_of_not_lt hle))

def holds (b : Page H) (k : ℕ) (n : NoteRow H) : Bool :=
  decide (n.height ≤ k ∧ ∀ e ∈ b.usedUp, n.nullifier = .shielded e.2.2 → n.pool = e.2.1 →
    n.height ≤ e.1 → k < e.1)

theorem Mirrors.holds_iff (h : Mirrors env db a b) {n : NoteRow H} (hn : n ∈ db.notes.rows)
    (hacc : n.account = a) (hp : n.pool ≠ 0) : holds b k n = true ↔ OpenAt db k n := by
  unfold holds OpenAt
  rw [decide_eq_true_eq]
  refine and_congr_right fun _ => ⟨?_, ?_⟩
  · rintro hfree ⟨s, hs, hid, hsk⟩
    have hof := h.spends n hn hacc hp s hs hid
    obtain ⟨nf, hnf, hr⟩ := hof.revealed
    have := hfree (s.height, n.pool, nf) hr hnf rfl hof.after
    omega
  · rintro hns ⟨u, p, nf⟩ hr hnf rfl hle
    by_contra hlt
    exact hns ((h.spent n hn hacc hp nf u hnf hr hle).mono (Nat.le_of_not_lt hlt))

/-- The notes and the spends that the balance of a pool counts at a height. -/
def countedNotes (db : Database H) (a k pool : ℕ) : List (NoteRow H) :=
  db.notes.rows.filter fun n => n.account = a ∧ n.idAsset = none ∧ n.height ≤ k ∧ n.pool = pool

def countedSpends (db : Database H) (a k pool : ℕ) : List SpendRow :=
  db.spends.rows.filter fun s => s.account = a ∧ s.height ≤ k ∧ s.pool = pool ∧
    db.notes.rows.any fun n => n.idNote = s.idNote ∧ n.idAsset = none

theorem countedSpends_note (h : Mirrors env db a b) {network : Network} (hd : DbSound network db)
    {pool : ℕ} (hp : pool ≠ 0) : ∀ s ∈ countedSpends db a k pool,
      ∃ n ∈ countedNotes db a k pool, n.idNote = s.idNote ∧ s.value = -n.value := by
  intro s hs
  obtain ⟨hs, hkey⟩ := List.mem_filter.1 hs
  obtain ⟨hsa, hsk, hsp, hany⟩ := of_decide_eq_true hkey
  obtain ⟨n, hn, hzec⟩ := List.any_eq_true.1 hany
  obtain ⟨hid, hasset⟩ := of_decide_eq_true hzec
  have hna : n.account = a := (hd.spend_account hs hn hid.symm).symm.trans hsa
  have hnp : n.pool = pool := (h.pools n hn hna s hs hid.symm).symm.trans hsp
  have hof := h.spends n hn hna (hnp ▸ hp) s hs hid.symm
  refine ⟨n, List.mem_filter.2 ⟨hn, decide_eq_true ⟨hna, hasset, ?_, hnp⟩⟩, hid, hof.value⟩
  exact hof.after.trans hsk

/-- A note that is counted is spent by the height exactly when a spend of it is counted. -/
theorem mem_countedSpends (h : Mirrors env db a b) {network : Network} (hd : DbSound network db)
    {pool : ℕ} {n : NoteRow H} (hn : n ∈ countedNotes db a k pool) :
    n.idNote ∈ (countedSpends db a k pool).map SpendRow.idNote ↔ SpentBy db n k := by
  obtain ⟨hn, hkey⟩ := List.mem_filter.1 hn
  obtain ⟨hna, hasset, hnk, hnp⟩ := of_decide_eq_true hkey
  rw [List.mem_map]
  constructor
  · rintro ⟨s, hs, hid⟩
    obtain ⟨hs, hskey⟩ := List.mem_filter.1 hs
    exact ⟨s, hs, hid, (of_decide_eq_true hskey).2.1⟩
  · rintro ⟨s, hs, hid, hsk⟩
    refine ⟨s, List.mem_filter.2 ⟨hs, decide_eq_true ⟨?_, hsk, ?_, ?_⟩⟩, hid⟩
    · exact (hd.spend_account hs hn hid).trans hna
    · exact (h.pools n hn hna s hs hid).trans hnp
    · exact List.any_eq_true.2 ⟨n, hn, decide_eq_true ⟨hid.symm, hasset⟩⟩

/-- Notes less spends are the notes that the book holds, at any height. -/
theorem Mirrors.balance (h : Mirrors env db a b) {network : Network} (hd : DbSound network db)
    {pool : ℕ} (hp : pool ≠ 0) :
    db.calculateBalance a k pool = ((db.notes.rows.filter fun n => n.account = a ∧
      n.pool = pool ∧ n.idAsset = none ∧ holds b k n = true).map NoteRow.value).sum := by
  have hns : ((countedNotes db a k pool).map NoteRow.idNote).Nodup := by
    refine List.Nodup.map_on (fun n hn m hm hid => ?_) (db.notes.nodup.filter _)
    exact db.notes.eq_of_clash (List.mem_of_mem_filter hn) (List.mem_of_mem_filter hm) (Or.inl hid)
  have hss : ((countedSpends db a k pool).map SpendRow.idNote).Nodup := by
    refine List.Nodup.map_on (fun s hs t ht hid => ?_) (db.spends.nodup.filter _)
    exact db.spends.eq_of_clash (List.mem_of_mem_filter hs) (List.mem_of_mem_filter ht) hid
  have hsum := sum_add_cancelled hns hss (countedSpends_note h hd hp)
  have hopen : ((countedNotes db a k pool).filter fun n =>
      n.idNote ∉ (countedSpends db a k pool).map SpendRow.idNote) =
      db.notes.rows.filter fun n => n.account = a ∧ n.pool = pool ∧ n.idAsset = none ∧
        holds b k n = true := by
    unfold countedNotes
    rw [List.filter_filter]
    refine List.filter_congr fun n hn => Bool.eq_iff_iff.2 ?_
    rw [Bool.and_eq_true, decide_eq_true_eq, decide_eq_true_eq, decide_eq_true_eq]
    constructor
    · rintro ⟨hfree, hna, hasset, hnk, hnp⟩
      have hc : n ∈ countedNotes db a k pool :=
        List.mem_filter.2 ⟨hn, decide_eq_true ⟨hna, hasset, hnk, hnp⟩⟩
      refine ⟨hna, hnp, hasset, (h.holds_iff hn hna (hnp ▸ hp)).2 ⟨hnk, fun hs => hfree ?_⟩⟩
      exact (mem_countedSpends h hd hc).2 hs
    · rintro ⟨hna, hnp, hasset, hholds⟩
      obtain ⟨hnk, hns⟩ := (h.holds_iff hn hna (hnp ▸ hp)).1 hholds
      have hc : n ∈ countedNotes db a k pool :=
        List.mem_filter.2 ⟨hn, decide_eq_true ⟨hna, hasset, hnk, hnp⟩⟩
      exact ⟨fun hm => hns ((mem_countedSpends h hd hc).1 hm), hna, hasset, hnk, hnp⟩
  rw [hopen] at hsum
  exact hsum

end Held

/-! ### Every reachable wallet -/

section Reachable
variable [Inhabited H] {c : ZcashCrypto H} {env : Env c} {db : Database H} {w : State c}
  {es : List (Event H)}

theorem Unscanned.booked (h : Unscanned env.writer.network db) :
    Booked env ⟨db, none⟩ fun _ => Book.empty := by
  refine .idle h.sound fun a => Mirrors.of_no_notes ?_ ?_
  · simp [h.notes]
  · simp [h.notes]

def booksOf (env : Env c) (db : Database H) (es : List (Event H)) : WalletBooks H :=
  noted (step env) (keepBooks env) ⟨db, none⟩ es fun _ => Book.empty

theorem run_booked (h₀ : Unscanned env.writer.network db)
    (hok : AllSteps (step env) (fun w e => OnChain env w e ∧ ValuesU64 env w e) ⟨db, none⟩ es)
    (h : run (step env) ⟨db, none⟩ es = some w) : Booked env w (booksOf env db es) :=
  run_noted_inv (step env) (keepBooks env)
    (fun _ _ _ _ hb hok hstep => step_booked hb hok hstep) h₀.booked hok h

end Reachable

end ZcashSdk.Wallet
