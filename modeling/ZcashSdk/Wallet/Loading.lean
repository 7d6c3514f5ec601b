import ZcashSdk.Wallet.Advance

set_option autoImplicit false

/-!
# Loading the synchronizers of a scan

A synchronizer is loaded from the notes that are not spent and have a witness at the
last height. When that height is settled these are all its notes, so the synchronizer
follows its pool from there on.
-/
namespace ZcashSdk.Wallet
open Tables Shielded Db Loops

variable {H : Type} [DecidableEq H] [Inhabited H]

/-! ### One note -/

omit [DecidableEq H] [Inhabited H] in
theorem loadUtxo_ok {pool : ℕ} {n : NoteRow H} {w : WitnessRow H} (hn : Columns n) :
    ∃ u, loadUtxo pool n w = .ok u := by
  obtain ⟨nf, cmx, p, h1, h2, h3⟩ := hn
  exact ⟨_, by rw [loadUtxo, h1, h2, h3]⟩

omit [DecidableEq H] [Inhabited H] in
theorem is_of_loadUtxo {pool : ℕ} {n : NoteRow H} {w : WitnessRow H} {u : UTXO H}
    (h : loadUtxo pool n w = .ok u) : Is u n := by
  unfold loadUtxo at h
  split at h
  · rename_i nf p cmx h1 h2 h3
    rw [Except.ok.injEq] at h
    subst h
    exact ⟨rfl, h1, h3⟩
  · cases h

omit [Inhabited H] in
theorem mem_unspentAt {db : Database H} {pool account height : ℕ} {r : NoteRow H × WitnessRow H} :
    r ∈ unspentAt db pool account height ↔
      r.1 ∈ db.notes.rows ∧ r.1.pool = pool ∧ r.1.account = account ∧
        db.isSpent r.1.idNote = false ∧
        r.2 ∈ db.witnesses.rows ∧ r.2.note = r.1.idNote ∧ r.2.height = height := by
  obtain ⟨n, w⟩ := r
  simp only [unspentAt, List.mem_flatMap, List.mem_filter, List.mem_map, Prod.mk.injEq,
    decide_eq_true_eq]
  constructor
  · rintro ⟨m, ⟨hm, h1, h2, h3⟩, v, ⟨hv, h4, h5⟩, rfl, rfl⟩
    exact ⟨hm, h1, h2, h3, hv, h4, h5⟩
  · rintro ⟨hm, h1, h2, h3, hv, h4, h5⟩
    exact ⟨n, ⟨hm, h1, h2, h3⟩, w, ⟨hv, h4, h5⟩, rfl, rfl⟩

omit [Inhabited H] in
theorem isSpent_eq_true {db : Database H} {i : ℕ} :
    db.isSpent i = true ↔ ∃ s ∈ db.spends.rows, s.idNote = i := by
  simp [Database.isSpent]

/-! ### A synchronizer -/

variable {P : ShieldedProtocol H} {db : Database H} {pool height : ℕ} {keys : List (Key P)}
  {frontier : Frontier H} {debug : Bool}

variable (height keys frontier debug) in
omit [Inhabited H] in
/-- Nothing in a well-formed database keeps a synchronizer from loading. -/
theorem exists_new (hc : ∀ n ∈ db.notes.rows, n.pool = pool → Columns n) :
    ∃ s, Synchronizer.new db pool height keys frontier debug = .ok s := by
  have hload : ∀ k ∈ keys, ∃ us, loadAccount db pool (height - 1) k.account = .ok us := by
    intro k _
    refine exists_mapM_ok fun r hr => ?_
    obtain ⟨hn, hp, -⟩ := mem_unspentAt.1 hr
    exact loadUtxo_ok (hc r.1 hn hp)
  obtain ⟨us, hus⟩ := exists_flatMapM_ok hload
  exact ⟨_, bind_eq_ok.2 ⟨us, hus, rfl⟩⟩

omit [Inhabited H] in
theorem new_spec {s : Synchronizer P}
    (h : Synchronizer.new db pool height keys frontier debug = .ok s) :
    s.pool = pool ∧ s.keys = keys ∧
      (∀ u ∈ s.utxos, ∃ k ∈ keys, ∃ r ∈ unspentAt db pool k.account (height - 1), Is u r.1) ∧
      ∀ k ∈ keys, ∀ r ∈ unspentAt db pool k.account (height - 1), ∃ u ∈ s.utxos, Is u r.1 := by
  obtain ⟨us, hus, h⟩ := bind_eq_ok.1 h
  rw [Except.ok.injEq] at h
  subst h
  have hfrom : ∀ u ∈ us, ∃ k ∈ keys, ∃ r ∈ unspentAt db pool k.account (height - 1), Is u r.1 := by
    intro u hu
    obtain ⟨k, hk, xs, hx, hu⟩ := mem_flatMapM hus hu
    obtain ⟨r, hr, hl⟩ := mapM_ok_mem hx hu
    exact ⟨k, hk, r, hr, is_of_loadUtxo hl⟩
  have hin : ∀ u ∈ us.foldl insertUtxo [], u ∈ us := fun u hu =>
    (mem_insertAll hu).resolve_left (by simp)
  refine ⟨rfl, rfl, fun u hu => hfrom u (hin u hu), ?_⟩
  intro k hk r hr
  obtain ⟨xs, hx, hsub⟩ := mem_of_flatMapM_ok hus hk
  obtain ⟨u, hu, hl⟩ := mem_of_mapM_ok hx hr
  -- the map keeps one note for each key, and rows are unique for a key
  have hkey : u.key ∈ (us.foldl insertUtxo []).map UTXO.key :=
    (keys_insertAll _ _ _).2 (Or.inr (List.mem_map_of_mem (hsub hu)))
  obtain ⟨v, hv, hvu⟩ := List.mem_map.1 hkey
  obtain ⟨k', -, r', hr', his⟩ := hfrom v (hin v hv)
  have := Is.unique (mem_unspentAt.1 hr').1 (mem_unspentAt.1 hr).1 his (is_of_loadUtxo hl) hvu
  exact ⟨v, hv, this ▸ his⟩

omit [Inhabited H] in
/-- From a settled height, a note that is not tracked was spent by then. -/
theorem new_finds {s : Synchronizer P} {n : NoteRow H}
    (h : Synchronizer.new db pool height keys frontier debug = .ok s) (hp : pool ≠ 0)
    (hn : n ∈ db.notes.rows) (ha : n.account ∈ keys.map Key.account) (hnp : n.pool = pool)
    (hs : Settled db n.account (height - 1)) :
    (∃ u ∈ s.utxos, Is u n) ∨ SpentBy db n (height - 1) := by
  obtain ⟨-, -, -, htracked⟩ := new_spec h
  have hn0 : n.pool ≠ 0 := hnp ▸ hp
  obtain ⟨k, hk, hka⟩ := List.mem_map.1 ha
  by_cases hsp : db.isSpent n.idNote = true
  · obtain ⟨sp, hsp, hid⟩ := isSpent_eq_true.1 hsp
    exact Or.inr ⟨sp, hsp, hid, hs.spends n hn rfl hn0 sp hsp hid⟩
  · have hns : ¬ SpentBy db n (height - 1) :=
      fun ⟨sp, hm, hid, _⟩ => hsp (isSpent_eq_true.2 ⟨sp, hm, hid⟩)
    obtain ⟨w, hw, -, hwn, hwh⟩ := hs.complete n hn rfl hn0 (hs.notes n hn rfl hn0) hns
    refine Or.inl (htracked k hk (n, w) (mem_unspentAt.2 ⟨hn, hnp, hka.symm, ?_, hw, hwn, hwh⟩))
    simpa using hsp

omit [Inhabited H] in
theorem new_tracks {s : Synchronizer P}
    (h : Synchronizer.new db pool height keys frontier debug = .ok s) (hp : pool ≠ 0)
    (hset : ∀ a ∈ keys.map Key.account, Settled db a (height - 1)) :
    Tracks db s (height - 1) := by
  obtain ⟨hpool, hkeys, hheld, -⟩ := new_spec h
  have hacc : s.accounts = keys.map Key.account := by rw [Synchronizer.accounts, hkeys]
  refine ⟨?_, ?_, ?_⟩
  · intro u hu
    obtain ⟨k, hk, r, hr, his⟩ := hheld u hu
    rw [hacc, ← his.1, (mem_unspentAt.1 hr).2.2.1]
    exact List.mem_map_of_mem hk
  · intro u hu
    obtain ⟨k, hk, r, hr, his⟩ := hheld u hu
    obtain ⟨hn, hrp, hra, -⟩ := mem_unspentAt.1 hr
    exact ⟨r.1, hn, his, (hset _ (List.mem_map_of_mem hk)).notes r.1 hn hra (hrp ▸ hp)⟩
  · intro n hn ha hnp
    rw [hacc] at ha
    exact new_finds h hp hn ha (hnp.trans hpool) (hset _ ha)

/-! ### The keys -/

omit [Inhabited H] in
theorem mem_scopeKey {key : ℕ → ℕ → P.IVK × P.NK} {x scope : ℕ} {k : Key P} :
    (k ∈ (if db.hasPool x pool then some (key x scope) else none).toList.map
      fun v => ⟨x, scope, v.1, v.2⟩) ↔
      db.hasPool x pool = true ∧ k = ⟨x, scope, (key x scope).1, (key x scope).2⟩ := by
  by_cases hp : db.hasPool x pool = true <;> simp [hp]

omit [Inhabited H] in
theorem mem_loadKeys {key : ℕ → ℕ → P.IVK × P.NK} {accounts : List (ℕ × Bool)} {a : ℕ} :
    a ∈ (loadKeys (P := P) (fun a s => if db.hasPool a pool then some (key a s) else none)
        accounts).map Key.account ↔
      a ∈ accounts.map Prod.fst ∧ db.hasPool a pool = true := by
  rw [List.mem_map, List.mem_map]
  constructor
  · rintro ⟨k, hk, rfl⟩
    obtain ⟨x, hx, hk⟩ := List.mem_flatMap.1 hk
    rcases List.mem_append.1 hk with hk | hk
    · obtain ⟨hp, rfl⟩ := mem_scopeKey.1 hk
      exact ⟨⟨x, hx, rfl⟩, hp⟩
    · split at hk
      · obtain ⟨hp, rfl⟩ := mem_scopeKey.1 hk
        exact ⟨⟨x, hx, rfl⟩, hp⟩
      · simp at hk
  · rintro ⟨⟨x, hx, rfl⟩, hp⟩
    exact ⟨_, List.mem_flatMap.2 ⟨x, hx, List.mem_append_left _ (mem_scopeKey.2 ⟨hp, rfl⟩)⟩, rfl⟩

omit [Inhabited H] in
theorem new_syncLive {key : ℕ → ℕ → P.IVK × P.NK} {accounts : List (ℕ × Bool)}
    {s : Synchronizer P}
    (h : Synchronizer.new db pool height
      (loadKeys (fun a s => if db.hasPool a pool then some (key a s) else none) accounts)
      frontier debug = .ok s) (hp : pool ≠ 0)
    (hset : ∀ a ∈ accounts.map Prod.fst, Settled db a (height - 1)) :
    SyncLive db (accounts.map Prod.fst) s pool (height - 1) where
  pool_eq := (new_spec h).1
  accounts a := by
    rw [Synchronizer.accounts, (new_spec h).2.1]
    exact mem_loadKeys
  tracks := new_tracks h hp fun a ha => hset a (mem_loadKeys.1 ha).1

end ZcashSdk.Wallet
