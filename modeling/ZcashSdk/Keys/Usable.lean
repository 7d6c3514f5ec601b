import ZcashSdk.Keys.Restored

set_option autoImplicit false

/-!
# Whether an account can sign

A key passes when it gives the viewing key of every pool of the account, and there is one.
What a new account is said to be able to sign is compared with that.
-/
namespace ZcashSdk.Keys
open Tables Shielded Loops
open Api (Network)

/-! ### Verification -/

section Verify
variable {lib : KeyLib} {db : Database} {account : ℕ} {a : AccountRow} {key : SigningKey lib}

def Agrees (c : Option (Option Bytes) × Option Bytes) : Prop :=
  c.1 = none ∨ ∃ xvk, c.1 = some (some xvk) ∧ c.2 = some xvk

theorem compare_eq_ok {compared n : ℕ} {c : Option (Option Bytes) × Option Bytes} :
    compare account compared c = .ok n ↔ Agrees c ∧ n = compared + c.1.toList.length := by
  obtain ⟨stored, expected⟩ := c
  unfold compare Agrees
  rcases stored with _ | _ | xvk
  · simp [eq_comm]
  · simp
  · by_cases hx : expected = some xvk
    · simp [hx, eq_comm]
    · simp [hx]

theorem foldlM_compare {cs : List (Option (Option Bytes) × Option Bytes)} {compared n : ℕ} :
    cs.foldlM (compare account) compared = .ok n ↔
      (∀ c ∈ cs, Agrees c) ∧ n = compared + (cs.map fun c => c.1.toList.length).sum := by
  induction cs generalizing compared with
  | nil =>
    rw [List.foldlM_nil]
    simp [pure, Except.pure, eq_comm]
  | cons c cs ih =>
    rw [List.foldlM_cons, bind_eq_ok, List.forall_mem_cons, List.map_cons, List.sum_cons]
    constructor
    · rintro ⟨m, hm, hn⟩
      obtain ⟨hc, rfl⟩ := compare_eq_ok.1 hm
      obtain ⟨hcs, rfl⟩ := ih.1 hn
      exact ⟨⟨hc, hcs⟩, by omega⟩
    · rintro ⟨⟨hc, hcs⟩, rfl⟩
      exact ⟨_, compare_eq_ok.2 ⟨hc, rfl⟩, ih.2 ⟨hcs, by omega⟩⟩

def StoredKeys.comparisons (k : StoredKeys) (key : SigningKey lib) :
    List (Option (Option Bytes) × Option Bytes) :=
  [(k.transparent, signingKeyTransparentPubkey key),
    (k.sapling.map some, signingKeySaplingDfvk key),
    (k.orchard.map some, signingKeyOrchardFvk key)]

theorem comparisons_some (a : AccountRow) (key : SigningKey lib) :
    comparisons (some a) key = a.storedKeys.comparisons key := by
  unfold comparisons StoredKeys.comparisons AccountRow.storedKeys
  rw [Option.map_map]
  rfl

def StoredKeys.Provisioned (k : StoredKeys) : Prop :=
  k.transparent.isSome = true ∨ k.sapling.isSome = true ∨ k.orchard.isSome = true

theorem verifySpendingKey_ok_iff
    (hfind : db.accounts.rows.find? (fun a => decide (a.idAccount = account)) = some a) :
    verifySpendingKey db account key = .ok () ↔
      (∀ c ∈ a.storedKeys.comparisons key, Agrees c) ∧ a.storedKeys.Provisioned := by
  have hcount : 0 < ((a.storedKeys.comparisons key).map fun c => c.1.toList.length).sum ↔
      a.storedKeys.Provisioned := by
    unfold StoredKeys.comparisons StoredKeys.Provisioned
    obtain ⟨t, s, o⟩ := a.storedKeys
    cases t <;> cases s <;> cases o <;> simp
  unfold verifySpendingKey
  rw [hfind]
  dsimp only
  rw [comparisons_some, bind_eq_ok]
  constructor
  · rintro ⟨n, hn, h⟩
    obtain ⟨hagrees, rfl⟩ := foldlM_compare.1 hn
    split at h
    · cases h
    · exact ⟨hagrees, hcount.1 (by omega)⟩
  · rintro ⟨hagrees, hprovisioned⟩
    have hpos := hcount.2 hprovisioned
    exact ⟨_, foldlM_compare.2 ⟨hagrees, rfl⟩, if_neg (by omega)⟩

end Verify

/-! ### What is promised of a new account -/

section Promise
variable (lib : KeyLib) (network : Network) (na : NewAccount)

def Passes (db : Database) (account : ℕ) : Prop :=
  ∃ bytes key fuel, keyForSigning lib network na = some bytes ∧
    SigningKeys.decode lib.signing bytes fuel = some (.ok key) ∧
    verifySpendingKey db account key = .ok ()

def StoredKeys.has (k : StoredKeys) : ℕ → Bool
  | 0 => k.transparent.isSome
  | 1 => k.sapling.isSome
  | 2 => k.orchard.isSome
  | _ => false

def Several (pools : ℕ) : Prop := ∃ p q, p ≠ q ∧ pools.testBit p = true ∧ pools.testBit q = true

structure Usable (db : Database) (a : AccountRow) : Prop where
  provisioned : ∃ pool, a.storedKeys.has pool = true
  pools : Several (getKeyPools lib network na.key) → ∀ pool, a.storedKeys.has pool =
    ((getKeyPools lib network na.key).testBit pool && (na.pools.getD allPools).testBit pool)
  canSign : a.canSign = true ↔ Passes lib network na db a.idAccount

/-- There is a key, and of one for several pools the mask asks for one that it has. -/
structure AsksForKey : Prop where
  key : na.key ≠ ""
  phrase : isValidPhrase lib na.key = true →
    ∃ pool < 3, (na.pools.getD allPools).testBit pool = true
  ufvk : ∀ u, lib.ufvkDecode network na.key = some u →
    ∃ pool, u.pools.testBit pool = true ∧ (na.pools.getD allPools).testBit pool = true

end Promise

/-! ### Keys that are handed out -/

section Handed
variable {lib : KeyLib} {format : String → Format} {network : Network} {na : NewAccount}
  {db : Database} {a : AccountRow}

theorem decode_usk (hlib : lib.Lawful) (usk : lib.Usk) :
    ∃ bound, ∀ fuel, bound ≤ fuel →
      SigningKeys.decode lib.signing (lib.uskToBytes usk) fuel = some (.ok (.unified usk)) := by
  obtain ⟨records, hwritten, hthree, hkeys, husk⟩ := hlib.usk usk
  have htypes : (records.map Prod.fst).Perm
      [SigningKeys.typecodeP2pkh, SigningKeys.typecodeSapling, SigningKeys.typecodeOrchard] := by
    rcases hwritten.2.2 with hone | hone | hall
    · have hlen := congrArg List.length hone
      rw [List.length_map, hthree] at hlen
      cases hlen
    · have hlen := congrArg List.length hone
      rw [List.length_map, hthree] at hlen
      cases hlen
    · exact hall
  obtain ⟨result, bound, hrun, -, hresult⟩ :=
    SigningKeys.decode_spec hlib.signing (lib.uskToBytes usk)
  refine ⟨bound, fun fuel hfuel => ?_⟩
  rw [hrun fuel hfuel, (hresult (.unified usk)).2 ⟨records, hwritten, .unified htypes hkeys husk⟩]

theorem keyForSigning_phrase {usk : lib.Usk} {fingerprint : Bytes}
    (hkey : isValidPhrase lib na.key = true) (haindex : accountId na.aindex = some na.aindex)
    (husk : uskFromPhrase lib network na.key (na.passphrase.getD "") na.aindex =
      .ok (usk, fingerprint)) : keyForSigning lib network na = some (lib.uskToBytes usk) := by
  unfold keyForSigning deriveSpendingKey
  rw [if_pos hkey, haindex]
  dsimp only
  rw [husk]
  rfl

theorem keyForSigning_xprv (hlib : lib.Lawful) {x : lib.Xprv}
    (hphrase : isValidPhrase lib na.key = false) (hkey : isAccountXprv lib network na.key = true)
    (hx : lib.signing.xprvFromStr na.key = some x) :
    ∃ bytes bound, keyForSigning lib network na = some bytes ∧ ∀ fuel, bound ≤ fuel →
      SigningKeys.decode lib.signing bytes fuel =
        some (.ok (.transparent (lib.signing.fromExtendedPrivkey x))) := by
  obtain ⟨hlength, hdecode⟩ := hlib.signing.transparent (lib.signing.fromExtendedPrivkey x)
  obtain ⟨bound, hrun⟩ := SigningKeys.decode_single hlib.signing
    (t := SigningKeys.typecodeP2pkh) (by rw [hlength]; rfl) (.transparent hdecode)
  refine ⟨_, bound, ?_, hrun⟩
  unfold keyForSigning importSpendingKey classifyKey
  rw [hphrase, if_neg Bool.false_ne_true, if_neg Bool.false_ne_true, if_pos hkey]
  unfold SigningKeys.encodeTransparent
  rw [hx]
  rfl

theorem keyForSigning_esk (hlib : lib.Lawful) {k : lib.SaplingKey}
    (hphrase : isValidPhrase lib na.key = false) (hxprv : isAccountXprv lib network na.key = false)
    (hxpub : isAccountXpub lib network na.key = false)
    (hk : decodeEsk lib network na.key = some k) :
    ∃ bytes bound, keyForSigning lib network na = some bytes ∧ ∀ fuel, bound ≤ fuel →
      SigningKeys.decode lib.signing bytes fuel = some (.ok (.sapling k)) := by
  obtain ⟨hlength, hdecode⟩ := hlib.signing.sapling k
  obtain ⟨bound, hrun⟩ := SigningKeys.decode_single hlib.signing
    (t := SigningKeys.typecodeSapling) (by rw [hlength]; rfl) (.sapling hdecode)
  refine ⟨_, bound, ?_, hrun⟩
  have hesk : isSaplingEsk lib network na.key = true := by rw [isSaplingEsk, hk]; rfl
  unfold keyForSigning importSpendingKey classifyKey
  rw [hphrase, if_neg Bool.false_ne_true, if_neg Bool.false_ne_true, hxprv,
    if_neg Bool.false_ne_true, hxpub, if_neg Bool.false_ne_true, if_pos hesk]
  unfold SigningKeys.encodeSapling
  unfold decodeEsk at hk
  rw [hk]
  rfl

theorem keyForSigning_eq_none (hphrase : isValidPhrase lib na.key = false)
    (hxprv : isAccountXprv lib network na.key = false)
    (hesk : isSaplingEsk lib network na.key = false) : keyForSigning lib network na = none := by
  unfold keyForSigning importSpendingKey classifyKey
  rw [hphrase, hxprv, hesk]
  simp only [Bool.false_eq_true, if_false]
  by_cases hxpub : isAccountXpub lib network na.key = true
  · simp only [hxpub, if_true]
    rfl
  by_cases hefvk : isSaplingEfvk lib network na.key = true
  · simp only [hxpub, hefvk, if_true]
    rfl
  simp only [hxpub, hefvk]
  cases lib.ufvkDecode network na.key with
  | some u => rfl
  | none =>
    dsimp only
    split_ifs <;> rfl

end Handed

/-! ### Each format -/

section Formats
variable {lib : KeyLib} {format : String → Format} {network : Network} {na : NewAccount}
  {db : Database} {a : AccountRow}

/-- The account is stored, and its permission to sign was decided from the text. -/
structure Made (lib : KeyLib) (network : Network) (na : NewAccount) (db : Database)
    (a : AccountRow) : Prop where
  find : db.accounts.rows.find? (fun b => decide (b.idAccount = a.idAccount)) = some a
  canSign : a.canSign = canSignWith lib network na.key

theorem find_account (ha : a ∈ db.accounts.rows) :
    db.accounts.rows.find? (fun b => decide (b.idAccount = a.idAccount)) = some a := by
  refine (db.accounts.find?_eq_some fun b hb c hc hp hq => ?_).2 ⟨ha, decide_eq_true rfl⟩
  rw [decide_eq_true_eq] at hp hq
  exact db.accounts.eq_of_clash hb hc (hp.trans hq.symm)

theorem provisioned_iff {k : StoredKeys} : k.Provisioned ↔ ∃ pool, k.has pool = true := by
  constructor
  · rintro (h | h | h)
    · exact ⟨0, h⟩
    · exact ⟨1, h⟩
    · exact ⟨2, h⟩
  · rintro ⟨pool, h⟩
    match pool, h with
    | 0, h => exact .inl h
    | 1, h => exact .inr (.inl h)
    | 2, h => exact .inr (.inr h)

theorem not_several {pools pool : ℕ} (h : ∀ p, pools.testBit p = true → p = pool) :
    ¬ Several pools := by
  rintro ⟨p, q, hne, hp, hq⟩
  exact hne ((h p hp).trans (h q hq).symm)

theorem not_several_zero : ¬ Several 0 :=
  @not_several 0 0 fun _ hp => by simp at hp

theorem not_several_one : ¬ Several 1 :=
  not_several fun _ hp => Nat.testBit_one_eq_true_iff_self_eq_zero.1 hp

theorem not_several_two : ¬ Several 2 :=
  @not_several 2 1 fun p hp => by
    rw [show (2 : ℕ) = 2 ^ 1 from rfl, Nat.testBit_two_pow] at hp
    exact (of_decide_eq_true hp).symm

theorem asksForKey_of_format (htells : lib.Tells format) (hkey : na.key ≠ "")
    (hphrase : format na.key ≠ .phrase) (hufvk : format na.key ≠ .ufvk) :
    AsksForKey lib network na where
  key := hkey
  phrase h := absurd (htells.isValidPhrase h) hphrase
  ufvk u hu := absurd (htells.ufvk network na.key (by rw [hu]; rfl)) hufvk

/-- The key of the host passes when it agrees with every column. -/
theorem passes_of_decode (hmade : Made lib network na db a) {bytes : Bytes} {key : SigningKey lib}
    {bound : ℕ} (hbytes : keyForSigning lib network na = some bytes)
    (hdecode : ∀ fuel, bound ≤ fuel →
      SigningKeys.decode lib.signing bytes fuel = some (.ok key))
    (hagrees : ∀ c ∈ a.storedKeys.comparisons key, Agrees c)
    (hprovisioned : a.storedKeys.Provisioned) : Passes lib network na db a.idAccount :=
  ⟨bytes, key, bound, hbytes, hdecode bound le_rfl,
    (verifySpendingKey_ok_iff hmade.find).2 ⟨hagrees, hprovisioned⟩⟩

theorem Passes.provisioned (hmade : Made lib network na db a)
    (h : Passes lib network na db a.idAccount) : a.storedKeys.Provisioned := by
  obtain ⟨bytes, key, fuel, -, -, hverify⟩ := h
  exact ((verifySpendingKey_ok_iff hmade.find).1 hverify).2

theorem canSignWith_of_format (htells : lib.Tells format) (hkey : na.key ≠ "")
    (hphrase : format na.key ≠ .phrase) (hxprv : format na.key ≠ .xprv)
    (hesk : format na.key ≠ .esk) :
    canSignWith lib network na.key = false ∧ keyForSigning lib network na = none := by
  have hp : isValidPhrase lib na.key = false := eq_false_of_format htells.isValidPhrase hphrase
  have hx : isAccountXprv lib network na.key = false :=
    eq_false_of_format htells.isAccountXprv hxprv
  have he : isSaplingEsk lib network na.key = false := eq_false_of_format htells.isSaplingEsk hesk
  refine ⟨?_, keyForSigning_eq_none hp hx he⟩
  unfold canSignWith
  rw [hp, hx, he]
  simpa using hkey

theorem usable_of_viewing (hmade : Made lib network na db a)
    (hsign : canSignWith lib network na.key = false ∧ keyForSigning lib network na = none)
    (hprovisioned : a.storedKeys.Provisioned)
    (hpools : Several (getKeyPools lib network na.key) → ∀ pool, a.storedKeys.has pool =
      ((getKeyPools lib network na.key).testBit pool && (na.pools.getD allPools).testBit pool)) :
    Usable lib network na db a where
  provisioned := provisioned_iff.1 hprovisioned
  pools := hpools
  canSign := by
    rw [hmade.canSign, hsign.1]
    refine iff_of_false Bool.false_ne_true ?_
    rintro ⟨bytes, key, fuel, hbytes, -⟩
    rw [hsign.2] at hbytes
    cases hbytes

theorem usable_of_signing (hmade : Made lib network na db a)
    (hsign : canSignWith lib network na.key = true) (hpasses : Passes lib network na db a.idAccount)
    (hpools : Several (getKeyPools lib network na.key) → ∀ pool, a.storedKeys.has pool =
      ((getKeyPools lib network na.key).testBit pool && (na.pools.getD allPools).testBit pool)) :
    Usable lib network na db a where
  provisioned := provisioned_iff.1 (hpasses.provisioned hmade)
  pools := hpools
  canSign := by
    rw [hmade.canSign, hsign]
    exact iff_of_true rfl hpasses

/-! ### Keys of several pools -/

theorem asked_isSome {α : Type} {pools pool : ℕ} {key : Option α} :
    (asked pools pool key).isSome = (key.isSome && pools.testBit pool) := by
  unfold asked
  cases pools.testBit pool <;> simp

theorem has_asked (pools : ℕ) (k : StoredKeys) (pool : ℕ) :
    (⟨asked pools 0 k.transparent, asked pools 1 k.sapling, asked pools 2 k.orchard⟩ :
      StoredKeys).has pool = (k.has pool && pools.testBit pool) := by
  match pool with
  | 0 => exact asked_isSome
  | 1 => exact asked_isSome
  | 2 => exact asked_isSome
  | n + 3 => rfl

theorem testBit_eq_false_of_lt_eight {n pool : ℕ} (hn : n < 8) (hpool : 3 ≤ pool) :
    n.testBit pool = false := by
  refine Nat.testBit_lt_two_pow (hn.trans_le ?_)
  calc 8 = 2 ^ 3 := rfl
    _ ≤ 2 ^ pool := Nat.pow_le_pow_right (by omega) hpool

theorem testBit_seven (pool : ℕ) : Nat.testBit 7 pool = decide (pool < 3) := by
  match pool with
  | 0 => rfl
  | 1 => rfl
  | 2 => rfl
  | n + 3 =>
    rw [testBit_eq_false_of_lt_eight (by omega) (by omega)]
    exact (decide_eq_false (by omega)).symm

def Ufvk.stored (u : Ufvk) : StoredKeys := ⟨u.transparent.map some, u.sapling, u.orchard⟩

theorem Ufvk.pools_lt (u : Ufvk) : u.pools < 8 := by
  unfold Ufvk.pools
  split_ifs <;> decide

theorem Ufvk.testBit_pools (u : Ufvk) (pool : ℕ) : u.pools.testBit pool = u.stored.has pool := by
  match pool with
  | n + 3 => exact testBit_eq_false_of_lt_eight u.pools_lt (by omega)
  | 0 | 1 | 2 =>
    obtain ⟨t, s, o⟩ := u
    simp only [Ufvk.pools, Ufvk.stored, StoredKeys.has, Option.isSome_map]
    generalize t.isSome = t
    generalize s.isSome = s
    generalize o.isSome = o
    cases t <;> cases s <;> cases o <;> decide

theorem agrees_asked_some {pools pool : ℕ} {xvk : Bytes} :
    Agrees (asked pools pool (some (some xvk)), some xvk) := by
  unfold asked
  split
  · exact .inr ⟨xvk, rfl, rfl⟩
  · exact .inl rfl

theorem agrees_asked {pools pool : ℕ} (xvk : Bytes) :
    Agrees ((asked pools pool (some xvk)).map some, some xvk) := by
  unfold asked
  split
  · exact .inr ⟨xvk, rfl, rfl⟩
  · exact .inl rfl

theorem agrees_three {k : StoredKeys} {key : SigningKey lib}
    (ht : Agrees (k.transparent, signingKeyTransparentPubkey key))
    (hs : Agrees (k.sapling.map some, signingKeySaplingDfvk key))
    (ho : Agrees (k.orchard.map some, signingKeyOrchardFvk key)) :
    ∀ c ∈ k.comparisons key, Agrees c := by
  intro c hc
  rw [StoredKeys.comparisons, List.mem_cons, List.mem_cons, List.mem_singleton] at hc
  rcases hc with rfl | rfl | rfl
  · exact ht
  · exact hs
  · exact ho

theorem phrase_usable_iff (hlib : lib.Lawful) (htells : lib.Tells format)
    (hmade : Made lib network na db a) (hkey : na.key ≠ "") {usk : lib.Usk} {fingerprint : Bytes}
    (hphrase : isValidPhrase lib na.key = true) (haindex : accountId na.aindex = some na.aindex)
    (husk : uskFromPhrase lib network na.key (na.passphrase.getD "") na.aindex =
      .ok (usk, fingerprint))
    (hkeys : a.storedKeys =
      ⟨asked (na.pools.getD allPools) 0 (some (some (lib.accountPubKey (lib.uskTransparent usk)))),
        asked (na.pools.getD allPools) 1 (some (lib.dfvk (lib.uskSapling usk))),
        asked (na.pools.getD allPools) 2 (some (lib.uskOrchardFvk usk))⟩) :
    Usable lib network na db a ↔ AsksForKey lib network na := by
  have hpools : getKeyPools lib network na.key = 7 := by
    unfold getKeyPools classifyKey
    rw [if_pos hphrase]
  have hhas (pool : ℕ) : a.storedKeys.has pool =
      (decide (pool < 3) && (na.pools.getD allPools).testBit pool) := by
    rw [hkeys]
    refine (has_asked (na.pools.getD allPools) ⟨some (some _), some _, some _⟩ pool).trans ?_
    rw [← testBit_seven]
    congr 1
    exact (Ufvk.testBit_pools ⟨some [], some [], some []⟩ pool).symm
  have hformat := htells.isValidPhrase hphrase
  constructor
  · intro h
    refine ⟨hkey, fun _ => ?_, fun u hu => ?_⟩
    · obtain ⟨pool, hpool⟩ := h.provisioned
      rw [hhas, Bool.and_eq_true, decide_eq_true_eq] at hpool
      exact ⟨pool, hpool⟩
    · have hufvk := htells.ufvk network na.key (by rw [hu]; rfl)
      rw [hformat] at hufvk
      cases hufvk
  · intro h
    obtain ⟨pool, hlt, hbit⟩ := h.phrase hphrase
    have hprovisioned : a.storedKeys.Provisioned :=
      provisioned_iff.2 ⟨pool, by rw [hhas, hbit, decide_eq_true hlt]; rfl⟩
    obtain ⟨bound, hdecode⟩ := decode_usk hlib usk
    refine usable_of_signing hmade ?_ (passes_of_decode hmade
      (keyForSigning_phrase hphrase haindex husk) hdecode ?_ hprovisioned) ?_
    · unfold canSignWith
      rw [hphrase, Bool.or_true, Bool.true_or, Bool.true_or]
    · rw [hkeys]
      exact agrees_three agrees_asked_some (agrees_asked _) (agrees_asked _)
    · intro _ pool
      rw [hhas, hpools, testBit_seven]

theorem classifyKey_ufvk (htells : lib.Tells format) {key : String} {u : Ufvk}
    (hu : lib.ufvkDecode network key = some u) : classifyKey lib network key = .ufvk u.pools := by
  have hformat := htells.ufvk network key (by rw [hu]; rfl)
  obtain ⟨hphrase, hxprv, hxpub, -, hesk, hefvk⟩ := not_other_of_ufvk network htells hformat
  unfold classifyKey
  rw [hphrase, hxprv, hxpub, hesk, hefvk, hu]
  rfl

theorem getKeyPools_ufvk (htells : lib.Tells format) {key : String} {u : Ufvk}
    (hu : lib.ufvkDecode network key = some u) : getKeyPools lib network key = u.pools := by
  rw [getKeyPools, classifyKey_ufvk htells hu]

/-- Only phrases and unified keys are of several pools. -/
theorem getKeyPools_not_several {key : String} (hphrase : isValidPhrase lib key = false)
    (hufvk : lib.ufvkDecode network key = none) : ¬ Several (getKeyPools lib network key) := by
  unfold getKeyPools classifyKey
  rw [hphrase, hufvk, if_neg Bool.false_ne_true]
  by_cases hxprv : isAccountXprv lib network key = true
  · rw [if_pos hxprv]
    exact not_several_one
  rw [if_neg hxprv]
  by_cases hxpub : isAccountXpub lib network key = true
  · rw [if_pos hxpub]
    exact not_several_one
  rw [if_neg hxpub]
  by_cases hesk : isSaplingEsk lib network key = true
  · rw [if_pos hesk]
    exact not_several_two
  rw [if_neg hesk]
  by_cases hefvk : isSaplingEfvk lib network key = true
  · rw [if_pos hefvk]
    exact not_several_two
  rw [if_neg hefvk]
  dsimp only
  split_ifs
  · exact not_several_zero
  · exact not_several_zero

theorem ufvk_usable_iff (htells : lib.Tells format) (hmade : Made lib network na db a)
    (hkey : na.key ≠ "") {u : Ufvk} (hu : lib.ufvkDecode network na.key = some u)
    (hkeys : a.storedKeys =
      ⟨asked (na.pools.getD allPools) 0 (u.transparent.map some),
        asked (na.pools.getD allPools) 1 u.sapling, asked (na.pools.getD allPools) 2 u.orchard⟩) :
    Usable lib network na db a ↔ AsksForKey lib network na := by
  have hformat := htells.ufvk network na.key (by rw [hu]; rfl)
  have hhas (pool : ℕ) : a.storedKeys.has pool =
      (u.pools.testBit pool && (na.pools.getD allPools).testBit pool) := by
    rw [hkeys, u.testBit_pools]
    exact has_asked (na.pools.getD allPools) u.stored pool
  have hsign : canSignWith lib network na.key = false ∧ keyForSigning lib network na = none :=
    canSignWith_of_format htells hkey (by rw [hformat]; decide) (by rw [hformat]; decide)
      (by rw [hformat]; decide)
  have hpools := getKeyPools_ufvk htells hu
  constructor
  · intro h
    refine ⟨hkey, fun hphrase => ?_, fun v hv => ?_⟩
    · have hother := htells.isValidPhrase hphrase
      rw [hformat] at hother
      cases hother
    · obtain rfl := Option.some.inj (hu.symm.trans hv)
      obtain ⟨pool, hpool⟩ := h.provisioned
      rw [hhas, Bool.and_eq_true] at hpool
      exact ⟨pool, hpool⟩
  · intro h
    obtain ⟨pool, hcomponent, hbit⟩ := h.ufvk u hu
    refine usable_of_viewing hmade hsign (provisioned_iff.2 ⟨pool, ?_⟩) fun _ pool => ?_
    · rw [hhas, hcomponent, hbit]
      rfl
    · rw [hhas, hpools]

theorem single_usable (htells : lib.Tells format)
    (hkey : na.key ≠ "") (hphrase : format na.key ≠ .phrase) (hufvk : format na.key ≠ .ufvk)
    (husable : (Several (getKeyPools lib network na.key) → ∀ pool, a.storedKeys.has pool =
      ((getKeyPools lib network na.key).testBit pool && (na.pools.getD allPools).testBit pool)) →
      Usable lib network na db a) :
    Usable lib network na db a ↔ AsksForKey lib network na := by
  have hnot : ¬ Several (getKeyPools lib network na.key) :=
    getKeyPools_not_several (eq_false_of_format htells.isValidPhrase hphrase)
      (eq_none_of_format (htells.ufvk network na.key) hufvk)
  exact iff_of_true (husable fun h => absurd h hnot)
    (asksForKey_of_format htells hkey hphrase hufvk)

theorem viewing_usable_iff (htells : lib.Tells format) (hmade : Made lib network na db a)
    (hkey : na.key ≠ "") {f : Format} (hformat : format na.key = f)
    (hf : f = .wif ∨ f = .xpub ∨ f = .zpk ∨ f = .efvk)
    (hprovisioned : a.storedKeys.Provisioned) :
    Usable lib network na db a ↔ AsksForKey lib network na := by
  have hsign : canSignWith lib network na.key = false ∧ keyForSigning lib network na = none := by
    refine canSignWith_of_format htells hkey ?_ ?_ ?_ <;> rw [hformat] <;>
      rcases hf with rfl | rfl | rfl | rfl <;> decide
  refine single_usable htells hkey ?_ ?_ (usable_of_viewing hmade hsign hprovisioned)
  all_goals
    rw [hformat]
    rcases hf with rfl | rfl | rfl | rfl <;> decide

theorem xprv_usable_iff (hlib : lib.Lawful) (htells : lib.Tells format)
    (hmade : Made lib network na db a) (hkey : na.key ≠ "") {x : lib.Xprv}
    (hxprv : isAccountXprv lib network na.key = true)
    (hx : lib.signing.xprvFromStr na.key = some x)
    (hkeys : a.storedKeys =
      ⟨some (some (lib.accountPubKey (lib.signing.fromExtendedPrivkey x))), none, none⟩) :
    Usable lib network na db a ↔ AsksForKey lib network na := by
  have hformat := htells.isAccountXprv hxprv
  have hphrase : isValidPhrase lib na.key = false :=
    eq_false_of_format htells.isValidPhrase (by rw [hformat]; decide)
  obtain ⟨bytes, bound, hbytes, hdecode⟩ := keyForSigning_xprv hlib hphrase hxprv hx
  refine single_usable htells hkey (by rw [hformat]; decide) (by rw [hformat]; decide)
    (usable_of_signing hmade ?_ (passes_of_decode hmade hbytes hdecode ?_ ?_))
  · unfold canSignWith
    rw [hxprv, Bool.or_true, Bool.true_or]
  · rw [hkeys]
    exact agrees_three (.inr ⟨_, rfl, rfl⟩) (.inl rfl) (.inl rfl)
  · rw [hkeys]
    exact .inl rfl

theorem esk_usable_iff (hlib : lib.Lawful) (htells : lib.Tells format)
    (hmade : Made lib network na db a) (hkey : na.key ≠ "") {k : lib.SaplingKey}
    (hk : decodeEsk lib network na.key = some k)
    (hkeys : a.storedKeys = ⟨none, some (lib.dfvk k), none⟩) :
    Usable lib network na db a ↔ AsksForKey lib network na := by
  have hesk : isSaplingEsk lib network na.key = true := by rw [isSaplingEsk, hk]; rfl
  have hformat := htells.isSaplingEsk hesk
  have hphrase : isValidPhrase lib na.key = false :=
    eq_false_of_format htells.isValidPhrase (by rw [hformat]; decide)
  have hxprv : isAccountXprv lib network na.key = false :=
    eq_false_of_format htells.isAccountXprv (by rw [hformat]; decide)
  have hxpub : isAccountXpub lib network na.key = false :=
    eq_false_of_format htells.isAccountXpub (by rw [hformat]; decide)
  obtain ⟨bytes, bound, hbytes, hdecode⟩ := keyForSigning_esk hlib hphrase hxprv hxpub hk
  refine single_usable htells hkey (by rw [hformat]; decide) (by rw [hformat]; decide)
    (usable_of_signing hmade ?_ (passes_of_decode hmade hbytes hdecode ?_ ?_))
  · unfold canSignWith
    rw [hesk, Bool.or_true]
  · rw [hkeys]
    exact agrees_three (.inl rfl) (.inr ⟨_, rfl, rfl⟩) (.inl rfl)
  · rw [hkeys]
    exact .inr (.inl rfl)

/-- An account that is restored from a text can be used exactly when the mask asks for a pool of
    the key. -/
theorem restored_usable_iff (hlib : lib.Lawful) (htells : lib.Tells format)
    (hmade : Made lib network na db a) (hkey : na.key ≠ "")
    (h : Restored lib network (na.pools.getD allPools) na.key (na.passphrase.getD "") na.aindex
      a.storedKeys) : Usable lib network na db a ↔ AsksForKey lib network na := by
  generalize hk : a.storedKeys = k at h
  cases h with
  | phrase hphrase haindex husk =>
    exact phrase_usable_iff hlib htells hmade hkey hphrase haindex husk hk
  | xprv hxprv hx => exact xprv_usable_iff hlib htells hmade hkey hxprv hx hk
  | xpub hxpub hx =>
    exact viewing_usable_iff htells hmade hkey (htells.isAccountXpub hxpub) (by decide)
      (by rw [hk]; exact .inl rfl)
  | single hsingle =>
    have hprovisioned : a.storedKeys.Provisioned := by
      rw [hk]
      exact .inl rfl
    rcases hsingle with ⟨sk, hsk⟩ | hzpk
    · exact viewing_usable_iff htells hmade hkey (htells.importTsk_ok hsk) (by decide) hprovisioned
    · exact viewing_usable_iff htells hmade hkey (htells.zpk _ hzpk) (by decide) hprovisioned
  | esk hesk => exact esk_usable_iff hlib htells hmade hkey hesk hk
  | efvk hefvk =>
    have hformat := htells.efvk network na.key (by rw [hefvk]; rfl)
    exact viewing_usable_iff htells hmade hkey hformat (by decide)
      (by rw [hk]; exact .inr (.inl rfl))
  | ufvk hu => exact ufvk_usable_iff htells hmade hkey hu hk

end Formats

end ZcashSdk.Keys
