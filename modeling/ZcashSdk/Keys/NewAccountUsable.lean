import ZcashSdk.Keys.Usable

set_option autoImplicit false

/-!
# Accounts that can be used

What `new_account` promises holds of the accounts whose mask asks for a pool of their key. One
that is made without a pool is stored all the same, and said to sign.
-/
namespace ZcashSdk.Keys
open Tables Shielded Loops
open Api (Network)

section New
variable {lib : KeyLib} {format : String → Format} {network : Network} {activation : ℕ}
  {entropy : Bytes} {db db' : Database} {na : NewAccount} {a : AccountRow}

theorem accountMetadata_keys (db : Database) (na : NewAccount) :
    (accountMetadata lib network activation db na).storedKeys = noKeys := rfl

theorem newAccountRow_restored (htells : lib.Tells format)
    (h : newAccountRow lib network activation entropy db na = .ok a) :
    ∃ key, generateSeed lib entropy na.key = .ok key ∧
      Restored lib network (na.pools.getD allPools) key (na.passphrase.getD "") na.aindex
        a.storedKeys ∧ a.canSign = canSignWith lib network na.key := by
  obtain ⟨key, hkey, h⟩ := bind_eq_ok.1 h
  obtain ⟨hrestored, hsign, -⟩ := restoreKey_restored htells (accountMetadata_keys db na) h
  exact ⟨key, hkey, hrestored, hsign⟩

theorem newAccount_error {f : Fault}
    (h : newAccount lib network activation entropy db na = (.error f, db')) : db' = db := by
  unfold newAccount at h
  split at h
  · exact (Prod.mk.inj h).2.symm
  · split at h
    · cases h
    · exact (Prod.mk.inj h).2.symm

theorem newAccount_ok {id : ℕ}
    (h : newAccount lib network activation entropy db na = (.ok id, db')) :
    ∃ a, newAccountRow lib network activation entropy db na = .ok a ∧ a.idAccount = id ∧
      db'.accounts.rows = db.accounts.rows ++ [a] := by
  unfold newAccount at h
  split at h
  · cases h
  · rename_i a ha
    split at h
    · rename_i accounts haccounts
      obtain ⟨hid, rfl⟩ := Prod.mk.inj h
      exact ⟨a, ha, Except.ok.inj hid, (Table.insert?_eq_some.1 haccounts).2⟩
    · cases h

/-- Nothing signs for a key that was drawn at random: it is not returned. -/
theorem not_usable_of_drawn (htells : lib.Tells format) (hmade : Made lib network na db a)
    (hkey : na.key = "") : ¬ Usable lib network na db a := by
  intro h
  have hother {f : Format} (hf : f ≠ .other) : format na.key ≠ f := by
    rw [hkey, htells.empty]
    exact hf.symm
  have hnone : keyForSigning lib network na = none := keyForSigning_eq_none
    (eq_false_of_format htells.isValidPhrase (hother (by decide)))
    (eq_false_of_format htells.isAccountXprv (hother (by decide)))
    (eq_false_of_format htells.isSaplingEsk (hother (by decide)))
  have hsign : a.canSign = true := by
    rw [hmade.canSign, canSignWith, hkey]
    rfl
  obtain ⟨bytes, key, fuel, hbytes, -⟩ := h.canSign.1 hsign
  rw [hnone] at hbytes
  cases hbytes

theorem generateSeed_of_ne {key : String} (hkey : na.key ≠ "")
    (h : generateSeed lib entropy na.key = .ok key) : key = na.key := by
  unfold generateSeed at h
  rw [if_neg (by simpa using hkey)] at h
  exact (Except.ok.inj h).symm

/-- A new account has pools, those that the mask asks for, and signs as it is said to, exactly
    when a key is given and the mask asks for a pool of it. A call that fails leaves the accounts
    as they are. -/
theorem newAccount_usable (lib : KeyLib) (format : String → Format) (hlib : lib.Lawful)
    (htells : lib.Tells format) (network : Network) (activation : ℕ) (entropy : Bytes)
    (db : Database) (na : NewAccount) :
    (∀ f db', newAccount lib network activation entropy db na = (.error f, db') → db' = db) ∧
    ∀ id db', newAccount lib network activation entropy db na = (.ok id, db') →
      ∃ a ∈ db'.accounts.rows, a.idAccount = id ∧
        (Usable lib network na db' a ↔ AsksForKey lib network na) := by
  refine ⟨fun f db' h => newAccount_error h, fun id db' h => ?_⟩
  obtain ⟨a, hrow, hid, hrows⟩ := newAccount_ok h
  obtain ⟨key, hgenerated, hrestored, hsign⟩ := newAccountRow_restored htells hrow
  have hmem : a ∈ db'.accounts.rows := by
    rw [hrows]
    exact List.mem_append_right _ (List.mem_singleton_self a)
  have hmade : Made lib network na db' a := ⟨find_account hmem, hsign⟩
  refine ⟨a, hmem, hid, ?_⟩
  by_cases hkey : na.key = ""
  · exact iff_of_false (not_usable_of_drawn htells hmade hkey) fun hasks => hasks.key hkey
  · obtain rfl := generateSeed_of_ne hkey hgenerated
    exact restored_usable_iff hlib htells hmade hkey hrestored

end New

/-! ### A phrase and two masks -/

def samplePhrase : String :=
  "abandon abandon abandon abandon abandon abandon abandon abandon abandon abandon abandon about"

def sampleEskBytes : Bytes := 1 :: List.replicate 168 0

theorem testKey_ok : SigningKeys.xprvBytes SigningKeys.testKey = true := by decide

theorem sampleEskBytes_ok : SigningKeys.eskBytes sampleEskBytes = true := by decide +kernel

def sampleRecords : List (ℕ × Bytes) :=
  [(SigningKeys.typecodeP2pkh, SigningKeys.testKey), (SigningKeys.typecodeSapling, sampleEskBytes),
    (SigningKeys.typecodeOrchard, List.replicate 32 1)]

/-- One phrase and one extended private key; keys that are looked up. -/
def sampleKeys : KeyLib where
  AccountPrivKey := { b // SigningKeys.xprvBytes b = true }
  SaplingKey := { b // SigningKeys.eskBytes b = true }
  Usk := Unit
  Xprv := { b // SigningKeys.xprvBytes b = true }
  Mnemonic := Unit
  Language := Unit
  signing := SigningKeys.sample
  english := ()
  languages := [()]
  parseIn _ s := if s = samplePhrase then some () else none
  fromEntropy entropy := if entropy = List.replicate 16 0 then some samplePhrase else none
  toSeed _ _ := List.replicate 64 0
  seedFingerprint _ := some (List.replicate 32 0)
  uskFromSeed _ _ _ := .ok ()
  uskToBytes _ := SigningKeys.toLe 4 SigningKeys.sample.nu5 ++
    sampleRecords.flatMap (SigningKeys.encodeRecord SigningKeys.sample)
  uskTransparent _ := ⟨SigningKeys.testKey, testKey_ok⟩
  uskSapling _ := ⟨sampleEskBytes, sampleEskBytes_ok⟩
  uskOrchardFvk _ := List.replicate 96 1
  toUfvk _ := ⟨some (List.replicate 65 2), some (List.replicate 128 1), some (List.replicate 96 1)⟩
  accountPubKey _ := List.replicate 65 2
  dfvk _ := List.replicate 128 1
  extendedKeyVersion s := if s = SigningKeys.testXprv then some Prefix.xprv.version else none
  xpubFromStr _ := none
  xpubToString _ _ := ""
  isPublicKey b := b == List.replicate 33 2
  isSecretKey _ := false
  publicKeyOf _ _ := List.replicate 33 2
  deriveAddressPubkey _ _ _ := some (List.replicate 33 2)
  bs58CheckDecode _ _ := none
  bech32Decode _ := none
  p2pkhAddress _ _ := "t1"
  hrpExtendedSpendingKey _ := "secret-extended-key-main"
  hrpExtendedFullViewingKey _ := "zxviews"
  decodeExtendedFullViewingKey _ _ := none
  isDfvk b := b == List.replicate 128 1
  isOrchardFvk b := b == List.replicate 96 1
  saplingDefaultAddress _ _ := (0, "zs1")
  saplingAddress _ _ _ := some "zs1"
  isSaplingAddress _ s := s == "zs1"
  ufvkTryFromItems _ := .error "no viewing keys"
  ufvkEncode _ _ := ""
  ufvkDecode _ _ := none
  defaultAddress _ _ := .ok (some "zs1", 0)

def sampleFormat (s : String) : Format :=
  if s = samplePhrase then .phrase else if s = SigningKeys.testXprv then .xprv else .other

theorem sampleKeys_lawful : sampleKeys.Lawful where
  signing := SigningKeys.sample_lawful
  usk _ := by
    refine ⟨sampleRecords, ⟨rfl, ?_, .inr (.inr (List.Perm.refl _))⟩, rfl, fun r hr => ?_, rfl⟩
    · decide +kernel
    · rw [sampleRecords, List.mem_cons, List.mem_cons, List.mem_singleton] at hr
      rcases hr with rfl | rfl | rfl
      · refine .inl ⟨rfl, ?_⟩
        decide +kernel
      · refine .inr (.inl ⟨rfl, ?_⟩)
        decide +kernel
      · exact .inr (.inr ⟨rfl, rfl⟩)

theorem sampleKeys_tells : sampleKeys.Tells sampleFormat where
  phrase language s h := by
    by_cases hs : s = samplePhrase
    · exact if_pos hs
    · rw [show sampleKeys.parseIn language s = none from if_neg hs] at h
      cases h
  wif _ h := by cases h
  xprv s h := by
    by_cases hs : s = SigningKeys.testXprv
    · rw [hs]
      decide
    · rw [show sampleKeys.signing.xprvFromStr s = none from if_neg hs] at h
      cases h
  xpub _ h := by cases h
  zpk _ h := by cases h
  esk _ _ h := by cases h
  efvk _ _ h := by cases h
  ufvk _ _ h := by cases h
  empty := by decide

def sampleAccount (pools : UInt8) : NewAccount :=
  buildNewAccount "wallet" samplePhrase none 0 pools 0

theorem samplePhrase_made (pools : UInt8) (h : pools = 1 ∨ pools = 8) :
    (newAccount sampleKeys .main 419200 [] ⟨.empty⟩ (sampleAccount pools)).1 = .ok 1 := by
  rcases h with rfl | rfl
  · rfl
  · rfl

theorem sampleAccount_usable : ∃ a ∈ (newAccount sampleKeys .main 419200 [] ⟨.empty⟩
    (sampleAccount 1)).2.accounts.rows, a.idAccount = 1 ∧ Usable sampleKeys .main (sampleAccount 1)
      (newAccount sampleKeys .main 419200 [] ⟨.empty⟩ (sampleAccount 1)).2 a := by
  obtain ⟨a, ha, hid, husable⟩ := (newAccount_usable sampleKeys sampleFormat sampleKeys_lawful
    sampleKeys_tells .main 419200 [] ⟨.empty⟩ (sampleAccount 1)).2 1 _
      (Prod.ext (samplePhrase_made 1 (.inl rfl)) rfl)
  refine ⟨a, ha, hid, husable.2 ⟨by decide, fun _ => ⟨0, by decide, by decide⟩, fun u hu => ?_⟩⟩
  cases hu

/-- With the mask 8, of no pool that the phrase has, the account has no viewing key and is said
    to sign. -/
theorem sampleAccount_without_pools :
    let made := newAccount sampleKeys .main 419200 [] ⟨.empty⟩ (sampleAccount 8)
    made.1 = .ok 1 ∧ (made.2.accounts.rows.map fun a => (a.storedKeys, a.canSign)) =
      [(noKeys, true)] ∧
    ∀ a ∈ made.2.accounts.rows, ¬ Usable sampleKeys .main (sampleAccount 8) made.2 a := by
  have hrows : (newAccount sampleKeys .main 419200 [] ⟨.empty⟩ (sampleAccount 8)).2.accounts.rows.map
      (fun a => (a.storedKeys, a.canSign)) = [(noKeys, true)] := by rfl
  refine ⟨samplePhrase_made 8 (.inr rfl), hrows, fun a ha h => ?_⟩
  have hkeys : (a.storedKeys, a.canSign) = (noKeys, true) := by
    rw [← List.mem_singleton, ← hrows]
    exact List.mem_map_of_mem ha
  obtain ⟨pool, hpool⟩ := h.provisioned
  rw [(Prod.mk.inj hkeys).1] at hpool
  match pool, hpool with
  | 0, hpool => cases hpool
  | 1, hpool => cases hpool
  | 2, hpool => cases hpool
  | n + 3, hpool => cases hpool

end ZcashSdk.Keys
