import ZcashSdk.Keys.NewAccount

set_option autoImplicit false

/-!
# What a restored account holds

Each format writes viewing keys into the rows of a new account and leaves the rest as it is.
-/
namespace ZcashSdk.Keys
open Shielded Loops
open Api (Network)

/-! ### Viewing keys -/

/-- The columns `xvk` of an account. -/
structure StoredKeys where
  transparent : Option (Option Bytes)
  sapling : Option Bytes
  orchard : Option Bytes
  deriving DecidableEq

def AccountRow.storedKeys (a : AccountRow) : StoredKeys :=
  ⟨a.transparent, a.sapling.map Prod.fst, a.orchard⟩

def noKeys : StoredKeys := ⟨none, none, none⟩

/-- The viewing keys change so, and neither the number nor the permission to sign does. -/
structure Writes (f : StoredKeys → StoredKeys) (a b : AccountRow) : Prop where
  keys : b.storedKeys = f a.storedKeys
  canSign : b.canSign = a.canSign
  idAccount : b.idAccount = a.idAccount

theorem Writes.trans {f g : StoredKeys → StoredKeys} {a b c : AccountRow} (h : Writes f a b)
    (h' : Writes g b c) : Writes (fun k => g (f k)) a c where
  keys := by rw [h'.keys, h.keys]
  canSign := h'.canSign.trans h.canSign
  idAccount := h'.idAccount.trans h.idAccount

theorem Writes.keys_eq {f : StoredKeys → StoredKeys} {a b : AccountRow} {k : StoredKeys}
    (h : Writes f a b) (hk : a.storedKeys = k) : b.storedKeys = f k :=
  h.keys.trans (congrArg f hk)

section Specs
variable {lib : KeyLib} {network : Network} {pools : ℕ} {a b : AccountRow} {xvk : Bytes}

theorem storeAccountTransparentAddr_writes (row : AddressRow) (a : AccountRow) :
    Writes id a (storeAccountTransparentAddr row a) := by
  unfold storeAccountTransparentAddr
  split
  · exact ⟨rfl, rfl, rfl⟩
  · exact ⟨rfl, rfl, rfl⟩

theorem storeDerived_writes {dindex : ℕ} (h : storeDerived lib network xvk dindex a = .ok b) :
    Writes id a b := by
  obtain ⟨pk, -, h⟩ := bind_eq_ok.1 h
  cases h
  exact storeAccountTransparentAddr_writes _ a

theorem initAccountTransparent_writes (h : initAccountTransparent a = .ok b) :
    Writes (fun k => { k with transparent := some none }) a b := by
  unfold initAccountTransparent at h
  split at h <;> cases h
  exact ⟨rfl, rfl, rfl⟩

theorem storeTransparent_writes {dindexes : List ℕ}
    (h : storeTransparent lib network xvk dindexes a = .ok b) :
    Writes (fun k => { k with transparent := some (some xvk) }) a b := by
  obtain ⟨u, hu, h⟩ := bind_eq_ok.1 h
  have hinit := initAccountTransparent_writes hu
  have hvk : Writes (fun k => { k with transparent := some (some xvk) }) a
      (storeAccountTransparentVk xvk u) := by
    refine ⟨?_, hinit.canSign, hinit.idAccount⟩
    have hkeys := hinit.keys
    have ht : u.transparent = some none := congrArg StoredKeys.transparent hkeys
    have hs : u.sapling.map Prod.fst = a.sapling.map Prod.fst := congrArg StoredKeys.sapling hkeys
    have ho : u.orchard = a.orchard := congrArg StoredKeys.orchard hkeys
    simp only [storeAccountTransparentVk, AccountRow.storedKeys, ht, hs, ho, Option.map_some]
  refine foldlM_inv (fun a dindex => storeDerived lib network xvk dindex a)
    (Writes (fun k => { k with transparent := some (some xvk) }) a) ?_ dindexes _ b hvk h
  intro s dindex s' hs hstep
  exact hs.trans (storeDerived_writes hstep)

theorem storeSapling_writes {address : Option String} (h : storeSapling xvk address a = .ok b) :
    Writes (fun k => { k with sapling := some xvk }) a b := by
  obtain ⟨u, hu, h⟩ := bind_eq_ok.1 h
  obtain ⟨address, -, h⟩ := bind_eq_ok.1 h
  unfold initAccountSapling at hu
  split at hu <;> cases hu
  cases h
  exact ⟨rfl, rfl, rfl⟩

theorem storeOrchard_writes (h : storeOrchard xvk a = .ok b) :
    Writes (fun k => { k with orchard := some xvk }) a b := by
  obtain ⟨u, hu, h⟩ := bind_eq_ok.1 h
  unfold initAccountOrchard at hu
  split at hu <;> cases hu
  cases h
  exact ⟨rfl, rfl, rfl⟩

theorem whenAsked_writes {pool : ℕ} {f : AccountRow → Except Fault AccountRow}
    {g : StoredKeys → StoredKeys} (hf : f a = .ok b → Writes g a b)
    (h : whenAsked pools pool f a = .ok b) :
    Writes (fun k => if pools.testBit pool then g k else k) a b := by
  unfold whenAsked at h
  split at h
  · rename_i hbit
    simpa only [hbit, if_true] using hf h
  · rename_i hbit
    cases h
    simp only [hbit, Bool.false_eq_true, if_false]
    exact ⟨rfl, rfl, rfl⟩

theorem whenPresent_writes {pool : ℕ} {component : Option Bytes}
    {f : Bytes → AccountRow → Except Fault AccountRow} {g : Bytes → StoredKeys → StoredKeys}
    (hf : ∀ xvk, f xvk a = .ok b → Writes (g xvk) a b)
    (h : whenPresent pools pool component f a = .ok b) :
    Writes (fun k => match component with
      | some xvk => if pools.testBit pool then g xvk k else k
      | none => k) a b := by
  unfold whenPresent at h
  cases component with
  | none =>
    cases h
    exact ⟨rfl, rfl, rfl⟩
  | some xvk => exact whenAsked_writes (hf xvk) h

end Specs

/-! ### What each format leaves -/

def asked {α : Type} (pools pool : ℕ) (key : Option α) : Option α :=
  if pools.testBit pool then key else none

inductive Restored (lib : KeyLib) (network : Network) (pools : ℕ) (key passphrase : String)
    (aindex : ℕ) : StoredKeys → Prop
  | phrase {usk : lib.Usk} {fingerprint : Bytes} (hkey : isValidPhrase lib key = true)
      (haindex : accountId aindex = some aindex)
      (husk : uskFromPhrase lib network key passphrase aindex = .ok (usk, fingerprint)) :
      Restored lib network pools key passphrase aindex
        ⟨asked pools 0 (some (some (lib.accountPubKey (lib.uskTransparent usk)))),
          asked pools 1 (some (lib.dfvk (lib.uskSapling usk))),
          asked pools 2 (some (lib.uskOrchardFvk usk))⟩
  | xprv {x : lib.Xprv} (hkey : isAccountXprv lib network key = true)
      (hx : lib.signing.xprvFromStr key = some x) :
      Restored lib network pools key passphrase aindex
        ⟨some (some (lib.accountPubKey (lib.signing.fromExtendedPrivkey x))), none, none⟩
  | xpub {x : ExtendedPublicKey} (hkey : isAccountXpub lib network key = true)
      (hx : lib.xpubFromStr key = some x) :
      Restored lib network pools key passphrase aindex
        ⟨some (some (x.chainCode ++ x.publicKey)), none, none⟩
  | single (hkey : (∃ sk, importTsk lib key = .ok sk) ∨ isZpk lib key = true) :
      Restored lib network pools key passphrase aindex ⟨some none, none, none⟩
  | esk {k : lib.SaplingKey} (hkey : decodeEsk lib network key = some k) :
      Restored lib network pools key passphrase aindex ⟨none, some (lib.dfvk k), none⟩
  | efvk {xvk : Bytes} (hkey : decodeEfvk lib network key = some xvk) :
      Restored lib network pools key passphrase aindex ⟨none, some xvk, none⟩
  | ufvk {u : Ufvk} (hkey : lib.ufvkDecode network key = some u) :
      Restored lib network pools key passphrase aindex
        ⟨asked pools 0 (u.transparent.map some), asked pools 1 u.sapling, asked pools 2 u.orchard⟩

/-! ### The format of a text -/

section Told
variable {lib : KeyLib} {format : String → Format} {network : Network} {key : String}

theorem KeyLib.Tells.isValidPhrase (h : lib.Tells format) (hkey : isValidPhrase lib key = true) :
    format key = .phrase := by
  obtain ⟨mnemonic, hm⟩ := Option.isSome_iff_exists.1 hkey
  unfold parseMnemonic at hm
  split at hm
  · rename_i hparse
    exact h.phrase lib.english key (by rw [hparse]; rfl)
  · obtain ⟨language, -, hparse⟩ := List.exists_of_findSome?_eq_some hm
    exact h.phrase language key (by rw [hparse]; rfl)

theorem KeyLib.Tells.importTsk (h : lib.Tells format)
    (hkey : ∀ message, importTsk lib key ≠ .error (.error message)) : format key = .wif := by
  refine h.wif key ?_
  cases hdecode : lib.bs58CheckDecode 0x80 key with
  | none => exact absurd (by rw [Keys.importTsk, hdecode]) (hkey "base58")
  | some v => rfl

theorem KeyLib.Tells.importTsk_error (h : lib.Tells format) (hne : format key ≠ .wif) :
    Keys.importTsk lib key = .error (.error "base58") := by
  have hdecode : lib.bs58CheckDecode 0x80 key = none :=
    Option.not_isSome_iff_eq_none.1 fun hsome => hne (h.wif key hsome)
  rw [Keys.importTsk, hdecode]

theorem KeyLib.Tells.importTsk_ok (h : lib.Tells format) {sk : Bytes × Bool}
    (hkey : Keys.importTsk lib key = .ok sk) : format key = .wif :=
  h.importTsk fun message herror => by rw [hkey] at herror; cases herror

theorem KeyLib.Tells.isAccountXprv (h : lib.Tells format)
    (hkey : isAccountXprv lib network key = true) : format key = .xprv :=
  h.xprv key (Bool.and_eq_true _ _ ▸ hkey).2

theorem KeyLib.Tells.isAccountXpub (h : lib.Tells format)
    (hkey : isAccountXpub lib network key = true) : format key = .xpub :=
  h.xpub key (Bool.and_eq_true _ _ ▸ hkey).2

theorem KeyLib.Tells.isSaplingEsk (h : lib.Tells format)
    (hkey : isSaplingEsk lib network key = true) : format key = .esk := h.esk _ key hkey

theorem KeyLib.Tells.isSaplingEfvk (h : lib.Tells format)
    (hkey : isSaplingEfvk lib network key = true) : format key = .efvk := h.efvk _ key hkey

theorem KeyLib.Tells.isValidUfvk (h : lib.Tells format)
    (hkey : isValidUfvk lib network key = true) : format key = .ufvk := h.ufvk _ key hkey

theorem eq_false_of_format {b : Bool} {f : Format} (hb : b = true → format key = f)
    (hne : format key ≠ f) : b = false :=
  Bool.eq_false_iff.2 fun h => hne (hb h)

variable (network) in
theorem not_other_of_ufvk (h : lib.Tells format) (hformat : format key = .ufvk) :
    isValidPhrase lib key = false ∧ isAccountXprv lib network key = false ∧
      isAccountXpub lib network key = false ∧ isZpk lib key = false ∧
      isSaplingEsk lib network key = false ∧ isSaplingEfvk lib network key = false :=
  ⟨eq_false_of_format h.isValidPhrase (by rw [hformat]; decide),
    eq_false_of_format h.isAccountXprv (by rw [hformat]; decide),
    eq_false_of_format h.isAccountXpub (by rw [hformat]; decide),
    eq_false_of_format (h.zpk _) (by rw [hformat]; decide),
    eq_false_of_format h.isSaplingEsk (by rw [hformat]; decide),
    eq_false_of_format h.isSaplingEfvk (by rw [hformat]; decide)⟩

theorem eq_none_of_format {α : Type} {o : Option α} {f : Format}
    (ho : o.isSome = true → format key = f) (hne : format key ≠ f) : o = none :=
  Option.not_isSome_iff_eq_none.1 fun h => hne (ho h)

end Told

section Runs
variable {lib : KeyLib} {format : String → Format} {network : Network} {pools aindex : ℕ}
  {key passphrase : String} {a b : AccountRow}

theorem restorePhrase_restored (hkey : isValidPhrase lib key = true)
    (hempty : a.storedKeys = noKeys)
    (h : restorePhrase lib network pools key passphrase aindex a = .ok b) :
    Restored lib network pools key passphrase aindex b.storedKeys ∧ b.canSign = a.canSign ∧
      b.idAccount = a.idAccount := by
  obtain ⟨index, hindex, h⟩ := bind_eq_ok.1 h
  obtain ⟨⟨usk, fingerprint⟩, husk, h⟩ := bind_eq_ok.1 h
  have haindex : accountId aindex = some index := by
    cases hid : accountId aindex with
    | none =>
      rw [hid] at hindex
      cases hindex
    | some i =>
      rw [hid] at hindex
      cases hindex
      rfl
  obtain rfl : aindex = index := by
    unfold accountId at haindex
    split at haindex <;> cases haindex
    rfl
  dsimp only at h
  split at h
  · cases h
  obtain ⟨dindex, -, h⟩ := bind_eq_ok.1 h
  obtain ⟨u, hu, h⟩ := bind_eq_ok.1 h
  obtain ⟨v, hv, h⟩ := bind_eq_ok.1 h
  obtain ⟨w, hw, h⟩ := bind_eq_ok.1 h
  cases h
  have hwrites := ((whenAsked_writes storeTransparent_writes hu).trans
    (whenAsked_writes storeSapling_writes hv)).trans (whenAsked_writes storeOrchard_writes hw)
  refine ⟨?_, hwrites.canSign, hwrites.idAccount⟩
  have hkeys := hwrites.keys_eq hempty
  refine (congrArg (Restored lib network pools key passphrase aindex) ?_).mpr
    (.phrase hkey haindex husk)
  refine hkeys.trans ?_
  unfold asked noKeys
  split_ifs <;> rfl

theorem storeTransparent_restored {xvk : Bytes} {dindexes : List ℕ}
    (hempty : a.storedKeys = noKeys) (h : storeTransparent lib network xvk dindexes a = .ok b) :
    b.storedKeys = ⟨some (some xvk), none, none⟩ ∧ b.canSign = a.canSign ∧
      b.idAccount = a.idAccount := by
  have hwrites := storeTransparent_writes h
  exact ⟨hwrites.keys_eq hempty, hwrites.canSign, hwrites.idAccount⟩

theorem storeSingle_writes {pk : Bytes} {uncompressed : Bool} (a : AccountRow) :
    Writes id a (storeSingle lib network pk uncompressed a) :=
  storeAccountTransparentAddr_writes _ a

theorem single_restored (hkey : (∃ sk, importTsk lib key = .ok sk) ∨ isZpk lib key = true)
    (hempty : a.storedKeys = noKeys) {f : StoredKeys → StoredKeys} (hwrites : Writes f a b)
    (hf : f noKeys = ⟨some none, none, none⟩) :
    Restored lib network pools key passphrase aindex b.storedKeys ∧ b.canSign = a.canSign ∧
      b.idAccount = a.idAccount := by
  refine ⟨?_, hwrites.canSign, hwrites.idAccount⟩
  rw [hwrites.keys_eq hempty, hf]
  exact .single hkey

theorem restoreTransparent_restored (htells : lib.Tells format)
    (hvalid : isValidTransparentKey lib network key = .ok true) (hempty : a.storedKeys = noKeys)
    (h : restoreTransparent lib network key a = .ok b) :
    Restored lib network pools key passphrase aindex b.storedKeys ∧ b.canSign = a.canSign ∧
      b.idAccount = a.idAccount := by
  have hkind : (∃ sk, importTsk lib key = .ok sk) ∨ isAccountXprv lib network key = true ∨
      isAccountXpub lib network key = true ∨ isZpk lib key = true := by
    unfold isValidTransparentKey at hvalid
    split at hvalid
    · rename_i sk hsk
      exact .inl ⟨sk, hsk⟩
    · cases hvalid
    · have hany := Except.ok.inj hvalid
      rw [Bool.or_eq_true, Bool.or_eq_true, or_assoc] at hany
      exact .inr hany
  have hxprv (hne : format key ≠ .xprv) : lib.signing.xprvFromStr key = none :=
    eq_none_of_format (htells.xprv key) hne
  have hxpub (hne : format key ≠ .xpub) : lib.xpubFromStr key = none :=
    eq_none_of_format (htells.xpub key) hne
  unfold restoreTransparent at h
  rcases hkind with ⟨sk, hsk⟩ | hkey | hkey | hkey
  · have hformat := htells.importTsk_ok hsk
    rw [hxprv (by rw [hformat]; decide), hxpub (by rw [hformat]; decide)] at h
    obtain ⟨u, hu, h⟩ := bind_eq_ok.1 h
    rw [hsk] at h
    cases h
    exact single_restored (.inl ⟨sk, hsk⟩) hempty
      ((initAccountTransparent_writes hu).trans (storeSingle_writes u)) rfl
  · obtain ⟨x, hx⟩ := Option.isSome_iff_exists.1 (Bool.and_eq_true _ _ ▸ hkey).2
    rw [hx] at h
    obtain ⟨hkeys, hsame⟩ := storeTransparent_restored hempty h
    rw [hkeys]
    exact ⟨.xprv hkey hx, hsame⟩
  · have hformat := htells.isAccountXpub hkey
    obtain ⟨x, hx⟩ := Option.isSome_iff_exists.1 (Bool.and_eq_true _ _ ▸ hkey).2
    rw [hxprv (by rw [hformat]; decide), hx] at h
    dsimp only at h
    split at h
    · obtain ⟨hkeys, hsame⟩ := storeTransparent_restored hempty h
      rw [hkeys]
      exact ⟨.xpub hkey hx, hsame⟩
    · cases h
  · have hformat := htells.zpk _ hkey
    have htsk := htells.importTsk_error (show format key ≠ .wif by rw [hformat]; decide)
    rw [hxprv (by rw [hformat]; decide), hxpub (by rw [hformat]; decide)] at h
    obtain ⟨u, hu, h⟩ := bind_eq_ok.1 h
    rw [htsk] at h
    dsimp only at h
    have hinit := initAccountTransparent_writes hu
    split at h
    · cases h
      exact single_restored (.inr hkey) hempty
        ((hinit.trans (storeSingle_writes u)).trans (storeSingle_writes _)) rfl
    · cases h
      exact single_restored (.inr hkey) hempty hinit rfl

theorem restoreSapling_restored (hempty : a.storedKeys = noKeys)
    (h : restoreSapling lib network key a = .ok b) :
    Restored lib network pools key passphrase aindex b.storedKeys ∧ b.canSign = a.canSign ∧
      b.idAccount = a.idAccount := by
  obtain ⟨xvk, hxvk, h⟩ := bind_eq_ok.1 h
  obtain ⟨u, hu, h⟩ := bind_eq_ok.1 h
  obtain ⟨dindex, -, h⟩ := bind_eq_ok.1 h
  cases h
  have hwrites := storeSapling_writes hu
  have hkeys : u.storedKeys = ⟨none, some xvk, none⟩ := hwrites.keys_eq hempty
  refine ⟨?_, hwrites.canSign, hwrites.idAccount⟩
  change Restored lib network pools key passphrase aindex u.storedKeys
  rw [hkeys]
  unfold saplingXvk at hxvk
  split at hxvk
  · rename_i k hk
    cases hxvk
    exact .esk hk
  · split at hxvk
    · rename_i xvk' hk
      cases hxvk
      exact .efvk hk
    · cases hxvk

theorem restoreUfvk_writes {u : Ufvk} (hu : lib.ufvkDecode network key = some u)
    (hempty : a.storedKeys = noKeys) (h : restoreUfvk lib network pools key a = .ok b) :
    b.storedKeys =
        ⟨asked pools 0 (u.transparent.map some), asked pools 1 u.sapling, asked pools 2 u.orchard⟩ ∧
      b.canSign = a.canSign ∧ b.idAccount = a.idAccount := by
  unfold restoreUfvk at h
  rw [hu] at h
  dsimp only at h
  split at h
  · cases h
  obtain ⟨dindex, -, h⟩ := bind_eq_ok.1 h
  obtain ⟨v, hv, h⟩ := bind_eq_ok.1 h
  obtain ⟨w, hw, h⟩ := bind_eq_ok.1 h
  obtain ⟨x, hx, h⟩ := bind_eq_ok.1 h
  cases h
  have hwrites := ((whenPresent_writes (fun _ => storeTransparent_writes) hv).trans
    (whenPresent_writes (fun _ => storeSapling_writes) hw)).trans
      (whenPresent_writes (fun _ => storeOrchard_writes) hx)
  refine ⟨(hwrites.keys_eq hempty).trans ?_, hwrites.canSign, hwrites.idAccount⟩
  obtain ⟨t, s, o⟩ := u
  unfold asked noKeys
  generalize pools.testBit 0 = b0
  generalize pools.testBit 1 = b1
  generalize pools.testBit 2 = b2
  cases t <;> cases s <;> cases o <;> cases b0 <;> cases b1 <;> cases b2 <;> rfl

theorem restoreUfvk_restored (hempty : a.storedKeys = noKeys)
    (h : restoreUfvk lib network pools key a = .ok b) :
    Restored lib network pools key passphrase aindex b.storedKeys ∧ b.canSign = a.canSign ∧
      b.idAccount = a.idAccount := by
  cases hu : lib.ufvkDecode network key with
  | none =>
    rw [restoreUfvk, hu] at h
    cases h
  | some u =>
    obtain ⟨hkeys, hsame⟩ := restoreUfvk_writes hu hempty h
    rw [hkeys]
    exact ⟨.ufvk hu, hsame⟩

/-- An account that is restored from a text has the viewing keys of its format. -/
theorem restoreKey_restored (htells : lib.Tells format) {na : NewAccount}
    (hempty : a.storedKeys = noKeys) (h : restoreKey lib network na key a = .ok b) :
    Restored lib network (na.pools.getD allPools) key (na.passphrase.getD "") na.aindex
        b.storedKeys ∧ b.canSign = a.canSign ∧ b.idAccount = a.idAccount := by
  unfold restoreKey at h
  dsimp only at h
  split at h
  · rename_i hphrase
    exact restorePhrase_restored hphrase hempty h
  obtain ⟨transparent, htransparent, h⟩ := bind_eq_ok.1 h
  split at h
  · rename_i htrue
    subst htrue
    exact restoreTransparent_restored htells htransparent hempty h
  split at h
  · exact restoreSapling_restored hempty h
  split at h
  · exact restoreUfvk_restored hempty h
  · cases h

end Runs

end ZcashSdk.Keys
