import ZcashSdk.Keys.NewAccountUsable

set_option autoImplicit false

/-!
# Viewing keys that are handed out

The viewing keys of an account are written as one text, a unified key or, for a transparent key
by itself, an extended one. An account that is restored from the text watches the same pools.
-/
namespace ZcashSdk.Keys
open Tables Shielded Loops
open Api (Network)

/-! ### The stored keys -/

def AccountRow.viewingKeys (a : AccountRow) : Ufvk :=
  ⟨a.transparent.join, a.sapling.map Prod.fst, a.orchard⟩

def findAccount (db : Database) (account : ℕ) : Option AccountRow :=
  db.accounts.rows.find? fun a => decide (a.idAccount = account)

def getAccountDindex (db : Database) (account : ℕ) : Except Fault ℕ :=
  match findAccount db account with
  | some a => .ok a.dindex
  | none =>
    .error (.error "no rows returned by a query that expected to return at least one row")

section Export
variable (lib : KeyLib) (network : Network)

def notAKey : Fault := .panic "called `Result::unwrap()` on an `Err` value"

def selectAccountTransparent (db : Database) (account : ℕ) : Except Fault (Option Bytes) :=
  match (findAccount db account).bind fun a => a.transparent.join with
  | some xvk => if lib.isAccountPubKey xvk then .ok (some xvk) else .error notAKey
  | none => .ok none

def selectAccountSapling (db : Database) (account : ℕ) : Except Fault (Option Bytes) :=
  match (findAccount db account).bind AccountRow.sapling with
  | some (xvk, address) =>
    if lib.isDfvk xvk && lib.isSaplingAddress network address then .ok (some xvk)
    else .error notAKey
  | none => .ok none

def selectAccountOrchard (db : Database) (account : ℕ) : Except Fault (Option Bytes) :=
  match (findAccount db account).bind AccountRow.orchard with
  | some xvk => if lib.isOrchardFvk xvk then .ok (some xvk) else .error notAKey
  | none => .ok none

def Ufvk.items (u : Ufvk) (pools : ℕ) : List Fvk :=
  [(u.transparent.map Fvk.p2pkh).filter fun _ => pools.testBit 0,
    (u.sapling.map Fvk.sapling).filter fun _ => pools.testBit 1,
    (u.orchard.map Fvk.orchard).filter fun _ => pools.testBit 2].reduceOption

/-- The parent and the number are not known any more. -/
def accountXpub (data : Bytes) : ExtendedPublicKey where
  publicKey := data.drop 32
  depth := 3
  parentFingerprint := [0xff, 0xff, 0xff, 0xff]
  childNumber := 2 ^ 31
  chainCode := data.take 32

def encodeItems (items : List Fvk) : Except Fault String :=
  match items with
  | [] => .error (.error "Viewing key has no receivers")
  | [.p2pkh data] =>
    if lib.isPublicKey (data.drop 32) then .ok (lib.xpubToString .xpub (accountXpub data))
    else .error (.error "malformed public key")
  | items => do
    let ufvk ← (lib.ufvkTryFromItems items).mapError Fault.error
    .ok (lib.ufvkEncode network ufvk)

def getAccountUfvk (db : Database) (account pools : ℕ) : Except Fault String := do
  let _ ← getAccountDindex db account
  let transparent ← selectAccountTransparent lib db account
  let sapling ← selectAccountSapling lib network db account
  let orchard ← selectAccountOrchard lib db account
  encodeItems lib network (Ufvk.items ⟨transparent, sapling, orchard⟩ pools)

end Export

/-! ### What has to survive -/

def AsksAll (pools : ℕ) : Prop := ∀ pool < 3, pools.testBit pool = true

def KeyKind.isViewing : KeyKind → Bool
  | .transparentViewing | .saplingViewing | .ufvk _ => true
  | _ => false

def Ufvk.shielded (u : Ufvk) : Bool := u.sapling.isSome || u.orchard.isSome

section Survival
variable (lib : KeyLib) (network : Network)

/-- The rows of the pools hold keys, and an address of the network. -/
structure KeyLib.Holds (a : AccountRow) : Prop where
  transparent : ∀ xvk ∈ a.viewingKeys.transparent, lib.isAccountPubKey xvk = true
  sapling : ∀ row ∈ a.sapling, lib.isDfvk row.1 = true ∧ lib.isSaplingAddress network row.2 = true
  orchard : ∀ xvk ∈ a.orchard, lib.isOrchardFvk xvk = true

/-- What the export relies on: the keys come back from their texts and keep the prefix, a unified
    key has an address, of an index that is not hardened, and addresses are derived there. -/
structure KeyLib.Exports (u : Ufvk) : Prop where
  xpub : ∀ xvk ∈ u.transparent,
    lib.xpubFromStr (lib.xpubToString .xpub (accountXpub xvk)) = some (accountXpub xvk) ∧
      lib.extendedKeyVersion (lib.xpubToString .xpub (accountXpub xvk)) =
        some Prefix.xpub.version
  deriveAddressPubkey : ∀ xvk ∈ u.transparent, ∀ dindex < 2 ^ 31,
    (lib.deriveAddressPubkey xvk 0 dindex).isSome = true
  tryFromItems : u.shielded = true → lib.ufvkTryFromItems (u.items allPools) = .ok u
  ufvk : u.shielded = true → lib.ufvkDecode network (lib.ufvkEncode network u) = some u
  defaultAddress : u.shielded = true → ∃ sapling, ∃ dindex < 2 ^ 31,
    lib.defaultAddress network u = .ok (sapling, dindex) ∧ sapling.isSome = u.sapling.isSome

/-- The text is a viewing key of the account's pools, and an account restored from it cannot sign
    and has the same keys. -/
def Survives (db : Database) (a : AccountRow) (pools : ℕ) : Prop :=
  ∃ text, getAccountUfvk lib network db a.idAccount pools = .ok text ∧
    (classifyKey lib network text).isViewing = true ∧
    getKeyPools lib network text = a.viewingKeys.pools ∧
    ∀ activation entropy db₁ na, na.key = text → AsksAll (na.pools.getD allPools) →
      ∃ id db₂, newAccount lib network activation entropy db₁ na = (.ok id, db₂) ∧
        ∃ b ∈ db₂.accounts.rows, b.idAccount = id ∧ b.canSign = false ∧
          b.viewingKeys = a.viewingKeys

end Survival

/-! ### The text -/

section Text
variable {lib : KeyLib} {network : Network} {db : Database} {a : AccountRow} {pools : ℕ}

theorem items_asksAll (h : AsksAll pools) (u : Ufvk) : u.items pools = u.items allPools := by
  have hall : AsksAll allPools := by
    unfold AsksAll allPools
    decide
  unfold Ufvk.items
  rw [h 0 (by decide), h 1 (by decide), h 2 (by decide), hall 0 (by decide), hall 1 (by decide),
    hall 2 (by decide)]

variable (pools) in
theorem getAccountUfvk_eq (ha : a ∈ db.accounts.rows) (hholds : lib.Holds network a) :
    getAccountUfvk lib network db a.idAccount pools =
      encodeItems lib network (a.viewingKeys.items pools) := by
  have hfind : findAccount db a.idAccount = some a := find_account ha
  have ht : selectAccountTransparent lib db a.idAccount = .ok a.viewingKeys.transparent := by
    rw [selectAccountTransparent, hfind, Option.bind_some]
    have hkey := hholds.transparent
    unfold AccountRow.viewingKeys at hkey ⊢
    cases hxvk : a.transparent.join with
    | none => rfl
    | some xvk => exact if_pos (hkey xvk hxvk)
  have hs : selectAccountSapling lib network db a.idAccount = .ok a.viewingKeys.sapling := by
    rw [selectAccountSapling, hfind, Option.bind_some]
    have hkey := hholds.sapling
    unfold AccountRow.viewingKeys
    cases hrow : a.sapling with
    | none => rfl
    | some row =>
      obtain ⟨hdfvk, haddress⟩ := hkey row hrow
      exact if_pos (by rw [hdfvk, haddress]; rfl)
  have ho : selectAccountOrchard lib db a.idAccount = .ok a.viewingKeys.orchard := by
    rw [selectAccountOrchard, hfind, Option.bind_some]
    have hkey := hholds.orchard
    unfold AccountRow.viewingKeys
    cases hxvk : a.orchard with
    | none => rfl
    | some xvk => exact if_pos (hkey xvk hxvk)
  rw [getAccountUfvk, getAccountDindex, hfind, ht, hs, ho]
  rfl

theorem encodeItems_transparent {xvk : Bytes} (hkey : lib.isAccountPubKey xvk = true) :
    encodeItems lib network (Ufvk.items ⟨some xvk, none, none⟩ allPools) =
      .ok (lib.xpubToString .xpub (accountXpub xvk)) := by
  have hpublic : lib.isPublicKey (xvk.drop 32) = true := by
    unfold KeyLib.isAccountPubKey at hkey
    simpa using (of_decide_eq_true hkey).2
  exact if_pos hpublic

theorem encodeItems_shielded {u : Ufvk} (hshielded : u.shielded = true)
    (hitems : lib.ufvkTryFromItems (u.items allPools) = .ok u) :
    encodeItems lib network (u.items allPools) = .ok (lib.ufvkEncode network u) := by
  have hbind : ((lib.ufvkTryFromItems (u.items allPools)).mapError Fault.error >>= fun ufvk =>
      Except.ok (lib.ufvkEncode network ufvk)) = .ok (lib.ufvkEncode network u) := by
    rw [hitems]
    rfl
  obtain ⟨t, s, o⟩ := u
  rw [← hbind]
  cases t <;> cases s <;> cases o <;> first | rfl | cases hshielded

end Text

/-! ### Storing succeeds -/

section Stores
variable {lib : KeyLib} {network : Network} {pools : ℕ} {a : AccountRow} {xvk : Bytes}

variable (network) in
theorem storeTransparent_ok {dindex : ℕ} (hempty : a.storedKeys.transparent = none)
    (hderive : (lib.deriveAddressPubkey xvk 0 dindex).isSome = true) :
    ∃ b, storeTransparent lib network xvk [dindex] a = .ok b := by
  obtain ⟨pk, hpk⟩ := Option.isSome_iff_exists.1 hderive
  have hinit : initAccountTransparent a = .ok { a with transparent := some none } :=
    if_neg (by rw [show a.transparent = none from hempty]; decide)
  refine ⟨storeAccountTransparentAddr ⟨0, dindex, pk, lib.p2pkhAddress network pk, false⟩
    (storeAccountTransparentVk xvk { a with transparent := some none }), ?_⟩
  rw [storeTransparent, hinit, ok_bind, List.foldlM_cons, storeDerived, hpk]
  rfl

theorem storeSapling_ok {address : Option String} (hempty : a.storedKeys.sapling = none)
    (haddress : address.isSome = true) : ∃ b, storeSapling xvk address a = .ok b := by
  obtain ⟨text, rfl⟩ := Option.isSome_iff_exists.1 haddress
  have hinit : initAccountSapling a = .ok { a with sapling := some ([], "") } :=
    if_neg (by rw [Option.map_eq_none_iff.1 hempty]; decide)
  refine ⟨storeAccountSaplingVk xvk text { a with sapling := some ([], "") }, ?_⟩
  rw [storeSapling, hinit]
  rfl

theorem storeOrchard_ok (hempty : a.storedKeys.orchard = none) :
    ∃ b, storeOrchard xvk a = .ok b := by
  have hinit : initAccountOrchard a = .ok { a with orchard := some [] } :=
    if_neg (by rw [show a.orchard = none from hempty]; decide)
  refine ⟨storeAccountOrchardVk xvk { a with orchard := some [] }, ?_⟩
  rw [storeOrchard, hinit]
  rfl

theorem whenPresent_ok (pools pool : ℕ) {component : Option Bytes}
    {f : Bytes → AccountRow → Except Fault AccountRow}
    (hf : ∀ xvk ∈ component, ∃ b, f xvk a = .ok b) :
    ∃ b, whenPresent pools pool component f a = .ok b := by
  cases component with
  | none => exact ⟨a, rfl⟩
  | some xvk =>
    by_cases hbit : pools.testBit pool = true
    · obtain ⟨b, hb⟩ := hf xvk rfl
      exact ⟨b, (if_pos hbit).trans hb⟩
    · exact ⟨a, if_neg hbit⟩

theorem whenPresent_frame {α : Type} {c : StoredKeys → α} {pool : ℕ} {component : Option Bytes}
    {f : Bytes → AccountRow → Except Fault AccountRow} {b : AccountRow}
    (hf : ∀ xvk, f xvk a = .ok b → c b.storedKeys = c a.storedKeys)
    (h : whenPresent pools pool component f a = .ok b) : c b.storedKeys = c a.storedKeys := by
  unfold whenPresent at h
  cases component with
  | none =>
    cases h
    rfl
  | some xvk =>
    dsimp only at h
    unfold whenAsked at h
    split at h
    · exact hf xvk h
    · cases h
      rfl

variable (pools) in
/-- The rows of a pool are written before those of the next, and each finds none. -/
theorem restoreUfvk_ok {key : String} {u : Ufvk} (hu : lib.ufvkDecode network key = some u)
    (hshielded : u.shielded = true) (hexports : lib.Exports network u)
    (hempty : a.storedKeys = noKeys) : ∃ b, restoreUfvk lib network pools key a = .ok b := by
  obtain ⟨address, dindex, hlt, hdefault, hreceiver⟩ := hexports.defaultAddress hshielded
  have hindex : toU32 dindex = .ok dindex := if_pos (hlt.trans (by norm_num))
  have ht : ∀ xvk ∈ u.transparent, ∃ b, storeTransparent lib network xvk [dindex] a = .ok b :=
    fun xvk hxvk => storeTransparent_ok network (by rw [hempty]; rfl)
      (hexports.deriveAddressPubkey xvk hxvk dindex hlt)
  obtain ⟨v, hv⟩ := whenPresent_ok (f := fun tvk => storeTransparent lib network tvk [dindex])
    pools 0 ht
  have hv_sapling : v.storedKeys.sapling = a.storedKeys.sapling :=
    whenPresent_frame (fun _ h => by rw [(storeTransparent_writes h).keys]) hv
  have hv_orchard : v.storedKeys.orchard = a.storedKeys.orchard :=
    whenPresent_frame (fun _ h => by rw [(storeTransparent_writes h).keys]) hv
  have hs : ∀ xvk ∈ u.sapling, ∃ b, storeSapling xvk address v = .ok b := fun xvk hxvk => by
    refine storeSapling_ok ?_ (by rw [hreceiver, hxvk]; rfl)
    rw [hv_sapling, hempty]
    rfl
  obtain ⟨w, hw⟩ := whenPresent_ok (f := fun sxvk => storeSapling sxvk address) pools 1 hs
  have hw_orchard : w.storedKeys.orchard = v.storedKeys.orchard :=
    whenPresent_frame (fun _ h => by rw [(storeSapling_writes h).keys]) hw
  have ho : ∀ xvk ∈ u.orchard, ∃ b, storeOrchard xvk w = .ok b := fun xvk _ => by
    refine storeOrchard_ok ?_
    rw [hw_orchard, hv_orchard, hempty]
    rfl
  obtain ⟨x, hx⟩ := whenPresent_ok (f := storeOrchard) pools 2 ho
  refine ⟨{ x with dindex := dindex }, ?_⟩
  rw [restoreUfvk, hu]
  dsimp only
  rw [hdefault]
  dsimp only
  rw [hindex, ok_bind, hv, ok_bind, hw, ok_bind, hx]
  rfl

end Stores

/-! ### Which format is restored -/

section Choice
variable {lib : KeyLib} {format : String → Format} {network : Network} {key : String}
  {na : NewAccount} {a : AccountRow}

theorem isValidTransparentKey_of_format (htells : lib.Tells format) (hne : format key ≠ .wif) :
    isValidTransparentKey lib network key = .ok (isAccountXprv lib network key ||
      isAccountXpub lib network key || isZpk lib key) := by
  rw [isValidTransparentKey, htells.importTsk_error hne]

theorem classifyKey_xpub (htells : lib.Tells format) (hformat : format key = .xpub) :
    classifyKey lib network key = if isAccountXpub lib network key then .transparentViewing
      else if isKeyOfAnotherNetwork lib key then .foreignNetwork else .unrecognized := by
  have hphrase : isValidPhrase lib key = false :=
    eq_false_of_format htells.isValidPhrase (by rw [hformat]; decide)
  have hxprv : isAccountXprv lib network key = false :=
    eq_false_of_format htells.isAccountXprv (by rw [hformat]; decide)
  have hesk : isSaplingEsk lib network key = false :=
    eq_false_of_format htells.isSaplingEsk (by rw [hformat]; decide)
  have hefvk : isSaplingEfvk lib network key = false :=
    eq_false_of_format htells.isSaplingEfvk (by rw [hformat]; decide)
  have hufvk : lib.ufvkDecode network key = none :=
    eq_none_of_format (htells.ufvk network key) (by rw [hformat]; decide)
  unfold classifyKey
  rw [hphrase, hxprv, hesk, hefvk, hufvk]
  rfl

theorem restoreKey_xpub (htells : lib.Tells format) (hkey : isAccountXpub lib network key = true) :
    restoreKey lib network na key a = restoreTransparent lib network key a := by
  have hformat := htells.isAccountXpub hkey
  have hphrase : isValidPhrase lib key = false :=
    eq_false_of_format htells.isValidPhrase (by rw [hformat]; decide)
  rw [restoreKey, hphrase, isValidTransparentKey_of_format htells (by rw [hformat]; decide), hkey,
    Bool.or_true, Bool.true_or]
  rfl

theorem restoreKey_ufvk (htells : lib.Tells format) {u : Ufvk}
    (hu : lib.ufvkDecode network key = some u) :
    restoreKey lib network na key a =
      restoreUfvk lib network (na.pools.getD allPools) key a := by
  have hformat := htells.ufvk network key (by rw [hu]; rfl)
  obtain ⟨hphrase, hxprv, hxpub, hzpk, hesk, hefvk⟩ := not_other_of_ufvk network htells hformat
  have hvalid : isValidUfvk lib network key = true := by
    rw [isValidUfvk, hu]
    rfl
  rw [restoreKey, hphrase, isValidTransparentKey_of_format htells (by rw [hformat]; decide), hxprv,
    hxpub, hzpk, isValidSaplingKey, hesk, hefvk, hvalid]
  rfl

end Choice

/-! ### The restored account -/

section Restoring
variable {lib : KeyLib} {format : String → Format} {network : Network} {activation : ℕ}
  {entropy : Bytes} {db : Database} {na : NewAccount} {a b : AccountRow}

variable (entropy) in
theorem newAccount_of_restoreKey (htells : lib.Tells format) (hkey : na.key ≠ "")
    (h : restoreKey lib network na na.key (accountMetadata lib network activation db na) = .ok b) :
    b.canSign = canSignWith lib network na.key ∧
      ∃ db', newAccount lib network activation entropy db na = (.ok b.idAccount, db') ∧
        b ∈ db'.accounts.rows := by
  obtain ⟨-, hsign, hid⟩ := restoreKey_restored htells rfl h
  refine ⟨hsign, ?_⟩
  have hgenerated : generateSeed lib entropy na.key = .ok na.key :=
    if_neg (by simpa using hkey)
  have hrow : newAccountRow lib network activation entropy db na = .ok b := by
    rw [newAccountRow, hgenerated, ok_bind, h]
  cases hinsert : db.accounts.insert? b with
  | none =>
    obtain ⟨c, hc, hclash⟩ := Table.insert?_eq_none.1 hinsert
    have hsame : c.idAccount = nextId (db.accounts.rows.map AccountRow.idAccount) :=
      (show c.idAccount = b.idAccount from hclash).trans hid
    have hmem : c.idAccount ∈ db.accounts.rows.map AccountRow.idAccount := List.mem_map_of_mem hc
    rw [hsame] at hmem
    exact absurd hmem (nextId_not_mem _)
  | some accounts =>
    refine ⟨{ db with accounts := accounts }, ?_, ?_⟩
    · rw [newAccount, hrow]
      dsimp only
      rw [hinsert]
    · change b ∈ accounts.rows
      rw [(Table.insert?_eq_some.1 hinsert).2]
      exact List.mem_append_right _ (List.mem_singleton_self b)

theorem AccountRow.viewingKeys_eq (a : AccountRow) :
    a.viewingKeys = ⟨a.storedKeys.transparent.join, a.storedKeys.sapling, a.storedKeys.orchard⟩ :=
  rfl

theorem asked_of_asksAll {α : Type} {pools pool : ℕ} (h : AsksAll pools) (hpool : pool < 3)
    (key : Option α) : asked pools pool key = key :=
  if_pos (h pool hpool)

theorem restoreUfvk_viewingKeys {key : String} {u : Ufvk} {pools : ℕ} (hpools : AsksAll pools)
    (hu : lib.ufvkDecode network key = some u) (hempty : a.storedKeys = noKeys)
    (h : restoreUfvk lib network pools key a = .ok b) : b.viewingKeys = u := by
  rw [b.viewingKeys_eq, (restoreUfvk_writes hu hempty h).1, asked_of_asksAll hpools (by decide),
    asked_of_asksAll hpools (by decide), asked_of_asksAll hpools (by decide)]
  obtain ⟨t, s, o⟩ := u
  cases t <;> rfl

theorem accountXpub_data (xvk : Bytes) :
    (accountXpub xvk).chainCode ++ (accountXpub xvk).publicKey = xvk :=
  List.take_append_drop 32 xvk

variable (network) in
theorem restoreTransparent_ok (htells : lib.Tells format) {key : String} {xvk : Bytes}
    (hx : lib.xpubFromStr key = some (accountXpub xvk)) (hkey : lib.isAccountPubKey xvk = true)
    (hderive : (lib.deriveAddressPubkey xvk 0 0).isSome = true) (hempty : a.storedKeys = noKeys) :
    ∃ b, restoreTransparent lib network key a = .ok b ∧ b.viewingKeys = ⟨some xvk, none, none⟩ := by
  have hformat := htells.xpub key (by rw [hx]; rfl)
  have hxprv : lib.signing.xprvFromStr key = none :=
    eq_none_of_format (htells.xprv key) (by rw [hformat]; decide)
  obtain ⟨b, hb⟩ := storeTransparent_ok network (a := a) (by rw [hempty]; rfl) hderive
  refine ⟨b, ?_, ?_⟩
  · rw [restoreTransparent, hxprv, hx]
    dsimp only
    rw [accountXpub_data, if_pos hkey, hb]
  · rw [b.viewingKeys_eq, (storeTransparent_restored hempty hb).1]
    rfl

end Restoring

/-! ### Which accounts survive -/

section Main
variable {lib : KeyLib} {format : String → Format} {network : Network} {db : Database}
  {a : AccountRow} {pools : ℕ} {text : String}

theorem viewing_ne_empty (htells : lib.Tells format) {f : Format} (h : format text = f)
    (hne : f ≠ .other) : text ≠ "" := by
  rintro rfl
  exact hne (h.symm.trans htells.empty)

theorem survives_ufvk (htells : lib.Tells format)
    (htext : getAccountUfvk lib network db a.idAccount pools = .ok text)
    (hu : lib.ufvkDecode network text = some a.viewingKeys)
    (hshielded : a.viewingKeys.shielded = true) (hexports : lib.Exports network a.viewingKeys) :
    Survives lib network db a pools := by
  have hformat := htells.ufvk network text (by rw [hu]; rfl)
  have hclass := classifyKey_ufvk htells hu
  refine ⟨text, htext, by rw [hclass]; rfl, getKeyPools_ufvk htells hu, ?_⟩
  rintro activation entropy db₁ na rfl hpools
  obtain ⟨b, hb⟩ := restoreUfvk_ok (na.pools.getD allPools)
    (a := accountMetadata lib network activation db₁ na) hu hshielded hexports rfl
  have hne := viewing_ne_empty htells hformat (by decide)
  obtain ⟨hsign, db₂, hnew, hmem⟩ := newAccount_of_restoreKey entropy htells hne
    ((restoreKey_ufvk htells hu).trans hb)
  refine ⟨b.idAccount, db₂, hnew, b, hmem, rfl, ?_, restoreUfvk_viewingKeys hpools hu rfl hb⟩
  rw [hsign]
  exact (canSignWith_of_format htells hne (by rw [hformat]; decide) (by rw [hformat]; decide)
    (by rw [hformat]; decide)).1

theorem survives_xpub (htells : lib.Tells format)
    (htext : getAccountUfvk lib network db a.idAccount pools = .ok text) {xvk : Bytes}
    (hkeys : a.viewingKeys = ⟨some xvk, none, none⟩) (hkey : isAccountXpub lib network text = true)
    (hx : lib.xpubFromStr text = some (accountXpub xvk)) (hxvk : lib.isAccountPubKey xvk = true)
    (hderive : (lib.deriveAddressPubkey xvk 0 0).isSome = true) :
    Survives lib network db a pools := by
  have hformat := htells.isAccountXpub hkey
  have hclass : classifyKey lib network text = .transparentViewing := by
    rw [classifyKey_xpub htells hformat, if_pos hkey]
  have hone : (⟨some xvk, none, none⟩ : Ufvk).pools = 1 := by simp [Ufvk.pools]
  refine ⟨text, htext, by rw [hclass]; rfl, by rw [getKeyPools, hclass, hkeys, hone], ?_⟩
  rintro activation entropy db₁ na rfl -
  obtain ⟨b, hb, hviewing⟩ := restoreTransparent_ok network
    (a := accountMetadata lib network activation db₁ na) htells hx hxvk hderive rfl
  have hne := viewing_ne_empty htells hformat (by decide)
  obtain ⟨hsign, db₂, hnew, hmem⟩ := newAccount_of_restoreKey entropy htells hne
    ((restoreKey_xpub htells hkey).trans hb)
  refine ⟨b.idAccount, db₂, hnew, b, hmem, rfl, ?_, by rw [hviewing, hkeys]⟩
  rw [hsign]
  exact (canSignWith_of_format htells hne (by rw [hformat]; decide) (by rw [hformat]; decide)
    (by rw [hformat]; decide)).1

variable (network) in
/-- The prefix of the text is that of the main network, whatever the network of the account. -/
theorem isAccountXpub_iff {x : ExtendedPublicKey}
    (hversion : lib.extendedKeyVersion text = some Prefix.xpub.version)
    (hx : lib.xpubFromStr text = some x) :
    isAccountXpub lib network text = true ↔ network = .main := by
  rw [isAccountXpub, hasPrefix, hversion, hx, Option.isSome_some, Bool.and_true,
    decide_eq_true_eq]
  cases network <;> decide

theorem not_survives_of_foreign (htells : lib.Tells format) (hformat : format text = .xpub)
    (htext : getAccountUfvk lib network db a.idAccount pools = .ok text)
    (hkey : isAccountXpub lib network text = false) : ¬ Survives lib network db a pools := by
  rintro ⟨t, ht, hviewing, -⟩
  obtain rfl := Except.ok.inj (htext.symm.trans ht)
  rw [classifyKey_xpub htells hformat, hkey, if_neg Bool.false_ne_true] at hviewing
  split_ifs at hviewing <;> cases hviewing

/-- The viewing keys of an account survive when they are exported and restored, but for those of
    an account with a transparent key alone on a network that is not the main one. -/
theorem getAccountUfvk_survives (lib : KeyLib) (format : String → Format)
    (htells : lib.Tells format) (network : Network) (db : Database) (a : AccountRow)
    (ha : a ∈ db.accounts.rows) (hholds : lib.Holds network a)
    (hexports : lib.Exports network a.viewingKeys) (hkeys : a.viewingKeys ≠ ⟨none, none, none⟩)
    (pools : ℕ) (hpools : AsksAll pools) :
    Survives lib network db a pools ↔ network = .main ∨ a.viewingKeys.shielded = true := by
  have htext := getAccountUfvk_eq pools ha hholds
  rw [items_asksAll hpools] at htext
  by_cases hshielded : a.viewingKeys.shielded = true
  · rw [encodeItems_shielded hshielded (hexports.tryFromItems hshielded)] at htext
    exact iff_of_true (survives_ufvk htells htext (hexports.ufvk hshielded) hshielded hexports)
      (.inr hshielded)
  · obtain ⟨xvk, hxvk⟩ : ∃ xvk, a.viewingKeys = ⟨some xvk, none, none⟩ := by
      generalize a.viewingKeys = u at hkeys hshielded
      obtain ⟨t, s, o⟩ := u
      cases s <;> cases o <;> first | exact absurd rfl hshielded | skip
      cases t with
      | none => exact absurd rfl hkeys
      | some xvk => exact ⟨xvk, rfl⟩
    have hmem : xvk ∈ a.viewingKeys.transparent := by
      rw [hxvk]
      rfl
    have hkey := hholds.transparent xvk hmem
    obtain ⟨hx, hversion⟩ := hexports.xpub xvk hmem
    rw [hxvk, encodeItems_transparent hkey] at htext
    have hformat := htells.xpub _ (by rw [hx]; rfl)
    have hmain := isAccountXpub_iff network hversion hx
    rw [or_iff_left hshielded]
    constructor
    · intro hsurvives
      by_contra hnetwork
      exact not_survives_of_foreign htells hformat htext
        (Bool.eq_false_iff.2 fun h => hnetwork (hmain.1 h)) hsurvives
    · intro hnetwork
      exact survives_xpub htells htext hxvk (hmain.2 hnetwork) hx hkey
        (hexports.deriveAddressPubkey xvk hmem 0 (by norm_num))

end Main

/-! ### A transparent account on two networks -/

/-- The viewing key of `testXprv`. -/
def sampleXvk : Bytes :=
  [135, 61, 255, 129, 192, 47, 82, 86, 35, 253, 31, 229, 22, 126, 172, 58, 85, 160, 73, 222, 61, 49,
    75, 180, 46, 226, 39, 255, 237, 55, 213, 8, 3, 57, 163, 96, 19, 48, 21, 151, 218, 239, 65, 251,
    229, 147, 160, 44, 197, 19, 208, 181, 85, 39, 236, 45, 241, 5, 14, 46, 143, 244, 156, 133, 194]

def sampleXpub : String :=
  "xpub6DXuQW17LykdWgkmfbahqW8quiM2xaEHnweNAmkfiixaFe4MK3Vsnr5Jg18iPUXF2vUY71TVvW4sWYgDsh1Ns7x7e2nzXJy8CNzPZ3AsoUK"

def samplePk : Bytes :=
  [2, 117, 109, 225, 130, 197, 221, 75, 113, 126, 168, 126, 105, 48, 6, 218, 98, 219, 179, 205, 218,
    164, 165, 202, 210, 237, 31, 91, 186, 183, 85, 240, 245]

def sampleViews : KeyLib :=
  { sampleKeys with
    extendedKeyVersion := fun s =>
      if s = sampleXpub then some Prefix.xpub.version else sampleKeys.extendedKeyVersion s
    xpubFromStr := fun s => if s = sampleXpub then some (accountXpub sampleXvk) else none
    xpubToString := fun p x => if p = .xpub ∧ x = accountXpub sampleXvk then sampleXpub else ""
    isPublicKey := fun b => b == sampleXvk.drop 32
    deriveAddressPubkey := fun _ _ _ => some samplePk
    p2pkhAddress := fun network _ =>
      if network = .main then "t1K4w4eSnUAWiJ3WctYSUF1bCTR1TsK75zy"
      else "tmAugPUwBrq2DSHi4ZGkD6gFx4Q6HLdgRrg" }

def sampleViewsFormat (s : String) : Format := if s = sampleXpub then .xpub else sampleFormat s

theorem sampleViewsFormat_of_ne {s : String} {f : Format} (h : sampleFormat s = f)
    (hne : sampleFormat sampleXpub ≠ f) : sampleViewsFormat s = f := by
  rw [sampleViewsFormat, if_neg ?_, h]
  rintro rfl
  exact hne h

theorem sampleViews_tells : sampleViews.Tells sampleViewsFormat where
  phrase language s h := sampleViewsFormat_of_ne (sampleKeys_tells.phrase language s h) (by decide)
  wif _ h := by cases h
  xprv s h := sampleViewsFormat_of_ne (sampleKeys_tells.xprv s h) (by decide)
  xpub s h := by
    by_cases hs : s = sampleXpub
    · exact if_pos hs
    · rw [show sampleViews.xpubFromStr s = none from if_neg hs] at h
      cases h
  zpk _ h := by cases h
  esk _ _ h := by cases h
  efvk _ _ h := by cases h
  ufvk _ _ h := by cases h
  empty := by decide

def sampleWatched : AccountRow where
  idAccount := 1
  name := "watched"
  icon := none
  seedFingerprint := none
  aindex := 0
  dindex := 0
  birth := 419200
  position := 1
  useInternal := true
  internal := false
  canSign := false
  transparent := some (some sampleXvk)
  addresses := []
  sapling := none
  orchard := none

def sampleDatabase : Database := ⟨.singleton sampleWatched⟩

theorem sampleWatched_holds (network : Network) : sampleViews.Holds network sampleWatched where
  transparent xvk h := by
    obtain rfl : sampleXvk = xvk := Option.some.inj h
    decide
  sapling _ h := by cases h
  orchard _ h := by cases h

theorem sampleWatched_exports (network : Network) :
    sampleViews.Exports network sampleWatched.viewingKeys where
  xpub xvk h := by
    obtain rfl : sampleXvk = xvk := Option.some.inj h
    have htext : sampleViews.xpubToString .xpub (accountXpub sampleXvk) = sampleXpub := by
      simp [sampleViews]
    rw [htext]
    simp [sampleViews]
  deriveAddressPubkey _ _ _ _ := rfl
  tryFromItems h := by cases h
  ufvk h := by cases h
  defaultAddress h := by cases h

theorem asksAll_seven : AsksAll 7 := by
  unfold AsksAll
  decide

theorem sampleWatched_survives : Survives sampleViews .main sampleDatabase sampleWatched 7 :=
  (getAccountUfvk_survives sampleViews sampleViewsFormat sampleViews_tells .main sampleDatabase
    sampleWatched (List.mem_singleton_self _) (sampleWatched_holds .main)
    (sampleWatched_exports .main) (by decide) 7 asksAll_seven).2 (.inl rfl)

/-- On the test network the text that is returned is of another network, and no account is
    restored from it. -/
theorem sampleWatched_foreign :
    getAccountUfvk sampleViews .test sampleDatabase 1 7 = .ok sampleXpub ∧
    classifyKey sampleViews .test sampleXpub = .foreignNetwork ∧
    (newAccount sampleViews .test 280000 [] sampleDatabase
      (buildNewAccount "restored" sampleXpub none 0 7 0)).1 = .error (.error "Unsupported key") ∧
    ¬ Survives sampleViews .test sampleDatabase sampleWatched 7 := by
  have htext : getAccountUfvk sampleViews .test sampleDatabase sampleWatched.idAccount 7 =
      .ok sampleXpub := by rfl
  exact ⟨htext, by decide, by rfl,
    not_survives_of_foreign sampleViews_tells (by decide) htext (by decide)⟩

end ZcashSdk.Keys
