import ZcashSdk.Lib.Latest
import ZcashSdk.Vault.Log

set_option autoImplicit false

/-!
# The accounts of a vault

Every account is sealed for the key of the vault. Of the entries that open, the account with
the latest time is kept for each pair of entropy and index.
-/
namespace ZcashSdk.Vault
open ZcashSdk.Bytes Loops Latest
open Shielded (Bytes Fault)

/-! ### Payloads -/

structure AccountPayload where
  timestamp : UInt32
  name : String
  entropy : FixedBytes 32
  aindex : UInt32
  useInternal : Bool
  birthHeight : UInt32

def utf8 (s : String) : Bytes := s.toByteArray.data.toList

def fromUtf8 (bs : Bytes) : Except Fault String :=
  match String.fromUTF8? ⟨bs.toArray⟩ with
  | some s => .ok s
  | none => .error (.error "Invalid name")

theorem fromUtf8_utf8 (s : String) : fromUtf8 (utf8 s) = .ok s := by
  have hbytes : (⟨(utf8 s).toArray⟩ : ByteArray) = s.toByteArray := by simp [utf8]
  have hvalid : String.fromUTF8? s.toByteArray = some s := by
    rw [String.fromUTF8?, dif_pos s.isValidUTF8]
    rfl
  rw [fromUtf8, hbytes, hvalid]

def readU32 (bs : Bytes) : Except Fault (UInt32 × Bytes) := do
  let (n, bs) ← readNat 4 bs
  .ok (UInt32.ofNat n, bs)

theorem readU32_bigEndian (n : UInt32) (rest : Bytes) :
    readU32 (bigEndian 4 n.toNat ++ rest) = .ok (n, rest) := by
  rw [readU32, readNat_bigEndian n.toNat_lt]
  simp only [ok_bind, UInt32.ofNat_toNat]

namespace AccountPayload

def writeTo (a : AccountPayload) : Bytes :=
  bigEndian 4 a.timestamp.toNat ++ (bigEndian 2 (utf8 a.name).length ++ (utf8 a.name ++
    (a.entropy.bytes ++ (bigEndian 4 a.aindex.toNat ++ (bigEndian 1 a.useInternal.toNat ++
      bigEndian 4 a.birthHeight.toNat)))))

def readFrom (bs : Bytes) : Except Fault AccountPayload := do
  let (timestamp, bs) ← readU32 bs
  let (nameLen, bs) ← readNat 2 bs
  let (nameBuf, bs) ← readVec nameLen bs
  let name ← fromUtf8 nameBuf
  let (entropy, bs) ← readArray 32 bs
  let (aindex, bs) ← readU32 bs
  let (useInternal, bs) ← readNat 1 bs
  let (birthHeight, _) ← readU32 bs
  .ok ⟨timestamp, name, entropy, aindex, useInternal != 0, birthHeight⟩

theorem readFrom_writeTo {a : AccountPayload} (h : (utf8 a.name).length < 65536) :
    readFrom a.writeTo = .ok a := by
  have hname : (utf8 a.name).length < 256 ^ 2 := h
  have hinternal : a.useInternal.toNat < 256 ^ 1 := (Bool.toNat_lt _).trans (by decide)
  have hbool : (a.useInternal.toNat != 0) = a.useInternal := by cases a.useInternal <;> rfl
  have hheight := readU32_bigEndian a.birthHeight []
  rw [List.append_nil] at hheight
  rw [readFrom, writeTo]
  simp only [readU32_bigEndian, readNat_bigEndian hname, readVec_append rfl, fromUtf8_utf8,
    readArray_append, readNat_bigEndian hinternal, hheight, ok_bind, hbool]

end AccountPayload

/-! ### Sealing -/

structure RestoredAccount where
  timestamp : UInt32
  name : String
  seed : String
  aindex : UInt32
  useInternal : Bool
  birthHeight : UInt32

def RestoredAccount.time (a : RestoredAccount) : ℕ := a.timestamp.toNat

/-- Key agreement, key derivation, authenticated encryption and mnemonics. -/
structure Crypto where
  publicKey : FixedBytes 32 → FixedBytes 32
  diffieHellman : FixedBytes 32 → FixedBytes 32 → FixedBytes 32
  deriveKey : FixedBytes 32 → FixedBytes 32
  encrypt : FixedBytes 32 → FixedBytes 12 → Bytes → Bytes
  decrypt : FixedBytes 32 → FixedBytes 12 → Bytes → Option Bytes
  fromEntropy : FixedBytes 32 → Option String
  /-- Both sides agree on the secret. -/
  diffieHellman_comm : ∀ sk esk,
    diffieHellman esk (publicKey sk) = diffieHellman sk (publicKey esk)
  /-- Decryption inverts encryption and rejects everything else. -/
  decrypt_eq_some : ∀ key nonce c p, decrypt key nonce c = some p ↔ c = encrypt key nonce p

abbrev AccountKey := FixedBytes 32 × UInt32

section Accounts
variable (crypto : Crypto)

/-- The secret key of the sender and the nonce are drawn at random. -/
def sealAccount (account : AccountPayload) (pk ephemeralSk : FixedBytes 32)
    (nonce : FixedBytes 12) : LogEntry :=
  let key := crypto.deriveKey (crypto.diffieHellman ephemeralSk pk)
  .account (crypto.publicKey ephemeralSk) nonce (crypto.encrypt key nonce account.writeTo)

def encryptAccount (account : AccountPayload) (pk ephemeralSk : FixedBytes 32)
    (nonce : FixedBytes 12) : Bytes := (sealAccount crypto account pk ephemeralSk nonce).writeTo

def AccountPayload.restored (account : AccountPayload) (seed : String) : RestoredAccount :=
  ⟨account.timestamp, account.name, seed, account.aindex, account.useInternal,
    account.birthHeight⟩

/-- The account in an entry. Entries that do not open are skipped. -/
def openAccount (sk : FixedBytes 32) : LogEntry → Option (AccountKey × RestoredAccount)
  | .account ephemeralPk nonce ciphertext =>
    let key := crypto.deriveKey (crypto.diffieHellman sk ephemeralPk)
    match crypto.decrypt key nonce ciphertext with
    | none => none
    | some plaintext =>
      match AccountPayload.readFrom plaintext with
      | .error _ => none
      | .ok account =>
        match crypto.fromEntropy account.entropy with
        | none => none
        | some mnemonic => some ((account.entropy, account.aindex), account.restored mnemonic)
  | _ => none

/-- The map gives its values back in an order of its own, `intoValues`. -/
def decryptAccounts (intoValues : List (AccountKey × RestoredAccount) → List RestoredAccount)
    (entries : List LogEntry) (skBytes : Bytes) : Except Fault (List RestoredAccount) :=
  if h : skBytes.length = 32 then
    let deduped := entries.foldl (fun deduped entry =>
      match openAccount crypto ⟨skBytes, h⟩ entry with
      | some (key, restored) =>
        entryOr deduped key (fun existing =>
          if restored.timestamp > existing.timestamp then restored else existing) restored
      | none => deduped) []
    .ok (intoValues deduped)
  else .error (.error "Invalid sk length")

/-- An entry with an account, encrypted under the secret that the vault shares with its sender. -/
def Holds (sk : FixedBytes 32) (e : LogEntry) (x : AccountKey × RestoredAccount) : Prop :=
  ∃ pk nonce plaintext account seed,
    e = .account pk nonce
      (crypto.encrypt (crypto.deriveKey (crypto.diffieHellman sk pk)) nonce plaintext) ∧
    AccountPayload.readFrom plaintext = .ok account ∧
    crypto.fromEntropy account.entropy = some seed ∧
    x = ((account.entropy, account.aindex), account.restored seed)

/-- The accounts of a list of entries, in its order. What holds none is passed over. -/
inductive Held (sk : FixedBytes 32) :
    List LogEntry → List (AccountKey × RestoredAccount) → Prop
  | nil : Held sk [] []
  | holds {e es x xs} : Holds crypto sk e x → Held sk es xs → Held sk (e :: es) (x :: xs)
  | corrupt {e es xs} : (∀ x, ¬ Holds crypto sk e x) → Held sk es xs → Held sk (e :: es) xs

variable {crypto}

theorem Holds.openAccount_eq {sk : FixedBytes 32} {e : LogEntry} {x : AccountKey × RestoredAccount}
    (h : Holds crypto sk e x) : openAccount crypto sk e = some x := by
  obtain ⟨pk, nonce, plaintext, account, seed, rfl, hread, hseed, rfl⟩ := h
  have hdec := (crypto.decrypt_eq_some (crypto.deriveKey (crypto.diffieHellman sk pk)) nonce _
    plaintext).2 rfl
  simp only [openAccount, hdec, hread, hseed]

theorem holds_of_openAccount {sk : FixedBytes 32} {e : LogEntry} {x : AccountKey × RestoredAccount}
    (h : openAccount crypto sk e = some x) : Holds crypto sk e x := by
  cases e with
  | init => cases h
  | addDevice => cases h
  | account pk nonce ciphertext =>
    simp only [openAccount] at h
    split at h
    next => cases h
    next plaintext hdec =>
      split at h
      next => cases h
      next account hread =>
        split at h
        next => cases h
        next seed hseed =>
          rw [crypto.decrypt_eq_some] at hdec
          exact ⟨pk, nonce, plaintext, account, seed, by rw [hdec], hread, hseed,
            (Option.some.inj h).symm⟩

theorem holds_sealAccount {account : AccountPayload} {seed : String}
    (hname : (utf8 account.name).length < 65536)
    (hseed : crypto.fromEntropy account.entropy = some seed) (sk ephemeralSk : FixedBytes 32)
    (nonce : FixedBytes 12) :
    Holds crypto sk (sealAccount crypto account (crypto.publicKey sk) ephemeralSk nonce)
      ((account.entropy, account.aindex), account.restored seed) := by
  refine ⟨crypto.publicKey ephemeralSk, nonce, account.writeTo, account, seed, ?_,
    AccountPayload.readFrom_writeTo hname, hseed, rfl⟩
  rw [sealAccount, crypto.diffieHellman_comm sk ephemeralSk]

theorem parseEntries_encryptAccount {account : AccountPayload} {pk ephemeralSk : FixedBytes 32}
    {nonce : FixedBytes 12} (h : (sealAccount crypto account pk ephemeralSk nonce).Fits) :
    parseEntries (encryptAccount crypto account pk ephemeralSk nonce) =
      .ok [sealAccount crypto account pk ephemeralSk nonce] := by
  have hread := parseEntries_encode [sealAccount crypto account pk ephemeralSk nonce]
    (List.forall_mem_singleton.2 h)
  rwa [encode, List.flatMap_singleton] at hread

variable (crypto)

def opened (sk : FixedBytes 32) (entries : List LogEntry) : List (AccountKey × RestoredAccount) :=
  entries.filterMap (openAccount crypto sk)

variable {crypto} in
theorem held_iff {sk : FixedBytes 32} {es : List LogEntry}
    {xs : List (AccountKey × RestoredAccount)} :
    Held crypto sk es xs ↔ xs = opened crypto sk es := by
  constructor
  · intro h
    induction h with
    | nil => rfl
    | holds h _ ih => rw [ih, opened, opened, List.filterMap_cons_some h.openAccount_eq]
    | corrupt h _ ih =>
      rw [ih, opened, opened, List.filterMap_cons_none]
      exact Option.eq_none_iff_forall_ne_some.2 fun x hx => h x (holds_of_openAccount hx)
  · rintro rfl
    induction es with
    | nil => exact .nil
    | cons e es ih =>
      cases hopen : openAccount crypto sk e with
      | some x =>
        rw [opened, List.filterMap_cons_some hopen]
        exact .holds (holds_of_openAccount hopen) ih
      | none =>
        rw [opened, List.filterMap_cons_none hopen]
        refine .corrupt (fun x hx => ?_) ih
        rw [hx.openAccount_eq] at hopen
        cases hopen

theorem decryptAccounts_eq (intoValues : List (AccountKey × RestoredAccount) → List RestoredAccount)
    (entries : List LogEntry) (sk : FixedBytes 32) :
    decryptAccounts crypto intoValues entries sk.bytes =
      .ok (intoValues (latest RestoredAccount.time (opened crypto sk entries))) := by
  have hput : ∀ (m : List (AccountKey × RestoredAccount)) (e : AccountKey × RestoredAccount),
      put RestoredAccount.time m e = entryOr m e.1 (fun existing =>
        if e.2.timestamp > existing.timestamp then e.2 else existing) e.2 := by
    intro m e
    simp only [put, RestoredAccount.time, gt_iff_lt, UInt32.lt_iff_toNat_lt]
  rw [decryptAccounts, dif_pos sk.length_eq, latest, opened, List.foldl_filterMap]
  simp only [hput]
  congr 3
  funext m e
  cases openAccount crypto sk e <;> rfl

/-- A log is read back, up to the place where it is cut; any bytes are scanned to their end; each
    pair of entropy and index that a log holds is restored once, from its latest entry; and what
    is encrypted for the vault is an entry that it holds. -/
theorem vault_log_codec
    {intoValues : List (AccountKey × RestoredAccount) → List RestoredAccount}
    (hvalues : ∀ m, (intoValues m).Perm (m.map Prod.snd)) (log : List LogEntry)
    (hlog : ∀ e ∈ log, e.Fits) (k : ℕ) (bs : Bytes) (entries : List LogEntry)
    (sk : FixedBytes 32) :
    parseEntries (encode log) = .ok log ∧
      parseEntries ((encode log).take k) = .ok (wholeBefore log k) ∧
      (∃ es, parseEntries bs = .ok es) ∧
      (∃ accounts held m, decryptAccounts crypto intoValues entries sk.bytes = .ok accounts ∧
        accounts.Perm (m.map Prod.snd) ∧ Held crypto sk entries held ∧
        Deduped RestoredAccount.time held m) ∧
      ∀ account ephemeralSk nonce seed, (utf8 account.name).length < 65536 →
        crypto.fromEntropy account.entropy = some seed →
        (sealAccount crypto account (crypto.publicKey sk) ephemeralSk nonce).Fits →
        ∃ e, parseEntries (encryptAccount crypto account (crypto.publicKey sk) ephemeralSk nonce) =
            .ok [e] ∧
          Holds crypto sk e ((account.entropy, account.aindex), account.restored seed) := by
  refine ⟨parseEntries_encode log hlog, parseEntries_take_encode log hlog k, parseEntries_total bs,
    ⟨_, _, _, decryptAccounts_eq crypto intoValues entries sk, hvalues _, held_iff.2 rfl,
      deduped_latest _⟩, ?_⟩
  intro account ephemeralSk nonce seed hname hseed hfits
  exact ⟨_, parseEntries_encryptAccount hfits, holds_sealAccount hname hseed sk ephemeralSk nonce⟩

end Accounts

/-- Secrets agree by addition, and what is sealed carries its key and its nonce. -/
def plainCrypto : Crypto where
  publicKey sk := sk
  diffieHellman a b := ⟨a.bytes.zipWith (· + ·) b.bytes, by simp [a.length_eq, b.length_eq]⟩
  deriveKey secret := secret
  encrypt key nonce p := key.bytes ++ nonce.bytes ++ p
  decrypt key nonce c :=
    if key.bytes ++ nonce.bytes <+: c then some (c.drop 44) else none
  fromEntropy _ := some "abandon art"
  diffieHellman_comm sk esk := by
    rw [FixedBytes.mk.injEq]
    exact List.zipWith_comm_of_comm fun x y => UInt8.add_comm x y
  decrypt_eq_some key nonce c p := by
    have hlen : (key.bytes ++ nonce.bytes).length = 44 := by
      simp [key.length_eq, nonce.length_eq]
    constructor
    · intro h
      split at h
      next hpre =>
        obtain ⟨rest, rfl⟩ := hpre
        rw [List.drop_left' hlen, Option.some.injEq] at h
        rw [h]
      next => cases h
    · rintro rfl
      rw [if_pos (List.prefix_append ..), List.drop_left' hlen]

section Sample

def sampleSk : FixedBytes 32 := ⟨List.replicate 32 1, rfl⟩

/-- An account that was stored in the vault twice, under two names. -/
def samplePayload (timestamp : UInt32) (name : String) : AccountPayload :=
  ⟨timestamp, name, ⟨List.replicate 32 3, rfl⟩, 0, true, 419200⟩

def sampleSealed (timestamp : UInt32) (name : String) : LogEntry :=
  sealAccount plainCrypto (samplePayload timestamp name) (plainCrypto.publicKey sampleSk)
    ⟨List.replicate 32 2, rfl⟩ ⟨List.replicate 12 8, rfl⟩

def sampleCorrupt : LogEntry :=
  .account ⟨List.replicate 32 7, rfl⟩ ⟨List.replicate 12 8, rfl⟩ [9]

def sampleDevice : LogEntry :=
  .addDevice ⟨List.replicate 20 5, rfl⟩ ⟨List.replicate 60 6, rfl⟩

def sampleLog : List LogEntry :=
  [sampleDevice, sampleSealed 10 "old", sampleCorrupt, sampleSealed 20 "new"]

theorem sampleSealed_held (timestamp : UInt32) (name : String)
    (hname : (utf8 name).length < 65536) :
    Holds plainCrypto sampleSk (sampleSealed timestamp name)
      (((samplePayload timestamp name).entropy, 0),
        (samplePayload timestamp name).restored "abandon art") :=
  holds_sealAccount hname rfl ..

theorem sampleCorrupt_not_held (x : AccountKey × RestoredAccount) :
    ¬ Holds plainCrypto sampleSk sampleCorrupt x := by
  rintro ⟨pk, nonce, plaintext, account, seed, heq, -⟩
  injection heq with _ _ hcipher
  have hlen := congrArg List.length hcipher
  simp only [plainCrypto, List.length_append, List.length_singleton, FixedBytes.length_eq] at hlen
  omega

theorem sampleLog_held {xs : List (AccountKey × RestoredAccount)}
    (h : Held plainCrypto sampleSk sampleLog xs) :
    xs = [((⟨List.replicate 32 3, rfl⟩, 0), (samplePayload 10 "old").restored "abandon art"),
      ((⟨List.replicate 32 3, rfl⟩, 0), (samplePayload 20 "new").restored "abandon art")] := by
  have hdevice : ∀ x, ¬ Holds plainCrypto sampleSk sampleDevice x := by
    rintro x ⟨pk, nonce, plaintext, account, seed, heq, -⟩
    cases heq
  have hold := sampleSealed_held 10 "old" (by decide)
  have hnew := sampleSealed_held 20 "new" (by decide)
  rw [held_iff.1 h]
  exact (held_iff.1 (.corrupt hdevice (.holds hold
    (.corrupt sampleCorrupt_not_held (.holds hnew .nil))))).symm

/-- The log with two entries of one account and a corrupt one, whole and cut within its last
    entry: the later entry is restored. -/
theorem sampleLog_restored :
    parseEntries ((encode sampleLog).take 400) =
        .ok [sampleDevice, sampleSealed 10 "old", sampleCorrupt] ∧
      decryptAccounts plainCrypto (List.map Prod.snd) sampleLog sampleSk.bytes =
        .ok [(samplePayload 20 "new").restored "abandon art"] ∧
      ∃ e, parseEntries (sampleSealed 20 "new").writeTo = .ok [e] ∧
        Holds plainCrypto sampleSk e ((⟨List.replicate 32 3, rfl⟩, 0),
          (samplePayload 20 "new").restored "abandon art") := by
  have hfits : ∀ e ∈ sampleLog, e.Fits := by
    simp only [sampleLog, List.forall_mem_cons, List.not_mem_nil, false_imp_iff, implies_true,
      and_true, sampleDevice, sampleSealed, sampleCorrupt, sealAccount, LogEntry.Fits]
    decide
  obtain ⟨-, hcut, -, ⟨accounts, held, m, hdec, hperm, hheld, hdeduped⟩, hsealed⟩ :=
    vault_log_codec plainCrypto (fun _ => List.Perm.refl _) sampleLog hfits 400 [] sampleLog
      sampleSk
  obtain rfl := sampleLog_held hheld
  have hmem : sampleSealed 20 "new" ∈ sampleLog :=
    List.mem_of_getElem? (show sampleLog[3]? = some _ from rfl)
  have hwhole : wholeBefore sampleLog 400 =
      [sampleDevice, sampleSealed 10 "old", sampleCorrupt] := by decide +kernel
  rw [hwhole] at hcut
  refine ⟨hcut, ?_, hsealed (samplePayload 20 "new") ⟨List.replicate 32 2, rfl⟩
    ⟨List.replicate 12 8, rfl⟩ "abandon art" (by decide) rfl (hfits _ hmem)⟩
  -- Of the two accounts under the one key the later is left.
  have hm := hdeduped.eq_singleton (by simp) (List.mem_cons_of_mem _ List.mem_cons_self)
    fun w hw hne => by
      rcases List.mem_cons.1 hw with hw | hw
      · rw [(Prod.mk.inj hw).2]
        decide
      · exact absurd (Prod.mk.inj (List.mem_singleton.1 hw)).2 hne
  rw [hm] at hperm
  rw [hdec, List.perm_singleton.1 hperm]

end Sample

end ZcashSdk.Vault
