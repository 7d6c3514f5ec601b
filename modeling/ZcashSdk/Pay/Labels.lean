import ZcashSdk.Pay.Plan

set_option autoImplicit false

/-!
# The outputs of a transaction and their labels

The outputs go to the builder one after the other; the addresses of the transparent ones
are kept aside, and the built outputs get them by position.
-/
namespace ZcashSdk.Pay.Labels
open Db Shielded Loops

/-! ### The crates -/

/-- What decodes an address or a memo, for the network of the plan. A unified address has
    a Sapling and an Orchard receiver, or lacks one. -/
structure Encodings (A : Type) where
  tryFromEncoded : String → Except String A
  canReceiveAs : A → ℕ → Bool
  convertIfNetwork : A → Option Bytes
  paymentAddress : String → Option Bytes
  unifiedAddress : String → Option (Option Bytes × Option Bytes)
  memoFromStr : String → Except String Bytes
  memoFromBytes : Bytes → Except String Bytes
  assetBaseFromBytes : Bytes → Bool

/-- A call of the builder. The outgoing viewing key is taken from the full one. -/
inductive Output where
  | transparent (recipient : Bytes) (value : ℕ)
  | sapling (svk : Option Bytes) (recipient : Bytes) (value : ℕ) (memo : Bytes)
  | orchard (fvk : Option Bytes) (recipient : Bytes) (value : ℕ) (assetBase memo : Bytes)
  | orchardChange (fvk : Bytes) (recipient : Bytes) (value : ℕ) (assetBase memo : Bytes)
  | ironwood (fvk : Option Bytes) (recipient : Bytes) (value : ℕ) (memo : Bytes)

structure TxOut where
  recipient : Bytes
  value : ℕ
  deriving DecidableEq

def Output.txOut : Output → Option TxOut
  | .transparent recipient value => some ⟨recipient, value⟩
  | _ => none

structure Builder (B : Type) where
  add : B → Output → Except String B
  setZsaBuilder : B → IssuanceInfo → Except String B
  buildForPczt : B → Except String (List TxOut)
  transparentOutputs : B → List TxOut

/-- Transparent outputs are built in the order they are added. -/
structure Builder.KeepsOrder {B : Type} (builder : Builder B) : Prop where
  add : ∀ b output b', builder.add b output = .ok b' →
    builder.transparentOutputs b' = builder.transparentOutputs b ++ output.txOut.toList
  setZsaBuilder : ∀ b info b', builder.setZsaBuilder b info = .ok b' →
    builder.transparentOutputs b' = builder.transparentOutputs b
  buildForPczt : ∀ b outs, builder.buildForPczt b = .ok outs → outs = builder.transparentOutputs b

/-! ### What is paid -/

inductive OutputError where
  | bail (message : String)
  | panic (message : String)
  deriving DecidableEq

def orBail {α : Type} : Except String α → Except OutputError α
  | .ok a => .ok a
  | .error message => .error (.bail message)

def unwrap {α : Type} : Option α → Except OutputError α
  | some a => .ok a
  | none => .error (.panic "unwrap")

structure Request extends RecipientState where
  userMemo : Option String
  memoBytes : Option Bytes
  deriving DecidableEq

structure TransparentChangeLabel where
  pubkey : Bytes
  scope : ℕ
  dindex : ℕ
  address : String
  deriving DecidableEq

/-- A row of `transparent_address_accounts`. -/
structure AddressAccountRow where
  account : ℕ
  scope : ℕ
  dindex : ℕ
  pk : Bytes
  address : String
  deriving DecidableEq

/-- What the account and the state of the chain give. `nextChangeAddress` takes one index
    after the other; `publicKey` is a key as it is serialized. -/
structure Context where
  account : ℕ
  ironwoodActive : Bool
  svk : Option Bytes
  ovk : Option Bytes
  xvk : Option Bytes
  fullAddress : String
  nextChangeAddress : ℕ → Except OutputError String
  addresses : List AddressAccountRow
  publicKey : Bytes → Option Bytes
  issuance : Option IssuanceInfo

def maxMoney : ℕ := 2100000000000000

def zatoshis (amount : ℕ) : Except OutputError ℕ :=
  if amount ≤ maxMoney then .ok amount else .error (.bail "Invalid balance")

def constZatoshis (amount : ℕ) : Except OutputError ℕ :=
  if amount ≤ maxMoney then .ok amount else .error (.panic "const_from_u64")

section Encode
variable {A : Type} (enc : Encodings A)

def getTransparentAddress (address : String) : Except OutputError Bytes := do
  let addr ← orBail (enc.tryFromEncoded address)
  if enc.canReceiveAs addr 0 then unwrap (enc.convertIfNetwork addr)
  else .error (.bail s!"Invalid transparent address: {address}")

def getSaplingAddress (address : String) : Except OutputError Bytes :=
  match enc.paymentAddress address with
  | some addr => .ok addr
  | none =>
    match enc.unifiedAddress address with
    | some receivers => unwrap receivers.1
    | none => .error (.bail s!"Invalid sapling address: {address}")

def getOrchardAddress (address : String) : Except OutputError Bytes :=
  match enc.unifiedAddress address with
  | some receivers => unwrap receivers.2
  | none => .error (.bail s!"Invalid orchard address: {address}")

def encodeMemo (r : Request) : Except OutputError Bytes := do
  let text ← (r.userMemo.mapM enc.memoFromStr |> orBail)
  let bytes ← (r.memoBytes.mapM enc.memoFromBytes |> orBail)
  .ok ((text.or bytes).getD [])

def assetBaseOf (base : Bytes) : Except OutputError Bytes :=
  if base = zecKey then .ok zecKey
  else if base.length ≠ 32 then
    .error (.bail s!"Invalid asset_base length: expected 32, got {base.length}")
  else if enc.assetBaseFromBytes base then .ok base
  else .error (.bail "Invalid asset_base bytes")

end Encode

/-! ### Adding outputs -/

section Planning
variable {A B : Type} (enc : Encodings A) (builder : Builder B) (ctx : Context)

/-- The builder, and the address that every transparent output so far pays to. -/
structure Added (B : Type) where
  builder : B
  transparentOutputAddresses : List String

def Added.send (s : Added B) (output : Output) : Except OutputError (Added B) := do
  let b ← orBail (builder.add s.builder output)
  .ok { s with builder := b }

def orchardOutput (recipient : Bytes) (value : ℕ) (assetBase memo : Bytes) (missing : String) :
    Except OutputError Output :=
  if ctx.ironwoodActive then
    match ctx.ovk with
    | some fvk => .ok (.orchardChange fvk recipient value assetBase [])
    | none => .error (.bail missing)
  else .ok (.orchard ctx.ovk recipient value assetBase memo)

def addOutput (s : Added B) (r : Request) : Except OutputError (Added B) := do
  let value ← zatoshis r.amount
  let memo ← encodeMemo enc r
  match r.pool with
  | 0 =>
    if value ≠ 0 then do
      let recipient ← getTransparentAddress enc r.address
      let b ← orBail (builder.add s.builder (.transparent recipient value))
      .ok ⟨b, s.transparentOutputAddresses ++ [r.address]⟩
    else .ok s
  | 1 => do
    let recipient ← getSaplingAddress enc r.address
    s.send builder (.sapling ctx.svk recipient value memo)
  | 2 => do
    let recipient ← getOrchardAddress enc r.address
    let assetBase ← assetBaseOf enc r.assetBase
    let output ← orchardOutput ctx recipient value assetBase memo
      "No orchard key for migration change output"
    s.send builder output
  | 3 => do
    let recipient ← getOrchardAddress enc r.address
    s.send builder (.ironwood ctx.ovk recipient value memo)
  | _ => .ok s

def loadTransparentChangeLabel (address : String) : Except OutputError TransparentChangeLabel :=
  match ctx.addresses.find? fun row => row.account = ctx.account ∧ row.address = address with
  | none => .error (.bail "no rows returned by a query that expected to return at least one row")
  | some row =>
    match ctx.publicKey row.pk with
    | none => .error (.bail "invalid change address pubkey")
    | some pubkey => .ok ⟨pubkey, row.scope, row.dindex, address⟩

/-- A transparent change address of its own is taken twice, before the recipients' outputs and
    after them. -/
def ownChangeAddress (changePool n : ℕ) : Except OutputError String :=
  if changePool = 0 ∧ ctx.xvk.isSome then ctx.nextChangeAddress n else .ok ctx.fullAddress

def addChange (s : Added B) (changePool change : ℕ) (changeAddress : String) :
    Except OutputError (Added B × Option TransparentChangeLabel) := do
  match changePool with
  | 0 => do
    let recipient ← getTransparentAddress enc changeAddress
    let value ← constZatoshis change
    let s ← s.send builder (.transparent recipient value)
    let label ← loadTransparentChangeLabel ctx changeAddress
    .ok (s, some label)
  | 1 => do
    let recipient ← getSaplingAddress enc changeAddress
    let value ← constZatoshis change
    let s ← s.send builder (.sapling ctx.svk recipient value [])
    .ok (s, none)
  | 2 => do
    let recipient ← getOrchardAddress enc changeAddress
    let value ← constZatoshis change
    let output ← orchardOutput ctx recipient value zecKey [] "No orchard key for change output"
    let s ← s.send builder output
    .ok (s, none)
  | 3 => do
    let recipient ← getOrchardAddress enc changeAddress
    match ctx.ovk with
    | none => .error (.bail "No orchard key for ironwood change output")
    | some fvk => do
      let value ← constZatoshis change
      let s ← s.send builder (.ironwood (some fvk) recipient value [])
      .ok (s, none)
  | _ => .ok (s, none)

/-- Change of an asset goes to the account. -/
def fillAddress (changeAddress : String) (r : Request) : Request :=
  if r.address.isEmpty ∧ r.assetBase ≠ zecKey then { r with address := changeAddress } else r

end Planning

/-! ### Labels -/

inductive Proprietary where
  | u32 (n : ℕ)
  | text (s : String)
  deriving DecidableEq

/-- A transparent output of the PCZT, and what an external signer is told about it. -/
structure PcztOutput extends TxOut where
  userAddress : Option String
  bip32Derivation : List (Bytes × List ℕ)
  proprietary : List (String × Proprietary)
  deriving DecidableEq

def TxOut.unlabelled (out : TxOut) : PcztOutput := ⟨out, none, [], []⟩

/-- An index out of range is an error. -/
def updateOutputWith (outs : List PcztOutput) (i : ℕ) (f : PcztOutput → PcztOutput) :
    Except OutputError (List PcztOutput) :=
  if i < outs.length then .ok (outs.modify i f) else .error (.panic "InvalidIndex")

def setUserAddress (address : String) (out : PcztOutput) : PcztOutput :=
  { out with userAddress := some address }

def setChange (label : TransparentChangeLabel) (out : PcztOutput) : PcztOutput :=
  { out with
    bip32Derivation := out.bip32Derivation ++ [(label.pubkey, [label.scope, label.dindex])]
    proprietary := out.proprietary ++
      [("scope", .u32 label.scope), ("dindex", .u32 label.dindex), ("address", .text label.address)] }

def labelRecipients : ℕ → List String → List PcztOutput → Except OutputError (List PcztOutput)
  | _, [], outs => .ok outs
  | i, address :: rest, outs => do
    let outs ← updateOutputWith outs i (setUserAddress address)
    labelRecipients (i + 1) rest outs

/-- A failure is a panic of the caller. -/
def labelTransparentOutputs (outs : List PcztOutput) (recipientAddresses : List String)
    (change : Option TransparentChangeLabel) : Except OutputError (List PcztOutput) := do
  let outs ← labelRecipients 0 recipientAddresses outs
  match change with
  | some label => updateOutputWith outs recipientAddresses.length (setChange label)
  | none => .ok outs

theorem updateOutputWith_append (pre post : List PcztOutput) (out : PcztOutput)
    (f : PcztOutput → PcztOutput) :
    updateOutputWith (pre ++ out :: post) pre.length f = .ok (pre ++ f out :: post) := by
  have hmodify : (pre ++ out :: post).modify pre.length f = pre ++ f out :: post := by
    induction pre with
    | nil => rfl
    | cons a pre ih => rw [List.cons_append, List.length_cons, List.modify_succ_cons, ih]; rfl
  rw [updateOutputWith, hmodify, if_pos (by simp)]

/-- Every address goes to the output at its place. -/
theorem labelRecipients_append (addresses : List String) (pre outs post : List PcztOutput)
    (h : addresses.length = outs.length) :
    labelRecipients pre.length addresses (pre ++ outs ++ post) =
      .ok (pre ++ List.zipWith setUserAddress addresses outs ++ post) := by
  induction addresses generalizing pre outs with
  | nil =>
    obtain rfl := List.length_eq_zero_iff.1 h.symm
    rfl
  | cons address rest ih =>
    cases outs with
    | nil => cases h
    | cons out outs =>
      have hnext := ih (pre ++ [setUserAddress address out]) outs (Nat.succ.inj h)
      rw [List.length_append, List.length_singleton] at hnext
      rw [labelRecipients, List.append_assoc, List.cons_append, updateOutputWith_append, ok_bind]
      simpa using hnext

theorem labelTransparentOutputs_append (addresses : List String)
    (label : Option TransparentChangeLabel) (outs rest : List PcztOutput)
    (h : addresses.length = outs.length) (hrest : label.toList.length = rest.length) :
    labelTransparentOutputs (outs ++ rest) addresses label =
      .ok (List.zipWith setUserAddress addresses outs ++
        List.zipWith setChange label.toList rest) := by
  have hlabel := labelRecipients_append addresses [] outs rest h
  rw [List.nil_append, List.nil_append, List.length_nil] at hlabel
  rw [labelTransparentOutputs, hlabel, ok_bind]
  cases label with
  | none =>
    obtain rfl := List.length_eq_zero_iff.1 hrest.symm
    rfl
  | some l =>
    obtain ⟨out, rfl⟩ := List.length_eq_one_iff.1 hrest.symm
    have hlen : addresses.length = (List.zipWith setUserAddress addresses outs).length := by
      rw [List.length_zipWith, ← h, min_self]
    dsimp only
    rw [hlen, updateOutputWith_append]
    rfl

/-! ### The whole -/

section Planning
variable {A B : Type} (enc : Encodings A) (builder : Builder B) (ctx : Context)

def planChange (s : Added B) (changePool change : ℕ) :
    Except OutputError (Added B × Option TransparentChangeLabel) :=
  if 0 < change then do
    let changeAddress ← ownChangeAddress ctx changePool 1
    addChange enc builder ctx s changePool change changeAddress
  else .ok (s, none)

def addIssuance (b : B) : Except OutputError B :=
  match ctx.issuance with
  | none => .ok b
  | some info =>
    if ctx.ovk.isNone then .error (.bail "No orchard key for issuance")
    else orBail (builder.setZsaBuilder b info)

/-- What `plan_transaction` does once the inputs are added, until it builds. -/
def addOutputs (b : B) (requests : List Request) (changePool change : ℕ) :
    Except OutputError (B × List String × Option TransparentChangeLabel) := do
  let changeAddress ← ownChangeAddress ctx changePool 0
  let s ← (requests.map (fillAddress changeAddress)).foldlM (addOutput enc builder ctx) ⟨b, []⟩
  let (s, label) ← planChange enc builder ctx s changePool change
  let b ← addIssuance builder ctx s.builder
  .ok (b, s.transparentOutputAddresses, label)

def buildOutputs (b : B) (requests : List Request) (changePool change : ℕ) :
    Except OutputError (List TxOut × List String × Option TransparentChangeLabel) := do
  let (b, addresses, label) ← addOutputs enc builder ctx b requests changePool change
  let outs ← orBail (builder.buildForPczt b)
  .ok (outs, addresses, label)

def planOutputs (b : B) (requests : List Request) (changePool change : ℕ) :
    Except OutputError (List PcztOutput) := do
  let (outs, addresses, label) ← buildOutputs enc builder ctx b requests changePool change
  labelTransparentOutputs (outs.map TxOut.unlabelled) addresses label

end Planning

/-! ### Two passes over the outputs -/

def transparentRequests (requests : List Request) : List Request :=
  requests.filter fun r => r.pool = 0 ∧ r.amount ≠ 0

section Spec
variable {A B : Type} {enc : Encodings A} {builder : Builder B} {ctx : Context}
  {s t : Added B} {r : Request} {requests : List Request} {changePool change : ℕ}

structure Pays (enc : Encodings A) (address : String) (amount : ℕ) (out : TxOut) : Prop where
  recipient : getTransparentAddress enc address = .ok out.recipient
  value : out.value = amount

structure Grows (enc : Encodings A) (builder : Builder B) (s t : Added B) (paid : List Request) :
    Prop where
  addresses : t.transparentOutputAddresses =
    s.transparentOutputAddresses ++ paid.map fun r => r.address
  outputs : ∃ outs, builder.transparentOutputs t.builder =
      builder.transparentOutputs s.builder ++ outs ∧
    List.Forall₂ (fun (r : Request) out => Pays enc r.address r.amount out) paid outs

theorem Grows.refl : Grows enc builder s s [] :=
  ⟨(List.append_nil _).symm, [], (List.append_nil _).symm, .nil⟩

theorem Grows.trans {u : Added B} {paid paid' : List Request} (h : Grows enc builder s t paid)
    (h' : Grows enc builder t u paid') : Grows enc builder s u (paid ++ paid') := by
  obtain ⟨outs, houts, hpays⟩ := h.outputs
  obtain ⟨outs', houts', hpays'⟩ := h'.outputs
  refine ⟨?_, outs ++ outs', ?_, List.rel_append hpays hpays'⟩
  · rw [h'.addresses, h.addresses, List.map_append, List.append_assoc]
  · rw [houts', houts, List.append_assoc]

theorem orBail_eq_ok {α : Type} {x : Except String α} {a : α} : orBail x = .ok a ↔ x = .ok a := by
  cases x <;> simp [orBail]

theorem zatoshis_eq_ok {amount value : ℕ} (h : zatoshis amount = .ok value) : value = amount := by
  unfold zatoshis at h
  split at h <;> cases h
  rfl

theorem constZatoshis_eq_ok {amount value : ℕ} (h : constZatoshis amount = .ok value) :
    value = amount := by
  unfold constZatoshis at h
  split at h <;> cases h
  rfl

theorem send_spec (hlib : builder.KeepsOrder) {output : Output}
    (h : s.send builder output = .ok t) :
    t.transparentOutputAddresses = s.transparentOutputAddresses ∧
      builder.transparentOutputs t.builder =
        builder.transparentOutputs s.builder ++ output.txOut.toList := by
  obtain ⟨b, hb, ht⟩ := bind_eq_ok.1 h
  cases ht
  exact ⟨rfl, hlib.add _ _ _ (orBail_eq_ok.1 hb)⟩

theorem send_grows (hlib : builder.KeepsOrder) {output : Output} (hnone : output.txOut = none)
    (h : s.send builder output = .ok t) : Grows enc builder s t [] := by
  obtain ⟨haddresses, houts⟩ := send_spec hlib h
  rw [hnone] at houts
  exact ⟨by rw [haddresses]; simp, [], houts, .nil⟩

theorem orchardOutput_txOut {recipient assetBase memo : Bytes} {value : ℕ} {missing : String}
    {output : Output} (h : orchardOutput ctx recipient value assetBase memo missing = .ok output) :
    output.txOut = none := by
  unfold orchardOutput at h
  split at h
  · split at h <;> cases h
    rfl
  · cases h
    rfl

/-- One recipient: an address is kept aside exactly when an output is added for it. -/
theorem addOutput_grows (hlib : builder.KeepsOrder) (h : addOutput enc builder ctx s r = .ok t) :
    Grows enc builder s t (transparentRequests [r]) := by
  obtain ⟨value, hvalue, h⟩ := bind_eq_ok.1 h
  obtain ⟨memo, -, h⟩ := bind_eq_ok.1 h
  obtain rfl := zatoshis_eq_ok hvalue
  have hother (hpool : r.pool ≠ 0) : transparentRequests [r] = [] := by
    simp [transparentRequests, hpool]
  split at h
  · rename_i hpool
    by_cases hzero : r.amount = 0
    · rw [if_neg (not_not.2 hzero)] at h
      cases h
      have hnone : transparentRequests [r] = [] := by simp [transparentRequests, hzero]
      rw [hnone]
      exact .refl
    · rw [if_pos hzero] at h
      obtain ⟨recipient, hto, h⟩ := bind_eq_ok.1 h
      obtain ⟨b, hb, h⟩ := bind_eq_ok.1 h
      cases h
      have hpaid : transparentRequests [r] = [r] := by simp [transparentRequests, hpool, hzero]
      rw [hpaid]
      exact ⟨rfl, [⟨recipient, r.amount⟩], hlib.add _ _ _ (orBail_eq_ok.1 hb),
        .cons ⟨hto, rfl⟩ .nil⟩
  · rename_i hpool
    obtain ⟨recipient, -, h⟩ := bind_eq_ok.1 h
    rw [hother (by omega)]
    exact send_grows hlib rfl h
  · rename_i hpool
    obtain ⟨recipient, -, h⟩ := bind_eq_ok.1 h
    obtain ⟨assetBase, -, h⟩ := bind_eq_ok.1 h
    obtain ⟨output, houtput, h⟩ := bind_eq_ok.1 h
    rw [hother (by omega)]
    exact send_grows hlib (orchardOutput_txOut houtput) h
  · rename_i hpool
    obtain ⟨recipient, -, h⟩ := bind_eq_ok.1 h
    rw [hother (by omega)]
    exact send_grows hlib rfl h
  · rename_i hpool _ _ _
    cases h
    rw [hother hpool]
    exact .refl

theorem addOutputs_grows (hlib : builder.KeepsOrder)
    (h : requests.foldlM (addOutput enc builder ctx) s = .ok t) :
    Grows enc builder s t (transparentRequests requests) := by
  induction requests generalizing s with
  | nil =>
    cases h
    exact .refl
  | cons r rest ih =>
    rw [List.foldlM_cons] at h
    obtain ⟨u, hu, h⟩ := bind_eq_ok.1 h
    have hsplit : transparentRequests (r :: rest) =
        transparentRequests [r] ++ transparentRequests rest :=
      List.filter_append [r] rest
    rw [hsplit]
    exact (addOutput_grows hlib hu).trans (ih h)

theorem loadTransparentChangeLabel_address {address : String} {label : TransparentChangeLabel}
    (h : loadTransparentChangeLabel ctx address = .ok label) : label.address = address := by
  unfold loadTransparentChangeLabel at h
  split at h
  · cases h
  · split at h <;> cases h
    rfl

structure Changed (enc : Encodings A) (builder : Builder B) (changePool change : ℕ) (s t : Added B)
    (label : Option TransparentChangeLabel) : Prop where
  addresses : t.transparentOutputAddresses = s.transparentOutputAddresses
  isSome : label.isSome = true ↔ changePool = 0
  outputs : ∃ outs, builder.transparentOutputs t.builder =
      builder.transparentOutputs s.builder ++ outs ∧
    List.Forall₂ (fun (l : TransparentChangeLabel) out => Pays enc l.address change out)
      label.toList outs

theorem send_changed (hlib : builder.KeepsOrder) {output : Output} (hnone : output.txOut = none)
    (hpool : changePool ≠ 0) (h : s.send builder output = .ok t) :
    Changed enc builder changePool change s t none := by
  obtain ⟨haddresses, houts⟩ := send_spec hlib h
  rw [hnone] at houts
  exact ⟨haddresses, by simpa using hpool, [], houts, .nil⟩

theorem addChange_changed (hlib : builder.KeepsOrder) {changeAddress : String}
    {label : Option TransparentChangeLabel}
    (h : addChange enc builder ctx s changePool change changeAddress = .ok (t, label)) :
    Changed enc builder changePool change s t label := by
  unfold addChange at h
  split at h
  · obtain ⟨recipient, hto, h⟩ := bind_eq_ok.1 h
    obtain ⟨value, hvalue, h⟩ := bind_eq_ok.1 h
    obtain ⟨u, hu, h⟩ := bind_eq_ok.1 h
    obtain ⟨l, hl, h⟩ := bind_eq_ok.1 h
    cases h
    obtain ⟨haddresses, houts⟩ := send_spec hlib hu
    refine ⟨haddresses, by simp, _, houts, .cons ⟨?_, constZatoshis_eq_ok hvalue⟩ .nil⟩
    rw [loadTransparentChangeLabel_address hl]
    exact hto
  · obtain ⟨recipient, -, h⟩ := bind_eq_ok.1 h
    obtain ⟨value, -, h⟩ := bind_eq_ok.1 h
    obtain ⟨u, hu, h⟩ := bind_eq_ok.1 h
    cases h
    exact send_changed hlib rfl (by omega) hu
  · obtain ⟨recipient, -, h⟩ := bind_eq_ok.1 h
    obtain ⟨value, -, h⟩ := bind_eq_ok.1 h
    obtain ⟨output, houtput, h⟩ := bind_eq_ok.1 h
    obtain ⟨u, hu, h⟩ := bind_eq_ok.1 h
    cases h
    exact send_changed hlib (orchardOutput_txOut houtput) (by omega) hu
  · obtain ⟨recipient, -, h⟩ := bind_eq_ok.1 h
    split at h
    · cases h
    · obtain ⟨value, -, h⟩ := bind_eq_ok.1 h
      obtain ⟨u, hu, h⟩ := bind_eq_ok.1 h
      cases h
      exact send_changed hlib rfl (by omega) hu
  · rename_i hpool _ _ _
    cases h
    exact ⟨rfl, by simpa using hpool, [], (List.append_nil _).symm, .nil⟩

structure Built (enc : Encodings A) (paid : List Request) (change : ℕ)
    (label : Option TransparentChangeLabel) (addresses : List String) (outs : List TxOut) :
    Prop where
  addresses : addresses = paid.map fun r => r.address
  outputs : ∃ toRecipients toChange, outs = toRecipients ++ toChange ∧
    List.Forall₂ (fun (r : Request) out => Pays enc r.address r.amount out) paid toRecipients ∧
    List.Forall₂ (fun (l : TransparentChangeLabel) out => Pays enc l.address change out)
      label.toList toChange

theorem Grows.built {b : B} {label : Option TransparentChangeLabel} {paid : List Request}
    (h : Grows enc builder ⟨b, []⟩ s paid) (hempty : builder.transparentOutputs b = [])
    (haddresses : t.transparentOutputAddresses = s.transparentOutputAddresses)
    (houts : ∃ outs, builder.transparentOutputs t.builder =
        builder.transparentOutputs s.builder ++ outs ∧
      List.Forall₂ (fun (l : TransparentChangeLabel) out => Pays enc l.address change out)
        label.toList outs) :
    Built enc paid change label t.transparentOutputAddresses
      (builder.transparentOutputs t.builder) := by
  obtain ⟨toRecipients, hs, hpaid⟩ := h.outputs
  obtain ⟨toChange, ht, hchange⟩ := houts
  rw [hempty, List.nil_append] at hs
  refine ⟨?_, toRecipients, toChange, ?_, hpaid, hchange⟩
  · rw [haddresses, h.addresses, List.nil_append]
  · rw [ht, hs]

theorem addIssuance_spec (hlib : builder.KeepsOrder) {b b' : B}
    (h : addIssuance builder ctx b = .ok b') :
    builder.transparentOutputs b' = builder.transparentOutputs b := by
  unfold addIssuance at h
  split at h
  · cases h
    rfl
  · split at h
    · cases h
    · exact hlib.setZsaBuilder _ _ _ (orBail_eq_ok.1 h)

theorem buildOutputs_spec (hlib : builder.KeepsOrder) {b : B}
    (hempty : builder.transparentOutputs b = []) {outs : List TxOut} {addresses : List String}
    {label : Option TransparentChangeLabel}
    (h : buildOutputs enc builder ctx b requests changePool change = .ok (outs, addresses, label)) :
    ∃ changeAddress, ownChangeAddress ctx changePool 0 = .ok changeAddress ∧
      (label.isSome = true ↔ 0 < change ∧ changePool = 0) ∧
      Built enc (transparentRequests (requests.map (fillAddress changeAddress))) change label
        addresses outs := by
  obtain ⟨⟨b', addresses', label'⟩, hadded, h⟩ := bind_eq_ok.1 h
  obtain ⟨outs', houts, h⟩ := bind_eq_ok.1 h
  cases h
  obtain ⟨changeAddress, haddress, hadded⟩ := bind_eq_ok.1 hadded
  obtain ⟨s, hs, hadded⟩ := bind_eq_ok.1 hadded
  obtain ⟨⟨t, l⟩, ht, hadded⟩ := bind_eq_ok.1 hadded
  obtain ⟨b'', hb', hadded⟩ := bind_eq_ok.1 hadded
  cases hadded
  have hall : outs = builder.transparentOutputs t.builder := by
    rw [hlib.buildForPczt _ _ (orBail_eq_ok.1 houts), addIssuance_spec hlib hb']
  have hgrows := addOutputs_grows hlib hs
  refine ⟨changeAddress, haddress, ?_⟩
  rw [hall]
  unfold planChange at ht
  split at ht
  · rename_i hpos
    obtain ⟨own, -, ht⟩ := bind_eq_ok.1 ht
    have hchange := addChange_changed hlib ht
    exact ⟨by simpa [hpos] using hchange.isSome,
      hgrows.built hempty hchange.addresses hchange.outputs⟩
  · rename_i hzero
    cases ht
    exact ⟨by simp [hzero], hgrows.built hempty rfl ⟨[], (List.append_nil _).symm, .nil⟩⟩

/-- Every recipient's address stands on the output that pays it, and the change comes after them. -/
structure LabelsMatch (enc : Encodings A) (paid : List Request) (change : ℕ)
    (label : Option TransparentChangeLabel) (outs : List PcztOutput) : Prop where
  length : outs.length = paid.length + label.toList.length
  recipient : ∀ (i : ℕ) (r : Request), paid[i]? = some r → ∃ out : PcztOutput,
    outs[i]? = some out ∧ Pays enc r.address r.amount out.toTxOut ∧
      out.userAddress = some r.address
  change : ∀ l : TransparentChangeLabel, label = some l → ∃ out : PcztOutput,
    outs[paid.length]? = some out ∧ Pays enc l.address change out.toTxOut ∧
      out = setChange l out.toTxOut.unlabelled

theorem map_toTxOut_zipWith {α : Type} (f : α → PcztOutput → PcztOutput)
    (hf : ∀ a out, (f a out).toTxOut = out.toTxOut) (as : List α) (outs : List TxOut)
    (h : as.length = outs.length) :
    (List.zipWith f as (outs.map TxOut.unlabelled)).map PcztOutput.toTxOut = outs := by
  induction as generalizing outs with
  | nil => exact (List.length_eq_zero_iff.1 h.symm).symm
  | cons a as ih =>
    cases outs with
    | nil => cases h
    | cons out outs =>
      have htail := ih outs (Nat.succ.inj h)
      rw [List.map_cons, List.zipWith_cons_cons, List.map_cons, htail, hf]
      rfl

theorem forall₂_getElem? {α β : Type} {R : α → β → Prop} {as : List α} {bs : List β} {i : ℕ}
    {a : α} (h : List.Forall₂ R as bs) (ha : as[i]? = some a) : ∃ b, bs[i]? = some b ∧ R a b := by
  obtain ⟨hi, rfl⟩ := List.getElem?_eq_some_iff.1 ha
  have hj : i < bs.length := h.length_eq ▸ hi
  exact ⟨bs[i], List.getElem?_eq_getElem hj, h.get hi hj⟩

theorem Built.labelled {label : Option TransparentChangeLabel} {paid : List Request}
    {addresses : List String} {outs : List TxOut}
    (h : Built enc paid change label addresses outs) :
    ∃ labelled, labelTransparentOutputs (outs.map TxOut.unlabelled) addresses label =
        .ok labelled ∧
      labelled.map PcztOutput.toTxOut = outs ∧ LabelsMatch enc paid change label labelled := by
  obtain ⟨rfl, toRecipients, toChange, rfl, hpaid, hchange⟩ := h
  have hlen := hpaid.length_eq
  have hrest := hchange.length_eq
  rw [List.map_append]
  refine ⟨_, labelTransparentOutputs_append _ _ _ _ (by simpa using hlen) (by simpa using hrest),
    ?_, ?_, ?_, ?_⟩
  · rw [List.map_append, map_toTxOut_zipWith setUserAddress (fun _ _ => rfl) _ _ (by simpa using hlen),
      map_toTxOut_zipWith setChange (fun _ _ => rfl) _ _ hrest]
  · simp [← hlen, ← hrest]
  · intro i r hr
    obtain ⟨out, hout, hpays⟩ := forall₂_getElem? hpaid hr
    obtain ⟨hi, -⟩ := List.getElem?_eq_some_iff.1 hr
    refine ⟨setUserAddress r.address out.unlabelled, ?_, hpays, rfl⟩
    rw [List.getElem?_append_left (by simpa [← hlen] using hi), List.getElem?_zipWith]
    simp [hr, hout]
  · intro l hl
    obtain ⟨out, hout, hpays⟩ := forall₂_getElem? hchange (i := 0) (a := l) (by simp [hl])
    refine ⟨setChange l out.unlabelled, ?_, hpays, rfl⟩
    rw [List.getElem?_append_right (by simp [← hlen]), List.getElem?_zipWith]
    simp [← hlen, hl, hout]

/-- Whatever the recipients and the change: the labelling never fails on what was built, and each
    label stands on the output that pays to its address. -/
theorem transparent_labels_match {A B : Type} (enc : Encodings A) (builder : Builder B)
    (hlib : builder.KeepsOrder) (ctx : Context) (b : B)
    (hempty : builder.transparentOutputs b = []) (requests : List Request)
    (changePool change : ℕ) (outs : List TxOut) (addresses : List String)
    (label : Option TransparentChangeLabel)
    (h : buildOutputs enc builder ctx b requests changePool change = .ok (outs, addresses, label)) :
    ∃ labelled changeAddress,
      planOutputs enc builder ctx b requests changePool change = .ok labelled ∧
      labelled.map PcztOutput.toTxOut = outs ∧
      (label.isSome = true ↔ 0 < change ∧ changePool = 0) ∧
      ownChangeAddress ctx changePool 0 = .ok changeAddress ∧
      LabelsMatch enc (transparentRequests (requests.map (fillAddress changeAddress))) change
        label labelled := by
  obtain ⟨changeAddress, haddress, hlabel, hbuilt⟩ := buildOutputs_spec hlib hempty h
  obtain ⟨labelled, hlabelled, houts, hmatch⟩ := hbuilt.labelled
  refine ⟨labelled, changeAddress, ?_, houts, hlabel, haddress, hmatch⟩
  rw [planOutputs, h]
  exact hlabelled

end Spec

/-! ### Four recipients -/

def addressA : String := "t1VmmGiyjVNeCjxDZzg7vZmd99WyzVby9yC"

def hashA : Bytes := [130, 134, 191, 121, 8, 102, 128, 83, 151, 227, 169, 71, 100, 11, 119, 164, 63,
  11, 67, 165]

def addressB : String := "t1WaKiZ8GaKjV8seRko8T5j8s4UXTZcGBPi"

def hashB : Bytes := [139, 84, 247, 88, 135, 4, 74, 11, 197, 205, 65, 233, 182, 225, 31, 21, 30, 52,
  24, 15]

def addressC : String := "t1WksXp7ci6XkPNkEHNkFfzQXbRpBCQw7kW"

def hashC : Bytes := [141, 83, 174, 247, 235, 105, 153, 204, 222, 156, 119, 245, 71, 57, 35, 164,
  213, 33, 213, 59]

def saplingAddress : String :=
  "zs1yc4sgtfwwzz6xfsy2xsradzr6m4aypgxhfw2vcn3hatrh5ryqsr08sgpemlg39vdh9kfupx20py"

def saplingReceiver : Bytes :=
  [38, 43, 4, 45, 46, 112, 133, 163, 38, 4, 81, 160, 62, 180, 67, 214, 235, 210, 5, 6, 186, 92,
  166, 98, 113, 191, 86, 59, 208, 100, 4, 6, 243, 193, 1, 206, 254, 136, 149, 141, 185, 108,
  158]

def samplePubkey : Bytes :=
  [2, 121, 190, 102, 126, 249, 220, 187, 172, 85, 160, 98, 149, 206, 135, 11, 7, 2, 155, 252,
  219, 45, 206, 40, 217, 89, 242, 129, 91, 22, 248, 23, 152]

def sampleEncodings : Encodings Bytes where
  tryFromEncoded address :=
    if address = addressA then .ok hashA
    else if address = addressB then .ok hashB
    else if address = addressC then .ok hashC
    else if address = saplingAddress then .ok saplingReceiver
    else .error "Invalid address"
  canReceiveAs addr pool := if addr.length = 20 then pool = 0 else pool = 1
  convertIfNetwork addr := if addr.length = 20 then some addr else none
  paymentAddress address := if address = saplingAddress then some saplingReceiver else none
  unifiedAddress _ := none
  memoFromStr _ := .ok []
  memoFromBytes bytes := .ok bytes
  assetBaseFromBytes _ := true

def listBuilder : Builder (List Output) where
  add outs out := .ok (outs ++ [out])
  setZsaBuilder outs _ := .ok outs
  buildForPczt outs := .ok (outs.filterMap Output.txOut)
  transparentOutputs outs := outs.filterMap Output.txOut

theorem listBuilder_keepsOrder : listBuilder.KeepsOrder where
  add := by
    rintro outs out _ ⟨⟩
    cases out <;> simp [listBuilder, Output.txOut]
  setZsaBuilder := by
    rintro outs info _ ⟨⟩
    rfl
  buildForPczt := by
    rintro outs _ ⟨⟩
    rfl

def pay (pool : ℕ) (address : String) (amount : ℕ) : Request :=
  ⟨⟨address, amount, pool, zecKey⟩, none, none⟩

def sampleContext : Context where
  account := 1
  ironwoodActive := false
  svk := none
  ovk := none
  xvk := some [4]
  fullAddress := addressA
  nextChangeAddress n := .ok (if n = 0 then addressB else addressC)
  addresses := [⟨1, 1, 0, samplePubkey, addressB⟩, ⟨1, 1, 1, samplePubkey, addressC⟩]
  publicKey pk := if pk.length = 33 then some pk else none
  issuance := none

def sampleRequests : List Request :=
  [pay 0 addressA 0, pay 0 addressB 20000, pay 1 saplingAddress 50000, pay 0 addressA 30000]

theorem sampleRequests_labels :
    ∃ labelled, planOutputs sampleEncodings listBuilder sampleContext [] sampleRequests 0 1000 =
        .ok labelled ∧
      labelled.map PcztOutput.toTxOut = [⟨hashB, 20000⟩, ⟨hashA, 30000⟩, ⟨hashC, 1000⟩] ∧
      LabelsMatch sampleEncodings [pay 0 addressB 20000, pay 0 addressA 30000] 1000
        (some ⟨samplePubkey, 1, 1, addressC⟩) labelled := by
  obtain ⟨labelled, changeAddress, hplan, houts, -, hown, hmatch⟩ :=
    transparent_labels_match sampleEncodings listBuilder listBuilder_keepsOrder sampleContext [] rfl
      sampleRequests 0 1000 [⟨hashB, 20000⟩, ⟨hashA, 30000⟩, ⟨hashC, 1000⟩] [addressB, addressA]
      (some ⟨samplePubkey, 1, 1, addressC⟩) (by rfl)
  cases hown
  exact ⟨labelled, hplan, houts, hmatch⟩

end ZcashSdk.Pay.Labels
