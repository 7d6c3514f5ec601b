import ZcashSdk.Shielded.Types

set_option autoImplicit false

/-!
# Shielded protocols

`ShieldedProtocol` is what the synchronizer knows of a pool. The three pools are
built from `ZcashCrypto`, which stands for the cryptographic crates: key agreement,
note parsing and nullifier derivation. What the wallet's own code does with their
answers (the commitment check, the pool a note is filed under, the record it
builds) is written out here.
-/
namespace ZcashSdk.Shielded

variable {H : Type}

structure ShieldedProtocol (H : Type) where
  IVK : Type
  NK : Type
  PNote : Type
  Spend : Type
  Output : Type
  hasher : Hasher H
  extractInputs : CompactTx H → List Spend
  extractOutputs : CompactTx H → List Output
  extractNf : Spend → H
  extractCmx : Output → H
  tryDecrypt : (account scope : ℕ) → IVK → (height ivtx vout : ℕ) → Output →
    Except Fault (Option (PNote × Note H))
  deriveNf : NK → ℕ → PNote → Except Fault H
  tryDecryptIssuance : (account scope : ℕ) → IVK → (height ivtx vout : ℕ) →
    CompactIssueNote → Bytes → Except Fault (Option (PNote × Note H))
  computeIssuanceCmx : CompactIssueNote → Bytes → Except Fault (Option H)

/-- A decrypted note is filed under the coordinates it was found at. -/
def Note.FoundAt (n : Note H) (account scope height ivtx vout : ℕ) : Prop :=
  n.account = account ∧ n.scope = scope ∧ n.height = height ∧ n.ivtx = ivtx ∧ n.vout = vout

/-- What the synchronizer relies on: notes come back with the coordinates they were
    asked for and with the commitment of their output, and a pool either commits to
    every issuance note or to none. -/
structure ShieldedProtocol.Lawful (P : ShieldedProtocol H) : Prop where
  tryDecrypt_found : ∀ account scope ivk height ivtx vout o n dbn,
    P.tryDecrypt account scope ivk height ivtx vout o = .ok (some (n, dbn)) →
    dbn.FoundAt account scope height ivtx vout ∧ dbn.cmx = P.extractCmx o
  tryDecryptIssuance_found : ∀ account scope ivk height ivtx vout note base n dbn,
    P.tryDecryptIssuance account scope ivk height ivtx vout note base = .ok (some (n, dbn)) →
    dbn.FoundAt account scope height ivtx vout ∧
      P.computeIssuanceCmx note base = .ok (some dbn.cmx)
  issuance_uniform : (∀ note base, P.computeIssuanceCmx note base = .ok none) ∨
    (∀ note base, P.computeIssuanceCmx note base ≠ .ok none)

/-- A note as the cryptographic crates hand it over. -/
structure ParsedNote (N H : Type) where
  note : N
  cmx : H
  value : ℕ
  rcm : Bytes
  rho : Bytes
  diversifier : Bytes
  assetBase : Bytes

structure ZcashCrypto (H : Type) where
  SaplingIvk : Type
  SaplingNk : Type
  SaplingNote : Type
  OrchardIvk : Type
  OrchardFvk : Type
  OrchardNote : Type
  saplingHasher : Hasher H
  orchardHasher : Hasher H
  /-- Key agreement, decryption and parsing of a Sapling output of valid length. -/
  parseSapling : ℕ → SaplingIvk → CompactSaplingOutput H →
    Except Fault (Option (ParsedNote SaplingNote H))
  saplingNf : SaplingNk → ℕ → SaplingNote → H
  /-- Key agreement and keystream: the plaintext, or the error of a malformed action. -/
  orchardPlaintext : OrchardIvk → CompactOrchardAction H → Except Fault Bytes
  plaintextVersionIsValid : ℕ → UInt8 → Bool
  parseZsa : OrchardIvk → CompactOrchardAction H → Bytes →
    Except Fault (Option (ParsedNote OrchardNote H))
  parseIronwood : OrchardIvk → CompactOrchardAction H → Bytes →
    Except Fault (Option (ParsedNote OrchardNote H))
  parseOrchard : OrchardIvk → CompactOrchardAction H → Bytes →
    Except Fault (Option (ParsedNote OrchardNote H))
  orchardNf : OrchardFvk → OrchardNote → H
  /-- Whether a raw 43-byte address is one, and then whether it is the viewing key's. -/
  isAddress : Bytes → Bool
  ownsAddress : OrchardIvk → Bytes → Bool
  constructIssuanceNote : CompactIssueNote → Bytes → Except Fault (ParsedNote OrchardNote H)

def compactNoteSize : ℕ := 52

def ParsedNote.toNote {N : Type} [Inhabited H] (p : ParsedNote N H) (pool : ℕ) (rho : Bytes)
    (account scope height ivtx vout : ℕ) : Note H :=
  { (Note.default : Note H) with
    pool := pool, account := account, scope := scope, height := height, value := p.value,
    rcm := p.rcm, rho := rho, vout := vout, diversifier := p.diversifier, ivtx := ivtx,
    cmx := p.cmx, assetBase := p.assetBase }

theorem ParsedNote.toNote_foundAt {N : Type} [Inhabited H] (p : ParsedNote N H) (pool : ℕ)
    (rho : Bytes) (account scope height ivtx vout : ℕ) :
    (p.toNote pool rho account scope height ivtx vout).FoundAt account scope height ivtx vout :=
  ⟨rfl, rfl, rfl, rfl, rfl⟩

section Decrypters
variable [DecidableEq H]

/-- Keeps a parsed note only if it opens the commitment on chain. -/
def keepIfCommitted {N : Type} (parsed : Option (ParsedNote N H)) (cmx : H)
    (mk : ParsedNote N H → Note H) : Option (N × Note H) :=
  match parsed with
  | some p => if p.cmx = cmx then some (p.note, mk p) else none
  | none => none

theorem keepIfCommitted_some {N : Type} (parsed : Option (ParsedNote N H)) (cmx : H)
    (mk : ParsedNote N H → Note H) (n : N) (dbn : Note H)
    (hk : keepIfCommitted parsed cmx mk = some (n, dbn)) :
    ∃ p : ParsedNote N H, p.cmx = cmx ∧ dbn = mk p := by
  unfold keepIfCommitted at hk
  cases parsed with
  | none => simp at hk
  | some p =>
    dsimp only at hk
    split_ifs at hk with hc
    simp only [Option.some.injEq, Prod.mk.injEq] at hk
    exact ⟨p, hc, hk.2.symm⟩

variable [Inhabited H]

def trySaplingDecrypt (c : ZcashCrypto H) (account scope : ℕ) (ivk : c.SaplingIvk)
    (height ivtx vout : ℕ) (co : CompactSaplingOutput H) :
    Except Fault (Option (c.SaplingNote × Note H)) :=
  if co.ciphertext.length ≠ compactNoteSize then
    .error (.panic "copy_from_slice: source slice length does not match")
  else do
    let parsed ← c.parseSapling height ivk co
    pure (keepIfCommitted parsed co.cmu fun p => p.toNote 1 [] account scope height ivtx vout)

/-- The pool of an Orchard-style note is read off the lead byte of its plaintext, not off
    the bundle it was found in. -/
def tryOrchardDecrypt (c : ZcashCrypto H) (account scope : ℕ) (ivk : c.OrchardIvk)
    (height ivtx vout : ℕ) (ca : CompactOrchardAction H) :
    Except Fault (Option (c.OrchardNote × Note H)) := do
  let plaintext ← c.orchardPlaintext ivk ca
  let lead := plaintext.headD 0
  if 84 ≤ ca.ciphertext.length then
    if lead = 3 then
      let parsed ← c.parseZsa ivk ca plaintext
      pure (keepIfCommitted parsed ca.cmx fun p => p.toNote 2 p.rho account scope height ivtx vout)
    else pure none
  else if ca.ciphertext.length ≠ compactNoteSize then
    throw (.panic "copy_from_slice: source slice length does not match")
  else if lead = 3 then
    let parsed ← c.parseIronwood ivk ca plaintext
    pure (keepIfCommitted parsed ca.cmx fun p => p.toNote 3 p.rho account scope height ivtx vout)
  else if (lead = 1 ∨ lead = 2) ∧ c.plaintextVersionIsValid height lead then
    let parsed ← c.parseOrchard ivk ca plaintext
    pure (keepIfCommitted parsed ca.cmx fun p => p.toNote 2 p.rho account scope height ivtx vout)
  else pure none

/-- Issuance notes are in the clear; only their recipient decides whose they are. -/
def tryOrchardIssuance (c : ZcashCrypto H) (account scope : ℕ) (ivk : c.OrchardIvk)
    (height ivtx vout : ℕ) (note : CompactIssueNote) (base : Bytes) :
    Except Fault (Option (c.OrchardNote × Note H)) :=
  if note.recipient.length ≠ 43 then
    .error (.error "Invalid issuance note recipient length")
  else if c.isAddress note.recipient && c.ownsAddress ivk note.recipient then do
    let p ← c.constructIssuanceNote note base
    pure (some (p.note, p.toNote 2 p.rho account scope height ivtx vout))
  else .ok none

def saplingProtocol (c : ZcashCrypto H) : ShieldedProtocol H where
  IVK := c.SaplingIvk
  NK := c.SaplingNk
  PNote := c.SaplingNote
  Spend := CompactSaplingSpend H
  Output := CompactSaplingOutput H
  hasher := c.saplingHasher
  extractInputs := CompactTx.spends
  extractOutputs := CompactTx.outputs
  extractNf := CompactSaplingSpend.nf
  extractCmx := CompactSaplingOutput.cmu
  tryDecrypt := trySaplingDecrypt c
  deriveNf nk position n := .ok (c.saplingNf nk position n)
  tryDecryptIssuance _ _ _ _ _ _ _ _ := .ok none
  computeIssuanceCmx _ _ := .ok none

def orchardProtocol (c : ZcashCrypto H) : ShieldedProtocol H where
  IVK := c.OrchardIvk
  NK := c.OrchardFvk
  PNote := c.OrchardNote
  Spend := CompactOrchardAction H
  Output := CompactOrchardAction H
  hasher := c.orchardHasher
  extractInputs := CompactTx.actions
  extractOutputs := CompactTx.actions
  extractNf := CompactOrchardAction.nullifier
  extractCmx := CompactOrchardAction.cmx
  tryDecrypt := tryOrchardDecrypt c
  deriveNf nk _ n := .ok (c.orchardNf nk n)
  tryDecryptIssuance := tryOrchardIssuance c
  computeIssuanceCmx note base := do
    let p ← c.constructIssuanceNote note base
    pure (some p.cmx)

def ironwoodProtocol (c : ZcashCrypto H) : ShieldedProtocol H where
  IVK := c.OrchardIvk
  NK := c.OrchardFvk
  PNote := c.OrchardNote
  Spend := CompactOrchardAction H
  Output := CompactOrchardAction H
  hasher := c.orchardHasher
  extractInputs := CompactTx.ironwoodActions
  extractOutputs := CompactTx.ironwoodActions
  extractNf := CompactOrchardAction.nullifier
  extractCmx := CompactOrchardAction.cmx
  tryDecrypt := tryOrchardDecrypt c
  deriveNf nk _ n := .ok (c.orchardNf nk n)
  tryDecryptIssuance _ _ _ _ _ _ _ _ := .ok none
  computeIssuanceCmx _ _ := .ok none

/-- Whatever parser accepted the note, the record carries its coordinates and commitment. -/
theorem keepIfCommitted_found {N : Type} (parsed : Except Fault (Option (ParsedNote N H)))
    (cmx : H) (pool : ℕ) (rho : ParsedNote N H → Bytes) (account scope height ivtx vout : ℕ)
    (n : N) (dbn : Note H)
    (hk : (do
      let p ← parsed
      pure (keepIfCommitted p cmx fun p => p.toNote pool (rho p) account scope height ivtx vout)) =
        Except.ok (ε := Fault) (some (n, dbn))) :
    dbn.FoundAt account scope height ivtx vout ∧ dbn.cmx = cmx := by
  cases parsed with
  | error f => simp [bind, Except.bind] at hk
  | ok p =>
    simp only [bind, Except.bind, pure, Except.pure, Except.ok.injEq] at hk
    obtain ⟨q, hq, rfl⟩ := keepIfCommitted_some _ _ _ _ _ hk
    exact ⟨q.toNote_foundAt _ _ _ _ _ _ _, hq⟩

theorem trySaplingDecrypt_found (c : ZcashCrypto H) (account scope : ℕ) (ivk : c.SaplingIvk)
    (height ivtx vout : ℕ) (co : CompactSaplingOutput H) (n : c.SaplingNote) (dbn : Note H)
    (hd : trySaplingDecrypt c account scope ivk height ivtx vout co = .ok (some (n, dbn))) :
    dbn.FoundAt account scope height ivtx vout ∧ dbn.cmx = co.cmu := by
  unfold trySaplingDecrypt at hd
  split_ifs at hd
  exact keepIfCommitted_found _ _ 1 (fun _ => []) _ _ _ _ _ _ _ hd

theorem tryOrchardDecrypt_found (c : ZcashCrypto H) (account scope : ℕ) (ivk : c.OrchardIvk)
    (height ivtx vout : ℕ) (ca : CompactOrchardAction H) (n : c.OrchardNote) (dbn : Note H)
    (hd : tryOrchardDecrypt c account scope ivk height ivtx vout ca = .ok (some (n, dbn))) :
    dbn.FoundAt account scope height ivtx vout ∧ dbn.cmx = ca.cmx := by
  unfold tryOrchardDecrypt at hd
  cases hp : c.orchardPlaintext ivk ca with
  | error f => simp [hp, bind, Except.bind] at hd
  | ok plaintext =>
    simp only [hp] at hd
    change (if 84 ≤ ca.ciphertext.length then _ else _) = _ at hd
    split_ifs at hd
    · exact keepIfCommitted_found _ _ 2 ParsedNote.rho _ _ _ _ _ _ _ hd
    · simp [pure, Except.pure] at hd
    · exact keepIfCommitted_found _ _ 3 ParsedNote.rho _ _ _ _ _ _ _ hd
    · exact keepIfCommitted_found _ _ 2 ParsedNote.rho _ _ _ _ _ _ _ hd
    · simp [pure, Except.pure] at hd

theorem tryOrchardIssuance_found (c : ZcashCrypto H) (account scope : ℕ) (ivk : c.OrchardIvk)
    (height ivtx vout : ℕ) (note : CompactIssueNote) (base : Bytes) (n : c.OrchardNote)
    (dbn : Note H)
    (hd : tryOrchardIssuance c account scope ivk height ivtx vout note base =
      .ok (some (n, dbn))) :
    dbn.FoundAt account scope height ivtx vout ∧
      (orchardProtocol c).computeIssuanceCmx note base = .ok (some dbn.cmx) := by
  unfold tryOrchardIssuance at hd
  split_ifs at hd
  · cases hp : c.constructIssuanceNote note base with
    | error f => simp [hp, bind, Except.bind] at hd
    | ok p =>
      simp only [hp, bind, Except.bind, pure, Except.pure, Except.ok.injEq, Option.some.injEq,
        Prod.mk.injEq] at hd
      obtain ⟨-, rfl⟩ := hd
      refine ⟨p.toNote_foundAt _ _ _ _ _ _ _, ?_⟩
      simp [orchardProtocol, hp, bind, Except.bind, pure, Except.pure, ParsedNote.toNote]
  · simp at hd

theorem saplingProtocol_lawful (c : ZcashCrypto H) : (saplingProtocol c).Lawful where
  tryDecrypt_found := trySaplingDecrypt_found c
  tryDecryptIssuance_found := by
    intro _ _ _ _ _ _ _ _ _ _ hd
    simp [saplingProtocol] at hd
  issuance_uniform := Or.inl fun _ _ => rfl

theorem orchardProtocol_lawful (c : ZcashCrypto H) : (orchardProtocol c).Lawful where
  tryDecrypt_found := tryOrchardDecrypt_found c
  tryDecryptIssuance_found := tryOrchardIssuance_found c
  issuance_uniform := by
    right
    intro note base
    cases hp : c.constructIssuanceNote note base <;>
      simp [orchardProtocol, hp, bind, Except.bind, pure, Except.pure]

theorem ironwoodProtocol_lawful (c : ZcashCrypto H) : (ironwoodProtocol c).Lawful where
  tryDecrypt_found := tryOrchardDecrypt_found c
  tryDecryptIssuance_found := by
    intro _ _ _ _ _ _ _ _ _ _ hd
    simp [ironwoodProtocol] at hd
  issuance_uniform := Or.inl fun _ _ => rfl

end Decrypters

end ZcashSdk.Shielded
