import ZcashSdk.Lib.Outcomes
import ZcashSdk.Lib.Loops
import ZcashSdk.Shielded.Types

set_option autoImplicit false

/-!
# Signatures of an external signer

A device signs the transparent inputs of a planned transaction. Its signatures come with the
indexes of the inputs; each input has to be there once before any of them is applied.
-/
namespace ZcashSdk.Pay
open Shielded Loops Outcomes

structure PcztPackage where
  pczt : Bytes
  nSpends : Vector ℕ 4
  saplingIndices : List ℕ
  orchardIndices : List ℕ
  ironwoodIndices : List ℕ
  canSign : Bool
  canBroadcast : Bool
  price : Option Float
  category : Option ℕ
  isIssuance : Bool

/-! ### The crates -/

inductive SignerError where
  | invalidIndex
  | transparentSign (error : String)
  | other (error : String)

structure PcztLib where
  Pczt : Type
  Signer : Type
  Signature : Type
  fromDer : Bytes → Except String Signature
  parse : Bytes → Except String Pczt
  newSigner : Pczt → Except String Signer
  appendTransparentSignature : Signer → ℕ → Signature → Except SignerError Signer
  finish : Signer → Pczt
  finalizeSpends : Pczt → Except String Pczt
  serialize : Pczt → Except String Bytes

/-- A signature is kept with its input, and signs nothing that another one changes. -/
def PcztLib.KeepsApart (lib : PcztLib) : Prop :=
  ∀ s t u i j a b, i ≠ j → lib.appendTransparentSignature s i a = .ok t →
    lib.appendTransparentSignature t j b = .ok u →
    ∃ t', lib.appendTransparentSignature s j b = .ok t' ∧
      lib.appendTransparentSignature t' i a = .ok u

/-! ### The indexes -/

/-- Marks an input, which is one of the expected and not marked yet. -/
def markIndex (expected : ℕ) (seen : List Bool) (index : ℕ) : Except Fault (List Bool) :=
  if expected ≤ index then
    .error (.error (s!"transparent input index {index} is out of range: " ++
      s!"only {expected} transparent input(s)"))
  else
    match seen[index]? with
    | none =>
      .error (.panic s!"index out of bounds: the len is {seen.length} but the index is {index}")
    | some true => .error (.error s!"duplicate signature for transparent input {index}")
    | some false => .ok (seen.set index true)

def checkIndices (expected : ℕ) (indices : List ℕ) : Except Fault Unit := do
  let seen ← indices.foldlM (markIndex expected) (List.replicate expected false)
  match seen.findIdx? (fun signed => !signed) with
  | some index => .error (.error s!"missing a signature for transparent input {index}")
  | none => .ok ()

/-! ### The signatures -/

section Apply
variable (lib : PcztLib)

def orError {α : Type} (context : String) (x : Except String α) : Except Fault α :=
  x.mapError fun error => .error (context ++ error)

def parseSignature (pair : ℕ × Bytes) : Except Fault (ℕ × lib.Signature) :=
  match lib.fromDer pair.2 with
  | .ok signature => .ok (pair.1, signature)
  | .error error =>
    .error (.error s!"signature for transparent input {pair.1} is not valid DER: {error}")

def describe (index : ℕ) : SignerError → String
  | .invalidIndex => s!"transparent input index {index} is out of range"
  | .transparentSign error =>
    s!"signature for transparent input {index} failed sighash verification: {error}"
  | .other other => s!"failed to apply signature for transparent input {index}: {other}"

def appendSignature (signer : lib.Signer) (pair : ℕ × lib.Signature) : Except Fault lib.Signer :=
  (lib.appendTransparentSignature signer pair.1 pair.2).mapError
    fun error => .error (describe pair.1 error)

def applyTransparentSignatures (package : PcztPackage) (indices : List ℕ) (sigs : List Bytes) :
    Except Fault PcztPackage :=
  if indices.length ≠ sigs.length then
    .error (.error ("indices and signatures have different lengths: " ++
      s!"{indices.length} vs {sigs.length}"))
  else do
    checkIndices package.nSpends[0] indices
    let signatures ← (indices.zip sigs).mapM (parseSignature lib)
    let pczt ← orError "failed to parse PCZT: " (lib.parse package.pczt)
    let signer ← orError "failed to start signing session: " (lib.newSigner pczt)
    let signer ← signatures.foldlM (appendSignature lib) signer
    let pczt ← orError "failed to finalize PCZT spends: " (lib.finalizeSpends (lib.finish signer))
    let bytes ← orError "failed to serialize signed PCZT: " (lib.serialize pczt)
    .ok { package with pczt := bytes, canBroadcast := true }

end Apply

/-! ### What the check lets through -/

/-- The inputs below `expected`, those in the list marked. -/
def marks (expected : ℕ) (indices : List ℕ) : List Bool :=
  (List.range expected).map fun i => decide (i ∈ indices)

theorem marks_nil (expected : ℕ) : marks expected [] = List.replicate expected false := by
  simp [marks, List.map_const']

theorem marks_getElem? {expected i : ℕ} (indices : List ℕ) (hi : i < expected) :
    (marks expected indices)[i]? = some (decide (i ∈ indices)) := by
  simp [marks, hi]

theorem marks_set {expected index : ℕ} (indices : List ℕ) :
    (marks expected indices).set index true = marks expected (indices ++ [index]) := by
  refine List.ext_getElem (by simp [marks]) fun i hi _ => ?_
  rw [List.getElem_set]
  by_cases h : index = i
  · simp [marks, h]
  · have hne : i ≠ index := fun he => h he.symm
    simp [marks, h, hne]

theorem markIndex_ok {expected index : ℕ} {indices : List ℕ} (hlt : index < expected)
    (hnew : index ∉ indices) :
    markIndex expected (marks expected indices) index =
      .ok (marks expected (indices ++ [index])) := by
  rw [markIndex, if_neg (by omega), marks_getElem? indices hlt, decide_eq_false hnew]
  exact congrArg Except.ok (marks_set indices)

theorem markIndex_error {expected index : ℕ} {indices : List ℕ}
    (h : ¬ (index < expected ∧ index ∉ indices)) :
    ∃ message, markIndex expected (marks expected indices) index = .error (.error message) := by
  unfold markIndex
  by_cases hlt : index < expected
  · have hold : index ∈ indices := by
      by_contra hnew
      exact h ⟨hlt, hnew⟩
    rw [if_neg (by omega), marks_getElem? indices hlt, decide_eq_true hold]
    exact ⟨_, rfl⟩
  · rw [if_pos (by omega)]
    exact ⟨_, rfl⟩

/-- The loop marks the indexes one after another; what it stops at is no permutation. -/
theorem markIndices_meets (expected : ℕ) (indices : List ℕ) :
    Meets (fun e => (∃ message, e = .error message) ∧ ¬ indices.Perm (List.range expected))
      (fun seen => seen = marks expected indices ∧ indices.Nodup ∧ ∀ i ∈ indices, i < expected)
      (indices.foldlM (markIndex expected) (List.replicate expected false)) := by
  rw [← marks_nil]
  refine meets_foldlM (fun done seen => seen = marks expected done ∧ done.Nodup ∧
    ∀ i ∈ done, i < expected) (fun done index rest seen hsplit hinv => ?_) (by simp)
  obtain ⟨rfl, hnodup, hbound⟩ := hinv
  by_cases hfresh : index < expected ∧ index ∉ done
  · refine Meets.of_ok (markIndex_ok hfresh.1 hfresh.2) ⟨rfl, ?_, ?_⟩
    · rw [← List.concat_eq_append]
      exact hnodup.concat hfresh.2
    · intro i hi
      rcases List.mem_append.1 hi with hi | hi
      · exact hbound i hi
      · rw [List.mem_singleton.1 hi]
        exact hfresh.1
  · obtain ⟨message, herror⟩ := markIndex_error hfresh
    rw [herror]
    refine ⟨⟨message, rfl⟩, fun hperm => hfresh ⟨?_, ?_⟩⟩
    · exact List.mem_range.1 (hperm.mem_iff.1 (by rw [← hsplit]; simp))
    · have hall : (done ++ index :: rest).Nodup := hsplit ▸ hperm.nodup_iff.2 List.nodup_range
      rw [List.nodup_append] at hall
      exact fun hmem => hall.2.2 index hmem index List.mem_cons_self rfl

theorem perm_range_iff {expected : ℕ} {indices : List ℕ} :
    indices.Perm (List.range expected) ↔
      indices.Nodup ∧ (∀ i ∈ indices, i < expected) ∧ ∀ i < expected, i ∈ indices := by
  constructor
  · intro h
    refine ⟨h.nodup_iff.2 List.nodup_range, fun i hi => List.mem_range.1 (h.mem_iff.1 hi),
      fun i hi => h.mem_iff.2 (List.mem_range.2 hi)⟩
  · rintro ⟨hnodup, hbound, hall⟩
    refine (List.perm_ext_iff_of_nodup hnodup List.nodup_range).2 fun i => ?_
    rw [List.mem_range]
    exact ⟨hbound i, hall i⟩

theorem marks_all {expected : ℕ} {indices : List ℕ} :
    (marks expected indices).findIdx? (fun signed => !signed) = none ↔
      ∀ i < expected, i ∈ indices := by
  simp [marks, List.findIdx?_eq_none_iff]

theorem checkIndices_meets (expected : ℕ) (indices : List ℕ) :
    Meets (fun e => (∃ message, e = .error message) ∧ ¬ indices.Perm (List.range expected))
      (fun _ => indices.Perm (List.range expected)) (checkIndices expected indices) := by
  refine (markIndices_meets expected indices).bind fun seen hseen => ?_
  obtain ⟨rfl, hnodup, hbound⟩ := hseen
  rw [perm_range_iff]
  cases hmissing : (marks expected indices).findIdx? (fun signed => !signed) with
  | none => exact ⟨hnodup, hbound, marks_all.1 hmissing⟩
  | some index =>
    refine ⟨⟨_, rfl⟩, fun hall => ?_⟩
    rw [marks_all.2 hall.2.2] at hmissing
    cases hmissing

theorem checkIndices_ok_iff (expected : ℕ) (indices : List ℕ) :
    checkIndices expected indices = .ok () ↔ indices.Perm (List.range expected) := by
  have hmeets := checkIndices_meets expected indices
  constructor
  · exact hmeets.result
  · intro hperm
    cases hcheck : checkIndices expected indices with
    | ok u => rfl
    | error e => exact absurd hperm (hmeets.fault hcheck).2

/-! ### The order of the signatures -/

def applyPairs (lib : PcztLib) (package : PcztPackage) (pairs : List (ℕ × Bytes)) :
    Except Fault PcztPackage :=
  applyTransparentSignatures lib package (pairs.map Prod.fst) (pairs.map Prod.snd)

section Pairs
variable {lib : PcztLib} {package signed : PcztPackage} {pairs pairs' : List (ℕ × Bytes)}

theorem orError_eq_ok {α : Type} {context : String} {x : Except String α} {a : α} :
    orError context x = .ok a ↔ x = .ok a := by
  cases x <;> simp [orError, Except.mapError]

theorem appendSignature_eq_ok {s t : lib.Signer} {pair : ℕ × lib.Signature} :
    appendSignature lib s pair = .ok t ↔
      lib.appendTransparentSignature s pair.1 pair.2 = .ok t := by
  unfold appendSignature
  cases lib.appendTransparentSignature s pair.1 pair.2 <;> simp [Except.mapError]

theorem parseSignature_fst (pair : ℕ × Bytes) (parsed : ℕ × lib.Signature)
    (h : parseSignature lib pair = .ok parsed) : parsed.1 = pair.1 := by
  unfold parseSignature at h
  split at h <;> cases h
  rfl

theorem applyPairs_eq_ok : applyPairs lib package pairs = .ok signed ↔
    (pairs.map Prod.fst).Perm (List.range package.nSpends[0]) ∧ ∃ signatures pczt signer signer',
      pairs.mapM (parseSignature lib) = .ok signatures ∧
      lib.parse package.pczt = .ok pczt ∧ lib.newSigner pczt = .ok signer ∧
      signatures.foldlM (appendSignature lib) signer = .ok signer' ∧
      ∃ final bytes, lib.finalizeSpends (lib.finish signer') = .ok final ∧
        lib.serialize final = .ok bytes ∧
        signed = { package with pczt := bytes, canBroadcast := true } := by
  have hzip : (pairs.map Prod.fst).zip (pairs.map Prod.snd) = pairs := by
    rw [List.zip_map', List.map_id'']
    exact fun p => rfl
  unfold applyPairs applyTransparentSignatures
  rw [if_neg (by simp), hzip, bind_eq_ok]
  simp only [bind_eq_ok, orError_eq_ok, ← checkIndices_ok_iff]
  constructor
  · rintro ⟨⟨⟩, hcheck, signatures, hs, pczt, hp, signer, hsigner, signer', happend, final, hf, bytes,
      hb, h⟩
    cases h
    exact ⟨hcheck, signatures, pczt, signer, signer', hs, hp, hsigner, happend, final, bytes, hf, hb,
      rfl⟩
  · rintro ⟨hcheck, signatures, pczt, signer, signer', hs, hp, hsigner, happend, final, bytes, hf, hb,
      rfl⟩
    exact ⟨(), hcheck, signatures, hs, pczt, hp, signer, hsigner, signer', happend, final, hf, bytes,
      hb, rfl⟩

/-- A package is returned for every order of the pairs if for one, and it is the same. -/
theorem applyPairs_perm (hlib : lib.KeepsApart) (hperm : pairs.Perm pairs')
    (h : applyPairs lib package pairs = .ok signed) :
    applyPairs lib package pairs' = .ok signed := by
  obtain ⟨hrange, signatures, pczt, signer, signer', hs, hp, hsigner, happend, hrest⟩ :=
    applyPairs_eq_ok.1 h
  obtain ⟨signatures', hs', hsignatures⟩ := mapM_perm hperm hs
  have hnodup : (signatures.map Prod.fst).Nodup := by
    rw [mapM_ok_map Prod.fst Prod.fst parseSignature_fst hs]
    exact hrange.nodup_iff.2 List.nodup_range
  have hcomm : ∀ s t u (a b : ℕ × lib.Signature), a.1 ≠ b.1 →
      appendSignature lib s a = .ok t → appendSignature lib t b = .ok u →
      ∃ t', appendSignature lib s b = .ok t' ∧ appendSignature lib t' a = .ok u := by
    simp only [appendSignature_eq_ok]
    exact fun s t u a b hne ht hu => hlib s t u a.1 b.1 a.2 b.2 hne ht hu
  have happend' : signatures'.foldlM (appendSignature lib) signer = .ok signer' :=
    foldlM_perm (fun _ _ hne => hne.symm) hcomm hsignatures (List.pairwise_map.1 hnodup) happend
  exact applyPairs_eq_ok.2 ⟨(hperm.map Prod.fst).symm.trans hrange, signatures', pczt, signer,
    signer', hs', hp, hsigner, happend', hrest⟩

end Pairs

/-- The indexes pass exactly when each input is there once, what does not pass is an error, and
    neither a package nor its bytes depend on the order of the pairs. -/
theorem transparent_signatures (lib : PcztLib) (hlib : lib.KeepsApart) :
    (∀ n indices, (checkIndices n indices = .ok () ↔ indices.Perm (List.range n)) ∧
      ∀ message, checkIndices n indices ≠ .error (.panic message)) ∧
    ∀ package pairs pairs' signed, pairs.Perm pairs' →
      (applyPairs lib package pairs = .ok signed ↔ applyPairs lib package pairs' = .ok signed) := by
  refine ⟨fun n indices => ⟨checkIndices_ok_iff n indices, fun message herror => ?_⟩,
    fun package pairs pairs' signed hperm =>
      ⟨applyPairs_perm hlib hperm, applyPairs_perm hlib hperm.symm⟩⟩
  obtain ⟨⟨message', hmessage⟩, -⟩ := (checkIndices_meets n indices).fault herror
  cases hmessage

/-! ### Two inputs -/

def appendAt (inputs : List (Option Bytes)) (index : ℕ) (signature : Bytes) :
    Except SignerError (List (Option Bytes)) :=
  if index < inputs.length then .ok (inputs.set index (some signature)) else .error .invalidIndex

theorem appendAt_apart {s t u : List (Option Bytes)} {i j : ℕ} {a b : Bytes} (hne : i ≠ j)
    (ht : appendAt s i a = .ok t) (hu : appendAt t j b = .ok u) :
    ∃ t', appendAt s j b = .ok t' ∧ appendAt t' i a = .ok u := by
  unfold appendAt at ht hu ⊢
  split at ht <;> cases ht
  rename_i hi
  split at hu <;> cases hu
  rename_i hj
  rw [List.length_set] at hj
  refine ⟨s.set j (some b), if_pos hj, ?_⟩
  rw [if_pos (by rwa [List.length_set]), List.set_comm _ _ hne.symm]

/-- A transaction has an input for each byte, and a signature begins with the tag of a sequence. -/
def listPczt : PcztLib where
  Pczt := List (Option Bytes)
  Signer := List (Option Bytes)
  Signature := Bytes
  fromDer sig := if sig.head? = some 0x30 then .ok sig else .error "malformed signature"
  parse bytes := .ok (bytes.map fun _ => none)
  newSigner := .ok
  appendTransparentSignature := appendAt
  finish inputs := inputs
  finalizeSpends := .ok
  serialize inputs := .ok (inputs.flatMap fun signature => signature.getD [])

theorem listPczt_keepsApart : listPczt.KeepsApart :=
  fun _ _ _ _ _ _ _ => appendAt_apart

def twoInputs : PcztPackage where
  pczt := [0, 0]
  nSpends := #v[2, 0, 0, 0]
  saplingIndices := []
  orchardIndices := []
  ironwoodIndices := []
  canSign := false
  canBroadcast := false
  price := none
  category := none
  isIssuance := false

/-- The signatures of both inputs, in either order. -/
theorem twoInputs_signed :
    applyPairs listPczt twoInputs [(1, [0x30, 8]), (0, [0x30, 7])] =
      .ok { twoInputs with pczt := [0x30, 7, 0x30, 8], canBroadcast := true } :=
  (((transparent_signatures listPczt listPczt_keepsApart).2 twoInputs
    [(0, [0x30, 7]), (1, [0x30, 8])] [(1, [0x30, 8]), (0, [0x30, 7])]
    { twoInputs with pczt := [0x30, 7, 0x30, 8], canBroadcast := true } (.swap _ _ _)).1 rfl)

/-- Where both signatures are refused, the error names the input that comes first. -/
theorem twoInputs_refused :
    checkIndices twoInputs.nSpends[0] [0, 1] = .ok () ∧
      [(0, ([] : Bytes)), (1, [])].Perm [(1, []), (0, [])] ∧
      applyPairs listPczt twoInputs [(0, []), (1, [])] ≠
        applyPairs listPczt twoInputs [(1, []), (0, [])] := by
  refine ⟨rfl, .swap _ _ _, fun h => ?_⟩
  have hfirst : applyPairs listPczt twoInputs [(0, []), (1, [])] =
      .error (.error "signature for transparent input 0 is not valid DER: malformed signature") := rfl
  have hsecond : applyPairs listPczt twoInputs [(1, []), (0, [])] =
      .error (.error "signature for transparent input 1 is not valid DER: malformed signature") := rfl
  rw [hfirst, hsecond] at h
  exact absurd (Except.error.inj h) (by decide)

end ZcashSdk.Pay
